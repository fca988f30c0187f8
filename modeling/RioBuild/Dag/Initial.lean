import RioBuild.Dag.Incremental

namespace RioBuild.Dag

open Lib Relation List

variable {ρ : Type*}

def DerivationStatus.isDone : DerivationStatus → Bool
  | .completed | .skipped => true
  | _ => false

def DerivationStatus.isFailure : DerivationStatus → Bool
  | .poisoned | .dependencyFailed | .cancelled => true
  | _ => false

namespace DerivationDag

abbrev Graph (ρ : Type*) := { dag : DerivationDag ρ // dag.Mirrored ∧ dag.Acyclic }

def statusOf (dag : DerivationDag ρ) (h : DrvHash) : Option DerivationStatus :=
  (dag.nodes.lookup h).map DerivationState.status

def allDepsCompleted (dag : DerivationDag ρ) (h : DrvHash) : Bool :=
  ∀ c ∈ dag.children.row h, (dag.statusOf c).any DerivationStatus.isDone

def buildsCoOwn (dag : DerivationDag ρ) (a b : DrvHash) : Bool :=
  match dag.nodes.lookup a, dag.nodes.lookup b with
  | some na, some nb => ¬Disjoint na.interestedBuilds nb.interestedBuilds
  | _, _ => false

def anyCoOwnedDepTerminallyFailed (dag : DerivationDag ρ) (h : DrvHash) : Bool :=
  match dag.nodes.lookup h with
  | none => false
  | some parent => ∃ c ∈ dag.children.row h, (dag.nodes.lookup c).any fun n =>
    n.status.isFailure ∧ ¬Disjoint parent.interestedBuilds n.interestedBuilds

def initialState (dag : DerivationDag ρ) (willFail : Finset DrvHash) (h : DrvHash) :
    DerivationStatus :=
  if dag.allDepsCompleted h then .ready
  else if dag.anyCoOwnedDepTerminallyFailed h ∨
      ∃ c ∈ dag.children.row h, c ∈ willFail ∧ dag.buildsCoOwn h c then .dependencyFailed
  else .queued

def initialStates (dag : DerivationDag ρ) :
    List DrvHash → Finset DrvHash → List (DrvHash × DerivationStatus)
  | [], _ => []
  | h :: topo, willFail =>
    let status := dag.initialState willFail h
    (h, status) ::
      initialStates dag topo (if status = .dependencyFailed then insert h willFail else willFail)

def computeInitialStates (order : SweepOrder) (newlyInserted : Finset DrvHash)
    (dag : DerivationDag ρ) : Option (List (DrvHash × DerivationStatus)) :=
  (dag.kahnTopo order none newlyInserted).map fun topo => dag.initialStates topo ∅

/-- A way down to a failure through the scope; some build has an interest in both ends of each
link.  A link leads to a node that is not ready. -/
inductive Condemned (dag : DerivationDag ρ) (scope : Finset DrvHash) : DrvHash → Prop
  | failure : h ∈ scope → dag.Edge h c → dag.buildsCoOwn h c →
    (dag.statusOf c).any DerivationStatus.isFailure → Condemned dag scope h
  | link : h ∈ scope → dag.Edge h c → dag.buildsCoOwn h c → dag.allDepsCompleted c = false →
    Condemned dag scope c → Condemned dag scope h

structure Judged (dag : DerivationDag ρ) (scope : Finset DrvHash) (h : DrvHash)
    (status : DerivationStatus) : Prop where
  ready : status = .ready ↔ dag.allDepsCompleted h
  failed : status = .dependencyFailed ↔ dag.Condemned scope h ∧ dag.allDepsCompleted h = false
  queued : status = .queued ↔ ¬dag.Condemned scope h ∧ dag.allDepsCompleted h = false

variable {dag : DerivationDag ρ} {scope willFail : Finset DrvHash}

theorem anyCoOwnedDepTerminallyFailed_iff : dag.anyCoOwnedDepTerminallyFailed h ↔
    ∃ c, dag.Edge h c ∧ dag.buildsCoOwn h c ∧ (dag.statusOf c).any DerivationStatus.isFailure := by
  unfold anyCoOwnedDepTerminallyFailed buildsCoOwn statusOf
  cases dag.nodes.lookup h with
  | none => simp
  | some parent =>
    rw [decide_eq_true_eq]
    refine exists_congr fun c => and_congr_right fun _ => ?_
    cases dag.nodes.lookup c with
    | none => simp
    | some n => simp [and_comm]

theorem initialState_eq (hh : h ∈ scope)
    (hf : ∀ c, dag.Edge h c →
      (c ∈ willFail ↔ dag.Condemned scope c ∧ dag.allDepsCompleted c = false)) :
    dag.Judged scope h (dag.initialState willFail h) := by
  have hco : (dag.anyCoOwnedDepTerminallyFailed h ∨
      ∃ c ∈ dag.children.row h, c ∈ willFail ∧ dag.buildsCoOwn h c) ↔ dag.Condemned scope h := by
    rw [anyCoOwnedDepTerminallyFailed_iff]
    constructor
    · rintro (⟨c, he, ho, hc⟩ | ⟨c, he, hc, ho⟩)
      · exact .failure hh he ho hc
      · obtain ⟨hc, hw⟩ := (hf c he).mp hc
        exact .link hh he ho hw hc
    · rintro (⟨-, he, ho, hc⟩ | ⟨-, he, ho, hw, hc⟩)
      · exact .inl ⟨_, he, ho, hc⟩
      · exact .inr ⟨_, he, (hf _ he).mpr ⟨hc, hw⟩, ho⟩
  unfold initialState
  split_ifs with hr hc
  · constructor <;> simp [hr]
  all_goals
    rw [hco] at hc
    constructor <;> simp [hr, hc]

theorem initialStates_eq (ha : dag.Acyclic) (done : List DrvHash)
    (willFail : Finset DrvHash) (hs : ∀ h, h ∈ done ++ topo ↔ h ∈ scope)
    (hso : (done ++ topo).Pairwise fun a b => b ∉ dag.children.row a)
    (hf : ∀ c, c ∈ willFail ↔ c ∈ done ∧ dag.Condemned scope c ∧ dag.allDepsCompleted c = false) :
    (dag.initialStates topo willFail).map Prod.fst = topo ∧
      ∀ h status, (h, status) ∈ dag.initialStates topo willFail → dag.Judged scope h status := by
  induction topo generalizing done willFail with
  | nil => exact ⟨rfl, by simp [initialStates]⟩
  | cons x topo ih =>
    have hx : x ∈ scope := (hs x).mp (by simp)
    -- a child in the scope has been judged: it is not `x` and does not come later
    have hst := initialState_eq hx fun c he => by
      rw [hf]
      refine and_iff_right_of_imp fun ⟨hc, _⟩ => ?_
      have hm : c ∈ scope := by cases hc <;> assumption
      rw [← hs, mem_append, mem_cons] at hm
      rcases hm with hm | rfl | hm
      · exact hm
      · exact absurd (.single he) (ha c)
      · exact absurd he ((pairwise_cons.mp (pairwise_append.mp hso).2.1).1 c hm)
    have hn := ih (done ++ [x])
      (if dag.initialState willFail x = .dependencyFailed then insert x willFail
        else willFail) (by simpa using hs) (by simpa using hso) fun c => by
        rw [mem_append, mem_singleton]
        split_ifs with hco
        · rw [Finset.mem_insert, hf]
          have := hst.failed.mp hco
          constructor
          · rintro (rfl | h)
            · exact ⟨.inr rfl, this⟩
            · exact ⟨.inl h.1, h.2⟩
          · rintro ⟨h | rfl, hc⟩
            · exact .inr ⟨h, hc⟩
            · exact .inl rfl
        · rw [hf, or_and_right]
          refine (or_iff_left ?_).symm
          rintro ⟨rfl, hc⟩
          exact hco (hst.failed.mpr hc)
    rw [initialStates]
    refine ⟨by rw [map_cons, hn.1], fun h status hm => ?_⟩
    rcases mem_cons.mp hm with heq | hm
    · cases heq
      exact hst
    · exact hn.2 h status hm

theorem computeInitialStates_exact (dag : Graph ρ) (order : SweepOrder) (scope : Finset DrvHash) :
    ∃ states, dag.1.computeInitialStates order scope = some states ∧
      (states.map Prod.fst).Nodup ∧ (∀ h, h ∈ states.map Prod.fst ↔ h ∈ scope) ∧
      (states.map Prod.fst).Pairwise (fun a b => ¬dag.1.Edge a b) ∧
      ∀ h status, (h, status) ∈ states → dag.1.Judged scope h status := by
  obtain ⟨topo, ht, hn, hm, hs⟩ :=
    kahnTopo_eq order dag.2.1 dag.2.2 none scope
  obtain ⟨hma, hst⟩ := initialStates_eq dag.2.2 [] ∅ hm hs (by simp)
  refine ⟨_, by rw [computeInitialStates, ht]; rfl, ?_⟩
  rw [hma]
  exact ⟨hn, hm, hs, hst⟩

def nodeOf (h : DrvHash) (status : DerivationStatus) : DerivationState Unit :=
  { drvHash := h, drvPath := "/" ++ h, status, drvContent := [], inputSrcs := [], rest := ()
    interestedBuilds := {1} }

/-- The third node has been built already; what it was built from has failed since. -/
def chain : DerivationDag Unit where
  nodes := (((Finmap.insert "a" (nodeOf "a" .created) ∅).insert "b" (nodeOf "b" .created)).insert
    "c" (nodeOf "c" .completed)).insert "d" (nodeOf "d" .poisoned)
  children := Map.addTo "a" "b" (Map.addTo "b" "c" (Map.addTo "c" "d" ∅))
  parents := Map.addTo "b" "a" (Map.addTo "c" "b" (Map.addTo "d" "c" ∅))

theorem row_empty : (∅ : Map DrvHash (Finset DrvHash)).row h = ∅ := rfl

theorem chain_edge :
    chain.Edge p c ↔ p = "a" ∧ c = "b" ∨ p = "b" ∧ c = "c" ∨ p = "c" ∧ c = "d" := by
  simp [Edge, chain, Map.mem_row_addTo, row_empty]

theorem chain_graph : chain.Mirrored ∧ chain.Acyclic := by
  constructor
  · simp [Mirrored, chain, Map.mem_row_addTo, row_empty, and_comm]
  · have hlt {p c : DrvHash} (h : TransGen chain.Edge p c) : p < c := by
      refine TransGen.trans_induction_on h (fun h => ?_) fun _ _ => lt_trans
      rcases chain_edge.mp h with ⟨rfl, rfl⟩ | ⟨rfl, rfl⟩ | ⟨rfl, rfl⟩ <;> decide
    exact fun h hh => lt_irrefl h (hlt hh)

theorem computeInitialStates_readyLink : ∃ dag : Graph Unit,
    (∀ e ∈ [("a", "b"), ("b", "c"), ("c", "d")], dag.1.Edge e.1 e.2 ∧ dag.1.buildsCoOwn e.1 e.2) ∧
    dag.1.statusOf "d" = some .poisoned ∧ dag.1.allDepsCompleted "a" = false ∧
    dag.1.computeInitialStates (sweepFrom ["a", "b", "c"] (by decide)) {"a", "b", "c"} =
      some [("c", .dependencyFailed), ("b", .ready), ("a", .queued)] := by
  refine ⟨⟨chain, chain_graph⟩, ?_, by decide +kernel, by decide +kernel, by decide +kernel⟩
  unfold Edge
  decide +kernel

end DerivationDag

end RioBuild.Dag
