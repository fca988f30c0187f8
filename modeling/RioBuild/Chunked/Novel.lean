import RioBuild.Chunked.Begin

namespace RioBuild.Chunked

open Lib Castore Nar List Search

theorem checkBound_eq_ok {got max : Nat} : checkBound field got max = .ok () ↔ got ≤ max := by
  unfold checkBound
  split
  · exact iff_of_false nofun (by omega)
  · exact iff_of_true rfl (by omega)

def manifestChunks (outputs : List ValidatedOutput) : List (Digest × UInt32) :=
  outputs.flatMap ValidatedOutput.chunkManifest

def OneSize (cs : List (Digest × UInt32)) : Prop :=
  ∀ c ∈ cs, ∀ c' ∈ cs, c.1 = c'.1 → c.2 = c'.2

def Sizes (cs : List (Digest × UInt32)) (m : Map Digest UInt32) : Prop :=
  ∀ d s, m.lookup d = some s ↔ (d, s) ∈ cs

variable {m m' : Map Digest UInt32}

section

variable (h : Sizes cs m)
include h

theorem Sizes.oneSize : OneSize cs := by
  rintro ⟨d, s⟩ hc ⟨d', s'⟩ hc' rfl
  exact Option.some_inj.mp (((h _ _).mpr hc).symm.trans ((h _ _).mpr hc'))

theorem Sizes.addSize_eq_ok (ho : addSize i m c = .ok m') : Sizes (cs ++ [c]) m' := by
  obtain ⟨d0, s0⟩ := c
  intro d s
  rw [mem_append, mem_singleton]
  unfold addSize at ho
  split at ho
  · rename_i s1 hs1
    split at ho
    · cases ho
    rename_i heq
    cases ho
    rw [not_not.mp heq] at hs1
    rw [h]
    refine ⟨.inl, ?_⟩
    rintro (hm | ⟨rfl, rfl⟩)
    · exact hm
    · exact (h _ _).mp hs1
  · rename_i hno
    cases ho
    rw [Map.lookup_insert_ite]
    by_cases hd : d = d0
    · subst hd
      have hn : (d, s) ∉ cs := fun hm => by
        have := (h _ _).mpr hm
        rw [hno] at this
        cases this
      simp [hn, eq_comm]
    · rw [if_neg hd, h]
      simp [hd]

theorem Sizes.exists_addSize (ho : OneSize (cs ++ [c])) : ∃ m', addSize i m c = .ok m' := by
  unfold addSize
  split
  · rename_i s hs
    have hm := (h _ _).mp hs
    have := ho (c.1, s) (by simp [hm]) c (by simp) rfl
    exact ⟨m, if_neg (not_not.mpr this)⟩
  · exact ⟨_, rfl⟩

theorem Sizes.foldlM_addSize (ho : l.foldlM (addSize i) m = .ok m') : Sizes (cs ++ l) m' := by
  induction l generalizing cs m with
  | nil =>
    cases ho
    rwa [append_nil]
  | cons c l ih =>
    rw [foldlM_cons, Guards.bind_eq_ok] at ho
    obtain ⟨m1, hm1, ho⟩ := ho
    rw [append_cons]
    exact ih (h.addSize_eq_ok hm1) ho

end

theorem OneSize.mono (h : OneSize l) (hs : ∀ c ∈ cs, c ∈ l) : OneSize cs :=
  fun c hc c' hc' => h c (hs c hc) c' (hs c' hc')

theorem Sizes.exists_foldlM (h : Sizes cs m) (ho : OneSize (cs ++ l)) :
    ∃ m', l.foldlM (addSize i) m = .ok m' := by
  induction l generalizing cs m with
  | nil => exact ⟨m, rfl⟩
  | cons c l ih =>
    rw [append_cons] at ho
    obtain ⟨m1, hm1⟩ : ∃ m', addSize i m c = .ok m' :=
      h.exists_addSize (ho.mono fun c' hc' => mem_append_left _ hc')
    obtain ⟨m', hm'⟩ := ih (h.addSize_eq_ok hm1) ho
    exact ⟨m', by rw [foldlM_cons, hm1]; exact hm'⟩

variable {outs : List (ValidatedOutput × Nat)}

theorem Sizes.foldlM_outputs (h : Sizes cs m)
    (ho : outs.foldlM (fun sizes out => out.1.chunkManifest.foldlM (addSize out.2) sizes) m =
      .ok m') :
    Sizes (cs ++ manifestChunks (outs.map Prod.fst)) m' := by
  induction outs generalizing cs m with
  | nil =>
    cases ho
    simpa [manifestChunks] using h
  | cons out outs ih =>
    rw [foldlM_cons, Guards.bind_eq_ok] at ho
    obtain ⟨m1, hm1, ho⟩ := ho
    have := ih (h.foldlM_addSize hm1) ho
    rwa [append_assoc] at this

theorem Sizes.exists_foldlM_outputs (h : Sizes cs m)
    (ho : OneSize (cs ++ manifestChunks (outs.map Prod.fst))) :
    ∃ m', outs.foldlM (fun sizes out => out.1.chunkManifest.foldlM (addSize out.2) sizes) m =
      .ok m' := by
  induction outs generalizing cs m with
  | nil => exact ⟨m, rfl⟩
  | cons out outs ih =>
    have ho' : OneSize (cs ++ out.1.chunkManifest ++ manifestChunks (outs.map Prod.fst)) := by
      rw [append_assoc]
      exact ho
    obtain ⟨m1, hm1⟩ : ∃ m', out.1.chunkManifest.foldlM (addSize out.2) m = .ok m' :=
      h.exists_foldlM (ho'.mono fun c' hc' => mem_append_left _ hc')
    obtain ⟨m', hm'⟩ := ih (h.foldlM_addSize hm1) ho'
    exact ⟨m', by rw [foldlM_cons, hm1]; exact hm'⟩

theorem sizes_empty : Sizes [] ∅ := fun d s => by simp

theorem checkSizes_isOk : (∃ m, checkSizes outputs = .ok m) ↔ OneSize (manifestChunks outputs) := by
  have hf : manifestChunks (outputs.zipIdx.map Prod.fst) = manifestChunks outputs := by
    rw [zipIdx_map_fst]
  constructor
  · rintro ⟨m, hm⟩
    have := (sizes_empty.foldlM_outputs hm).oneSize
    rwa [hf] at this
  · intro h
    rw [← hf] at h
    exact sizes_empty.exists_foldlM_outputs h

structure Positions (l : List Digest) (first : Map Digest Nat) : Prop where
  keys : first.keys = l.toFinset
  lookup : ∀ d n, first.lookup d = some n ↔ (unseen ∅ l)[n]? = some d

theorem length_unseen_empty (l : List Digest) : (unseen ∅ l).length = l.toFinset.card := by
  rw [← toFinset_card_of_nodup nodup_unseen]
  congr 1
  ext d
  simp

theorem Positions.addFirst (h : Positions l first)
    (d : Digest) : Positions (l ++ [d]) (addFirst first d) := by
  have hu : unseen ∅ (l ++ [d]) = unseen ∅ l ++ unseen l.toFinset [d] := by
    rw [unseen_append, Finset.empty_union]
  unfold Chunked.addFirst
  by_cases hd : d ∈ l
  · rw [if_pos (by rw [h.keys]; exact mem_toFinset.mpr hd)]
    refine ⟨?_, fun d' n => ?_⟩
    · rw [h.keys]
      ext d'
      simp only [mem_toFinset, mem_append, mem_singleton]
      refine ⟨.inl, fun hm => hm.elim id ?_⟩
      rintro rfl
      exact hd
    · rw [h.lookup, hu, unseen, if_pos (mem_toFinset.mpr hd), unseen, append_nil]
  · rw [if_neg (by rw [h.keys]; exact fun hm => hd (mem_toFinset.mp hm)), h.keys]
    refine ⟨?_, fun d' n => ?_⟩
    · ext d'
      rw [Finmap.mem_keys, Finmap.mem_insert, ← Finmap.mem_keys, h.keys]
      simp
    · rw [Map.lookup_insert_ite, hu, unseen, if_neg (fun hm => hd (mem_toFinset.mp hm)), unseen,
        ← length_unseen_empty, getElem?_append]
      have hlt : ∀ d' n, first.lookup d' = some n → n < (unseen ∅ l).length ∧ d' ∈ l := by
        intro d' n hn
        rw [h.lookup] at hn
        refine ⟨(List.getElem?_eq_some_iff.mp hn).1, ?_⟩
        exact (mem_unseen.mp (mem_of_getElem? hn)).1
      by_cases hn : n < (unseen ∅ l).length
      · rw [if_pos hn, ← h.lookup]
        split_ifs with heq
        · subst heq
          exact iff_of_false (fun heq => by cases heq; omega) fun hf => hd (hlt _ _ hf).2
        · exact Iff.rfl
      · split
        · rename_i heq
          subst heq
          simp only [Option.some.injEq, getElem?_singleton]
          split
          · exact iff_of_true (by omega) rfl
          · exact iff_of_false (by omega) (by simp)
        · rename_i hne
          refine iff_of_false (fun hf => hn (hlt _ _ hf).1) ?_
          simp only [getElem?_singleton]
          split
          · exact fun heq => hne (Option.some_inj.mp heq).symm
          · simp

theorem positions_firstOccurrence (outputs : List ValidatedOutput) :
    Positions (manifestDigests outputs) (firstOccurrence outputs) := by
  unfold firstOccurrence
  generalize manifestDigests outputs = l
  induction l using reverseRecOn with
  | nil => exact ⟨rfl, fun d n => by simp [unseen]⟩
  | append_singleton l d ih =>
    rw [foldl_append]
    exact ih.addFirst d

section Novel

variable {first : Map Digest Nat} {u : List Digest} {novel : List (Bytes × Nat)} {prev : Option Nat}
  {acc : List Digest} {y : Option Nat × List Digest}

def nextPosition (prev : Option Nat) : Nat := prev.elim 0 (· + 1)

theorem addNovel_eq_ok :
    addNovel first (prev, acc) (b, j) = .ok y ↔ ∃ d n, b = d.1 ∧ first.lookup d = some n ∧
      nextPosition prev ≤ n ∧ y = (some n, acc ++ [d]) := by
  unfold addNovel
  constructor
  · intro h
    split at h
    · cases h
    rename_i d hd
    split at h
    · cases h
    rename_i n hn
    split at h
    · cases h
    rename_i hlt
    cases h
    refine ⟨d, n, toDigest_eq_some.mp hd, hn, ?_, rfl⟩
    cases prev with
    | none => exact Nat.zero_le _
    | some p => simpa [nextPosition] using hlt
  · rintro ⟨d, n, rfl, hn, hlt, rfl⟩
    have hno : ¬prev.any (n ≤ ·) = true := by
      cases prev with
      | none => simp
      | some p => simpa [nextPosition] using hlt
    simp [toDigest_eq_some.mpr rfl, hn, hno]

theorem sublist_of_foldlM_addNovel (hf : ∀ d n, first.lookup d = some n ↔ u[n]? = some d)
    (h : novel.foldlM (addNovel first) (prev, acc) = .ok y) :
    ∃ ns, y.2 = acc ++ ns ∧ novel.map Prod.fst = ns.map Subtype.val ∧
      ns.Sublist (u.drop (nextPosition prev)) := by
  induction novel generalizing prev acc with
  | nil =>
    cases h
    exact ⟨[], by simp, rfl, nil_sublist _⟩
  | cons x novel ih =>
    rw [foldlM_cons, Guards.bind_eq_ok] at h
    obtain ⟨z, hz, h⟩ := h
    obtain ⟨d, n, hx, hn, hne, rfl⟩ := addNovel_eq_ok.mp hz
    obtain ⟨ns, hy, hnv, hs⟩ := ih h
    obtain ⟨hl, hd⟩ := List.getElem?_eq_some_iff.mp ((hf d n).mp hn)
    refine ⟨d :: ns, by simp [hy], by simp [hx, hnv], ?_⟩
    refine List.Sublist.trans ?_ (drop_sublist_drop_left u hne)
    rw [drop_eq_getElem_cons hl, hd]
    exact hs.cons_cons d

theorem exists_of_cons_sublist_drop {m : Nat} (h : (d :: ns).Sublist (u.drop m)) :
    ∃ n, u[m + n]? = some d ∧ ns.Sublist (u.drop (m + n + 1)) := by
  obtain ⟨r1, r2, hs, hd, hn⟩ := cons_sublist_iff.mp h
  obtain ⟨p, q, rfl⟩ := append_of_mem hd
  refine ⟨p.length, ?_, ?_⟩
  · rw [← getElem?_drop, hs]
    simp
  · rw [add_assoc, ← drop_drop, hs]
    simpa using hn.trans (sublist_append_right q r2)

theorem foldlM_addNovel_of_sublist (hf : ∀ d n, first.lookup d = some n ↔ u[n]? = some d)
    (prev : Option Nat) (acc : List Digest) (hnv : novel.map Prod.fst = ns.map Subtype.val)
    (h : ns.Sublist (u.drop (nextPosition prev))) :
    ∃ p, novel.foldlM (addNovel first) (prev, acc) = .ok (p, acc ++ ns) := by
  induction novel generalizing prev acc ns with
  | nil =>
    obtain rfl : ns = [] := map_eq_nil_iff.mp hnv.symm
    exact ⟨prev, by simp⟩
  | cons x novel ih =>
    cases ns with
    | nil => cases hnv
    | cons d ns =>
      obtain ⟨hx, hnv⟩ := cons.inj hnv
      obtain ⟨n, hn, hs⟩ := exists_of_cons_sublist_drop h
      obtain ⟨p, hp⟩ := ih (some (nextPosition prev + n)) (acc ++ [d]) hnv hs
      refine ⟨p, ?_⟩
      rw [foldlM_cons, Guards.bind_eq_ok]
      refine ⟨_, addNovel_eq_ok.mpr ⟨d, _, hx, (hf _ _).mpr hn, Nat.le_add_right _ _, rfl⟩, ?_⟩
      rw [hp, append_assoc]
      rfl

end Novel

theorem validateNovel_eq_ok : validateNovel novel outputs = .ok ns ↔
    novel.length ≤ maxBatchOutputs * maxChunks ∧ novel = ns.map Subtype.val ∧
      ns.Sublist (unseen ∅ (manifestDigests outputs)) := by
  have hf := (positions_firstOccurrence outputs).lookup
  have hfs := zipIdx_map_fst 0 novel
  unfold validateNovel
  rw [Guards.seq_eq_ok, checkBound_eq_ok]
  simp only [Guards.bind_eq_ok, Guards.pure_eq_ok]
  refine and_congr_right fun _ => ⟨?_, ?_⟩
  · rintro ⟨y, hy, rfl⟩
    obtain ⟨ns, hns, hn, hs⟩ := sublist_of_foldlM_addNovel hf hy
    rw [hfs] at hn
    rw [hns]
    exact ⟨hn, hs⟩
  · rintro ⟨hn, hs⟩
    obtain ⟨p, hp⟩ := foldlM_addNovel_of_sublist hf none [] (hfs.trans hn) hs
    exact ⟨_, hp, rfl⟩

end RioBuild.Chunked
