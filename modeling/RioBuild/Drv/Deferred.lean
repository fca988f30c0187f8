import RioBuild.Drv.StorePath

namespace RioBuild.Drv

open Lib Castore

def DerivationOutput.Deferred (o : DerivationOutput) : Prop := o.path = [] ∧ o.hashAlgo = []

instance (o : DerivationOutput) : Decidable o.Deferred := inferInstanceAs (Decidable (_ ∧ _))

/-- The loop over the outputs.  The outputs and the environment are those it leaves, also when it
fails. -/
def fillOutputs (makePath : Text → Except StorePathError StorePath) :
    List DerivationOutput → OrdMap Text Text →
      (List DerivationOutput × OrdMap Text Text) × Except StorePathError (List (Text × Text))
  | [], env => (([], env), .ok [])
  | o :: outputs, env =>
    if o.Deferred then
      match makePath o.name with
      | .error e => ((o :: outputs, env), .error e)
      | .ok path =>
        let ((outputs, env), filled) := fillOutputs makePath outputs (env.insert o.name path.full)
        (({ o with path := path.full } :: outputs, env), filled.map ((o.name, path.full) :: ·))
    else
      let ((outputs, env), filled) := fillOutputs makePath outputs env
      ((o :: outputs, env), filled)

namespace BasicDerivation

variable (sha256 : Text → Digest)

def outputPath (d : BasicDerivation) (drvName outputName : Text) :
    Except StorePathError StorePath :=
  StorePath.makeOutput sha256 outputName (sha256 d.toAterm) drvName

def fillDeferredOutputs (d : BasicDerivation) (drvName : Text) :
    BasicDerivation × Except StorePathError (List (Text × Text)) :=
  let ((outputs, env), filled) := fillOutputs (d.outputPath sha256 drvName) d.outputs d.env
  ({ d with outputs, env }, filled)

end BasicDerivation

def DerivationOutput.fill (makePath : Text → Except StorePathError StorePath)
    (o : DerivationOutput) : DerivationOutput :=
  match makePath o.name with
  | .ok path => if o.Deferred then { o with path := path.full } else o
  | .error _ => o

structure PassedOver (makePath : Text → Except StorePathError StorePath) (env : OrdMap Text Text)
    (done : List DerivationOutput) (env' : OrdMap Text Text) : Prop where
  known : ∀ o ∈ done, o.Deferred →
    ∃ path, makePath o.name = .ok path ∧ env'.get? o.name = some path.full
  others : ∀ name, (∀ o ∈ done, o.Deferred → o.name ≠ name) → env'.get? name = env.get? name

variable {o : DerivationOutput}

theorem DerivationOutput.fill_of_not (h : ¬o.Deferred) : o.fill makePath = o := by
  unfold fill
  split
  · exact if_neg h
  · rfl

theorem DerivationOutput.fill_of_ok {path : StorePath} (h : o.Deferred)
    (hp : makePath o.name = .ok path) : o.fill makePath = { o with path := path.full } := by
  rw [fill, hp]
  exact if_pos h

theorem PassedOver.skip (h : PassedOver makePath env done env')
    (ho : ¬o.Deferred) : PassedOver makePath env (o :: done) env' where
  known := List.forall_mem_cons.mpr ⟨fun hd => absurd hd ho, h.known⟩
  others name hn := h.others name (List.forall_mem_cons.mp hn).2

theorem PassedOver.cons {path : StorePath}
    (h : PassedOver makePath (env.insert o.name path.full) done env') (ho : o.Deferred)
    (hp : makePath o.name = .ok path) : PassedOver makePath env (o :: done) env' where
  known := by
    refine List.forall_mem_cons.mpr ⟨fun _ => ⟨path, hp, ?_⟩, h.known⟩
    -- A later output of the same name has the same path.
    by_cases hl : ∃ q ∈ done, q.Deferred ∧ q.name = o.name
    · obtain ⟨q, hq, hd, hn⟩ := hl
      obtain ⟨path', hp', hg⟩ := h.known q hq hd
      rw [hn] at hp' hg
      cases hp.symm.trans hp'
      exact hg
    · rw [h.others o.name fun q hq hd hn => hl ⟨q, hq, hd, hn⟩, OrdMap.get?_insert, if_pos rfl]
  others name hn := by
    obtain ⟨hh, ht⟩ := List.forall_mem_cons.mp hn
    rw [h.others name ht, OrdMap.get?_insert, if_neg (hh ho).symm]

theorem fillOutputs_spec (outputs : List DerivationOutput) (env : OrdMap Text Text) :
    ∃ done rest env' filled, outputs = done ++ rest ∧ fillOutputs makePath outputs env =
        ((done.map (DerivationOutput.fill makePath) ++ rest, env'), filled) ∧
      PassedOver makePath env done env' ∧
      ((rest = [] ∧ ∃ pairs, filled = .ok pairs) ∨
        ∃ o tail e, rest = o :: tail ∧ o.Deferred ∧ makePath o.name = .error e ∧
          filled = .error e) := by
  induction outputs generalizing env with
  | nil => exact ⟨[], [], env, _, rfl, rfl, ⟨nofun, fun _ _ => rfl⟩, .inl ⟨rfl, _, rfl⟩⟩
  | cons o outputs ih =>
    by_cases ho : o.Deferred
    · cases hp : makePath o.name with
      | error e =>
        refine ⟨[], o :: outputs, env, .error e, rfl, ?_, ⟨nofun, fun _ _ => rfl⟩,
          .inr ⟨o, outputs, e, rfl, ho, hp, rfl⟩⟩
        rw [fillOutputs, if_pos ho, hp]
        rfl
      | ok path =>
        obtain ⟨done, rest, env', filled, rfl, hf, hpd, he⟩ :=
          ih (env.insert o.name path.full)
        refine ⟨o :: done, rest, env', filled.map ((o.name, path.full) :: ·), rfl, ?_,
          hpd.cons ho hp, ?_⟩
        · rw [fillOutputs, if_pos ho, hp, List.map_cons, DerivationOutput.fill_of_ok ho hp]
          simp only [hf]
          rfl
        · rcases he with ⟨hr, pairs, rfl⟩ | ⟨q, tail, e, hr, hd, her, rfl⟩
          · exact .inl ⟨hr, _, rfl⟩
          · exact .inr ⟨q, tail, e, hr, hd, her, rfl⟩
    · obtain ⟨done, rest, env', filled, rfl, hf, hpd, he⟩ := ih env
      refine ⟨o :: done, rest, env', filled, rfl, ?_, hpd.skip ho, he⟩
      rw [fillOutputs, if_neg ho, List.map_cons, DerivationOutput.fill_of_not ho]
      simp only [hf]
      rfl

theorem full_ne_nil (h : StorePath.makeOutput sha256 outputName drvHash drvName = .ok path) :
    path.full ≠ [] := by
  simp only [StorePath.makeOutput, StorePath.fromFingerprint, Guards.bind_eq_ok] at h
  obtain ⟨_, -, h⟩ := h
  cases h
  exact List.cons_ne_nil _ _

/-- On success every deferred output has its path, which is also in its variable, and nothing else
has changed.  On failure the same holds of the outputs in front of the first one without a path, and
that one and those behind it are as they were. -/
theorem fillDeferredOutputs_spec (sha256 : Text → Digest) (d : BasicDerivation) (drvName : Text) :
    ∃ done rest, d.outputs = done ++ rest ∧ (d.fillDeferredOutputs sha256 drvName).1 =
        { d with
          outputs := done.map (DerivationOutput.fill (d.outputPath sha256 drvName)) ++ rest
          env := (d.fillDeferredOutputs sha256 drvName).1.env } ∧
      (∀ o ∈ done, o.Deferred → (o.fill (d.outputPath sha256 drvName)).path ≠ [] ∧
          (d.fillDeferredOutputs sha256 drvName).1.env.get? o.name =
            some (o.fill (d.outputPath sha256 drvName)).path) ∧
      (∀ o ∈ done, ¬o.Deferred → o.fill (d.outputPath sha256 drvName) = o) ∧
      (∀ name, (∀ o ∈ done, o.Deferred → o.name ≠ name) →
        (d.fillDeferredOutputs sha256 drvName).1.env.get? name = d.env.get? name) ∧
      ((rest = [] ∧ ∃ pairs, (d.fillDeferredOutputs sha256 drvName).2 = .ok pairs) ∨
        ∃ o tail e, rest = o :: tail ∧ o.Deferred ∧ d.outputPath sha256 drvName o.name = .error e ∧
          (d.fillDeferredOutputs sha256 drvName).2 = .error e) := by
  obtain ⟨done, rest, env, filled, hs, hf, hp, he⟩ :=
    @fillOutputs_spec (d.outputPath sha256 drvName) d.outputs d.env
  have hr : d.fillDeferredOutputs sha256 drvName =
      ({ d with
          outputs := done.map (DerivationOutput.fill (d.outputPath sha256 drvName)) ++ rest
          env }, filled) := by
    unfold BasicDerivation.fillDeferredOutputs
    rw [hf]
  rw [hr]
  refine ⟨done, rest, hs, rfl, fun o ho hd => ?_, fun o _ h => o.fill_of_not h, hp.others, he⟩
  obtain ⟨path, hpa, hg⟩ := hp.known o ho hd
  rw [DerivationOutput.fill_of_ok hd hpa]
  exact ⟨full_ne_nil hpa, hg⟩

def halfNamed : BasicDerivation :=
  { outputs := [⟨"out".toList, [], [], [], out_ne_nil⟩, ⟨"a b".toList, [], [], [], by decide⟩]
    inputSrcs := .empty
    platform := []
    builder := []
    args := []
    env := .empty }

theorem fillDeferredOutputs_stops_halfway :
    (halfNamed.fillDeferredOutputs (fun _ => ⟨List.replicate 32 0, rfl⟩) ['p']).2 =
        .error (.invalidNameChar ' ') ∧
      (halfNamed.fillDeferredOutputs (fun _ => ⟨List.replicate 32 0, rfl⟩) ['p']).1.outputs ≠
        halfNamed.outputs := by
  decide +kernel

end RioBuild.Drv
