import RioBuild.Chunked.Begin

namespace RioBuild.Chunked

open Lib Castore Nar List

def walkFiles (events : List WalkEvent) : List (Digest × UInt64) :=
  events.filterMap fun ev =>
    match ev with
    | .file _ digest size _ => some (digest, size)
    | .enterDir _ | .leaveDir | .symlink _ _ => none

def runChunks (manifest : List (Digest × UInt32)) (start stop : Nat) : List (Digest × UInt32) :=
  (manifest.take stop).drop start

inductive Cut (manifest : List (Digest × UInt32)) :
    Nat → List (Digest × UInt64) → List FileRun → Nat → Prop
  | nil {start : Nat} : Cut manifest start [] [] start
  | cons {start stop last : Nat} {digest : Digest} {size : UInt64}
    {files : List (Digest × UInt64)} {runs : List FileRun} (le : start ≤ stop)
    (stop_le : stop ≤ manifest.length)
    (sum : manifestBytes (runChunks manifest start stop) = size.toNat)
    (rest : Cut manifest stop files runs last) :
    Cut manifest start ((digest, size) :: files) (⟨digest, size, start, stop⟩ :: runs) last

@[simp] theorem manifestBytes_nil : manifestBytes [] = 0 := rfl

@[simp] theorem manifestBytes_cons : manifestBytes (c :: l) = c.2.toNat + manifestBytes l := by
  simp [manifestBytes]

theorem coverFile_eq_some {covered : Nat} (h : coverFile size l taken covered = some (n, total)) :
    ∃ m ≤ l.length, n = taken + m ∧ total = covered + manifestBytes (l.take m) ∧ size ≤ total := by
  induction l generalizing taken covered with
  | nil =>
    rw [coverFile] at h
    split at h
    · cases h
    · cases h
      exact ⟨0, le_rfl, rfl, by simp, by omega⟩
  | cons c l ih =>
    rw [coverFile] at h
    split at h
    · obtain ⟨m, hm, rfl, rfl, hs⟩ := ih h
      refine ⟨m + 1, by simpa using hm, by omega, ?_, hs⟩
      rw [take_succ_cons, manifestBytes_cons]
      omega
    · cases h
      exact ⟨0, Nat.zero_le _, rfl, by simp, by omega⟩

theorem coverFile_of_exact (hp : ∀ c ∈ l, 0 < c.2.toNat)
    (hm : m ≤ l.length) (taken covered : Nat) (hs : covered + manifestBytes (l.take m) = size) :
    coverFile size l taken covered = some (taken + m, size) := by
  induction m generalizing l taken covered with
  | zero =>
    simp only [take_zero, manifestBytes_nil, add_zero] at hs
    cases l with
    | nil | cons c l => simp [coverFile, hs]
  | succ m ih =>
    cases l with
    | nil => cases hm
    | cons c l =>
      rw [take_succ_cons, manifestBytes_cons] at hs
      have hc := hp c mem_cons_self
      rw [coverFile, if_pos (by omega), ih (fun c' hc' => hp c' (mem_cons_of_mem _ hc'))
        (by simpa using hm) _ _ (by omega)]
      congr 2
      omega

theorem runChunks_eq : runChunks manifest start (start + m) = (manifest.drop start).take m := by
  rw [runChunks, drop_take, Nat.add_sub_cancel_left]

theorem alignFile_eq_ok (hx : x.2 ≤ manifest.length) (h : alignFile i manifest x ev = .ok y) :
    y.2 ≤ manifest.length ∧
      ∃ runs, y.1 = x.1 ++ runs ∧ Cut manifest x.2 (walkFiles [ev]) runs y.2 := by
  cases ev with
  | file name digest size executable =>
    simp only [alignFile] at h
    split at h
    · cases h
    · rename_i taken covered hc
      split at h
      · cases h
      · rename_i hcv
        cases h
        obtain ⟨m, hm, rfl, ht, -⟩ := coverFile_eq_some hc
        rw [length_drop] at hm
        have hs : x.2 + (0 + m) ≤ manifest.length := by omega
        refine ⟨hs, _, rfl, .cons (Nat.le_add_right _ _) hs ?_ .nil⟩
        rw [zero_add] at ht ⊢
        rw [runChunks_eq]
        omega
  | enterDir name | leaveDir | symlink name target =>
    cases h
    exact ⟨hx, [], by simp, .nil⟩

theorem Cut.append (h : Cut manifest start files runs mid)
    (h' : Cut manifest mid files' runs' last) :
    Cut manifest start (files ++ files') (runs ++ runs') last := by
  induction h with
  | nil => exact h'
  | cons le stop_le sum _ ih => exact .cons le stop_le sum (ih h')

theorem walkFiles_cons : walkFiles (ev :: events) = walkFiles [ev] ++ walkFiles events := by
  rw [walkFiles, ← singleton_append, filterMap_append]
  rfl

theorem foldlM_alignFile_eq_ok (hx : x.2 ≤ manifest.length)
    (h : events.foldlM (alignFile i manifest) x = .ok y) :
    ∃ runs, y.1 = x.1 ++ runs ∧ Cut manifest x.2 (walkFiles events) runs y.2 := by
  induction events generalizing x with
  | nil =>
    cases h
    exact ⟨[], by simp, .nil⟩
  | cons ev events ih =>
    rw [foldlM_cons, Guards.bind_eq_ok] at h
    obtain ⟨z, hz, h⟩ := h
    obtain ⟨hz', runs, hr, hc⟩ := alignFile_eq_ok hx hz
    obtain ⟨runs', hr', hc'⟩ := ih hz' h
    refine ⟨runs ++ runs', ?_, ?_⟩
    · rw [hr', hr, append_assoc]
    · rw [walkFiles_cons]
      exact hc.append hc'

theorem Cut.foldlM_alignFile (hp : ∀ c ∈ manifest, 0 < c.2.toNat)
    (h : Cut manifest start (walkFiles events) runs last) (acc : List FileRun) :
    events.foldlM (alignFile i manifest) (acc, start) = .ok (acc ++ runs, last) := by
  induction events generalizing start runs acc with
  | nil =>
    cases h
    simp
  | cons ev events ih =>
    rw [foldlM_cons, Guards.bind_eq_ok]
    cases ev with
    | file name digest size executable =>
      cases h with
      | @cons _ stop _ _ _ _ runs le stop_le sum rest =>
        obtain ⟨m, rfl⟩ := Nat.exists_eq_add_of_le le
        rw [runChunks_eq] at sum
        have hco := coverFile_of_exact (l := manifest.drop start) (m := m)
          (fun c hc => hp c (mem_of_mem_drop hc)) (by rw [length_drop]; omega) 0 0
          (by rw [sum, zero_add])
        refine ⟨(acc ++ [⟨digest, size, start, start + m⟩], start + m), ?_, ?_⟩
        · simp [alignFile, hco]
        · rw [ih rest, append_assoc]
          rfl
    | enterDir name | leaveDir | symlink name target => exact ⟨_, rfl, ih h acc⟩

theorem alignChunkRuns_sound (h : alignChunkRuns i out dirs = .ok runs) :
    (walk out.rootNode dirs maxNarEntries).2 = none ∧
      Cut out.chunkManifest 0 (walkFiles (walk out.rootNode dirs maxNarEntries).1) runs
        out.chunkManifest.length := by
  unfold alignChunkRuns at h
  rw [Guards.bind_eq_ok] at h
  obtain ⟨x, hx, h⟩ := h
  split at h
  · simp at h
  · rename_i he
    simp only [Guards.throw_bind, Guards.ite_throw_eq_ok, Guards.pure_eq_ok] at h
    obtain ⟨hl, rfl⟩ := h
    obtain ⟨runs, hr, hc⟩ := foldlM_alignFile_eq_ok (Nat.zero_le _) hx
    rw [hr, ← not_not.mp hl]
    exact ⟨he, hc⟩

theorem alignChunkRuns_complete (hp : ∀ c ∈ out.chunkManifest, 0 < c.2.toNat)
    (hw : (walk out.rootNode dirs maxNarEntries).2 = none)
    (hc : Cut out.chunkManifest 0 (walkFiles (walk out.rootNode dirs maxNarEntries).1) runs
      out.chunkManifest.length) :
    alignChunkRuns i out dirs = .ok runs := by
  unfold alignChunkRuns
  rw [Guards.bind_eq_ok]
  refine ⟨_, hc.foldlM_alignFile hp [], ?_⟩
  rw [hw]
  simp

end RioBuild.Chunked
