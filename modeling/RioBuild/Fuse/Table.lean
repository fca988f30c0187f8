import RioBuild.Fuse.Declared

namespace RioBuild.Fuse

open Lib Castore List

def Node.isDir : Node → Bool
  | .dir _ => true
  | .file .. | .symlink .. => false

def InoAlloc.add (nd : Node) (a : InoAlloc) : InoAlloc where
  next := a.next + 1
  files := match nd with
    | .file d _ x => a.files.insert (d, x) a.next
    | .dir _ | .symlink _ => a.files
  symlinks := match nd with
    | .symlink target => a.symlinks.insert target a.next
    | .dir _ | .file .. => a.symlinks

def Consistent (spec : List Bytes → Option Node) : Prop :=
  ∀ p q d s s' x x', spec p = some (.file d s x) → spec q = some (.file d s' x') → s = s'

/-- `log` holds the paths found, with their inodes. -/
structure Table.Inv (spec : List Bytes → Option Node) (log : List (List Bytes × Nat)) (t : Table) :
    Prop where
  nodup : (log.map Prod.fst).Nodup
  inodes : ∀ x ∈ log, ∃ nd, spec x.1 = some nd ∧ t.inodes.lookup x.2 = some nd
  bounds : ∀ x ∈ log, rootIno < x.2 ∧ x.2 < t.alloc.next
  next : rootIno < t.alloc.next
  files : ∀ d b i, t.alloc.files.lookup (d, b) = some i ↔
    ∃ x ∈ log, x.2 = i ∧ ∃ s, spec x.1 = some (.file d s b)
  symlinks : ∀ target i, t.alloc.symlinks.lookup target = some i ↔
    ∃ x ∈ log, x.2 = i ∧ spec x.1 = some (.symlink target)
  dirs : ∀ x ∈ log, ∀ y ∈ log, x.2 = y.2 → (∃ d, spec x.1 = some (.dir d)) → x = y
  nlink : ∀ x ∈ log, (∀ d, spec x.1 ≠ some (.dir d)) →
    t.nlink.lookup x.2 = some (UInt32.ofNat (log.countP (·.2 = x.2)))
  fresh : ∀ i, t.alloc.next ≤ i → t.nlink.lookup i = none

namespace Table.Inv

theorem empty : Table.Inv spec [] {} where
  nodup := nodup_nil
  inodes x hx := absurd hx not_mem_nil
  bounds x hx := absurd hx not_mem_nil
  next := Nat.lt_succ_self _
  files d b i := by simp
  symlinks target i := by simp
  dirs x hx := absurd hx not_mem_nil
  nlink x hx := absurd hx not_mem_nil
  fresh i _ := rfl

theorem ino_inj (h : Table.Inv spec log t) (hi : (p, i) ∈ log) (hj : (p, j) ∈ log) : i = j :=
  (Prod.ext_iff.mp (inj_on_of_nodup_map h.nodup hi hj rfl)).2

theorem nodup_concat (h : Table.Inv spec log t) (hp : p ∉ log.map Prod.fst) (i : Nat) :
    ((log ++ [(p, i)]).map Prod.fst).Nodup := by
  rw [map_append]
  refine nodup_append.mpr ⟨h.nodup, nodup_singleton _, ?_⟩
  rintro q hq _ hp' rfl
  have hpq : q = p := mem_singleton.mp hp'
  exact hp (hpq ▸ hq)

theorem countP_concat (i j : Nat) (p : List Bytes) :
    (log ++ [(p, j)]).countP (·.2 = i) = log.countP (·.2 = i) + if j = i then 1 else 0 := by
  simp

section

variable (h : Table.Inv spec log t)
include h

section

variable (hp : p ∉ log.map Prod.fst)
include hp

theorem reuse (hs : spec p = some nd)
    (hdi : nd.isDir = false) (hx : x ∈ log) (hnd : spec x.1 = some nd) :
    Table.Inv spec (log ++ [(p, x.2)]) (t.link x.2 t.alloc nd) := by
  have hno : t.inodes.lookup x.2 = some nd := by
    obtain ⟨nd', hs', hl⟩ := h.inodes x hx
    rwa [Option.some.inj (hs'.symm.trans hnd)] at hl
  have hinod : (t.link x.2 t.alloc nd).inodes = t.inodes := Map.insert_lookup hno
  have hn : ∀ d, some nd ≠ some (Node.dir d) := by
    rintro d hd
    cases hd
    cases hdi
  -- The new pair has the inode and the node of one that is there.
  have hsa (q : Nat → Option Node → Prop) :
      (∃ y ∈ log ++ [(p, x.2)], q y.2 (spec y.1)) ↔ ∃ y ∈ log, q y.2 (spec y.1) := by
    constructor
    · rintro ⟨y, hy, hq⟩
      rcases mem_append.mp hy with hy | hy
      · exact ⟨y, hy, hq⟩
      · rw [mem_singleton.mp hy] at hq
        exact ⟨x, hx, by rwa [hnd, ← hs]⟩
    · rintro ⟨y, hy, hq⟩
      exact ⟨y, mem_append_left _ hy, hq⟩
  refine ⟨h.nodup_concat hp _, ?_, ?_, h.next, fun d b i => ?_, fun target i => ?_, ?_, ?_, ?_⟩
  · intro y hy
    rw [hinod]
    rcases mem_append.mp hy with hy | hy
    · exact h.inodes y hy
    · rw [mem_singleton.mp hy]
      exact ⟨nd, hs, hno⟩
  · intro y hy
    rcases mem_append.mp hy with hy | hy
    · exact h.bounds y hy
    · rw [mem_singleton.mp hy]
      exact h.bounds x hx
  · exact (h.files d b i).trans (hsa fun j o => j = i ∧ ∃ s, o = some (.file d s b)).symm
  · exact (h.symlinks target i).trans (hsa fun j o => j = i ∧ o = some (.symlink target)).symm
  · rintro y hy z hz heq ⟨d, hd⟩
    rcases mem_append.mp hy with hy | hy
    · rcases mem_append.mp hz with hz | hz
      · exact h.dirs y hy z hz heq ⟨d, hd⟩
      · rw [mem_singleton.mp hz] at heq
        rw [h.dirs y hy x hx heq ⟨d, hd⟩, hnd] at hd
        exact absurd hd (hn d)
    · rw [mem_singleton.mp hy, hs] at hd
      exact absurd hd (hn d)
  · intro y hy hf
    rw [countP_concat, link]
    by_cases hin : y.2 = x.2
    · rw [hin, h.nlink x hx (hnd ▸ hn)]
      simp
    · rw [Finmap.lookup_insert_of_ne _ hin, if_neg (Ne.symm hin)]
      refine h.nlink y ?_ hf
      rcases mem_append.mp hy with hy | hy
      · exact hy
      · exact absurd (congrArg Prod.snd (mem_singleton.mp hy)) hin
  · intro i hi
    have hne : i ≠ x.2 := ((h.bounds x hx).2.trans_le hi).ne'
    rw [link, Finmap.lookup_insert_of_ne _ hne]
    exact h.fresh i hi

theorem add (hsp : spec p = some nd)
    (hf : ∀ d s b, nd = .file d s b → t.alloc.files.lookup (d, b) = none)
    (hsy : ∀ target, nd = .symlink target → t.alloc.symlinks.lookup target = none)
    {nlink : Map Nat UInt32} (hdi : nd.isDir = true → nlink = t.nlink)
    (hnl : nd.isDir = false → nlink = t.nlink.insert t.alloc.next 1) :
    Table.Inv spec (log ++ [(p, t.alloc.next)])
      { alloc := t.alloc.add nd, inodes := t.inodes.insert t.alloc.next nd, nlink := nlink } := by
  have ho : ∀ y ∈ log, y.2 ≠ t.alloc.next := fun y hy => (h.bounds y hy).2.ne
  have hc {y : List Bytes × Nat} (hy : y ∈ log ++ [(p, t.alloc.next)]) :
      y ∈ log ∨ y = (p, t.alloc.next) := by simpa using hy
  have hm i (q : Option Node → Prop) : (∃ y ∈ log ++ [(p, t.alloc.next)], y.2 = i ∧ q (spec y.1)) ↔
        (∃ y ∈ log, y.2 = i ∧ q (spec y.1)) ∨ t.alloc.next = i ∧ q (some nd) := by
    simp [hsp]
  have hl {i : Nat} (hi : i ≠ t.alloc.next) : nlink.lookup i = t.nlink.lookup i := by
    cases hn : nd.isDir with
    | true => rw [hdi hn]
    | false => rw [hnl hn, Finmap.lookup_insert_of_ne _ hi]
  have hze : log.countP (·.2 = t.alloc.next) = 0 := by
    rw [countP_eq_zero]
    exact fun y hy => by simpa using ho y hy
  refine ⟨h.nodup_concat hp _, ?_, ?_, h.next.trans (Nat.lt_succ_self _), ?_, ?_, ?_, ?_, ?_⟩
  · intro y hy
    rcases hc hy with hy | rfl
    · obtain ⟨nd', hsp', hlk⟩ := h.inodes y hy
      exact ⟨nd', hsp', by rwa [Finmap.lookup_insert_of_ne _ (ho y hy)]⟩
    · exact ⟨nd, hsp, Finmap.lookup_insert _⟩
  · intro y hy
    rcases hc hy with hy | rfl
    · exact ⟨(h.bounds y hy).1, (h.bounds y hy).2.trans (Nat.lt_succ_self _)⟩
    · exact ⟨h.next, Nat.lt_succ_self _⟩
  · intro d b i
    rw [hm i fun o => ∃ s, o = some (.file d s b), ← h.files]
    cases nd with
    | file d' s' b' =>
      have hno := hf d' s' b' rfl
      dsimp only [InoAlloc.add]
      rw [Map.lookup_insert_ite]
      by_cases hk : (d, b) = (d', b')
      · rw [hk, hno]
        cases hk
        simp
      · rw [if_neg hk]
        refine (or_iff_left ?_).symm
        rintro ⟨-, s, hs⟩
        cases hs
        exact hk rfl
    | dir d' | symlink target => simp [InoAlloc.add]
  · intro target i
    rw [hm i (· = some (.symlink target)), ← h.symlinks]
    cases nd with
    | symlink target' =>
      have hno := hsy target' rfl
      dsimp only [InoAlloc.add]
      rw [Map.lookup_insert_ite]
      by_cases hk : target = target'
      · rw [hk, hno]
        simp
      · rw [if_neg hk]
        refine (or_iff_left ?_).symm
        rintro ⟨-, hs⟩
        cases hs
        exact hk rfl
    | dir d' | file d' s' b' => simp [InoAlloc.add]
  · rintro y hy z hz heq hd
    rcases hc hy with hy | rfl
    · rcases hc hz with hz | rfl
      · exact h.dirs y hy z hz heq hd
      · exact absurd heq (ho y hy)
    · rcases hc hz with hz | rfl
      · exact absurd heq.symm (ho z hz)
      · rfl
  · intro y hy hnot
    rw [countP_concat]
    rcases hc hy with hy | rfl
    · rw [if_neg (ho y hy).symm]
      exact (hl (ho y hy)).trans (h.nlink y hy hnot)
    · have hn : nd.isDir = false := by
        cases nd with
        | dir d => exact absurd hsp (hnot d)
        | file d s b | symlink target => rfl
      rw [hnl hn, hze]
      simp
  · intro i hi
    exact (hl (Nat.lt_of_succ_le hi).ne').trans (h.fresh i ((Nat.le_succ _).trans hi))

theorem insertDir (hs : spec p = some (.dir d)) :
    Table.Inv spec (log ++ [(p, (t.insertDir d).1)]) (t.insertDir d).2 :=
  h.add hp hs nofun nofun (fun _ => rfl) nofun

theorem insertSymlink (hs : spec p = some (.symlink s.target)) :
    Table.Inv spec (log ++ [(p, (t.insertSymlink s).1)]) (t.insertSymlink s).2 := by
  unfold Table.insertSymlink InoAlloc.symlink
  cases hl : t.alloc.symlinks.lookup s.target with
  | some i =>
    obtain ⟨x, hx, rfl, hn⟩ := (h.symlinks _ _).mp hl
    exact h.reuse hp hs rfl hx hn
  | none =>
    refine h.add hp hs nofun ?_ nofun fun _ => ?_
    · rintro _ ⟨⟩
      exact hl
    · rw [h.fresh _ le_rfl]
      rfl

end

theorem insertFile (hsp : Consistent spec)
    (hp : p ∉ log.map Prod.fst) (hd : toDigest f.digest = some d)
    (hn : spec p = some (.file d f.size f.executable)) (context : Bytes) :
    ∃ i t', t.insertFile f context = .ok (i, t') ∧ Table.Inv spec (log ++ [(p, i)]) t' := by
  unfold Table.insertFile digest32 InoAlloc.file
  rw [hd]
  refine ⟨_, _, rfl, ?_⟩
  cases hl : t.alloc.files.lookup (d, f.executable) with
  | some i =>
    obtain ⟨x, hx, rfl, s, hs⟩ := (h.files _ _ _).mp hl
    rw [hsp _ _ _ _ _ _ _ hs hn] at hs
    exact h.reuse hp hn rfl hx hs
  | none =>
    refine h.add hp hn ?_ nofun nofun fun _ => ?_
    · rintro _ _ _ ⟨⟩
      exact hl
    · rw [h.fresh _ le_rfl]
      rfl

end

end Table.Inv

theorem Table.insertFile_error (hd : toDigest f.digest = none) (context : Bytes)
    (t : Table) : ∃ e, t.insertFile f context = .error e := by
  unfold insertFile digest32
  rw [hd]
  exact ⟨_, rfl⟩

end RioBuild.Fuse
