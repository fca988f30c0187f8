import RioBuild.Fuse.Walk

namespace RioBuild.Fuse

open Lib Castore List Build UInt32

def Node.attr (ino : Nat) (nlink : UInt32) : Node → FileAttr
  | .dir _ => makeAttr ino .directory 0 0o555 nlink
  | .file _ size executable =>
    makeAttr ino .regularFile size (if executable then 0o555 else 0o444) nlink
  | .symlink target => makeAttr ino .symlink (UInt64.ofNat target.length) 0o777 nlink

def InoMap.numbered (es : List (Bytes × Nat × FileType)) : List InoMap.DirEntry :=
  es.mapIdx fun i e => { ino := e.2.1, nextOffset := i + 1, kind := e.2.2, name := e.1 }

structure Mounted (inp : Inputs) (m : InoMap) : Prop where
  node : ∀ p nd, p ≠ [] → (inp.nodeAt p = some nd ↔
    ∃ i, m.walk rootIno p = some i ∧ m.inodes.lookup i = some nd)
  missing : ∀ p, p ≠ [] → inp.nodeAt p = none → m.walk rootIno p = none
  dirs : ∀ p q d, inp.nodeAt p = some (.dir d) → m.walk rootIno p = m.walk rootIno q → p = q
  files : ∀ p q d s x d' s' x', inp.nodeAt p = some (.file d s x) →
    inp.nodeAt q = some (.file d' s' x') → (m.walk rootIno p = m.walk rootIno q ↔ d = d' ∧ x = x')
  symlinks : ∀ p q target target', inp.nodeAt p = some (.symlink target) →
    inp.nodeAt q = some (.symlink target') →
    (m.walk rootIno p = m.walk rootIno q ↔ target = target')
  links : ∀ p nd i, inp.nodeAt p = some nd → nd.isDir = false → m.walk rootIno p = some i →
    ∃ n, m.attr i = some (nd.attr i n) ∧ n.toNat = {q | m.walk rootIno q = some i}.ncard
  dirLinks : ∀ p d i, inp.nodeAt p = some (.dir d) → m.walk rootIno p = some i →
    m.attr i = some ((Node.dir d).attr i (ofNat (2 + (inp.subdirs p).ncard)))
  rootLinks : m.attr rootIno =
    some (makeAttr rootIno .directory 0 0o555 (ofNat (2 + (inp.subdirs []).ncard)))
  readdir : ∀ p i, p = [] ∨ (∃ d, inp.nodeAt p = some (.dir d)) → m.walk rootIno p = some i →
    ∃ parent kids, m.walk rootIno p.dropLast = some parent ∧ (kids.map Prod.fst).Nodup ∧
      (∀ n j k, (n, j, k) ∈ kids ↔
        m.walk rootIno (p ++ [n]) = some j ∧ ∃ nd, inp.nodeAt (p ++ [n]) = some nd ∧ nd.kind = k) ∧
      ∀ offset, m.readdir i offset =
        some ((InoMap.numbered (InoMap.dots i parent ++ kids)).drop offset)

variable {n : Bytes} {i j : Nat} {found : List (Bytes × Nat × Node)}

section

variable (h : Kids inp log p found)
include h

theorem Kids.mem_log_iff (ht : Table.Inv inp.nodeAt log t) :
    (p ++ [n], i) ∈ log ↔ ∃ nd, (n, i, nd) ∈ found := by
  constructor
  · intro hm
    obtain ⟨nd, hnd, -⟩ := ht.inodes _ hm
    obtain ⟨j, hj⟩ := (h.nodes n nd).mp hnd
    exact ⟨nd, ht.ino_inj hm (h.logged _ hj) ▸ hj⟩
  · rintro ⟨nd, hm⟩
    exact h.logged _ hm

theorem Kids.ncard_subdirs : (inp.subdirs p).ncard = found.countP (·.2.2.isDir) := by
  have hs : inp.subdirs p = ((found.filter (·.2.2.isDir)).map Prod.fst).toFinset := by
    ext n
    simp only [Inputs.subdirs, h.nodes, Finset.mem_coe, mem_toFinset, mem_map, mem_filter]
    constructor
    · rintro ⟨d, i, hm⟩
      exact ⟨_, ⟨hm, rfl⟩, rfl⟩
    · rintro ⟨⟨n, i, nd⟩, ⟨hm, hd⟩, rfl⟩
      cases nd with
      | dir d => exact ⟨d, i, hm⟩
      | file d s x | symlink target => cases hd
  have hn : ((found.filter (·.2.2.isDir)).map Prod.fst).Nodup :=
    h.names.sublist (filter_sublist.map _)
  rw [hs, Set.ncard_coe_finset, toFinset_card_of_nodup hn, length_map, countP_eq_length_filter]

theorem Kids.dirNlink :
    2 + ofNat (found.countP (·.2.2.isDir)) = ofNat (2 + (inp.subdirs p).ncard) := by
  rw [h.ncard_subdirs, ofNat_add]
  rfl

end

theorem lookup_byName (h : (found.map Prod.fst).Nodup) :
    Finmap.lookup n ((found.map fun e => (e.1, e.2.1, e.2.2.kind)).foldl
      (fun (m : Map Bytes Nat) e => m.insert e.1 e.2.1) ∅) = some i ↔ ∃ nd, (n, i, nd) ∈ found := by
  have hlk := Map.lookup_foldl_insert (m := ∅) (a := n)
    (fun e : Bytes × Nat × Node => e.1) (fun e => e.2.1) found
  rw [foldl_map, hlk]
  cases hl : (found.filter (·.1 = n)).getLast? with
  | none =>
    refine iff_of_false (by simp) ?_
    rintro ⟨nd, hm⟩
    exact Map.getLast?_filter_eq_none.mp hl _ hm rfl
  | some e =>
    obtain ⟨hm, hk⟩ := Map.mem_of_getLast?_filter hl
    obtain ⟨m, j, nd⟩ := e
    cases hk
    simp only [Option.map_some, Option.some_or, Option.some.injEq]
    constructor
    · rintro rfl
      exact ⟨nd, hm⟩
    · rintro ⟨nd', hm'⟩
      have heq := inj_on_of_nodup_map h hm hm' rfl
      cases heq
      rfl

namespace Build.Inv

theorem attr_isSome (h : Inv inp log done [] rootKids b) (hp : (p, i) ∈ log) :
    (b.finish.attr i).isSome := by
  obtain ⟨nd, -, hl⟩ := h.table.inodes _ hp
  have hi : i ≠ rootIno := (h.table.bounds _ hp).1.ne'
  unfold InoMap.attr finish
  rw [if_neg hi, hl]
  cases nd <;> rfl

theorem lookup_iff (h : Inv inp log done [] rootKids b) (hi : InoAt log p i) :
    (b.finish.lookup i n).map Prod.fst = some j ↔ (p ++ [n], j) ∈ log := by
  have hat {o : Option Nat} (ho : o = some j ↔ (p ++ [n], j) ∈ log) :
      (o.bind fun ino => (b.finish.attr ino).map (ino, ·)).map Prod.fst = some j ↔
        (p ++ [n], j) ∈ log := by
    rw [← ho]
    cases o with
    | none => simp
    | some k =>
      simp only [Option.bind_some, Option.map_map, Option.some.injEq, Option.map_eq_some_iff]
      constructor
      · rintro ⟨a, -, hk⟩
        exact hk
      · rintro rfl
        obtain ⟨a, ha⟩ := Option.isSome_iff_exists.mp (h.attr_isSome (ho.mp rfl))
        exact ⟨a, ha, rfl⟩
  unfold InoMap.lookup
  rcases hi with ⟨rfl, rfl⟩ | hp
  · exact hat ((h.roots n j).trans (h.kids.mem_log_iff h.table).symm)
  · rw [if_neg (h.table.bounds _ hp).1.ne']
    refine hat ?_
    by_cases hd : p ∈ done
    · obtain ⟨-, -, -, hin, hl, hkd, hs⟩ := h.expanded p hd
      rw [h.table.ino_inj hin hp] at hl
      rw [finish, hl, Option.bind_some, hs.byName, hs.entries, lookup_byName hkd.names]
      exact (hkd.mem_log_iff h.table).symm
    · have hno : b.children.lookup i = none := by
        cases hl : b.children.lookup i with
        | none => rfl
        | some c =>
          obtain ⟨q, hq, hm⟩ := h.only i c hl
          obtain ⟨hn, -, -, -, -, -, -⟩ := h.expanded q hq
          cases h.table.dirs _ hm _ hp rfl ⟨_, hn⟩
          exact absurd hq hd
      refine iff_of_false (by simp [finish, hno]) ?_
      intro hm
      rcases h.parents p n (mem_map_of_mem hm) with rfl | hp'
      · obtain ⟨nd, hnd, -⟩ := h.table.inodes _ hp
        cases hnd
      · exact hd hp'

end Build.Inv

theorem InoMap.walk_concat (m : InoMap) (i : Nat) :
    m.walk i (p ++ [n]) = (m.walk i p).bind fun j => (m.lookup j n).map Prod.fst := by
  induction p generalizing i with
  | nil =>
    simp only [nil_append, walk, Option.bind_some]
    cases m.lookup i n <;> rfl
  | cons k p ih =>
    simp only [cons_append, walk, Option.bind_assoc]
    exact congrArg _ (funext fun x => ih x.1)

namespace Build.Inv

theorem inoAt_concat : InoAt log (p ++ [n]) j ↔ (p ++ [n], j) ∈ log := by
  simp [InoAt]

section

variable (h : Inv inp log done [] rootKids b)
include h

theorem walk_iff : b.finish.walk rootIno p = some i ↔ InoAt log p i := by
  induction p using reverseRecOn generalizing i with
  | nil =>
    simp only [InoMap.walk, Option.some.injEq, InoAt, true_and]
    refine ⟨fun hi => .inl hi.symm, ?_⟩
    rintro (rfl | hm)
    · rfl
    · obtain ⟨nd, hnd, -⟩ := h.table.inodes _ hm
      cases hnd
  | append_singleton p n ih =>
    rw [InoMap.walk_concat, Option.bind_eq_some_iff, inoAt_concat]
    constructor
    · rintro ⟨j, hj, hl⟩
      exact (h.lookup_iff (ih.mp hj)).mp hl
    · intro hm
      have hpa : ∃ j, InoAt log p j := by
        rcases h.parents p n (mem_map_of_mem hm) with rfl | hp
        · exact ⟨rootIno, .inl ⟨rfl, rfl⟩⟩
        · obtain ⟨x, hx, rfl⟩ := mem_map.mp (h.logged hp)
          exact ⟨x.2, .inr hx⟩
      obtain ⟨j, hj⟩ := hpa
      exact ⟨j, ih.mpr hj, (h.lookup_iff hj).mpr hm⟩

theorem mem_done (hp : (p, i) ∈ log) (hd : inp.nodeAt p = some (.dir d)) : p ∈ done := by
  rcases h.covered _ hp d hd with hdo | ht
  · exact hdo
  · cases ht

section

variable (hnd : inp.nodeAt p = some nd)
include hnd

theorem exists_mem_log : ∃ i, (p, i) ∈ log := by
  induction p using reverseRecOn generalizing nd with
  | nil => cases hnd
  | append_singleton p n ih =>
    have hk : ∃ found, Kids inp log p found := by
      by_cases hp : p = []
      · exact ⟨rootKids, hp ▸ h.kids⟩
      · have hpa := hnd
        rw [Inputs.nodeAt_concat hp] at hpa
        obtain ⟨parent, hpa, hc⟩ := Option.bind_eq_some_iff.mp hpa
        cases parent with
        | file d s x | symlink target => cases hc
        | dir d =>
          obtain ⟨i, hi⟩ := ih hpa
          obtain ⟨-, -, -, -, -, hk, -⟩ := h.expanded p (h.mem_done hi hpa)
          exact ⟨_, hk⟩
    obtain ⟨found, hk⟩ := hk
    obtain ⟨i, hi⟩ := (hk.nodes n nd).mp hnd
    exact ⟨i, hk.logged _ hi⟩

theorem mem_log_of_walk (hi : b.finish.walk rootIno p = some i) : (p, i) ∈ log := by
  rcases h.walk_iff.mp hi with ⟨rfl, -⟩ | hm
  · cases hnd
  · exact hm

theorem exists_walk : ∃ i, (p, i) ∈ log ∧ b.finish.walk rootIno p = some i := by
  obtain ⟨i, hi⟩ := h.exists_mem_log hnd
  exact ⟨i, hi, h.walk_iff.mpr (.inr hi)⟩

theorem lookup_inodes (hi : (p, i) ∈ log) : b.finish.inodes.lookup i = some nd := by
  obtain ⟨nd', hnd', hl⟩ := h.table.inodes _ hi
  rwa [hnd.symm.trans hnd']

end

theorem walk_eq_iff (hp : inp.nodeAt p = some nd)
    (hq : inp.nodeAt q = some nd') (hs : ∀ i j, (p, i) ∈ log → (q, j) ∈ log → same → i = j)
    (heq : nd = nd' → same) : b.finish.walk rootIno p = b.finish.walk rootIno q ↔ same := by
  obtain ⟨i, hi, hw⟩ := h.exists_walk hp
  obtain ⟨j, hj, hwj⟩ := h.exists_walk hq
  rw [hw, hwj, Option.some.injEq]
  refine ⟨?_, hs i j hi hj⟩
  rintro rfl
  exact heq (Option.some.inj ((h.lookup_inodes hp hi).symm.trans (h.lookup_inodes hq hj)))

theorem walk_eq_iff_of_file
    (hp : inp.nodeAt p = some (.file d s x)) (hq : inp.nodeAt q = some (.file d' s' x')) :
    b.finish.walk rootIno p = b.finish.walk rootIno q ↔ d = d' ∧ x = x' := by
  refine h.walk_eq_iff hp hq (fun i j hi hj => ?_) (fun heq => ?_)
  · rintro ⟨rfl, rfl⟩
    have hpi := (h.table.files d x i).mpr ⟨_, hi, rfl, s, hp⟩
    have hqj := (h.table.files d x j).mpr ⟨_, hj, rfl, s', hq⟩
    exact Option.some.inj (hpi.symm.trans hqj)
  · cases heq
    exact ⟨rfl, rfl⟩

theorem walk_eq_iff_of_symlink
    (hp : inp.nodeAt p = some (.symlink target)) (hq : inp.nodeAt q = some (.symlink target')) :
    b.finish.walk rootIno p = b.finish.walk rootIno q ↔ target = target' := by
  refine h.walk_eq_iff hp hq (fun i j hi hj => ?_) (fun heq => ?_)
  · rintro rfl
    have hpi := (h.table.symlinks target i).mpr ⟨_, hi, rfl, hp⟩
    have hqj := (h.table.symlinks target j).mpr ⟨_, hj, rfl, hq⟩
    exact Option.some.inj (hpi.symm.trans hqj)
  · cases heq
    rfl

theorem countP_log (hi : rootIno < i) :
    log.countP (·.2 = i) = {q | b.finish.walk rootIno q = some i}.ncard := by
  have hs : {q | b.finish.walk rootIno q = some i} =
      ((log.filter (·.2 = i)).map Prod.fst).toFinset := by
    ext q
    simp only [h.walk_iff, InoAt, hi.ne', and_false, false_or, Finset.mem_coe,
      mem_toFinset, mem_map, mem_filter, decide_eq_true_eq]
    constructor
    · intro hm
      exact ⟨_, ⟨hm, rfl⟩, rfl⟩
    · rintro ⟨⟨q, j⟩, ⟨hm, rfl⟩, rfl⟩
      exact hm
  have hn : ((log.filter (·.2 = i)).map Prod.fst).Nodup :=
    h.table.nodup.sublist (filter_sublist.map _)
  rw [hs, Set.ncard_coe_finset, toFinset_card_of_nodup hn, length_map, countP_eq_length_filter]

theorem length_log (hw : inp.WellFormed) : log.length < 2 ^ 32 := by
  have hs : ((log.map Prod.fst).toFinset : Set (List Bytes)) ⊆ {p | (inp.nodeAt p).isSome} := by
    intro p hp
    rw [Finset.mem_coe, mem_toFinset] at hp
    obtain ⟨x, hx, rfl⟩ := mem_map.mp hp
    obtain ⟨nd, hnd, -⟩ := h.table.inodes x hx
    exact Option.isSome_of_eq_some hnd
  have hc := (Set.encard_le_encard hs).trans_lt hw.paths
  rw [Set.encard_coe_eq_coe_finsetCard, toFinset_card_of_nodup h.table.nodup, length_map] at hc
  exact_mod_cast hc

theorem links (hw : inp.WellFormed) (hnd : inp.nodeAt p = some nd) (hdi : nd.isDir = false)
    (hi : b.finish.walk rootIno p = some i) : ∃ n, b.finish.attr i = some (nd.attr i n) ∧
      n.toNat = {q | b.finish.walk rootIno q = some i}.ncard := by
  have hm := h.mem_log_of_walk hnd hi
  have hin := (h.table.bounds _ hm).1
  have hn : b.finish.nlink.lookup i = some (ofNat (log.countP (·.2 = i))) := by
    refine h.table.nlink _ hm fun d hd => ?_
    rw [hnd] at hd
    cases hd
    cases hdi
  refine ⟨ofNat (log.countP (·.2 = i)), ?_, ?_⟩
  · unfold InoMap.attr
    rw [if_neg hin.ne', h.lookup_inodes hnd hm]
    cases nd with
    | dir d => cases hdi
    | file d s x | symlink target =>
      rw [hn]
      rfl
  · rw [toNat_ofNat', Nat.mod_eq_of_lt, h.countP_log hin]
    exact countP_le_length.trans_lt (h.length_log hw)

theorem dirLinks (hd : inp.nodeAt p = some (.dir d)) (hi : b.finish.walk rootIno p = some i) :
    b.finish.attr i = some ((Node.dir d).attr i (ofNat (2 + (inp.subdirs p).ncard))) := by
  have hm := h.mem_log_of_walk hd hi
  obtain ⟨-, -, -, hin, hl, hk, hs⟩ := h.expanded p (h.mem_done hm hd)
  rw [h.table.ino_inj hin hm] at hl
  have hc : b.finish.children.lookup i = some _ := hl
  unfold InoMap.attr
  rw [if_neg (h.table.bounds _ hm).1.ne', h.lookup_inodes hd hm]
  rw [hc, Option.map_some, hs.nlink, hk.dirNlink]
  rfl

theorem rootLinks : b.finish.attr rootIno =
    some (makeAttr rootIno .directory 0 0o555 (ofNat (2 + (inp.subdirs []).ncard))) := by
  rw [← h.kids.dirNlink, ← h.rootNlink]
  rfl

end

theorem sublist_filterMap {f : Bytes → Option Nat} {g : Bytes → Nat → Bytes × Nat × FileType}
    (hg : ∀ n j, (g n j).1 = n) (l : List Bytes) :
    ((l.filterMap fun n => (f n).map (g n)).map Prod.fst).Sublist l := by
  induction l with
  | nil => exact .slnil
  | cons n l ih =>
    rw [filterMap_cons]
    cases f n with
    | none => exact ih.cons n
    | some j =>
      rw [Option.map_some, map_cons, hg]
      exact ih.cons_cons n

section

variable (h : Inv inp log done [] rootKids b)
include h

section

variable (hp : p = [] ∨ ∃ d, inp.nodeAt p = some (.dir d))
include hp

theorem listing (hi : b.finish.walk rootIno p = some i) :
    ∃ parent kids found, b.finish.listing i = some (parent, kids) ∧
      InoAt log p.dropLast parent ∧ (kids.map Prod.fst).Nodup ∧ Kids inp log p found ∧
      ∀ n j k, (n, j, k) ∈ kids ↔ ∃ nd, (n, j, nd) ∈ found ∧ nd.kind = k := by
  unfold InoMap.listing
  rcases hp with rfl | ⟨d, hd⟩
  · cases hi
    refine ⟨_, _, rootKids, if_pos rfl, .inl ⟨rfl, rfl⟩, ?_, h.kids, fun n j k => ?_⟩
    · exact (Finset.sort_nodup _ _).sublist (sublist_filterMap (fun _ _ => rfl) _)
    · have hn {j : Nat} {nd : Node} hm : b.finish.inodes.lookup j = some nd :=
        h.lookup_inodes ((h.kids.nodes n nd).mpr ⟨j, hm⟩) (h.kids.logged _ hm)
      simp only [mem_filterMap, Option.map_eq_some_iff]
      constructor
      · rintro ⟨_, -, _, hl, heq⟩
        cases heq
        obtain ⟨nd, hm⟩ := (h.roots n j).mp hl
        exact ⟨nd, hm, by rw [hn hm]; rfl⟩
      · rintro ⟨nd, hm, rfl⟩
        have hl : b.finish.roots.lookup n = some j := (h.roots n j).mpr ⟨nd, hm⟩
        refine ⟨n, ?_, j, hl, by rw [hn hm]; rfl⟩
        rw [Finset.mem_sort, Finmap.mem_keys, ← Finmap.lookup_isSome, hl]
        rfl
  · have hm := h.mem_log_of_walk hd hi
    obtain ⟨-, -, -, hin, hl, hk, hs⟩ := h.expanded p (h.mem_done hm hd)
    rw [h.table.ino_inj hin hm] at hl
    have hc : b.finish.children.lookup i = some _ := hl
    rw [if_neg (h.table.bounds _ hm).1.ne', hc]
    refine ⟨_, _, _, rfl, hs.parent, ?_, hk, fun n j k => ?_⟩
    · rw [hs.entries, map_map]
      exact hk.names
    · rw [hs.entries, mem_map]
      constructor
      · rintro ⟨⟨m, c, nd⟩, hm, heq⟩
        cases heq
        exact ⟨nd, hm, rfl⟩
      · rintro ⟨nd, hm, rfl⟩
        exact ⟨_, hm, rfl⟩

theorem readdir (hi : b.finish.walk rootIno p = some i) :
    ∃ parent kids, b.finish.walk rootIno p.dropLast = some parent ∧ (kids.map Prod.fst).Nodup ∧
      (∀ n j k, (n, j, k) ∈ kids ↔ b.finish.walk rootIno (p ++ [n]) = some j ∧
        ∃ nd, inp.nodeAt (p ++ [n]) = some nd ∧ nd.kind = k) ∧
      ∀ offset, b.finish.readdir i offset =
        some ((InoMap.numbered (InoMap.dots i parent ++ kids)).drop offset) := by
  obtain ⟨parent, kids, found, hl, hpa, hn, hkd, hm⟩ := h.listing hp hi
  refine ⟨parent, kids, h.walk_iff.mpr hpa, hn, fun n j k => ?_, fun offset => ?_⟩
  · rw [hm, h.walk_iff, inoAt_concat, hkd.mem_log_iff h.table]
    constructor
    · rintro ⟨nd, hf, hk⟩
      exact ⟨⟨nd, hf⟩, nd, (hkd.nodes n nd).mpr ⟨j, hf⟩, hk⟩
    · rintro ⟨⟨nd, hf⟩, nd', hnd', hk⟩
      have hnd := (hkd.nodes n nd).mpr ⟨j, hf⟩
      cases hnd.symm.trans hnd'
      exact ⟨nd, hf, hk⟩
  · rw [InoMap.readdir, hl]
    rfl

end

theorem mounted (hwf : inp.WellFormed) : Mounted inp b.finish where
  node p nd hp := by
    constructor
    · intro hnd
      obtain ⟨i, hi, hw⟩ := h.exists_walk hnd
      exact ⟨i, hw, h.lookup_inodes hnd hi⟩
    · rintro ⟨i, hw, hl⟩
      rcases h.walk_iff.mp hw with ⟨hn, -⟩ | hm
      · exact absurd hn hp
      · obtain ⟨nd', hnd', hl'⟩ := h.table.inodes _ hm
        rw [hnd']
        exact hl'.symm.trans hl
  missing p hp hno := by
    cases hw : b.finish.walk rootIno p with
    | none => rfl
    | some i =>
      rcases h.walk_iff.mp hw with ⟨hn, -⟩ | hm
      · exact absurd hn hp
      · obtain ⟨nd, hnd, -⟩ := h.table.inodes _ hm
        cases hno.symm.trans hnd
  dirs p q d hd heq := by
    obtain ⟨i, hi, hw⟩ := h.exists_walk hd
    rcases h.walk_iff.mp (heq.symm.trans hw) with ⟨-, hr⟩ | hm
    · exact absurd hr (h.table.bounds _ hi).1.ne'
    · exact congrArg Prod.fst (h.table.dirs _ hi _ hm rfl ⟨d, hd⟩)
  files _ _ _ _ _ _ _ _ := h.walk_eq_iff_of_file
  symlinks _ _ _ _ := h.walk_eq_iff_of_symlink
  links _ _ _ := h.links hwf
  dirLinks _ _ _ := h.dirLinks
  rootLinks := h.rootLinks
  readdir _ _ := h.readdir

theorem not_bad (hw : inp.WellFormed) (hn : (inp.roots.map fun r => basename r.1).Nodup)
    (hrt : ∀ r ∈ inp.roots, basename r.1 ≠ [] ∧ rootNodeOf r.2 ≠ none) : ¬inp.Bad := by
  have hb {d : Digest} (hre : inp.Reach d) :
      ∃ body, inp.body d = some body ∧ ¬Inputs.badBody body := by
    obtain ⟨p, hp⟩ := hw.exists_nodeAt_of_reach hn hre
    obtain ⟨i, hi⟩ := h.exists_mem_log hp
    obtain ⟨hnod, hb, hs, -, -, -, -⟩ := h.expanded p (h.mem_done hi hp)
    cases hp.symm.trans hnod
    exact ⟨_, hb, hs⟩
  rintro (⟨r, hr, he⟩ | hd | ⟨r, hr, hba⟩ | ⟨d, body, hre, heq, hba⟩ | ⟨d, hre, hno⟩)
  · exact (hrt r hr).1 he
  · exact hd hn
  · exact (hrt r hr).2 ((Inputs.rootNodeOf_eq_none (hw.set r hr)).mpr hba)
  · obtain ⟨body', heq', hs⟩ := hb hre
    cases heq.symm.trans heq'
    exact hs hba
  · obtain ⟨body', heq', -⟩ := hb hre
    cases hno.symm.trans heq'

end

end Build.Inv

theorem exists_foldlM_addRoot (hw : inp.WellFormed) :
    (∃ e, inp.roots.foldlM addRoot {} = .error e ∧ inp.Bad) ∨
    ∃ b found, inp.roots.foldlM addRoot {} = .ok b ∧ (inp.roots.map fun r => basename r.1).Nodup ∧
      (∀ r ∈ inp.roots, basename r.1 ≠ [] ∧ rootNodeOf r.2 ≠ none) ∧
      Inv inp (logOf [] found) [] (waitingOf [] rootIno found) found b := by
  by_cases hn : (inp.roots.map fun r => basename r.1).Nodup
  · have hf : Fits inp.nodeAt [] [] [] (inp.roots.map rootEntry) := by
      refine ⟨?_, fun n nd hm => ?_, nofun⟩
      · rw [map_nil, map_map]
        exact hn
      · obtain ⟨r, hr, heq⟩ := mem_map.mp hm
        rw [nil_append, Inputs.nodeAt_singleton, Inputs.root_eq_some hn]
        exact ⟨r, hr, Prod.ext_iff.mp heq⟩
    have ho := Roots.foldlM hw.consistent Roots.empty hf
    generalize inp.roots.foldlM addRoot {} = res at ho
    cases ho with
    | bad hm hb =>
      refine .inl ⟨_, rfl, ?_⟩
      rcases hb with he | hno
      · exact .inl ⟨_, hm, he⟩
      · exact .inr (.inr (.inl ⟨_, hm, (Inputs.rootNodeOf_eq_none (hw.set _ hm)).mp hno⟩))
    | good found heq hnon hi =>
      refine .inr ⟨_, found, rfl, hn, fun r hr => ⟨hnon r hr, ?_⟩, hi.start hn heq⟩
      exact ne_none_of_found heq (mem_map_of_mem hr)
  · cases hre : inp.roots.foldlM addRoot {} with
    | error e => exact .inl ⟨e, rfl, .inr (.inl hn)⟩
    | ok b => exact absurd (nodup_of_foldlM_addRoot hre).1 hn

theorem fromParts_mounts (inp : Inputs) (hwf : inp.WellFormed) :
    ∃ res, (∃ enough, ∀ fuel, enough ≤ fuel →
      InoMap.fromParts inp.directoryDigest fuel inp.roots inp.directories = some res) ∧
      ((∃ e, res = .error e) ↔ inp.Bad) ∧ ∀ m, res = .ok m → Mounted inp m := by
  unfold InoMap.fromParts
  rcases exists_foldlM_addRoot hwf with ⟨e, he, hba⟩ | ⟨b, found, hb, hn, hrt, hi⟩
  · rw [he]
    exact ⟨.error e, ⟨0, fun _ _ => rfl⟩, ⟨fun _ => hba, fun _ => ⟨e, rfl⟩⟩, nofun⟩
  · obtain ⟨res, hr, hf⟩ :=
      hi.loop hwf inp.directories.length _ (Nat.le_add_left _ _)
    rw [hb]
    refine ⟨res.map finish, ⟨{p | (inp.nodeAt p).isSome}.ncard, fun fuel hfu => ?_⟩, ?_⟩
    · dsimp only
      rw [hr fuel hfu]
      rfl
    · cases hf with
      | bad hba => exact ⟨⟨fun _ => hba, fun _ => ⟨_, rfl⟩⟩, nofun⟩
      | good hen =>
        refine ⟨⟨nofun, fun hba => absurd hba (hen.not_bad hwf hn hrt)⟩, ?_⟩
        rintro m ⟨⟩
        exact hen.mounted hwf

theorem length_zeros : (List.replicate 32 (0 : UInt8)).length = 32 := rfl

def twoNames : Inputs where
  directoryDigest _ := ⟨List.replicate 32 0, length_zeros⟩
  roots := [([47, 97], .dirDigest (List.replicate 32 0))]
  directories := [{
    files := [⟨[120], List.replicate 32 1, 5, false⟩, ⟨[121], List.replicate 32 1, 5, false⟩] }]

theorem twoNames_wellFormed : twoNames.WellFormed where
  set := by decide
  injective := by simp [twoNames]
  names := by decide
  sizes := by decide
  paths := by
    have hs : {p | (twoNames.nodeAt p).isSome} ⊆
        ({[[97]], [[97], [120]], [[97], [121]]} : Finset (List Bytes)) := by
      rintro p hp
      obtain ⟨nd, hnd⟩ := Option.isSome_iff_exists.mp hp
      rcases p with _ | ⟨n, _ | ⟨m, rest⟩⟩
      · cases hnd
      all_goals
        obtain ⟨root, hro, hd⟩ := Option.bind_eq_some_iff.mp hnd
        obtain ⟨r, hr, hno⟩ := Option.bind_eq_some_iff.mp hro
        obtain rfl := mem_singleton.mp (mem_of_find?_eq_some hr)
        have hn : basename [47, 97] = n := by simpa using find?_some hr
        obtain rfl : [97] = n := hn
      · simp
      · cases hno
        obtain ⟨child, hch, hd⟩ := Option.bind_eq_some_iff.mp hd
        obtain ⟨e, he, hc⟩ := Option.bind_eq_some_iff.mp hch
        have hm : e.1 = m := by simpa using find?_some he
        have hme := mem_of_find?_eq_some he
        simp only [entriesOf, map_nil, map_cons, nil_append, append_nil,
          mem_cons, not_mem_nil, or_false] at hme
        rcases hme with rfl | rfl
        all_goals
          subst hm
          cases rest with
          | nil => simp
          | cons k rest => cases hd
    refine (Set.encard_le_encard hs).trans_lt ?_
    rw [Set.encard_coe_eq_coe_finsetCard]
    decide

theorem fromParts_mounts_twoNames : twoNames.WellFormed ∧
    ∃ res, (∃ enough, ∀ fuel, enough ≤ fuel →
      InoMap.fromParts twoNames.directoryDigest fuel twoNames.roots twoNames.directories =
        some res) ∧
      ((∃ e, res = .error e) ↔ twoNames.Bad) ∧ ∀ m, res = .ok m → Mounted twoNames m :=
  ⟨twoNames_wellFormed, fromParts_mounts twoNames twoNames_wellFormed⟩

end RioBuild.Fuse
