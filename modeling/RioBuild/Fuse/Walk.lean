import RioBuild.Fuse.Expand

namespace RioBuild.Fuse

open Lib Castore List Inputs

variable {inp : Inputs} {log log' : List (List Bytes × Nat)} {p q : List Bytes} {i : Nat}
  {found : List (Bytes × Nat × Node)} {body : Directory}

theorem Inputs.WellFormed.consistent (h : inp.WellFormed) : Consistent inp.nodeAt := by
  intro p q d s s' x x' hp hq
  obtain ⟨f, hf, hfd, hfs⟩ := exists_file hp
  obtain ⟨g, hg, hgd, hgs⟩ := exists_file hq
  rw [← hfs, ← hgs]
  exact h.sizes f hf g hg (hfd.trans hgd.symm)

theorem Inputs.WellFormed.lookup_dirsOf (h : inp.WellFormed) :
    (dirsOf inp.directoryDigest inp.directories).lookup d = inp.body d := by
  have hlk := Map.lookup_foldl_insert (m := ∅) (a := d) inp.directoryDigest id inp.directories
  refine hlk.trans ?_
  cases hl : (inp.directories.filter (inp.directoryDigest · = d)).getLast? with
  | none =>
    refine (find?_eq_none.mpr fun b hb => ?_).symm
    simpa using Map.getLast?_filter_eq_none.mp hl b hb
  | some b =>
    obtain ⟨hm, hk⟩ := Map.mem_of_getLast?_filter hl
    cases hf : inp.body d with
    | none => exact absurd (find?_eq_none.mp hf b hm) (by simpa using hk)
    | some b' =>
      have hk' : inp.directoryDigest b' = d := by simpa using find?_some hf
      rw [h.injective b hm b' (mem_directories hf) (hk.trans hk'.symm)]
      rfl

/-- The inode of a path, the empty one standing for the root of the mount. -/
def InoAt (log : List (List Bytes × Nat)) (p : List Bytes) (i : Nat) : Prop :=
  p = [] ∧ i = rootIno ∨ (p, i) ∈ log

structure Kids (inp : Inputs) (log : List (List Bytes × Nat)) (p : List Bytes)
    (found : List (Bytes × Nat × Node)) : Prop where
  names : (found.map Prod.fst).Nodup
  nodes : ∀ n nd, inp.nodeAt (p ++ [n]) = some nd ↔ ∃ i, (n, i, nd) ∈ found
  logged : ∀ e ∈ found, (p ++ [e.1], e.2.1) ∈ log

structure Served (log : List (List Bytes × Nat)) (p : List Bytes)
    (found : List (Bytes × Nat × Node)) (c : DirChildren) : Prop where
  parent : InoAt log p.dropLast c.parentIno
  entries : c.entries = found.map fun e => (e.1, e.2.1, e.2.2.kind)
  byName : c.byName = c.entries.foldl (fun m e => m.insert e.1 e.2.1) ∅
  nlink : c.nlink = 2 + UInt32.ofNat (found.countP (·.2.2.isDir))

inductive Expanded (inp : Inputs) (log : List (List Bytes × Nat)) (children : Map Nat DirChildren)
    (p : List Bytes) : Prop
  | intro {d : Digest} {body : Directory} {i : Nat} {found : List (Bytes × Nat × Node)}
    {c : DirChildren} (node : inp.nodeAt p = some (.dir d)) (body_eq : inp.body d = some body)
    (sound : ¬badBody body) (ino : (p, i) ∈ log) (lookup : children.lookup i = some c)
    (kids : Kids inp log p found) (served : Served log p found c) :
    Expanded inp log children p

theorem InoAt.mono (h : InoAt log p i) (hl : log ⊆ log') : InoAt log' p i :=
  h.imp_right fun hm => hl hm

theorem Kids.mono (h : Kids inp log p found) (hl : log ⊆ log') : Kids inp log' p found :=
  { h with logged := fun e he => hl (h.logged e he) }

theorem Served.mono (h : Served log p found c) (hl : log ⊆ log') : Served log' p found c :=
  { h with parent := h.parent.mono hl }

section

variable (h : found.map (fun e => (e.1, some e.2.2)) = es)
include h

theorem mem_found_iff : (n, some nd) ∈ es ↔ ∃ i, (n, i, nd) ∈ found := by
  rw [← h]
  constructor
  · intro hm
    obtain ⟨⟨m, i, nd'⟩, he, heq⟩ := mem_map.mp hm
    cases heq
    exact ⟨i, he⟩
  · rintro ⟨i, hm⟩
    exact mem_map.mpr ⟨_, hm, rfl⟩

theorem names_found : found.map Prod.fst = es.map Prod.fst := by
  rw [← h, map_map]
  rfl

theorem ne_none_of_found (he : e ∈ es) : e.2 ≠ none := by
  rw [← h] at he
  obtain ⟨e', -, rfl⟩ := mem_map.mp he
  exact Option.some_ne_none _

end

section

variable (h : found.map (fun e => (e.1, some e.2.2)) = entriesOf body)
include h

theorem not_badBody : ¬badBody body := by
  rw [badBody_iff]
  rintro ⟨n, hm⟩
  exact ne_none_of_found h hm rfl

theorem countP_found : found.countP (·.2.2.isDir) = body.directories.length := by
  have hc : found.countP (·.2.2.isDir) = (entriesOf body).countP (·.2.any Node.isDir) := by
    rw [← h, countP_map]
    rfl
  have hdi : ∀ e ∈ body.directories, ((toDigest e.digest).map Node.dir).any Node.isDir = true := by
    intro e he
    have hm : (e.name, (toDigest e.digest).map Node.dir) ∈ entriesOf body :=
      mem_append_left _ (mem_map_of_mem he)
    have hne := ne_none_of_found h hm
    cases hd : toDigest e.digest with
    | none => simp [hd] at hne
    | some d => rfl
  have hfi : ∀ f ∈ body.files, ¬((toDigest f.digest).map fun digest =>
      Node.file digest f.size f.executable).any Node.isDir = true := by
    intro f hf
    cases toDigest f.digest <;> simp [Node.isDir]
  simp only [hc, entriesOf, countP_append, countP_map, Function.comp_def]
  rw [countP_eq_length.mpr hdi, countP_eq_zero.mpr hfi, countP_eq_zero.mpr (by simp [Node.isDir])]
  rfl

end

theorem kids_of_body (h : inp.WellFormed) (hn : inp.nodeAt p = some (.dir d))
    (hb : inp.body d = some body) (heq : found.map (fun e => (e.1, some e.2.2)) = entriesOf body) :
    Kids inp (log ++ logOf p found) p found where
  names := names_found heq ▸ h.names body (mem_directories hb)
  nodes n nd := by
    have hp : p ≠ [] := by
      rintro rfl
      cases hn
    rw [nodeAt_concat hp, hn, Option.bind_some, h.child_dir hb, mem_found_iff heq]
  logged e he := mem_append_right _ (mem_logOf.mpr ⟨e, he, rfl, rfl⟩)

def waitingOf (p : List Bytes) (ino : Nat) (found : List (Bytes × Nat × Node)) :
    List (List Bytes × Pending) :=
  (found.filterMap fun e => (pendingOf ino e).map (p ++ [e.1], ·)).reverse

theorem map_snd_waitingOf :
    (waitingOf p i found).map Prod.snd = (found.filterMap (pendingOf i)).reverse := by
  rw [waitingOf, map_reverse, map_filterMap]
  simp

theorem mem_waitingOf : w ∈ waitingOf p i found ↔
    ∃ e ∈ found, ∃ d, e.2.2 = .dir d ∧ w = (p ++ [e.1], ⟨e.2.1, d, i⟩) := by
  rw [waitingOf, mem_reverse, mem_filterMap]
  refine exists_congr fun e => and_congr_right fun _ => ?_
  unfold pendingOf
  split
  · rename_i d hd
    simp [hd, eq_comm]
  all_goals
    rename_i hd
    simp [hd]

theorem map_fst_waitingOf_sublist :
    ((waitingOf p i found).map Prod.fst).reverse.Sublist ((logOf p found).map Prod.fst) := by
  rw [waitingOf, map_reverse, reverse_reverse, logOf]
  induction found with
  | nil => exact .slnil
  | cons e found ih =>
    obtain ⟨n, j, nd⟩ := e
    cases nd with
    | dir d => exact ih.cons_cons _
    | file d s x | symlink target => exact ih.cons _

structure Build.Inv (inp : Inputs) (log : List (List Bytes × Nat)) (done : List (List Bytes))
    (todo : List (List Bytes × Pending)) (rootKids : List (Bytes × Nat × Node)) (b : Build) :
    Prop where
  table : Table.Inv inp.nodeAt log b.table
  nodup : (todo.map Prod.fst ++ done).Nodup
  pending : b.pending = todo.map Prod.snd
  waiting : ∀ w ∈ todo, (w.1, w.2.ino) ∈ log ∧ inp.nodeAt w.1 = some (.dir w.2.digest) ∧
    InoAt log w.1.dropLast w.2.parentIno
  covered : ∀ x ∈ log, ∀ d, inp.nodeAt x.1 = some (.dir d) → x.1 ∈ done ∨ x.1 ∈ todo.map Prod.fst
  parents : ∀ p n, p ++ [n] ∈ log.map Prod.fst → p = [] ∨ p ∈ done
  expanded : ∀ p ∈ done, Expanded inp log b.children p
  only : ∀ i c, b.children.lookup i = some c → ∃ p ∈ done, (p, i) ∈ log
  kids : Kids inp log [] rootKids
  roots : ∀ n i, b.roots.lookup n = some i ↔ ∃ nd, (n, i, nd) ∈ rootKids
  rootNlink : b.rootNlink = 2 + UInt32.ofNat (rootKids.countP (·.2.2.isDir))

namespace Build.Inv

variable {done : List (List Bytes)} {todo : List (List Bytes × Pending)} {top : Pending}
  {rootKids : List (Bytes × Nat × Node)} {b : Build}

theorem logged (h : Build.Inv inp log done todo rootKids b) (hp : p ∈ done) :
    p ∈ log.map Prod.fst := by
  obtain ⟨-, -, -, hi, -, -, -⟩ := h.expanded p hp
  exact mem_map_of_mem hi

section

variable (h : Build.Inv inp log done ((q, top) :: todo) rootKids b)
include h

theorem step (hwf : inp.WellFormed) (hb : inp.body top.digest = some body)
    (heq : added.map (fun e => (e.1, some e.2.2)) = entriesOf body)
    (hx : Expansion.Inv inp.nodeAt q top.ino (todo.map Prod.snd) log added x) :
    Build.Inv inp (log ++ logOf q added) (q :: done) (waitingOf q top.ino added ++ todo) rootKids
      { b with
        table := x.table
        pending := x.pending
        children := b.children.insert top.ino
          { parentIno := top.parentIno
            entries := x.entries
            byName := x.entries.foldl (fun m e => m.insert e.1 e.2.1) ∅
            nlink := 2 + UInt32.ofNat body.directories.length } } := by
  obtain ⟨hin, hn, hpa⟩ := h.waiting _ mem_cons_self
  have hsu : log ⊆ log ++ logOf q added := subset_append_left _ _
  have hlo : (log.map Prod.fst ++ (logOf q added).map Prod.fst).Nodup := by
    rw [← map_append]
    exact hx.table.nodup
  have ho := perm_middle.nodup_iff.mpr h.nodup
  have hm : ∀ r ∈ todo.map Prod.fst ++ q :: done, r ∈ log.map Prod.fst := by
    intro r hr
    rcases mem_append.mp hr with hr | hr
    · obtain ⟨w, hw, rfl⟩ := mem_map.mp hr
      exact mem_map_of_mem (h.waiting w (mem_cons_of_mem _ hw)).1
    · rcases mem_cons.mp hr with rfl | hr
      · exact mem_map_of_mem hin
      · exact h.logged hr
  refine ⟨hx.table, ?_, ?_, ?_, ?_, ?_, ?_, ?_, h.kids.mono hsu, h.roots, h.rootNlink⟩
  · rw [map_append, append_assoc]
    refine nodup_append.mpr ⟨?_, ho, ?_⟩
    · refine nodup_reverse.mp (map_fst_waitingOf_sublist.nodup ?_)
      exact (nodup_append.mp hlo).2.1
    · intro r hr s hs
      refine ((nodup_append.mp hlo).2.2 s (hm s hs) r ?_).symm
      exact map_fst_waitingOf_sublist.subset (mem_reverse.mpr hr)
  · rw [map_append, map_snd_waitingOf]
    exact hx.pending
  · intro w hw
    rcases mem_append.mp hw with hw | hw
    · obtain ⟨e, he, d, hd, rfl⟩ := mem_waitingOf.mp hw
      refine ⟨mem_append_right _ (mem_logOf.mpr ⟨e, he, rfl, rfl⟩), ?_, ?_⟩
      · exact (hx.nodes e he).trans (congrArg some hd)
      · rw [dropLast_concat]
        exact .inr (hsu hin)
    · obtain ⟨hw, hn, hpa⟩ := h.waiting w (mem_cons_of_mem _ hw)
      exact ⟨hsu hw, hn, hpa.mono hsu⟩
  · intro y hy d hd
    rcases mem_append.mp hy with hy | hy
    · rcases h.covered y hy d hd with hdo | ht
      · exact .inl (mem_cons_of_mem q hdo)
      · rcases mem_cons.mp ht with heq | ht
        · exact .inl (mem_cons.mpr (.inl heq))
        · exact .inr (by rw [map_append]; exact mem_append_right _ ht)
    · obtain ⟨e, he, hpat, -⟩ := mem_logOf.mp hy
      rw [hpat, hx.nodes e he] at hd
      rw [hpat]
      refine .inr (mem_map.mpr ⟨(q ++ [e.1], ⟨e.2.1, d, top.ino⟩), ?_, rfl⟩)
      exact mem_append_left _ (mem_waitingOf.mpr ⟨e, he, d, Option.some.inj hd, rfl⟩)
  · intro p n hp
    rw [map_append] at hp
    rcases mem_append.mp hp with hp | hp
    · exact (h.parents p n hp).imp_right (mem_cons_of_mem q)
    · obtain ⟨y, hy, hpat⟩ := mem_map.mp hp
      obtain ⟨e, -, hq, -⟩ := mem_logOf.mp hy
      have hpq : p = q := (append_inj' (hpat.symm.trans hq) rfl).1
      exact .inr (mem_cons.mpr (.inl hpq))
  · intro p hp
    rcases mem_cons.mp hp with rfl | hp
    · refine .intro hn hb (not_badBody heq) (hsu hin) (Finmap.lookup_insert _)
        (kids_of_body hwf hn hb heq) ⟨hpa.mono hsu, hx.entries, rfl, ?_⟩
      rw [countP_found heq]
    · obtain ⟨hn', hb', hso, hin', hl, hk, hsv⟩ := h.expanded p hp
      refine .intro hn' hb' hso (hsu hin') ?_ (hk.mono hsu) (hsv.mono hsu)
      rw [Finmap.lookup_insert_of_ne]
      · exact hl
      · -- Two directories never share an inode.
        intro hsa
        have hpq := h.table.dirs _ hin' _ hin hsa ⟨_, hn'⟩
        cases hpq
        exact (nodup_cons.mp (nodup_append.mp ho).2.1).1 hp
  · intro i c hl
    rw [Map.lookup_insert_ite] at hl
    split_ifs at hl with hi
    · exact ⟨q, mem_cons_self, hi ▸ hsu hin⟩
    · obtain ⟨p, hp, hm⟩ := h.only i c hl
      exact ⟨p, mem_cons_of_mem q hp, hsu hm⟩

theorem fits (hw : inp.WellFormed)
    (hb : inp.body top.digest = some body) : Fits inp.nodeAt q log [] (entriesOf body) := by
  obtain ⟨hi, hn, -⟩ := h.waiting _ mem_cons_self
  have hne : q ≠ [] := by
    rintro rfl
    cases hn
  refine ⟨hw.names body (mem_directories hb), fun n nd hm => ?_, fun n hm => ?_⟩
  · rwa [nodeAt_concat hne, hn, Option.bind_some, hw.child_dir hb]
  · rcases h.parents q n hm with hq | hq
    · exact hne hq
    · exact (nodup_cons.mp h.nodup).1 (mem_append_right _ hq)

theorem expand (hw : inp.WellFormed) (returned : Nat) :
    (∃ e, b.expand (dirsOf inp.directoryDigest inp.directories) returned top (todo.map Prod.snd) =
      .error e ∧ inp.Bad) ∨
    ∃ b' log' todo', b.expand (dirsOf inp.directoryDigest inp.directories) returned top
      (todo.map Prod.snd) = .ok b' ∧ Build.Inv inp log' (q :: done) todo' rootKids b' := by
  obtain ⟨hin, hn, -⟩ := h.waiting _ mem_cons_self
  have hr := reach_of_nodeAt hn
  unfold Build.expand
  rw [hw.lookup_dirsOf]
  cases hb : inp.body top.digest with
  | none => exact .inl ⟨_, rfl, .inr (.inr (.inr (.inr ⟨_, hr, hb⟩)))⟩
  | some body =>
    have hs : Expansion.Inv inp.nodeAt q top.ino (todo.map Prod.snd) log []
        ⟨b.table, todo.map Prod.snd, []⟩ := by
      refine ⟨?_, nofun, rfl, rfl⟩
      rw [logOf, map_nil, append_nil]
      exact h.table
    have ho := Expansion.addBody_outcome hw.consistent (hexEncode top.digest.1) body hs
      (h.fits hw hb)
    dsimp only
    generalize Expansion.addBody top.ino (hexEncode top.digest.1) body
      ⟨b.table, todo.map Prod.snd, []⟩ = res at ho
    cases ho with
    | bad hm =>
      have hba := badBody_iff.mpr ⟨_, hm⟩
      exact .inl ⟨_, rfl, .inr (.inr (.inr (.inl ⟨_, _, hr, hb, hba⟩)))⟩
    | good added heq hi => exact .inr ⟨_, _, _, rfl, h.step hw hb heq hi⟩

end

theorem length_le (h : Build.Inv inp log done todo rootKids b) (hwf : inp.WellFormed) :
    todo.length + done.length ≤ {p | (inp.nodeAt p).isSome}.ncard := by
  have hf := Set.encard_lt_top_iff.mp (hwf.paths.trans (by decide))
  have hs : ((todo.map Prod.fst ++ done).toFinset : Set (List Bytes)) ⊆
      {p | (inp.nodeAt p).isSome} := by
    intro p hp
    rw [Finset.mem_coe, mem_toFinset, mem_append] at hp
    rcases hp with hp | hp
    · obtain ⟨w, hw, rfl⟩ := mem_map.mp hp
      exact Option.isSome_of_eq_some (h.waiting w hw).2.1
    · obtain ⟨hn, -, -, -, -, -, -⟩ := h.expanded p hp
      exact Option.isSome_of_eq_some hn
  have hc := Set.ncard_le_ncard hs hf
  rw [Set.ncard_coe_finset, toFinset_card_of_nodup h.nodup, length_append, length_map] at hc
  exact hc

end Build.Inv

inductive Build.Finished (inp : Inputs) : Except TreeError Build → Prop
  | bad {e : TreeError} (bad : inp.Bad) : Finished inp (.error e)
  | good {b : Build} {log : List (List Bytes × Nat)} {done : List (List Bytes)}
    {rootKids : List (Bytes × Nat × Node)} (inv : Build.Inv inp log done [] rootKids b) :
    Finished inp (.ok b)

/-- Each round goes through one path more, so as many rounds as there are paths will do. -/
theorem Build.Inv.loop (h : Build.Inv inp log done todo rootKids b) (hw : inp.WellFormed)
    (returned k : Nat) (hk : {p | (inp.nodeAt p).isSome}.ncard ≤ done.length + k) :
    ∃ res, (∀ fuel, k ≤ fuel →
      b.loop (dirsOf inp.directoryDigest inp.directories) returned fuel = some res) ∧
      Build.Finished inp res := by
  induction k generalizing log done todo b with
  | zero =>
    have hl := h.length_le hw
    have ht : todo = [] := eq_nil_of_length_eq_zero (by omega)
    subst ht
    refine ⟨.ok b, fun fuel _ => ?_, .good h⟩
    unfold loop
    rw [h.pending]
    rfl
  | succ k ih =>
    cases todo with
    | nil =>
      refine ⟨.ok b, fun fuel _ => ?_, .good h⟩
      unfold loop
      rw [h.pending]
      rfl
    | cons w todo =>
      rcases h.expand hw returned with ⟨e, he, hba⟩ | ⟨b', log', todo', hb', hi⟩
      · refine ⟨.error e, fun fuel hf => ?_, .bad hba⟩
        obtain ⟨fuel, rfl⟩ := Nat.exists_eq_succ_of_ne_zero (ne_zero_of_lt hf)
        rw [loop, h.pending]
        simp [he]
      · obtain ⟨res, hr, hfi⟩ := ih hi (by rw [length_cons]; omega)
        refine ⟨res, fun fuel hf => ?_, hfi⟩
        obtain ⟨fuel, rfl⟩ := Nat.exists_eq_succ_of_ne_zero (ne_zero_of_lt hf)
        rw [loop, h.pending, map_cons]
        simp only [hb']
        exact hr fuel (Nat.le_of_succ_le_succ hf)

theorem Build.Roots.start (h : Build.Roots inp.nodeAt found b)
    (hn : (inp.roots.map fun r => basename r.1).Nodup)
    (heq : found.map (fun e => (e.1, some e.2.2)) = inp.roots.map Build.rootEntry) :
    Build.Inv inp (logOf [] found) [] (waitingOf [] rootIno found) found b where
  __ := h
  table := h.expansion.table
  nodup := by
    rw [append_nil]
    exact nodup_reverse.mp (map_fst_waitingOf_sublist.nodup h.expansion.table.nodup)
  pending := by
    rw [map_snd_waitingOf]
    exact h.expansion.pending.trans (append_nil _)
  waiting w hw := by
    obtain ⟨e, he, d, hd, rfl⟩ := mem_waitingOf.mp hw
    refine ⟨mem_logOf.mpr ⟨e, he, rfl, rfl⟩, ?_, .inl ⟨rfl, rfl⟩⟩
    exact (h.expansion.nodes e he).trans (congrArg some hd)
  covered y hy d hd := by
    obtain ⟨e, he, hpa, -⟩ := mem_logOf.mp hy
    rw [hpa, h.expansion.nodes e he] at hd
    rw [hpa]
    refine .inr (mem_map.mpr ⟨([] ++ [e.1], ⟨e.2.1, d, rootIno⟩), ?_, rfl⟩)
    exact mem_waitingOf.mpr ⟨e, he, d, Option.some.inj hd, rfl⟩
  parents p n hp := by
    obtain ⟨y, hy, hpa⟩ := mem_map.mp hp
    obtain ⟨e, -, hq, -⟩ := mem_logOf.mp hy
    exact .inl (append_inj' (hpa.symm.trans hq) rfl).1
  expanded := nofun
  only i c hl := by
    rw [h.children] at hl
    cases hl
  kids := by
    refine ⟨?_, fun n nd => ?_, fun e he => mem_logOf.mpr ⟨e, he, rfl, rfl⟩⟩
    · rw [names_found heq, map_map]
      exact hn
    · rw [nil_append, nodeAt_singleton, root_eq_some hn, ← mem_found_iff heq]
      simp [rootEntry]

end RioBuild.Fuse
