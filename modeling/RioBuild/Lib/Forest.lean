import Mathlib.Data.List.Nodup

namespace RioBuild.Lib

inductive Forest (κ α : Type)
  | nil
  | leaf (name : κ) (a : α) (rest : Forest κ α)
  | dir (name : κ) (kids rest : Forest κ α)
  deriving DecidableEq, Repr

namespace Forest

variable {α β : Type} {n : κ} {a : α} {f : Forest κ α} {r : κ → κ → Prop}

def count : Forest κ α → Nat
  | nil => 0
  | leaf _ _ rest => rest.count + 1
  | dir _ kids rest => kids.count + rest.count + 1

def tops : Forest κ α → List (κ × Option α)
  | nil => []
  | leaf n a rest => (n, some a) :: rest.tops
  | dir n _ rest => (n, none) :: rest.tops

def names (f : Forest κ α) : List κ := f.tops.map Prod.fst

def map (h : α → β) : Forest κ α → Forest κ β
  | nil => nil
  | leaf n a rest => leaf n (h a) (rest.map h)
  | dir n kids rest => dir n (kids.map h) (rest.map h)

def preorder : Forest κ α → List (List κ × Option α)
  | nil => []
  | leaf n a rest => ([n], some a) :: rest.preorder
  | dir n kids rest => ([n], none) :: (kids.preorder.map fun x => (n :: x.1, x.2)) ++ rest.preorder

def Ordered (r : κ → κ → Prop) : Forest κ α → Prop
  | nil => True
  | leaf n _ rest => (∀ m ∈ rest.names, r n m) ∧ rest.Ordered r
  | dir n kids rest => (∀ m ∈ rest.names, r n m) ∧ kids.Ordered r ∧ rest.Ordered r

def All (p : κ → Prop) (q : α → Prop) : Forest κ α → Prop
  | nil => True
  | leaf n a rest => p n ∧ q a ∧ rest.All p q
  | dir n kids rest => p n ∧ kids.All p q ∧ rest.All p q

def Within : Nat → Forest κ α → Prop
  | _, nil => True
  | d, leaf _ _ rest => 0 < d ∧ rest.Within d
  | d, dir _ kids rest => 0 < d ∧ kids.Within (d - 1) ∧ rest.Within d

def Narrow (m : Nat) : Forest κ α → Prop
  | nil => True
  | leaf _ _ rest => rest.Narrow m
  | dir _ kids rest => kids.names.length < m ∧ kids.Narrow m ∧ rest.Narrow m

def append : Forest κ α → Forest κ α → Forest κ α
  | nil, g => g
  | leaf n a rest, g => leaf n a (rest.append g)
  | dir n kids rest, g => dir n kids (rest.append g)

section Decide

variable (p : κ → Prop) (q : α → Prop) (r : κ → κ → Prop) [DecidablePred p] [DecidablePred q]
  [DecidableRel r]

instance decidableAll : (f : Forest κ α) → Decidable (f.All p q)
  | nil => .isTrue trivial
  | leaf n a rest =>
    haveI := decidableAll rest
    inferInstanceAs (Decidable (p n ∧ q a ∧ rest.All p q))
  | dir n kids rest =>
    haveI := decidableAll kids
    haveI := decidableAll rest
    inferInstanceAs (Decidable (p n ∧ kids.All p q ∧ rest.All p q))

instance decidableOrdered : (f : Forest κ α) → Decidable (f.Ordered r)
  | nil => .isTrue trivial
  | leaf n _ rest =>
    haveI := decidableOrdered rest
    inferInstanceAs (Decidable ((∀ m ∈ rest.names, r n m) ∧ rest.Ordered r))
  | dir n kids rest =>
    haveI := decidableOrdered kids
    haveI := decidableOrdered rest
    inferInstanceAs (Decidable ((∀ m ∈ rest.names, r n m) ∧ kids.Ordered r ∧ rest.Ordered r))

instance decidableWithin : (d : Nat) → (f : Forest κ α) → Decidable (f.Within d)
  | _, nil => .isTrue trivial
  | d, leaf _ _ rest =>
    haveI := decidableWithin d rest
    inferInstanceAs (Decidable (0 < d ∧ rest.Within d))
  | d, dir _ kids rest =>
    haveI := decidableWithin (d - 1) kids
    haveI := decidableWithin d rest
    inferInstanceAs (Decidable (0 < d ∧ kids.Within (d - 1) ∧ rest.Within d))

instance decidableNarrow (m : Nat) : (f : Forest κ α) → Decidable (f.Narrow m)
  | nil => .isTrue trivial
  | leaf _ _ rest => decidableNarrow m rest
  | dir _ kids rest =>
    haveI := decidableNarrow m kids
    haveI := decidableNarrow m rest
    inferInstanceAs (Decidable (kids.names.length < m ∧ kids.Narrow m ∧ rest.Narrow m))

end Decide

inductive SubDir : Forest κ α → List κ → Forest κ α → Prop
  | here {n : κ} {kids rest : Forest κ α} : SubDir (dir n kids rest) [n] kids
  | inside {n : κ} {kids rest k : Forest κ α} {b : List κ} (sub : SubDir kids b k) :
    SubDir (dir n kids rest) (n :: b) k
  | afterLeaf {n : κ} {a : α} {rest k : Forest κ α} {b : List κ} (sub : SubDir rest b k) :
    SubDir (leaf n a rest) b k
  | afterDir {n : κ} {kids rest k : Forest κ α} {b : List κ} (sub : SubDir rest b k) :
    SubDir (dir n kids rest) b k

@[simp] theorem names_nil : (nil : Forest κ α).names = [] := rfl

@[simp] theorem names_leaf : (leaf n a f).names = n :: f.names := rfl

@[simp] theorem names_dir : (dir n k f).names = n :: f.names := rfl

@[simp] theorem names_map (h : α → β) : (f.map h).names = f.names := by
  induction f with
  | nil => rfl
  | leaf n a rest ih | dir n kids rest _ ih => simp [map, ih]

@[simp] theorem count_map (h : α → β) : (f.map h).count = f.count := by
  induction f with
  | nil => rfl
  | leaf n a rest ih => simp [map, count, ih]
  | dir n kids rest ihk ih => simp [map, count, ihk, ih]

@[simp] theorem ordered_map (h : α → β) : (f.map h).Ordered r ↔ f.Ordered r := by
  induction f with
  | nil => exact Iff.rfl
  | leaf n a rest ih => simp [map, Ordered, ih]
  | dir n kids rest ihk ih => simp [map, Ordered, ihk, ih]

@[simp] theorem within_map (h : α → β) : (f.map h).Within d ↔ f.Within d := by
  induction f generalizing d with
  | nil => exact Iff.rfl
  | leaf n a rest ih => simp [map, Within, ih]
  | dir n kids rest ihk ih => simp [map, Within, ihk, ih]

@[simp] theorem append_nil : f.append nil = f := by
  induction f with
  | nil => rfl
  | leaf n a rest ih | dir n kids rest _ ih => rw [append, ih]

theorem append_assoc : (f.append g).append k = f.append (g.append k) := by
  induction f with
  | nil => rfl
  | leaf n a rest ih | dir n kids rest _ ih => rw [append, append, append, ih]

@[simp] theorem names_append : (f.append g).names = f.names ++ g.names := by
  induction f with
  | nil => rfl
  | leaf n a rest ih => rw [append, names_leaf, names_leaf, ih, List.cons_append]
  | dir n kids rest _ ih => rw [append, names_dir, names_dir, ih, List.cons_append]

theorem All.imp (h : f.All p q) (hp : ∀ n, p n → p' n) (hq : ∀ a, q a → q' a) : f.All p' q' := by
  induction f with
  | nil => trivial
  | leaf n a rest ih => exact ⟨hp n h.1, hq a h.2.1, ih h.2.2⟩
  | dir n kids rest ihk ih => exact ⟨hp n h.1, ihk h.2.1, ih h.2.2⟩

theorem All.and (h : f.All p q) (h' : f.All p' q') :
    f.All (fun n => p n ∧ p' n) fun a => q a ∧ q' a := by
  induction f with
  | nil => trivial
  | leaf n a rest ih => exact ⟨⟨h.1, h'.1⟩, ⟨h.2.1, h'.2.1⟩, ih h.2.2 h'.2.2⟩
  | dir n kids rest ihk ih => exact ⟨⟨h.1, h'.1⟩, ihk h.2.1 h'.2.1, ih h.2.2 h'.2.2⟩

theorem length_names_le : f.names.length ≤ f.count := by
  induction f with
  | nil => exact Nat.zero_le _
  | leaf n a rest ih => exact Nat.succ_le_succ ih
  | dir n kids rest _ ih =>
    rw [names_dir, List.length_cons, count]
    omega

theorem narrow_of_count (h : f.count ≤ m) : f.Narrow m := by
  induction f with
  | nil => trivial
  | leaf n a rest ih => exact ih (Nat.le_of_succ_le h)
  | dir n kids rest ihk ih =>
    rw [count] at h
    have hk := length_names_le (f := kids)
    exact ⟨by omega, ihk (by omega), ih (by omega)⟩

theorem Ordered.pairwise (h : f.Ordered r) : f.names.Pairwise r := by
  induction f with
  | nil => exact .nil
  | leaf n a rest ih => exact .cons h.1 (ih h.2)
  | dir n kids rest _ ih => exact .cons h.1 (ih h.2.2)

theorem Ordered.mono (h : f.Ordered r) (hr : ∀ m n, r m n → s m n) : f.Ordered s := by
  induction f with
  | nil => trivial
  | leaf n a rest ih => exact ⟨fun m hm => hr n m (h.1 m hm), ih h.2⟩
  | dir n kids rest ihk ih => exact ⟨fun m hm => hr n m (h.1 m hm), ihk h.2.1, ih h.2.2⟩

theorem SubDir.trans (h : SubDir f b g) (h' : SubDir g b' k) : SubDir f (b ++ b') k := by
  induction h with
  | here => exact .inside h'
  | inside _ ih => exact .inside (ih h')
  | afterLeaf _ ih => exact .afterLeaf (ih h')
  | afterDir _ ih => exact .afterDir (ih h')

theorem all_iff : f.All p q ↔ ∀ x ∈ f.preorder, (∀ n ∈ x.1, p n) ∧ ∀ a ∈ x.2, q a := by
  induction f with
  | nil => exact iff_of_true trivial nofun
  | leaf n a rest ih => simp [All, preorder, ih, and_assoc]
  | dir n kids rest ihk ih =>
    rw [All, ihk, ih, preorder, List.forall_mem_append, List.forall_mem_cons, List.forall_mem_map]
    constructor
    · rintro ⟨hn, hk, hr⟩
      refine ⟨⟨⟨List.forall_mem_singleton.mpr hn, nofun⟩, fun x hx => ?_⟩, hr⟩
      exact ⟨List.forall_mem_cons.mpr ⟨hn, (hk x hx).1⟩, (hk x hx).2⟩
    · rintro ⟨⟨⟨hn, -⟩, hk⟩, hr⟩
      refine ⟨hn n List.mem_cons_self, fun x hx => ?_, hr⟩
      exact ⟨(List.forall_mem_cons.mp (hk x hx).1).2, (hk x hx).2⟩

theorem ne_nil_of_mem_preorder (h : x ∈ f.preorder) : x.1 ≠ [] := by
  induction f generalizing x with
  | nil => cases h
  | leaf n a rest ih =>
    rcases List.mem_cons.mp h with rfl | h
    · exact List.cons_ne_nil _ _
    · exact ih h
  | dir n kids rest _ ih =>
    rcases List.mem_append.mp h with h | h
    · rcases List.mem_cons.mp h with rfl | h
      · exact List.cons_ne_nil _ _
      · obtain ⟨y, -, rfl⟩ := List.mem_map.mp h
        exact List.cons_ne_nil _ _
    · exact ih h

theorem dropLast_cons_of_mem (h : x ∈ f.preorder) : (n :: x.1).dropLast = n :: x.1.dropLast :=
  List.dropLast_cons_of_ne_nil (ne_nil_of_mem_preorder h)

theorem head_mem_names (h : x ∈ f.preorder) : ∃ m tail, x.1 = m :: tail ∧ m ∈ f.names := by
  induction f generalizing x with
  | nil => cases h
  | leaf n a rest ih =>
    rcases List.mem_cons.mp h with rfl | h
    · exact ⟨n, [], rfl, List.mem_cons_self⟩
    · obtain ⟨m, tail, hx, hm⟩ := ih h
      exact ⟨m, tail, hx, List.mem_cons_of_mem n hm⟩
  | dir n kids rest _ ih =>
    rcases List.mem_append.mp h with h | h
    · rcases List.mem_cons.mp h with rfl | h
      · exact ⟨n, [], rfl, List.mem_cons_self⟩
      · obtain ⟨y, -, rfl⟩ := List.mem_map.mp h
        exact ⟨n, y.1, rfl, List.mem_cons_self⟩
    · obtain ⟨m, tail, hx, hm⟩ := ih h
      exact ⟨m, tail, hx, List.mem_cons_of_mem n hm⟩

theorem SubDir.exists_head (h : SubDir f b k) : ∃ m tail, b = m :: tail ∧ m ∈ f.names := by
  induction h with
  | here => exact ⟨_, [], rfl, List.mem_cons_self⟩
  | inside sub _ => exact ⟨_, _, rfl, List.mem_cons_self⟩
  | afterLeaf _ ih | afterDir _ ih =>
    obtain ⟨m, tail, hb, hm⟩ := ih
    exact ⟨m, tail, hb, List.mem_cons_of_mem _ hm⟩

theorem notMem_preorder (h : ∀ m ∈ f.names, n ≠ m) : n :: tail ∉ f.preorder.map Prod.fst := by
  intro hme
  obtain ⟨x, hx, heq⟩ := List.mem_map.mp hme
  obtain ⟨m, tail', hx, hm⟩ := head_mem_names hx
  rw [hx] at heq
  cases heq
  exact h _ hm rfl

theorem Ordered.nodup_preorder (h : f.Ordered (· ≠ ·)) : (f.preorder.map Prod.fst).Nodup := by
  induction f with
  | nil => exact List.nodup_nil
  | leaf n a rest ih => exact List.nodup_cons.mpr ⟨notMem_preorder h.1, ih h.2⟩
  | dir n kids rest ihk ih =>
    rw [preorder, List.map_append, List.map_cons, List.map_map]
    have hk : (kids.preorder.map (Prod.fst ∘ fun x => (n :: x.1, x.2))) =
        (kids.preorder.map Prod.fst).map (n :: ·) := by
      rw [List.map_map]
      rfl
    rw [hk]
    refine List.nodup_append.mpr ⟨List.nodup_cons.mpr ⟨?_, ?_⟩, ih h.2.2, ?_⟩
    · intro hm
      obtain ⟨x, hx, heq⟩ := List.mem_map.mp hm
      obtain ⟨y, hy, rfl⟩ := List.mem_map.mp hx
      exact ne_nil_of_mem_preorder hy (List.cons.inj heq).2
    · exact (ihk h.2.1).map fun _ _ heq => (List.cons.inj heq).2
    · rintro x hx y hy rfl
      rcases List.mem_cons.mp hx with rfl | hx
      · exact notMem_preorder h.1 hy
      · obtain ⟨z, -, rfl⟩ := List.mem_map.mp hx
        exact notMem_preorder h.1 hy

theorem exists_subDir (h : (b, none) ∈ f.preorder) : ∃ k, SubDir f b k := by
  induction f generalizing b with
  | nil => cases h
  | leaf n a rest ih =>
    rcases List.mem_cons.mp h with heq | h
    · cases heq
    · obtain ⟨k, hk⟩ := ih h
      exact ⟨k, .afterLeaf hk⟩
  | dir n kids rest ihk ih =>
    rcases List.mem_append.mp h with h | h
    · rcases List.mem_cons.mp h with heq | h
      · cases heq
        exact ⟨kids, .here⟩
      · obtain ⟨⟨b, o⟩, hx, heq⟩ := List.mem_map.mp h
        cases heq
        obtain ⟨k, hk⟩ := ihk hx
        exact ⟨k, .inside hk⟩
    · obtain ⟨k, hk⟩ := ih h
      exact ⟨k, .afterDir hk⟩

theorem SubDir.mem_preorder (h : SubDir f b k) : (b, none) ∈ f.preorder := by
  induction h with
  | here => exact List.mem_append_left _ List.mem_cons_self
  | inside _ ih =>
    exact List.mem_append_left _ (List.mem_cons_of_mem _ (List.mem_map.mpr ⟨_, ih, rfl⟩))
  | afterLeaf _ ih => exact List.mem_cons_of_mem _ ih
  | afterDir _ ih => exact List.mem_append_right _ ih

theorem dropLast_mem_preorder (h : x ∈ f.preorder) :
    x.1.dropLast = [] ∨ (x.1.dropLast, none) ∈ f.preorder := by
  induction f generalizing x with
  | nil => cases h
  | leaf n a rest ih =>
    rcases List.mem_cons.mp h with rfl | h
    · exact .inl rfl
    · exact (ih h).imp_right (List.mem_cons_of_mem _)
  | dir n kids rest ihk ih =>
    rcases List.mem_append.mp h with h | h
    · rcases List.mem_cons.mp h with rfl | h
      · exact .inl rfl
      · obtain ⟨y, hy, rfl⟩ := List.mem_map.mp h
        refine .inr (List.mem_append_left _ ?_)
        rw [dropLast_cons_of_mem hy]
        rcases ihk hy with hn | hm
        · rw [hn]
          exact List.mem_cons_self
        · exact List.mem_cons_of_mem _ (List.mem_map.mpr ⟨_, hm, rfl⟩)
    · exact (ih h).imp_right (List.mem_append_right _)

theorem Ordered.pairwise_preorder (h : f.Ordered (· ≠ ·)) :
    (f.preorder.map Prod.fst).Pairwise fun x y => x.dropLast ≠ y := by
  have hn {g : Forest κ α} {y : List κ} (hy : y ∈ g.preorder.map Prod.fst) : y ≠ [] := by
    obtain ⟨x, hx, rfl⟩ := List.mem_map.mp hy
    exact ne_nil_of_mem_preorder hx
  induction f with
  | nil => exact .nil
  | leaf n a rest ih => exact .cons (fun y hy => (hn hy).symm) (ih h.2)
  | dir n kids rest ihk ih =>
    have hk : (kids.preorder.map fun x => (n :: x.1, x.2)).map Prod.fst =
        (kids.preorder.map Prod.fst).map (n :: ·) := by
      rw [List.map_map, List.map_map]
      rfl
    rw [preorder, List.map_append, List.map_cons, hk]
    refine List.pairwise_append.mpr ⟨.cons ?_ ?_, ih h.2.2, ?_⟩
    · intro y hy
      obtain ⟨z, -, rfl⟩ := List.mem_map.mp hy
      exact (List.cons_ne_nil _ _).symm
    · rw [List.pairwise_map]
      refine (ihk h.2.1).imp_of_mem fun {x y} hx _ hxy heq => hxy ?_
      rw [List.dropLast_cons_of_ne_nil (hn hx)] at heq
      exact (List.cons.inj heq).2
    · intro x hx y hy heq
      rcases List.mem_cons.mp hx with rfl | hx
      · exact hn hy heq.symm
      · obtain ⟨z, hz, rfl⟩ := List.mem_map.mp hx
        rw [List.dropLast_cons_of_ne_nil (hn hz)] at heq
        exact notMem_preorder h.1 (heq ▸ hy)

theorem filter_map_cons (q : List κ → Bool) :
    (f.preorder.map fun x => (n :: x.1, x.2)).filter (fun x => q x.1.dropLast) =
      (f.preorder.filter fun x => q (n :: x.1.dropLast)).map fun x => (n :: x.1, x.2) := by
  rw [List.filter_map]
  congr 1
  refine List.filter_congr fun x hx => ?_
  simp [dropLast_cons_of_mem hx]

theorem filter_eq_nil [DecidableEq κ] (h : ∀ m ∈ f.names, n ≠ m) :
    f.preorder.filter (·.1.dropLast = n :: b) = [] := by
  rw [List.filter_eq_nil_iff]
  intro x hx heq
  obtain ⟨m, tail, hxm, hm⟩ := head_mem_names hx
  have hd : x.1.dropLast = n :: b := by simpa using heq
  rw [hxm] at hd
  cases tail with
  | nil => cases hd
  | cons m' tail =>
    exact h m hm (List.cons.inj hd).1.symm

theorem filter_tops : f.preorder.filter (·.1.dropLast = []) = f.tops.map fun x => ([x.1], x.2) := by
  induction f with
  | nil => rfl
  | leaf n a rest ih =>
    rw [preorder, List.filter_cons_of_pos (by simp), ih]
    rfl
  | dir n kids rest _ ih =>
    have hk : (kids.preorder.map fun x => (n :: x.1, x.2)).filter (·.1.dropLast = []) = [] := by
      rw [filter_map_cons (q := fun b => decide (b = []))]
      simp
    rw [preorder, List.filter_append, List.filter_cons_of_pos (by simp), hk, ih]
    rfl

theorem SubDir.filter_preorder [DecidableEq κ] (h : SubDir f b k) (hf : f.Ordered (· ≠ ·)) :
    f.preorder.filter (·.1.dropLast = b) = k.tops.map fun x => (b ++ [x.1], x.2) := by
  induction h with
  | here =>
    rename_i n kids rest
    have hk : (kids.preorder.map fun x => (n :: x.1, x.2)).filter (·.1.dropLast = [n]) =
        kids.tops.map fun x => ([n] ++ [x.1], x.2) := by
      rw [filter_map_cons (q := fun b => decide (b = [n]))]
      simp only [List.cons.injEq, true_and]
      rw [filter_tops, List.map_map]
      rfl
    rw [preorder, List.filter_append, List.filter_cons_of_neg (by simp), hk,
      filter_eq_nil hf.1, List.append_nil]
  | inside sub ih =>
    rename_i n kids rest k b
    have hk : (kids.preorder.map fun x => (n :: x.1, x.2)).filter (·.1.dropLast = n :: b) =
        k.tops.map fun x => (n :: b ++ [x.1], x.2) := by
      rw [filter_map_cons (q := fun b' => decide (b' = n :: b))]
      simp only [List.cons.injEq, true_and]
      rw [ih hf.2.1, List.map_map]
      rfl
    rw [preorder, List.filter_append, List.filter_cons_of_neg (by simp), hk,
      filter_eq_nil hf.1, List.append_nil]
  | afterLeaf sub ih =>
    obtain ⟨m, tail, rfl, hm⟩ := sub.exists_head
    rw [preorder, List.filter_cons_of_neg (by simp), ih hf.2]
  | afterDir sub ih =>
    rename_i n kids rest k b
    obtain ⟨m, tail, rfl, hm⟩ := sub.exists_head
    have hk : (kids.preorder.map fun x => (n :: x.1, x.2)).filter
        (·.1.dropLast = m :: tail) = [] := by
      rw [filter_map_cons (q := fun b => decide (b = m :: tail))]
      simp [hf.1 m hm]
    rw [preorder, List.filter_append, List.filter_cons_of_neg (by simp), hk, List.nil_append,
      ih hf.2.2]

end Forest

end RioBuild.Lib
