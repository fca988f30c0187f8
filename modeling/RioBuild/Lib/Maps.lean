import Mathlib.Data.Finmap
import Mathlib.Data.Finset.Sort
import Mathlib.Data.String.Basic

namespace RioBuild.Lib

-- strings are sorted by these everywhere
instance stringTrans : IsTrans String (· ≤ ·) := inferInstance

instance stringAntisymm : @Std.Antisymm String (· ≤ ·) := inferInstance

instance stringTotal : @Std.Total String (· ≤ ·) := inferInstance

abbrev Map (α β : Type*) := Finmap fun _ : α => β

namespace Map

variable {α β : Type*} [DecidableEq α] {m : Map α β} {a : α} {v : β}

theorem lookup_insert_ite : (m.insert k v).lookup a = if a = k then some v else m.lookup a := by
  split_ifs with h
  · rw [h, Finmap.lookup_insert]
  · exact Finmap.lookup_insert_of_ne m h

theorem lookup_erase_ite : (m.erase k).lookup a = if a = k then none else m.lookup a := by
  split_ifs with h
  · rw [h, Finmap.lookup_erase]
  · exact Finmap.lookup_erase_ne h

theorem insert_lookup (h : m.lookup k = some v) : m.insert k v = m := by
  refine Finmap.ext_lookup fun a => ?_
  rw [lookup_insert_ite]
  split
  · rename_i ha
    rw [ha, h]
  · rfl

theorem erase_lookup (h : m.lookup k = none) : m.erase k = m := by
  refine Finmap.ext_lookup fun a => ?_
  rw [lookup_erase_ite]
  split
  · rename_i ha
    rw [ha, h]
  · rfl

/-- `get_mut`: the value is changed if there is one. -/
def modify (k : α) (f : β → β) (m : Map α β) : Map α β :=
  match m.lookup k with
  | some v => m.insert k (f v)
  | none => m

theorem lookup_modify :
    (modify k f m).lookup a = if a = k then (m.lookup a).map f else m.lookup a := by
  unfold modify
  split
  · rename_i v hv
    rw [lookup_insert_ite]
    split_ifs with ha
    · rw [ha, hv]
      rfl
    · rfl
  · rename_i hn
    split_ifs with ha
    · rw [ha, hn]
      rfl
    · rfl

theorem lookup_foldl_modify (key : γ → α) (f : γ → β → β) (l : List γ) :
    (l.foldl (fun m x => modify (key x) (f x) m) m).lookup a =
      (l.filter (key · = a)).foldl (fun v x => v.map (f x)) (m.lookup a) := by
  induction l generalizing m with
  | nil => rfl
  | cons x l ih =>
    rw [List.foldl_cons, ih, lookup_modify]
    by_cases hx : a = key x
    · simp [hx]
    · simp [hx, Ne.symm hx]

theorem foldl_overwrite {f : γ → β → β} (hf : ∀ x y v, f x (f y v) = f x v) (l : List γ)
    (v : Option β) : l.foldl (fun v x => v.map (f x)) v = match l.getLast? with
      | some x => v.map (f x)
      | none => v := by
  induction l using List.reverseRecOn with
  | nil => rfl
  | append_singleton l x ih =>
    rw [List.foldl_append, ih, List.getLast?_concat]
    cases l.getLast? with
    | none => rfl
    | some y => simp [Function.comp_def, hf]

theorem mem_of_getLast?_filter {key : γ → α} {l : List γ}
    (h : (l.filter (key · = a)).getLast? = some x) : x ∈ l ∧ key x = a := by
  obtain ⟨hmem, hke⟩ := List.mem_filter.mp (List.mem_of_getLast? h)
  exact ⟨hmem, of_decide_eq_true hke⟩

theorem getLast?_filter_eq_none {key : γ → α} {l : List γ} :
    (l.filter (key · = a)).getLast? = none ↔ ∀ x ∈ l, key x ≠ a := by
  simp

theorem lookup_foldl_insert (key : γ → α) (val : γ → β) (l : List γ) :
    (l.foldl (fun m x => m.insert (key x) (val x)) m).lookup a =
      ((l.filter (key · = a)).getLast?.map val).or (m.lookup a) := by
  induction l using List.reverseRecOn with
  | nil => rfl
  | append_singleton l x ih =>
    rw [List.foldl_append, List.foldl_cons, List.foldl_nil, lookup_insert_ite, ih]
    by_cases hx : a = key x
    · simp [hx]
    · simp [hx, Ne.symm hx]

theorem lookup_foldl_insert_eq_some {l : List (α × β)} (hl : (l.map Prod.fst).Nodup) :
    (l.foldl (fun m x => m.insert x.1 x.2) (∅ : Map α β)).lookup a = some v ↔ (a, v) ∈ l := by
  induction l using List.reverseRecOn with
  | nil => simp
  | append_singleton l x ih =>
    rw [List.map_append, List.nodup_append] at hl
    have hn : ∀ v, (x.1, v) ∉ l := fun v hv =>
      hl.2.2 x.1 (List.mem_map.mpr ⟨_, hv, rfl⟩) x.1 List.mem_cons_self rfl
    by_cases ha : a = x.1
    · subst ha
      simp [hn, Prod.ext_iff, eq_comm]
    · simp [ha, ih hl.1, Prod.ext_iff]

theorem foldl_key {P : σ → Prop} {f : γ → τ → τ}
    (view : σ → τ) (hst : ∀ s x, P s → P (step s x) ∧
      view (step s x) = if x.1 = a then f x.2 (view s) else view s)
    (l : List (α × γ)) (hs : P s) : P (l.foldl step s) ∧
      view (l.foldl step s) = (l.filter (·.1 = a)).foldl (fun t x => f x.2 t) (view s) := by
  induction l generalizing s with
  | nil => exact ⟨hs, rfl⟩
  | cons x l ih =>
    obtain ⟨hP, hv⟩ := hst s x hs
    obtain ⟨hP', hv'⟩ := ih hP
    refine ⟨hP', ?_⟩
    rw [List.foldl_cons, hv', hv]
    by_cases hx : x.1 = a
    all_goals simp [hx]

def rows [LinearOrder α] (m : Map α β) : List (α × β) :=
  m.keys.sort.filterMap fun k => (m.lookup k).map (k, ·)

theorem filter_rows {α : Type*} [LinearOrder α] (m : Map α β) (a : α) :
    m.rows.filter (·.1 = a) = ((m.lookup a).map (a, ·)).toList := by
  have hf : ∀ keys : List α, keys.Nodup →
      (keys.filterMap fun k => (m.lookup k).map (k, ·)).filter (·.1 = a) =
        if a ∈ keys then ((m.lookup a).map (a, ·)).toList else [] := by
    intro keys hks
    induction keys with
    | nil => rfl
    | cons k keys ih =>
      obtain ⟨hk, hks⟩ := List.nodup_cons.mp hks
      rw [List.filterMap_cons]
      by_cases hak : k = a
      · subst hak
        cases m.lookup k with
        | none | some v => simp [ih hks, hk]
      · cases m.lookup k with
        | none => simp [ih hks, Ne.symm hak]
        | some v => simp [ih hks, hak, Ne.symm hak]
  rw [rows, hf _ (Finset.sort_nodup _ _)]
  by_cases ha : a ∈ m.keys
  · rw [if_pos ((Finset.mem_sort _).mpr ha)]
  · rw [if_neg (fun h => ha ((Finset.mem_sort _).mp h)), Finmap.lookup_eq_none.mpr ha]
    rfl

theorem mem_rows {α : Type*} [LinearOrder α] {m : Map α β} {a : α} :
    (a, v) ∈ m.rows ↔ m.lookup a = some v := by
  have hf : (a, v) ∈ m.rows ↔ (a, v) ∈ m.rows.filter (·.1 = a) := by simp
  rw [hf, filter_rows]
  simp

theorem filter_filterMap_rows {α : Type*} [LinearOrder α] (m : Map α β) (f : β → Option γ) (a : α) :
    (m.rows.filterMap fun x => (f x.2).map (x.1, ·)).filter (·.1 = a) =
      (((m.lookup a).bind f).map (a, ·)).toList := by
  have hke : ∀ x : α × β, (((f x.2).map (x.1, ·)).filter fun y => decide (y.1 = a)) =
      if decide (x.1 = a) then (f x.2).map (x.1, ·) else none := by
    intro x
    cases f x.2 with
    | none => simp
    | some v => by_cases hx : x.1 = a <;> simp [Option.filter]
  rw [List.filter_filterMap]
  simp only [hke]
  rw [← List.filterMap_filter, filter_rows]
  cases m.lookup a with
  | none => rfl
  | some v => cases hf : f v <;> simp [hf]

theorem mem_filterMap_rows {α : Type*} [LinearOrder α] {m : Map α β} {f : β → Option γ} {a : α}
    : (a, c) ∈ (m.rows.filterMap fun x => (f x.2).map (x.1, ·)) ↔ ∃ v ∈ m.lookup a, c ∈ f v := by
  have hf : (a, c) ∈ (m.rows.filterMap fun x => (f x.2).map (x.1, ·)) ↔
      (a, c) ∈ (m.rows.filterMap fun x => (f x.2).map (x.1, ·)).filter (·.1 = a) := by
    simp
  rw [hf, filter_filterMap_rows]
  simp [Option.bind_eq_some_iff]

theorem lookup_foldl_erase (l : List α) :
    (l.foldl (fun m k => m.erase k) m).lookup a = if a ∈ l then none else m.lookup a := by
  induction l generalizing m with
  | nil => simp
  | cons k l ih =>
    rw [List.foldl_cons, ih, lookup_erase_ite]
    by_cases hk : a = k
    all_goals simp [hk]

def retain (keep : α → β → Bool) (m : Map α β) : Map α β where
  entries := m.entries.filter fun e => keep e.1 e.2
  nodupKeys := Multiset.nodup_keys.mp
    (Multiset.nodup_of_le (Multiset.map_le_map (Multiset.filter_le _ _)) m.nodupKeys.nodup_keys)

/-- `iter_mut`. -/
def adjust (f : α → β → β) (m : Map α β) : Map α β where
  entries := m.entries.map fun e => ⟨e.1, f e.1 e.2⟩
  nodupKeys := by
    rw [← Multiset.nodup_keys, Multiset.keys, Multiset.map_map]
    exact m.nodupKeys.nodup_keys

theorem lookup_retain : (retain keep m).lookup a = (m.lookup a).filter (keep a) := by
  ext v
  rw [Finmap.lookup_eq_some_iff, retain, Multiset.mem_filter, Option.filter_eq_some_iff,
    Finmap.lookup_eq_some_iff]

theorem lookup_adjust : (adjust f m).lookup a = (m.lookup a).map (f a) := by
  ext v
  rw [Finmap.lookup_eq_some_iff, adjust, Multiset.mem_map, Option.map_eq_some_iff]
  constructor
  · rintro ⟨⟨b, w⟩, hmem, heq⟩
    cases heq
    exact ⟨w, Finmap.lookup_eq_some_iff.mpr hmem, rfl⟩
  · rintro ⟨w, hw, rfl⟩
    exact ⟨⟨a, w⟩, Finmap.lookup_eq_some_iff.mp hw, rfl⟩

def stamp (keys : Finset α) (v : β) (m : Map α β) : Map α β where
  entries := keys.val.map (fun k => ⟨k, v⟩) + m.entries.filter fun e => e.1 ∉ keys
  nodupKeys := by
    rw [← Multiset.nodup_keys, Multiset.keys, Multiset.map_add, Multiset.map_map,
      Multiset.nodup_add]
    refine ⟨by simpa using keys.nodup, Multiset.nodup_of_le
      (Multiset.map_le_map (Multiset.filter_le _ _)) m.nodupKeys.nodup_keys, ?_⟩
    rw [Multiset.disjoint_left]
    intro k hk hk'
    obtain ⟨k', hmem, rfl⟩ := Multiset.mem_map.mp hk
    obtain ⟨e, he, heq⟩ := Multiset.mem_map.mp hk'
    exact (Multiset.mem_filter.mp he).2 (heq ▸ hmem)

theorem lookup_stamp : (stamp keys v m).lookup a = if a ∈ keys then some v else m.lookup a := by
  ext w
  rw [Finmap.lookup_eq_some_iff]
  change ⟨a, w⟩ ∈ keys.val.map (fun k => ⟨k, v⟩) + m.entries.filter (fun e => e.1 ∉ keys) ↔ _
  rw [Multiset.mem_add, Multiset.mem_filter, ← Finmap.lookup_eq_some_iff]
  by_cases ha : a ∈ keys
  · simp [ha]
  · simp [ha]

def keysWhere (p : β → Bool) (m : Map α β) : Finset α := m.keys.filter fun k => (m.lookup k).any p

theorem mem_keysWhere : a ∈ keysWhere p m ↔ ∃ v, m.lookup a = some v ∧ p v := by
  simp only [keysWhere, Finset.mem_filter, Finmap.mem_keys, Finmap.mem_iff, Option.any_eq_true]
  constructor
  · rintro ⟨-, v, hv, hp⟩
    exact ⟨v, hv, hp⟩
  · rintro ⟨v, hv, hp⟩
    exact ⟨⟨v, hv⟩, v, hv, hp⟩

end Map

namespace Map

variable [DecidableEq α] {m : Map α (Finset α)} {a b x y : α}

def row (m : Map α (Finset α)) (a : α) : Finset α := (m.lookup a).getD ∅

theorem row_of_lookup (h : m.lookup a = some s) : m.row a = s := by
  rw [row, h]
  rfl

/-- `entry(a).or_default().insert(b)`. -/
def addTo (a b : α) (m : Map α (Finset α)) : Map α (Finset α) := m.insert a (insert b (m.row a))

def dropFrom (a b : α) (m : Map α (Finset α)) : Map α (Finset α) :=
  match m.lookup a with
  | some s => if s.erase b = ∅ then m.erase a else m.insert a (s.erase b)
  | none => m

theorem mem_row_addTo : y ∈ (addTo a b m).row x ↔ x = a ∧ y = b ∨ y ∈ m.row x := by
  rw [row, addTo, lookup_insert_ite]
  split_ifs with hx
  · simp [hx]
  · simp [hx, row]

theorem row_erase : row (m.erase a) x = if x = a then ∅ else m.row x := by
  rw [row, lookup_erase_ite]
  split
  all_goals rfl

theorem row_insert : row (m.insert a s) x = if x = a then s else m.row x := by
  rw [row, lookup_insert_ite]
  split
  all_goals rfl

theorem mem_row_dropFrom : y ∈ (dropFrom a b m).row x ↔ y ∈ m.row x ∧ ¬(x = a ∧ y = b) := by
  unfold dropFrom
  split
  · rename_i s hs
    have hr := row_of_lookup hs
    by_cases hx : x = a
    · subst hx
      split_ifs with hem
      · have hy : y ∉ s.erase b := by simp [hem]
        rw [row_erase, if_pos rfl, hr]
        simp only [Finset.mem_erase, not_and] at hy
        simp only [Finset.notMem_empty, true_and, false_iff, not_and, not_not]
        exact fun hys => by_contra fun hyb => hy hyb hys
      · rw [row_insert, if_pos rfl, hr]
        simp only [Finset.mem_erase, true_and]
        exact and_comm
    · split
      · rw [row_erase]
        simp [hx]
      · rw [row_insert]
        simp [hx]
  · rename_i hn
    by_cases hx : x = a
    · subst hx
      simp [row, hn]
    · simp [hx]

theorem mem_row_modify_erase :
    y ∈ (modify a (·.erase b) m).row x ↔ y ∈ m.row x ∧ ¬(x = a ∧ y = b) := by
  rw [row, lookup_modify]
  split_ifs with hx
  · subst hx
    cases h : m.lookup x with
    | none => simp [row, h]
    | some s =>
      simp only [row, h, Option.map_some, Option.getD_some, Finset.mem_erase, true_and]
      exact and_comm
  · simp [hx, row]

theorem mem_row_foldl_modify_erase {l : List α} :
    y ∈ row (l.foldl (fun m a => modify a (·.erase b) m) m) x ↔ y ∈ m.row x ∧ ¬(x ∈ l ∧ y = b) := by
  induction l generalizing m with
  | nil => simp
  | cons a l ih =>
    rw [List.foldl_cons, ih, mem_row_modify_erase, List.mem_cons]
    tauto

end Map

end RioBuild.Lib
