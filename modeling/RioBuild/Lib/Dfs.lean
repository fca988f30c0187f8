import Mathlib

namespace RioBuild.Lib

open List

inductive Color
  | white | gray | black
  deriving DecidableEq, Repr

namespace Dfs

structure Frame (α : Type*) where
  node : α
  rest : List α

variable {α : Type*} (succ : α → List α)

section Search

variable [DecidableEq α]

def search : Nat → List (Frame α) → (α → Color) → Option (Bool × (α → Color))
  | 0, _, _ => none
  | _ + 1, [], color => some (false, color)
  | fuel + 1, ⟨node, []⟩ :: stack, color =>
    search fuel stack (Function.update color node .black)
  | fuel + 1, ⟨node, c :: rest⟩ :: stack, color =>
    match color c with
    | .gray => some (true, color)
    | .black => search fuel (⟨node, rest⟩ :: stack) color
    | .white => search fuel (⟨c, succ c⟩ :: ⟨node, rest⟩ :: stack) (Function.update color c .gray)

def searchFrom (fuel : Nat) (start : α) (color : α → Color) : Option (Bool × (α → Color)) :=
  match color start with
  | .gray => some (true, color)
  | .black => some (false, color)
  | .white => search succ fuel [⟨start, succ start⟩] (Function.update color start .gray)

def searchAll (fuel : Nat) : List α → (α → Color) → Option Bool
  | [], _ => some false
  | start :: starts, color =>
    match searchFrom succ fuel start color with
    | none => none
    | some (true, _) => some true
    | some (false, color) => searchAll fuel starts color

end Search

def Edge (p c : α) : Prop := c ∈ succ p

def Grounded (v : α) : Prop := Acc (fun c p => Edge succ p c) v

variable {succ}

theorem Grounded.not_cycle (h : Grounded succ v) : ¬Relation.TransGen (Edge succ) v v := by
  induction h with
  | intro v _ ih =>
    intro hc
    obtain ⟨c, hv, hcv⟩ := Relation.TransGen.head'_iff.mp hc
    exact ih c hv (Relation.TransGen.tail' hcv hv)

def Explored (succ : α → List α) (color : α → Color) : Option α → List (Frame α) → Prop
  | _, [] => True
  | above, f :: stack =>
    (∀ c ∈ succ f.node, c ∈ f.rest ∨ color c = .black ∨ above = some c) ∧
      Explored succ color (some f.node) stack

structure Inv (succ : α → List α) (stack : List (Frame α)) (color : α → Color) : Prop where
  chain : (stack.map Frame.node).IsChain fun c p => Edge succ p c
  nodup : (stack.map Frame.node).Nodup
  gray : ∀ v, color v = .gray ↔ v ∈ stack.map Frame.node
  black : ∀ v, color v = .black → Grounded succ v
  rest : ∀ f ∈ stack, ∀ c ∈ f.rest, Edge succ f.node c
  explored : Explored succ color none stack

variable {stack : List (Frame α)} {color color' : α → Color} {node c v : α} {rest : List α}

theorem Explored.mono (h : Explored succ color above stack)
    (hm : ∀ v, color v = .black → color' v = .black) : Explored succ color' above stack := by
  induction stack generalizing above with
  | nil => trivial
  | cons f stack ih =>
    refine ⟨fun c hc => ?_, ih h.2⟩
    rcases h.1 c hc with hr | hb | ha
    · exact .inl hr
    · exact .inr (.inl (hm c hb))
    · exact .inr (.inr ha)

namespace Inv

section

variable (h : Inv succ (⟨node, c :: rest⟩ :: stack) color)
include h

theorem skip (hc : color c = .black) : Inv succ (⟨node, rest⟩ :: stack) color where
  __ := h
  rest f hf d hd := by
    rcases mem_cons.mp hf with rfl | hf
    · exact h.rest _ mem_cons_self d (mem_cons_of_mem _ hd)
    · exact h.rest f (mem_cons_of_mem _ hf) d hd
  explored := by
    refine ⟨fun d hd => ?_, h.explored.2⟩
    rcases h.explored.1 d hd with hr | hb | ha
    · rcases mem_cons.mp hr with rfl | hr
      · exact .inr (.inl hc)
      · exact .inl hr
    · exact .inr (.inl hb)
    · simp at ha

theorem cycle (hc : color c = .gray) : Relation.TransGen (Edge succ) c c := by
  have hp {top v : α} {path : List α} (hch : (top :: path).IsChain fun c p => Edge succ p c)
      (hv : v ∈ top :: path) : Relation.ReflTransGen (Edge succ) v top := by
    induction path generalizing top with
    | nil =>
      obtain rfl : v = top := by simpa using hv
      exact .refl
    | cons below path ih =>
      rcases mem_cons.mp hv with rfl | hv
      · exact .refl
      · obtain ⟨he, hch⟩ := isChain_cons_cons.mp hch
        exact (ih hch hv).tail he
  have hb := h.rest _ mem_cons_self c mem_cons_self
  exact Relation.TransGen.tail' (hp h.chain ((h.gray c).mp hc)) hb

end

variable [DecidableEq α]

theorem push (h : Inv succ (⟨node, c :: rest⟩ :: stack) color) (hc : color c = .white) :
    Inv succ (⟨c, succ c⟩ :: ⟨node, rest⟩ :: stack) (Function.update color c .gray) := by
  have hm : c ∉ ((⟨node, rest⟩ :: stack)).map Frame.node := fun hm => by
    have := (h.gray c).mpr hm
    simp [hc] at this
  have hb v (hv : color v = .black) : Function.update color c .gray v = .black := by
    rw [Function.update_of_ne, hv]
    rintro rfl
    simp [hc] at hv
  refine ⟨?_, nodup_cons.mpr ⟨hm, h.nodup⟩, fun v => ?_, fun v hv => ?_,
    fun f hf d hd => ?_, fun d hd => .inl hd, fun d hd => ?_, ?_⟩
  · exact isChain_cons_cons.mpr ⟨h.rest _ mem_cons_self c mem_cons_self, h.chain⟩
  · by_cases hv : v = c
    · simp [hv]
    · rw [Function.update_of_ne hv, h.gray]
      simp [hv]
  · by_cases hvc : v = c
    · simp [hvc] at hv
    · rw [Function.update_of_ne hvc] at hv
      exact h.black v hv
  · rcases mem_cons.mp hf with rfl | hf
    · exact hd
    rcases mem_cons.mp hf with rfl | hf
    · exact h.rest _ mem_cons_self d (mem_cons_of_mem _ hd)
    · exact h.rest f (mem_cons_of_mem _ hf) d hd
  · rcases h.explored.1 d hd with hr | hd | ha
    · rcases mem_cons.mp hr with rfl | hr
      · exact .inr (.inr rfl)
      · exact .inl hr
    · exact .inr (.inl (hb d hd))
    · simp at ha
  · exact h.explored.2.mono hb

theorem pop (h : Inv succ (⟨node, []⟩ :: stack) color) :
    Inv succ stack (Function.update color node .black) := by
  have hn : node ∉ stack.map Frame.node := (nodup_cons.mp h.nodup).1
  have hg : Grounded succ node := by
    refine ⟨_, fun c hc => h.black c ?_⟩
    rcases h.explored.1 c hc with hr | hb | ha
    · simp at hr
    · exact hb
    · simp at ha
  have hb v (hv : color v = .black) : Function.update color node .black v = .black := by
    by_cases hvn : v = node
    · simp [hvn]
    · rw [Function.update_of_ne hvn, hv]
  refine ⟨h.chain.tail, (nodup_cons.mp h.nodup).2, fun v => ?_, fun v hv => ?_,
    fun f hf => h.rest f (mem_cons_of_mem _ hf), ?_⟩
  · by_cases hv : v = node
    · subst hv
      simp [hn]
    · rw [Function.update_of_ne hv, h.gray]
      simp [hv]
  · by_cases hvn : v = node
    · exact hvn ▸ hg
    · rw [Function.update_of_ne hvn] at hv
      exact h.black v hv
  · cases stack with
    | nil => trivial
    | cons f stack =>
      refine ⟨fun c hc => ?_, h.explored.2.2.mono hb⟩
      rcases h.explored.2.1 c hc with hr | hv | ha
      · exact .inl hr
      · exact .inr (.inl (hb c hv))
      · obtain rfl : node = c := Option.some.inj ha
        exact .inr (.inl (by simp))

end Inv

variable [DecidableEq α]

structure Settled (succ : α → List α) (color : α → Color) : Prop where
  notGray : ∀ v, color v ≠ .gray
  black : ∀ v, color v = .black → Grounded succ v

theorem search_found (h : Inv succ stack color)
    (hs : search succ fuel stack color = some (true, color')) :
    ∃ v, Relation.TransGen (Edge succ) v v := by
  induction fuel, stack, color using search.induct succ with
  | case1 | case2 => simp [search] at hs
  | case3 _ _ _ _ ih => exact ih h.pop (by simpa [search] using hs)
  | case4 _ _ _ _ _ _ hc => exact ⟨_, h.cycle hc⟩
  | case5 _ _ _ _ _ _ hc ih => exact ih (h.skip hc) (by simpa [search, hc] using hs)
  | case6 _ _ _ _ _ _ hc ih => exact ih (h.push hc) (by simpa [search, hc] using hs)

theorem search_exhausted (h : Inv succ stack color)
    (hse : search succ fuel stack color = some (false, color')) :
    Settled succ color' ∧ (∀ v, color v = .black → color' v = .black) ∧
      ∀ f ∈ stack, color' f.node = .black := by
  induction fuel, stack, color using search.induct succ with
  | case1 => simp [search] at hse
  | case2 fuel color =>
    obtain rfl : color = color' := by simpa [search] using hse
    exact ⟨⟨fun v hv => by simpa using (h.gray v).mp hv, h.black⟩, fun _ hv => hv, by simp⟩
  | case3 fuel node stack color ih =>
    obtain ⟨hs, hm, hsk⟩ := ih h.pop (by simpa [search] using hse)
    have hn : color' node = .black := hm node (by simp)
    refine ⟨hs, fun v hv => ?_, forall_mem_cons.mpr ⟨hn, hsk⟩⟩
    by_cases hvn : v = node
    · exact hvn ▸ hn
    · exact hm v (by rw [Function.update_of_ne hvn, hv])
  | case4 _ _ _ _ _ _ hc => simp [search, hc] at hse
  | case5 _ _ _ _ _ _ hc ih =>
    obtain ⟨hs, hm, hsk⟩ := ih (h.skip hc) (by simpa [search, hc] using hse)
    exact ⟨hs, hm, by simpa using hsk⟩
  | case6 fuel node c rest stack color hc ih =>
    obtain ⟨hs, hm, hsk⟩ := ih (h.push hc) (by simpa [search, hc] using hse)
    refine ⟨hs, fun v hv => hm v ?_, fun f hf => ?_⟩
    · rw [Function.update_of_ne, hv]
      rintro rfl
      simp [hc] at hv
    · obtain ⟨hn, hsk⟩ := forall_mem_cons.mp (forall_mem_cons.mp hsk).2
      rcases mem_cons.mp hf with rfl | hf
      · exact hn
      · exact hsk f hf

section

variable (h : Settled succ color)
include h

theorem inv_start : Inv succ [⟨start, succ start⟩] (Function.update color start .gray) where
  chain := .singleton _
  nodup := nodup_singleton _
  gray v := by
    by_cases hv : v = start
    · simp [hv]
    · simp [hv, h.notGray v]
  black v hv := by
    by_cases hvs : v = start
    · simp [hvs] at hv
    · rw [Function.update_of_ne hvs] at hv
      exact h.black v hv
  rest f hf := by
    obtain rfl := mem_singleton.mp hf
    exact fun _ hc => hc
  explored := ⟨fun _ hc => .inl hc, trivial⟩

theorem searchFrom_found (hs : searchFrom succ fuel start color = some (true, color')) :
    ∃ v, Relation.TransGen (Edge succ) v v := by
  unfold searchFrom at hs
  split at hs
  · rename_i hg
    exact absurd hg (h.notGray start)
  · simp at hs
  · exact search_found (inv_start h) hs

theorem searchFrom_exhausted (hs : searchFrom succ fuel start color = some (false, color')) :
    Settled succ color' ∧ Grounded succ start := by
  unfold searchFrom at hs
  split at hs
  · simp at hs
  · rename_i hb
    obtain rfl : color = color' := by simpa using hs
    exact ⟨h, h.black start hb⟩
  · obtain ⟨hset, _, hsk⟩ := search_exhausted (inv_start h) hs
    exact ⟨hset, hset.black start (hsk _ mem_cons_self)⟩

theorem searchAll_eq (hs : searchAll succ fuel starts color = some found) :
    if found then ∃ v, Relation.TransGen (Edge succ) v v
    else ∀ start ∈ starts, Grounded succ start := by
  induction starts generalizing color with
  | nil =>
    obtain rfl : false = found := by simpa [searchAll] using hs
    simp
  | cons start starts ih =>
    unfold searchAll at hs
    split at hs
    · simp at hs
    · rename_i hf
      obtain rfl : true = found := by simpa using hs
      exact searchFrom_found h hf
    · rename_i hf
      obtain ⟨hset, hg⟩ := searchFrom_exhausted h hf
      have := ih hset hs
      cases found with
      | true => exact this
      | false => exact forall_mem_cons.mpr ⟨hg, this⟩

end

variable (succ) in
def work (V : Finset α) (stack : List (Frame α)) (color : α → Color) : Nat :=
  ∑ v ∈ V with color v = .white, (2 + (succ v).length) + (stack.map fun f => 1 + f.rest.length).sum

variable {V : Finset α}

theorem sum_white_black_le (V : Finset α) (color : α → Color) (node : α) (f : α → Nat) :
    ∑ v ∈ V with Function.update color node .black v = .white, f v ≤
      ∑ v ∈ V with color v = .white, f v := by
  refine Finset.sum_le_sum_of_subset fun v hv => ?_
  obtain ⟨hm, hw⟩ := Finset.mem_filter.mp hv
  refine Finset.mem_filter.mpr ⟨hm, ?_⟩
  by_cases hvn : v = node
  · simp [hvn] at hw
  · rwa [Function.update_of_ne hvn] at hw

theorem sum_white_gray (f : α → Nat) (hc : c ∈ V) (hw : color c = .white) :
    ∑ v ∈ V with Function.update color c .gray v = .white, f v + f c =
      ∑ v ∈ V with color v = .white, f v := by
  have he : ({v ∈ V | Function.update color c .gray v = .white}) =
      ({v ∈ V | color v = .white}).erase c := by
    ext v
    by_cases hv : v = c
    all_goals simp [hv]
  rw [he, Finset.sum_erase_add]
  exact Finset.mem_filter.mpr ⟨hc, hw⟩

theorem isSome_search (hV : ∀ v ∈ V, ∀ c ∈ succ v, c ∈ V)
    (hr : ∀ f ∈ stack, ∀ c ∈ f.rest, c ∈ V) (hf : work succ V stack color < fuel) :
    (search succ fuel stack color).isSome := by
  induction fuel, stack, color using search.induct succ with
  | case1 => omega
  | case2 => simp [search]
  | case3 fuel node stack color ih =>
    refine ih (forall_mem_cons.mp hr).2 ?_
    have := sum_white_black_le V color node fun v => 2 + (succ v).length
    simp only [work, map_cons, sum_cons] at hf ⊢
    omega
  | case4 _ _ _ _ _ _ hc => simp [search, hc]
  | case5 fuel node c rest stack color hc ih =>
    simp only [search, hc]
    obtain ⟨hn, hs⟩ := forall_mem_cons.mp hr
    refine ih (forall_mem_cons.mpr ⟨fun d hd => ?_, hs⟩) ?_
    · exact hn d (mem_cons_of_mem _ hd)
    · simp only [work, map_cons, sum_cons, length_cons] at hf ⊢
      omega
  | case6 fuel node c rest stack color hc ih =>
    simp only [search, hc]
    obtain ⟨hn, hs⟩ := forall_mem_cons.mp hr
    have hcV := hn c mem_cons_self
    refine ih (forall_mem_cons.mpr ⟨hV c hcV, forall_mem_cons.mpr
      ⟨fun d hd => hn d (mem_cons_of_mem _ hd), hs⟩⟩) ?_
    have := sum_white_gray (fun v => 2 + (succ v).length) hcV hc
    simp only [work, map_cons, sum_cons, length_cons] at hf ⊢
    omega

variable (succ) in
def fuelFor (V : Finset α) : Nat := ∑ v ∈ V, (2 + (succ v).length) + 1

theorem isSome_searchFrom (color : α → Color) (hV : ∀ v ∈ V, ∀ c ∈ succ v, c ∈ V)
    (hs : start ∈ V) : (searchFrom succ (fuelFor succ V) start color).isSome := by
  unfold searchFrom
  split
  · rfl
  · rfl
  · rename_i hw
    refine isSome_search hV ?_ ?_
    · simpa using hV start hs
    · have hg := sum_white_gray (fun v => 2 + (succ v).length) hs hw
      have hle : ∑ v ∈ V with color v = .white, (2 + (succ v).length) ≤
          ∑ v ∈ V, (2 + (succ v).length) :=
        Finset.sum_le_sum_of_subset (Finset.filter_subset _ _)
      simp only [work, fuelFor, map_cons, map_nil, sum_cons, sum_nil]
      omega

theorem isSome_searchAll (hV : ∀ v ∈ V, ∀ c ∈ succ v, c ∈ V)
    (hs : ∀ start ∈ starts, start ∈ V) : (searchAll succ (fuelFor succ V) starts color).isSome := by
  induction starts generalizing color with
  | nil => rfl
  | cons start starts ih =>
    obtain ⟨hst, hs⟩ := forall_mem_cons.mp hs
    obtain ⟨⟨found, color'⟩, hf⟩ :=
      Option.isSome_iff_exists.mp (isSome_searchFrom color hV hst)
    unfold searchAll
    rw [hf]
    cases found with
    | true => rfl
    | false => exact ih hs

end Dfs

section

open Relation

variable {α : Type*} {r s : α → α → Prop}

theorem exists_added_of_transGen (h : TransGen s a b) :
    TransGen r a b ∨ ∃ p c, ReflTransGen s a p ∧ s p c ∧ ¬r p c ∧ ReflTransGen s c b := by
  induction h with
  | @single b ha =>
    by_cases hr : r a b
    · exact .inl (.single hr)
    · exact .inr ⟨a, b, .refl, ha, hr, .refl⟩
  | @tail b c ha hb ih =>
    obtain ho | ⟨p, q, hap, hp, hn, hq⟩ := ih
    · by_cases hr : r b c
      · exact .inl (ho.tail hr)
      · exact .inr ⟨b, c, ha.to_reflTransGen, hb, hr, .refl⟩
    · exact .inr ⟨p, q, hap, hp, hn, hq.tail hb⟩

theorem exists_added_of_cycle (hr : ¬TransGen r v v) (hs : TransGen s v v) :
    ∃ p c, s p c ∧ ¬r p c ∧ TransGen s p p := by
  obtain ho | ⟨p, c, hv, hp, hn, hc⟩ := exists_added_of_transGen hs
  · exact absurd ho hr
  · exact ⟨p, c, hp, hn, .head' hp (hc.trans hv)⟩

end

end RioBuild.Lib
