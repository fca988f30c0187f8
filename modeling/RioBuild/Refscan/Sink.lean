import RioBuild.Lib.Occurs
import RioBuild.Nar.Wire

namespace RioBuild.Refscan

open Lib

def hashChars : Nat := 32

/-- The nixbase32 alphabet; it has no `e`, `o`, `t` or `u`. -/
def chars : Bytes := Nar.ascii "0123456789abcdfghijklmnpqrsvwxyz"

def isBase32 (b : UInt8) : Bool := chars.contains b

structure RefScanSink where
  remaining : Finset Bytes
  found : Finset Bytes
  tail : Bytes
  deriving DecidableEq

namespace RefScanSink

def new (candidates : List Bytes) : RefScanSink := ⟨candidates.toFinset, ∅, []⟩

def intoFound (s : RefScanSink) : Finset Bytes := s.found

/-- The last of the bytes at `i`, …, `i + j` that is not in the alphabet. -/
def skip (data : Bytes) (i : Nat) : Nat → Option Nat
  | 0 => if isBase32 (data.getD i 0) then none else some 0
  | j + 1 => if isBase32 (data.getD (i + (j + 1)) 0) then skip data i j else some (j + 1)

def probe (s : RefScanSink) (window : Bytes) : RefScanSink :=
  if window ∈ s.remaining then
    { s with remaining := s.remaining.erase window, found := insert window s.found }
  else s

def searchFrom (data : Bytes) : Nat → Nat → RefScanSink → RefScanSink
  | 0, _, s => s
  | fuel + 1, i, s =>
    if i + hashChars ≤ data.length then
      match skip data i (hashChars - 1) with
      | some j => searchFrom data fuel (i + (j + 1)) s
      | none => searchFrom data fuel (i + 1) (s.probe ((data.drop i).take hashChars))
    else s

def search (s : RefScanSink) (data : Bytes) : RefScanSink :=
  if data.length < hashChars ∨ s.remaining = ∅ then s else searchFrom data data.length 0 s

def shiftTail (tail data : Bytes) : Bytes :=
  let headLen := min data.length hashChars
  let rest := hashChars - headLen
  let tail := if rest < tail.length then tail.drop (tail.length - rest) else tail
  let tail := tail ++ data.drop (data.length - headLen)
  if tail.length ≥ hashChars then tail.drop (tail.length - (hashChars - 1)) else tail

def write (s : RefScanSink) (data : Bytes) : RefScanSink × Nat :=
  if s.remaining = ∅ then (s, data.length)
  else
    let headLen := min data.length hashChars
    let s := if s.tail ≠ [] then s.search (s.tail ++ data.take headLen) else s
    let s := s.search data
    ({ s with tail := shiftTail s.tail data }, data.length)

def writes (s : RefScanSink) (chunks : List Bytes) : RefScanSink :=
  chunks.foldl (fun s data => (s.write data).1) s

end RefScanSink

structure HashPart (h : Bytes) : Prop where
  length : h.length = hashChars
  chars : ∀ b ∈ h, isBase32 b = true

namespace RefScanSink

structure Finds (P : Bytes → Prop) (s s₁ : RefScanSink) : Prop where
  found : ∀ h, h ∈ s₁.found ↔ h ∈ s.found ∨ h ∈ s.remaining ∧ P h
  remaining : ∀ h, h ∈ s₁.remaining ↔ h ∈ s.remaining ∧ ¬P h
  tail : s₁.tail = s.tail

theorem finds_self (h : ∀ x ∈ s.remaining, ¬P x) : Finds P s s := by
  refine ⟨fun x => ?_, fun x => ?_, rfl⟩
  · exact ⟨.inl, fun hx => hx.elim id fun hx => absurd hx.2 (h x hx.1)⟩
  · exact ⟨fun hx => ⟨hx, h x hx⟩, And.left⟩

theorem Finds.trans (h : Finds P s s₁) (h' : Finds Q s₁ s₂) : Finds (fun x => P x ∨ Q x) s s₂ := by
  refine ⟨fun x => ?_, fun x => ?_, h'.tail.trans h.tail⟩
  · rw [h'.found, h.found, h.remaining]
    tauto
  · rw [h'.remaining, h.remaining]
    tauto

theorem Finds.congr (h : Finds P s s1) (hPQ : ∀ x ∈ s.remaining, (P x ↔ Q x)) : Finds Q s s1 := by
  refine ⟨fun x => ?_, fun x => ?_, h.tail⟩
  · rw [h.found]
    exact or_congr_right (and_congr_right (hPQ x))
  · rw [h.remaining]
    exact and_congr_right fun hx => not_congr (hPQ x hx)

theorem finds_probe (s : RefScanSink) (window : Bytes) : Finds (· = window) s (s.probe window) := by
  unfold probe
  split_ifs with hm
  · refine ⟨fun x => ?_, fun x => ?_, rfl⟩
    · rw [Finset.mem_insert, or_comm]
      refine or_congr_right ⟨?_, And.right⟩
      rintro rfl
      exact ⟨hm, rfl⟩
    · rw [Finset.mem_erase, and_comm]
  · exact finds_self fun x hx heq => hm (heq ▸ hx)

def window (data : Bytes) (i : Nat) : Bytes := (data.drop i).take hashChars

def Occurs (data : Bytes) (i : Nat) (h : Bytes) : Prop :=
  ∃ p, i ≤ p ∧ p + hashChars ≤ data.length ∧ window data p = h

theorem occurs_zero (hh : HashPart h) : Occurs data 0 h ↔ h <:+: data := by
  rw [infix_iff_exists_take, hh.length]
  exact exists_congr fun p => and_iff_right (Nat.zero_le p)

theorem occurs_succ (hi : i + hashChars ≤ data.length) :
    (h = window data i ∨ Occurs data (i + 1) h) ↔ Occurs data i h := by
  constructor
  · rintro (rfl | ⟨p, hp, hl, rfl⟩)
    · exact ⟨i, le_refl i, hi, rfl⟩
    · exact ⟨p, Nat.le_of_succ_le hp, hl, rfl⟩
  · rintro ⟨p, hp, hl, rfl⟩
    rcases eq_or_lt_of_le hp with rfl | hp
    · exact .inl rfl
    · exact .inr ⟨p, hp, hl, rfl⟩

theorem skip_some (h : skip data i j = some k) :
    k ≤ j ∧ isBase32 (data.getD (i + k) 0) = false := by
  induction j with
  | zero =>
    rw [skip] at h
    split at h
    · cases h
    · rename_i hne
      cases h
      exact ⟨le_refl 0, by simpa using hne⟩
  | succ j ih =>
    rw [skip] at h
    split_ifs at h with hne
    · exact ⟨(ih h).1.trans (Nat.le_succ j), (ih h).2⟩
    · cases h
      exact ⟨le_refl _, by simpa using hne⟩

theorem occurs_skip (hh : HashPart h) (hi : i + hashChars ≤ data.length)
    (hs : skip data i (hashChars - 1) = some j) :
    Occurs data (i + (j + 1)) h ↔ Occurs data i h := by
  obtain ⟨hj, hb⟩ := skip_some hs
  have hlt : j < hashChars := lt_of_le_of_lt hj (by decide)
  constructor
  · rintro ⟨p, hp, hl, rfl⟩
    exact ⟨p, by omega, hl, rfl⟩
  · rintro ⟨p, hp, hl, rfl⟩
    refine ⟨p, ?_, hl, rfl⟩
    by_contra hlt
    have hm : data.getD (i + j) 0 ∈ window data p := by
      rw [List.getD_eq_getElem data 0 (by omega)]
      refine List.mem_iff_getElem.mpr ⟨i + j - p, ?_, ?_⟩
      · rw [window, List.length_take, List.length_drop]
        omega
      · simp only [window, List.getElem_take, List.getElem_drop]
        congr 1
        omega
    rw [hh.chars _ hm] at hb
    cases hb

theorem finds_searchFrom (hs : ∀ h ∈ s.remaining, HashPart h) (hf : data.length ≤ i + fuel) :
    Finds (Occurs data i) s (searchFrom data fuel i s) := by
  induction fuel generalizing i s with
  | zero =>
    refine finds_self fun h hh ⟨p, hp, hl, _⟩ => ?_
    have : 0 < hashChars := by decide
    omega
  | succ fuel ih =>
    rw [searchFrom]
    split_ifs with hi
    · split
      · rename_i j hsk
        refine (ih hs (by omega)).congr fun h hh => ?_
        exact occurs_skip (hs h hh) hi hsk
      · have hpr := finds_probe s (window data i)
        have hs' : ∀ h ∈ (s.probe (window data i)).remaining, HashPart h :=
          fun h hh => hs h ((hpr.remaining h).mp hh).1
        exact (hpr.trans (ih hs' (by omega))).congr fun h _ => occurs_succ hi
    · refine finds_self fun h hh ⟨p, hp, hl, _⟩ => ?_
      omega

theorem finds_search (hs : ∀ h ∈ s.remaining, HashPart h) (data : Bytes) :
    Finds (· <:+: data) s (s.search data) := by
  unfold search
  split
  · rename_i hn
    refine finds_self fun h hh hi => ?_
    rcases hn with hsh | he
    · have := hi.length_le
      rw [(hs h hh).length] at this
      omega
    · rw [he] at hh
      cases hh
  · exact (finds_searchFrom hs (by omega)).congr fun h hh => occurs_zero (hs h hh)

theorem shiftTail_eq :
    shiftTail (seen.rtake (hashChars - 1)) data = (seen ++ data).rtake (hashChars - 1) := by
  have hd (l : Bytes) n : (if n < l.length then l.drop (l.length - n) else l) = l.rtake n := by
    split_ifs with h
    · rfl
    · exact (rtake_of_length_le (Nat.le_of_not_lt h)).symm
  have hc (l : Bytes) : (if l.length ≥ hashChars then l.drop (l.length - (hashChars - 1)) else l)
      = l.rtake (hashChars - 1) := hd l (hashChars - 1)
  unfold shiftTail
  dsimp only
  rw [hd, hc]
  change ((seen.rtake (hashChars - 1)).rtake (hashChars - min data.length hashChars) ++
    data.rtake (min data.length hashChars)).rtake (hashChars - 1) = _
  have hk : min (min (hashChars - 1 - min (min data.length hashChars) data.length)
      (hashChars - min data.length hashChars)) (hashChars - 1) = hashChars - 1 - data.length := by
    omega
  have hl : min (hashChars - 1) (min data.length hashChars) = min (hashChars - 1) data.length := by
    omega
  rw [rtake_append, rtake_append, rtake_rtake, rtake_rtake, rtake_rtake, length_rtake, hk,
    hl, rtake_min_length]

/-- After the pieces `seen`: what has been found is what occurs, and the end of them is kept while
there is something to be found. -/
structure Seen (candidates : List Bytes) (seen : Bytes) (s : RefScanSink) : Prop where
  found : ∀ h, h ∈ s.found ↔ h ∈ candidates ∧ h <:+: seen
  remaining : ∀ h, h ∈ s.remaining ↔ h ∈ candidates ∧ ¬h <:+: seen
  tail : s.remaining.Nonempty → s.tail = seen.rtake (hashChars - 1)

theorem seen_new (hc : ∀ h ∈ candidates, HashPart h) : Seen candidates [] (new candidates) := by
  have hn : ∀ h ∈ candidates, ¬h <:+: [] := by
    intro h hh hi
    have hl := (hc h hh).length
    rw [List.infix_nil.mp hi] at hl
    cases hl
  refine ⟨fun h => ?_, fun h => ?_, fun _ => rfl⟩
  · exact iff_of_false (Finset.notMem_empty h) fun hh => hn h hh.1 hh.2
  · rw [new, List.mem_toFinset]
    exact ⟨fun hh => ⟨hh, hn h hh⟩, And.left⟩

theorem finds_pieces (hs : ∀ h ∈ s.remaining, HashPart h) (data : Bytes) :
    Finds (fun h => h <:+: s.tail ++ data.take hashChars ∨ h <:+: data) s
      ((if s.tail ≠ [] then s.search (s.tail ++ data.take (min data.length hashChars))
        else s).search data) := by
  have hta : data.take (min data.length hashChars) = data.take hashChars := by
    rw [min_comm, ← List.take_take, List.take_length]
  rw [hta]
  by_cases ht : s.tail = []
  · rw [ht]
    refine (finds_search hs data).congr fun h _ => (or_iff_right_of_imp fun hi => ?_).symm
    exact hi.trans ( List.take_prefix _ _).isInfix
  · rw [if_pos ht]
    have hse := finds_search hs (s.tail ++ data.take hashChars)
    refine hse.trans (finds_search (fun h hh => ?_) data)
    exact hs h ((hse.remaining h).mp hh).1

theorem Seen.write (hc : ∀ h ∈ candidates, HashPart h) (h : Seen candidates seen s) (data : Bytes) :
    Seen candidates (seen ++ data) (s.write data).1 := by
  rw [RefScanSink.write]
  split
  · rename_i he
    have ha : ∀ x ∈ candidates, x <:+: seen := by
      intro x hx
      by_contra hi
      have hm := (h.remaining x).mpr ⟨hx, hi⟩
      rw [he] at hm
      cases hm
    have hmo {x : Bytes} (hx : x <:+: seen) : x <:+: seen ++ data :=
      hx.trans (List.prefix_append seen data).isInfix
    refine ⟨fun x => ?_, fun x => ?_, fun hne => absurd he hne.ne_empty⟩
    · rw [h.found]
      exact and_congr_right fun hx => iff_of_true (ha x hx) (hmo (ha x hx))
    · rw [h.remaining]
      exact and_congr_right fun hx =>
        iff_of_false (not_not.mpr (ha x hx)) (not_not.mpr (hmo (ha x hx)))
  · rename_i hne
    have ht := h.tail (Finset.nonempty_iff_ne_empty.mpr hne)
    have hs : ∀ x ∈ s.remaining, HashPart x := fun x hx => hc x ((h.remaining x).mp hx).1
    have hf := finds_pieces hs data
    dsimp only
    generalize (if s.tail ≠ [] then s.search (s.tail ++ data.take (min data.length hashChars))
      else s).search data = s₂ at hf
    have hcu {x : Bytes} (hx : x ∈ candidates) : x <:+: seen ++ data ↔ x <:+: seen ∨
        (x <:+: s.tail ++ data.take hashChars ∨ x <:+: data) := by
      rw [infix_append_iff, (hc x hx).length, ht, or_comm (a := x <:+: data)]
    refine ⟨fun x => ?_, fun x => ?_, fun _ => ?_⟩
    · rw [hf.found, h.found, h.remaining, and_assoc, ← and_or_left]
      refine and_congr_right fun hx => ?_
      rw [hcu hx]
      tauto
    · rw [hf.remaining, h.remaining, and_assoc]
      refine and_congr_right fun hx => ?_
      rw [hcu hx]
      exact not_or.symm
    · rw [hf.tail, ht, shiftTail_eq]

theorem Seen.writes (hc : ∀ h ∈ candidates, HashPart h) (h : Seen candidates seen s)
    (chunks : List Bytes) : Seen candidates (seen ++ chunks.flatten) (s.writes chunks) := by
  induction chunks generalizing seen s with
  | nil =>
    rw [List.flatten_nil, List.append_nil]
    exact h
  | cons data chunks ih =>
    rw [List.flatten_cons, ← List.append_assoc]
    exact ih (h.write hc data)

theorem found_eq_occurring (candidates : List Bytes) (hc : ∀ h ∈ candidates, HashPart h)
    (chunks : List Bytes) : ((new candidates).writes chunks).intoFound =
        candidates.toFinset.filter (· <:+: chunks.flatten) ∧
      ∀ chunks' : List Bytes, chunks'.flatten = chunks.flatten →
        ((new candidates).writes chunks').intoFound =
          ((new candidates).writes chunks).intoFound := by
  have hf chunks : ((new candidates).writes chunks).intoFound =
      candidates.toFinset.filter (· <:+: chunks.flatten) := by
    ext h
    rw [Finset.mem_filter, List.mem_toFinset]
    exact ((seen_new hc).writes hc chunks).found h
  refine ⟨hf chunks, fun chunks' heq => ?_⟩
  rw [hf, hf, heq]

theorem found_eq_occurring_fourWrites : ((new [List.replicate 32 48]).writes
      [1 :: List.replicate 20 48, [], List.replicate 11 48, [48, 2]]).intoFound =
        {List.replicate 32 48} := by
  have hc : ∀ h ∈ [List.replicate 32 48], HashPart h :=
    List.forall_mem_singleton.mpr ⟨rfl, List.all_eq_true.mp (by decide)⟩
  rw [(found_eq_occurring _ hc _).1]
  decide

end RefScanSink

end RioBuild.Refscan
