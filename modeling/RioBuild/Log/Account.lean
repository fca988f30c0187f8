import Mathlib
import RioBuild.Lib.Spans
import RioBuild.Lib.Word

namespace RioBuild.Log

open Lib Lib.Word List

/-- The columns are `u64`; the key is a session and a number in it. -/
structure AccountRow where
  firstLine : Nat
  lineCount : Nat
  accountedBytes : Nat
  key : Nat ×ₗ Nat
  first_le : firstLine ≤ u64Max
  deriving DecidableEq

structure LogAccount where
  mergedBytes : Nat := 0
  mergedChunks : Nat := 0
  rawBytes : Nat := 0
  rawRows : Nat := 0
  deriving DecidableEq, Repr

namespace AccountRow

def stop (r : AccountRow) : Nat := saturatingAdd r.firstLine r.lineCount

def redundant (rows : List AccountRow) (r : AccountRow) (i : Nat) : Bool :=
  rows.zipIdx.any fun (o, j) => j ≠ i ∧ o.key ≠ r.key ∧ o.firstLine ≤ r.firstLine ∧
    o.stop ≥ r.stop ∧ (o.firstLine < r.firstLine ∨ o.stop > r.stop ∨ o.key > r.key)

end AccountRow

def LogAccount.add (acct : LogAccount) (r : AccountRow) (redundant : Bool) : LogAccount :=
  let acct := { acct with
    rawBytes := saturatingAdd acct.rawBytes r.accountedBytes
    rawRows := saturatingAdd acct.rawRows 1 }
  if redundant then acct
  else { acct with
    mergedBytes := saturatingAdd acct.mergedBytes r.accountedBytes
    mergedChunks := saturatingAdd acct.mergedChunks 1 }

def logAccount (rows : List AccountRow) : LogAccount :=
  rows.zipIdx.foldl (fun acct (r, i) => acct.add r (AccountRow.redundant rows r i)) {}

def survivors (rows : List AccountRow) : List AccountRow :=
  (rows.zipIdx.filter fun (r, i) => !AccountRow.redundant rows r i).map Prod.fst

def accountOf (kept all : List AccountRow) : LogAccount where
  mergedBytes := min (kept.map (·.accountedBytes)).sum u64Max
  mergedChunks := min kept.length u64Max
  rawBytes := min (all.map (·.accountedBytes)).sum u64Max
  rawRows := min all.length u64Max

theorem accountOf_add (kept all : List AccountRow) : (accountOf kept all).add r redundant =
    accountOf (if redundant then kept else kept ++ [r]) (all ++ [r]) := by
  cases redundant with
  | false | true =>
    simp only [LogAccount.add, accountOf, saturatingAdd]
    simp
    omega

theorem foldl_add {flag : AccountRow × Nat → Bool} (l : List (AccountRow × Nat))
    (kept all : List AccountRow) :
    l.foldl (fun acct x => acct.add x.1 (flag x)) (accountOf kept all) =
      accountOf (kept ++ (l.filter fun x => !flag x).map Prod.fst) (all ++ l.map Prod.fst) := by
  induction l generalizing kept all with
  | nil => simp
  | cons x l ih =>
    rw [foldl_cons, accountOf_add, ih]
    cases hx : flag x with
    | false | true => simp [hx]

theorem logAccount_eq (rows : List AccountRow) :
    logAccount rows = accountOf (survivors rows) rows := by
  refine (foldl_add rows.zipIdx [] []).trans ?_
  rw [zipIdx_map_fst]
  rfl

namespace AccountRow

variable {rows : List AccountRow} {r o : AccountRow}

def interval (r : AccountRow) : NonemptyInterval Nat :=
  ⟨(r.firstLine, r.stop), Nat.le_min.mpr ⟨Nat.le_add_right _ _, r.first_le⟩⟩

/-- Intervals by inclusion, and equal ones by the key. -/
def rank (r : AccountRow) : NonemptyInterval Nat ×ₗ (Nat ×ₗ Nat) := toLex (r.interval, r.key)

def Beaten (rows : List AccountRow) (r : AccountRow) : Prop :=
  ∃ o ∈ rows, o.key ≠ r.key ∧ r.rank < o.rank

theorem rank_lt_iff : r.rank < o.rank ↔ o.firstLine ≤ r.firstLine ∧ o.stop ≥ r.stop ∧
    (o.firstLine < r.firstLine ∨ o.stop > r.stop ∨ o.key > r.key) := by
  have hle : r.interval ≤ o.interval ↔ o.firstLine ≤ r.firstLine ∧ r.stop ≤ o.stop :=
    NonemptyInterval.le_def
  have heq : r.interval = o.interval ↔ r.firstLine = o.firstLine ∧ r.stop = o.stop := by
    rw [NonemptyInterval.ext_iff, Prod.ext_iff]
    rfl
  rw [rank, rank, Prod.Lex.toLex_lt_toLex, lt_iff_le_and_ne, Ne, heq, hle]
  constructor
  · rintro (⟨⟨hf, hs⟩, hne⟩ | ⟨⟨hf, hs⟩, hk⟩)
    · exact ⟨hf, hs, by omega⟩
    · exact ⟨hf.ge, hs.le, .inr (.inr hk)⟩
  · rintro ⟨hf, hs, hm⟩
    by_cases hsa : r.firstLine = o.firstLine ∧ r.stop = o.stop
    · exact .inr ⟨hsa, hm.resolve_left (by omega) |>.resolve_left (by omega)⟩
    · exact .inl ⟨⟨hf, hs⟩, hsa⟩

theorem interval_le_of_rank_le (h : r.rank ≤ o.rank) : r.interval ≤ o.interval := by
  rcases Prod.Lex.toLex_le_toLex.mp h with hlt | ⟨heq, -⟩
  · exact hlt.le
  · exact heq.le

theorem redundant_iff (h : (r, i) ∈ rows.zipIdx) : redundant rows r i = true ↔ Beaten rows r := by
  simp only [redundant, any_eq_true, decide_eq_true_eq, Beaten, rank_lt_iff, Prod.exists]
  rw [mem_zipIdx_iff_getElem?] at h
  constructor
  · rintro ⟨o, j, ho, -, hb⟩
    exact ⟨o, fst_mem_of_mem_zipIdx ho, hb⟩
  · rintro ⟨o, ho, hk, hb⟩
    obtain ⟨j, hj⟩ := getElem?_of_mem ho
    refine ⟨o, j, mem_zipIdx_iff_getElem?.mpr hj, ?_, hk, hb⟩
    rintro rfl
    cases h.symm.trans hj
    exact hk rfl

open Classical in
theorem survivors_eq : survivors rows = rows.filter fun r => ¬Beaten rows r := by
  conv_rhs => rw [← zipIdx_map_fst 0 rows, filter_map, zipIdx_map_fst]
  refine congrArg (map Prod.fst) (filter_congr fun x hx => ?_)
  rw [Function.comp_apply, ← redundant_iff hx]
  simp

section Distinct

variable (hkeys : (rows.map key).Nodup)
include hkeys

theorem eq_of_key (hr : r ∈ rows) (ho : o ∈ rows) (h : o.key = r.key) : o = r :=
  inj_on_of_nodup_map hkeys ho hr h

theorem beaten_iff (hr : r ∈ rows) : Beaten rows r ↔ ∃ o ∈ rows, r.rank < o.rank := by
  constructor
  · rintro ⟨o, ho, -, hlt⟩
    exact ⟨o, ho, hlt⟩
  · rintro ⟨o, ho, hlt⟩
    refine ⟨o, ho, fun hk => ?_, hlt⟩
    rw [eq_of_key hkeys hr ho hk] at hlt
    exact lt_irrefl _ hlt

theorem mem_survivors : r ∈ survivors rows ↔ r ∈ rows ∧ ∀ o ∈ rows, ¬r.rank < o.rank := by
  classical
  rw [survivors_eq, mem_filter]
  refine and_congr_right fun hr => ?_
  rw [beaten_iff hkeys hr]
  simp

theorem exists_survivor (hr : r ∈ rows) : ∃ o ∈ survivors rows, r.rank ≤ o.rank := by
  obtain ⟨b, hle, hm⟩ := (finite_toSet (rows.map rank)).exists_le_maximal (mem_map_of_mem hr)
  obtain ⟨o, ho, rfl⟩ := mem_map.mp hm.prop
  refine ⟨o, (mem_survivors hkeys).mpr ⟨ho, fun q hq hlt => ?_⟩, hle⟩
  exact hm.not_prop_of_gt hlt (mem_map_of_mem hq)

theorem mem_survivors_iff_maximal :
    r ∈ survivors rows ↔ r ∈ rows ∧ Maximal (· ∈ rows.map interval) r.interval ∧
      ∀ o ∈ rows, o.interval = r.interval → o.key ≤ r.key := by
  rw [mem_survivors hkeys]
  refine and_congr_right fun hr => ⟨fun h => ⟨⟨mem_map_of_mem hr, ?_⟩, ?_⟩, ?_⟩
  · intro i hi hle
    obtain ⟨o, ho, rfl⟩ := mem_map.mp hi
    by_contra hn
    exact h o ho (Prod.Lex.toLex_lt_toLex.mpr (.inl (lt_of_le_not_ge hle hn)))
  · intro o ho heq
    by_contra hn
    exact h o ho (Prod.Lex.toLex_lt_toLex.mpr (.inr ⟨heq.symm, lt_of_not_ge hn⟩))
  · rintro ⟨hm, hk⟩ o ho hlt
    rcases Prod.Lex.toLex_lt_toLex.mp hlt with hlt | ⟨heq, hlt⟩
    · exact hm.not_prop_of_gt hlt (mem_map_of_mem ho)
    · exact absurd hlt (not_lt.mpr (hk o ho heq.symm))

theorem existsUnique_survivor (h : Maximal (· ∈ rows.map interval) i) :
    ∃! r, r ∈ survivors rows ∧ r.interval = i := by
  obtain ⟨r, hr, rfl⟩ := mem_map.mp h.prop
  obtain ⟨o, ho, hle⟩ := exists_survivor hkeys hr
  obtain ⟨hor, -, hgt⟩ := (mem_survivors_iff_maximal hkeys).mp ho
  have hs := h.eq_of_ge (mem_map_of_mem hor) (interval_le_of_rank_le hle)
  refine ⟨o, ⟨ho, hs⟩, fun q ⟨hq, hqi⟩ => ?_⟩
  obtain ⟨hqr, -, hqg⟩ := (mem_survivors_iff_maximal hkeys).mp hq
  refine eq_of_key hkeys hor hqr (le_antisymm ?_ ?_)
  · exact hgt q hqr (hqi.trans hs.symm)
  · exact hqg o hor (hs.trans hqi.symm)

theorem covered_survivors (hf : ∀ r ∈ rows, r.firstLine + r.lineCount ≤ u64Max) :
    covered ((survivors rows).map fun r => (r.firstLine, r.firstLine + r.lineCount)) =
      covered (rows.map fun r => (r.firstLine, r.firstLine + r.lineCount)) := by
  ext l
  simp only [mem_covered, mem_map, exists_exists_and_eq_and]
  constructor
  · rintro ⟨r, hr, hl⟩
    exact ⟨r, ((mem_survivors hkeys).mp hr).1, hl⟩
  · rintro ⟨r, hr, hl⟩
    obtain ⟨o, ho, hle⟩ := exists_survivor hkeys hr
    obtain ⟨hfs, hs⟩ : o.firstLine ≤ r.firstLine ∧ r.stop ≤ o.stop :=
      NonemptyInterval.le_def.mp (interval_le_of_rank_le hle)
    rw [stop, stop, saturatingAdd_eq (hf r hr),
      saturatingAdd_eq (hf o ((mem_survivors hkeys).mp ho).1)] at hs
    exact ⟨o, ho, hfs.trans hl.1, hl.2.trans_le hs⟩

end Distinct

theorem survivors_sublist (rows : List AccountRow) : (survivors rows).Sublist rows := by
  classical
  rw [survivors_eq]
  exact filter_sublist

theorem survivors_perm (h : rows'.Perm rows) : (survivors rows').Perm (survivors rows) := by
  classical
  have hb r : Beaten rows' r ↔ Beaten rows r := by
    simp [Beaten, h.mem_iff]
  rw [survivors_eq, survivors_eq]
  simp only [hb]
  exact h.filter _

theorem survivors_cons (hkeys : ((r :: rows).map key).Nodup) (ho : o ∈ rows)
    (hlt : r.interval < o.interval) : survivors (r :: rows) = survivors rows := by
  classical
  obtain ⟨hf, hre⟩ := nodup_cons.mp hkeys
  have hr : r.rank < o.rank := Prod.Lex.toLex_lt_toLex.mpr (.inl hlt)
  have hh : Beaten (r :: rows) r :=
    (beaten_iff hkeys mem_cons_self).mpr ⟨o, mem_cons_of_mem r ho, hr⟩
  rw [survivors_eq, survivors_eq, filter_cons_of_neg (by simpa using hh)]
  refine filter_congr fun x hx => ?_
  rw [decide_eq_decide, not_iff_not, beaten_iff hkeys (mem_cons_of_mem r hx), beaten_iff hre hx]
  constructor
  · rintro ⟨q, hq, hxq⟩
    rcases mem_cons.mp hq with rfl | hq
    · exact ⟨o, ho, hxq.trans hr⟩
    · exact ⟨q, hq, hxq⟩
  · rintro ⟨q, hq, hxq⟩
    exact ⟨q, mem_cons_of_mem r hq, hxq⟩

end AccountRow

theorem accountOf_perm {kept kept' all all' : List AccountRow} (h : kept'.Perm kept)
    (h' : all'.Perm all) : accountOf kept' all' = accountOf kept all := by
  rw [accountOf, accountOf, (h.map _).sum_eq, (h'.map _).sum_eq, h.length_eq, h'.length_eq]

/-- For each interval that is maximal among the rows the one with the greatest key counts; so the
lines are those of all rows, in any order of the rows, the merged pair is at most the raw one, and a
row within another one changes nothing in it. -/
theorem logAccount_exact (rows : List AccountRow) (hkeys : (rows.map AccountRow.key).Nodup)
    (hfits : ∀ r ∈ rows, r.firstLine + r.lineCount ≤ u64Max) :
    logAccount rows = accountOf (survivors rows) rows ∧
      (∀ r, r ∈ survivors rows ↔ r ∈ rows ∧ Maximal (· ∈ rows.map AccountRow.interval) r.interval ∧
        ∀ o ∈ rows, o.interval = r.interval → o.key ≤ r.key) ∧
      (∀ i, Maximal (· ∈ rows.map AccountRow.interval) i →
        ∃! r, r ∈ survivors rows ∧ r.interval = i) ∧
      covered ((survivors rows).map fun r => (r.firstLine, r.firstLine + r.lineCount)) =
        covered (rows.map fun r => (r.firstLine, r.firstLine + r.lineCount)) ∧
      (∀ rows', rows'.Perm rows → logAccount rows' = logAccount rows) ∧
      (logAccount rows).mergedChunks ≤ (logAccount rows).rawRows ∧
      (logAccount rows).mergedBytes ≤ (logAccount rows).rawBytes ∧
      ∀ r, r.key ∉ rows.map AccountRow.key → (∃ o ∈ rows, r.interval < o.interval) →
        (logAccount (r :: rows)).mergedBytes = (logAccount rows).mergedBytes ∧
          (logAccount (r :: rows)).mergedChunks = (logAccount rows).mergedChunks := by
  have hs := AccountRow.survivors_sublist rows
  refine ⟨logAccount_eq rows, fun r => AccountRow.mem_survivors_iff_maximal hkeys,
    fun i => AccountRow.existsUnique_survivor hkeys, AccountRow.covered_survivors hkeys hfits,
    fun rows' hp => ?_, ?_, ?_, fun r hr ⟨o, ho, hlt⟩ => ?_⟩
  · rw [logAccount_eq, logAccount_eq, accountOf_perm (AccountRow.survivors_perm hp) hp]
  · rw [logAccount_eq]
    exact min_le_min_right _ hs.length_le
  · rw [logAccount_eq]
    exact min_le_min_right _ ((hs.map _).sum_le_sum fun _ _ => Nat.zero_le _)
  · rw [logAccount_eq, logAccount_eq, AccountRow.survivors_cons (nodup_cons.mpr ⟨hr, hkeys⟩) ho hlt]
    exact ⟨rfl, rfl⟩

def twice : List AccountRow :=
  [⟨0, 5, 70, toLex (1, 0), by decide⟩, ⟨1, 2, 30, toLex (2, 0), by decide⟩,
    ⟨0, 5, 80, toLex (3, 0), by decide⟩]

theorem logAccount_exact_twice : logAccount twice = ⟨80, 1, 180, 3⟩ ∧
      logAccount twice.reverse = logAccount twice := by
  have h := logAccount_exact twice (by decide) (by decide)
  exact ⟨by decide, h.2.2.2.2.1 _ (reverse_perm twice)⟩

end RioBuild.Log
