import DsAlgor.Lib.CInt
import DsAlgor.Lib.Grid
import DsAlgor.Lib.Signed
import Mathlib.Data.Prod.Lex

/-!
# The sub-array with the sum closest to 0

`subarraySumClosest`. The sum of a sub-array is the difference of two prefix sums. They are sorted
with their indices, and the least difference is that of two neighbours (`neighbours_le`). The size
is taken for an `int`, and only that many numbers are looked at (`findsClosest_iff`).
-/

namespace SubarraySumClosest

open Checked Grid
open Signed (Undefined add access intMax)

/-- `pair<int, int>` -/
abbrev Entry := Int ×ₗ Int

def INT_MAX : Int := 2 ^ 31 - 1

def sumStep (nums : Arr Int) (sumIndex : Arr Entry) (i : Nat) : Except Fault (Arr Entry) := do
  let before ← sumIndex.get i
  let num ← nums.get i
  sumIndex.set (i + 1 : Nat) (toLex (int32 ((ofLex before).1 + num), i + 1))

/-- The body of the second loop: `min_diff` and `closest_index`. -/
def closestStep (sumIndex : Arr Entry) (s : Int × Nat) (i : Nat) : Except Fault (Int × Nat) := do
  let x ← sumIndex.get i
  let y ← sumIndex.get (i - 1)
  let sumDiff := |int32 ((ofLex x).1 - (ofLex y).1)|
  return if s.1 > sumDiff then (sumDiff, i) else s

/-- The loops over the `n` numbers, from the table on. -/
def closestPair (nums : Arr Int) (n : Nat) (sumIndex : Arr Entry) : Except Fault (List Int) := do
  let sumIndex ← (List.range' 0 n).foldlM (sumStep nums) sumIndex
  let sumIndex : Arr Entry := ⟨0, sumIndex.elems.insertionSort (· ≤ ·)⟩
  let s ← (List.range' 1 n).foldlM (closestStep sumIndex) (INT_MAX, 1)
  let x ← sumIndex.get (s.2 - 1)
  let y ← sumIndex.get s.2
  return [min (ofLex x).2 (ofLex y).2, -1 + max (ofLex x).2 (ofLex y).2]

/-- A negative size becomes a `size_t` that is too great for a vector. -/
def newTable (size : Int) : Except Undefined (Arr Entry) :=
  if size < 0 then .error (.fault .outOfBounds)
  else return ⟨0, List.replicate size.toNat (toLex (0, 0))⟩

def subarraySumClosest (nums : List Int) : Except Undefined (List Int) :=
  if nums.isEmpty then return []
  else do
    let numSize := int32 nums.length
    let sumIndex ← newTable (← add numSize 1)
    access (closestPair ⟨0, nums⟩ numSize.toNat sumIndex)

/-! ## Prefix sums -/

section
variable {nums : List Int} {i j n : Nat}

def prefixSum (nums : List Int) (i : Nat) : Int := (nums.take i).sum

/-- The differences of the prefix sums are `int`s, and so are the sums. -/
def InRange (nums : List Int) : Prop := ∀ i ≤ nums.length, ∀ j ≤ nums.length,
  -2 ^ 31 ≤ prefixSum nums i - prefixSum nums j ∧ prefixSum nums i - prefixSum nums j < 2 ^ 31

theorem prefixSum_succ (hi : i < nums.length) :
    prefixSum nums (i + 1) = prefixSum nums i + nums[i] := by
  rw [prefixSum, List.take_succ_eq_append_getElem hi, List.sum_append, List.sum_singleton,
    prefixSum]

theorem sum_segment (hij : i ≤ j) :
    (Checked.segment nums i j).sum = prefixSum nums (j + 1) - prefixSum nums i := by
  have hsplit : nums.take (j + 1) = nums.take i ++ Checked.segment nums i j := by
    have hj : j + 1 = i + (j + 1 - i) := by omega
    rw [Checked.segment, ← List.take_add, ← hj]
  rw [prefixSum, hsplit, List.sum_append, prefixSum]
  omega

/-- The entries before they are sorted. -/
def entry (nums : List Int) (i : Nat) : Entry := toLex (prefixSum nums i, (i : Int))

/-- The sums of `nums`, with which `arr` begins. -/
theorem sums_run {arr : Arr Int} (harr : ∀ i (hi : i < nums.length), arr.get i = .ok nums[i])
    (h : InRange nums) : (List.range' 0 nums.length).foldlM (sumStep arr)
      ⟨0, List.replicate (nums.length + 1) (toLex (0, 0))⟩ =
    .ok ⟨0, gridRow (nums.length + 1) (entry nums)⟩ := by
  have hstart : ∃ f, (⟨0, List.replicate (nums.length + 1) (toLex (0, 0))⟩ : Arr Entry) =
      ⟨0, gridRow (nums.length + 1) f⟩ ∧ ∀ k ≤ 0, f k = entry nums k := by
    refine ⟨fun _ => toLex (0, 0), by rw [replicate_gridRow], fun k hk => ?_⟩
    obtain rfl : k = 0 := by omega
    rfl
  have hstep : ∀ i, 0 ≤ i → i < 0 + nums.length → ∀ table : Arr Entry,
      (∃ f, table = ⟨0, gridRow (nums.length + 1) f⟩ ∧ ∀ k ≤ i, f k = entry nums k) →
      ∃ table', sumStep arr table i = .ok table' ∧
        ∃ f, table' = ⟨0, gridRow (nums.length + 1) f⟩ ∧ ∀ k ≤ i + 1, f k = entry nums k := by
    rintro i - hi _ ⟨f, rfl, hf⟩
    have hi' : i < nums.length := by omega
    have hsum : int32 (prefixSum nums i + nums[i]) = prefixSum nums (i + 1) := by
      have hrange := h (i + 1) hi' 0 (Nat.zero_le _)
      have hzero : prefixSum nums 0 = 0 := rfl
      rw [hzero, Int.sub_zero] at hrange
      rw [← prefixSum_succ hi']
      exact Int.bmod_eq_of_le (by omega) (by omega)
    refine ⟨_, ?_, Function.update f (i + 1) (entry nums (i + 1)), rfl, fun k hk => ?_⟩
    · rw [sumStep, get_gridRow (by omega), ok_bind, harr i hi', ok_bind, set_gridRow (by omega),
        hf i le_rfl]
      rw [entry, ofLex_toLex, hsum, entry]
      rfl
    · by_cases hki : k = i + 1
      · rw [hki, Function.update_self]
      · rw [Function.update_of_ne hki]
        exact hf k (by omega)
  obtain ⟨_, hrun, f, rfl, hf⟩ := upward hstep hstart
  rw [hrun]
  refine congrArg (fun row => Except.ok (Arr.mk 0 row)) (List.map_congr_left fun k hk => ?_)
  have hk := List.mem_range.1 hk
  exact hf k (by omega)

/-! ## The neighbours -/

/-- The difference of an entry and the one before. -/
def gap (a : Nat → Entry) (i : Nat) : Int := (ofLex (a i)).1 - (ofLex (a (i - 1))).1

variable {a : Nat → Entry}

/-- The sorted entries are those of the prefix sums. -/
structure Sorted (nums : List Int) (a : Nat → Entry) : Prop where
  ascending : Ascending (nums.length + 1) a
  perm : (gridRow (nums.length + 1) a).Perm (gridRow (nums.length + 1) (entry nums))

theorem exists_sorted (nums : List Int) : ∃ a, Sorted nums a ∧
    (gridRow (nums.length + 1) (entry nums)).insertionSort (· ≤ ·) =
      gridRow (nums.length + 1) a := by
  obtain ⟨a, heq, hasc⟩ := exists_ascending (gridRow (nums.length + 1) (entry nums))
  rw [length_gridRow] at heq hasc
  exact ⟨a, ⟨hasc, heq ▸ List.perm_insertionSort _ _⟩, heq⟩

/-- Each entry is that of an index. -/
theorem Sorted.index (h : Sorted nums a) (hi : i ≤ nums.length) :
    ∃ k ≤ nums.length, a i = entry nums k := by
  have hmem : a i ∈ gridRow (nums.length + 1) a :=
    List.mem_map.2 ⟨i, List.mem_range.2 (by omega), rfl⟩
  obtain ⟨k, hk, heq⟩ := List.mem_map.1 (h.perm.mem_iff.1 hmem)
  exact ⟨k, Nat.le_of_lt_succ (List.mem_range.1 hk), heq.symm⟩

theorem Sorted.place (h : Sorted nums a) (hi : i ≤ nums.length) :
    ∃ k ≤ nums.length, a k = entry nums i := by
  have hmem : entry nums i ∈ gridRow (nums.length + 1) (entry nums) :=
    List.mem_map.2 ⟨i, List.mem_range.2 (by omega), rfl⟩
  obtain ⟨k, hk, heq⟩ := List.mem_map.1 (h.perm.mem_iff.2 hmem)
  exact ⟨k, Nat.le_of_lt_succ (List.mem_range.1 hk), heq⟩

/-- Different places have entries of different indices. -/
theorem Sorted.injective (h : Sorted nums a) (hi : i ≤ nums.length) (hj : j ≤ nums.length)
    (heq : a i = a j) : i = j := by
  have hnodup : (gridRow (nums.length + 1) a).Nodup := by
    refine h.perm.nodup_iff.2 (List.nodup_range.map fun k l hkl => ?_)
    have hsnd : (k : Int) = l := congrArg (fun e => (ofLex e).2) hkl
    exact Int.ofNat_inj.1 hsnd
  refine List.inj_on_of_nodup_map hnodup ?_ ?_ heq
  · exact List.mem_range.2 (by omega)
  · exact List.mem_range.2 (by omega)

theorem Sorted.gap_eq (h : Sorted nums a) (hrange : InRange nums) (hi : 1 ≤ i)
    (hin : i ≤ nums.length) : |int32 ((ofLex (a i)).1 - (ofLex (a (i - 1))).1)| = gap a i ∧
      0 ≤ gap a i ∧ gap a i ≤ INT_MAX := by
  obtain ⟨k, hk, hak⟩ := h.index hin
  obtain ⟨l, hl, hal⟩ := h.index (i := i - 1) (by omega)
  have hle : a (i - 1) ≤ a i := h.ascending _ _ (Nat.sub_le i 1) (by omega)
  have hpos : 0 ≤ gap a i := Int.sub_nonneg_of_le (Prod.Lex.monotone_fst _ _ hle)
  have hdiff := hrange k hk l hl
  have hgap : gap a i = prefixSum nums k - prefixSum nums l := by
    rw [gap, hak, hal]
    rfl
  have hint : int32 (gap a i) = gap a i := Int.bmod_eq_of_le (by omega) (by omega)
  refine ⟨?_, hpos, ?_⟩
  · rw [← gap, hint, abs_of_nonneg hpos]
  · unfold INT_MAX
    omega

/-- Two neighbours that are read. -/
theorem get_neighbours (hi : 1 ≤ i) (hin : i ≤ n) :
    Arr.get ⟨0, gridRow (n + 1) a⟩ i = .ok (a i) ∧
      Arr.get ⟨0, gridRow (n + 1) a⟩ (i - 1) = .ok (a (i - 1)) := by
  have hpred : (i : Int) - 1 = (i - 1 : Nat) := by omega
  rw [hpred]
  exact ⟨get_gridRow (by omega), get_gridRow (by omega)⟩

/-- `min_diff` and `closest_index` before step `i`. -/
structure Closest (nums : List Int) (a : Nat → Entry) (i : Nat) (s : Int × Nat) : Prop where
  pos : 1 ≤ s.2
  le : s.2 ≤ nums.length
  gap_le : gap a s.2 ≤ s.1
  least : ∀ j, 1 ≤ j → j < i → s.1 ≤ gap a j

theorem Closest.step {s : Int × Nat} (hs : Closest nums a i s) (h : Sorted nums a)
    (hrange : InRange nums) (hi : 1 ≤ i) (hin : i ≤ nums.length) :
    ∃ s', closestStep ⟨0, gridRow (nums.length + 1) a⟩ s i = .ok s' ∧
      Closest nums a (i + 1) s' := by
  obtain ⟨hx, hy⟩ := get_neighbours (a := a) hi hin
  refine ⟨if s.1 > gap a i then (gap a i, i) else s, ?_, ?_⟩
  · rw [closestStep, hx, ok_bind, hy, ok_bind, (h.gap_eq hrange hi hin).1]
    rfl
  · split_ifs with hgt
    · refine ⟨hi, hin, le_rfl, fun j hj hji => ?_⟩
      rcases Nat.lt_succ_iff_lt_or_eq.1 hji with hlt | heq
      · exact hgt.le.trans (hs.least j hj hlt)
      · rw [heq]
    · refine ⟨hs.pos, hs.le, hs.gap_le, fun j hj hji => ?_⟩
      rcases Nat.lt_succ_iff_lt_or_eq.1 hji with hlt | heq
      · exact hs.least j hj hlt
      · exact heq ▸ not_lt.1 hgt

/-- The closest neighbours. -/
theorem Sorted.closest_run (h : Sorted nums a) (hrange : InRange nums) (hne : nums ≠ []) :
    ∃ s : Int × Nat, (List.range' 1 nums.length).foldlM
        (closestStep ⟨0, gridRow (nums.length + 1) a⟩) (INT_MAX, 1) = .ok s ∧
      Closest nums a (1 + nums.length) s := by
  have hpos := List.length_pos_iff.2 hne
  have hstart : Closest nums a 1 (INT_MAX, 1) :=
    ⟨le_rfl, hpos, (h.gap_eq hrange le_rfl hpos).2.2, fun i hi hi' => by omega⟩
  exact upward (fun i hi hin s hs => hs.step h hrange hi (Nat.lt_one_add_iff.1 hin)) hstart

/-- Two entries are no closer than two neighbours. -/
theorem Sorted.neighbours_le (h : Sorted nums a) {g : Int}
    (hg : ∀ i, 1 ≤ i → i ≤ nums.length → g ≤ gap a i) (hi : i ≤ nums.length)
    (hj : j ≤ nums.length) (hij : i ≠ j) : g ≤ |prefixSum nums i - prefixSum nums j| := by
  obtain ⟨k, hk, hak⟩ := h.place hi
  obtain ⟨l, hl, hal⟩ := h.place hj
  have hfst : ∀ m n, m ≤ n → n ≤ nums.length → (ofLex (a m)).1 ≤ (ofLex (a n)).1 :=
    fun m n hmn hn => Prod.Lex.monotone_fst _ _ (h.ascending m n hmn (Nat.lt_succ_of_le hn))
  have hk' : (ofLex (a k)).1 = prefixSum nums i := by rw [hak]; rfl
  have hl' : (ofLex (a l)).1 = prefixSum nums j := by rw [hal]; rfl
  rcases lt_trichotomy k l with hlt | heq | hlt
  · have hgap := hg (k + 1) (Nat.le_add_left 1 k) (by omega)
    have hle := hfst (k + 1) l hlt hl
    rw [gap, Nat.add_sub_cancel] at hgap
    rw [abs_sub_comm]
    exact le_trans (by omega) (le_abs_self _)
  · subst heq
    have hsnd : (i : Int) = j := congrArg (fun e => (ofLex e).2) (hak.symm.trans hal)
    exact absurd (Int.ofNat_inj.1 hsnd) hij
  · have hgap := hg (l + 1) (Nat.le_add_left 1 l) (by omega)
    have hle := hfst (l + 1) k hlt hk
    rw [gap, Nat.add_sub_cancel] at hgap
    exact le_trans (by omega) (le_abs_self _)

/-- The sub-array between the indices of two neighbours. -/
theorem Sorted.between (h : Sorted nums a) (hi : 1 ≤ i) (hin : i ≤ nums.length) :
    ∃ left right : Nat, left ≤ right ∧ right < nums.length ∧
      min (ofLex (a (i - 1))).2 (ofLex (a i)).2 = left ∧
      -1 + max (ofLex (a (i - 1))).2 (ofLex (a i)).2 = right ∧
      |(Checked.segment nums left right).sum| = |gap a i| := by
  obtain ⟨k, hk, hak⟩ := h.index (i := i - 1) (by omega)
  obtain ⟨l, hl, hal⟩ := h.index hin
  have hkl : k ≠ l := by
    rintro rfl
    have heq := h.injective (by omega) hin (hak.trans hal.symm)
    omega
  have hgap : gap a i = prefixSum nums l - prefixSum nums k := by
    rw [gap, hak, hal]
    rfl
  have hsndk : (ofLex (a (i - 1))).2 = k := by rw [hak]; rfl
  have hsndl : (ofLex (a i)).2 = l := by rw [hal]; rfl
  rw [hsndk, hsndl, hgap]
  rcases Nat.lt_or_gt_of_ne hkl with hlt | hlt
  · refine ⟨k, l - 1, by omega, by omega, by omega, by omega, ?_⟩
    rw [sum_segment (by omega), Nat.sub_add_cancel (by omega)]
  · refine ⟨l, k - 1, by omega, by omega, by omega, by omega, ?_⟩
    rw [sum_segment (by omega), Nat.sub_add_cancel (by omega), abs_sub_comm]

theorem closestPair_ok {arr : Arr Int} (harr : ∀ i (hi : i < nums.length), arr.get i = .ok nums[i])
    (hne : nums ≠ []) (hrange : InRange nums) :
    ∃ left right : Nat, closestPair arr nums.length
        ⟨0, List.replicate (nums.length + 1) (toLex (0, 0))⟩ = .ok [(left : Int), (right : Int)] ∧
      left ≤ right ∧ right < nums.length ∧ ∀ l r, l ≤ r → r < nums.length →
        |(Checked.segment nums left right).sum| ≤ |(Checked.segment nums l r).sum| := by
  obtain ⟨a, hsorted, hsort⟩ := exists_sorted nums
  obtain ⟨s, hrun, hs, hsn, hgap, hmin⟩ := hsorted.closest_run hrange hne
  obtain ⟨left, right, hle, hlt, hleft, hright, hsum⟩ := hsorted.between hs hsn
  obtain ⟨hx, hy⟩ := get_neighbours (a := a) hs hsn
  refine ⟨left, right, ?_, hle, hlt, fun l r hlr hr => ?_⟩
  · rw [closestPair, sums_run harr hrange, ok_bind]
    dsimp only
    rw [hsort, hrun, ok_bind, hy, ok_bind, hx, ok_bind, hleft, hright]
    rfl
  · rw [hsum, abs_of_nonneg (hsorted.gap_eq hrange hs hsn).2.1, sum_segment hlr]
    refine hsorted.neighbours_le (fun i hi hin => ?_) (by omega) (by omega) (by omega)
    exact hgap.trans (hmin i hi (by omega))

/-! ## The first `n` numbers -/

theorem segment_take (hj : j < n) :
    Checked.segment (nums.take n) i j = Checked.segment nums i j := by
  rw [Checked.segment, Checked.segment, List.drop_take, List.take_take, Nat.min_eq_left (by omega)]

theorem InRange.take (h : InRange nums) (n : Nat) : InRange (nums.take n) := by
  have hlen := List.length_take_le' n nums
  have hsums : ∀ i ≤ (nums.take n).length, prefixSum (nums.take n) i = prefixSum nums i := by
    intro i hi
    rw [List.length_take] at hi
    rw [prefixSum, List.take_take, Nat.min_eq_left (by omega), prefixSum]
  intro i hi j hj
  rw [hsums i hi, hsums j hj]
  exact h i (hi.trans hlen) j (hj.trans hlen)

/-- Indices of a sub-array with the least sum are returned. -/
def FindsClosest (nums : List Int) : Prop :=
  ∃ left right : Nat, subarraySumClosest nums = .ok [(left : Int), (right : Int)] ∧
    left ≤ right ∧ right < nums.length ∧ ∀ l r, l ≤ r → r < nums.length →
      |(Checked.segment nums left right).sum| ≤ |(Checked.segment nums l r).sum|

/-- A sub-array of the first `n` numbers has a sum that is as close to 0 as any. -/
def ClosestWithin (nums : List Int) (n : Int) : Prop := ∀ l r, l ≤ r → r < nums.length →
  ∃ left right : Nat, left ≤ right ∧ right < n ∧
    |(Checked.segment nums left right).sum| ≤ |(Checked.segment nums l r).sum|

/-- The run with a size that is as an `int` positive and less than the greatest one. -/
theorem subarraySumClosest_ok {n : Nat} (hn : int32 nums.length = n) (hpos : 0 < n)
    (hmax : n < intMax) (hrange : InRange nums) :
    ∃ left right : Nat, subarraySumClosest nums = .ok [(left : Int), (right : Int)] ∧
      left ≤ right ∧ right < n ∧ ∀ l r, l ≤ r → r < n →
        |(Checked.segment nums left right).sum| ≤ |(Checked.segment nums l r).sum| := by
  have hle : n ≤ nums.length := by
    have hcast := int32_natCast_le nums.length
    omega
  have hlen : (nums.take n).length = n := List.length_take_of_le hle
  have hne : nums.take n ≠ [] := List.ne_nil_of_length_pos (hlen.symm ▸ hpos)
  have hempty : nums.isEmpty = false := by
    rw [List.isEmpty_eq_false_iff]
    rintro rfl
    exact hne List.take_nil
  have harr : ∀ i (hi : i < (nums.take n).length),
      Arr.get ⟨0, nums⟩ i = .ok (nums.take n)[i] := by
    intro i hi
    rw [List.getElem_take]
    exact get_nat (List.getElem?_eq_getElem _)
  obtain ⟨left, right, hrun, hlr, hright, hleast⟩ := closestPair_ok harr hne (hrange.take n)
  rw [hlen] at hrun hright hleast
  refine ⟨left, right, ?_, hlr, hright, fun l r hlr' hr => ?_⟩
  · have hadd : add (n : Int) 1 = .ok ((n + 1 : Nat) : Int) := by
      rw [Nat.cast_add, Nat.cast_one]
      exact Signed.add_ok (Int.natCast_nonneg n) Int.one_nonneg (by omega)
    rw [subarraySumClosest, hempty, if_neg Bool.false_ne_true]
    dsimp only
    rw [hn, hadd, Signed.ok_bind, newTable, if_neg (by omega), Int.toNat_natCast,
      Int.toNat_natCast]
    exact congrArg access hrun
  · have hle := hleast l r hlr' hr
    rwa [segment_take hright, segment_take hr] at hle

/-- Where the size as an `int` is not positive or too great, nothing is returned. -/
theorem size_of_ok {r : List Int} (hne : nums ≠ []) (h : subarraySumClosest nums = .ok r) :
    0 < int32 nums.length ∧ int32 nums.length < intMax := by
  rw [subarraySumClosest, List.isEmpty_eq_false_iff.2 hne, if_neg Bool.false_ne_true] at h
  dsimp only at h
  generalize int32 nums.length = n at h ⊢
  cases hadd : add n 1 with
  | error e =>
    rw [hadd] at h
    cases h
  | ok size =>
    obtain ⟨rfl, hle⟩ := Signed.add_eq_ok hadd
    refine ⟨?_, by omega⟩
    by_contra hneg
    rw [hadd, Signed.ok_bind, newTable] at h
    split at h
    · cases h
    · -- The table has no cell with index 1.
      obtain rfl | rfl : n = -1 ∨ n = 0 := by omega
      · have hrun : closestPair ⟨0, nums⟩ 0 ⟨0, []⟩ = .error .outOfBounds := rfl
        cases (congrArg access hrun).symm.trans h
      · have hrun : closestPair ⟨0, nums⟩ 0 ⟨0, [toLex (0, 0)]⟩ = .error .outOfBounds := rfl
        cases (congrArg access hrun).symm.trans h

/-- **The condition**: the size as an `int` is positive and can be added 1 to, and the numbers
within it have a closest sub-array. -/
theorem findsClosest_iff (hne : nums ≠ []) (hrange : InRange nums) : FindsClosest nums ↔
    0 < int32 nums.length ∧ int32 nums.length < intMax ∧
      ClosestWithin nums (int32 nums.length) := by
  constructor
  · rintro ⟨left, right, hrun, hlr, hright, hleast⟩
    obtain ⟨hpos, hmax⟩ := size_of_ok hne hrun
    obtain ⟨n, hn⟩ := Int.eq_ofNat_of_zero_le hpos.le
    rw [hn] at hpos hmax
    obtain ⟨left', right', hrun', -, hlt, -⟩ :=
      subarraySumClosest_ok hn (Int.natCast_pos.1 hpos) hmax hrange
    have hsame := Except.ok.inj (hrun.symm.trans hrun')
    obtain rfl : right = right' := by simpa using (List.cons.inj (List.cons.inj hsame).2).1
    rw [hn]
    exact ⟨hpos, hmax, fun l r hlr' hr => ⟨left, right, hlr, by omega, hleast l r hlr' hr⟩⟩
  · rintro ⟨hpos, hmax, hwithin⟩
    have hcast := int32_natCast_le nums.length
    obtain ⟨n, hn⟩ := Int.eq_ofNat_of_zero_le hpos.le
    rw [hn] at hpos hmax hwithin hcast
    obtain ⟨left, right, hrun, hlr, hlt, hleast⟩ :=
      subarraySumClosest_ok hn (Int.natCast_pos.1 hpos) hmax hrange
    refine ⟨left, right, hrun, hlr, by omega, fun l r hlr' hr => ?_⟩
    obtain ⟨l', r', hle, hlt', hclose⟩ := hwithin l r hlr' hr
    exact (hleast l' r' hle (by omega)).trans hclose

theorem findsClosest_iff_five : FindsClosest [-3, 1, 1, -3, 5] ↔
    0 < int32 ([-3, 1, 1, -3, 5] : List Int).length ∧
      int32 ([-3, 1, 1, -3, 5] : List Int).length < intMax ∧
        ClosestWithin [-3, 1, 1, -3, 5] (int32 ([-3, 1, 1, -3, 5] : List Int).length) :=
  findsClosest_iff (by decide) (by unfold InRange; decide)

/-- With `INT_MAX` zeros the size of the table overflows. -/
theorem not_findsClosest_zeros : ¬ FindsClosest (List.replicate (2 ^ 31 - 1) 0) := by
  rintro ⟨left, right, hrun, -⟩
  have hlt := (size_of_ok (fun h => absurd (congrArg List.length h) (by
    rw [List.length_replicate, List.length_nil]
    decide)) hrun).2
  rw [List.length_replicate] at hlt
  exact absurd hlt (by decide)

end

end SubarraySumClosest
