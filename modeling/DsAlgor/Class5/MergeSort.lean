import DsAlgor.MergeSort.Merge

/-!
# `mergeSort.c`

The merge sort of the class. Its midpoint is rounded up, so the left part of a segment of two
elements is the segment itself and the recursion does not come to an end (`mergeSort_loops`).
-/

namespace Class5

open Checked MergeSort

/-- `while( helperLeft <= mid && helperRight <= right )`: the array, `helperLeft` and `curr`. -/
def mergeHalves (helper : Arr (Option Int)) (mid right : Int) :
    Nat → Arr Int → Int → Int → Int → Except Fault (Arr Int × Int × Int)
  | 0, _, _, _, _ => .error .loop
  | fuel + 1, array, helperLeft, helperRight, curr =>
    if helperLeft ≤ mid ∧ helperRight ≤ right then do
      let x ← helper.read helperLeft
      let y ← helper.read helperRight
      if x ≤ y then
        mergeHalves helper mid right fuel (← array.set curr x) (helperLeft + 1) helperRight
          (curr + 1)
      else
        mergeHalves helper mid right fuel (← array.set curr y) helperLeft (helperRight + 1)
          (curr + 1)
    else return (array, helperLeft, curr)

/-- What is left of the right part is in its place. -/
def mergeSort : Nat → Arr Int → Arr (Option Int) → Int → Int →
    Except Fault (Arr Int × Arr (Option Int))
  | 0, _, _, _, _ => .error .loop
  | fuel + 1, array, helper, left, right =>
    if left ≥ right then return (array, helper)
    else do
      let mid := right - (right - left).tdiv 2
      let (array, helper) ← mergeSort fuel array helper left mid
      let (array, helper) ← mergeSort fuel array helper (mid + 1) right
      let helper ← copyLoop array right fuel helper left
      let (array, helperLeft, curr) ← mergeHalves helper mid right fuel array left (mid + 1) left
      let (array, _) ← restLoop helper mid fuel array helperLeft curr
      return (array, helper)

/-- The left part of two elements or more has two elements or more. -/
theorem mergeSort_loops {array : Arr Int} {helper : Arr (Option Int)} {left right : Int}
    (hlt : left < right) (fuel : Nat) : mergeSort fuel array helper left right = .error .loop := by
  induction fuel generalizing right with
  | zero => rfl
  | succ fuel ih =>
    have hmid : left < right - (right - left).tdiv 2 := by
      rw [Int.tdiv_eq_ediv_of_nonneg (by omega)]
      omega
    simp only [mergeSort, if_neg (not_le.2 hlt), ih hmid]
    rfl

/-- Only a segment of one element or none is sorted; on every other one the recursion does not
return. -/
theorem mergeSort_returns_iff (A s B : List Int) (helper : Arr (Option Int)) :
    ((∃ s' helper', s'.Perm s ∧ s'.Pairwise (· ≤ ·) ∧
      Ends (fun fuel =>
          mergeSort fuel ⟨0, A ++ (s ++ B)⟩ helper A.length (A.length + s.length - 1))
        (⟨0, A ++ (s' ++ B)⟩, helper')) ↔ s.length ≤ 1) ∧
    (1 < s.length → ∀ fuel,
      mergeSort fuel ⟨0, A ++ (s ++ B)⟩ helper A.length (A.length + s.length - 1) =
        .error .loop) := by
  have hloops : 1 < s.length → ∀ fuel,
      mergeSort fuel ⟨0, A ++ (s ++ B)⟩ helper A.length (A.length + s.length - 1) =
        .error .loop := fun hlen => mergeSort_loops (by omega)
  refine ⟨⟨fun h => ?_, fun hlen => ?_⟩, hloops⟩
  · obtain ⟨s', helper', _, _, hends⟩ := h
    obtain ⟨n, hn, _⟩ := hends.exists
    by_contra hlen
    rw [hloops (by omega)] at hn
    cases hn
  · have hsorted : s.Pairwise (· ≤ ·) := by
      cases s with
      | nil => exact List.Pairwise.nil
      | cons x s =>
        obtain rfl := List.length_eq_zero_iff.1 (Nat.le_zero.1 (Nat.le_of_succ_le_succ hlen))
        exact List.pairwise_singleton _ _
    refine ⟨s, helper, List.Perm.refl s, hsorted, ?_⟩
    have hstop : (A.length : Int) ≥ A.length + s.length - 1 := by omega
    apply Ends.succ
    simp only [mergeSort, if_pos hstop]
    exact Ends.pure _

/-- Two elements are not sorted. -/
theorem mergeSort_pair : ¬ ∃ s' helper', s'.Perm [2, 1] ∧ s'.Pairwise (· ≤ ·) ∧
    Ends (fun fuel => mergeSort fuel ⟨0, [2, 1]⟩ ⟨0, [none, none]⟩ 0 1) (⟨0, s'⟩, helper') := by
  intro h
  obtain ⟨s', helper', _, _, hends⟩ := h
  obtain ⟨n, hn, _⟩ := hends.exists
  rw [mergeSort_loops (by decide)] at hn
  cases hn

end Class5
