import DsAlgor.Class5.BinarySearch
import DsAlgor.Lib.CInt
import Mathlib.Data.List.GetD

/-!
# `matrix_search2.cpp`

`searchMatrix` looks for an element in the row-major reading of a matrix with the halving loop, and
takes the element of the flat index `mid` at row `mid % m` and column `mid % n`. The product `m * n`
has 32 bits. The numbers of rows and columns are taken for `int`s; where one is negative, there is
no last element. `searchMatrix_iff` says on which inputs the answer is right.
-/

namespace Class5

open Checked

/-- `matrix[i][j]` -/
def entry (matrix : List (List Int)) (i j : Int) : Except Fault Int := do
  let row ← Arr.get ⟨0, matrix⟩ i
  Arr.get ⟨0, row⟩ j

/-- `searchMatrix` behind `int m = matrix.size(), n = matrix[0].size()` -/
def searchSized (fuel : Nat) (matrix : List (List Int)) (target m n : Int) :
    Except Fault Bool := do
  if target < (← entry matrix 0 0) then return false
  else if target > (← entry matrix (m - 1) (n - 1)) then return false
  else do
    let upper := int32 (int32 (m * n) - 1)
    let found ← halving (fun mid => entry matrix (mid.tmod m) (mid.tmod n)) target fuel 0 upper
    return found.isSome

def searchMatrix (fuel : Nat) (matrix : List (List Int)) (target : Int) : Except Fault Bool := do
  let row ← Arr.get ⟨0, matrix⟩ 0
  searchSized fuel matrix target (int32 matrix.length) (int32 row.length)

/-- A matrix of `int`s with `m` rows and `n` columns, neither of them 0. -/
structure Matrix (m n : Nat) (matrix : List (List Int)) : Prop where
  rows : matrix.length = m
  columns : ∀ row ∈ matrix, row.length = n
  row_pos : 0 < m
  column_pos : 0 < n
  ints : ∀ x ∈ matrix.flatten, -2 ^ 31 ≤ x ∧ x < 2 ^ 31

/-- The element at row `i` and column `j`. -/
def element (matrix : List (List Int)) (i j : Nat) : Int := (matrix.getD i []).getD j 0

/-- The element the loop takes for the flat index `p`. -/
def looked (m n : Nat) (matrix : List (List Int)) (p : Nat) : Int := element matrix (p % m) (p % n)

/-- The number of elements the loop looks through. -/
def span (m n : Nat) : Nat := (int32 (int32 (m * n) - 1) + 1).toNat

section
variable {m n : Nat} {matrix : List (List Int)} {target : Int}

section
variable (h : Matrix m n matrix)
include h

theorem Matrix.row_length {i : Nat} (hi : i < m) : (matrix.getD i []).length = n := by
  have hlt : i < matrix.length := h.rows ▸ hi
  rw [List.getD_eq_getElem _ _ hlt]
  exact h.columns _ (List.getElem_mem hlt)

theorem Matrix.get_row {i : Nat} (hi : i < m) : Arr.get ⟨0, matrix⟩ i = .ok (matrix.getD i []) := by
  have hlt : i < matrix.length := h.rows ▸ hi
  refine get_nat ?_
  rw [List.getD_eq_getElem _ _ hlt, List.getElem?_eq_getElem hlt]

theorem Matrix.entry {i j : Nat} (hi : i < m) (hj : j < n) :
    Class5.entry matrix i j = .ok (element matrix i j) := by
  have hlt : j < (matrix.getD i []).length := (h.row_length hi).symm ▸ hj
  have hget : Arr.get ⟨0, matrix.getD i []⟩ j = .ok (element matrix i j) := by
    refine get_nat ?_
    rw [element, List.getD_eq_getElem _ _ hlt, List.getElem?_eq_getElem hlt]
  rw [Class5.entry, h.get_row hi]
  exact hget

theorem Matrix.looked (p : Nat) :
    Class5.entry matrix ((p : Int).tmod m) ((p : Int).tmod n) = .ok (looked m n matrix p) := by
  rw [← Int.ofNat_tmod, ← Int.ofNat_tmod]
  exact h.entry (Nat.mod_lt _ h.row_pos) (Nat.mod_lt _ h.column_pos)

/-- What the matrix holds. -/
theorem Matrix.mem_iff :
    target ∈ matrix.flatten ↔ ∃ i j, i < m ∧ j < n ∧ element matrix i j = target := by
  refine ⟨fun htarget => ?_, fun hij => ?_⟩
  · obtain ⟨row, hrow, htarget⟩ := List.mem_flatten.1 htarget
    obtain ⟨i, hi, rfl⟩ := List.getElem_of_mem hrow
    obtain ⟨j, hj, rfl⟩ := List.getElem_of_mem htarget
    refine ⟨i, j, h.rows ▸ hi, h.columns _ hrow ▸ hj, ?_⟩
    rw [element, List.getD_eq_getElem _ _ hi, List.getD_eq_getElem _ _ hj]
  · obtain ⟨i, j, hi, hj, rfl⟩ := hij
    have hlt : i < matrix.length := h.rows ▸ hi
    have hlt' : j < (matrix.getD i []).length := (h.row_length hi).symm ▸ hj
    refine List.mem_flatten.2 ⟨matrix.getD i [], ?_, ?_⟩
    · rw [List.getD_eq_getElem _ _ hlt]
      exact List.getElem_mem hlt
    · rw [element, List.getD_eq_getElem _ _ hlt']
      exact List.getElem_mem hlt'

/-- The elements are in row-major order. -/
theorem Matrix.order (hsorted : matrix.flatten.Pairwise (· < ·)) {i i' j j' : Nat} (hi : i < m)
    (hi' : i' < m) (hj : j < n) (hj' : j' < n) (hle : i < i' ∨ i = i' ∧ j ≤ j') :
    element matrix i j ≤ element matrix i' j' := by
  have hcol : j < (matrix.getD i []).length := (h.row_length hi).symm ▸ hj
  have hcol' : j' < (matrix.getD i' []).length := (h.row_length hi').symm ▸ hj'
  have hlt : i < matrix.length := h.rows ▸ hi
  have hlt' : i' < matrix.length := h.rows ▸ hi'
  obtain ⟨hrows, hacross⟩ := List.pairwise_flatten.1 hsorted
  rw [element, element, List.getD_eq_getElem _ _ hcol, List.getD_eq_getElem _ _ hcol']
  rcases hle with hlt_row | ⟨rfl, hle⟩
  · have hlt_all := List.pairwise_iff_getElem.1 hacross i i' hlt hlt' hlt_row
    refine (hlt_all _ ?_ _ ?_).le
    · rw [← List.getD_eq_getElem _ [] hlt]
      exact List.getElem_mem _
    · rw [← List.getD_eq_getElem _ [] hlt']
      exact List.getElem_mem _
  · have hmem : matrix.getD i [] ∈ matrix := by
      rw [List.getD_eq_getElem _ _ hlt]
      exact List.getElem_mem hlt
    rcases Nat.lt_or_eq_of_le hle with hlt_col | rfl
    · exact (List.pairwise_iff_getElem.1 (hrows _ hmem) j j' _ _ hlt_col).le
    · exact le_rfl

/-- There are no more different `int`s. -/
theorem Matrix.size_le (hsorted : matrix.flatten.Pairwise (· < ·)) : m ≤ 2 ^ 32 ∧ n ≤ 2 ^ 32 := by
  have hnodup : matrix.flatten.Nodup := hsorted.imp fun hlt => hlt.ne
  have hsub : matrix.flatten.toFinset ⊆ Finset.Ico (-2 ^ 31 : Int) (2 ^ 31) := fun x hx =>
    Finset.mem_Ico.2 (h.ints x (List.mem_toFinset.1 hx))
  have hcard := Finset.card_le_card hsub
  rw [List.toFinset_card_of_nodup hnodup, Int.card_Ico, List.length_flatten,
    List.map_congr_left h.columns, List.map_const', List.sum_replicate, smul_eq_mul,
    h.rows] at hcard
  have hbound : m * n ≤ 2 ^ 32 := hcard.trans (by decide)
  exact ⟨(Nat.le_mul_of_pos_right m h.column_pos).trans hbound,
    (Nat.le_mul_of_pos_left n h.row_pos).trans hbound⟩

end

/-- A size that is no `int` does not become a positive one. -/
theorem int32_size {k : Nat} (hk : 2 ^ 31 ≤ k) (hle : k ≤ 2 ^ 32) : int32 k ≤ 0 := by
  rw [int32, Int.bmod_def]
  split <;> omega

/-- What the search needs inside the range of the elements. -/
def FindsInside (m n : Nat) (matrix : List (List Int)) (target : Int) : Prop :=
  element matrix (m - 1) (n - 1) < target ∨
  (∃ j, Reached (span m n) j ∧ looked m n matrix (place (span m n) j) = target ∧
    ∀ i < j, target < looked m n matrix (place (span m n) i)) ∨
  target ∉ matrix.flatten ∧ (span m n = 0 ∨
    ∃ t, (span m n + 1) / 2 ^ t = 2 ∧ element matrix 0 0 < target ∧
      ∀ i < t, target < looked m n matrix (place (span m n) i))

/-- When the answer is right. -/
def MatrixMeets (m n : Nat) (matrix : List (List Int)) (target : Int) : Prop :=
  target < element matrix 0 0 ∨ m < 2 ^ 31 ∧ n < 2 ^ 31 ∧ FindsInside m n matrix target

variable (h : Matrix m n matrix)
include h

theorem searchMatrix_sized (fuel : Nat) :
    searchMatrix fuel matrix target = searchSized fuel matrix target (int32 m) (int32 n) := by
  have hrow := h.get_row h.row_pos
  rw [Nat.cast_zero] at hrow
  rw [searchMatrix, hrow, h.rows, ok_bind, h.row_length h.row_pos]

/-- The comparison with the first element. -/
theorem searchSized_below (hlow : target < element matrix 0 0) (fuel : Nat) (a b : Int) :
    searchSized fuel matrix target a b = .ok false := by
  have hfirst := h.entry h.row_pos h.column_pos
  rw [Nat.cast_zero] at hfirst
  rw [searchSized, hfirst, ok_bind, if_pos hlow]
  rfl

/-- There is no last element. -/
theorem searchSized_negative (hlow : ¬ target < element matrix 0 0) {a b : Int}
    (hneg : a ≤ 0 ∨ b ≤ 0) (fuel : Nat) (found : Bool) :
    searchSized fuel matrix target a b ≠ .ok found := by
  intro hrun
  have hfirst := h.entry h.row_pos h.column_pos
  rw [Nat.cast_zero] at hfirst
  rw [searchSized, hfirst, ok_bind, if_neg hlow] at hrun
  cases hlast : Class5.entry matrix (a - 1) (b - 1) with
  | error e =>
    rw [hlast] at hrun
    cases hrun
  | ok x =>
    rw [Class5.entry] at hlast
    cases hget : Arr.get ⟨0, matrix⟩ (a - 1) with
    | error e =>
      rw [hget] at hlast
      cases hlast
    | ok row =>
      rw [hget, ok_bind] at hlast
      rcases hneg with hneg | hneg
      · rw [Arr.get, if_pos (by dsimp only; omega)] at hget
        cases hget
      · rw [Arr.get, if_pos (by dsimp only; omega)] at hlast
        cases hlast

theorem searchSized_eq (fuel : Nat) : searchSized fuel matrix target m n =
    if target < element matrix 0 0 then .ok false
    else if target > element matrix (m - 1) (n - 1) then .ok false
    else do
      let found ← halving (fun mid => Class5.entry matrix (mid.tmod m) (mid.tmod n)) target fuel 0
        (int32 (int32 (m * n) - 1))
      return found.isSome := by
  have hm := h.row_pos
  have hn := h.column_pos
  have hfirst := h.entry hm hn
  have hlast := h.entry (Nat.sub_lt hm Nat.one_pos) (Nat.sub_lt hn Nat.one_pos)
  have hm' : ((m - 1 : Nat) : Int) = (m : Int) - 1 := by omega
  have hn' : ((n - 1 : Nat) : Int) = (n : Int) - 1 := by omega
  rw [hm', hn'] at hlast
  rw [Nat.cast_zero] at hfirst
  rw [searchSized, hfirst, ok_bind, hlast, ok_bind]
  rfl

theorem searchMatrix_eq (hm31 : m < 2 ^ 31) (hn31 : n < 2 ^ 31) (fuel : Nat) :
    searchMatrix fuel matrix target =
    if target < element matrix 0 0 then .ok false
    else if target > element matrix (m - 1) (n - 1) then .ok false
    else do
      let found ← halving (fun mid => Class5.entry matrix (mid.tmod m) (mid.tmod n)) target fuel 0
        (int32 (int32 (m * n) - 1))
      return found.isSome := by
  rw [searchMatrix_sized h, int32_natCast hm31, int32_natCast hn31, searchSized_eq h]

/-- Outside the range of the elements. -/
theorem searchMatrix_outside (hm31 : m < 2 ^ 31) (hn31 : n < 2 ^ 31)
    (hout : target < element matrix 0 0 ∨ element matrix (m - 1) (n - 1) < target) (fuel : Nat) :
    searchMatrix fuel matrix target = .ok false := by
  rw [searchMatrix_eq h hm31 hn31]
  by_cases hlow : target < element matrix 0 0
  · rw [if_pos hlow]
  · rw [if_neg hlow, if_pos (hout.resolve_left hlow)]

/-- Inside, the answer is whether the loop finds the target. -/
theorem searchMatrix_inside (hm31 : m < 2 ^ 31) (hn31 : n < 2 ^ 31)
    (hlow : element matrix 0 0 ≤ target) (hhigh : target ≤ element matrix (m - 1) (n - 1))
    {b : Bool} : Ends (fun fuel => searchMatrix fuel matrix target) b ↔
      ∃ r, Outcome (looked m n matrix) target (span m n) r ∧ b = r.isSome := by
  simp only [searchMatrix_eq h hm31 hn31, if_neg (not_lt.2 hlow), if_neg (not_lt.2 hhigh)]
  have hsplit := Ends.bind_iff (b := b) (halving_steady
    (fun mid => Class5.entry matrix (mid.tmod m) (mid.tmod n)) target 0
    (int32 (int32 (m * n) - 1))) (k := fun _ r => Except.ok r.isSome) fun r => Steady.const _
  refine hsplit.trans (exists_congr fun r => and_congr ?_ (Ends.const_iff.trans ?_))
  · exact halving_upto_iff fun k _ => h.looked k
  · exact ⟨fun heq => (Except.ok.inj heq).symm, fun heq => heq ▸ rfl⟩

theorem finds_iff (hsorted : matrix.flatten.Pairwise (· < ·)) (hm31 : m < 2 ^ 31)
    (hn31 : n < 2 ^ 31) (hfirst : element matrix 0 0 ≤ target) :
    (∃ b, Ends (fun fuel => searchMatrix fuel matrix target) b ∧
      (b = true ↔ target ∈ matrix.flatten)) ↔ FindsInside m n matrix target := by
  have hm := h.row_pos
  have hn := h.column_pos
  by_cases hout : element matrix (m - 1) (n - 1) < target
  · refine iff_of_true ⟨false, ⟨0, fun fuel _ =>
      searchMatrix_outside h hm31 hn31 (.inr hout) fuel⟩,
      iff_of_false Bool.false_ne_true fun hmem => ?_⟩ (.inl hout)
    obtain ⟨i, j, hi, hj, rfl⟩ := h.mem_iff.1 hmem
    have hlast := h.order hsorted hi (Nat.sub_lt hm Nat.one_pos) hj (Nat.sub_lt hn Nat.one_pos)
      (by omega)
    omega
  · have hhigh := not_lt.1 hout
    have hinside := fun b => searchMatrix_inside h hm31 hn31 hfirst hhigh (b := b)
    have hzero : looked m n matrix 0 = element matrix 0 0 := by
      rw [looked, Nat.zero_mod, Nat.zero_mod]
    refine ⟨fun hb => ?_, fun hmeets => ?_⟩
    · obtain ⟨b, hends, hb⟩ := hb
      obtain ⟨r, houtcome, rfl⟩ := (hinside b).1 hends
      rcases houtcome with ⟨j, hj, _, hval, hbefore⟩ | ⟨rfl, hall | ⟨t, ht, hfirst, hbefore⟩⟩
      · exact .inr (.inl ⟨j, hj, hval, hbefore⟩)
      · refine .inr (.inr ⟨fun hmem => Bool.false_ne_true (hb.2 hmem), .inl ?_⟩)
        by_contra hspan
        obtain ⟨j, hj, hplace⟩ := exists_place_zero (Nat.pos_of_ne_zero hspan)
        have hlt := hall j hj
        rw [hplace, hzero] at hlt
        omega
      · exact .inr (.inr ⟨fun hmem => Bool.false_ne_true (hb.2 hmem),
          .inr ⟨t, ht, hzero ▸ hfirst, hbefore⟩⟩)
    · rcases hmeets with hgt | ⟨j, hj, hval, hbefore⟩ | ⟨hmem, hnone⟩
      · exact absurd hgt hout
      · refine ⟨true, (hinside true).2
          ⟨_, .inl ⟨j, hj, rfl, hval, hbefore⟩, rfl⟩, iff_of_true rfl ?_⟩
        exact h.mem_iff.2 ⟨_, _, Nat.mod_lt _ hm, Nat.mod_lt _ hn, hval⟩
      · refine ⟨false, (hinside false).2 ⟨none, ?_, rfl⟩,
          iff_of_false Bool.false_ne_true hmem⟩
        rcases hnone with hspan | ⟨t, ht, hfirst, hbefore⟩
        · rw [hspan]
          exact outcome_zero.2 rfl
        · exact .inr ⟨rfl, .inr ⟨t, ht, hzero.symm ▸ hfirst, hbefore⟩⟩

end

/-- `searchMatrix` returns whether the target is in the matrix exactly on the inputs that
`MatrixMeets` describes. -/
theorem searchMatrix_iff (m n : Nat) (matrix : List (List Int)) (target : Int)
    (h : Matrix m n matrix) (hsorted : matrix.flatten.Pairwise (· < ·)) :
    (∃ b, Ends (fun fuel => searchMatrix fuel matrix target) b ∧
      (b = true ↔ target ∈ matrix.flatten)) ↔ MatrixMeets m n matrix target := by
  by_cases hlow : target < element matrix 0 0
  · refine iff_of_true ⟨false, ⟨0, fun fuel _ => ?_⟩,
      iff_of_false Bool.false_ne_true fun hmem => ?_⟩ (.inl hlow)
    · dsimp only
      rw [searchMatrix_sized h, searchSized_below h hlow]
    · obtain ⟨i, j, hi, hj, rfl⟩ := h.mem_iff.1 hmem
      have hfirst := h.order hsorted h.row_pos hi h.column_pos hj (by omega)
      omega
  · rw [MatrixMeets, or_iff_right hlow]
    by_cases hsize : m < 2 ^ 31 ∧ n < 2 ^ 31
    · rw [and_iff_right hsize.1, and_iff_right hsize.2]
      exact finds_iff h hsorted hsize.1 hsize.2 (not_lt.1 hlow)
    · refine iff_of_false ?_ fun hmeets => hsize ⟨hmeets.1, hmeets.2.1⟩
      rintro ⟨b, ⟨k, hrun⟩, -⟩
      obtain ⟨hm, hn⟩ := h.size_le hsorted
      have hlong : int32 m ≤ 0 ∨ int32 n ≤ 0 := by
        by_cases hm31 : m < 2 ^ 31
        · exact .inr (int32_size (not_lt.1 fun hn31 => hsize ⟨hm31, hn31⟩) hn)
        · exact .inl (int32_size (not_lt.1 hm31) hm)
      have hstop := hrun k le_rfl
      dsimp only at hstop
      rw [searchMatrix_sized h] at hstop
      exact searchSized_negative h hlow hlong k b hstop

theorem searchMatrix_iff_square :
    (∃ b, Ends (fun fuel => searchMatrix fuel [[1, 3], [5, 7]] 1) b ∧
      (b = true ↔ (1 : Int) ∈ [[1, 3], [5, 7]].flatten)) ↔ MatrixMeets 2 2 [[1, 3], [5, 7]] 1 :=
  searchMatrix_iff 2 2 [[1, 3], [5, 7]] 1 ⟨rfl, by decide, by decide, by decide, by decide⟩
    (by decide)

/-- The last element of a row of two is not found. -/
theorem searchMatrix_row : ¬ ∃ b, Ends (fun fuel => searchMatrix fuel [[1, 3]] 3) b ∧
    (b = true ↔ (3 : Int) ∈ [[1, 3]].flatten) := by
  intro h
  obtain ⟨b, hends, _⟩ := h
  obtain ⟨r, houtcome, _⟩ := (searchMatrix_inside (m := 1) (n := 2)
    ⟨rfl, by decide, by decide, by decide, by decide⟩ (by decide) (by decide) (by decide)
    (by decide)).1 hends
  have hspan : span 1 2 = 2 := by decide
  rw [hspan, outcome_below (by decide) (by decide)] at houtcome
  exact absurd houtcome.1 (by decide)

end Class5
