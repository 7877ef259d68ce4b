import Mathlib.Tactic

/-!
# Machine integers

Arithmetic on `int` has 32 bits and wraps around, on `long` it has 64.
-/

/-- The value that 32 bits hold of `n`. -/
def int32 (n : Int) : Int := n.bmod (2 ^ 32)

theorem int32_natCast {n : Nat} (h : n < 2 ^ 31) : int32 n = n := by
  unfold int32
  rw [Int.bmod_eq_of_le] <;> omega

theorem le_int32 (n : Int) : -2 ^ 31 ≤ int32 n := Int.le_bmod (by decide)

theorem int32_lt (n : Int) : int32 n < 2 ^ 31 := Int.bmod_lt (by decide)

theorem int32_eq_self {n : Int} (hlo : -2 ^ 31 ≤ n) (hhi : n < 2 ^ 31) : int32 n = n :=
  Int.bmod_eq_of_le hlo hhi

/-- A number is kept exactly when 31 bits are enough for it. -/
theorem int32_natCast_iff {n : Nat} : int32 n = n ↔ n < 2 ^ 31 := by
  refine ⟨fun h => ?_, int32_natCast⟩
  have hlt := int32_lt n
  omega

theorem int32_natCast_le (n : Nat) : int32 n ≤ n := by
  rw [int32, Int.bmod_def]
  split <;> omega

@[simp] theorem int32_int32 (n : Int) : int32 (int32 n) = int32 n := Int.bmod_bmod

theorem int32_add (m n : Int) : int32 (int32 m + n) = int32 (m + n) := Int.bmod_add_bmod

theorem int32_sub (m n : Int) : int32 (int32 m - n) = int32 (m - n) := Int.bmod_sub_bmod

/-- The value that 64 bits hold of `n`. -/
def int64 (n : Int) : Int := n.bmod (2 ^ 64)

/-- The division of C rounds towards 0. -/
theorem tdiv_of_nonpos {n : Int} (h : n ≤ 0) (d : Int) : n.tdiv d = -((-n) / d) := by
  rw [← Int.tdiv_eq_ediv_of_nonneg (by omega), Int.neg_tdiv, Int.neg_neg]
