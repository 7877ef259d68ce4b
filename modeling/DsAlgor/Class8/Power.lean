import DsAlgor.Lib.CInt
import DsAlgor.Lib.Checked
import Mathlib.Algebra.Order.Field.Rat
import Mathlib.Data.Int.Bitwise
import Mathlib.Data.Nat.Size

/-!
# Exponentiation by squaring

`power` over the rational numbers. In the test of the parity, `y&1 == 0`, the comparison binds
tighter than `&`, so that the test never holds and every exponent is taken for an odd one: where
`|y|` has `l` binary digits, the result is the power with exponent `2 ^ l - 1` (`power_ends`).
-/

namespace Power

open Checked

/-- `y&1 == 0` -/
def parityTest (y : Int) : Int := Int.land y (if (1 : Int) = 0 then 1 else 0)

def power (x : ℚ) : Nat → Int → Except Fault ℚ
  | 0, _ => .error .loop
  | fuel + 1, y =>
    if y < 0 then do
      let r ← power x fuel (int32 (-y))
      return 1 / r
    else if y = 0 then return 1
    else do
      let temp ← power x fuel (y >>> (1 : Nat))
      if parityTest y ≠ 0 then return temp * temp
      else return if y > 0 then temp * temp * x else temp * temp / x

/-- The recursion ends with the power. -/
def Powers (x : ℚ) (y : Int) : Prop := Ends (power x · y) (x ^ y)

/-! ## The result -/

section
variable {x : ℚ} {y : Int} {n fuel : Nat}

theorem parityTest_eq_zero (y : Int) : parityTest y = 0 := by
  have hcmp : ¬(1 : Int) = 0 := by decide
  rw [parityTest, if_neg hcmp]
  cases y with
  | ofNat n => simp [Int.land]
  | negSucc n => simp [Int.land, Nat.ldiff]

theorem size_half (hn : 0 < n) : (n / 2).size + 1 = n.size := by
  have hbit : Nat.bit n.bodd n.div2 ≠ 0 := by
    rw [Nat.bit_bodd_div2]
    omega
  have hsize := Nat.size_bit hbit
  rw [Nat.bit_bodd_div2, Nat.div2_val] at hsize
  exact hsize.symm

theorem power_natCast (hfuel : n.size < fuel) :
    power x fuel (n : Int) = .ok (x ^ (2 ^ n.size - 1)) := by
  induction fuel generalizing n with
  | zero => omega
  | succ fuel ih =>
    rw [power, if_neg (by omega)]
    by_cases hn : n = 0
    · subst hn
      simp [pure, Except.pure]
    · have hsize := size_half (Nat.pos_of_ne_zero hn)
      have hhalf : (n : Int) >>> (1 : Nat) = (n / 2 : Nat) := by
        rw [Int.shiftRight_eq_div_pow]
        simp
      have hexp : (2 ^ (n / 2).size - 1) + (2 ^ (n / 2).size - 1) + 1 = 2 ^ n.size - 1 := by
        have hpos := Nat.one_le_two_pow (n := (n / 2).size)
        rw [← hsize, pow_succ]
        omega
      rw [if_neg (by omega), hhalf, ih (by omega), ok_bind, parityTest_eq_zero,
        if_neg (not_not.2 rfl), if_pos (by omega), ← hexp, pow_succ, pow_add]
      rfl

theorem power_ends (hmin : -2 ^ 31 < y) (hmax : y < 2 ^ 31) :
    Ends (power x · y) (x ^ (y.sign * (2 ^ y.natAbs.size - 1 : Nat))) := by
  refine Ends.succ ⟨y.natAbs.size + 1, fun fuel hfuel => ?_⟩
  rcases lt_trichotomy y 0 with hneg | rfl | hpos
  · have habs : int32 (-y) = (y.natAbs : Int) := by
      have hnat := int32_natCast (n := y.natAbs) (by omega)
      rwa [Int.ofNat_natAbs_of_nonpos hneg.le] at hnat ⊢
    dsimp only
    rw [power, if_pos hneg, habs, power_natCast (by omega), ok_bind,
      Int.sign_eq_neg_one_of_neg hneg, neg_one_mul, zpow_neg, zpow_natCast, one_div]
    rfl
  · simp [power, pure, Except.pure]
  · have hrun : power x (fuel + 1) (y.natAbs : Int) = _ := power_natCast (x := x) (by omega)
    rw [Int.natAbs_of_nonneg hpos.le] at hrun
    rw [Int.sign_eq_one_of_pos hpos, one_mul, zpow_natCast]
    exact hrun

/-! ## Which exponents come out right -/

/-- The binary digits of an exponent are all 1. -/
theorem ones_iff : 2 ^ n.size - 1 = n ↔ ∃ k, n + 1 = 2 ^ k := by
  refine ⟨fun h => ⟨n.size, ?_⟩, ?_⟩
  · have hpos := Nat.one_le_two_pow (n := n.size)
    omega
  · rintro ⟨k, hk⟩
    have hsize : n.size = k := by
      refine le_antisymm (Nat.size_le.2 (by omega)) ?_
      cases k with
      | zero => exact Nat.zero_le _
      | succ k =>
        have hpos := Nat.one_le_two_pow (n := k)
        rw [pow_succ] at hk
        exact Nat.lt_size.2 (by omega)
    rw [hsize]
    omega

theorem abs_zpow_inj {m k : Int} (hx : x ≠ 0) (hone : |x| ≠ 1) (h : x ^ m = x ^ k) : m = k := by
  have habs := congrArg abs h
  rw [abs_zpow, abs_zpow] at habs
  exact (zpow_right_inj₀ (abs_pos.2 hx) hone).1 habs

theorem ones_odd (hy : y ≠ 0) : Odd (y.sign * (2 ^ y.natAbs.size - 1 : Nat)) := by
  obtain ⟨k, hk⟩ := Nat.exists_eq_succ_of_ne_zero
    (Nat.size_pos.2 (Int.natAbs_pos.2 hy)).ne'
  have hpos := Nat.one_le_two_pow (n := k)
  have hones : Odd ((2 ^ y.natAbs.size - 1 : Nat) : Int) := by
    refine ⟨((2 ^ k - 1 : Nat) : Int), ?_⟩
    rw [hk, pow_succ]
    omega
  refine Odd.mul ?_ hones
  rcases lt_or_gt_of_ne hy with hneg | hpos
  · rw [Int.sign_eq_neg_one_of_neg hneg]
    decide
  · rw [Int.sign_eq_one_of_pos hpos]
    decide

/-- Where the exponent that is taken is `y` itself. -/
theorem exponent_iff : y.sign * (2 ^ y.natAbs.size - 1 : Nat) = y ↔
    2 ^ y.natAbs.size - 1 = y.natAbs := by
  constructor
  · intro h
    by_cases hy : y = 0
    · subst hy
      rfl
    · have habs := congrArg Int.natAbs h
      rwa [Int.natAbs_mul, Int.natAbs_sign_of_ne_zero hy, one_mul, Int.natAbs_natCast] at habs
  · intro h
    rw [h, Int.sign_mul_natAbs]

theorem powers_iff (hx : x ≠ 0) (hmin : -2 ^ 31 < y) (hmax : y < 2 ^ 31) :
    Powers x y ↔ x = 1 ∨ x = -1 ∧ Odd y ∨ ∃ k, y.natAbs + 1 = 2 ^ k := by
  have hends := power_ends (x := x) hmin hmax
  have hval : Powers x y ↔ x ^ (y.sign * (2 ^ y.natAbs.size - 1 : Nat)) = x ^ y :=
    ⟨fun h => hends.unique h, fun h => by rw [Powers, ← h]; exact hends⟩
  rw [hval, ← ones_iff]
  constructor
  · intro h
    by_cases hone : |x| = 1
    · rcases eq_or_eq_neg_of_abs_eq hone with rfl | rfl
      · exact .inl rfl
      · by_cases hy : y = 0
        · subst hy
          exact .inr (.inr (by simp))
        · rw [(ones_odd hy).neg_one_zpow] at h
          refine .inr (.inl ⟨rfl, Int.not_even_iff_odd.1 fun heven => ?_⟩)
          rw [heven.neg_one_zpow] at h
          norm_num at h
    · exact .inr (.inr (exponent_iff.1 (abs_zpow_inj hx hone h)))
  · rintro (rfl | ⟨rfl, hy⟩ | h)
    · rw [one_zpow, one_zpow]
    · have hne : y ≠ 0 := fun h0 => by simp [h0] at hy
      rw [(ones_odd hne).neg_one_zpow, hy.neg_one_zpow]
    · rw [exponent_iff.2 h]

theorem powers_iff_three : Powers 2 3 ↔ (2 : ℚ) = 1 ∨ (2 : ℚ) = -1 ∧ Odd (3 : Int) ∨
    ∃ k, (3 : Int).natAbs + 1 = 2 ^ k :=
  powers_iff (by norm_num) (by norm_num) (by norm_num)

/-- `power(2, 2)` is 8. -/
theorem not_powers_two : ¬Powers 2 2 := by
  intro h
  have hends := power_ends (x := 2) (y := 2) (by norm_num) (by norm_num)
  have hexp : (2 : Int).sign * (2 ^ (2 : Int).natAbs.size - 1 : Nat) = 3 := by decide +kernel
  have hval := hends.unique h
  rw [hexp] at hval
  norm_num at hval

end

end Power
