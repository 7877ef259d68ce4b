import Mathlib.Algebra.Order.Sub.Basic
import Mathlib.Data.Multiset.AddSub
import Mathlib.Data.Multiset.Count
import Mathlib.Tactic

/-!
# Majority by cancellation

Elements of a list are put into a bag, and `k` different ones at a time are taken out of it. What
occurs more often than the `k`-th part of the list is never taken out to the last one
(`Tally.mem`).
-/

namespace Majority

variable {α : Type*} [DecidableEq α] {k : Nat} {nums : List α} {bag cancelled : Multiset α}
  {x v : α}

/-- `v` occurs more than `n / k` times among the `n` elements. -/
def Frequent (k : Nat) (nums : List α) (v : α) : Prop := nums.length < k * nums.count v

instance : Decidable (Frequent k nums v) := Nat.decLt _ _

/-- The bag holds what the cancellations, `k` different elements each, have left of the list. -/
def Tally (k : Nat) (nums : List α) (bag : Multiset α) : Prop :=
  ∃ rounds, k * rounds + bag.card = nums.length ∧ ∀ v, nums.count v ≤ bag.count v + rounds

namespace Tally

theorem empty : Tally k ([] : List α) 0 := ⟨0, rfl, fun _ => Nat.zero_le _⟩

theorem add (h : Tally k nums bag) (x : α) : Tally k (nums ++ [x]) (x ::ₘ bag) := by
  obtain ⟨rounds, hcard, hcount⟩ := h
  refine ⟨rounds, ?_, fun v => ?_⟩
  · rw [Multiset.card_cons, List.length_append, List.length_singleton]
    omega
  · have hv := hcount v
    rw [List.count_append, Multiset.count_cons, List.count_singleton]
    by_cases hvx : v = x
    · simp only [hvx, BEq.rfl, if_true] at hv ⊢
      omega
    · have hxv : ¬(x == v) = true := fun heq => hvx (beq_iff_eq.1 heq).symm
      rw [if_neg hxv, if_neg hvx]
      omega

/-- A round of cancellation. -/
theorem cancel (h : Tally k nums bag) (hsub : cancelled ≤ bag) (hnodup : cancelled.Nodup)
    (hk : cancelled.card = k) : Tally k nums (bag - cancelled) := by
  obtain ⟨rounds, hcard, hcount⟩ := h
  refine ⟨rounds + 1, ?_, fun v => ?_⟩
  · have hle := Multiset.card_le_card hsub
    rw [Multiset.card_sub hsub, hk, Nat.mul_succ]
    omega
  · have hone := Multiset.nodup_iff_count_le_one.1 hnodup v
    have hv := hcount v
    rw [Multiset.count_sub]
    omega

/-- A frequent element is still there. -/
theorem mem (h : Tally k nums bag) (hv : Frequent k nums v) : v ∈ bag := by
  obtain ⟨rounds, hcard, hcount⟩ := h
  by_contra hmem
  have hle := hcount v
  rw [Multiset.count_eq_zero_of_notMem hmem, Nat.zero_add] at hle
  have hmul := Nat.mul_le_mul_left k hle
  unfold Frequent at hv
  omega

end Tally

/-- What occurs at least as often as a frequent element is frequent. -/
theorem Frequent.of_le {w : α} (hv : Frequent k nums v) (hle : nums.count v ≤ nums.count w) :
    Frequent k nums w :=
  Nat.lt_of_lt_of_le hv (Nat.mul_le_mul_left k hle)

end Majority
