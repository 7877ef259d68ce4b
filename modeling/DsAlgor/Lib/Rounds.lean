import Mathlib.Data.List.Basic
import Mathlib.Tactic

/-!
# Loops with independent rounds

A loop `for (i = 0; i < n; i++)` on a state that falls into parts, where round `i` works on part
`i`: `agree i s s'` says that part `i` is the same in `s` and `s'`.
-/

variable {σ : Type*} {agree : Nat → σ → σ → Prop} {step : σ → Nat → σ} {P : Nat → σ → Prop}

/-- If round `i` establishes `P i` from the original part `i`, all rounds together establish all of
them. -/
theorem foldl_rounds (hrefl : ∀ i s, agree i s s) (htrans : ∀ i s s' s'', agree i s s' →
    agree i s' s'' → agree i s s'') (hP : ∀ i s s', agree i s s' → P i s → P i s') {s₀ :
      σ} : ∀ {n : Nat},
    (∀ i < n, ∀ s, agree i s₀ s → P i (step s i) ∧ ∀ k ≠ i, agree k s (step s i)) →
    (∀ i < n, P i ((List.range n).foldl step s₀)) ∧
      ∀ i ≥ n, agree i s₀ ((List.range n).foldl step s₀)
  | 0, _ => ⟨by simp, fun i _ => hrefl i s₀⟩
  | n + 1, h => by
    obtain ⟨ih₁, ih₂⟩ := foldl_rounds hrefl htrans hP (n := n) fun i hi => h i (by omega)
    obtain ⟨h₁, h₂⟩ := h n (by omega) _ (ih₂ n le_rfl)
    rw [List.range_succ, List.foldl_append]
    refine ⟨fun i hi => ?_, fun i hi => ?_⟩
    · rcases Nat.lt_or_eq_of_le (Nat.le_of_lt_succ hi) with hin | rfl
      · exact hP i _ _ (h₂ i (by omega)) (ih₁ i hin)
      · exact h₁
    · exact htrans i _ _ _ (ih₂ i (by omega)) (h₂ i (by omega))
