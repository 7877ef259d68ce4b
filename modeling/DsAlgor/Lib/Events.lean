import Mathlib.Data.List.Basic

/-!
# Systems of events

A system takes events one at a time: `step s e` is the state after the event, or `none` when the
event cannot happen in `s`. An invariant that each allowed event keeps holds in every state that is
reached.
-/

namespace Events

section
variable {σ ε : Type*} {step : σ → ε → Option σ} {s s' : σ} {e : ε} {es : List ε}

def run (step : σ → ε → Option σ) (s : σ) (es : List ε) : Option σ := es.foldlM step s

theorem run_cons : run step s (e :: es) = some s' ↔ ∃ s₁, step s e = some s₁ ∧
    run step s₁ es = some s' := by
  unfold run
  rw [List.foldlM_cons]
  exact Option.bind_eq_some_iff

/-- The rule of invariants. -/
theorem run_inv {I : σ → Prop} (ok : ε → Prop)
    (hstep : ∀ s e s', I s → ok e → step s e = some s' → I s') (h : I s) (hok : ∀ e ∈ es, ok e)
    (hrun : run step s es = some s') : I s' := by
  induction es generalizing s with
  | nil =>
    cases hrun
    exact h
  | cons e es ih =>
    obtain ⟨s₁, h₁, hrun⟩ := run_cons.1 hrun
    have hs₁ : I s₁ := hstep s e s₁ h (hok e List.mem_cons_self) h₁
    exact ih hs₁ (fun e' he' => hok e' (List.mem_cons_of_mem e he')) hrun

end

end Events
