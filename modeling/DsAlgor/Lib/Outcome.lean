import Mathlib.Tactic

/-!
# Outcomes of fallible computations

`Outcome r P E`: the value that `r` returns satisfies `P`, and the error that it ends with satisfies
`E`. `OnOk r P` leaves the error open, `Returns r P` excludes one.
-/

section
variable {ε α β : Type} {r : Except ε α} {f : α → Except ε β} {P P' : α → Prop} {Q : β → Prop}
  {E E' : ε → Prop}

def Outcome (r : Except ε α) (P : α → Prop) (E : ε → Prop) : Prop :=
  match r with
  | .ok a => P a
  | .error e => E e

instance (r : Except ε α) (P : α → Prop) (E : ε → Prop) [DecidablePred P] [DecidablePred E] :
    Decidable (Outcome r P E) :=
  match r with
  | .ok a => inferInstanceAs (Decidable (P a))
  | .error e => inferInstanceAs (Decidable (E e))

theorem Outcome.bind (h : Outcome r P E) (hf : ∀ a, P a → Outcome (f a) Q E) :
    Outcome (r >>= f) Q E := by
  cases r with
  | ok a => exact hf a h
  | error e => exact h

theorem Outcome.mono (h : Outcome r P E) (hP : ∀ a, P a → P' a) (hE : ∀ e, E e → E' e) :
    Outcome r P' E' := by
  cases r with
  | ok a => exact hP a h
  | error e => exact hE e h

theorem Outcome.map {g : α → β} (h : Outcome r (fun a => Q (g a)) E) : Outcome (r.map g) Q E := by
  cases r with
  | ok a => exact h
  | error e => exact h

/-- What comes behind a computation that has returned. -/
theorem Outcome.ok_bind (a : α) (f : α → Except ε β) : (Except.ok a >>= f) = f a := rfl

/-- A sequence that has returned went through its first part. -/
theorem Outcome.bind_eq_ok {b : β} (h : (r >>= f) = .ok b) : ∃ a, r = .ok a ∧ f a = .ok b := by
  cases r with
  | ok a => exact ⟨a, rfl, h⟩
  | error e => cases h

/-- What returns is as it should be. -/
abbrev OnOk (r : Except ε α) (P : α → Prop) : Prop := Outcome r P fun _ => True

theorem OnOk.intro (h : ∀ a, r = .ok a → P a) : OnOk r P := by
  cases r with
  | ok a => exact h a rfl
  | error e => trivial

/-- There is no error. -/
abbrev Returns (r : Except ε α) (P : α → Prop) : Prop := Outcome r P fun _ => False

theorem Returns.eq_ok (h : Returns r P) : ∃ a, r = .ok a ∧ P a := by
  cases r with
  | ok a => exact ⟨a, rfl, h⟩
  | error e => exact h.elim

theorem Returns.outcome (h : Returns r P) : Outcome r P E :=
  Outcome.mono h (fun _ => id) fun _ => False.elim

end
