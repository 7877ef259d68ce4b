import Mathlib.Tactic

/-!
# Bracket languages

`pair l r` says that the bracket `l` is closed by `r`. `Balanced pair` is the language of
`S -> empty | l S r S`. `scan` reads a word with the stack of its open brackets, and accepts exactly
the balanced words (`scan_iff`): what is left to read must close the stack (`Closes`).
-/

namespace Brackets

variable {α : Type}

inductive Balanced (pair : α → α → Prop) : List α → Prop
  | nil : Balanced pair []
  | wrap {l r : α} {s t : List α} (h : pair l r) (hs : Balanced pair s) (ht : Balanced pair t) :
      Balanced pair (l :: (s ++ r :: t))

/-- Read a word with a stack of open brackets. -/
def scan (left : α → Bool) (fits : α → α → Bool) : List α → List α → Bool
  | stack, [] => stack.isEmpty
  | stack, c :: s =>
    if left c then scan left fits (c :: stack) s
    else
      match stack with
      | [] => false
      | top :: stack => if fits top c then scan left fits stack s else false

/-- The pairs that `scan` accepts. -/
def Fits (left : α → Bool) (fits : α → α → Bool) (l r : α) : Prop :=
  left l = true ∧ left r = false ∧ fits l r = true

/-- `s` closes the open brackets of `stack`, the last one first. -/
def Closes (pair : α → α → Prop) : List α → List α → Prop
  | [], s => Balanced pair s
  | l :: stack, s => ∃ (t : List α) (r : α) (u : List α),
      s = t ++ r :: u ∧ Balanced pair t ∧ pair l r ∧ Closes pair stack u

section
variable {pair : α → α → Prop} {stack s t : List α} {l c : α}

theorem Balanced.head (h : Balanced pair (c :: s)) : ∃ r, pair c r := by
  cases h with
  | wrap h _ _ => exact ⟨_, h⟩

theorem closes_nil : Closes pair stack [] ↔ stack = [] := by
  cases stack with
  | nil => exact iff_of_true .nil rfl
  | cons l stack =>
    refine iff_of_false (fun h => ?_) (List.cons_ne_nil l stack)
    obtain ⟨t, r, u, heq, _⟩ := h
    exact List.cons_ne_nil r u (List.append_eq_nil_iff.1 heq.symm).2

/-- A closed bracket in front. -/
theorem Closes.wrap {r : α} (hlr : pair l r) (ht : Balanced pair t) (h : Closes pair stack s) :
    Closes pair stack (l :: (t ++ r :: s)) := by
  cases stack with
  | nil => exact .wrap hlr ht h
  | cons l' stack =>
    obtain ⟨t', r', u, rfl, ht', hlr', hu⟩ := h
    exact ⟨l :: (t ++ r :: t'), r', u, by simp, .wrap hlr ht ht', hlr', hu⟩

/-- An opening bracket is put on the stack. -/
theorem closes_push (hl : ∀ x, ¬ pair x l) : Closes pair stack (l :: s) ↔
    Closes pair (l :: stack) s := by
  refine ⟨fun h => ?_, fun h => ?_⟩
  · cases stack with
    | nil =>
      cases h with
      | wrap hlr hs ht => exact ⟨_, _, _, rfl, hs, hlr, ht⟩
    | cons l' stack =>
      obtain ⟨t, r, u, heq, ht, hlr, hu⟩ := h
      cases ht with
      | nil =>
        obtain ⟨rfl, rfl⟩ := List.cons.inj heq
        exact absurd hlr (hl l')
      | wrap hlr' hs' ht' =>
        rw [List.cons_append, List.append_assoc, List.cons_append] at heq
        obtain ⟨rfl, rfl⟩ := List.cons.inj heq
        exact ⟨_, _, _, rfl, hs', hlr', _, _, _, rfl, ht', hlr, hu⟩
  · obtain ⟨t, r, u, rfl, ht, hlr, hu⟩ := h
    exact hu.wrap hlr ht

/-- A closing bracket closes the top of the stack. -/
theorem closes_pop (hc : ∀ x, ¬ pair c x) :
    Closes pair (l :: stack) (c :: s) ↔ pair l c ∧ Closes pair stack s := by
  refine ⟨fun h => ?_, fun h => ⟨[], c, s, rfl, .nil, h.1, h.2⟩⟩
  obtain ⟨t, r, u, heq, ht, hlr, hu⟩ := h
  cases ht with
  | nil =>
    obtain ⟨rfl, rfl⟩ := List.cons.inj heq
    exact ⟨hlr, hu⟩
  | wrap hlr' _ _ =>
    obtain ⟨rfl, _⟩ := List.cons.inj heq
    exact absurd hlr' (hc _)

theorem not_closes_empty (hc : ∀ x, ¬ pair c x) : ¬ Closes pair [] (c :: s) := fun h => by
  obtain ⟨r, hr⟩ := Balanced.head h
  exact hc r hr

end

section
variable {left : α → Bool} {fits : α → α → Bool} {stack s : List α} {c top : α}

theorem scan_left (hc : left c = true) :
    scan left fits stack (c :: s) = scan left fits (c :: stack) s := by
  cases stack with
  | nil => rw [scan, if_pos hc]
  | cons top stack => rw [scan, if_pos hc]

theorem scan_empty (hc : left c = false) : scan left fits [] (c :: s) = false := by
  simp only [scan, hc, Bool.false_eq_true, if_false]

theorem scan_right (hc : left c = false) : scan left fits (top :: stack) (c :: s) =
    if fits top c then scan left fits stack s else false := by
  simp only [scan, hc, Bool.false_eq_true, if_false]

theorem scan_closes (hstack : ∀ l ∈ stack, left l = true) :
    scan left fits stack s = true ↔ Closes (Fits left fits) stack s := by
  induction s generalizing stack with
  | nil =>
    rw [closes_nil, ← List.isEmpty_iff]
    cases stack <;> rfl
  | cons c s ih =>
    cases hc : left c with
    | true =>
      have hpush : ∀ x, ¬ Fits left fits x c := fun x hx => by
        have hright := hx.2.1
        rw [hc] at hright
        cases hright
      rw [scan_left hc, closes_push hpush]
      refine ih fun l hl => ?_
      cases List.mem_cons.1 hl with
      | inl heq => exact heq ▸ hc
      | inr hl => exact hstack l hl
    | false =>
      have hpop : ∀ x, ¬ Fits left fits c x := fun x hx => by
        have hleft := hx.1
        rw [hc] at hleft
        cases hleft
      cases stack with
      | nil =>
        rw [scan_empty hc]
        exact iff_of_false Bool.false_ne_true (not_closes_empty hpop)
      | cons top stack =>
        have htop := hstack top List.mem_cons_self
        have hrest : ∀ l ∈ stack, left l = true := fun l hl => hstack l (List.mem_cons_of_mem _ hl)
        rw [scan_right hc, closes_pop hpop, ← ih hrest]
        by_cases hfits : fits top c = true
        · rw [if_pos hfits]
          exact (and_iff_right ⟨htop, hc, hfits⟩).symm
        · rw [if_neg hfits]
          exact iff_of_false Bool.false_ne_true fun h => hfits h.1.2.2

/-- The brackets that are open behind `s`; `none` where it closes what is not open. -/
def openAfter (left : α → Bool) (fits : α → α → Bool) : List α → List α → Option (List α)
  | stack, [] => some stack
  | stack, c :: s =>
    if left c then openAfter left fits (c :: stack) s
    else
      match stack with
      | [] => none
      | top :: stack => if fits top c then openAfter left fits stack s else none

theorem scan_append (p s : List α) : scan left fits stack (p ++ s) =
    match openAfter left fits stack p with
    | none => false
    | some stack => scan left fits stack s := by
  induction p generalizing stack with
  | nil => rfl
  | cons c p ih =>
    rw [List.cons_append]
    cases hc : left c with
    | true =>
      rw [scan_left hc, ih]
      simp only [openAfter, hc, if_true]
    | false =>
      cases stack with
      | nil =>
        rw [scan_empty hc]
        simp only [openAfter, hc, Bool.false_eq_true, if_false]
      | cons top stack =>
        rw [scan_right hc]
        simp only [openAfter, hc, Bool.false_eq_true, if_false]
        split_ifs
        · exact ih
        · rfl

theorem left_of_openAfter {opened : List α} (hstack : ∀ l ∈ stack, left l = true)
    (h : openAfter left fits stack s = some opened) : ∀ l ∈ opened, left l = true := by
  induction s generalizing stack with
  | nil =>
    cases h
    exact hstack
  | cons c s ih =>
    cases hc : left c with
    | true =>
      simp only [openAfter, hc, if_true] at h
      refine ih (fun l hl => ?_) h
      rcases List.mem_cons.1 hl with rfl | hl
      · exact hc
      · exact hstack l hl
    | false =>
      cases stack with
      | nil => simp [openAfter, hc] at h
      | cons top stack =>
        simp only [openAfter, hc, Bool.false_eq_true, if_false] at h
        split_ifs at h
        exact ih (fun l hl => hstack l (List.mem_cons_of_mem top hl)) h

/-- What is open can be closed, if every bracket can. -/
theorem exists_scan (hstack : ∀ l ∈ stack, ∃ r, Fits left fits l r) :
    ∃ s, scan left fits stack s = true := by
  induction stack with
  | nil => exact ⟨[], rfl⟩
  | cons top stack ih =>
    obtain ⟨r, hfits⟩ := hstack top List.mem_cons_self
    obtain ⟨s, hs⟩ := ih fun l hl => hstack l (List.mem_cons_of_mem top hl)
    refine ⟨r :: s, ?_⟩
    rw [scan_right hfits.2.1, if_pos hfits.2.2]
    exact hs

/-- `scan` accepts exactly the balanced words. -/
theorem scan_iff : scan left fits [] s = true ↔ Balanced (Fits left fits) s :=
  scan_closes nofun

end

end Brackets
