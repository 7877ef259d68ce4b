import Mathlib.Data.List.Basic
import Mathlib.Tactic

/-!
# Chains of `next` pointers

`Chain next p ps e`: following `next` from `p` visits the nodes `ps` and then arrives at `e`.
-/

variable {P : Type*}

def Chain (next : P → P) : P → List P → P → Prop
  | p, [], e => p = e
  | p, q :: qs, e => p = q ∧ Chain next (next q) qs e

namespace Chain

variable {next next' : P → P} {p e : P}
variable {ps : List P}

theorem append {qs : List P} :
    Chain next p (ps ++ qs) e ↔ ∃ q, Chain next p ps q ∧ Chain next q qs e := by
  induction ps generalizing p with
  | nil => simp [Chain]
  | cons x ps ih =>
    simp only [List.cons_append, Chain, ih]
    constructor
    · rintro ⟨rfl, q, h1, h2⟩
      exact ⟨q, ⟨rfl, h1⟩, h2⟩
    · rintro ⟨q, ⟨rfl, h1⟩, h2⟩
      exact ⟨rfl, q, h1, h2⟩

section
variable (h : Chain next p ps e)
include h

/-- A chain only depends on the `next` pointers of its nodes. -/
theorem congr (hn : ∀ q ∈ ps, next' q = next q) : Chain next' p ps e := by
  induction ps generalizing p with
  | nil => exact h
  | cons x ps ih =>
    obtain ⟨rfl, h⟩ := h
    refine ⟨rfl, ?_⟩
    rw [hn p List.mem_cons_self]
    exact ih h fun q hq => hn q (List.mem_cons_of_mem _ hq)

theorem end_unique {e' : P} (h' : Chain next p ps e') : e = e' := by
  induction ps generalizing p with
  | nil => exact h.symm.trans h'
  | cons x ps ih =>
    obtain ⟨rfl, h⟩ := h
    exact ih h h'.2

/-- The nodes of a chain follow from its beginning and its end. -/
theorem unique {qs : List P} (h' : Chain next p qs e) (he : e ∉ ps) (he' : e ∉ qs) : ps = qs := by
  induction ps generalizing p qs with
  | nil =>
    cases qs with
    | nil => rfl
    | cons y qs => exact absurd (List.mem_cons.2 (.inl (h.symm.trans h'.1))) he'
  | cons x ps ih =>
    cases qs with
    | nil => exact absurd (List.mem_cons.2 (.inl (h'.symm.trans h.1))) he
    | cons y qs =>
      obtain ⟨rfl, h⟩ := h
      obtain ⟨rfl, h'⟩ := h'
      rw [ih h h' (fun hmem => he (List.mem_cons_of_mem _ hmem)) fun hmem =>
        he' (List.mem_cons_of_mem _ hmem)]

/-- A chain that ends does not come to a node twice. -/
theorem nodup (he : e ∉ ps) : ps.Nodup := by
  induction ps generalizing p with
  | nil => exact List.nodup_nil
  | cons x ps ih =>
    obtain ⟨rfl, h⟩ := h
    have hends : e ∉ ps := fun hmem => he (List.mem_cons_of_mem _ hmem)
    refine List.nodup_cons.2 ⟨fun hmem => ?_, ih h hends⟩
    -- the rest from the second time on would be the whole chain
    obtain ⟨A, B, rfl⟩ := List.mem_iff_append.1 hmem
    obtain ⟨q, _, rfl, hrest⟩ := append.1 h
    have heq : A ++ q :: B = B := h.unique hrest hends fun hB => hends (by simp [hB])
    have hlen := congrArg List.length heq
    simp only [List.length_append, List.length_cons] at hlen
    omega

/-- Two chains of the same nodes have the same pointers. -/
theorem next_eq (h' : Chain next' p ps e) : ∀ q ∈ ps, next' q = next q := by
  induction ps generalizing p with
  | nil => exact nofun
  | cons x ps ih =>
    obtain ⟨rfl, h⟩ := h
    obtain ⟨_, h'⟩ := h'
    have hx : next' p = next p := by
      cases ps with
      | nil => exact h'.trans h.symm
      | cons y ps => exact h'.1.trans h.1.symm
    intro q hq
    cases List.mem_cons.1 hq with
    | inl heq => rw [heq, hx]
    | inr hq =>
      rw [hx] at h'
      exact ih h h' q hq

end

/-- The last node leads to another end. -/
theorem redirect {x e' : P} (h : Chain next p (ps ++ [x]) e) (hx : next' x = e')
    (ho : ∀ q ∈ ps, next' q = next q) : Chain next' p (ps ++ [x]) e' := by
  obtain ⟨q, h1, rfl, _⟩ := append.1 h
  exact append.2 ⟨q, h1.congr ho, rfl, hx⟩

/-- `y->next = x->next; x->next = y`. -/
theorem insert_after {qs : List P} {x y : P} (h : Chain next p (ps ++ x :: qs) e)
    (hnd : (ps ++ x :: qs).Nodup) (hy' : next' y = next x) (hx' : next' x = y)
    (ho : ∀ q ∈ ps ++ x :: qs, q ≠ x → next' q = next q) :
    Chain next' p (ps ++ x :: y :: qs) e := by
  obtain ⟨q, h1, rfl, h2⟩ := append.1 h
  have hxps : q ∉ ps := fun hm => (List.nodup_append.1 hnd).2.2 q hm q (by simp) rfl
  have hxqs : q ∉ qs := (List.nodup_cons.1 (List.nodup_append.1 hnd).2.1).1
  refine append.2 ⟨q, h1.congr fun z hz => ho z (by simp [hz]) ?_, rfl, ?_⟩
  · rintro rfl; exact hxps hz
  · rw [hx']
    refine ⟨rfl, ?_⟩
    rw [hy']
    refine h2.congr fun z hz => ho z (by simp [hz]) ?_
    rintro rfl; exact hxqs hz

/-- `x->next = y->next`, where `y` is the node after `x`. -/
theorem remove_after {qs : List P} {x y : P} (h : Chain next p (ps ++ x :: y :: qs) e)
    (hnd : (ps ++ x :: y :: qs).Nodup) (hx' : next' x = next y)
    (ho : ∀ q ∈ ps ++ x :: qs, q ≠ x → next' q = next q) : Chain next' p (ps ++ x :: qs) e := by
  obtain ⟨q, h1, rfl, h2⟩ := append.1 h
  obtain ⟨hy, h3⟩ := h2
  have hxps : q ∉ ps := fun hm => (List.nodup_append.1 hnd).2.2 q hm q (by simp) rfl
  have hxqs : q ∉ qs := fun hm =>
    (List.nodup_cons.1 (List.nodup_append.1 hnd).2.1).1 (List.mem_cons_of_mem _ hm)
  refine append.2 ⟨q, h1.congr fun z hz => ho z (by simp [hz]) ?_, rfl, ?_⟩
  · rintro rfl; exact hxps hz
  · rw [hx']
    refine h3.congr fun z hz => ho z (by simp [hz]) ?_
    rintro rfl; exact hxqs hz

end Chain
