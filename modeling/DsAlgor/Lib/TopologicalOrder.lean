import Mathlib.Data.Fintype.Card
import Mathlib.Data.List.Basic
import Mathlib.Logic.Relation
import Mathlib.Order.WellFounded
import Mathlib.Tactic

/-!
# Topological orders

In `PredsFirst r l` the predecessors of a vertex of `l` come before it. A relation that has such a
list of all vertices is acyclic (`PredsFirst.acyclic`); where an acyclic relation is finite, every
set of vertices has a source (`Acyclic.exists_source`).
-/

namespace TopologicalOrder

open Relation

variable {α : Type*} {r : α → α → Prop} {l : List α} {u v : α}

def Acyclic (r : α → α → Prop) : Prop := ∀ v, ¬ TransGen r v v

def PredsFirst (r : α → α → Prop) (l : List α) : Prop :=
  ∀ pre v post, l = pre ++ v :: post → ∀ u, r u v → u ∈ pre

namespace PredsFirst

theorem nil : PredsFirst r [] := by
  intro pre v post h
  exact absurd h.symm (List.append_ne_nil_of_right_ne_nil pre (List.cons_ne_nil v post))

theorem snoc (h : PredsFirst r l) (hv : ∀ u, r u v → u ∈ l) : PredsFirst r (l ++ [v]) := by
  intro pre w post heq u hu
  cases post using List.reverseRecOn with
  | nil =>
    obtain ⟨rfl, hw⟩ := List.append_inj' heq rfl
    obtain rfl : v = w := (List.cons.inj hw).1
    exact hv u hu
  | append_singleton post x =>
    have hsplit : l ++ [v] = (pre ++ w :: post) ++ [x] := by simpa using heq
    obtain ⟨rfl, _⟩ := List.append_inj' hsplit rfl
    exact h pre w post rfl u hu

/-- A predecessor is there, and further to the front. -/
theorem idxOf_lt [DecidableEq α] (h : PredsFirst r l) (hv : v ∈ l) (hu : r u v) :
    u ∈ l ∧ l.idxOf u < l.idxOf v := by
  obtain ⟨pre, post, rfl, hfirst⟩ := List.eq_append_cons_of_mem hv
  have hpre : u ∈ pre := h pre v post rfl u hu
  refine ⟨List.mem_append_left _ hpre, ?_⟩
  rw [List.idxOf_append_of_mem hpre, List.idxOf_append_of_notMem hfirst, List.idxOf_cons_self]
  exact (List.idxOf_lt_length_iff.2 hpre).trans_le (Nat.le_add_right _ _)

theorem idxOf_lt_of_transGen [DecidableEq α] (h : PredsFirst r l) (hv : v ∈ l)
    (hu : TransGen r u v) : u ∈ l ∧ l.idxOf u < l.idxOf v := by
  induction hu using TransGen.head_induction_on with
  | single hr => exact h.idxOf_lt hv hr
  | head hr _ ih =>
    obtain ⟨hmem, hlt⟩ := ih
    obtain ⟨hmem', hlt'⟩ := h.idxOf_lt hmem hr
    exact ⟨hmem', hlt'.trans hlt⟩

theorem acyclic (h : PredsFirst r l) (hall : ∀ v, v ∈ l) : Acyclic r := by
  classical
  exact fun v hcycle => lt_irrefl _ (h.idxOf_lt_of_transGen (hall v) hcycle).2

end PredsFirst

theorem Acyclic.exists_source [Finite α] (h : Acyclic r) {s : Set α} (hs : s.Nonempty) :
    ∃ v ∈ s, ∀ u ∈ s, ¬ r u v := by
  have : Std.Irrefl (TransGen r) := ⟨h⟩
  have hwf : WellFounded (TransGen r) := Finite.wellFounded_of_trans_of_irrefl _
  obtain ⟨v, hv, hmin⟩ := hwf.has_min s hs
  exact ⟨v, hv, fun u hu hr => hmin u hu (.single hr)⟩

end TopologicalOrder
