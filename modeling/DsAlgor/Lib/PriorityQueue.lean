import Mathlib.Algebra.Order.Group.Multiset
import Mathlib.Tactic

/-!
# Priority queues

What a program may rely on of a priority queue: what it holds, and which element is in front. `le x
y` says that `x` may come before `y`. When some element may come before all the others, the one in
front is such an element; when there is none, as for an order that is not transitive, it is any
element.
-/

structure PriorityQueue (α : Type) [DecidableEq α] (le : α → α → Prop) where
  Queue : Type
  empty : Queue
  add : Queue → α → Queue
  peek : Queue → Option α
  /-- The queue without the element in front. -/
  remove : Queue → Queue
  elems : Queue → Multiset α
  elems_empty : elems empty = 0
  elems_add (q : Queue) (x : α) : elems (add q x) = x ::ₘ elems q
  peek_none (q : Queue) : peek q = none → elems q = 0
  peek_mem (q : Queue) (x : α) : peek q = some x → x ∈ elems q
  peek_first (q : Queue) (x : α) : peek q = some x →
    (∃ y ∈ elems q, ∀ z ∈ elems q, le y z) → ∀ z ∈ elems q, le x z
  elems_remove (q : Queue) (x : α) : peek q = some x → elems (remove q) = (elems q).erase x

namespace PriorityQueue

theorem coe_concat {α : Type} (l : List α) (x : α) :
    ((l ++ [x] : List α) : Multiset α) = x ::ₘ (l : Multiset α) := by
  rw [← Multiset.coe_add, Multiset.coe_singleton, Multiset.add_comm, Multiset.singleton_add]

variable {α : Type} [DecidableEq α] {le : α → α → Prop}

section
variable (P : PriorityQueue α le) {q : P.Queue} {x : α} {s : Multiset α}

def size (q : P.Queue) : Nat := (P.elems q).card

theorem elems_ne_zero (h : P.peek q = some x) : P.elems q ≠ 0 := fun hzero =>
  Multiset.notMem_zero x (hzero ▸ P.peek_mem q x h)

theorem exists_peek (h : P.elems q ≠ 0) : ∃ x, P.peek q = some x := by
  cases hpeek : P.peek q with
  | none => exact absurd (P.peek_none q hpeek) h
  | some x => exact ⟨x, rfl⟩

theorem exists_peek_of_size (h : 0 < P.size q) : ∃ x, P.peek q = some x :=
  P.exists_peek fun hzero => by
    rw [size, hzero, Multiset.card_zero] at h
    exact Nat.lt_irrefl 0 h

/-- What is held after the element in front has made room for another one. -/
theorem elems_replace (hx : P.peek q = some x) (y : α) :
    P.elems (P.add (P.remove q) y) = y ::ₘ (P.elems q).erase x := by
  rw [P.elems_add, P.elems_remove q x hx]

theorem size_replace (hx : P.peek q = some x) (y : α) :
    P.size (P.add (P.remove q) y) = P.size q := by
  rw [size, P.elems_replace hx, Multiset.card_cons,
    Multiset.card_erase_add_one (P.peek_mem q x hx), size]

/-! ## The elements seen so far: some are held, the rest is not -/

variable {seen : List α} {rest : Multiset α}

theorem split_add (h : (seen : Multiset α) = P.elems q) (y : α) :
    ((seen ++ [y] : List α) : Multiset α) = P.elems (P.add q y) := by
  rw [coe_concat, h, P.elems_add]

theorem split_skip (h : (seen : Multiset α) = P.elems q + rest) (y : α) :
    ((seen ++ [y] : List α) : Multiset α) = P.elems q + (y ::ₘ rest) := by
  rw [coe_concat, h, Multiset.add_cons]

theorem split_replace (h : (seen : Multiset α) = P.elems q + rest) (hx : P.peek q = some x)
    (y : α) :
    ((seen ++ [y] : List α) : Multiset α) =
      P.elems (P.add (P.remove q) y) + (x ::ₘ rest) := by
  rw [coe_concat, h, P.elems_replace hx, Multiset.add_cons, Multiset.cons_add, Multiset.cons_swap,
    ← Multiset.cons_add x, Multiset.cons_erase (P.peek_mem q x hx)]

end

/-! ## Lists as queues -/

/-- A list as a queue whose element in front is chosen by `choose`. -/
def ofList (choose : List α → Option α) (hnone : ∀ l, choose l = none → l = [])
    (hmem : ∀ l x, choose l = some x → x ∈ l)
    (hfirst : ∀ l x, choose l = some x → (∃ y ∈ l, ∀ z ∈ l, le y z) → ∀ z ∈ l, le x z) :
    PriorityQueue α le where
  Queue := List α
  empty := []
  add l x := x :: l
  peek := choose
  remove l := match choose l with
    | none => l
    | some x => l.erase x
  elems l := l
  elems_empty := rfl
  elems_add _ _ := rfl
  peek_none l h := by rw [hnone l h]; rfl
  peek_mem l x h := hmem l x h
  peek_first l x h := hfirst l x h
  elems_remove l x h := by simp only [h, Multiset.coe_erase]

/-- The least of the elements that may come before all the others, or else the least of all. -/
def leastFirst [LinearOrder α] (le : α → α → Prop) [DecidableRel le] (l : List α) : Option α :=
  match (l.filter fun x => ∀ y ∈ l, le x y).min? with
  | some x => some x
  | none => l.min?

section
variable {α : Type} [LinearOrder α] {le : α → α → Prop} [DecidableRel le] {l : List α} {x : α}

theorem leastFirst_of_first (h : ∃ y ∈ l, ∀ z ∈ l, le y z) :
    ∃ x, leastFirst le l = some x ∧ (x ∈ l ∧ ∀ z ∈ l, le x z) ∧
      ∀ y ∈ l, (∀ z ∈ l, le y z) → x ≤ y := by
  obtain ⟨y, hy, hfirst⟩ := h
  cases hmin : (l.filter fun x => ∀ y ∈ l, le x y).min? with
  | none =>
    have hnil := List.min?_eq_none_iff.1 hmin
    exact absurd (List.mem_filter.2 ⟨hy, decide_eq_true hfirst⟩) (hnil ▸ List.not_mem_nil)
  | some x =>
    obtain ⟨hx, hle⟩ := List.min?_eq_some_iff.1 hmin
    refine ⟨x, by simp only [leastFirst, hmin], ⟨(List.mem_filter.1 hx).1,
      of_decide_eq_true (List.mem_filter.1 hx).2⟩, fun y hy hfirst => ?_⟩
    exact hle y (List.mem_filter.2 ⟨hy, decide_eq_true hfirst⟩)

theorem leastFirst_of_none (h : ¬ ∃ y ∈ l, ∀ z ∈ l, le y z) : leastFirst le l = l.min? := by
  have hnil : (l.filter fun x => ∀ y ∈ l, le x y) = [] := by
    refine List.filter_eq_nil_iff.2 fun y hy hfirst => h ⟨y, hy, of_decide_eq_true hfirst⟩
  simp only [leastFirst, hnil, List.min?_nil]

theorem leastFirst_cases (h : leastFirst le l = some x) : x ∈ l ∧
    ((∀ z ∈ l, le x z) ∧ (∀ y ∈ l, (∀ z ∈ l, le y z) → x ≤ y) ∨
      (¬ ∃ y ∈ l, ∀ z ∈ l, le y z) ∧ ∀ y ∈ l, x ≤ y) := by
  by_cases hfirst : ∃ y ∈ l, ∀ z ∈ l, le y z
  · obtain ⟨x', hx', hmem, hleast⟩ := leastFirst_of_first hfirst
    obtain rfl : x' = x := Option.some.inj (hx'.symm.trans h)
    exact ⟨hmem.1, .inl ⟨hmem.2, hleast⟩⟩
  · rw [leastFirst_of_none hfirst] at h
    obtain ⟨hx, hmin⟩ := List.min?_eq_some_iff.1 h
    exact ⟨hx, .inr ⟨hfirst, hmin⟩⟩

/-- The list queue that takes the least of the possible elements. -/
def least (le : α → α → Prop) [DecidableRel le] : PriorityQueue α le :=
  ofList (leastFirst le)
    (fun l h => by
      by_cases hfirst : ∃ y ∈ l, ∀ z ∈ l, le y z
      · obtain ⟨x, hx, _⟩ := leastFirst_of_first hfirst
        rw [hx] at h
        cases h
      · rw [leastFirst_of_none hfirst] at h
        exact List.min?_eq_none_iff.1 h)
    (fun l x h => (leastFirst_cases h).1)
    (fun l x h hfirst => by
      rcases (leastFirst_cases h).2 with hx | hnone
      · exact hx.1
      · exact absurd hfirst hnone.1)

end

end PriorityQueue
