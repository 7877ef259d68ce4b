import Mathlib.Data.List.Basic
import Mathlib.Tactic

/-!
# Binary search for a partition point

`std::lower_bound` and `std::upper_bound` halve a range until nothing is left of it. On a list that
`p` cuts in two (it holds of the elements of the first part and of none of the second) the loop
stops at the cut.
-/

namespace BinarySearch

variable {α : Type*}

/-- The loop over the range of length `len` from `first`; `p` is the test of the element in the
middle. -/
def search (p : Nat → Bool) (first len : Nat) : Nat :=
  if len = 0 then first
  else if p (first + len / 2) then search p (first + len / 2 + 1) (len - len / 2 - 1)
  else search p first (len / 2)
termination_by len

theorem search_eq {p : Nat → Bool} {first len k : Nat} (hk : first ≤ k) (hk' : k ≤ first + len)
    (hp : ∀ i, first ≤ i → i < first + len → (p i = true ↔ i < k)) : search p first len = k := by
  fun_induction search p first len with
  | case1 first => omega
  | case2 first len hlen hmid ih =>
    have hlt := (hp (first + len / 2) (by omega) (by omega)).1 hmid
    exact ih hlt (by omega) fun i hi hi' => hp i (by omega) (by omega)
  | case3 first len hlen hmid ih =>
    have hle : ¬first + len / 2 < k :=
      fun hlt => hmid ((hp (first + len / 2) (by omega) (by omega)).2 hlt)
    exact ih hk (by omega) fun i hi hi' => hp i hi (by omega)

variable (lt : α → α → Bool) (xs : List α) (x : α)

/-- `std::lower_bound`. -/
def lowerBound : Nat := search (fun i => (xs[i]?).any (lt · x)) 0 xs.length

/-- `std::upper_bound`. -/
def upperBound : Nat := search (fun i => (xs[i]?).any (!lt x ·)) 0 xs.length

theorem search_append {p : α → Bool} {as bs : List α} (has : ∀ a ∈ as, p a = true)
    (hbs : ∀ b ∈ bs, p b = false) :
    search (fun i => ((as ++ bs)[i]?).any p) 0 (as ++ bs).length = as.length := by
  refine search_eq (Nat.zero_le _) (by simp) fun i _ hi => ?_
  by_cases hlt : i < as.length
  · rw [List.getElem?_append_left hlt, List.getElem?_eq_getElem hlt, Option.any_some]
    exact iff_of_true (has _ (List.getElem_mem hlt)) hlt
  · have hi' : i - as.length < bs.length := by
      rw [List.length_append] at hi
      omega
    rw [List.getElem?_append_right (by omega), List.getElem?_eq_getElem hi', Option.any_some]
    refine iff_of_false ?_ hlt
    rw [hbs _ (List.getElem_mem hi')]
    exact Bool.false_ne_true

variable {lt xs x}

theorem lowerBound_append {as bs : List α} (has : ∀ a ∈ as, lt a x = true)
    (hbs : ∀ b ∈ bs, lt b x = false) :
    lowerBound lt (as ++ bs) x = as.length :=
  search_append has hbs

theorem upperBound_eq_length (h : ∀ a ∈ xs, lt x a = false) : upperBound lt xs x = xs.length := by
  have hnil : ∀ b ∈ ([] : List α), (!lt x b) = false := nofun
  have hsearch := search_append (fun a ha => by rw [h a ha, Bool.not_false]) hnil
  rw [List.append_nil] at hsearch
  exact hsearch

end BinarySearch
