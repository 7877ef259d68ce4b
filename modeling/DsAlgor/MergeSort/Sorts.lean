import DsAlgor.MergeSort.Merge

/-!
# What `mergeSort` sorts

The recursion sorts every segment in which the sum of two indices fits in 32 bits (`sorts_segment`).
In a longer array the right halves come to ends whose sum does not: the midpoint is negative then,
and the recursion over the right half, which begins at a negative index, gives no result
(`wide_faults`).
-/

namespace MergeSort

open Checked

/-- A sum of two indices that fits. -/
theorem int32_add {m n : Nat} (h : m + n < 2 ^ 31) :
    int32 ((m : Int) + n) = ((m + n : Nat) : Int) := by
  rw [← Nat.cast_add]
  exact int32_natCast h

/-- A sum of two indices that does not fit. -/
theorem int32_add_wrap {m n : Int} (h : 2 ^ 31 ≤ m + n) (h' : m + n < 2 ^ 32) :
    int32 (m + n) = m + n - 2 ^ 32 := by
  unfold int32
  rw [Int.bmod_def]
  omega

/-! ## Short arrays -/

/-- The recursion on a segment `s` that is followed by short enough indices. -/
theorem sorts_segment {A B s : List Int} {P Q R : List (Option Int)} {left right : Int}
    (hleft : left = A.length) (hright : right + 1 = left + s.length) (hfit : right ≤ 2 ^ 30)
    (hP : P.length = A.length) (hQ : Q.length = s.length) :
    ∃ (s' : List Int) (Q' : List (Option Int)), s'.Perm s ∧ s'.Pairwise (· ≤ ·) ∧
      Q'.length = s.length ∧
      Ends (fun fuel =>
          internalMergeSort fuel ⟨0, A ++ (s ++ B)⟩ ⟨0, P ++ (Q ++ R)⟩ left right)
        (⟨0, A ++ (s' ++ B)⟩, ⟨0, P ++ (Q' ++ R)⟩) := by
  induction hn : s.length using Nat.strong_induction_on generalizing A B s P Q R left right with
  | _ n ih =>
    by_cases hlt : left < right
    · -- the midpoint cuts the segment into two shorter ones
      obtain ⟨k, hk⟩ : ∃ k, k = (s.length + 1) / 2 := ⟨_, rfl⟩
      have hmiddle : (int32 (left + right)).tdiv 2 = left + k - 1 := by
        obtain ⟨r, rfl⟩ : ∃ r : Nat, right = r := ⟨right.toNat, by omega⟩
        rw [hleft, int32_add (by omega), Int.tdiv_eq_ediv_of_nonneg (by omega)]
        omega
      obtain ⟨xs, ys, rfl, hxs⟩ : ∃ xs ys, s = xs ++ ys ∧ xs.length = k :=
        ⟨s.take k, s.drop k, (List.take_append_drop _ _).symm, by rw [List.length_take]; omega⟩
      obtain ⟨Q₁, Q₂, rfl, hQ₁⟩ : ∃ Q₁ Q₂, Q = Q₁ ++ Q₂ ∧ Q₁.length = k :=
        ⟨Q.take k, Q.drop k, (List.take_append_drop _ _).symm, by
          rw [List.length_take, hQ]; omega⟩
      rw [List.length_append] at hright hQ hn hk
      rw [List.length_append] at hQ
      obtain ⟨xs', Q₁', hxs', hxs_sorted, hQ₁', hfirst⟩ := ih xs.length (by omega) (A := A)
        (B := ys ++ B) (s := xs) (P := P) (Q := Q₁) (R := Q₂ ++ R) hleft
        (show left + k - 1 + 1 = _ by omega) (by omega) hP (by omega) rfl
      have hA : left + k - 1 + 1 = ((A ++ xs').length : Int) := by
        rw [List.length_append, hxs'.length_eq]
        push_cast
        omega
      obtain ⟨ys', Q₂', hys', hys_sorted, hQ₂', hsecond⟩ := ih ys.length (by omega)
        (A := A ++ xs') (B := B) (s := ys) (P := P ++ Q₁') (Q := Q₂) (R := R)
        hA (show right + 1 = _ by omega) hfit
        (by rw [List.length_append, List.length_append, hP, hQ₁', hxs'.length_eq]) (by omega) rfl
      have hruns : Runs A xs' ys' left (left + k - 1) right :=
        ⟨hleft, by rw [hxs'.length_eq]; omega, by rw [hys'.length_eq]; omega⟩
      have hmerge := merge_spec (B := B) (P := P) (Q := Q₁' ++ Q₂') (R := R) hruns hP
        (by rw [List.length_append, hQ₁', hQ₂', hxs'.length_eq, hys'.length_eq])
      refine ⟨merged xs' ys', (xs' ++ ys').map some, (merged_perm ..).trans (hxs'.append hys'),
        merged_sorted hxs_sorted hys_sorted, ?_, ?_⟩
      · rw [List.length_map, List.length_append, hxs'.length_eq, hys'.length_eq]
        exact hn
      · simp only [List.append_assoc] at hfirst hsecond hmerge ⊢
        apply Ends.succ
        simp only [internalMergeSort, if_pos hlt, hmiddle]
        apply Ends.bind hfirst
        apply Ends.bind hsecond
        exact hmerge
    · have hlen : s.length ≤ 1 := by omega
      have hsorted : s.Pairwise (· ≤ ·) := by
        cases s with
        | nil => exact List.Pairwise.nil
        | cons x s =>
          cases s with
          | nil => exact List.pairwise_singleton _ _
          | cons y s => simp at hlen
      refine ⟨s, Q, List.Perm.refl s, hsorted, by omega, ?_⟩
      apply Ends.succ
      simp only [internalMergeSort, if_neg hlt]
      exact Ends.pure _

/-! ## Long arrays -/

section
variable {a a' : Arr Int} {temp temp' : Arr (Option Int)} {fuel : Nat}

theorem set_first {α : Type} {a a' : Arr α} {i : Int} {x : α} (h : a.set i x = .ok a') :
    a'.first = a.first := by
  unfold Arr.set at h
  split at h
  · cases h
  · cases h
    rfl

variable {right : Int} {r : Arr Int × Arr (Option Int)}

theorem mergeLoop_first {middle p q i : Int} {r : Arr Int × Int × Int × Int}
    (h : mergeLoop temp middle right fuel a p q i = .ok r) : r.1.first = a.first := by
  induction fuel generalizing a p q i with
  | zero => cases h
  | succ fuel ih =>
    rw [mergeLoop] at h
    split at h
    · obtain ⟨x, _, h⟩ := bind_eq_ok h
      obtain ⟨y, _, h⟩ := bind_eq_ok h
      split at h
      · obtain ⟨b, hb, h⟩ := bind_eq_ok h
        rw [ih h, set_first hb]
      · obtain ⟨b, hb, h⟩ := bind_eq_ok h
        rw [ih h, set_first hb]
    · cases h
      rfl

theorem restLoop_first {last p i : Int} {r : Arr Int × Int}
    (h : restLoop temp last fuel a p i = .ok r) : r.1.first = a.first := by
  induction fuel generalizing a p i with
  | zero => cases h
  | succ fuel ih =>
    rw [restLoop] at h
    split at h
    · obtain ⟨x, _, h⟩ := bind_eq_ok h
      obtain ⟨b, hb, h⟩ := bind_eq_ok h
      rw [ih h, set_first hb]
    · cases h
      rfl

theorem merge_first {left middle : Int} (h : merge fuel a temp left right middle = .ok r) :
    r.1.first = a.first := by
  obtain ⟨temp, _, h⟩ := bind_eq_ok h
  obtain ⟨⟨a₁, p, q, i⟩, h₁, h⟩ := bind_eq_ok h
  obtain ⟨⟨a₂, i⟩, h₂, h⟩ := bind_eq_ok h
  obtain ⟨⟨a₃, i⟩, h₃, h⟩ := bind_eq_ok h
  cases h
  rw [restLoop_first h₃, restLoop_first h₂, mergeLoop_first h₁]

theorem internalMergeSort_first {left : Int}
    (h : internalMergeSort fuel a temp left right = .ok r) : r.1.first = a.first := by
  induction fuel generalizing a temp left right r with
  | zero => cases h
  | succ fuel ih =>
    rw [internalMergeSort] at h
    split at h
    · obtain ⟨⟨a₁, t₁⟩, h₁, h⟩ := bind_eq_ok h
      obtain ⟨⟨a₂, t₂⟩, h₂, h⟩ := bind_eq_ok h
      rw [merge_first h, ih h₂, ih h₁]
    · cases h
      rfl

/-- In front of the array there is nothing to merge. -/
theorem merge_negative {left middle : Int} (hfirst : a.first = 0) (hleft : left < 0)
    (hle : left ≤ right) : merge fuel a temp left right middle ≠ .ok r := by
  intro h
  obtain ⟨t, hcopy, _⟩ := bind_eq_ok h
  cases fuel with
  | zero => cases hcopy
  | succ fuel =>
    have hget : a.get left = .error .outOfBounds := by
      rw [Arr.get, if_pos (by omega)]
    rw [copyLoop, if_pos hle, hget] at hcopy
    cases hcopy

theorem negative_faults {left : Int} (hfirst : a.first = 0) (hleft : left < 0)
    (hlt : left < right) : internalMergeSort fuel a temp left right ≠ .ok r := by
  intro h
  cases fuel with
  | zero => cases h
  | succ fuel =>
    rw [internalMergeSort, if_pos hlt] at h
    obtain ⟨⟨a₁, t₁⟩, h₁, h⟩ := bind_eq_ok h
    obtain ⟨⟨a₂, t₂⟩, h₂, h⟩ := bind_eq_ok h
    have hfirst₂ : a₂.first = 0 := by
      rw [internalMergeSort_first h₂, internalMergeSort_first h₁, hfirst]
    exact merge_negative hfirst₂ hleft hlt.le h

/-- The right half of a segment that ends too far out ends there too, until the sum wraps. -/
theorem wide_faults {left : Int} (hfirst : a.first = 0) (hleft : 0 ≤ left) (hlt : left < right)
    (hwide : 2 ^ 30 + 1 ≤ right) (hint : right ≤ 2 ^ 31 - 2) :
    internalMergeSort fuel a temp left right ≠ .ok r := by
  intro h
  induction fuel generalizing a temp left r with
  | zero => cases h
  | succ fuel ih =>
    rw [internalMergeSort, if_pos hlt] at h
    obtain ⟨⟨a₁, t₁⟩, h₁, h⟩ := bind_eq_ok h
    obtain ⟨⟨a₂, t₂⟩, h₂, h⟩ := bind_eq_ok h
    have hfirst₁ : a₁.first = 0 := by
      rw [internalMergeSort_first h₁, hfirst]
    by_cases hsum : left + right < 2 ^ 31
    · have hmiddle : (int32 (left + right)).tdiv 2 = (left + right) / 2 := by
        obtain ⟨l, rfl⟩ : ∃ l : Nat, left = l := ⟨left.toNat, by omega⟩
        obtain ⟨m, rfl⟩ : ∃ m : Nat, right = m := ⟨right.toNat, by omega⟩
        rw [int32_add (by omega), Int.tdiv_eq_ediv_of_nonneg (by omega)]
        rfl
      rw [hmiddle] at h₂
      exact ih hfirst₁ (by omega) (by omega) h₂
    · have hmiddle : (int32 (left + right)).tdiv 2 + 1 < 0 := by
        have hneg : left + right - 2 ^ 32 = -(2 ^ 32 - (left + right)) := by omega
        rw [int32_add_wrap (by omega) (by omega), hneg, Int.neg_tdiv,
          Int.tdiv_eq_ediv_of_nonneg (by omega)]
        omega
      exact negative_faults hfirst₁ hmiddle (by omega) h₂

end

/-- A long array is never sorted. -/
theorem mergeSort_long {a : List Int} (a' : Arr Int) (hlong : 2 ^ 30 + 1 < a.length)
    (hint : a.length < 2 ^ 31) : ¬ Ends (fun fuel => mergeSort fuel ⟨0, a⟩ a.length) a' := by
  intro h
  obtain ⟨n, hn, _⟩ := h.exists
  obtain ⟨r, hr, _⟩ := bind_eq_ok hn
  have hcast : ((a.length : Nat) : Int) < 2 ^ 31 := by exact_mod_cast hint
  exact wide_faults rfl le_rfl (by omega) (by omega) (by omega) hr

theorem mergeSort_short {a : List Int} (hshort : a.length ≤ 2 ^ 30 + 1) :
    ∃ a', Ends (fun fuel => mergeSort fuel ⟨0, a⟩ a.length) ⟨0, a'⟩ ∧ a'.Perm a ∧
      a'.Pairwise (· ≤ ·) := by
  obtain ⟨a', Q', hperm, hsorted, _, hends⟩ := sorts_segment (A := []) (B := []) (s := a) (P := [])
    (Q := List.replicate a.length none) (R := []) (show (0 : Int) = _ from rfl)
    (show (a.length : Int) - 1 + 1 = _ by omega) (by omega) rfl (List.length_replicate ..)
  simp only [List.nil_append, List.append_nil] at hends
  exact ⟨a', hends.bind (Ends.pure _), hperm, hsorted⟩

/-- `mergeSort` sorts exactly the arrays in which no sum of two indices overflows. A merge of two
adjacent runs does not depend on what `temp` holds. -/
theorem mergeSort_iff (a : List Int) (hint : a.length < 2 ^ 31) :
    ((∃ a', Ends (fun fuel => mergeSort fuel ⟨0, a⟩ a.length) ⟨0, a'⟩ ∧ a'.Perm a ∧
      a'.Pairwise (· ≤ ·)) ↔ a.length ≤ 2 ^ 30 + 1) ∧
    ∀ (A xs ys B : List Int) (temp : List (Option Int)) (left middle right : Int),
      temp.length = (A ++ ((xs ++ ys) ++ B)).length → Runs A xs ys left middle right →
        ∃ temp', Ends
          (fun fuel => merge fuel ⟨0, A ++ ((xs ++ ys) ++ B)⟩ ⟨0, temp⟩ left right middle)
          (⟨0, A ++ (merged xs ys ++ B)⟩, temp') := by
  refine ⟨⟨fun h => ?_, mergeSort_short⟩, fun A xs ys B temp left middle right htemp hruns => ?_⟩
  · obtain ⟨a', hends, _⟩ := h
    by_contra hlong
    exact mergeSort_long _ (by omega) hint hends
  · simp only [List.length_append] at htemp
    obtain ⟨P, Q, R, rfl, hP, hQ⟩ : ∃ P Q R, temp = P ++ (Q ++ R) ∧ P.length = A.length ∧
        Q.length = xs.length + ys.length := by
      refine ⟨temp.take A.length, (temp.drop A.length).take (xs.length + ys.length),
        (temp.drop A.length).drop (xs.length + ys.length), ?_, ?_, ?_⟩
      · rw [List.take_append_drop, List.take_append_drop]
      · rw [List.length_take]
        omega
      · rw [List.length_take, List.length_drop]
        omega
    exact ⟨_, merge_spec hruns hP hQ⟩

theorem mergeSort_iff_small :
    ∃ a', Ends (fun fuel => mergeSort fuel ⟨0, [3, 1, 2]⟩ 3) ⟨0, a'⟩ ∧ a'.Perm [3, 1, 2] ∧
      a'.Pairwise (· ≤ ·) :=
  (mergeSort_iff [3, 1, 2] (by decide)).1.2 (by decide)

/-- An `int` array that is not sorted. -/
theorem mergeSort_overflow : ¬ ∃ a',
    Ends (fun fuel => mergeSort fuel ⟨0, List.replicate (2 ^ 30 + 2) 0⟩ (2 ^ 30 + 2)) ⟨0, a'⟩ ∧
      a'.Perm (List.replicate (2 ^ 30 + 2) 0) ∧ a'.Pairwise (· ≤ ·) := by
  intro h
  obtain ⟨a', hends, _⟩ := h
  have hlen : (List.replicate (2 ^ 30 + 2) (0 : Int)).length = 2 ^ 30 + 2 :=
    List.length_replicate ..
  have hlong := mergeSort_long ⟨0, a'⟩ (a := List.replicate (2 ^ 30 + 2) 0) (by rw [hlen]; decide)
    (by rw [hlen]; decide)
  rw [hlen] at hlong
  exact hlong hends

end MergeSort
