import DsAlgor.Lib.CInt
import DsAlgor.Lib.Checked

/-!
# `mergeSort.cc`

The merge sort of the exercise. `temp` is what `malloc` gives, so its cells have no value before
they are filled. The sum of the two ends has 32 bits; the fuel bounds the recursion and every loop.
-/

namespace MergeSort

open Checked

/-- `for(int index = left; index <= right; index++) temp[index] = a[index];` -/
def copyLoop (a : Arr Int) (right : Int) :
    Nat → Arr (Option Int) → Int → Except Fault (Arr (Option Int))
  | 0, _, _ => .error .loop
  | fuel + 1, temp, index =>
    if index ≤ right then do
      copyLoop a right fuel (← temp.set index (some (← a.get index))) (index + 1)
    else return temp

/-- `while((index1 <= middle) && (index2 <= right))`: the array, `index1`, `index2` and `i`. -/
def mergeLoop (temp : Arr (Option Int)) (middle right : Int) :
    Nat → Arr Int → Int → Int → Int → Except Fault (Arr Int × Int × Int × Int)
  | 0, _, _, _, _ => .error .loop
  | fuel + 1, a, index1, index2, i =>
    if index1 ≤ middle ∧ index2 ≤ right then do
      let x ← temp.read index1
      let y ← temp.read index2
      if x < y then mergeLoop temp middle right fuel (← a.set i x) (index1 + 1) index2 (i + 1)
      else mergeLoop temp middle right fuel (← a.set i y) index1 (index2 + 1) (i + 1)
    else return (a, index1, index2, i)

/-- `while(index <= last) a[i++] = temp[index++];` -/
def restLoop (temp : Arr (Option Int)) (last : Int) :
    Nat → Arr Int → Int → Int → Except Fault (Arr Int × Int)
  | 0, _, _, _ => .error .loop
  | fuel + 1, a, index, i =>
    if index ≤ last then do
      restLoop temp last fuel (← a.set i (← temp.read index)) (index + 1) (i + 1)
    else return (a, i)

def merge (fuel : Nat) (a : Arr Int) (temp : Arr (Option Int)) (left right middle : Int) :
    Except Fault (Arr Int × Arr (Option Int)) := do
  let temp ← copyLoop a right fuel temp left
  let (a, index1, index2, i) ← mergeLoop temp middle right fuel a left (middle + 1) left
  let (a, i) ← restLoop temp middle fuel a index1 i
  let (a, _) ← restLoop temp right fuel a index2 i
  return (a, temp)

def internalMergeSort : Nat → Arr Int → Arr (Option Int) → Int → Int →
    Except Fault (Arr Int × Arr (Option Int))
  | 0, _, _, _, _ => .error .loop
  | fuel + 1, a, temp, left, right =>
    if left < right then do
      let middle := (int32 (left + right)).tdiv 2
      let (a, temp) ← internalMergeSort fuel a temp left middle
      let (a, temp) ← internalMergeSort fuel a temp (middle + 1) right
      merge fuel a temp left right middle
    else return (a, temp)

def mergeSort (fuel : Nat) (a : Arr Int) (len : Nat) : Except Fault (Arr Int) := do
  let temp : Arr (Option Int) := ⟨0, List.replicate len none⟩
  let (a, _) ← internalMergeSort fuel a temp 0 (len - 1)
  return a

/-! ## Merging

`merge` copies both runs to `temp` and writes the merged run over them: on `A ++ (xs ++ ys ++ B)`
the array becomes `A ++ (merged xs ys ++ B)`. Only cells of `temp` that `copyLoop` has filled are
read, so nothing is assumed of what `temp` holds before.
-/

/-- The run that `merge` makes of two: of equal elements that of the right run is first. -/
abbrev merged (xs ys : List Int) : List Int := ys.merge xs (· ≤ ·)

theorem merged_cons (x y : Int) (xs ys : List Int) :
    merged (x :: xs) (y :: ys) =
      if x < y then x :: merged xs (y :: ys) else y :: merged (x :: xs) ys := by
  rw [merged, List.cons_merge_cons]
  by_cases hxy : x < y
  · rw [if_pos hxy, if_neg]
    rw [decide_eq_true_iff]
    omega
  · rw [if_neg hxy, if_pos]
    rw [decide_eq_true_iff]
    omega

theorem merged_perm (xs ys : List Int) : (merged xs ys).Perm (xs ++ ys) :=
  List.Perm.trans (List.merge_perm_append ..) List.perm_append_comm

theorem merged_sorted {xs ys : List Int} (hxs : xs.Pairwise (· ≤ ·)) (hys : ys.Pairwise (· ≤ ·)) :
    (merged xs ys).Pairwise (· ≤ ·) :=
  hys.merge hxs

/-! ## The cells of `temp` -/

/-- `temp` has the values `xs` from `p` on. -/
def Holds (temp : Arr (Option Int)) : Int → List Int → Prop
  | _, [] => True
  | p, x :: xs => temp.read p = .ok x ∧ Holds temp (p + 1) xs

theorem read_at {first i : Int} {P Q : List (Option Int)} {x : Int} (hi : i = first + P.length) :
    (⟨first, P ++ some x :: Q⟩ : Arr (Option Int)).read i = .ok x := by
  rw [Arr.read, get_at hi]
  rfl

theorem holds_segment {first p : Int} {P Q : List (Option Int)} {xs : List Int}
    (hp : p = first + P.length) : Holds ⟨first, P ++ (xs.map some ++ Q)⟩ p xs := by
  induction xs generalizing P p with
  | nil => trivial
  | cons x xs ih =>
    refine ⟨read_at hp, ?_⟩
    have hp' : p + 1 = first + ((P ++ [some x]).length : Int) := by
      rw [List.length_append, List.length_singleton]
      push_cast
      omega
    have h := ih hp'
    rwa [List.append_assoc] at h

theorem holds_append {temp : Arr (Option Int)} {p : Int} {xs ys : List Int} :
    Holds temp p (xs ++ ys) ↔ Holds temp p xs ∧ Holds temp (p + xs.length) ys := by
  induction xs generalizing p with
  | nil => simp [Holds]
  | cons x xs ih =>
    have hp : p + 1 + (xs.length : Int) = p + ((x :: xs).length : Int) := by
      rw [List.length_cons]
      push_cast
      omega
    rw [List.cons_append, Holds, Holds, ih, hp, and_assoc]

/-! ## The loops -/

section
variable {f i right last middle : Int} {A B D G s X Y : List Int} {P Q R : List (Option Int)}
variable {temp : Arr (Option Int)}

theorem copyLoop_spec (hi : i = f + A.length) (hP : P.length = A.length)
    (hQ : Q.length = s.length) (hright : right + 1 = i + s.length) :
    Ends (fun fuel => copyLoop ⟨f, A ++ (s ++ B)⟩ right fuel ⟨f, P ++ (Q ++ R)⟩ i)
      ⟨f, P ++ (s.map some ++ R)⟩ := by
  induction s generalizing A P Q i with
  | nil =>
    have hstop : ¬ i ≤ right := by
      rw [List.length_nil] at hright
      omega
    obtain rfl := List.length_eq_zero_iff.1 hQ
    apply Ends.succ
    simp only [copyLoop, if_neg hstop]
    exact Ends.pure _
  | cons x s ih =>
    rw [List.length_cons] at hright hQ
    push_cast at hright
    have hgo : i ≤ right := by omega
    cases Q with
    | nil => simp at hQ
    | cons q Q =>
      apply Ends.succ
      simp only [copyLoop, if_pos hgo, List.cons_append, get_at hi,
        set_at (show i = f + (P.length : Int) by rw [hP]; exact hi), bind, Except.bind]
      have hnext := ih (A := A ++ [x]) (P := P ++ [some x]) (Q := Q) (i := i + 1)
        (by simp only [List.length_append, List.length_singleton]; push_cast; omega)
        (by simp [hP]) (by simpa using hQ) (by omega)
      simpa only [List.append_assoc, List.cons_append, List.nil_append, List.map_cons] using hnext

theorem restLoop_spec {p : Int} (hX : Holds temp p X) (hlast : last + 1 = p + X.length)
    (hi : i = f + D.length) (hG : G.length = X.length) :
    Ends (fun fuel => restLoop temp last fuel ⟨f, D ++ (G ++ B)⟩ p i)
      (⟨f, D ++ (X ++ B)⟩, i + X.length) := by
  induction X generalizing D G p i with
  | nil =>
    have hstop : ¬ p ≤ last := by
      rw [List.length_nil] at hlast
      omega
    obtain rfl := List.length_eq_zero_iff.1 hG
    apply Ends.succ
    simp only [restLoop, if_neg hstop, List.length_nil, Nat.cast_zero, add_zero]
    exact Ends.pure _
  | cons x X ih =>
    rw [List.length_cons] at hlast hG
    push_cast at hlast
    have hgo : p ≤ last := by omega
    obtain ⟨hx, hX⟩ := hX
    cases G with
    | nil => simp at hG
    | cons g G =>
      apply Ends.succ
      simp only [restLoop, if_pos hgo, hx, List.cons_append, set_at hi, bind, Except.bind]
      have hnext := ih (D := D ++ [x]) (G := G) (i := i + 1) hX (by omega)
        (by simp only [List.length_append, List.length_singleton]; push_cast; omega)
        (by simpa using hG)
      have hlen : i + 1 + (X.length : Int) = i + ((x :: X).length : Int) := by
        rw [List.length_cons]
        push_cast
        omega
      simpa only [List.append_assoc, List.cons_append, List.nil_append, hlen] using hnext

/-- What `mergeLoop` has written is the front of the merged run; what is left of the two runs is
its rest. -/
theorem mergeLoop_spec {p q : Int} (hX : Holds temp p X) (hY : Holds temp q Y)
    (hmiddle : middle + 1 = p + X.length) (hright : right + 1 = q + Y.length)
    (hi : i = f + D.length) (hG : G.length = X.length + Y.length) :
    ∃ out X' Y' G', merged X Y = out ++ (X' ++ Y') ∧ Holds temp (middle + 1 - X'.length) X' ∧
      Holds temp (right + 1 - Y'.length) Y' ∧ G'.length = X'.length + Y'.length ∧
      Ends (fun fuel => mergeLoop temp middle right fuel ⟨f, D ++ (G ++ B)⟩ p q i)
        (⟨f, D ++ (out ++ (G' ++ B))⟩, middle + 1 - X'.length, right + 1 - Y'.length,
          i + out.length) := by
  have hstop : ∀ {X Y : List Int} {p q i : Int} {D G : List Int}, (X = [] ∨ Y = []) →
      middle + 1 = p + X.length → right + 1 = q + Y.length →
      Ends (fun fuel => mergeLoop temp middle right fuel ⟨f, D ++ (G ++ B)⟩ p q i)
        (⟨f, D ++ ([] ++ (G ++ B))⟩, middle + 1 - X.length, right + 1 - Y.length,
          i + ([] : List Int).length) := by
    intro X Y p q i D G hnil hmiddle hright
    have hout : ¬ (p ≤ middle ∧ q ≤ right) := by
      rcases hnil with rfl | rfl
      · rw [List.length_nil] at hmiddle
        omega
      · rw [List.length_nil] at hright
        omega
    have hp : middle + 1 - X.length = p := by omega
    have hq : right + 1 - Y.length = q := by omega
    apply Ends.succ
    simp only [mergeLoop, if_neg hout, hp, hq, List.length_nil, Nat.cast_zero, add_zero]
    exact Ends.pure _
  have hp : ∀ {X : List Int} {p : Int}, Holds temp p X → middle + 1 = p + X.length →
      Holds temp (middle + 1 - X.length) X := by
    intro X p hX hmiddle
    rwa [hmiddle, Int.add_sub_cancel]
  have hq : ∀ {Y : List Int} {q : Int}, Holds temp q Y → right + 1 = q + Y.length →
      Holds temp (right + 1 - Y.length) Y := by
    intro Y q hY hright
    rwa [hright, Int.add_sub_cancel]
  induction X generalizing Y p q i D G with
  | nil => exact ⟨[], [], Y, G, by simp, trivial, hq hY hright, hG, hstop (.inl rfl) hmiddle hright⟩
  | cons x X ihX =>
    induction Y generalizing q i D G with
    | nil =>
      exact ⟨[], x :: X, [],
        G, by simp, hp hX hmiddle, trivial, hG, hstop (.inr rfl) hmiddle hright⟩
    | cons y Y ihY =>
      have hmid := hmiddle
      have hrig := hright
      rw [List.length_cons] at hmid hrig hG
      push_cast at hmid hrig
      have hgo : p ≤ middle ∧ q ≤ right := ⟨by omega, by omega⟩
      have hx := hX.1
      have hy := hY.1
      cases G with
      | nil => simp at hG
      | cons g G =>
        rw [List.length_cons, List.length_cons] at hG
        have hi' : ∀ z : Int, i + 1 = f + ((D ++ [z]).length : Int) := by
          intro z
          simp only [List.length_append, List.length_singleton]
          push_cast
          omega
        have hlen : ∀ (z : Int) (out : List Int),
            i + 1 + (out.length : Int) = i + ((z :: out).length : Int) := by
          intro z out
          rw [List.length_cons]
          push_cast
          omega
        by_cases hxy : x < y
        · obtain ⟨out, X', Y', G', hout, hX', hY', hG', hends⟩ :=
            ihX (D := D ++ [x]) (G := G) hX.2 hY (by omega) hright (hi' x)
              (by rw [List.length_cons]; omega)
          refine ⟨x :: out, X', Y', G', ?_, hX', hY', hG', ?_⟩
          · rw [merged_cons, if_pos hxy, hout, List.cons_append]
          · apply Ends.succ
            simp only [mergeLoop, if_pos hgo, hx, hy, if_pos hxy, List.cons_append, set_at hi, bind,
              Except.bind]
            simpa only [List.append_assoc, List.cons_append, List.nil_append,
              hlen x out] using hends
        · obtain ⟨out, X', Y', G', hout, hX', hY', hG', hends⟩ :=
            ihY (D := D ++ [y]) (G := G) hY.2 (by omega) (hi' y)
              (by rw [List.length_cons]; omega)
          refine ⟨y :: out, X', Y', G', ?_, hX', hY', hG', ?_⟩
          · rw [merged_cons, if_neg hxy, hout, List.cons_append]
          · apply Ends.succ
            simp only [mergeLoop, if_pos hgo, hx, hy, if_neg hxy, List.cons_append, set_at hi, bind,
              Except.bind]
            simpa only [List.append_assoc, List.cons_append, List.nil_append,
              hlen y out] using hends

end

/-! ## `merge` -/

section
variable {left middle right : Int} {A B xs ys : List Int} {P Q R : List (Option Int)}

/-- The bounds of `merge` for the runs `xs` and `ys` behind `A`. -/
structure Runs (A xs ys : List Int) (left middle right : Int) : Prop where
  left_eq : left = A.length
  middle_eq : middle + 1 = left + xs.length
  right_eq : right + 1 = middle + 1 + ys.length

theorem merge_spec (h : Runs A xs ys left middle right) (hP : P.length = A.length)
    (hQ : Q.length = xs.length + ys.length) :
    Ends (fun fuel => merge fuel ⟨0, A ++ ((xs ++ ys) ++ B)⟩ ⟨0, P ++ (Q ++ R)⟩ left right middle)
      (⟨0, A ++ (merged xs ys ++ B)⟩, ⟨0, P ++ ((xs ++ ys).map some ++ R)⟩) := by
  obtain ⟨hleft, hmiddle, hright⟩ := h
  have hlen : right + 1 = left + ((xs ++ ys).length : Int) := by
    rw [List.length_append]
    push_cast
    omega
  have hfilled : Holds ⟨0, P ++ ((xs ++ ys).map some ++ R)⟩ left (xs ++ ys) :=
    holds_segment (by rw [hP]; omega)
  obtain ⟨hX, hY⟩ := holds_append.1 hfilled
  rw [← hmiddle] at hY
  obtain ⟨out, X', Y', G', hout, hX', hY', hG', hloop⟩ := mergeLoop_spec (f := 0) (D := A)
    (G := xs ++ ys) (B := B) (i := left) hX hY hmiddle hright (by omega)
    (List.length_append)
  have hout_len : left + (out.length : Int) = 0 + ((A ++ out).length : Int) := by
    rw [List.length_append]
    push_cast
    omega
  -- the rests of the two runs go into what is left of the segment
  obtain ⟨G₁, G₂, rfl, hG₁⟩ : ∃ G₁ G₂, G' = G₁ ++ G₂ ∧ G₁.length = X'.length :=
    ⟨G'.take X'.length, G'.drop X'.length, (List.take_append_drop _ _).symm, by
      rw [List.length_take]; omega⟩
  rw [List.length_append] at hG'
  have hrest₁ := restLoop_spec (f := 0) (D := A ++ out) (B := G₂ ++ B) (i := left + out.length)
    hX' (show middle + 1 = _ by omega) hout_len hG₁
  have hX'_len : left + (out.length : Int) + X'.length = 0 + ((A ++ out ++ X').length : Int) := by
    rw [List.length_append]
    push_cast
    omega
  have hrest₂ := restLoop_spec (f := 0) (D := A ++ out ++ X') (B := B) (G := G₂)
    (i := left + out.length + X'.length) hY' (show right + 1 = _ by omega) hX'_len (by omega)
  rw [List.append_assoc G₁] at hloop
  rw [List.append_assoc A, List.append_assoc A] at hrest₁
  rw [List.append_assoc (A ++ out), List.append_assoc A, List.append_assoc] at hrest₂
  rw [hout]
  apply Ends.bind (copyLoop_spec (by omega) hP (by rw [hQ, List.length_append]) hlen)
  apply Ends.bind hloop
  apply Ends.bind hrest₁
  apply Ends.bind hrest₂
  simp only [List.append_assoc]
  exact Ends.pure _

end

end MergeSort
