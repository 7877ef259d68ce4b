import Mathlib.Data.List.Basic
import Mathlib.Tactic

/-!
# C arrays and the loops over them

An array of the C sources is a function from indices to values; the part of it that is in use is
the list `l` with `Rep a l`. The definitions are the loops the sources move elements with (shifts
by one, block copies, copies around a hole and past a skipped element) and `memmove`. Each loop
has an `_apply` lemma that gives its result index by index; the `Rep.` lemmas say what the loop
does to the list.
-/

namespace CArray

variable {α : Type*}

/-! ## The loops -/

/-- `for (i = hi; i > lo; i--) a[i] = a[i - 1]`. -/
def shiftUp (lo : Nat) : Nat → (Nat → α) → Nat → α
  | 0, a => a
  | i + 1, a => if lo < i + 1 then shiftUp lo i (Function.update a (i + 1) (a i)) else a

/-- `n` rounds of `a[i] = a[i + 1]; i++`. -/
def shiftDown : Nat → Nat → (Nat → α) → Nat → α
  | 0, _, a => a
  | n + 1, i, a => shiftDown n (i + 1) (Function.update a i (a (i + 1)))

/-- `n` rounds of `dst[j] = src[i]; i++; j++`. -/
def copy (src : Nat → α) : Nat → Nat → Nat → (Nat → α) → Nat → α
  | 0, _, _, dst => dst
  | n + 1, i, j, dst => copy src n (i + 1) (j + 1) (Function.update dst j (src i))

/-- `for (; i < n; j++) if (j != hole) { dst[j + o] = src[i + o]; i++; }`: the array and the last
`j`. One round passes the hole, so `n - i + 1` rounds are enough. -/
def copyHole (src : Nat → α) (o n hole : Nat) : Nat → Nat → Nat → (Nat → α) → (Nat → α) × Nat
  | 0, _, j, dst => (dst, j)
  | r + 1, i, j, dst =>
    if i < n then
      if j ≠ hole then copyHole src o n hole r (i + 1) (j + 1)
        (Function.update dst (j + o) (src (i + o)))
      else copyHole src o n hole r i (j + 1) dst
    else (dst, j)

/-- `n` rounds of `if (k != skip) { dst[j] = src[k]; j++; } k++`: the array and the last `j`. -/
def copySkip (src : Nat → α) (skip : Nat) : Nat → Nat → Nat → (Nat → α) → (Nat → α) × Nat
  | 0, _, j, dst => (dst, j)
  | n + 1, k, j, dst =>
    if k ≠ skip then copySkip src skip n (k + 1) (j + 1) (Function.update dst j (src k))
    else copySkip src skip n (k + 1) j dst

/-- `memmove(&dst[d], &src[s], n * sizeof(*src))`. -/
def memmove (dst : Nat → α) (d : Nat) (src : Nat → α) (s n : Nat) : Nat → α :=
  fun j => if d ≤ j ∧ j < d + n then src (s + (j - d)) else dst j

/-! ## The loops, index by index -/

theorem shiftUp_apply (lo hi : Nat) (a : Nat → α) (j : Nat) :
    shiftUp lo hi a j = if lo < j ∧ j ≤ hi then a (j - 1) else a j := by
  induction hi generalizing a with
  | zero => simp only [shiftUp]; rw [if_neg (by omega)]
  | succ i ih =>
    rw [shiftUp]
    split
    · rw [ih]
      rcases Nat.lt_trichotomy j (i + 1) with h | rfl | h
      · have h1 : ¬ (j = i + 1) := by omega
        have h2 : ¬ (j - 1 = i + 1) := by omega
        simp only [Function.update_apply, h1, h2, if_false]
        by_cases hj : lo < j ∧ j ≤ i
        · rw [if_pos hj, if_pos (by omega)]
        · rw [if_neg hj, if_neg (by omega)]
      · rw [if_neg (by omega), if_pos (by omega)]
        simp
      · rw [if_neg (by omega), if_neg (by omega), Function.update_apply, if_neg (by omega)]
    · rw [if_neg (by omega)]

theorem shiftDown_apply (n i : Nat) (a : Nat → α) (j : Nat) :
    shiftDown n i a j = if i ≤ j ∧ j < i + n then a (j + 1) else a j := by
  induction n generalizing a i with
  | zero => simp only [shiftDown]; rw [if_neg (by omega)]
  | succ n ih =>
    rw [shiftDown, ih]
    simp only [Function.update_apply]
    by_cases hj : j = i
    · subst hj
      rw [if_neg (by omega), if_pos rfl, if_pos (by omega)]
    · by_cases h : i ≤ j ∧ j < i + (n + 1)
      · rw [if_pos (by omega), if_neg (by omega), if_pos h]
      · rw [if_neg (by omega), if_neg hj, if_neg h]

theorem copy_apply (src : Nat → α) (n i j : Nat) (dst : Nat → α) (m : Nat) :
    copy src n i j dst m = if j ≤ m ∧ m < j + n then src (i + (m - j)) else dst m := by
  induction n generalizing i j dst with
  | zero => simp only [copy]; rw [if_neg (by omega)]
  | succ n ih =>
    rw [copy, ih]
    simp only [Function.update_apply]
    by_cases hm : m = j
    · subst hm
      rw [if_neg (by omega), if_pos rfl, if_pos (by omega), Nat.sub_self, Nat.add_zero]
    · by_cases h : j ≤ m ∧ m < j + (n + 1)
      · rw [if_pos (by omega), if_pos h, show i + 1 + (m - (j + 1)) = i + (m - j) by omega]
      · rw [if_neg (by omega), if_neg hm, if_neg h]

/-- Past the hole the loop is a plain copy. -/
theorem copyHole_past (src : Nat → α) (o n hole : Nat) (r i j : Nat) (dst : Nat → α)
    (hr : n - i ≤ r) (hj : hole < j) :
    (copyHole src o n hole r i j dst).2 = j + (n - i) ∧
      ∀ m, (copyHole src o n hole r i j dst).1 m =
        if j + o ≤ m ∧ m < j + o + (n - i) then src (i + (m - j)) else dst m := by
  induction r generalizing i j dst with
  | zero =>
    simp only [copyHole]
    exact ⟨by omega, fun m => by rw [if_neg (by omega)]⟩
  | succ r ih =>
    rw [copyHole]
    split
    · rw [if_pos (by omega)]
      obtain ⟨h1, h2⟩ := ih (i + 1) (j + 1) (Function.update dst (j + o) (src (i + o)))
        (by omega) (by omega)
      refine ⟨by omega, fun m => ?_⟩
      rw [h2]
      simp only [Function.update_apply]
      by_cases hm : m = j + o
      · subst hm
        rw [if_neg (by omega), if_pos rfl, if_pos (by omega), show i + (j + o - j) = i + o by omega]
      · by_cases h : j + o ≤ m ∧ m < j + o + (n - i)
        · rw [if_pos (by omega), if_pos h, show i + 1 + (m - (j + 1)) = i + (m - j) by omega]
        · rw [if_neg (by omega), if_neg hm, if_neg h]
    · exact ⟨by simp only; omega, fun m => by rw [if_neg (by omega)]⟩

/-- The copy around a hole: the elements before the hole keep their place, the others move up by
one, and the hole keeps what it held. -/
theorem copyHole_apply (src : Nat → α) (o n hole : Nat) (r i j : Nat) (dst : Nat → α)
    (hr : n - i < r) (hj : j ≤ hole) :
    (copyHole src o n hole r i j dst).2 =
    (if hole < j + (n - i) then j + (n - i) + 1 else j + (n - i)) ∧
      ∀ m, (copyHole src o n hole r i j dst).1 m =
        if j + o ≤ m ∧ m < hole + o ∧ m < j + o + (n - i) then src (i + (m - j))
        else if hole + o < m ∧ m ≤ j + o + (n - i) then src (i + (m - j) - 1)
        else dst m := by
  induction r generalizing i j dst with
  | zero => omega
  | succ r ih =>
    rw [copyHole]
    by_cases hi : i < n
    · rw [if_pos hi]
      by_cases hh : j = hole
      · subst hh
        rw [if_neg (by simp)]
        obtain ⟨h1, h2⟩ := copyHole_past src o n j r i (j + 1) dst (by omega) (by omega)
        refine ⟨by rw [h1, if_pos (by omega)]; omega, fun m => ?_⟩
        rw [h2, if_neg (show ¬ (j + o ≤ m ∧ m < j + o ∧ _) by omega)]
        by_cases h : j + o < m ∧ m ≤ j + o + (n - i)
        · rw [if_pos (by omega), if_pos h, show i + (m - (j + 1)) = i + (m - j) - 1 by omega]
        · rw [if_neg (by omega), if_neg h]
      · rw [if_pos hh]
        obtain ⟨h1, h2⟩ := ih (i + 1) (j + 1) (Function.update dst (j + o) (src (i + o)))
          (by omega) (by omega)
        refine ⟨by rw [h1]; split <;> split <;> omega, fun m => ?_⟩
        rw [h2]
        simp only [Function.update_apply]
        by_cases hm : m = j + o
        · subst hm
          rw [if_neg (by omega), if_neg (by omega), if_pos rfl, if_pos (by omega),
            show i + (j + o - j) = i + o by omega]
        · by_cases h : j + o ≤ m ∧ m < hole + o ∧ m < j + o + (n - i)
          · rw [if_pos (by omega), if_pos h, show i + 1 + (m - (j + 1)) = i + (m - j) by omega]
          · rw [if_neg (by omega), if_neg h]
            by_cases h' : hole + o < m ∧ m ≤ j + o + (n - i)
            · rw [if_pos (by omega), if_pos h',
                show i + 1 + (m - (j + 1)) - 1 = i + (m - j) - 1 by omega]
            · rw [if_neg (by omega), if_neg h', if_neg hm]
    · rw [if_neg hi]
      refine ⟨by simp only; split <;> omega, fun m => ?_⟩
      rw [if_neg (by omega), if_neg (by omega)]

/-- Past the skipped index the loop is a plain copy. -/
theorem copySkip_past (src : Nat → α) (skip n k j : Nat) (dst : Nat → α) (hk : skip < k) :
    (copySkip src skip n k j dst).2 = j + n ∧
      ∀ m, (copySkip src skip n k j dst).1 m =
        if j ≤ m ∧ m < j + n then src (k + (m - j)) else dst m := by
  induction n generalizing k j dst with
  | zero => exact ⟨rfl, fun m => by simp only [copySkip]; rw [if_neg (by omega)]⟩
  | succ n ih =>
    rw [copySkip, if_pos (by omega)]
    obtain ⟨h1, h2⟩ := ih (k + 1) (j + 1) (Function.update dst j (src k)) (by omega)
    refine ⟨by omega, fun m => ?_⟩
    rw [h2]
    simp only [Function.update_apply]
    by_cases hm : m = j
    · subst hm
      rw [if_neg (by omega), if_pos rfl, if_pos (by omega), Nat.sub_self, Nat.add_zero]
    · by_cases h : j ≤ m ∧ m < j + (n + 1)
      · rw [if_pos (by omega), if_pos h, show k + 1 + (m - (j + 1)) = k + (m - j) by omega]
      · rw [if_neg (by omega), if_neg hm, if_neg h]

/-- The copy of all elements but one. -/
theorem copySkip_apply (src : Nat → α) (skip n k j : Nat) (dst : Nat → α) (hk : k ≤ skip)
    (hs : skip < k + n) :
    (copySkip src skip n k j dst).2 = j + n - 1 ∧
      ∀ m, (copySkip src skip n k j dst).1 m =
        if j ≤ m ∧ m < j + (skip - k) then src (k + (m - j))
        else if j + (skip - k) ≤ m ∧ m < j + n - 1 then src (k + (m - j) + 1)
        else dst m := by
  induction n generalizing k j dst with
  | zero => omega
  | succ n ih =>
    rw [copySkip]
    by_cases hks : k = skip
    · subst hks
      rw [if_neg (by simp)]
      obtain ⟨h1, h2⟩ := copySkip_past src k n (k + 1) j dst (by omega)
      refine ⟨by omega, fun m => ?_⟩
      rw [h2, if_neg (show ¬ (j ≤ m ∧ m < j + (k - k)) by omega)]
      by_cases h : j ≤ m ∧ m < j + n
      · rw [if_pos h, if_pos (by omega), show k + 1 + (m - j) = k + (m - j) + 1 by omega]
      · rw [if_neg h, if_neg (by omega)]
    · rw [if_pos hks]
      obtain ⟨h1, h2⟩ := ih (k + 1) (j + 1) (Function.update dst j (src k)) (by omega) (by omega)
      refine ⟨by omega, fun m => ?_⟩
      rw [h2]
      simp only [Function.update_apply]
      by_cases hm : m = j
      · subst hm
        rw [if_neg (by omega), if_neg (by omega), if_pos rfl, if_pos (by omega), Nat.sub_self,
          Nat.add_zero]
      · by_cases h : j ≤ m ∧ m < j + (skip - k)
        · rw [if_pos (by omega), if_pos h, show k + 1 + (m - (j + 1)) = k + (m - j) by omega]
        · rw [if_neg (by omega), if_neg h]
          by_cases h' : j + (skip - k) ≤ m ∧ m < j + (n + 1) - 1
          · rw [if_pos (by omega), if_pos h',
              show k + 1 + (m - (j + 1)) + 1 = k + (m - j) + 1 by omega]
          · rw [if_neg (by omega), if_neg h', if_neg hm]

/-! ## Lists -/

theorem insertIdx_mid (I₁ : List α) (c x : α) (I₂ : List α) :
    (I₁ ++ c :: I₂).insertIdx (I₁.length + 1) x = I₁ ++ c :: x :: I₂ := by
  induction I₁ with
  | nil => simp
  | cons a I₁ ih => simpa using ih

theorem insertIdx_eq_append {l : List α} {i : Nat} (hi : i ≤ l.length) (x : α) :
    l.insertIdx i x = l.take i ++ x :: l.drop i := by
  induction l generalizing i with
  | nil =>
    obtain rfl := Nat.le_zero.1 hi
    rfl
  | cons a l ih =>
    cases i with
    | zero => rfl
    | succ i =>
      rw [List.insertIdx_succ_cons, ih (Nat.le_of_succ_le_succ hi)]
      rfl

theorem eraseIdx_mid (I₁ : List α) (c d : α) (I₂ : List α) :
    (I₁ ++ c :: d :: I₂).eraseIdx (I₁.length + 1) = I₁ ++ c :: I₂ := by
  induction I₁ with
  | nil => simp
  | cons a I₁ ih => simpa using ih

theorem tail_insertIdx {I : List α} (hI : I ≠ []) (i : Nat) (x : α) :
    (I.insertIdx (i + 1) x).tail = I.tail.insertIdx i x := by
  cases I with
  | nil => exact absurd rfl hI
  | cons a I => simp

theorem tail_eraseIdx (I : List α) (i : Nat) :
    (I.eraseIdx (i + 1)).tail = I.tail.eraseIdx i := by
  cases I <;> simp

theorem tail_take (I : List α) (n : Nat) : (I.take (n + 1)).tail = I.tail.take n := by
  cases I <;> simp

theorem tail_drop (I : List α) (n : Nat) : (I.drop n).tail = I.tail.drop n := by
  cases I <;> simp [List.tail_drop]

/-! ## The list in use -/

/-- The first cells of `a` hold `l`. -/
def Rep (a : Nat → α) (l : List α) : Prop := ∀ j < l.length, l[j]? = some (a j)

variable {a b c : Nat → α} {l l₁ l₂ : List α} {i j n m : Nat} {x y : α}

theorem Rep.get (h : Rep a l) (hx : l[j]? = some x) : a j = x := by
  have := h j (List.getElem?_eq_some_iff.1 hx).1
  rw [hx] at this
  exact (Option.some.inj this).symm

theorem Rep.congr (h : Rep a l) (hb : ∀ j < l.length, b j = a j) :
    Rep b l := fun j hj => by rw [hb j hj]; exact h j hj

theorem Rep.nil (a : Nat → α) : Rep a [] := fun _ h => absurd h (Nat.not_lt_zero _)

theorem Rep.cons (hx : a 0 = x) (h : Rep (fun j => a (j + 1)) l) : Rep a (x :: l)
  | 0, _ => by simp [hx]
  | j + 1, hj => by
    simp only [List.length_cons, Nat.add_lt_add_iff_right] at hj
    simpa using h j hj

theorem Rep.tail (h : Rep a (x :: l)) : Rep (fun j => a (j + 1)) l := fun j hj => by
  simpa using h (j + 1) (by simpa using hj)

theorem Rep.take (h : Rep a l) (n : Nat) : Rep a (l.take n) := by
  intro j hj
  rw [List.length_take] at hj
  rw [List.getElem?_take, if_pos (by omega)]
  exact h j (by omega)

theorem Rep.drop (h : Rep a l) (n : Nat) : Rep (fun j => a (n + j)) (l.drop n) := by
  intro j hj
  rw [List.length_drop] at hj
  rw [List.getElem?_drop]
  exact h (n + j) (by omega)

theorem Rep.append (h₁ : Rep a l₁) (h₂ : Rep (fun j => a (l₁.length + j)) l₂) :
    Rep a (l₁ ++ l₂) := by
  intro j hj
  rw [List.length_append] at hj
  by_cases hl : j < l₁.length
  · rw [List.getElem?_append_left hl]
    exact h₁ j hl
  · rw [List.getElem?_append_right (by omega), h₂ _ (by omega)]
    simp only [Nat.add_sub_cancel' (Nat.not_lt.1 hl)]

theorem Rep.left (h : Rep a (l₁ ++ l₂)) : Rep a l₁ := by
  simpa using h.take l₁.length

theorem Rep.right (h : Rep a (l₁ ++ l₂)) : Rep (fun j => a (l₁.length + j)) l₂ := by
  simpa using h.drop l₁.length

theorem Rep.update_same (h : Rep a (l₁ ++ y :: l₂)) (x : α) :
    Rep (Function.update a l₁.length x) (l₁ ++ x :: l₂) := by
  intro j hj
  have hj' : j < (l₁ ++ y :: l₂).length := by simpa using hj
  have := h j hj'
  rcases Nat.lt_trichotomy j l₁.length with hl | rfl | hl
  · rw [List.getElem?_append_left hl] at this ⊢
    rw [this, Function.update_of_ne (by omega)]
  · simp
  · rw [List.getElem?_append_right (by omega)] at this ⊢
    obtain ⟨m, hm⟩ : ∃ m, j - l₁.length = m + 1 := ⟨j - l₁.length - 1, by omega⟩
    rw [hm, List.getElem?_cons_succ] at this ⊢
    rw [this, Function.update_of_ne (by omega)]

/-- Writing behind the list in use. -/
theorem Rep.update_past (h : Rep a l) (hi : l.length ≤ i) (x : α) : Rep (Function.update a i x) l :=
  h.congr fun j hj => Function.update_of_ne (by omega) _ _

theorem Rep.snoc (h : Rep a l) (x : α) : Rep (Function.update a l.length x) (l ++ [x]) :=
  (h.update_past le_rfl x).append (Rep.cons (by simp) (Rep.nil _))

/-- The elements a loop over `n` indices from `i` on visits. -/
theorem Rep.segment (h : Rep a l) (hn : i + n ≤ l.length) :
    (List.range n).map (fun k => a (i + k)) = (l.drop i).take n := by
  apply List.ext_getElem?
  intro j
  by_cases hj : j < n
  · rw [List.getElem?_map, List.getElem?_range hj, List.getElem?_take, if_pos hj,
      List.getElem?_drop, h (i + j) (by omega), Option.map_some]
  · rw [List.getElem?_eq_none (by simp; omega), List.getElem?_eq_none (by simp; omega)]

theorem getElem?_insertIdx_lt (hi : i ≤ l.length) :
    (l.insertIdx i x)[j]? = if j < i then l[j]? else if j = i then some x else l[j - 1]? := by
  rw [List.getElem?_insertIdx]
  split
  · rfl
  · split
    · rw [if_pos (by omega)]
    · rfl

/-- An array that agrees with the insertion on its first `n` cells. -/
theorem Rep.insert_take (h : Rep a l) (hi : i ≤ l.length)
    (hc : ∀ j < n, c j = if j < i then a j else if j = i then x else a (j - 1)) :
    Rep c ((l.insertIdx i x).take n) := by
  intro j hj
  rw [List.length_take, List.length_insertIdx, if_pos hi] at hj
  rw [List.getElem?_take, if_pos (by omega), getElem?_insertIdx_lt hi, hc j (by omega)]
  split
  · exact h j (by omega)
  · split
    · rfl
    · exact h _ (by omega)

/-- An array that agrees with the insertion from cell `m` on. -/
theorem Rep.insert_drop (h : Rep a l) (hi : i ≤ l.length) (hc : ∀ j, m + j ≤ l.length →
      c j = if m + j < i then a (m + j) else if m + j = i then x else a (m + j - 1)) :
    Rep c ((l.insertIdx i x).drop m) := by
  intro j hj
  rw [List.length_drop, List.length_insertIdx, if_pos hi] at hj
  rw [List.getElem?_drop, getElem?_insertIdx_lt hi, hc j (by omega)]
  split
  · exact h _ (by omega)
  · split
    · rfl
    · exact h _ (by omega)

/-- An array that agrees with the insertion. -/
theorem Rep.insert_of (h : Rep a l) (hi : i ≤ l.length)
    (hc : ∀ j ≤ l.length, c j = if j < i then a j else if j = i then x else a (j - 1)) :
    Rep c (l.insertIdx i x) := by
  have := h.insert_take (c := c) (n := l.length + 1) (x := x) hi fun j hj => hc j (by omega)
  rwa [List.take_of_length_le (by rw [List.length_insertIdx, if_pos hi])] at this

/-- The shift that opens a gap, and the write into it. -/
theorem Rep.insert_shiftUp (h : Rep a l) (i hi : Nat) (x : α) (hl : i ≤ l.length) :
    Rep (Function.update (shiftUp i hi a) i x) ((l.insertIdx i x).take (hi + 1)) := by
  refine h.insert_take hl fun j hj => ?_
  rw [Function.update_apply, shiftUp_apply]
  by_cases hji : j < i
  · rw [if_neg (by omega), if_neg (by omega), if_pos hji]
  · rw [if_neg hji]
    split
    · rfl
    · rw [if_pos (by omega)]

theorem Rep.insert (h : Rep a l) (x : α) (hl : i ≤ l.length) :
    Rep (Function.update (shiftUp i l.length a) i x) (l.insertIdx i x) := by
  have := h.insert_shiftUp i l.length x hl
  rwa [List.take_of_length_le (by rw [List.length_insertIdx, if_pos hl])] at this

/-- An array that agrees with the removal. -/
theorem Rep.erase_of (h : Rep a l) (hi : i < l.length)
    (hc : ∀ j, j + 1 < l.length → c j = if j < i then a j else a (j + 1)) :
    Rep c (l.eraseIdx i) := by
  intro j hj
  rw [List.length_eraseIdx, if_pos hi] at hj
  rw [List.getElem?_eraseIdx, hc j (by omega)]
  split
  · exact h j (by omega)
  · exact h (j + 1) (by omega)

/-- The shift that closes a gap. -/
theorem Rep.erase (h : Rep a l) (hi : i < l.length) :
    Rep (shiftDown (l.length - 1 - i) i a) (l.eraseIdx i) := by
  refine h.erase_of hi fun j hj => ?_
  rw [shiftDown_apply]
  split
  · rw [if_neg (by omega)]
  · rw [if_pos (by omega)]

/-- An array that holds one list behind another. -/
theorem Rep.append_of (h₁ : Rep a l₁) (h₂ : Rep b l₂) (hc₁ : ∀ j < l₁.length, c j = a j)
    (hc₂ : ∀ j < l₂.length, c (l₁.length + j) = b j) : Rep c (l₁ ++ l₂) :=
  (h₁.congr hc₁).append (h₂.congr hc₂)

/-- Copying a whole list behind another one. -/
theorem Rep.append_copy (h₁ : Rep a l₁) (h₂ : Rep b l₂) :
    Rep (copy b l₂.length 0 l₁.length a) (l₁ ++ l₂) := by
  refine h₁.append_of h₂ (fun j hj => ?_) fun j hj => ?_
  · rw [copy_apply, if_neg (by omega)]
  · rw [copy_apply, if_pos (by omega), show 0 + (l₁.length + j - l₁.length) = j by omega]

/-- Copying a list without one element behind another one. -/
theorem Rep.append_copySkip (h₁ : Rep a l₁) (h₂ : Rep b l₂) (hi : i < l₂.length) :
    Rep (copySkip b i l₂.length 0 l₁.length a).1 (l₁ ++ l₂.eraseIdx i) := by
  have hc := (copySkip_apply b i l₂.length 0 l₁.length a (Nat.zero_le _) (by omega)).2
  refine Rep.append (h₁.congr fun j hj => ?_) fun j hj => ?_
  · rw [hc, if_neg (by omega), if_neg (by omega)]
  · rw [List.length_eraseIdx, if_pos hi] at hj
    simp only
    rw [hc, List.getElem?_eraseIdx]
    split
    · rw [if_pos (by omega), show 0 + (l₁.length + j - l₁.length) = j by omega]
      exact h₂ j (by omega)
    · rw [if_neg (by omega), if_pos (by omega), show 0 + (l₁.length + j - l₁.length) + 1 =
        j + 1 by omega]
      exact h₂ (j + 1) (by omega)

end CArray
