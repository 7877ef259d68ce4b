import DsAlgor.Class5.BinarySearch
import Mathlib.Data.List.Rotate

/-!
# `rotate_array_search.c`

The search in a rotated array, as a loop and as a recursion. In an array that is ascending up to a
cut and ascending from there on, with everything behind the cut smaller than everything in front of
it (`Rotated`), the half of a range that does not have the cut inside is known from its ends
(`Rotated.lower`, `Rotated.upper`). Both searches keep the half in which the key may be.
-/

namespace Class5

open Checked

/-- The loop of `rotated_binary_search`. -/
def rotatedLoop (A : Arr Int) (key : Int) : Nat → Int → Int → Except Fault Int
  | 0, _, _ => .error .loop
  | fuel + 1, L, R =>
    if L ≤ R then do
      let M := L + ((R - L) >>> (1 : Nat))
      let x ← A.get M
      if x = key then return M
      else do
        let lowest ← A.get L
        if lowest ≤ x then
          if lowest ≤ key ∧ key < x then rotatedLoop A key fuel L (M - 1)
          else rotatedLoop A key fuel (M + 1) R
        else do
          let highest ← A.get R
          if x < key ∧ key ≤ highest then rotatedLoop A key fuel (M + 1) R
          else rotatedLoop A key fuel L (M - 1)
    else return -1

def rotatedBinarySearch (fuel : Nat) (A : Arr Int) (N key : Int) : Except Fault Int :=
  rotatedLoop A key fuel 0 (N - 1)

def searchInRotatedArrayHelper : Nat → Arr Int → Int → Int → Int → Except Fault Int
  | 0, _, _, _, _ => .error .loop
  | fuel + 1, array, left, right, target =>
    if left > right then return -1
    else do
      let mid := right - (right - left).tdiv 2
      let x ← array.get mid
      if x = target then return mid
      else do
        let lowest ← array.get left
        if lowest ≤ x then
          if target ≥ lowest ∧ target ≤ x then
            searchInRotatedArrayHelper fuel array left (mid - 1) target
          else searchInRotatedArrayHelper fuel array (mid + 1) right target
        else do
          let highest ← array.get right
          if target ≥ x ∧ target ≤ highest then
            searchInRotatedArrayHelper fuel array (mid + 1) right target
          else searchInRotatedArrayHelper fuel array left (mid - 1) target

def searchInRotatedArray (fuel : Nat) (array : Arr Int) (n target : Int) : Except Fault Int :=
  searchInRotatedArrayHelper fuel array 0 (n - 1) target

/-! ## Rotated arrays -/

/-- Two elements are in order, unless the cut is between them. -/
def Rotated (c : Nat) (a : List Int) : Prop :=
  ∀ ⦃i j : Nat⦄ ⦃x y : Int⦄, i < j → a[i]? = some x → a[j]? = some y →
    i < c ∧ c ≤ j ∧ y < x ∨ (j < c ∨ c ≤ i) ∧ x < y

theorem rotated_append {u v : List Int} (h : (v ++ u).Pairwise (· < ·)) :
    Rotated u.length (u ++ v) := by
  obtain ⟨hv, hu, hvu⟩ := List.pairwise_append.1 h
  intro i j x y hij hi hj
  by_cases hj' : j < u.length
  · rw [List.getElem?_append_left hj'] at hj
    rw [List.getElem?_append_left (hij.trans hj')] at hi
    exact .inr ⟨.inl hj', ascending hu hij hi hj⟩
  · rw [List.getElem?_append_right (by omega)] at hj
    by_cases hi' : i < u.length
    · rw [List.getElem?_append_left hi'] at hi
      exact .inl ⟨hi', by omega, hvu y (List.mem_of_getElem? hj) x (List.mem_of_getElem? hi)⟩
    · rw [List.getElem?_append_right (by omega)] at hi
      exact .inr ⟨.inr (by omega), ascending hv (by omega) hi hj⟩

theorem rotated_of_isRotated {s a : List Int} (hs : s.Pairwise (· < ·)) (h : s.IsRotated a) :
    ∃ c, Rotated c a := by
  obtain ⟨n, hn, rfl⟩ := List.isRotated_iff_mod.1 h
  rw [List.rotate_eq_drop_append_take hn]
  refine ⟨_, rotated_append ?_⟩
  rwa [List.take_append_drop]

section
variable {a : List Int} {c lo mid hi : Nat} {key l x r : Int}
variable (h : Rotated c a) (hle : lo ≤ mid) (hm : a[mid]? = some x) (hx : x ≠ key)
variable (hin : Inside a key lo hi)
include h hle hm hx hin

/-- The lower half is in order. -/
theorem Rotated.lower (hl : a[lo]? = some l) (hlx : l ≤ x) :
    (l ≤ key ∧ key ≤ x → Inside a key lo mid) ∧
    (¬ (l ≤ key ∧ key ≤ x) → Inside a key (mid + 1) hi) := by
  refine ⟨fun hkey i hi => ⟨(hin i hi).1, Nat.lt_of_not_le fun hmi => ?_⟩,
    fun hkey i hi => ⟨Nat.lt_of_not_le fun him => ?_, (hin i hi).2⟩⟩
  · have hne : mid ≠ i := fun heq => hx (Option.some.inj (hm.symm.trans (heq ▸ hi)))
    have hmid := h (show mid < i by omega) hm hi
    have hlow := h (show lo < i by omega) hl hi
    omega
  · have hne : i ≠ mid := fun heq => hx (Option.some.inj (hm.symm.trans (heq ▸ hi)))
    have hmid := h (show i < mid by omega) hi hm
    have hends := h (show lo < mid by have := (hin i hi).1; omega) hl hm
    rcases Nat.lt_or_eq_of_le (hin i hi).1 with hli | rfl
    · have hlow := h hli hl hi
      omega
    · have heq : l = key := Option.some.inj (hl.symm.trans hi)
      omega

/-- The upper half is in order. -/
theorem Rotated.upper (hlt : mid < hi) (hl : a[lo]? = some l) (hr : a[hi - 1]? = some r)
    (hxl : ¬ l ≤ x) :
    (x ≤ key ∧ key ≤ r → Inside a key (mid + 1) hi) ∧
    (¬ (x ≤ key ∧ key ≤ r) → Inside a key lo mid) := by
  have hlm : lo < mid := by
    rcases Nat.lt_or_eq_of_le hle with hlm | rfl
    · exact hlm
    · exact absurd (Option.some.inj (hl.symm.trans hm)).le hxl
  have hends := h hlm hl hm
  refine ⟨fun hkey i hi' => ⟨Nat.lt_of_not_le fun him => ?_, (hin i hi').2⟩,
    fun hkey i hi' => ⟨(hin i hi').1, Nat.lt_of_not_le fun hmi => ?_⟩⟩
  · have hne : i ≠ mid := fun heq => hx (Option.some.inj (hm.symm.trans (heq ▸ hi')))
    have hmid := h (show i < mid by omega) hi' hm
    have hhigh := h (show i < hi - 1 by omega) hi' hr
    omega
  · have hne : mid ≠ i := fun heq => hx (Option.some.inj (hm.symm.trans (heq ▸ hi')))
    have hmid := h (show mid < i by omega) hm hi'
    rcases Nat.lt_or_eq_of_le (Nat.le_sub_one_of_lt (hin i hi').2) with hih | rfl
    · have hhigh := h hih hi' hr
      omega
    · have heq : r = key := Option.some.inj (hr.symm.trans hi')
      omega

end

/-! ## The searches -/

section
variable {a : List Int} {c : Nat} {key : Int}

/-- A search that stops at the key, and else goes on with the half in which the key may be. -/
structure Searches (a : List Int) (key : Int) (search : Nat → Int → Int → Except Fault Int) :
    Prop where
  empty : ∀ fuel lo : Nat, search (fuel + 1) lo ((lo : Int) - 1) = .ok (-1)
  step : ∀ {lo hi : Nat}, lo < hi → hi ≤ a.length →
    ∃ (mid : Nat) (l x r : Int), lo ≤ mid ∧ mid < hi ∧ a[lo]? = some l ∧ a[mid]? = some x ∧
      a[hi - 1]? = some r ∧ ∀ fuel, search (fuel + 1) lo ((hi : Int) - 1) =
        if x = key then .ok (mid : Int)
        else if l ≤ x then
          if l ≤ key ∧ key ≤ x then search fuel lo ((mid : Int) - 1)
          else search fuel ((mid : Int) + 1) ((hi : Int) - 1)
        else if x ≤ key ∧ key ≤ r then search fuel ((mid : Int) + 1) ((hi : Int) - 1)
        else search fuel lo ((mid : Int) - 1)

theorem Searches.ends {search : Nat → Int → Int → Except Fault Int} (hs : Searches a key search)
    (h : Rotated c a) (n : Nat) {lo hi : Nat} (hn : hi - lo ≤ n) (hle : lo ≤ hi)
    (hlen : hi ≤ a.length) (hin : Inside a key lo hi) :
    ∃ i, Ends (fun fuel => search fuel lo ((hi : Int) - 1)) i ∧ IsIndex a key i := by
  induction n generalizing lo hi with
  | zero =>
    obtain rfl : lo = hi := by omega
    refine ⟨-1, ?_, .inr ⟨not_mem_of_inside hin, rfl⟩⟩
    apply Ends.succ
    simp only [hs.empty]
    exact Ends.pure _
  | succ n ih =>
    rcases Nat.lt_or_eq_of_le hle with hlt | rfl
    · obtain ⟨mid, l, x, r, hlm, hmh, hl, hm, hr, heq⟩ := hs.step hlt hlen
      have hlower : Inside a key lo mid →
          ∃ i, Ends (fun fuel => search fuel lo ((mid : Int) - 1)) i ∧ IsIndex a key i :=
        fun hin => ih (by omega) hlm (by omega) hin
      have hupper : Inside a key (mid + 1) hi →
          ∃ i, Ends (fun fuel => search fuel ((mid : Int) + 1) ((hi : Int) - 1)) i ∧
            IsIndex a key i := fun hin => by
        have hrest := ih (by omega) hmh hlen hin
        rwa [Nat.cast_succ] at hrest
      have hround : ∀ {i}, Ends (fun fuel => search (fuel + 1) lo ((hi : Int) - 1)) i →
          Ends (fun fuel => search fuel lo ((hi : Int) - 1)) i := fun hends => hends.succ
      simp only [heq] at hround
      by_cases hx : x = key
      · refine ⟨mid, hround ?_, .inl ⟨mid, hx ▸ hm, rfl⟩⟩
        simp only [if_pos hx]
        exact Ends.pure _
      · simp only [if_neg hx] at hround
        by_cases hlx : l ≤ x
        · have hhalf := h.lower hlm hm hx hin hl hlx
          simp only [if_pos hlx] at hround
          by_cases hkey : l ≤ key ∧ key ≤ x
          · obtain ⟨i, hends, hi⟩ := hlower (hhalf.1 hkey)
            simp only [if_pos hkey] at hround
            exact ⟨i, hround hends, hi⟩
          · obtain ⟨i, hends, hi⟩ := hupper (hhalf.2 hkey)
            simp only [if_neg hkey] at hround
            exact ⟨i, hround hends, hi⟩
        · have hhalf := h.upper hlm hm hx hin hmh hl hr hlx
          simp only [if_neg hlx] at hround
          by_cases hkey : x ≤ key ∧ key ≤ r
          · obtain ⟨i, hends, hi⟩ := hupper (hhalf.1 hkey)
            simp only [if_pos hkey] at hround
            exact ⟨i, hround hends, hi⟩
          · obtain ⟨i, hends, hi⟩ := hlower (hhalf.2 hkey)
            simp only [if_neg hkey] at hround
            exact ⟨i, hround hends, hi⟩
    · exact ih (by omega) hle hlen hin

/-- The elements that a round may look at. -/
theorem exists_get {lo mid hi : Nat} (hlo : lo ≤ mid) (hhi : mid < hi) (hlen : hi ≤ a.length) :
    ∃ l x r, (a[lo]? = some l ∧ a[mid]? = some x ∧ a[hi - 1]? = some r) ∧
      (⟨0, a⟩ : Arr Int).get lo = .ok l ∧ (⟨0, a⟩ : Arr Int).get mid = .ok x ∧
        (⟨0, a⟩ : Arr Int).get ((hi : Int) - 1) = .ok r := by
  have hlast : (hi : Int) - 1 = (hi - 1 : Nat) := by omega
  have hget : ∀ k, ∀ hk : k < a.length, a[k]? = some a[k] ∧
      (⟨0, a⟩ : Arr Int).get k = .ok a[k] := fun k hk =>
    ⟨List.getElem?_eq_getElem hk, get_nat (List.getElem?_eq_getElem hk)⟩
  obtain ⟨hl, hget_l⟩ := hget lo (by omega)
  obtain ⟨hx, hget_x⟩ := hget mid (by omega)
  obtain ⟨hr, hget_r⟩ := hget (hi - 1) (by omega)
  rw [hlast]
  exact ⟨_, _, _, ⟨hl, hx, hr⟩, hget_l, hget_x, hget_r⟩

theorem rotatedLoop_searches (a : List Int) (key : Int) :
    Searches a key (rotatedLoop ⟨0, a⟩ key) := by
  refine ⟨fun fuel lo => ?_, fun {lo hi} hlt hlen => ?_⟩
  · have hno : ¬ (lo : Int) ≤ lo - 1 := by omega
    rw [rotatedLoop, if_neg hno]
    rfl
  · obtain ⟨mid, hmid⟩ : ∃ mid, mid = lo + (hi - 1 - lo) / 2 := ⟨_, rfl⟩
    have hmid_eq : (lo : Int) + (((hi : Int) - 1 - lo) >>> (1 : Nat)) = mid := by
      rw [Int.shiftRight_eq_div_pow]
      omega
    have hle : (lo : Int) ≤ hi - 1 := by omega
    have hlo : lo ≤ mid := by omega
    have hhi : mid < hi := by omega
    obtain ⟨l, x, r, ⟨hl, hx, hr⟩, hget_l, hget_x, hget_r⟩ := exists_get hlo hhi hlen
    refine ⟨mid, l, x, r, hlo, hhi, hl, hx, hr, fun fuel => ?_⟩
    simp only [rotatedLoop, if_pos hle, hmid_eq, hget_l, hget_x, hget_r, bind, Except.bind]
    by_cases hkey : x = key
    · rw [if_pos hkey, if_pos hkey]
      rfl
    · have hlow : (l ≤ key ∧ key < x) = (l ≤ key ∧ key ≤ x) := propext (by omega)
      have hhigh : (x < key ∧ key ≤ r) = (x ≤ key ∧ key ≤ r) := propext (by omega)
      simp only [if_neg hkey, hlow, hhigh]

theorem helper_searches (a : List Int) (target : Int) :
    Searches a target fun fuel left right =>
      searchInRotatedArrayHelper fuel ⟨0, a⟩ left right target := by
  refine ⟨fun fuel lo => ?_, fun {lo hi} hlt hlen => ?_⟩
  · have hgt : (lo : Int) > lo - 1 := by omega
    simp only [searchInRotatedArrayHelper, if_pos hgt]
    rfl
  · obtain ⟨mid, hmid⟩ : ∃ mid, mid = hi - 1 - (hi - 1 - lo) / 2 := ⟨_, rfl⟩
    have hmid_eq : (hi : Int) - 1 - ((hi : Int) - 1 - lo).tdiv 2 = mid := by
      rw [Int.tdiv_eq_ediv_of_nonneg (by omega)]
      omega
    have hgt : ¬ (lo : Int) > hi - 1 := by omega
    have hlo : lo ≤ mid := by omega
    have hhi : mid < hi := by omega
    obtain ⟨l, x, r, ⟨hl, hx, hr⟩, hget_l, hget_x, hget_r⟩ := exists_get hlo hhi hlen
    refine ⟨mid, l, x, r, hlo, hhi, hl, hx, hr, fun fuel => ?_⟩
    simp only [searchInRotatedArrayHelper, if_neg hgt, hmid_eq, hget_l, hget_x, hget_r, bind,
      Except.bind]
    rfl

end

/-- Both searches find the key in every rotation of an ascending array. -/
theorem rotated_search {s a : List Int} {key : Int} (hs : s.Pairwise (· < ·))
    (h : s.IsRotated a) :
    ∃ r, Ends (fun fuel => rotatedBinarySearch fuel ⟨0, a⟩ a.length key) r ∧
      Ends (fun fuel => searchInRotatedArray fuel ⟨0, a⟩ a.length key) r ∧ IsIndex a key r := by
  obtain ⟨c, hc⟩ := rotated_of_isRotated hs h
  obtain ⟨r, hends, hr⟩ := (rotatedLoop_searches a key).ends hc a.length (Nat.sub_le ..)
    (Nat.zero_le _) le_rfl inside_all
  obtain ⟨r', hends', hr'⟩ := (helper_searches a key).ends hc a.length (Nat.sub_le ..)
    (Nat.zero_le _) le_rfl inside_all
  have hnodup : a.Nodup := h.nodup_iff.1 (hs.imp fun hlt => ne_of_lt hlt)
  obtain rfl : r' = r := isIndex_unique hnodup hr' hr
  exact ⟨r', hends, hends', hr⟩

theorem rotated_search_five :
    ∃ r, Ends (fun fuel => rotatedBinarySearch fuel ⟨0, [4, 5, 1, 2, 3]⟩ (5 : Nat) 5) r ∧
      Ends (fun fuel => searchInRotatedArray fuel ⟨0, [4, 5, 1, 2, 3]⟩ (5 : Nat) 5) r ∧
      IsIndex [4, 5, 1, 2, 3] 5 r :=
  rotated_search (s := [1, 2, 3, 4, 5]) (by decide) ⟨3, rfl⟩

end Class5
