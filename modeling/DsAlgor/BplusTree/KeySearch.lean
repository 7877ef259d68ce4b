import DsAlgor.BplusTree.Search
import DsAlgor.Lib.CInt
import DsAlgor.Lib.Grid
import DsAlgor.Lib.Signed

/-!
# `key_binary_search` on an array

The search on an array of any length, with checked accesses and 32 bits for the difference of the
bounds. Up to length `INT_MAX - 1` it is the search in the nodes (`keyBinarySearch_ends`); on
`INT_MAX` keys the first difference `high - low` overflows, and the first access is outside.
-/

namespace BplusTree.KeySearch

open Checked Grid
open Signed (intMax)

/-! ## The search -/

section
variable (arr : Arr Int) (target : Int)

/-- The loop; the result is the final `high`. -/
def searchLoop : Nat → Int → Int → Except Checked.Fault Int
  | 0, _, _ => .error .loop
  | fuel + 1, low, high =>
    if low + 1 < high then do
      let mid := low + (int32 (high - low)).tdiv 2
      if target > (← arr.get mid) then searchLoop fuel mid high else searchLoop fuel low mid
    else return high

def keyBinarySearch (len : Nat) (fuel : Nat) : Except Checked.Fault Int := do
  let high ← searchLoop arr target fuel (-1) len
  if high ≥ len then return -high - 1
  else if (← arr.get high) ≠ target then return -high - 1
  else return high

end

/-- The index of `target`, or `-p - 1` where `p` elements are smaller. -/
structure Answers (arr : List Int) (target r : Int) : Prop where
  found : target ∈ arr → ∃ i : Nat, r = i ∧ arr[i]? = some target
  absent : target ∉ arr → r = -(arr.countP (· < target) : Nat) - 1
  nonneg : 0 ≤ r ↔ target ∈ arr
  insert : target ∉ arr → (arr.insertIdx (-r - 1).toNat target).Pairwise (· < ·)

/-- The search ends, without an access outside, and answers. -/
def Searches (arr : List Int) (target : Int) : Prop :=
  ∃ r, Ends (keyBinarySearch ⟨0, arr⟩ target arr.length) r ∧ Answers arr target r

/-! ## The search in the nodes -/

section
variable {n : Nat} {f : Nat → Int} {target : Int}

/-- The loop does what that of the nodes does. -/
theorem searchLoop_eq (hn : (n : Int) < intMax) {fuel : Nat} {low high : Int} (hlow : -1 ≤ low)
    (hlt : low < high) (hhigh : high ≤ n) (hfuel : high - low ≤ fuel) :
    searchLoop ⟨0, gridRow n f⟩ target fuel low high =
      .ok (keyBinarySearchLoop f target fuel low high) := by
  induction fuel generalizing low high with
  | zero => omega
  | succ fuel ih =>
    rw [searchLoop, keyBinarySearchLoop]
    by_cases hmore : low + 1 < high
    · have hdiff : int32 (high - low) = high - low := by
        have hnat := int32_natCast (n := (high - low).toNat) (by unfold intMax at hn; omega)
        rwa [Int.toNat_of_nonneg (by omega)] at hnat
      have hhalf : (high - low).tdiv 2 = (high - low) / 2 :=
        Int.tdiv_eq_ediv_of_nonneg (by omega)
      rw [if_pos hmore, if_pos hmore, hdiff, hhalf]
      obtain ⟨mid, hmid⟩ : ∃ mid : Nat, (mid : Int) = low + (high - low) / 2 :=
        ⟨(low + (high - low) / 2).toNat, Int.toNat_of_nonneg (by omega)⟩
      have hget : Arr.get ⟨0, gridRow n f⟩ mid = .ok (f mid) := get_gridRow (by omega)
      simp only [← hmid, hget, ok_bind, Int.toNat_natCast]
      split
      · exact ih (by omega) (by omega) hhigh (by omega)
      · exact ih hlow (by omega) (by omega) (by omega)
    · rw [if_neg hmore, if_neg hmore]
      rfl

/-- Any array shorter than `INT_MAX` is searched as the nodes are. -/
theorem keyBinarySearch_ends {p : Nat} (hn : (n : Int) < intMax) (hp : p ≤ n)
    (h : ∀ m < n, f m < target ↔ m < p) :
    Ends (keyBinarySearch ⟨0, gridRow n f⟩ target n) (BplusTree.keyBinarySearch f n target) := by
  refine ⟨n + 1, fun fuel hfuel => ?_⟩
  have hloop : searchLoop ⟨0, gridRow n f⟩ target fuel (-1) n = .ok (p : Int) := by
    rw [searchLoop_eq hn le_rfl (by omega) le_rfl (by omega),
      keyBinarySearchLoop_eq hp h fuel (-1) n le_rfl (by omega) (by omega) le_rfl (by omega)]
  rw [keyBinarySearch, hloop, ok_bind, keyBinarySearch_eq hp h]
  by_cases hend : p < n
  · have hget : Arr.get ⟨0, gridRow n f⟩ p = .ok (f p) := get_gridRow hend
    rw [if_neg (by omega), hget, ok_bind]
    by_cases hfound : f p = target
    · rw [if_neg (not_not.2 hfound), if_pos ⟨hend, hfound⟩]
      rfl
    · rw [if_pos hfound, if_neg fun hc => hfound hc.2]
      rfl
  · rw [if_pos (by omega), if_neg fun hc => hend hc.1]
    rfl

end

/-! ## Every array -/

section
variable {arr : List Int} {target : Int}

/-- The elements below `target` are the first ones. -/
theorem lt_iff_countP (h : arr.Pairwise (· < ·)) {m : Nat} (hm : m < arr.length) :
    arr[m] < target ↔ m < arr.countP (· < target) := by
  induction arr generalizing m with
  | nil => cases hm
  | cons x arr ih =>
    obtain ⟨hx, h⟩ := List.pairwise_cons.1 h
    by_cases hlt : x < target
    · rw [List.countP_cons_of_pos (by simpa)]
      cases m with
      | zero => simpa using hlt
      | succ m => 
        rw [List.getElem_cons_succ, ih h, Nat.succ_lt_succ_iff]
    · have hge : ∀ y ∈ x :: arr, ¬ y < target := by
        intro y hy
        cases List.mem_cons.1 hy with
        | inl heq => exact heq ▸ hlt
        | inr hy => exact fun hlt' => hlt ((hx y hy).trans hlt')
      have hzero : (x :: arr).countP (· < target) = 0 :=
        List.countP_eq_zero.2 fun y hy => by simpa using hge y hy
      rw [hzero]
      exact iff_of_false (hge _ (List.getElem_mem hm)) (Nat.not_lt_zero m)

/-- The element at that place is `target`, or there is none. -/
theorem mem_iff_countP (h : arr.Pairwise (· < ·)) :
    target ∈ arr ↔ arr[arr.countP (· < target)]? = some target := by
  refine ⟨fun hmem => ?_, List.mem_of_getElem?⟩
  obtain ⟨i, hi, rfl⟩ := List.getElem_of_mem hmem
  have hcount : arr.countP (· < arr[i]) = i := by
    refine le_antisymm (not_lt.1 fun hlt => ?_) (not_lt.1 fun hlt => ?_)
    · exact lt_irrefl _ ((lt_iff_countP h hi).2 hlt)
    · have hbefore := (List.pairwise_iff_getElem.1 h) _ _ (by omega) hi hlt
      exact lt_irrefl _ ((lt_iff_countP h (by omega)).1 hbefore)
  rw [hcount, List.getElem?_eq_getElem hi]

/-- A missing `target` goes to that place. -/
theorem pairwise_insertIdx (h : arr.Pairwise (· < ·)) (hmem : target ∉ arr) :
    (arr.insertIdx (arr.countP (· < target)) target).Pairwise (· < ·) := by
  induction arr with
  | nil => simp
  | cons x arr ih =>
    obtain ⟨hx, h⟩ := List.pairwise_cons.1 h
    rw [List.mem_cons, not_or] at hmem
    by_cases hlt : x < target
    · rw [List.countP_cons_of_pos (by simpa), List.insertIdx_succ_cons]
      refine List.pairwise_cons.2 ⟨fun y hy => ?_, ih h hmem.2⟩
      cases List.eq_or_mem_of_mem_insertIdx hy with
      | inl heq => exact heq ▸ hlt
      | inr hy => exact hx y hy
    · have hxt : target < x := lt_of_le_of_ne (not_lt.1 hlt) hmem.1
      have hzero : (x :: arr).countP (· < target) = 0 := by
        refine List.countP_eq_zero.2 fun y hy => ?_
        cases List.mem_cons.1 hy with
        | inl heq => simpa [heq] using hlt
        | inr hy => simpa using (hxt.trans (hx y hy)).le
      rw [hzero, List.insertIdx_zero]
      refine List.pairwise_cons.2 ⟨fun y hy => ?_, List.pairwise_cons.2 ⟨hx, h⟩⟩
      cases List.mem_cons.1 hy with
      | inl heq => exact heq ▸ hxt
      | inr hy => exact hxt.trans (hx y hy)

/-- The search is right up to `INT_MAX - 1` keys. -/
theorem searches_of_lt (h : arr.Pairwise (· < ·)) (hn : (arr.length : Int) < intMax) :
    Searches arr target := by
  obtain ⟨f, hf⟩ := exists_gridRow arr
  have hget : ∀ m < arr.length, arr[m]? = some (f m) := by
    intro m hm
    rw [hf]
    simp [gridRow, hm]
  have hbelow : ∀ m < arr.length, f m < target ↔ m < arr.countP (· < target) := by
    intro m hm
    rw [← lt_iff_countP h hm, (List.getElem_eq_iff hm).2 (hget m hm)]
  have hends := keyBinarySearch_ends hn List.countP_le_length hbelow
  rw [← hf] at hends
  refine ⟨_, hends, ?_⟩
  rw [keyBinarySearch_eq List.countP_le_length hbelow]
  by_cases hmem : target ∈ arr
  · have hat := (mem_iff_countP h).1 hmem
    obtain ⟨hlt, -⟩ := List.getElem?_eq_some_iff.1 hat
    have hval : f (arr.countP (· < target)) = target :=
      Option.some.inj ((hget _ hlt).symm.trans hat)
    rw [if_pos ⟨hlt, hval⟩]
    exact ⟨fun _ => ⟨_, rfl, hat⟩, fun hno => absurd hmem hno,
      iff_of_true (Int.natCast_nonneg _) hmem, fun hno => absurd hmem hno⟩
  · rw [if_neg fun hat => hmem ((mem_iff_countP h).2 ((hget _ hat.1).trans (congrArg _ hat.2)))]
    refine ⟨fun hyes => absurd hyes hmem, fun _ => rfl, iff_of_false (by omega) hmem, fun _ => ?_⟩
    have hplace : (-(-((arr.countP (· < target) : Nat) : Int) - 1) - 1).toNat =
        arr.countP (· < target) := by omega
    rw [hplace]
    exact pairwise_insertIdx h hmem

/-- On `INT_MAX` keys the first access is in front of the array. -/
theorem not_searches (hn : (arr.length : Int) = intMax) : ¬ Searches arr target := by
  rintro ⟨r, ⟨n, hends⟩, -⟩
  have hfail : ∀ fuel, searchLoop ⟨0, arr⟩ target (fuel + 1) (-1) arr.length =
      .error .outOfBounds := by
    intro fuel
    rw [searchLoop, hn]
    rfl
  have hrun := hends (n + 1) (Nat.le_succ n)
  rw [keyBinarySearch, hfail] at hrun
  cases hrun

theorem searches_iff (h : arr.Pairwise (· < ·)) (hlen : (arr.length : Int) ≤ intMax) :
    Searches arr target ↔ (arr.length : Int) < intMax := by
  refine ⟨fun hs => lt_of_le_of_ne hlen fun heq => not_searches heq hs, searches_of_lt h⟩

theorem searches_iff_three : Searches [1, 3, 5] 4 ↔ (3 : Int) < intMax :=
  searches_iff (by decide) (by decide)

/-- The keys `0, 1, …, INT_MAX - 1`. -/
def fullArray : List Int := gridRow 2147483647 fun i => i

theorem not_searches_full : fullArray.Pairwise (· < ·) ∧ (∀ x ∈ fullArray, 0 ≤ x ∧ x < intMax) ∧
    (fullArray.length : Int) = intMax ∧ ¬ Searches fullArray 0 := by
  have hlen : (fullArray.length : Int) = intMax := by
    rw [fullArray, length_gridRow]
    rfl
  refine ⟨?_, fun x hx => ?_, hlen, not_searches hlen⟩
  · exact List.pairwise_map.2 (List.pairwise_lt_range.imp fun hlt => Int.ofNat_lt.2 hlt)
  · obtain ⟨i, hi, rfl⟩ := List.mem_map.1 hx
    have hlt := List.mem_range.1 hi
    unfold intMax
    omega

end

end BplusTree.KeySearch
