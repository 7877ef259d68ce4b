import DsAlgor.Lib.CInt
import DsAlgor.Lib.Grid
import Mathlib.Data.Finset.Insert

/-!
# Three numbers with a given sum

`find_triplets` and `three_sum`; what the latter prints is left out. The scan of a sorted array
moves both ends inwards. A pair that it leaves behind has another sum, or the same numbers as a
triplet that was found (`Scanned`). The hash table of `three_sum` has the last index of each number.

`find_triplets` takes the size of the vector for an `int`, and only sees the numbers of which there
are that many (`findsTriplets_iff`); `three_sum` is given the size as an `int`.
-/

namespace ThreeSum

open Checked Grid

/-! ## The two programs -/

section
variable (arr : Arr Int)

/-- The `while` loop for the index `i`. -/
def scan (i : Nat) : Nat → Int → Int → Finset (List Int) → Except Fault (Finset (List Int))
  | 0, _, _, _ => .error .loop
  | fuel + 1, j, k, triplets =>
    if j < k then do
      let x ← arr.get i
      let y ← arr.get j
      let z ← arr.get k
      let sumTwo := int32 (x + y)
      if int32 (sumTwo + z) < 0 then scan i fuel (j + 1) k triplets
      else if int32 (sumTwo + z) > 0 then scan i fuel j (k - 1) triplets
      else scan i fuel (j + 1) (k - 1) (insert [x, y, z] triplets)
    else return triplets

end

def findTriplets (nums : List Int) (fuel : Nat) : Except Fault (Finset (List Int)) :=
  let arr : Arr Int := ⟨0, nums.insertionSort (· ≤ ·)⟩
  let n := int32 nums.length
  (List.range' 0 n.toNat).foldlM (fun triplets i => scan arr i fuel (i + 1) (n - 1) triplets) ∅

abbrev HashMap := Int → Option Nat

def hashStep (nums : Arr Int) (arrHash : HashMap) (i : Nat) : Except Fault HashMap := do
  let num ← nums.get i
  return Function.update arrHash num (some i)

/-- The body of the inner loop: whether `true` is returned. -/
def check (nums : Arr Int) (arrHash : HashMap) (target : Int) (i j : Nat) :
    Except Fault Bool := do
  let x ← nums.get i
  let y ← nums.get j
  let sum := int32 (x + y)
  match arrHash (int32 (target - sum)) with
  | none => return false
  | some last => return last > j

def threeSum (nums : List Int) (target : Int) : Except Fault Bool := do
  let n := nums.length
  let arrHash ← (List.range' 0 n).foldlM (hashStep ⟨0, nums⟩) fun _ => none
  (List.range' 0 (n - 1)).anyM fun i =>
    (List.range' (i + 1) (n - (i + 1))).anyM fun j => check ⟨0, nums⟩ arrHash target i j

/-! ## Positions -/

section
variable {α : Type} {l t : List α} {m : Nat} {x y z : α}

theorem cons_sublist_drop_iff : (x :: t).Sublist (l.drop m) ↔
    ∃ i, m ≤ i ∧ l[i]? = some x ∧ t.Sublist (l.drop (i + 1)) := by
  induction l generalizing m with
  | nil => simp
  | cons a l ih =>
    cases m with
    | zero =>
      rw [List.drop_zero, List.cons_sublist_cons', ← List.drop_zero (l := l), ih]
      constructor
      · rintro (⟨i, -, hx, ht⟩ | ⟨rfl, ht⟩)
        · exact ⟨i + 1, Nat.zero_le _, hx, ht⟩
        · exact ⟨0, le_rfl, rfl, ht⟩
      · rintro ⟨i, -, hx, ht⟩
        cases i with
        | zero => exact .inr ⟨(Option.some.inj hx).symm, ht⟩
        | succ i => exact .inl ⟨i, Nat.zero_le _, hx, ht⟩
    | succ m =>
      rw [List.drop_succ_cons, ih]
      constructor
      · rintro ⟨i, hi, hx, ht⟩
        exact ⟨i + 1, Nat.succ_le_succ hi, hx, ht⟩
      · rintro ⟨i, hi, hx, ht⟩
        obtain ⟨i, rfl⟩ := Nat.exists_eq_succ_of_ne_zero (Nat.ne_zero_of_lt hi)
        exact ⟨i, Nat.le_of_succ_le_succ hi, hx, ht⟩

/-- Two elements one behind the other. -/
theorem two_sublist_iff : [x, y].Sublist (l.drop m) ↔
    ∃ i j : Nat, m ≤ i ∧ i < j ∧ l[i]? = some x ∧ l[j]? = some y := by
  simp only [cons_sublist_drop_iff, List.nil_sublist, and_true]
  constructor
  · rintro ⟨i, hi, hx, j, hj, hy⟩
    exact ⟨i, j, hi, hj, hx, hy⟩
  · rintro ⟨i, j, hi, hj, hx, hy⟩
    exact ⟨i, hi, hx, j, hj, hy⟩

theorem three_sublist_iff : [x, y, z].Sublist l ↔
    ∃ i j k : Nat, i < j ∧ j < k ∧ l[i]? = some x ∧ l[j]? = some y ∧ l[k]? = some z := by
  rw [← List.drop_zero (l := l), cons_sublist_drop_iff]
  simp only [two_sublist_iff, List.drop_zero]
  constructor
  · rintro ⟨i, -, hx, j, k, hj, hk, hy, hz⟩
    exact ⟨i, j, k, hj, hk, hx, hy, hz⟩
  · rintro ⟨i, j, k, hj, hk, hx, hy, hz⟩
    exact ⟨i, Nat.zero_le _, hx, j, k, hj, hk, hy, hz⟩

end

/-! ## Sums -/

section
variable {nums : List Int} {a : Nat → Int} {i j k m n : Nat}

/-- The sums of at most three elements, at different positions, are `int`s. -/
def InRange (nums : List Int) : Prop :=
  ∀ l : List Int, l.Subperm nums → l.length ≤ 3 → -2 ^ 31 ≤ l.sum ∧ l.sum < 2 ^ 31

theorem getElem?_gridRow {x : Int} : (gridRow n a)[i]? = some x ↔ i < n ∧ a i = x := by
  by_cases hi : i < n
  · simp [gridRow, hi]
  · simp [gridRow, hi]

theorem three_gridRow {x y z : Int} : [x, y, z].Sublist (gridRow n a) ↔
    ∃ i j k, i < j ∧ j < k ∧ k < n ∧ a i = x ∧ a j = y ∧ a k = z := by
  simp only [three_sublist_iff, getElem?_gridRow]
  constructor
  · rintro ⟨i, j, k, hij, hjk, ⟨-, hx⟩, ⟨-, hy⟩, hk, hz⟩
    exact ⟨i, j, k, hij, hjk, hk, hx, hy, hz⟩
  · rintro ⟨i, j, k, hij, hjk, hk, hx, hy, hz⟩
    exact ⟨i, j, k, hij, hjk, ⟨by omega, hx⟩, ⟨by omega, hy⟩, hk, hz⟩

theorem InRange.subperm {nums' : List Int} (h : InRange nums) (hsub : nums'.Subperm nums) :
    InRange nums' :=
  fun l hl hlen => h l (hl.trans hsub) hlen

theorem InRange.two (h : InRange (gridRow n a)) (hij : i < j) (hj : j < n) :
    int32 (a i + a j) = a i + a j := by
  have hsub : [a i, a j].Sublist ((gridRow n a).drop 0) :=
    two_sublist_iff.2 ⟨i, j, Nat.zero_le i, hij, getElem?_gridRow.2 ⟨by omega, rfl⟩,
      getElem?_gridRow.2 ⟨hj, rfl⟩⟩
  have hrange := h _ hsub.subperm (by simp)
  simp only [List.sum_cons, List.sum_nil, add_zero] at hrange
  exact Int.bmod_eq_of_le (by omega) (by omega)

theorem InRange.three (h : InRange (gridRow n a)) (hij : i < j) (hjk : j < k) (hk : k < n) :
    -2 ^ 31 ≤ a i + a j + a k ∧ a i + a j + a k < 2 ^ 31 := by
  have hsub : [a i, a j, a k].Sublist (gridRow n a) :=
    three_gridRow.2 ⟨i, j, k, hij, hjk, hk, rfl, rfl, rfl⟩
  have hrange := h _ hsub.subperm (by simp)
  simp only [List.sum_cons, List.sum_nil, add_zero] at hrange
  omega

/-! ## The scan -/

/-- What the scan for `i` between `j` and `k` makes of the triplets. -/
structure Scanned (a : Nat → Int) (i j k : Nat) (triplets triplets' : Finset (List Int)) :
    Prop where
  subset : triplets ⊆ triplets'
  sound : ∀ t ∈ triplets', t ∈ triplets ∨
    ∃ p q, j ≤ p ∧ p < q ∧ q ≤ k ∧ t = [a i, a p, a q] ∧ a i + a p + a q = 0
  complete : ∀ p q, j ≤ p → p < q → q ≤ k → a i + a p + a q = 0 → [a i, a p, a q] ∈ triplets'

namespace Scanned

variable {triplets triplets' : Finset (List Int)}

theorem none (hkj : k ≤ j) : Scanned a i j k triplets triplets :=
  ⟨Finset.Subset.refl _, fun _ ht => .inl ht, fun p q hp hpq hq => by omega⟩

/-- The sum with `j` and `k` is negative, and no pair with `j` has a greater one. -/
theorem left (hs : Scanned a i (j + 1) k triplets triplets') (hasc : Ascending n a) (hk : k < n)
    (hneg : a i + a j + a k < 0) : Scanned a i j k triplets triplets' := by
  refine ⟨hs.subset, fun t ht => (hs.sound t ht).imp_right ?_, fun p q hp hpq hq hsum => ?_⟩
  · rintro ⟨p, q, hp, hrest⟩
    exact ⟨p, q, by omega, hrest⟩
  · have hle := hasc q k hq hk
    refine hs.complete p q (lt_of_le_of_ne hp ?_) hpq hq hsum
    rintro rfl
    omega

/-- The sum with `j` and `k` is positive, and no pair with `k` has a smaller one. -/
theorem right (hs : Scanned a i j (k - 1) triplets triplets') (hasc : Ascending n a) (hk : k < n)
    (hpos : a i + a j + a k > 0) : Scanned a i j k triplets triplets' := by
  refine ⟨hs.subset, fun t ht => (hs.sound t ht).imp_right ?_, fun p q hp hpq hq hsum => ?_⟩
  · rintro ⟨p, q, hp, hpq, hq, hrest⟩
    exact ⟨p, q, hp, hpq, by omega, hrest⟩
  · have hle := hasc j p hp (by omega)
    refine hs.complete p q hp hpq (Nat.le_pred_of_lt (lt_of_le_of_ne hq ?_)) hsum
    rintro rfl
    omega

/-- The sum with `j` and `k` is zero; another pair with `j` or with `k` has the same numbers. -/
theorem both (hs : Scanned a i (j + 1) (k - 1) (insert [a i, a j, a k] triplets) triplets')
    (hjk : j < k) (hzero : a i + a j + a k = 0) : Scanned a i j k triplets triplets' := by
  have hfound : [a i, a j, a k] ∈ triplets' := hs.subset (Finset.mem_insert_self _ _)
  refine ⟨(Finset.subset_insert _ _).trans hs.subset, fun t ht => ?_, fun p q hp hpq hq hsum => ?_⟩
  · rcases hs.sound t ht with hmem | ⟨p, q, hp, hpq, hq, hrest⟩
    · rcases Finset.mem_insert.1 hmem with rfl | hmem
      · exact .inr ⟨j, k, le_rfl, hjk, le_rfl, rfl, hzero⟩
      · exact .inl hmem
    · exact .inr ⟨p, q, by omega, hpq, by omega, hrest⟩
  · by_cases hpj : p = j
    · subst hpj
      have heq : a q = a k := by omega
      rwa [heq]
    · by_cases hqk : q = k
      · subst hqk
        have heq : a p = a j := by omega
        rwa [heq]
      · exact hs.complete p q (by omega) hpq (by omega) hsum

end Scanned

theorem scan_ok (h : InRange (gridRow n a)) (hasc : Ascending n a) (hnm : n ≤ m) {fuel : Nat}
    (hij : i < j) (hk : k < n) (hpos : 0 < fuel) (hfuel : k < j + fuel)
    (triplets : Finset (List Int)) :
    ∃ triplets', scan ⟨0, gridRow m a⟩ i fuel j k triplets = .ok triplets' ∧
      Scanned a i j k triplets triplets' := by
  induction fuel generalizing j k triplets with
  | zero => exact absurd hpos (Nat.lt_irrefl 0)
  | succ fuel ih =>
    rw [scan]
    by_cases hjk : j < k
    · have hsucc : (j : Int) + 1 = (j + 1 : Nat) := by omega
      have hpred : (k : Int) - 1 = (k - 1 : Nat) := by omega
      have hrange := h.three hij hjk hk
      have hthree : int32 (a i + a j + a k) = a i + a j + a k :=
        Int.bmod_eq_of_le (by omega) (by omega)
      rw [if_pos (Int.ofNat_lt.2 hjk), get_gridRow (by omega), ok_bind, get_gridRow (by omega),
        ok_bind, get_gridRow (by omega), ok_bind, h.two hij (by omega)]
      dsimp only
      rw [hthree]
      rw [hsucc, hpred]
      split_ifs with hneg hgt
      · obtain ⟨triplets', hrun, hs⟩ := ih (j := j + 1) (k := k) (by omega) hk (by omega)
          (by omega) triplets
        exact ⟨triplets', hrun, hs.left hasc hk hneg⟩
      · obtain ⟨triplets', hrun, hs⟩ := ih (j := j) (k := k - 1) hij (by omega) (by omega)
          (by omega) triplets
        exact ⟨triplets', hrun, hs.right hasc hk hgt⟩
      · obtain ⟨triplets', hrun, hs⟩ := ih (j := j + 1) (k := k - 1) (by omega) (by omega)
          (by omega) (by omega) (insert [a i, a j, a k] triplets)
        exact ⟨triplets', hrun, hs.both hjk (by omega)⟩
    · rw [if_neg (by omega)]
      exact ⟨triplets, rfl, .none (not_lt.1 hjk)⟩

/-- The triplets are those whose first index is below `m`. -/
def Found (a : Nat → Int) (n m : Nat) (triplets : Finset (List Int)) : Prop := ∀ t,
  t ∈ triplets ↔
    ∃ i j k, i < m ∧ i < j ∧ j < k ∧ k < n ∧ t = [a i, a j, a k] ∧ a i + a j + a k = 0

theorem Found.step {triplets triplets' : Finset (List Int)} (h : Found a n i triplets)
    (hs : Scanned a i (i + 1) (n - 1) triplets triplets') : Found a n (i + 1) triplets' := by
  refine fun t => ⟨fun ht => ?_, ?_⟩
  · rcases hs.sound t ht with ht | ⟨j, k, hij, hjk, hk, hrest⟩
    · obtain ⟨l, j, k, hl, hrest⟩ := (h t).1 ht
      exact ⟨l, j, k, by omega, hrest⟩
    · exact ⟨i, j, k, Nat.lt_succ_self i, hij, hjk, by omega, hrest⟩
  · rintro ⟨l, j, k, hl, hlj, hjk, hk, rfl, hsum⟩
    rcases Nat.lt_succ_iff_lt_or_eq.1 hl with hl | rfl
    · exact hs.subset ((h _).2 ⟨l, j, k, hl, hlj, hjk, hk, rfl, hsum⟩)
    · exact hs.complete j k hlj hjk (by omega) hsum

theorem scans_ok (h : InRange (gridRow n a)) (hasc : Ascending n a) (hnm : n ≤ m) {fuel : Nat}
    (hfuel : n < fuel) : ∃ triplets, (List.range' 0 n).foldlM (fun triplets i =>
        scan ⟨0, gridRow m a⟩ i fuel (i + 1) (n - 1) triplets) ∅ = .ok triplets ∧
      Found a n n triplets := by
  have hstart : Found a n 0 ∅ := fun t => by simp
  have hstep : ∀ i, 0 ≤ i → i < 0 + n → ∀ triplets, Found a n i triplets → ∃ triplets',
      scan ⟨0, gridRow m a⟩ i fuel (i + 1) (n - 1) triplets = .ok triplets' ∧
        Found a n (i + 1) triplets' := by
    intro i _ hi triplets hfound
    have hsucc : (i : Int) + 1 = (i + 1 : Nat) := by omega
    have hpred : (n : Int) - 1 = (n - 1 : Nat) := by omega
    obtain ⟨triplets', hrun, hs⟩ := scan_ok h hasc hnm (Nat.lt_succ_self i) (k := n - 1)
      (by omega) (Nat.zero_lt_of_lt hfuel) (by omega) triplets
    rw [hsucc, hpred]
    exact ⟨triplets', hrun, hfound.step hs⟩
  have hrun := upward hstep hstart
  rwa [Nat.zero_add] at hrun

theorem scans_int {n : Int} (h : InRange (gridRow n.toNat a)) (hasc : Ascending n.toNat a)
    (hnm : n.toNat ≤ m) {fuel : Nat} (hfuel : n.toNat < fuel) :
    ∃ triplets, (List.range' 0 n.toNat).foldlM (fun triplets i =>
        scan ⟨0, gridRow m a⟩ i fuel (i + 1) (n - 1) triplets) ∅ = .ok triplets ∧
      Found a n.toNat n.toNat triplets := by
  have hrun := scans_ok h hasc hnm hfuel
  rcases Int.le_total 0 n with hpos | hneg
  · rwa [Int.toNat_of_nonneg hpos] at hrun
  · rw [Int.toNat_eq_zero.2 hneg] at hrun ⊢
    exact hrun

/-- The triplets of the sorted array by their numbers. -/
theorem triple_iff (hasc : Ascending n a) {t : List Int} :
    (∃ i j k, i < n ∧ i < j ∧ j < k ∧ k < n ∧ t = [a i, a j, a k] ∧ a i + a j + a k = 0) ↔
      ∃ x y z, t = [x, y, z] ∧ x ≤ y ∧ y ≤ z ∧ x + y + z = 0 ∧ [x, y, z].Subperm (gridRow n a) := by
  constructor
  · rintro ⟨i, j, k, -, hij, hjk, hk, rfl, hsum⟩
    refine ⟨a i, a j, a k, rfl, hasc i j hij.le (by omega), hasc j k hjk.le hk, hsum, ?_⟩
    exact (three_gridRow.2 ⟨i, j, k, hij, hjk, hk, rfl, rfl, rfl⟩).subperm
  · rintro ⟨x, y, z, rfl, hxy, hyz, hsum, hsub⟩
    have hsorted : (gridRow n a).Pairwise (· ≤ ·) := by
      refine List.pairwise_iff_getElem.2 fun i j hi hj hij => ?_
      rw [length_gridRow] at hj
      simpa [gridRow] using hasc i j hij.le hj
    have hxyz : [x, y, z].Pairwise (· ≤ ·) := by
      simp [hxy, hyz, hxy.trans hyz]
    have hsublist := List.sublist_of_subperm_of_pairwise hsub hxyz hsorted
    obtain ⟨i, j, k, hij, hjk, hk, rfl, rfl, rfl⟩ := three_gridRow.1 hsublist
    exact ⟨i, j, k, by omega, hij, hjk, hk, rfl, hsum⟩

theorem take_gridRow (hnm : n ≤ m) : (gridRow m a).take n = gridRow n a := by
  rw [gridRow, ← List.map_take, List.take_range, Nat.min_eq_left hnm, gridRow]

/-- The `n` smallest numbers, where `n` is the size of `nums` as an `int`. -/
def smallest (nums : List Int) : List Int :=
  (nums.insertionSort (· ≤ ·)).take (int32 nums.length).toNat

theorem smallest_subperm : (smallest nums).Subperm nums :=
  (List.take_sublist _ _).subperm.trans (List.perm_insertionSort _ nums).subperm

theorem findTriplets_ends (h : InRange nums) : ∃ triplets, Ends (findTriplets nums) triplets ∧
    ∀ t, t ∈ triplets ↔
      ∃ x y z, t = [x, y, z] ∧ x ≤ y ∧ y ≤ z ∧ x + y + z = 0 ∧
        [x, y, z].Subperm (smallest nums) := by
  obtain ⟨a, heq, hasc⟩ := exists_ascending nums
  have hle : (int32 nums.length).toNat ≤ nums.length := Int.toNat_le.2 (int32_natCast_le _)
  have hsmallest : smallest nums = gridRow (int32 nums.length).toNat a := by
    rw [smallest, heq, take_gridRow hle]
  have hrange : InRange (gridRow (int32 nums.length).toNat a) :=
    hsmallest ▸ h.subperm smallest_subperm
  have hasc' : Ascending (int32 nums.length).toNat a := fun i j hij hj =>
    hasc i j hij (hj.trans_le hle)
  have hstart : ∀ fuel ≥ nums.length + 1, ∃ triplets, findTriplets nums fuel = .ok triplets ∧
      Found a (int32 nums.length).toNat (int32 nums.length).toNat triplets := by
    intro fuel hfuel
    rw [findTriplets, heq]
    exact scans_int hrange hasc' hle (by omega)
  obtain ⟨triplets, -, hfound⟩ := hstart _ le_rfl
  refine ⟨triplets, ⟨nums.length + 1, fun fuel hfuel => ?_⟩, fun t => ?_⟩
  · obtain ⟨triplets', hrun, hfound'⟩ := hstart fuel hfuel
    have hsame : triplets' = triplets := Finset.ext fun t => (hfound' t).trans (hfound t).symm
    rw [hrun, hsame]
  · rw [hfound, triple_iff hasc', hsmallest]

/-! ## The hash table -/

/-- The last index below `m` of each number. -/
def Hashed (f : Nat → Int) (m : Nat) (arrHash : HashMap) : Prop := ∀ v j,
  (∃ last, arrHash v = some last ∧ j < last) ↔ ∃ k, j < k ∧ k < m ∧ f k = v

theorem hash_ok (f : Nat → Int) (n : Nat) : ∃ arrHash,
    (List.range' 0 n).foldlM (hashStep ⟨0, gridRow n f⟩) (fun _ => none) = .ok arrHash ∧
      Hashed f n arrHash := by
  have hstart : Hashed f 0 fun _ => none := fun v j => by simp
  have hstep : ∀ i, 0 ≤ i → i < 0 + n → ∀ arrHash, Hashed f i arrHash → ∃ arrHash',
      hashStep ⟨0, gridRow n f⟩ arrHash i = .ok arrHash' ∧ Hashed f (i + 1) arrHash' := by
    intro i _ hi arrHash h
    refine ⟨Function.update arrHash (f i) (some i), ?_, fun v j => ?_⟩
    · rw [hashStep, get_gridRow (by omega), ok_bind]
      rfl
    · by_cases hv : v = f i
      · rw [hv, Function.update_self]
        constructor
        · rintro ⟨last, hlast, hj⟩
          obtain rfl := Option.some.inj hlast
          exact ⟨i, hj, Nat.lt_succ_self i, rfl⟩
        · rintro ⟨k, hjk, hk, -⟩
          exact ⟨i, rfl, by omega⟩
      · rw [Function.update_of_ne hv, h]
        refine ⟨fun ⟨k, hjk, hk, hval⟩ => ⟨k, hjk, by omega, hval⟩, ?_⟩
        rintro ⟨k, hjk, hk, hval⟩
        rcases Nat.lt_succ_iff_lt_or_eq.1 hk with hk | rfl
        · exact ⟨k, hjk, hk, hval⟩
        · exact absurd hval.symm hv
  have hrun := upward hstep hstart
  rwa [Nat.zero_add] at hrun

/-- A difference that wraps around is no element. -/
theorem int32_sub_eq {x target sum : Int} (hx : -2 ^ 31 ≤ x ∧ x < 2 ^ 31)
    (hsum : -2 ^ 31 ≤ sum + x ∧ sum + x < 2 ^ 31) (htarget : -2 ^ 31 ≤ target ∧ target < 2 ^ 31) :
    x = int32 (target - sum) ↔ sum + x = target := by
  constructor
  · intro heq
    have hdiv := Int.bmod_add_bdiv (target - sum) (2 ^ 32)
    rw [← int32, ← heq] at hdiv
    omega
  · intro heq
    have hdiff : target - sum = x := by omega
    rw [hdiff]
    exact (Int.bmod_eq_of_le (by omega) (by omega)).symm

theorem check_ok {f : Nat → Int} {arrHash : HashMap} {target : Int} (h : InRange (gridRow n f))
    (htarget : -2 ^ 31 ≤ target ∧ target < 2 ^ 31) (hhash : Hashed f n arrHash) (hij : i < j)
    (hj : j < n) : ∃ b, check ⟨0, gridRow n f⟩ arrHash target i j = .ok b ∧
      (b = true ↔ ∃ k, j < k ∧ k < n ∧ f i + f j + f k = target) := by
  have hiff : (∃ last, arrHash (int32 (target - (f i + f j))) = some last ∧ j < last) ↔
      ∃ k, j < k ∧ k < n ∧ f i + f j + f k = target := by
    rw [hhash]
    refine exists_congr fun k => and_congr_right fun hjk => and_congr_right fun hk => ?_
    refine int32_sub_eq ?_ (h.three hij hjk hk) htarget
    have hone := h [f k] (List.singleton_subperm_iff.2 (List.mem_of_getElem?
      (getElem?_gridRow.2 ⟨hk, rfl⟩))) (by simp)
    rwa [List.sum_singleton] at hone
  rw [← hiff, check, get_gridRow (by omega), ok_bind, get_gridRow hj, ok_bind, h.two hij hj]
  dsimp only
  cases arrHash (int32 (target - (f i + f j))) with
  | none => exact ⟨false, rfl, by simp⟩
  | some last => exact ⟨decide (last > j), rfl, by simp⟩

/-- Three positions in order. -/
theorem exists_positions {f : Nat → Int} {target : Int} :
    (∃ i j k, i < j ∧ j < k ∧ k < n ∧ f i + f j + f k = target) ↔
      ∃ x y z, [x, y, z].Subperm (gridRow n f) ∧ x + y + z = target := by
  constructor
  · rintro ⟨i, j, k, hij, hjk, hk, hsum⟩
    refine ⟨f i, f j, f k, List.Sublist.subperm (three_gridRow.2 ?_), hsum⟩
    exact ⟨i, j, k, hij, hjk, hk, rfl, rfl, rfl⟩
  · rintro ⟨x, y, z, ⟨l, hperm, hsub⟩, hsum⟩
    obtain ⟨u, v, w, rfl⟩ := List.length_eq_three.1 hperm.length_eq
    obtain ⟨i, j, k, hij, hjk, hk, rfl, rfl, rfl⟩ := three_gridRow.1 hsub
    have hsame := hperm.sum_eq
    simp only [List.sum_cons, List.sum_nil, add_zero] at hsame
    exact ⟨i, j, k, hij, hjk, hk, by omega⟩

theorem threeSum_ok {target : Int} (h : InRange nums)
    (htarget : -2 ^ 31 ≤ target ∧ target < 2 ^ 31) : ∃ b, threeSum nums target = .ok b ∧
      (b = true ↔ ∃ x y z, [x, y, z].Subperm nums ∧ x + y + z = target) := by
  obtain ⟨f, hf⟩ := exists_gridRow nums
  generalize nums.length = n at hf
  subst hf
  obtain ⟨arrHash, hrun, hhash⟩ := hash_ok f n
  rw [threeSum, length_gridRow, hrun, ok_bind, ← exists_positions]
  have hinner : ∀ i ∈ List.range' 0 (n - 1), ∃ b,
      ((List.range' (i + 1) (n - (i + 1))).anyM fun j =>
        check ⟨0, gridRow n f⟩ arrHash target i j) = .ok b ∧
      (b = true ↔ ∃ j ∈ List.range' (i + 1) (n - (i + 1)),
        ∃ k, j < k ∧ k < n ∧ f i + f j + f k = target) := by
    refine fun i hi => anyM_ok fun j hj => ?_
    have hj := List.mem_range'_1.1 hj
    exact check_ok h htarget hhash hj.1 (by omega)
  obtain ⟨b, hb, hiff⟩ := anyM_ok hinner
  refine ⟨b, hb, hiff.trans ?_⟩
  constructor
  · rintro ⟨i, hi, j, hj, k, hjk, hk, hsum⟩
    have hj := List.mem_range'_1.1 hj
    exact ⟨i, j, k, hj.1, hjk, hk, hsum⟩
  · rintro ⟨i, j, k, hij, hjk, hk, hsum⟩
    exact ⟨i, List.mem_range'_1.2 (by omega), j, List.mem_range'_1.2 (by omega), k, hjk, hk, hsum⟩

/-- Three numbers with sum 0 can be put in order. -/
theorem exists_ordered : (∃ x y z : Int, [x, y, z].Subperm nums ∧ x + y + z = 0) ↔
    ∃ x y z : Int, x ≤ y ∧ y ≤ z ∧ x + y + z = 0 ∧ [x, y, z].Subperm nums := by
  constructor
  · rintro ⟨x, y, z, hsub, hsum⟩
    have hperm := List.perm_insertionSort (· ≤ ·) [x, y, z]
    obtain ⟨u, v, w, heq⟩ := List.length_eq_three.1 hperm.length_eq
    have hsorted := List.pairwise_insertionSort (· ≤ ·) [x, y, z]
    rw [heq] at hperm hsorted
    have hsame := hperm.sum_eq
    simp only [List.sum_cons, List.sum_nil, add_zero] at hsame
    simp only [List.pairwise_cons, List.mem_cons, forall_eq_or_imp] at hsorted
    exact ⟨u, v, w, hsorted.1.1, hsorted.2.1.1, by omega, hperm.subperm.trans hsub⟩
  · rintro ⟨x, y, z, -, -, hsum, hsub⟩
    exact ⟨x, y, z, hsub, hsum⟩

/-- Both programs find what there is; the second one where an `int` is the number of elements. -/
def FindsTriplets (nums : List Int) : Prop :=
  ∃ triplets, Ends (findTriplets nums) triplets ∧
    (∀ t, t ∈ triplets ↔
      ∃ x y z, t = [x, y, z] ∧ x ≤ y ∧ y ≤ z ∧ x + y + z = 0 ∧ [x, y, z].Subperm nums) ∧
    (nums.length < 2 ^ 31 →
      (∀ target, -2 ^ 31 ≤ target ∧ target < 2 ^ 31 → ∃ b, threeSum nums target = .ok b ∧
        (b = true ↔ ∃ x y z, [x, y, z].Subperm nums ∧ x + y + z = target)) ∧
      (triplets.Nonempty ↔ threeSum nums 0 = .ok true))

/-- The triplets of `nums` that `find_triplets` can see are all there are. -/
def SeesTriplets (nums : List Int) : Prop := ∀ x y z, x ≤ y → y ≤ z → x + y + z = 0 →
  [x, y, z].Subperm nums → [x, y, z].Subperm (smallest nums)

theorem FindsTriplets.sees (hfinds : FindsTriplets nums) (h : InRange nums) :
    SeesTriplets nums := by
  intro x y z hxy hyz hsum hsub
  obtain ⟨triplets, hends, hmem, -⟩ := hfinds
  obtain ⟨triplets', hends', hmem'⟩ := findTriplets_ends h
  have hin := (hmem [x, y, z]).2 ⟨x, y, z, rfl, hxy, hyz, hsum, hsub⟩
  rw [hends.unique hends', hmem'] at hin
  obtain ⟨_, _, _, heq, -, -, -, hsub'⟩ := hin
  rwa [heq]

/-- **Both programs** find what there is where `find_triplets` sees it. -/
theorem findsTriplets_iff (h : InRange nums) : FindsTriplets nums ↔ SeesTriplets nums := by
  refine ⟨fun hfinds => hfinds.sees h, fun hsees => ?_⟩
  obtain ⟨triplets, hends, hmem⟩ := findTriplets_ends h
  have hall : ∀ t, t ∈ triplets ↔
      ∃ x y z, t = [x, y, z] ∧ x ≤ y ∧ y ≤ z ∧ x + y + z = 0 ∧ [x, y, z].Subperm nums := by
    intro t
    rw [hmem]
    constructor
    · rintro ⟨x, y, z, ht, hxy, hyz, hsum, hsub⟩
      exact ⟨x, y, z, ht, hxy, hyz, hsum, hsub.trans smallest_subperm⟩
    · rintro ⟨x, y, z, ht, hxy, hyz, hsum, hsub⟩
      exact ⟨x, y, z, ht, hxy, hyz, hsum, hsees x y z hxy hyz hsum hsub⟩
  refine ⟨triplets, hends, hall, fun _ => ⟨fun target htarget => threeSum_ok h htarget, ?_⟩⟩
  obtain ⟨b, hb, hiff⟩ := threeSum_ok h (by decide : -2 ^ 31 ≤ (0 : Int) ∧ (0 : Int) < 2 ^ 31)
  rw [hb, Except.ok.injEq, hiff, exists_ordered]
  constructor
  · rintro ⟨t, ht⟩
    obtain ⟨x, y, z, -, hrest⟩ := (hall t).1 ht
    exact ⟨x, y, z, hrest⟩
  · rintro ⟨x, y, z, hrest⟩
    exact ⟨[x, y, z], (hall _).2 ⟨x, y, z, rfl, hrest⟩⟩

/-- Small numbers have small sums. -/
theorem inRange_of_small (h : ∀ x ∈ nums, -2 ^ 29 ≤ x ∧ x ≤ 2 ^ 29) : InRange nums := by
  intro l hl hlen
  have hmem : ∀ x ∈ l, -2 ^ 29 ≤ x ∧ x ≤ 2 ^ 29 := fun x hx => h x (hl.subset hx)
  have hle := List.sum_le_card_nsmul l (2 ^ 29) fun x hx => (hmem x hx).2
  have hge := List.card_nsmul_le_sum l (-2 ^ 29) fun x hx => (hmem x hx).1
  simp only [nsmul_eq_mul] at hle hge
  omega

end

theorem findsTriplets_iff_six :
    FindsTriplets [-1, 0, 1, 2, -1, -4] ↔ SeesTriplets [-1, 0, 1, 2, -1, -4] :=
  findsTriplets_iff (inRange_of_small (by decide))

/-- The size is a negative `int`, and nothing is found. -/
theorem not_findsTriplets_zeros : ¬ FindsTriplets (List.replicate (2 ^ 31) 0) := by
  intro h
  have hrange : InRange (List.replicate (2 ^ 31) 0) := inRange_of_small fun x hx => by
    rw [List.eq_of_mem_replicate hx]
    decide
  have hthree : [0, 0, 0].Subperm (List.replicate (2 ^ 31) (0 : Int)) := by
    rw [show [0, 0, 0] = List.replicate 3 (0 : Int) from rfl]
    exact (List.replicate_sublist_replicate 0).2 (by decide) |>.subperm
  have hsub := h.sees hrange 0 0 0 le_rfl le_rfl rfl hthree
  rw [smallest, List.length_replicate] at hsub
  exact absurd hsub.length_le (by decide)

end ThreeSum
