import DsAlgor.Lib.CInt
import DsAlgor.Lib.Signed
import Mathlib.Order.Bounds.Basic

/-!
# `find_missing_num.c`

A value `v` of the array is at home at index `v - 1`. `firstMissingPositive` sends the values home
one index after the other: an exchange brings one more value home (`atHome_exchange`), so the inner
loop ends. Then the first index that is not a home tells the answer (`scan_eq`). `size` is an `int`:
of a longer vector only the first elements count, and `size + 1` can overflow.
-/

namespace Class8

open Checked (Arr Fault upward get_nat get_pred set_nat)
open Signed (Undefined access add intMax)

/-- The loop at index `i`. -/
def place (size i : Int) : Nat → Arr Int → Except Fault (Arr Int)
  | 0, _ => .error .loop
  | fuel + 1, A => do
    let x ← A.get i
    if x > 0 ∧ x ≤ size ∧ x ≠ i + 1 then
      if x ≠ (← A.get (x - 1)) then
        let temp ← A.get (x - 1)
        let A ← A.set (x - 1) x
        let A ← A.set i temp
        place size i fuel A
      else return A
    else return A

/-- The last loop; `rounds` is the distance from `i` to the end. -/
def scan (size : Int) (A : Arr Int) : Nat → Int → Except Undefined Int
  | 0, _ => add size 1
  | rounds + 1, i => do
    if (← access (A.get i)) ≠ i + 1 then return i + 1 else scan size A rounds (i + 1)

def firstMissingPositive (fuel : Nat) (A : List Int) : Except Undefined Int := do
  let size := int32 A.length
  let A' ← access
    ((List.range' 0 size.toNat).foldlM (fun A' (i : Nat) => place size i fuel A') ⟨0, A⟩)
  scan size A' size.toNat 0

section
variable {B : List Int} {i j k v fuel : Nat} {y : Int}

/-- The value at index `j` is at home, or has none. -/
def Home (B : List Int) (j : Nat) : Prop :=
  ∀ v : Nat, B[j]? = some (v : Int) → 1 ≤ v → v ≤ B.length → B[v - 1]? = some (v : Int)

/-- The indices that have their values. -/
def atHome (B : List Int) : Finset Nat :=
  (Finset.range B.length).filter fun j => B[j]? = some ((j + 1 : Nat) : Int)

/-- `B[i] = v` goes home, and what was there comes to `i`. -/
def exchange (B : List Int) (i v : Nat) (y : Int) : List Int := (B.set (v - 1) v).set i y

theorem length_exchange : (exchange B i v y).length = B.length := by simp [exchange]

theorem getElem?_exchange (hi : i < B.length) (h1 : 1 ≤ v) (hv : v ≤ B.length) (j : Nat) :
    (exchange B i v y)[j]? =
      if j = i then some y else if j = v - 1 then some (v : Int) else B[j]? := by
  have hlt : v - 1 < B.length := by omega
  simp only [exchange, List.getElem?_set, List.length_set, hi, hlt, if_true, @eq_comm _ i,
    @eq_comm _ (v - 1)]

variable (hi : i < B.length) (hv : B[i]? = some (v : Int)) (h1 : 1 ≤ v) (hn : v ≤ B.length)
  (hne : v ≠ i + 1)
include hi hv h1 hn

theorem exchange_perm (hy : B[v - 1]? = some y) : (exchange B i v y).Perm B := by
  have hlt : v - 1 < B.length := by omega
  obtain ⟨_, rfl⟩ := List.getElem?_eq_some_iff.1 hy
  obtain ⟨_, hv⟩ := List.getElem?_eq_some_iff.1 hv
  rw [exchange, ← hv]
  exact List.set_set_perm hlt hi

include hne

/-- What is at home stays there. -/
theorem Home.exchange (hj : Home B j) (hji : j ≠ i) : Home (exchange B i v y) j := by
  intro w hw hw1 hwn
  rw [length_exchange] at hwn
  rw [getElem?_exchange hi h1 hn, if_neg hji] at hw
  rw [getElem?_exchange hi h1 hn]
  by_cases hjv : j = v - 1
  · rw [if_pos hjv] at hw
    obtain rfl : v = w := by exact_mod_cast Option.some.inj hw
    rw [if_neg (by omega), if_pos rfl]
  · rw [if_neg hjv] at hw
    have hhome := hj w hw hw1 hwn
    -- the home of `w` is not `i`, where `v` is
    have hwi : w - 1 ≠ i := by
      intro heq
      rw [heq, hv] at hhome
      have : v = w := by exact_mod_cast Option.some.inj hhome
      omega
    rw [if_neg hwi, hhome]
    split
    next heq =>
      have : v = w := by omega
      rw [this]
    next => rfl

theorem atHome_exchange (hy : B[v - 1]? ≠ some (v : Int)) :
    atHome B ⊂ atHome (exchange B i v y) := by
  refine Finset.ssubset_iff_of_subset (fun j hj => ?_) |>.2 ⟨v - 1, ?_, ?_⟩
  · obtain ⟨hjn, hj⟩ := Finset.mem_filter.1 hj
    refine Finset.mem_filter.2 ⟨by rwa [length_exchange], ?_⟩
    have hji : j ≠ i := by
      rintro rfl
      rw [hv] at hj
      have : v = j + 1 := by exact_mod_cast Option.some.inj hj
      omega
    rw [getElem?_exchange hi h1 hn, if_neg hji, hj]
    split
    next heq =>
      have : j + 1 = v := by omega
      rw [this]
    next => rfl
  · refine Finset.mem_filter.2 ⟨by rw [length_exchange, Finset.mem_range]; omega, ?_⟩
    have hback : v - 1 + 1 = v := by omega
    rw [getElem?_exchange hi h1 hn, if_neg (by omega), if_pos rfl, hback]
  · intro hmem
    have hback : v - 1 + 1 = v := by omega
    rw [atHome, Finset.mem_filter, hback] at hmem
    exact hy hmem.2

end

/-! ## The loops -/

section
variable {A B C : List Int} {i k fuel : Nat} {x : Int}

/-- The elements behind the first ones stay where they are. -/
theorem get_front (h : B[i]? = some x) : Arr.get ⟨0, B ++ C⟩ i = .ok x := by
  refine get_nat ?_
  rw [List.getElem?_append_left (List.getElem?_eq_some_iff.1 h).1, h]

theorem set_front (h : i < B.length) : Arr.set ⟨0, B ++ C⟩ i x = .ok ⟨0, B.set i x ++ C⟩ := by
  rw [set_nat (by rw [List.length_append]; omega), List.set_append_left _ _ h]

/-- The loop at index `i` brings one value after the other home. -/
theorem place_spec (fuel : Nat) (hi : i < B.length) (hfuel : B.length < fuel + (atHome B).card)
    (hhome : ∀ j < i, Home B j) : ∃ B' : List Int,
    place B.length i fuel ⟨0, B ++ C⟩ = .ok ⟨0, B' ++ C⟩ ∧ B'.Perm B ∧
      ∀ j < i + 1, Home B' j := by
  induction fuel generalizing B with
  | zero =>
    have hle := Finset.card_filter_le (Finset.range B.length)
      fun j => B[j]? = some ((j + 1 : Nat) : Int)
    rw [Finset.card_range] at hle
    rw [Nat.zero_add] at hfuel
    exact absurd hfuel (Nat.not_lt.2 hle)
  | succ fuel ih =>
    have hx : B[i]? = some B[i] := List.getElem?_eq_getElem hi
    generalize B[i] = x at hx
    have hget := get_front (C := C) hx
    -- the value at `i` has no other home
    have hstop : (∀ v : Nat, x = v → 1 ≤ v → v ≤ B.length → B[v - 1]? = some (v : Int)) →
        ∀ j < i + 1, Home B j := by
      intro hv j hj
      by_cases hji : j = i
      · intro v hjv
        rw [hji, hx] at hjv
        exact hv v (Option.some.inj hjv)
      · exact hhome j (by omega)
    by_cases hin : x > 0 ∧ x ≤ B.length ∧ x ≠ i + 1
    · obtain ⟨v, rfl⟩ := Int.eq_ofNat_of_zero_le hin.1.le
      obtain ⟨h1, hn, hne⟩ : 1 ≤ v ∧ v ≤ B.length ∧ v ≠ i + 1 := by omega
      have hlt : v - 1 < B.length := by omega
      have hy : B[v - 1]? = some B[v - 1] := List.getElem?_eq_getElem hlt
      generalize B[v - 1] = y at hy
      have hpred : ((v - 1 : Nat) : Int) = v - 1 := by omega
      have hgety := get_front (C := C) hy
      rw [hpred] at hgety
      by_cases hxy : (v : Int) = y
      · refine ⟨B, ?_, List.Perm.refl _, hstop fun w hw _ _ => ?_⟩
        · simp only [place, hget, bind, Except.bind, if_pos hin, hgety, if_neg (not_not.2 hxy)]
          rfl
        · obtain rfl : v = w := by exact_mod_cast hw
          rw [hy, hxy]
      · have hynot : B[v - 1]? ≠ some (v : Int) := by
          rw [hy]
          exact fun heq => hxy (Option.some.inj heq).symm
        have hcard := Finset.card_lt_card (atHome_exchange (y := y) hi hx h1 hn hne hynot)
        obtain ⟨B', hrun, hperm, hhome'⟩ := ih (B := exchange B i v y)
          (by rwa [length_exchange]) (by rw [length_exchange]; omega)
          fun j hj => (hhome j hj).exchange hi hx h1 hn hne hj.ne
        have hset := set_front (C := C) (x := (v : Int)) hlt
        have hset' := set_front (C := C) (B := B.set (v - 1) v) (x := y) (i := i)
          (by simpa using hi)
        rw [hpred] at hset
        rw [length_exchange] at hrun
        refine ⟨B', ?_, hperm.trans (exchange_perm hi hx h1 hn hy), hhome'⟩
        simp only [place, hget, bind, Except.bind, if_pos hin, hgety, if_pos hxy, hset, hset']
        exact hrun
    · refine ⟨B, ?_, List.Perm.refl _, hstop fun v hv h1 hn => ?_⟩
      · simp only [place, hget, bind, Except.bind, if_neg hin]
        rfl
      · have hvi : v - 1 = i := by omega
        rw [hvi, hx, hv]

/-- The scan stops at the first index that does not have its value. -/
theorem scan_eq {rounds : Nat} (hlen : i + rounds = B.length) (hmax : B.length ≤ intMax) :
    ∃ r : Nat, scan B.length ⟨0, B ++ C⟩ rounds i = add r 1 ∧ i ≤ r ∧ r ≤ B.length ∧
      B[r]? ≠ some ((r + 1 : Nat) : Int) ∧ ∀ j, i ≤ j → j < r →
        B[j]? = some ((j + 1 : Nat) : Int) := by
  induction rounds generalizing i with
  | zero =>
    refine ⟨B.length, rfl, by omega, le_rfl, ?_, fun j hij hj => by omega⟩
    rw [List.getElem?_eq_none le_rfl]
    exact nofun
  | succ rounds ih =>
    have hi : i < B.length := by omega
    have hx : B[i]? = some B[i] := List.getElem?_eq_getElem hi
    generalize B[i] = x at hx
    have hget := get_front (C := C) hx
    by_cases hxi : x = i + 1
    · obtain ⟨r, hrun, hle, hrn, hr, hbelow⟩ := ih (i := i + 1) (by omega)
      refine ⟨r, ?_, by omega, hrn, hr, fun j hij hj => ?_⟩
      · simp only [scan, hget, Signed.access_ok, Signed.ok_bind, ne_eq, hxi, not_true_eq_false,
          if_false]
        exact hrun
      · cases Nat.eq_or_lt_of_le hij with
        | inl heq =>
          rw [← heq, hx, hxi]
          rfl
        | inr hlt => exact hbelow j hlt hj
    · refine ⟨i, ?_, le_rfl, hi.le, ?_, fun j hij hj => by omega⟩
      · rw [Signed.add_ok (Int.natCast_nonneg i) Int.one_nonneg (by omega)]
        simp only [scan, hget, Signed.access_ok, Signed.ok_bind, ne_eq, hxi, not_false_eq_true,
          if_true]
        rfl
      · rw [hx]
        exact fun heq => hxi (by exact_mod_cast Option.some.inj heq)

/-- Where all values are at home, the first index without its value tells the answer. -/
theorem isLeast_of_home {r : Nat} (hperm : B.Perm A) (hhome : ∀ j < B.length, Home B j)
    (hrn : r ≤ B.length) (hr : B[r]? ≠ some ((r + 1 : Nat) : Int))
    (hbelow : ∀ j < r, B[j]? = some ((j + 1 : Nat) : Int)) :
    IsLeast {v : Int | 0 < v ∧ v ∉ A} (r + 1 : Nat) := by
  refine ⟨⟨by omega, fun hmem => ?_⟩, fun v hv => ?_⟩
  · obtain ⟨j, hj⟩ := List.mem_iff_getElem?.1 (hperm.mem_iff.2 hmem)
    have hjn : j < B.length := (List.getElem?_eq_some_iff.1 hj).1
    rcases Nat.lt_or_ge r B.length with hlt | hge
    · exact hr (hhome j hjn (r + 1) hj (by omega) (by omega))
    · -- every index has its value
      have hown := hbelow j (by omega)
      rw [hj] at hown
      have : r + 1 = j + 1 := by exact_mod_cast Option.some.inj hown
      omega
  · by_contra hlt
    obtain ⟨hpos, hout⟩ := hv
    rw [not_le] at hlt
    obtain ⟨j, rfl⟩ : ∃ j : Nat, v = (j + 1 : Nat) := ⟨(v - 1).toNat, by omega⟩
    exact hout (hperm.mem_iff.1 (List.mem_of_getElem? (hbelow j (by omega))))

theorem firstMissingPositive_eq {size : Int} (hsize : int32 A.length = size) :
    firstMissingPositive fuel A =
      access ((List.range' 0 size.toNat).foldlM (fun A' (i : Nat) => place size i fuel A') ⟨0, A⟩)
        >>= fun A' => scan size A' size.toNat 0 := by
  rw [← hsize]
  rfl

/-- What is returned: the least positive integer that is not among the first elements. -/
theorem firstMissingPositive_run (hA : B ++ C = A) (hsize : int32 A.length = B.length)
    (hmax : B.length ≤ intMax) : ∃ r : Nat, IsLeast {v : Int | 0 < v ∧ v ∉ B} (r + 1 : Nat) ∧
      ∀ fuel > B.length, firstMissingPositive fuel A = add r 1 := by
  have hrun : ∀ fuel > B.length, ∃ r : Nat, IsLeast {v : Int | 0 < v ∧ v ∉ B} (r + 1 : Nat) ∧
      firstMissingPositive fuel A = add r 1 := by
    intro fuel hfuel
    obtain ⟨a, hloop, B', rfl, hperm, hhome⟩ := upward
      (P := fun k (a : Arr Int) => ∃ B' : List Int, a = ⟨0, B' ++ C⟩ ∧ B'.Perm B ∧
        ∀ j < k, Home B' j)
      (f := fun A' (i : Nat) => place B.length i fuel A') (m := 0) (n := B.length)
      (fun i _ hi a ha => by
        obtain ⟨B', rfl, hperm, hhome⟩ := ha
        have hlen := hperm.length_eq
        obtain ⟨B'', hplace, hperm', hhome'⟩ :=
          place_spec (B := B') (C := C) (i := i) fuel (by omega) (by omega) hhome
        rw [hlen] at hplace
        exact ⟨⟨0, B'' ++ C⟩, hplace, B'', rfl, hperm'.trans hperm, hhome'⟩)
      ⟨B, rfl, List.Perm.refl _, fun _ hj => absurd hj (Nat.not_lt_zero _)⟩
    have hlen := hperm.length_eq
    rw [Nat.zero_add, ← hlen] at hhome
    obtain ⟨r, hscan, _, hrn, hr, hbelow⟩ :=
      scan_eq (B := B') (C := C) (i := 0) (Nat.zero_add _) (hlen ▸ hmax)
    refine ⟨r, isLeast_of_home hperm hhome hrn hr fun j hj => hbelow j (Nat.zero_le j) hj, ?_⟩
    rw [hlen] at hscan
    rw [firstMissingPositive_eq hsize, Int.toNat_natCast, ← hA, hloop, Signed.access_ok,
      Signed.ok_bind]
    exact hscan
  obtain ⟨r, hleast, -⟩ := hrun _ (Nat.lt_succ_self _)
  refine ⟨r, hleast, fun fuel hfuel => ?_⟩
  obtain ⟨r', hleast', hfuel'⟩ := hrun fuel hfuel
  obtain rfl : r' = r := by
    have heq := hleast'.unique hleast
    omega
  exact hfuel'

end

/-- The least positive integer that is not in the array is returned. -/
def FindsMissing (A : List Int) : Prop :=
  ∃ r : Int, Checked.Ends (fun fuel => firstMissingPositive fuel A) r ∧
    IsLeast {v : Int | 0 < v ∧ v ∉ A} r

/-- The missing integer `v` is an `int`, and the positive integers below it are among the elements
that `size` counts. -/
def Counted (A : List Int) : Prop :=
  A.length % 2 ^ 32 < 2 ^ 31 ∧ ∃ v : Int, IsLeast {v : Int | 0 < v ∧ v ∉ A} v ∧ v ≤ intMax ∧
    ∀ u, 0 < u → u < v → u ∈ A.take (A.length % 2 ^ 32)

theorem findsMissing_take {A : List Int} {m : Nat} (hm : m ≤ A.length)
    (hsize : int32 A.length = m) (hmax : m ≤ intMax) : FindsMissing A ↔
      ∃ v : Int, IsLeast {v : Int | 0 < v ∧ v ∉ A} v ∧ v ≤ intMax ∧
        ∀ u, 0 < u → u < v → u ∈ A.take m := by
  have hlen : (A.take m).length = m := List.length_take_of_le hm
  obtain ⟨r, hleast, hrun⟩ :=
    firstMissingPositive_run (List.take_append_drop m A) (by rw [hsize, hlen]) (by rwa [hlen])
  have hin : ∀ u, 0 < u → u < ((r + 1 : Nat) : Int) → u ∈ A.take m := by
    intro u hu hur
    by_contra hnot
    exact hur.not_ge (hleast.2 ⟨hu, hnot⟩)
  constructor
  · rintro ⟨v, hends, hv⟩
    obtain ⟨fuel, hfuel, hok⟩ := hends.from ((A.take m).length + 1)
    obtain ⟨hvr, hvmax⟩ := Signed.add_eq_ok ((hrun fuel hfuel).symm.trans hok)
    exact ⟨v, hv, by omega, fun u hu huv => hin u hu (by omega)⟩
  · rintro ⟨v, hv, hvmax, hbelow⟩
    have hvr : v = (r + 1 : Nat) :=
      le_antisymm (not_lt.1 fun hlt => hleast.1.2 (hbelow _ hleast.1.1 hlt))
        (hleast.2 ⟨hv.1.1, fun hmem => hv.1.2 (List.mem_of_mem_take hmem)⟩)
    refine ⟨v, ⟨(A.take m).length + 1, fun fuel hfuel => (hrun fuel hfuel).trans ?_⟩, hv⟩
    rw [Signed.add_ok (Int.natCast_nonneg r) Int.one_nonneg (by omega), hvr]
    rfl

/-- A negative `size` is the answer, less 1. -/
theorem not_findsMissing_of_neg {A : List Int} {size : Int} (hsize : int32 A.length = size)
    (hneg : size < 0) : ¬FindsMissing A := by
  rintro ⟨r, hends, hleast⟩
  obtain ⟨fuel, -, hrun⟩ := hends.from 0
  have hzero : size.toNat = 0 := by omega
  have hadd : firstMissingPositive fuel A = add size 1 := by
    rw [firstMissingPositive_eq hsize, hzero]
    rfl
  have hr := (Signed.add_eq_ok (hadd.symm.trans hrun)).1
  have hpos := hleast.1.1
  omega

/-- **The condition.** -/
theorem findsMissing_iff (A : List Int) : FindsMissing A ↔ Counted A := by
  have hlo := le_int32 A.length
  have hhi := int32_lt A.length
  obtain ⟨q, hq⟩ : (2 ^ 32 : Int) ∣ int32 A.length - A.length := Int.dvd_bmod_sub_self
  unfold Counted
  have hmod : A.length % 2 ^ 32 = (int32 A.length % 2 ^ 32).toNat := by omega
  generalize A.length % 2 ^ 32 = m at hmod ⊢
  by_cases hneg : int32 A.length < 0
  · exact iff_of_false (not_findsMissing_of_neg rfl hneg) fun h => by omega
  · have hint : intMax = 2 ^ 31 - 1 := rfl
    rw [and_iff_right (by omega)]
    exact findsMissing_take (by omega) (by omega) (by omega)

/-- The vector `1, 2, ..., INT_MAX`: the missing integer is no `int`. -/
theorem not_findsMissing_all :
    ¬FindsMissing ((List.range (2 ^ 31 - 1)).map fun i => ((i + 1 : Nat) : Int)) := by
  rw [findsMissing_iff]
  rintro ⟨-, v, ⟨⟨hpos, hout⟩, -⟩, hmax, -⟩
  have hint : intMax = 2 ^ 31 - 1 := rfl
  refine hout (List.mem_map.2 ⟨(v - 1).toNat, ?_, by omega⟩)
  rw [List.mem_range]
  omega

end Class8
