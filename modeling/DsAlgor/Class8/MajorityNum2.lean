import DsAlgor.Lib.Majority
import DsAlgor.Lib.Signed

/-!
# The majority number with two candidates

`majorityNumber` of `majority_num2.c`, for any values of the candidates before they are set. The two
counters are a bag with both candidates, from which three different numbers are cancelled when both
go down. Equal candidates, which are there from the start if at all, have one counter only.

The index is an `int`, so that nothing is returned for more numbers than an `int` can count; the
counters are smaller than the index.
-/

namespace MajorityNum2

open Majority
open Signed (Undefined add sub forEach intMax)

structure Votes where
  candidate1 : Int
  candidate2 : Int
  count1 : Int
  count2 : Int
deriving DecidableEq

/-- The body of the first loop. -/
def vote (s : Votes) (num : Int) : Except Undefined Votes :=
  if s.candidate1 = num then do
    let count1 ← add s.count1 1
    return { s with count1 }
  else if s.candidate2 = num then do
    let count2 ← add s.count2 1
    return { s with count2 }
  else if s.count1 = 0 then return { s with candidate1 := num, count1 := 1 }
  else if s.count2 = 0 then return { s with candidate2 := num, count2 := 1 }
  else do
    let count1 ← sub s.count1 1
    let count2 ← sub s.count2 1
    return { s with count1, count2 }

/-- The body of the second loop: `count1` and `count2`. -/
def recount (candidate1 candidate2 : Int) (s : Int × Int) (num : Int) :
    Except Undefined (Int × Int) :=
  if num = candidate1 then do
    let count1 ← add s.1 1
    return (count1, s.2)
  else if num = candidate2 then do
    let count2 ← add s.2 1
    return (s.1, count2)
  else return s

/-- The first two arguments are what the candidates hold before they are set. -/
def majorityNumber (candidate1 candidate2 : Int) (nums : List Int) : Except Undefined Int := do
  let s ← forEach vote ⟨candidate1, candidate2, 0, 0⟩ nums
  let counts ← forEach (recount s.candidate1 s.candidate2) (0, 0) nums
  if counts.1 > counts.2 then return s.candidate1 else return s.candidate2

/-! ## The first loop -/

section
variable {s : Votes} {nums : List Int} {v candidate1 candidate2 : Int}

/-- The counters as numbers. -/
def bag (candidate1 candidate2 : Int) (count1 count2 : Nat) : Multiset Int :=
  Multiset.replicate count1 candidate1 + Multiset.replicate count2 candidate2

structure Votes.Inv (s : Votes) (nums : List Int) : Prop where
  nonneg1 : 0 ≤ s.count1
  nonneg2 : 0 ≤ s.count2
  length : s.count1 + s.count2 ≤ nums.length
  tally : Tally 3 nums (bag s.candidate1 s.candidate2 s.count1.toNat s.count2.toNat)
  equal : s.candidate1 = s.candidate2 → s.count2 = 0

/-- Both counters go down. -/
theorem bag_cancel {num : Int} {n1 n2 : Nat} (h1 : candidate1 ≠ num) (h2 : candidate2 ≠ num)
    (hne : candidate1 ≠ candidate2)
    (h : Tally 3 nums (num ::ₘ bag candidate1 candidate2 (n1 + 1) (n2 + 1))) :
    Tally 3 nums (bag candidate1 candidate2 n1 n2) := by
  have hsplit : num ::ₘ bag candidate1 candidate2 (n1 + 1) (n2 + 1) =
      {num, candidate1, candidate2} + bag candidate1 candidate2 n1 n2 := by
    simp only [bag, Multiset.replicate_succ, Multiset.insert_eq_cons, Multiset.cons_add,
      Multiset.singleton_add, Multiset.add_cons]
    rw [Multiset.cons_swap candidate2]
  have hnodup : ({num, candidate1, candidate2} : Multiset Int).Nodup := by
    simp [h1.symm, h2.symm, hne]
  rw [hsplit] at h
  have hcancel := h.cancel (Multiset.le_add_right _ _) hnodup rfl
  rwa [add_tsub_cancel_left] at hcancel

theorem Votes.Inv.vote (h : s.Inv nums) (num : Int) (hmax : nums.length + 1 ≤ intMax) :
    ∃ s', vote s num = .ok s' ∧ s'.Inv (nums ++ [num]) := by
  obtain ⟨c1, c2, n1, n2⟩ := s
  obtain ⟨hn1, hn2, hlen, htally, hequal⟩ := h
  dsimp only at hn1 hn2 hlen htally hequal
  lift n1 to Nat using hn1
  lift n2 to Nat using hn2
  have htally := htally.add num
  have hsnoc : ((nums ++ [num]).length : Int) = nums.length + 1 := by simp
  simp only [Int.toNat_natCast] at htally
  unfold MajorityNum2.vote
  dsimp only
  split_ifs with h1 h2 hc1 hc2
  · rw [Signed.add_ok (Int.natCast_nonneg n1) Int.one_nonneg (by omega)]
    refine ⟨_, rfl, by dsimp only; omega, by dsimp only; omega, by dsimp only; omega, ?_, hequal⟩
    have hbag : num ::ₘ bag c1 c2 n1 n2 = bag c1 c2 (n1 + 1) n2 := by
      simp only [bag, Multiset.replicate_succ, Multiset.cons_add, h1]
    exact hbag ▸ htally
  · rw [Signed.add_ok (Int.natCast_nonneg n2) Int.one_nonneg (by omega)]
    refine ⟨_, rfl, by dsimp only; omega, by dsimp only; omega, by dsimp only; omega, ?_,
      fun heq => absurd (heq.trans h2) h1⟩
    have hbag : num ::ₘ bag c1 c2 n1 n2 = bag c1 c2 n1 (n2 + 1) := by
      simp only [bag, Multiset.replicate_succ, Multiset.add_cons, h2]
    exact hbag ▸ htally
  · obtain rfl : n1 = 0 := Int.natCast_eq_zero.1 hc1
    refine ⟨_, rfl, Int.one_nonneg, by dsimp only; omega, by dsimp only; omega, ?_,
      fun heq => absurd heq.symm h2⟩
    have hbag : num ::ₘ bag c1 c2 0 n2 = bag num c2 1 n2 := by
      simp [bag]
    exact hbag ▸ htally
  · obtain rfl : n2 = 0 := Int.natCast_eq_zero.1 hc2
    refine ⟨_, rfl, by dsimp only; omega, Int.one_nonneg, by dsimp only; omega, ?_,
      fun heq => absurd heq h1⟩
    have hbag : num ::ₘ bag c1 c2 n1 0 = bag c1 num n1 1 := by
      rw [bag, bag, Multiset.replicate_zero, Multiset.add_zero, Multiset.replicate_one,
        Multiset.add_comm, Multiset.singleton_add]
    exact hbag ▸ htally
  · obtain ⟨m1, rfl⟩ := Nat.exists_eq_succ_of_ne_zero fun hz => hc1 (congrArg Nat.cast hz)
    obtain ⟨m2, rfl⟩ := Nat.exists_eq_succ_of_ne_zero fun hz => hc2 (congrArg Nat.cast hz)
    have hne : c1 ≠ c2 := fun heq => hc2 (hequal heq)
    have hpred : ∀ m : Nat, ((m.succ : Nat) : Int) - 1 = m := fun m => by push_cast; omega
    have hmin : -intMax - 1 ≤ 0 := by decide
    have hsub : ∀ m : Nat, (m : Int) ≤ nums.length → sub (m.succ : Nat) 1 = .ok (m : Int) := by
      intro m hm
      rw [Signed.sub_eq (by rw [hpred]; omega) (by rw [hpred]; omega), hpred]
    push_cast at hlen
    rw [hsub m1 (by omega), Signed.ok_bind, hsub m2 (by omega), Signed.ok_bind]
    refine ⟨_, rfl, Int.natCast_nonneg m1, Int.natCast_nonneg m2, by dsimp only; omega, ?_,
      fun heq => absurd heq hne⟩
    exact bag_cancel h1 h2 hne htally

theorem Votes.Inv.run (h : s.Inv nums) (rest : List Int)
    (hmax : nums.length + rest.length ≤ intMax) :
    ∃ s', rest.foldlM MajorityNum2.vote s = .ok s' ∧ s'.Inv (nums ++ rest) := by
  induction rest generalizing s nums with
  | nil => exact ⟨s, rfl, by rwa [List.append_nil]⟩
  | cons num rest ih =>
    rw [List.length_cons] at hmax
    push_cast at hmax
    obtain ⟨s', hvote, hs'⟩ := h.vote num (by omega)
    obtain ⟨s'', hrun, hs''⟩ := ih hs' (by simp; omega)
    refine ⟨s'', ?_, by rwa [List.append_assoc, List.singleton_append] at hs''⟩
    rw [List.foldlM_cons, hvote]
    exact hrun

/-! ## The second loop -/

theorem recount_run (n1 n2 : Nat) (hmax : n1 + n2 + nums.length ≤ intMax) :
    nums.foldlM (recount candidate1 candidate2) ((n1 : Int), (n2 : Int)) =
      .ok ((n1 + nums.count candidate1 : Nat),
        (n2 + if candidate1 = candidate2 then 0 else nums.count candidate2 : Nat)) := by
  induction nums generalizing n1 n2 with
  | nil => simp; rfl
  | cons num nums ih =>
    rw [List.length_cons] at hmax
    push_cast at hmax
    rw [List.foldlM_cons, recount, List.count_cons, List.count_cons]
    by_cases h1 : num = candidate1
    · rw [if_pos h1, Signed.add_ok (Int.natCast_nonneg n1) Int.one_nonneg (by omega)]
      refine (ih (n1 + 1) n2 (by push_cast; omega)).trans ?_
      grind
    · rw [if_neg h1]
      by_cases h2 : num = candidate2
      · rw [if_pos h2, Signed.add_ok (Int.natCast_nonneg n2) Int.one_nonneg (by omega)]
        refine (ih n1 (n2 + 1) (by push_cast; omega)).trans ?_
        grind
      · rw [if_neg h2]
        refine (ih n1 n2 (by omega)).trans ?_
        grind

theorem majorityNumber_ok (hmax : nums.length ≤ intMax) (h : Frequent 3 nums v) :
    ∃ r, majorityNumber candidate1 candidate2 nums = .ok r ∧ Frequent 3 nums r := by
  have hstart : Votes.Inv ⟨candidate1, candidate2, 0, 0⟩ [] :=
    ⟨le_rfl, le_rfl, le_rfl, Tally.empty, fun _ => rfl⟩
  obtain ⟨⟨c1, c2, n1, n2⟩, hrun, hend⟩ := hstart.run nums (by simpa using hmax)
  rw [List.nil_append] at hend
  have hcounts : nums.foldlM (recount c1 c2) (0, 0) =
      .ok ((nums.count c1 : Nat), (if c1 = c2 then 0 else nums.count c2 : Nat)) := by
    have hrecount := @recount_run nums c1 c2 0 0 (by simpa using hmax)
    simpa only [Nat.zero_add, Nat.cast_zero] using hrecount
  rw [majorityNumber, Signed.forEach_eq_ok_iff.2 ⟨hmax, hrun⟩, Signed.ok_bind,
    Signed.forEach_eq_ok_iff.2 ⟨hmax, hcounts⟩, Signed.ok_bind]
  have hcand : v = c1 ∨ v = c2 := by
    have hmem := hend.tally.mem h
    rw [bag, Multiset.mem_add] at hmem
    exact hmem.imp Multiset.eq_of_mem_replicate Multiset.eq_of_mem_replicate
  have hpos : 0 < nums.count v := by
    unfold Frequent at h
    omega
  dsimp only
  simp only [gt_iff_lt, Nat.cast_lt]
  by_cases heq : c1 = c2
  · have hv : v = c1 := hcand.elim id fun hv => hv.trans heq.symm
    rw [if_pos heq, ← hv, if_pos hpos]
    exact ⟨v, rfl, h⟩
  · rw [if_neg heq]
    split_ifs with hgt
    · refine ⟨c1, rfl, ?_⟩
      cases hcand with
      | inl hv => exact hv ▸ h
      | inr hv => exact h.of_le (hv ▸ hgt.le)
    · refine ⟨c2, rfl, ?_⟩
      cases hcand with
      | inl hv => exact h.of_le (hv ▸ not_lt.1 hgt)
      | inr hv => exact hv ▸ h

theorem length_le_of_ok {r : Int} (h : majorityNumber candidate1 candidate2 nums = .ok r) :
    nums.length ≤ intMax := by
  rw [majorityNumber] at h
  cases hrun : forEach vote ⟨candidate1, candidate2, 0, 0⟩ nums with
  | error e =>
    rw [hrun] at h
    cases h
  | ok s => exact (Signed.forEach_eq_ok_iff.1 hrun).1

end

end MajorityNum2
