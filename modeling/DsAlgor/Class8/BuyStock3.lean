import DsAlgor.Lib.CInt
import DsAlgor.Lib.Grid
import Mathlib.Order.Bounds.Basic

/-!
# Two transactions

`maxProfit` of `buy_stock3.c`. The pass from the left makes `profits[i]` the best transaction that
ends by day `i`, the pass from the right adds the best one that begins no earlier. Where the sum of
two transactions is greater than `INT_MAX` the addition overflows, and the result is not the
largest total. The number of prices is taken for an `int`, and only that many are looked at. In all
other cases the result is right (`returnsLargest_iff`).
-/

namespace BuyStock3

open Checked Grid

/-! ## The program -/

def INT_MIN : Int := -2 ^ 31

def INT_MAX : Int := 2 ^ 31 - 1

/-- The variables of the pass from the left. -/
structure Forward where
  minP : Int
  sum : Int
  profits : Arr Int

def forwardStep (prices : Arr Int) (s : Forward) (i : Nat) : Except Fault Forward := do
  let minP := min s.minP (← prices.get (i - 1))
  let profit := max s.sum (int32 ((← prices.get i) - minP))
  let profits ← s.profits.set i profit
  return ⟨minP, profit, profits⟩

/-- The variables of the pass from the right. -/
structure Backward where
  maxP : Int
  sum2 : Int
  sum : Int
  profits : Arr Int

def backwardStep (prices : Arr Int) (s : Backward) (i : Nat) : Except Fault Backward := do
  let maxP := max s.maxP (← prices.get (i + 1))
  let sum2 := max s.sum2 (int32 (maxP - (← prices.get i)))
  if sum2 > 0 then do
    let profit := int32 ((← s.profits.get i) + sum2)
    let profits ← s.profits.set i profit
    return ⟨maxP, sum2, max s.sum profit, profits⟩
  else return ⟨maxP, sum2, s.sum, s.profits⟩

def maxProfit (prices : List Int) : Except Fault Int := do
  let len := int32 prices.length
  if len ≤ 1 then return 0
  else
    let first ← Arr.get ⟨0, prices⟩ 0
    let s ← (List.range' 1 (len.toNat - 1)).foldlM (forwardStep ⟨0, prices⟩)
      ⟨first, INT_MIN, ⟨0, List.replicate len.toNat 0⟩⟩
    let last ← Arr.get ⟨0, prices⟩ (len - 1)
    let s ← (List.range (len.toNat - 1)).reverse.foldlM (backwardStep ⟨0, prices⟩)
      ⟨last, INT_MIN, s.sum, s.profits⟩
    return if s.sum > 0 then s.sum else 0

/-! ## Transactions -/

section
variable (p : Nat → Int) (n : Nat)

/-- The profits of the transactions within the days `lo` to `hi`. -/
def Singles (lo hi : Nat) : Set Int :=
  {v | ∃ b s, lo ≤ b ∧ b < s ∧ s ≤ hi ∧ v = p s - p b}

/-- The profits of two transactions; the second one begins on day `lo` or later. -/
def Pairs (lo : Nat) : Set Int :=
  {v | ∃ b₁ s₁ b₂ s₂, b₁ < s₁ ∧ s₁ ≤ b₂ ∧ lo ≤ b₂ ∧ b₂ < s₂ ∧ s₂ < n ∧
    v = (p s₁ - p b₁) + (p s₂ - p b₂)}

/-- The profits of at most two transactions. -/
def Totals : Set Int := {v | v = 0 ∨ v ∈ Singles p 0 (n - 1) ∨ v ∈ Pairs p n 0}

end

def price (prices : List Int) (i : Nat) : Int := prices.getD i 0

/-- The differences of the prices are `int`s. -/
def InRange (prices : List Int) : Prop := ∀ i < prices.length, ∀ j < prices.length,
  INT_MIN ≤ price prices i - price prices j ∧ price prices i - price prices j ≤ INT_MAX

/-- The result is the largest total profit. -/
def ReturnsLargest (prices : List Int) : Prop :=
  ∃ r, maxProfit prices = .ok r ∧ IsGreatest (Totals (price prices) prices.length) r

/-! ## Running maxima -/

/-- The maximum of `S` as a loop has it that starts with `INT_MIN`. -/
structure Top (S : Set Int) (v : Int) : Prop where
  le : ∀ x ∈ S, x ≤ v
  mem : v = INT_MIN ∨ v ∈ S

section
variable {S T : Set Int} {v w : Int}

theorem Top.empty : Top ∅ INT_MIN := ⟨nofun, .inl rfl⟩

/-- The loop comes to another set with maximum `w`. -/
theorem Top.union (h : Top S v) (hw : IsGreatest T w) (hmin : INT_MIN ≤ w) :
    IsGreatest (S ∪ T) (max v w) := by
  constructor
  · rcases max_choice v w with heq | heq
    · rw [heq]
      rcases h.mem with rfl | hv
      · have hwv : w = INT_MIN := le_antisymm (heq ▸ le_max_right _ _) hmin
        exact .inr (hwv ▸ hw.1)
      · exact .inl hv
    · rw [heq]
      exact .inr hw.1
  · rintro x (hx | hx)
    · exact (h.le x hx).trans (le_max_left v w)
    · exact (hw.2 hx).trans (le_max_right v w)

theorem Top.greatest (h : Top S v) (hw : w ∈ S) (hmin : ∀ x ∈ S, INT_MIN ≤ x) :
    IsGreatest S v := by
  refine ⟨?_, fun x hx => h.le x hx⟩
  rcases h.mem with rfl | hv
  · have heq : INT_MIN = w := le_antisymm (hmin w hw) (h.le w hw)
    exact heq ▸ hw
  · exact hv

theorem Top.of_greatest (h : IsGreatest S v) : Top S v := ⟨fun _ hx => h.2 hx, .inr h.1⟩

end

section
variable {p : Nat → Int} {n lo hi i : Nat} {m v : Int} {prices : Arr Int}

theorem singles_empty (h : hi ≤ lo) : Singles p lo hi = ∅ := by
  refine Set.eq_empty_iff_forall_notMem.2 ?_
  rintro v ⟨b, s, hb, hbs, hs, -⟩
  omega

/-- The transactions that end on the last day. -/
theorem singles_succ : Singles p 0 (hi + 1) =
    Singles p 0 hi ∪ {v | ∃ b ≤ hi, v = p (hi + 1) - p b} := by
  ext v
  constructor
  · rintro ⟨b, s, hb, hbs, hs, rfl⟩
    rcases Nat.le_succ_iff.1 hs with hs | rfl
    · exact .inl ⟨b, s, hb, hbs, hs, rfl⟩
    · exact .inr ⟨b, by omega, rfl⟩
  · rintro (⟨b, s, hb, hbs, hs, rfl⟩ | ⟨b, hb, rfl⟩)
    · exact ⟨b, s, hb, hbs, by omega, rfl⟩
    · exact ⟨b, hi + 1, by omega, by omega, le_rfl, rfl⟩

/-- The transactions that begin on the first day. -/
theorem singles_pred : Singles p lo hi =
    Singles p (lo + 1) hi ∪ {v | ∃ s, lo < s ∧ s ≤ hi ∧ v = p s - p lo} := by
  ext v
  constructor
  · rintro ⟨b, s, hb, hbs, hs, rfl⟩
    rcases Nat.eq_or_lt_of_le hb with rfl | hb
    · exact .inr ⟨s, hbs, hs, rfl⟩
    · exact .inl ⟨b, s, hb, hbs, hs, rfl⟩
  · rintro (⟨b, s, hb, hbs, hs, rfl⟩ | ⟨s, hs, hs', rfl⟩)
    · exact ⟨b, s, by omega, hbs, hs, rfl⟩
    · exact ⟨lo, s, le_rfl, hs, hs', rfl⟩

/-! ## The pass from the left -/

/-- The differences of `p` below `n` are `int`s. -/
def Small (p : Nat → Int) (n : Nat) : Prop :=
  ∀ i < n, ∀ j < n, INT_MIN ≤ p i - p j ∧ p i - p j ≤ INT_MAX

theorem int32_eq (h : INT_MIN ≤ v ∧ v ≤ INT_MAX) : int32 v = v :=
  int32_eq_self h.1 (Int.lt_of_le_sub_one h.2)

theorem int32_le (v : Int) : int32 v ≤ INT_MAX := Int.le_sub_one_of_lt (int32_lt v)

/-- Before step `i`. -/
structure ForwardInv (p : Nat → Int) (n i : Nat) (s : Forward) : Prop where
  minP_mem : ∃ k < i, s.minP = p k
  minP_le : ∀ k, k + 1 < i → s.minP ≤ p k
  sum : Top (Singles p 0 (i - 1)) s.sum
  profits : ∃ f, s.profits = ⟨0, gridRow n f⟩ ∧ f 0 = 0 ∧
    ∀ k, 1 ≤ k → k < i → IsGreatest (Singles p 0 k) (f k)

/-- The first `n` prices are `p`. -/
def Begins (prices : Arr Int) (p : Nat → Int) (n : Nat) : Prop :=
  ∀ i < n, prices.get (i : Nat) = .ok (p i)

theorem ForwardInv.step {s : Forward} (h : ForwardInv p n i s) (hprices : Begins prices p n)
    (hp : Small p n) (hi : 1 ≤ i) (hin : i < n) :
    ∃ s', forwardStep prices s i = .ok s' ∧ ForwardInv p n (i + 1) s' := by
  obtain ⟨⟨k, hk, hmin⟩, hle, hsum, f, hf, hzero, hprofits⟩ := h
  obtain ⟨i, rfl⟩ := Nat.exists_eq_succ_of_ne_zero (Nat.ne_zero_of_lt hi)
  rw [Nat.succ_eq_add_one, Nat.add_sub_cancel] at hsum
  have hmem : ∃ k < i + 1, min s.minP (p i) = p k := by
    rcases min_choice s.minP (p i) with heq | heq
    · exact ⟨k, hk, heq.trans hmin⟩
    · exact ⟨i, Nat.lt_succ_self i, heq⟩
  have hleast : ∀ k < i + 1, min s.minP (p i) ≤ p k := by
    intro k hk
    rcases Nat.lt_succ_iff_lt_or_eq.1 hk with hk | rfl
    · exact (min_le_left _ _).trans (hle k (by omega))
    · exact min_le_right _ _
  obtain ⟨b, hb, hbuy⟩ := hmem
  have hdiff := hp (i + 1) hin b (by omega)
  have hbest : IsGreatest {v | ∃ b ≤ i, v = p (i + 1) - p b} (p (i + 1) - p b) := by
    refine ⟨⟨b, Nat.le_of_lt_succ hb, rfl⟩, ?_⟩
    rintro v ⟨c, hc, rfl⟩
    have hc := hleast c (Nat.lt_succ_of_le hc)
    omega
  have hnew := hsum.union hbest hdiff.1
  rw [← singles_succ] at hnew
  have hpred : ((i + 1 : Nat) : Int) - 1 = (i : Nat) := by omega
  refine ⟨⟨p b, max s.sum (p (i + 1) - p b),
    ⟨0, gridRow n (Function.update f (i + 1) (max s.sum (p (i + 1) - p b)))⟩⟩, ?_, ?_⟩
  · rw [forwardStep, hpred, hprices i (by omega), ok_bind]
    dsimp only
    rw [hprices (i + 1) hin, ok_bind, hbuy, int32_eq hdiff, hf, set_gridRow hin]
    rfl
  · refine ⟨⟨b, by omega, rfl⟩, fun k hk => ?_, .of_greatest hnew, _, rfl, ?_, fun k hk hki => ?_⟩
    · rw [← hbuy]
      exact hleast k (by omega)
    · rw [Function.update_of_ne (by omega), hzero]
    · by_cases heq : k = i + 1
      · rw [heq, Function.update_self]
        exact hnew
      · rw [Function.update_of_ne heq]
        exact hprofits k hk (by omega)

/-! ## The pass from the right -/

/-- The sum of two transactions is an `int`. -/
def NoOverflow (p : Nat → Int) (n : Nat) : Prop := ∀ v ∈ Pairs p n 0, v ≤ INT_MAX

/-- Once the days from `i` on are done. -/
structure BackwardInv (p : Nat → Int) (n i : Nat) (s : Backward) : Prop where
  maxP_mem : ∃ k, i ≤ k ∧ k < n ∧ s.maxP = p k
  maxP_le : ∀ k, i < k → k < n → p k ≤ s.maxP
  sum2 : Top (Singles p i (n - 1)) s.sum2
  profits : ∃ f, s.profits = ⟨0, gridRow n f⟩ ∧ (0 < i → f 0 = 0) ∧
    ∀ k, 1 ≤ k → k < i → IsGreatest (Singles p 0 k) (f k)
  le : s.sum ≤ INT_MAX
  total : NoOverflow p n → s.sum ∈ Totals p n ∧
    ∀ v, v ∈ Singles p 0 (n - 1) ∨ v ∈ Pairs p n i → v ≤ s.sum

/-- Two transactions around day `i`, or the second one begins later. -/
theorem pairs_pred : v ∈ Pairs p n i ↔ v ∈ Pairs p n (i + 1) ∨
    ∃ x ∈ Singles p 0 i, ∃ y ∈ Singles p i (n - 1), v = x + y := by
  constructor
  · rintro ⟨b₁, s₁, b₂, s₂, h₁, hmid, hi, h₂, hn, rfl⟩
    rcases Nat.eq_or_lt_of_le hi with rfl | hi
    · exact .inr ⟨_, ⟨b₁, s₁, Nat.zero_le _, h₁, hmid, rfl⟩, _,
        ⟨i, s₂, le_rfl, h₂, by omega, rfl⟩, rfl⟩
    · exact .inl ⟨b₁, s₁, b₂, s₂, h₁, hmid, hi, h₂, hn, rfl⟩
  · rintro (⟨b₁, s₁, b₂, s₂, h₁, hmid, hi, h₂, hn, rfl⟩ |
      ⟨_, ⟨b₁, s₁, -, h₁, hs, rfl⟩, _, ⟨b₂, s₂, hb, h₂, hn, rfl⟩, rfl⟩)
    · exact ⟨b₁, s₁, b₂, s₂, h₁, hmid, by omega, h₂, hn, rfl⟩
    · exact ⟨b₁, s₁, b₂, s₂, h₁, by omega, hb, h₂, by omega, rfl⟩

theorem pairs_zero (h : v ∈ Pairs p n i) : v ∈ Pairs p n 0 := by
  obtain ⟨b₁, s₁, b₂, s₂, h₁, hmid, -, h₂, hn, hv⟩ := h
  exact ⟨b₁, s₁, b₂, s₂, h₁, hmid, Nat.zero_le _, h₂, hn, hv⟩

theorem singles_mono {lo' hi' : Nat} (hlo : lo' ≤ lo) (hhi : hi ≤ hi')
    (h : v ∈ Singles p lo hi) : v ∈ Singles p lo' hi' := by
  obtain ⟨b, s, hb, hbs, hs, hv⟩ := h
  exact ⟨b, s, by omega, hbs, by omega, hv⟩

theorem singles_small (hp : Small p n) (h : v ∈ Singles p lo hi) (hn : hi < n) :
    INT_MIN ≤ v ∧ v ≤ INT_MAX := by
  obtain ⟨b, s, hb, hbs, hs, rfl⟩ := h
  exact hp s (by omega) b (by omega)

/-- The highest price ahead, and the best transaction that begins no earlier than day `i`. -/
theorem BackwardInv.ahead {s : Backward} (h : BackwardInv p n (i + 1) s) (hp : Small p n)
    (hin : i + 1 < n) : ∃ k, i < k ∧ k < n ∧ max s.maxP (p (i + 1)) = p k ∧
      (∀ j, i < j → j < n → p j ≤ p k) ∧ (INT_MIN ≤ p k - p i ∧ p k - p i ≤ INT_MAX) ∧
      IsGreatest (Singles p i (n - 1)) (max s.sum2 (p k - p i)) := by
  have hmem : ∃ k, i < k ∧ k < n ∧ max s.maxP (p (i + 1)) = p k := by
    rcases max_choice s.maxP (p (i + 1)) with heq | heq
    · obtain ⟨k, hk, hkn, hmax⟩ := h.maxP_mem
      exact ⟨k, hk, hkn, heq.trans hmax⟩
    · exact ⟨i + 1, Nat.lt_succ_self i, hin, heq⟩
  obtain ⟨k, hk, hkn, hmax⟩ := hmem
  have hle : ∀ j, i < j → j < n → p j ≤ p k := by
    intro j hj hjn
    rw [← hmax]
    rcases Nat.eq_or_lt_of_le hj with rfl | hj
    · exact le_max_right _ _
    · exact (h.maxP_le j hj hjn).trans (le_max_left _ _)
  have hdiff := hp k hkn i (by omega)
  have hbest : IsGreatest {v | ∃ s, i < s ∧ s ≤ n - 1 ∧ v = p s - p i} (p k - p i) := by
    refine ⟨⟨k, hk, by omega, rfl⟩, ?_⟩
    rintro v ⟨j, hj, hjn, rfl⟩
    have hj := hle j hj (by omega)
    omega
  have hsum2 := h.sum2.union hbest hdiff.1
  rw [← singles_pred] at hsum2
  exact ⟨k, hk, hkn, hmax, hle, hdiff, hsum2⟩

/-- Day `i` with a profitable transaction ahead. -/
theorem total_add {f : Nat → Int} {sum sum2 : Int} (hp : Small p n) (hin : i + 1 < n)
    (hno : NoOverflow p n) (hsum2 : IsGreatest (Singles p i (n - 1)) sum2) (hpos : sum2 > 0)
    (hzero : f 0 = 0) (hf : 1 ≤ i → IsGreatest (Singles p 0 i) (f i))
    (hmem : sum ∈ Totals p n)
    (hle : ∀ v, v ∈ Singles p 0 (n - 1) ∨ v ∈ Pairs p n (i + 1) → v ≤ sum) :
    max sum (int32 (f i + sum2)) ∈ Totals p n ∧
      ∀ v, v ∈ Singles p 0 (n - 1) ∨ v ∈ Pairs p n i → v ≤ max sum (int32 (f i + sum2)) := by
  have hsmall := singles_small hp hsum2.1 (by omega)
  have htotal : f i + sum2 ∈ Totals p n ∧ INT_MIN ≤ f i + sum2 ∧ f i + sum2 ≤ INT_MAX := by
    by_cases hi : i = 0
    · subst hi
      rw [hzero, zero_add]
      exact ⟨.inr (.inl hsum2.1), hsmall⟩
    · have hi := hf (Nat.pos_of_ne_zero hi)
      have hpair : f i + sum2 ∈ Pairs p n i := pairs_pred.2 (.inr ⟨_, hi.1, _, hsum2.1, rfl⟩)
      have hge := (singles_small hp hi.1 (by omega)).1
      exact ⟨.inr (.inr (pairs_zero hpair)), by omega, hno _ (pairs_zero hpair)⟩
  rw [int32_eq htotal.2]
  refine ⟨?_, fun v hv => ?_⟩
  · rcases max_choice sum (f i + sum2) with heq | heq
    · rwa [heq]
    · rw [heq]
      exact htotal.1
  · rcases hv with hv | hv
    · exact (hle v (.inl hv)).trans (le_max_left _ _)
    · rcases pairs_pred.1 hv with hv | ⟨x, hx, y, hy, rfl⟩
      · exact (hle v (.inr hv)).trans (le_max_left _ _)
      · have hi : 1 ≤ i := by
          obtain ⟨b, s, -, hbs, hs, -⟩ := hx
          omega
        have hx := (hf hi).2 hx
        have hy := hsum2.2 hy
        exact le_max_of_le_right (add_le_add hx hy)

/-- Day `i` without one. -/
theorem total_same {sum sum2 : Int} (hin : i + 1 < n)
    (hsum2 : IsGreatest (Singles p i (n - 1)) sum2) (hpos : ¬sum2 > 0)
    (hle : ∀ v, v ∈ Singles p 0 (n - 1) ∨ v ∈ Pairs p n (i + 1) → v ≤ sum) :
    ∀ v, v ∈ Singles p 0 (n - 1) ∨ v ∈ Pairs p n i → v ≤ sum := by
  rintro v (hv | hv)
  · exact hle v (.inl hv)
  · rcases pairs_pred.1 hv with hv | ⟨x, hx, y, hy, rfl⟩
    · exact hle v (.inr hv)
    · have hx := hle x (.inl (singles_mono le_rfl (by omega) hx))
      have hy := hsum2.2 hy
      omega

theorem BackwardInv.step {s : Backward} (h : BackwardInv p n (i + 1) s)
    (hprices : Begins prices p n) (hp : Small p n) (hin : i + 1 < n) :
    ∃ s', backwardStep prices s i = .ok s' ∧ BackwardInv p n i s' := by
  obtain ⟨k, hk, hkn, hmax, hle, hdiff, hsum2⟩ := h.ahead hp hin
  obtain ⟨f, hf, hzero, hprofits⟩ := h.profits
  have hsucc : (i : Int) + 1 = (i + 1 : Nat) := by omega
  have hrun : backwardStep prices s i =
      if max s.sum2 (p k - p i) > 0 then
        .ok ⟨p k, max s.sum2 (p k - p i), max s.sum (int32 (f i + max s.sum2 (p k - p i))),
          ⟨0, gridRow n (Function.update f i (int32 (f i + max s.sum2 (p k - p i))))⟩⟩
      else .ok ⟨p k, max s.sum2 (p k - p i), s.sum, s.profits⟩ := by
    rw [backwardStep, hsucc, hprices (i + 1) hin, ok_bind]
    dsimp only
    rw [hprices i (by omega), ok_bind, hmax, int32_eq hdiff]
    refine if_congr Iff.rfl ?_ rfl
    rw [hf, get_gridRow (by omega), ok_bind, set_gridRow (by omega), ok_bind]
    rfl
  rw [hrun]
  split_ifs with hpos
  · refine ⟨_, rfl, ⟨k, hk.le, hkn, rfl⟩, hle, .of_greatest hsum2, ⟨_, rfl, ?_, ?_⟩, ?_, ?_⟩
    · intro hi
      rw [Function.update_of_ne (by omega), hzero (Nat.succ_pos i)]
    · intro j hj hji
      rw [Function.update_of_ne (by omega)]
      exact hprofits j hj (by omega)
    · exact max_le h.le (int32_le _)
    · intro hno
      obtain ⟨hmem, hsum⟩ := h.total hno
      exact total_add hp hin hno hsum2 hpos (hzero (Nat.succ_pos i))
        (fun hi => hprofits i hi (Nat.lt_succ_self i)) hmem hsum
  · refine ⟨_, rfl, ⟨k, hk.le, hkn, rfl⟩, hle, .of_greatest hsum2, ⟨f, hf, ?_, ?_⟩, h.le, ?_⟩
    · exact fun _ => hzero (Nat.succ_pos i)
    · exact fun j hj hji => hprofits j hj (by omega)
    · intro hno
      obtain ⟨hmem, hsum⟩ := h.total hno
      exact ⟨hmem, total_same hin hsum2 hpos hsum⟩

/-! ## The whole program -/

theorem run_forward (hprices : Begins prices p n) (hp : Small p n) (hn : 2 ≤ n) :
    ∃ s, (List.range' 1 (n - 1)).foldlM (forwardStep prices)
      ⟨p 0, INT_MIN, ⟨0, List.replicate n 0⟩⟩ = .ok s ∧ ForwardInv p n n s := by
  have hstart : ForwardInv p n 1 ⟨p 0, INT_MIN, ⟨0, List.replicate n 0⟩⟩ := by
    refine ⟨⟨0, Nat.zero_lt_one, rfl⟩, fun k hk => by omega, ?_, fun _ => 0, ?_, rfl,
      fun k hk hk' => by omega⟩
    · rw [singles_empty (by omega)]
      exact Top.empty
    · rw [replicate_gridRow]
  obtain ⟨s, hrun, hs⟩ := upward (fun i hi hin s hs => hs.step hprices hp hi (by omega)) hstart
    (n := n - 1)
  have hlen : 1 + (n - 1) = n := by omega
  rw [hlen] at hs
  exact ⟨s, hrun, hs⟩

theorem run_backward {s : Forward} (hs : ForwardInv p n n s) (hprices : Begins prices p n)
    (hp : Small p n) (hn : 2 ≤ n) :
    ∃ s', (List.range (n - 1)).reverse.foldlM (backwardStep prices)
      ⟨p (n - 1), INT_MIN, s.sum, s.profits⟩ = .ok s' ∧ BackwardInv p n 0 s' := by
  have hsum : IsGreatest (Singles p 0 (n - 1)) s.sum :=
    hs.sum.greatest ⟨0, 1, le_rfl, Nat.zero_lt_one, by omega, rfl⟩
      fun x hx => (singles_small hp hx (by omega)).1
  obtain ⟨f, hf, hzero, hprofits⟩ := hs.profits
  have hstart : BackwardInv p n (n - 1) ⟨p (n - 1), INT_MIN, s.sum, s.profits⟩ := by
    refine ⟨⟨n - 1, le_rfl, by omega, rfl⟩, fun k hk hkn => by omega, ?_,
      ⟨f, hf, fun _ => hzero, fun k hk hk' => hprofits k hk (by omega)⟩,
      (singles_small hp hsum.1 (by omega)).2, fun _ => ⟨.inr (.inl hsum.1), ?_⟩⟩
    · rw [singles_empty le_rfl]
      exact Top.empty
    · rintro v (hv | ⟨b₁, s₁, b₂, s₂, -, -, hb, h₂, hn', -⟩)
      · exact hsum.2 hv
      · omega
  exact downward (fun i hi s hs => hs.step hprices hp (by omega)) hstart

/-- The largest total is what the passes find, or 0. -/
theorem greatest_total {sum : Int} (hmem : sum ∈ Totals p n)
    (hle : ∀ v, v ∈ Singles p 0 (n - 1) ∨ v ∈ Pairs p n 0 → v ≤ sum) :
    IsGreatest (Totals p n) (if sum > 0 then sum else 0) := by
  split_ifs with hpos
  · refine ⟨hmem, ?_⟩
    rintro v (rfl | hv)
    · exact hpos.le
    · exact hle v hv
  · refine ⟨.inl rfl, ?_⟩
    rintro v (rfl | hv)
    · exact le_rfl
    · exact (hle v hv).trans (not_lt.1 hpos)

end

/-- The total of two transactions that do not overlap. -/
def totalProfit (prices : List Int) (b₁ s₁ b₂ s₂ : Nat) : Int :=
  (price prices s₁ - price prices b₁) + (price prices s₂ - price prices b₂)

theorem get_price {prices : List Int} {i : Nat} (hi : i < prices.length) :
    Arr.get ⟨0, prices⟩ i = .ok (price prices i) :=
  get_nat (by simp [price, hi])

/-- How many prices are looked at. -/
def len (prices : List Int) : Nat := (int32 prices.length).toNat

theorem len_le (prices : List Int) : len prices ≤ prices.length :=
  Int.toNat_le.2 (int32_natCast_le _)

theorem maxProfit_returns {prices : List Int} (h : InRange prices) :
    ∃ r, maxProfit prices = .ok r ∧ r ≤ INT_MAX ∧
      (NoOverflow (price prices) (len prices) →
        IsGreatest (Totals (price prices) (len prices)) r) := by
  have hle := len_le prices
  by_cases hn : int32 prices.length ≤ 1
  · have hlen : len prices ≤ 1 := Int.toNat_le.2 hn
    refine ⟨0, by rw [maxProfit, if_pos hn]; rfl, by decide, fun _ => ⟨.inl rfl, ?_⟩⟩
    rintro v (rfl | ⟨b, s, -, hbs, hs, -⟩ | ⟨b₁, s₁, b₂, s₂, -, -, -, h₂, hn', -⟩)
    · exact le_rfl
    · omega
    · omega
  · have hcast : int32 prices.length = (len prices : Int) :=
      (Int.toNat_of_nonneg (by omega)).symm
    have hlen : 2 ≤ len prices := by omega
    have hprices : Begins ⟨0, prices⟩ (price prices) (len prices) :=
      fun i hi => get_price (hi.trans_le hle)
    have hsmall : Small (price prices) (len prices) :=
      fun i hi j hj => h i (hi.trans_le hle) j (hj.trans_le hle)
    obtain ⟨s, hforward, hs⟩ := run_forward hprices hsmall hlen
    obtain ⟨s', hbackward, hs'⟩ := run_backward hs hprices hsmall hlen
    have hpred : (len prices : Int) - 1 = (len prices - 1 : Nat) := by omega
    have hfirst : Arr.get ⟨0, prices⟩ 0 = .ok (price prices 0) := hprices 0 (by omega)
    have hlast := hprices (len prices - 1) (by omega)
    refine ⟨if s'.sum > 0 then s'.sum else 0, ?_, ?_, fun hno => ?_⟩
    · rw [maxProfit, if_neg hn, hfirst, ok_bind, hcast, Int.toNat_natCast, hforward, ok_bind, hpred,
        hlast, ok_bind, hbackward, ok_bind]
      rfl
    · split_ifs
      · exact hs'.le
      · decide
    · obtain ⟨hmem, hle⟩ := hs'.total hno
      exact greatest_total hmem hle

theorem pairs_mono {p : Nat → Int} {m n : Nat} {v : Int} (hmn : m ≤ n) (h : v ∈ Pairs p m 0) :
    v ∈ Pairs p n 0 := by
  obtain ⟨b₁, s₁, b₂, s₂, h₁, hmid, hlo, h₂, hm, hv⟩ := h
  exact ⟨b₁, s₁, b₂, s₂, h₁, hmid, hlo, h₂, by omega, hv⟩

theorem totals_mono {p : Nat → Int} {m n : Nat} {v : Int} (hmn : m ≤ n) (h : v ∈ Totals p m) :
    v ∈ Totals p n := by
  rcases h with hv | hv | hv
  · exact .inl hv
  · exact .inr (.inl (singles_mono le_rfl (by omega) hv))
  · exact .inr (.inr (pairs_mono hmn hv))

/-- Some total of the prices that are looked at is as great as any. -/
def Attained (prices : List Int) : Prop := ∀ v ∈ Totals (price prices) prices.length,
  ∃ w ∈ Totals (price prices) (len prices), v ≤ w

/-- **The condition**: no total overflows, and a largest one is among the prices looked at. -/
theorem returnsLargest_iff {prices : List Int} (h : InRange prices) :
    ReturnsLargest prices ↔
      (∀ b₁ s₁ b₂ s₂, b₁ < s₁ → s₁ ≤ b₂ → b₂ < s₂ → s₂ < prices.length →
        totalProfit prices b₁ s₁ b₂ s₂ ≤ INT_MAX) ∧ Attained prices := by
  obtain ⟨r, hrun, hle, hbest⟩ := maxProfit_returns h
  have hno : (∀ b₁ s₁ b₂ s₂, b₁ < s₁ → s₁ ≤ b₂ → b₂ < s₂ → s₂ < prices.length →
      totalProfit prices b₁ s₁ b₂ s₂ ≤ INT_MAX) ↔ NoOverflow (price prices) prices.length := by
    constructor
    · rintro hall v ⟨b₁, s₁, b₂, s₂, h₁, hmid, -, h₂, hn, rfl⟩
      exact hall b₁ s₁ b₂ s₂ h₁ hmid h₂ hn
    · intro hall b₁ s₁ b₂ s₂ h₁ hmid h₂ hn
      exact hall _ ⟨b₁, s₁, b₂, s₂, h₁, hmid, Nat.zero_le _, h₂, hn, rfl⟩
  rw [hno]
  have hwithin (hno : NoOverflow (price prices) prices.length) :
      IsGreatest (Totals (price prices) (len prices)) r :=
    hbest fun v hv => hno v (pairs_mono (len_le prices) hv)
  constructor
  · rintro ⟨r', hrun', hgreat⟩
    obtain rfl := Except.ok.inj (hrun.symm.trans hrun')
    have hsmall : NoOverflow (price prices) prices.length := fun v hv =>
      (hgreat.2 (.inr (.inr hv))).trans hle
    exact ⟨hsmall, fun v hv => ⟨r, (hwithin hsmall).1, hgreat.2 hv⟩⟩
  · rintro ⟨hsmall, hattained⟩
    obtain ⟨hmem, hupper⟩ := hwithin hsmall
    refine ⟨r, hrun, totals_mono (len_le prices) hmem, fun v hv => ?_⟩
    obtain ⟨w, hw, hvw⟩ := hattained v hv
    exact hvw.trans (hupper hw)

theorem returnsLargest_iff_eight : ReturnsLargest [3, 3, 5, 0, 0, 3, 1, 4] ↔
    (∀ b₁ s₁ b₂ s₂, b₁ < s₁ → s₁ ≤ b₂ → b₂ < s₂ → s₂ < 8 →
      totalProfit [3, 3, 5, 0, 0, 3, 1, 4] b₁ s₁ b₂ s₂ ≤ INT_MAX) ∧
        Attained [3, 3, 5, 0, 0, 3, 1, 4] :=
  returnsLargest_iff (by unfold InRange; decide)

/-- Two transactions with a profit of `INT_MAX` each. -/
theorem not_returnsLargest_twice : InRange [0, INT_MAX, 0, INT_MAX] ∧
    ¬ReturnsLargest [0, INT_MAX, 0, INT_MAX] := by
  refine ⟨by unfold InRange; decide, ?_⟩
  rintro ⟨r, hrun, hgreat⟩
  have hval : maxProfit [0, INT_MAX, 0, INT_MAX] = .ok INT_MAX := by decide
  obtain rfl := Except.ok.inj (hval.symm.trans hrun)
  have hpair : INT_MAX + INT_MAX ≤ INT_MAX :=
    hgreat.2 (.inr (.inr ⟨0, 1, 2, 3, by decide, by decide, by decide, by decide, by decide, rfl⟩))
  exact absurd hpair (by decide)

end BuyStock3
