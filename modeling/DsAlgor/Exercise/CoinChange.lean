import DsAlgor.Lib.Coins
import DsAlgor.Lib.Grid
import DsAlgor.Lib.Signed

/-!
# `coin_change.c`

The outer loop of `countWays` goes through the sums and the inner one through the coins, so the
table counts in how many orders a sum can be paid coin by coin, as long as these numbers are `int`s
(`countWays_eq`). The recurrence of the comment counts multisets of coins (`ways_eq_ncard`).
-/

namespace CoinChange

open Checked (Arr get_nat)
open Grid Enumerate Coins Signed

section
variable (S : List Int)

/-- The body of the loop over `j`. -/
def addCoin (i : Nat) (table : Arr Int) (j : Nat) : Except Undefined (Arr Int) := do
  let s ← access (Arr.get ⟨0, S⟩ j)
  let more ← if (i : Int) - s ≥ 0 then access (table.get (i - s)) else pure 0
  let old ← access (table.get i)
  let sum ← add old more
  access (table.set i sum)

def countWays (m n : Nat) : Except Undefined Int := do
  let size ← add n 1
  let table : Arr Int := ⟨0, List.replicate size.toNat 0⟩
  let table ← access (table.set 0 1)
  let table ← (List.range' 1 n).foldlM
    (fun table i => (List.range' 0 m).foldlM (addCoin S i) table) table
  access (table.get n)

/-- The comment: `ways(i, j) = ways(i - s(j), j) + ways(i, j - 1)`. -/
def ways (i : Int) : Nat → Nat
  | 0 => if i = 0 then 1 else 0
  | j + 1 =>
    let s := S[j]?.getD 0
    if _ : 0 < s ∧ s ≤ i then ways (i - s) (j + 1) + ways i j else ways i j
termination_by j => (j, i.toNat)
decreasing_by
  all_goals simp_wf
  all_goals omega

end

/-! ## The recurrence -/

section
variable {S : List Int}

theorem enumerates_ways (hpos : ∀ s ∈ S, 0 < s) (hnodup : S.Nodup) (i : Int) (j : Nat)
    (hj : j ≤ S.length) : ∃ ls, Enumerates ls (Pays (S.take j) i) ∧ ls.length = ways S i j := by
  have hout : ∀ j (hj : j < S.length), S[j] ∉ S.take j := by
    intro j hj hmem
    have hnd := hnodup.sublist (List.take_sublist (j + 1) S)
    rw [← List.take_concat_get' S j hj, List.nodup_append] at hnd
    exact hnd.2.2 _ hmem _ (List.mem_singleton_self _) rfl
  have hsplit : ∀ j (hj : j < S.length), S.take (j + 1) = S.take j ++ [S[j]] :=
    fun j hj => (List.take_concat_get' S j hj).symm
  induction i, j using ways.induct S with
  | case1 =>
    rw [ways, if_pos rfl, List.take_zero]
    exact ⟨[0], .singleton fun t => by rw [pays_nil, and_iff_right rfl], rfl⟩
  | case2 i hi =>
    rw [ways, if_neg hi, List.take_zero]
    exact ⟨[], ⟨List.nodup_nil, fun t => by simp [pays_nil, hi]⟩, rfl⟩
  | case3 i j s hs ih ih' =>
    have hlt : j < S.length := hj
    have hget : s = S[j] := by simp [s, hlt]
    obtain ⟨ls, hls, hlen⟩ := ih hj
    obtain ⟨ls', hls', hlen'⟩ := ih' hlt.le
    rw [hsplit j hlt, ← hget] at hls ⊢
    refine ⟨_, enumerates_pays (hget ▸ hout j hlt) hls hls', ?_⟩
    rw [ways, dif_pos hs, List.length_append, List.length_map, hlen, hlen']
  | case4 i j s hs ih =>
    have hlt : j < S.length := hj
    have hget : s = S[j] := by simp [s, hlt]
    obtain ⟨ls, hls, hlen⟩ := ih hlt.le
    have hspos : 0 < s := hpos s (hget ▸ List.getElem_mem hlt)
    have hnone : Enumerates [] (Pays (S.take j ++ [s]) (i - s)) := by
      refine ⟨List.nodup_nil, fun t => iff_of_false List.not_mem_nil fun ht => ?_⟩
      have hnonneg := ht.nonneg fun x hx => ?_
      · omega
      · rw [hget, ← hsplit j hlt] at hx
        exact hpos x (List.mem_of_mem_take hx)
    rw [hsplit j hlt, ← hget]
    refine ⟨_, enumerates_pays (hget ▸ hout j hlt) hnone hls, ?_⟩
    rw [ways, dif_neg hs, List.map_nil, List.nil_append, hlen]

/-- **The recurrence** counts the multisets of coins. -/
theorem ways_eq_ncard (hpos : ∀ s ∈ S, 0 < s) (hnodup : S.Nodup) (n : Int) :
    ways S n S.length = {t | Pays S n t}.ncard := by
  obtain ⟨ls, henum, hlen⟩ := enumerates_ways hpos hnodup n S.length le_rfl
  rw [List.take_length] at henum
  rw [henum.ncard, hlen]

end

/-! ## The table -/

section
variable {S : List Int} {n i j : Nat} {f : Nat → Int}

/-- What the loop over the coins adds up. -/
def total (S : List Int) (f : Nat → Int) (i : Nat) : Int :=
  ((S.filter (· ≤ (i : Int))).map fun s => f ((i : Int) - s).toNat).sum

theorem total_nonneg (hpos : ∀ s ∈ S, 0 < s) (hf : ∀ k < i, 0 ≤ f k) : 0 ≤ total S f i := by
  refine List.sum_nonneg fun x hx => ?_
  obtain ⟨s, hs, rfl⟩ := List.mem_map.1 hx
  obtain ⟨hs, hle⟩ := List.mem_filter.1 hs
  have hspos := hpos s hs
  have hle := of_decide_eq_true hle
  exact hf _ (by omega)

/-- One coin: the sum is an `int`, or it overflows. -/
theorem addCoin_run (hpos : ∀ s ∈ S, 0 < s) (hi : i ≤ n) (hj : j < S.length)
    (hf : ∀ k < i, 0 ≤ f k) {x : Int} (hx : 0 ≤ x) :
    addCoin S i ⟨0, gridRow (n + 1) (Function.update f i x)⟩ j =
      if x + total [S[j]] f i ≤ intMax then
        .ok ⟨0, gridRow (n + 1) (Function.update f i (x + total [S[j]] f i))⟩
      else .error .overflow := by
  have hs : Arr.get ⟨0, S⟩ j = .ok S[j] := get_nat (List.getElem?_eq_getElem hj)
  have hspos := hpos S[j] (List.getElem_mem hj)
  have hnonneg : 0 ≤ total [S[j]] f i :=
    total_nonneg (fun s hs => List.mem_singleton.1 hs ▸ hspos) hf
  have hi : i < n + 1 := Nat.lt_succ_of_le hi
  have hrun : addCoin S i ⟨0, gridRow (n + 1) (Function.update f i x)⟩ j =
      (add x (total [S[j]] f i) >>= fun sum =>
        access (Arr.set ⟨0, gridRow (n + 1) (Function.update f i x)⟩ i sum)) := by
    by_cases hle : S[j] ≤ (i : Int)
    · have hge : (i : Int) - S[j] ≥ 0 := by omega
      simp only [addCoin, hs, access_ok, ok_bind, if_pos hge, get_before hi hspos hle,
        get_current hi]
      simp [total, hle]
    · have hge : ¬(i : Int) - S[j] ≥ 0 := by omega
      simp only [addCoin, hs, access_ok, ok_bind, if_neg hge, pure_bind, get_current hi]
      simp [total, hle]
  rw [hrun]
  by_cases hle : x + total [S[j]] f i ≤ intMax
  · rw [add_ok hx hnonneg hle, ok_bind, set_current hi, if_pos hle, access_ok]
  · rw [add_overflow (not_le.1 hle), if_neg hle]
    rfl

/-- The loop over the coins that are left. -/
theorem addCoins_from (hpos : ∀ s ∈ S, 0 < s) (hi : i ≤ n) (hf : ∀ k < i, 0 ≤ f k) {m : Nat}
    (hm : j + m = S.length) {x : Int} (hx : 0 ≤ x) (hxmax : x ≤ intMax) :
    (List.range' j m).foldlM (addCoin S i) ⟨0, gridRow (n + 1) (Function.update f i x)⟩ =
      if x + total (S.drop j) f i ≤ intMax then
        .ok ⟨0, gridRow (n + 1) (Function.update f i (x + total (S.drop j) f i))⟩
      else .error .overflow := by
  induction m generalizing j x with
  | zero =>
    have hzero : total (S.drop j) f i = 0 := by
      rw [List.drop_eq_nil_iff.2 (by omega)]
      rfl
    rw [hzero, Int.add_zero, if_pos hxmax]
    rfl
  | succ m ih =>
    have hj : j < S.length := by omega
    have hsum : total (S.drop j) f i = total [S[j]] f i + total (S.drop (j + 1)) f i := by
      rw [List.drop_eq_getElem_cons hj, total, List.filter_cons, total, List.filter_cons]
      split_ifs <;> simp [total]
    have hhead : 0 ≤ total [S[j]] f i :=
      total_nonneg (fun s hs => List.mem_singleton.1 hs ▸ hpos _ (List.getElem_mem hj)) hf
    have hrest : 0 ≤ total (S.drop (j + 1)) f i :=
      total_nonneg (fun s hs => hpos s (List.mem_of_mem_drop hs)) hf
    rw [List.range'_succ, List.foldlM_cons, addCoin_run hpos hi hj hf hx, hsum, ← Int.add_assoc]
    by_cases hle : x + total [S[j]] f i ≤ intMax
    · rw [if_pos hle, ok_bind]
      exact ih (by omega) (by omega) hle
    · rw [if_neg hle, if_neg (by omega)]
      rfl

/-- The loop over the coins. -/
theorem addCoins_run (hpos : ∀ s ∈ S, 0 < s) (hi : i ≤ n) (hf : ∀ k < i, 0 ≤ f k)
    (hzero : f i = 0) :
    (List.range' 0 S.length).foldlM (addCoin S i) ⟨0, gridRow (n + 1) f⟩ =
      if total S f i ≤ intMax then
        .ok ⟨0, gridRow (n + 1) (Function.update f i (total S f i))⟩
      else .error .overflow := by
  have hrun := addCoins_from hpos hi hf (Nat.zero_add S.length) (x := 0) le_rfl (by decide)
  rw [← hzero, Function.update_eq_self, hzero, Int.zero_add, List.drop_zero] at hrun
  exact hrun

/-- `x` is the number of sequences of coins with sum `k`. -/
def Counts (S : List Int) (k : Nat) (x : Int) : Prop :=
  ∃ ls, Enumerates ls (InOrder S k) ∧ x = ls.length

theorem counts_zero (hpos : ∀ s ∈ S, 0 < s) : Counts S 0 1 := by
  refine ⟨[[]], .singleton fun l => ?_, rfl⟩
  rw [InOrder, Nat.cast_zero, pays_zero hpos, Multiset.coe_eq_zero]

theorem counts_total (hpos : ∀ s ∈ S, 0 < s) (hnodup : S.Nodup) (hi : 1 ≤ i)
    (hf : ∀ k < i, Counts S k (f k)) : Counts S i (total S f i) := by
  have hcalls : ∀ s ∈ S, s ≤ (i : Int) → ∃ ls,
      Enumerates ls (InOrder S (i - s)) ∧ f ((i : Int) - s).toNat = ls.length := by
    intro s hs hle
    have hspos := hpos s hs
    obtain ⟨ls, henum, hlen⟩ := hf ((i : Int) - s).toNat (by omega)
    have hcast : ((((i : Int) - s).toNat : Nat) : Int) = i - s := by omega
    rw [hcast] at henum
    exact ⟨ls, henum, hlen⟩
  choose! out hout using hcalls
  refine ⟨_, enumerates_inOrder hnodup hpos (by omega) fun s hs hle => (hout s hs hle).1, ?_⟩
  rw [List.length_flatMap, Nat.cast_list_sum, List.map_map, total]
  refine congrArg List.sum (List.map_congr_left fun s hs => ?_)
  obtain ⟨hs, hle⟩ := List.mem_filter.1 hs
  rw [(hout s hs (of_decide_eq_true hle)).2, Function.comp_apply, List.length_map]

/-- The number of sequences of coins with sum `i`. -/
noncomputable def orders (S : List Int) (i : Nat) : Nat := {l | InOrder S i l}.ncard

theorem Counts.eq_orders {x : Int} (h : Counts S i x) : x = orders S i := by
  obtain ⟨ls, henum, hlen⟩ := h
  rw [hlen, orders, henum.ncard]

theorem counts_orders (hpos : ∀ s ∈ S, 0 < s) (hnodup : S.Nodup) (i : Nat) :
    Counts S i (orders S i) := by
  induction i using Nat.strong_induction_on with
  | _ i ih =>
    have hcounts : ∃ x, Counts S i x := by
      by_cases hi : i = 0
      · exact hi ▸ ⟨1, counts_zero hpos⟩
      · exact ⟨_, counts_total (f := fun k => (orders S k : Int)) hpos hnodup (by omega) ih⟩
    obtain ⟨x, hx⟩ := hcounts
    exact hx.eq_orders ▸ hx

/-- The table up to `m`. -/
theorem fill_orders (hpos : ∀ s ∈ S, 0 < s) (hnodup : S.Nodup) {m : Nat} (hmn : m ≤ n)
    (hmax : ∀ i ≤ m, orders S i ≤ intMax) : ∃ f, (List.range' 1 m).foldlM
      (fun table i => (List.range' 0 S.length).foldlM (addCoin S i) table)
        ⟨0, gridRow (n + 1) (Function.update (fun _ => 0) 0 1)⟩ = .ok ⟨0, gridRow (n + 1) f⟩ ∧
      (∀ k ≤ m, f k = orders S k) ∧ ∀ k > m, f k = 0 := by
  refine fill_to (P := fun k (x : Int) => x = orders S k) (counts_zero hpos).eq_orders
    fun i f hi1 hi hdone hf => ⟨total S f i, ?_, ?_⟩
  · have htotal : total S f i = orders S i :=
      (counts_total hpos hnodup hi1 fun k hk => hdone k hk ▸ counts_orders hpos hnodup k).eq_orders
    rw [addCoins_run hpos (by omega) (fun k hk => hdone k hk ▸ Int.natCast_nonneg _) hf,
      if_pos (htotal ▸ hmax i hi)]
  · exact (counts_total hpos hnodup hi1
      fun k hk => hdone k hk ▸ counts_orders hpos hnodup k).eq_orders

/-- **What is counted**: the sequences of coins with sum `n`, unless `n + 1` or an entry of the
table is too large. -/
theorem countWays_eq (hpos : ∀ s ∈ S, 0 < s) (hnodup : S.Nodup) (n : Nat) :
    countWays S S.length n = if n < intMax ∧ ∀ i ≤ n, orders S i ≤ intMax then
      .ok (orders S n : Int) else .error .overflow := by
  by_cases hn : n < intMax
  · have hsize : add n 1 = .ok ((n : Int) + 1) :=
      add_ok (Int.natCast_nonneg n) Int.one_nonneg (by omega)
    have hnat : ((n : Int) + 1).toNat = n + 1 := by omega
    have hstart : Arr.set ⟨0, List.replicate (n + 1) (0 : Int)⟩ 0 1 =
        .ok ⟨0, gridRow (n + 1) (Function.update (fun _ => 0) 0 1)⟩ := by
      rw [replicate_gridRow]
      exact set_gridRow (j := 0) (Nat.succ_pos n)
    simp only [countWays, hsize, ok_bind, hnat, hstart, access_ok]
    by_cases hmax : ∀ i ≤ n, orders S i ≤ intMax
    · obtain ⟨f, hrun, hdone, -⟩ := fill_orders hpos hnodup le_rfl hmax
      rw [hrun, ok_bind, get_gridRow (Nat.lt_succ_self n), if_pos ⟨hn, hmax⟩, hdone n le_rfl,
        access_ok]
    · -- the first entry that is too large
      push Not at hmax
      have hleast := Nat.find_spec hmax
      have hbefore : ∀ i < Nat.find hmax, orders S i ≤ intMax := by
        intro i hi
        have hnot := Nat.find_min hmax hi
        push Not at hnot
        exact hnot (by omega)
      generalize Nat.find hmax = b at hleast hbefore
      have hb : 1 ≤ b := by
        have hzero := (counts_zero hpos).eq_orders
        by_contra hb
        obtain rfl : b = 0 := by omega
        have hbig := hleast.2
        rw [← hzero] at hbig
        exact absurd hbig (by decide)
      obtain ⟨f, hrun, hdone, htodo⟩ :=
        fill_orders hpos hnodup (n := n) (m := b - 1) (by omega) fun i hi => hbefore i (by omega)
      have hsplit : List.range' 1 n =
          List.range' 1 (b - 1) ++ b :: List.range' (b + 1) (n - b) := by
        rw [← List.range'_succ, show n - b + 1 = n - (b - 1) by omega]
        have happend := List.range'_append_1 (s := 1) (m := b - 1) (n := n - (b - 1))
        rw [show 1 + (b - 1) = b by omega, show b - 1 + (n - (b - 1)) = n by omega] at happend
        exact happend.symm
      have htotal : total S f b = orders S b :=
        (counts_total hpos hnodup hb fun k hk =>
          hdone k (by omega) ▸ counts_orders hpos hnodup k).eq_orders
      have herror : (List.range' 0 S.length).foldlM (addCoin S b) ⟨0, gridRow (n + 1) f⟩ =
          .error .overflow := by
        rw [addCoins_run hpos hleast.1
          (fun k hk => hdone k (by omega) ▸ Int.natCast_nonneg _) (htodo b (by omega)),
          htotal, if_neg (not_le.2 hleast.2)]
      rw [hsplit, List.foldlM_append, hrun, ok_bind, List.foldlM_cons, herror,
        if_neg fun hall => (hall.2 b hleast.1).not_gt hleast.2]
      rfl
  · rw [countWays, add_overflow (by omega), if_neg fun hall => hn hall.1]
    rfl

/-- The result is the number of multisets of coins, which the recurrence gives too. -/
def CountsWays (S : List Int) (n : Nat) : Prop :=
  countWays S S.length n = .ok ({t | Pays S n t}.ncard : Int) ∧
    ways S n S.length = {t | Pays S n t}.ncard

/-- **The condition**: every payment is with coins of one value, and no number in the table is too
large for an `int`. -/
theorem countsWays_iff (hpos : ∀ s ∈ S, 0 < s) (hnodup : S.Nodup) :
    CountsWays S n ↔ n < intMax ∧ (∀ i ≤ n, orders S i ≤ intMax) ∧ OneValue S n := by
  rw [CountsWays, and_iff_left (ways_eq_ncard hpos hnodup n), countWays_eq hpos hnodup, ← and_assoc]
  by_cases hall : n < intMax ∧ ∀ i ≤ n, orders S i ≤ intMax
  · obtain ⟨ls, henum, hlen⟩ := counts_orders hpos hnodup n
    rw [if_pos hall, and_iff_right hall, Except.ok.injEq, hlen, Nat.cast_inj]
    exact length_eq_ncard_iff henum
  · rw [if_neg hall]
    exact iff_of_false nofun fun h => hall h.1

theorem countsWays_iff_two : CountsWays [2, 3] 4 ↔
    4 < intMax ∧ (∀ i ≤ 4, orders [2, 3] i ≤ intMax) ∧ OneValue [2, 3] 4 :=
  countsWays_iff (n := 4) (by decide) (by decide)

/-- `3 = 1 + 1 + 1 = 1 + 2`, and the latter is counted twice. -/
theorem not_countsWays_three : ¬ CountsWays [1, 2] 3 := by
  rintro ⟨hrun, hways⟩
  have hthree : countWays [1, 2] 2 3 = .ok 3 := by decide
  have htwo : ways [1, 2] 3 2 = 2 := by
    simp [ways]
  rw [← hways] at hrun
  simp [hthree, htwo] at hrun

end

end CoinChange
