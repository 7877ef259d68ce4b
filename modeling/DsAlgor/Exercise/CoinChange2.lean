import DsAlgor.Lib.Coins
import DsAlgor.Lib.Grid
import DsAlgor.Lib.Signed

/-!
# `coin_change2.c`

`INT_MAX` stands for a sum that cannot be paid (`Least`). The loop over the coins compares an entry
with another one, not with that and one more; as both are whole numbers that is the same
(`Least.improve`). No sum of the loop is too large; only `n + 1`, the size of the table, can be.
-/

namespace CoinChange2

open Checked (Arr upward)
open Grid Coins Signed

section
variable (S : List Int)

/-- The body of the loop over `j`. -/
def tryCoin (i : Nat) (table : Arr Int) (j : Nat) : Except Undefined (Arr Int) := do
  let s ← access (Arr.get ⟨0, S⟩ j)
  if (i : Int) ≥ s then
    let old ← access (table.get i)
    let rest ← access (table.get (i - s))
    if old > rest then
      let best ← add rest 1
      access (table.set i best)
    else return table
  else return table

def minNum (m n : Nat) : Except Undefined Int := do
  let size ← add n 1
  let table : Arr Int := ⟨0, List.replicate size.toNat intMax⟩
  let table ← access (table.set 0 0)
  let table ← (List.range' 1 n).foldlM
    (fun table i => (List.range' 0 m).foldlM (tryCoin S i) table) table
  access (table.get n)

end

/-! ## Least numbers -/

section
variable {W V : Set Int} {x y : Int}

/-- `x` is the least element of `W`, or `INT_MAX` when there is none. -/
def Least (W : Set Int) (x : Int) : Prop := (x = intMax ∧ W = ∅) ∨ IsLeast W x

theorem Least.bounds (h : Least W x) (hW : ∀ c ∈ W, 0 ≤ c ∧ c ≤ intMax) : 0 ≤ x ∧ x ≤ intMax := by
  rcases h with ⟨rfl, -⟩ | h
  · decide
  · exact hW x h.1

/-- The entry `x` is improved with `y` and one coin more. -/
theorem Least.improve (hx : Least W x) (hy : Least V y) (hW : ∀ c ∈ W, c ≤ intMax)
    (hV : ∀ c ∈ V, c < intMax) :
    Least (W ∪ Set.image (· + 1) V) (if x > y then y + 1 else x) := by
  rcases hx with ⟨rfl, rfl⟩ | hx
  · rcases hy with ⟨rfl, rfl⟩ | hy
    · rw [if_neg (lt_irrefl _), Set.image_empty, Set.empty_union]
      exact .inl ⟨rfl, rfl⟩
    · rw [if_pos (hV y hy.1), Set.empty_union]
      refine .inr ⟨⟨y, hy.1, rfl⟩, ?_⟩
      rintro _ ⟨c, hc, rfl⟩
      exact Int.add_le_add_right (hy.2 hc) 1
  · rcases hy with ⟨rfl, rfl⟩ | hy
    · rw [if_neg (hW x hx.1).not_gt, Set.image_empty, Set.union_empty]
      exact .inr hx
    · right
      by_cases hxy : x > y
      · rw [if_pos hxy]
        refine ⟨.inr ⟨y, hy.1, rfl⟩, ?_⟩
        rintro _ (hc | ⟨c, hc, rfl⟩)
        · exact hxy.trans_le (hx.2 hc)
        · exact Int.add_le_add_right (hy.2 hc) 1
      · rw [if_neg hxy]
        refine ⟨.inl hx.1, ?_⟩
        rintro _ (hc | ⟨c, hc, rfl⟩)
        · exact hx.2 hc
        · have hle := hy.2 hc
          show x ≤ c + 1
          omega

end

/-! ## The table -/

section
variable {S T : List Int} {n i j : Nat} {f : Nat → Int} {x s : Int}

/-- The numbers of coins that `i` can be paid with, a coin of `T` first. -/
def firsts (S T : List Int) (i : Nat) : Set Int := {c | ∃ s ∈ T, c - 1 ∈ costs S (i - s)}

theorem firsts_concat :
    firsts S (T ++ [s]) i = firsts S T i ∪ Set.image (· + 1) (costs S (i - s)) := by
  ext c
  have hlast : c - 1 ∈ costs S (i - s) ↔ c ∈ Set.image (· + 1) (costs S (i - s)) := by
    constructor
    · exact fun h => ⟨c - 1, h, Int.sub_add_cancel c 1⟩
    · rintro ⟨c, hc, rfl⟩
      rwa [Int.add_sub_cancel]
  simp only [firsts, Set.mem_union, Set.mem_ofPred_eq, List.mem_append, List.mem_singleton,
    or_and_right, exists_or, exists_eq_left, hlast]

theorem firsts_all (hi : 1 ≤ i) : firsts S S i = costs S i := by
  ext c
  exact (mem_costs (by omega)).symm

theorem firsts_bounds (hpos : ∀ s ∈ S, 0 < s) (hT : ∀ s ∈ T, s ∈ S) (hi : i < intMax) :
    ∀ c ∈ firsts S T i, 0 ≤ c ∧ c ≤ intMax := by
  rintro c ⟨s, hs, hc⟩
  have h1 := le_of_mem_costs hpos hc
  have h2 := hpos s (hT s hs)
  omega

theorem tryCoin_ok (hpos : ∀ s ∈ S, 0 < s) (hn : (n : Int) < intMax) (hi : i ≤ n)
    (hj : j < S.length) (hdone : ∀ k < i, Least (costs S k) (f k))
    (hx : Least (firsts S (S.take j) i) x) :
    ∃ x', tryCoin S i ⟨0, gridRow (n + 1) (Function.update f i x)⟩ j =
        .ok ⟨0, gridRow (n + 1) (Function.update f i x')⟩ ∧
      Least (firsts S (S.take (j + 1)) i) x' := by
  have hs : Arr.get ⟨0, S⟩ j = .ok S[j] := Checked.get_nat (List.getElem?_eq_getElem hj)
  have hspos := hpos S[j] (List.getElem_mem hj)
  have hbounds := firsts_bounds (T := S.take j) hpos (fun s hs => List.mem_of_mem_take hs)
    (i := i) (by omega)
  rw [← List.take_concat_get' S j hj, firsts_concat]
  by_cases hle : S[j] ≤ (i : Int)
  · have hin : i < n + 1 := Nat.lt_succ_of_le hi
    have hcast : ((((i : Int) - S[j]).toNat : Nat) : Int) = i - S[j] := by omega
    have hrest := get_before (f := f) (x := x) hin hspos hle
    have hy := hdone ((i : Int) - S[j]).toNat (by omega)
    rw [hcast] at hy
    have hcosts : ∀ c ∈ costs S (i - S[j]), 0 ≤ c ∧ c < intMax := by
      intro c hc
      have h1 := le_of_mem_costs hpos hc
      omega
    have himprove := hx.improve hy (fun c hc => (hbounds c hc).2) fun c hc => (hcosts c hc).2
    generalize f ((i : Int) - S[j]).toNat = y at hrest hy himprove
    have hy0 := (hy.bounds fun c hc => ⟨(hcosts c hc).1, (hcosts c hc).2.le⟩).1
    have hxmax := (hx.bounds hbounds).2
    have hge : (i : Int) ≥ S[j] := hle
    refine ⟨_, ?_, himprove⟩
    simp only [tryCoin, hs, access_ok, Signed.ok_bind, if_pos hge, get_current hin, hrest]
    by_cases hxy : x > y
    · rw [if_pos hxy, if_pos hxy, add_ok hy0 Int.one_nonneg (by omega)]
      simp only [Signed.ok_bind, set_current hin, access_ok]
    · rw [if_neg hxy, if_neg hxy]
      rfl
  · have hge : ¬ (i : Int) ≥ S[j] := hle
    refine ⟨x, ?_, ?_⟩
    · simp only [tryCoin, hs, access_ok, Signed.ok_bind, if_neg hge]
      rfl
    · rwa [costs_neg hpos (by omega), Set.image_empty, Set.union_empty]

/-- The loop over the coins. -/
theorem tryCoins_ok (hpos : ∀ s ∈ S, 0 < s) (hn : (n : Int) < intMax) (hi1 : 1 ≤ i) (hi : i ≤ n)
    (hdone : ∀ k < i, Least (costs S k) (f k)) (hf : f i = intMax) :
    ∃ x, (List.range' 0 S.length).foldlM (tryCoin S i) ⟨0, gridRow (n + 1) f⟩ =
        .ok ⟨0, gridRow (n + 1) (Function.update f i x)⟩ ∧ Least (costs S i) x := by
  obtain ⟨table, hrun, x, rfl, hx⟩ : ∃ table, (List.range' 0 S.length).foldlM (tryCoin S i)
      ⟨0, gridRow (n + 1) f⟩ = .ok table ∧ ∃ x,
        table = ⟨0, gridRow (n + 1) (Function.update f i x)⟩ ∧
          Least (firsts S (S.take (0 + S.length)) i) x := by
    refine upward (P := fun j (table : Arr Int) => ∃ x,
      table = ⟨0, gridRow (n + 1) (Function.update f i x)⟩ ∧
        Least (firsts S (S.take j) i) x) ?_ ⟨intMax, ?_, .inl ⟨rfl, ?_⟩⟩
    · rintro j - hj _ ⟨x, rfl, hx⟩
      rw [Nat.zero_add] at hj
      obtain ⟨x', hrun, hx'⟩ := tryCoin_ok hpos hn hi hj hdone hx
      exact ⟨_, hrun, x', rfl, hx'⟩
    · rw [← hf, Function.update_eq_self]
    · exact Set.eq_empty_of_forall_notMem fun _ ⟨_, hs, _⟩ => List.not_mem_nil hs
  rw [Nat.zero_add, List.take_length, firsts_all hi1] at hx
  exact ⟨x, hrun, hx⟩

theorem minNum_ok (hpos : ∀ s ∈ S, 0 < s) (hn : (n : Int) < intMax) :
    ∃ x, minNum S S.length n = .ok x ∧ Least (costs S n) x := by
  have hsize : add n 1 = .ok ((n : Int) + 1) :=
    add_ok (Int.natCast_nonneg n) Int.one_nonneg (by omega)
  have hnat : ((n : Int) + 1).toNat = n + 1 := by omega
  have hstart : Arr.set ⟨0, List.replicate (n + 1) intMax⟩ 0 0 =
      .ok ⟨0, gridRow (n + 1) (Function.update (fun _ => intMax) 0 0)⟩ := by
    rw [replicate_gridRow]
    exact set_gridRow (j := 0) (Nat.succ_pos n)
  have hzero : Least (costs S (0 : Nat)) 0 := by
    rw [Nat.cast_zero, costs_zero hpos]
    exact .inr isLeast_singleton
  obtain ⟨f, hrun, hdone⟩ : ∃ f, (List.range' 1 n).foldlM
      (fun table i => (List.range' 0 S.length).foldlM (tryCoin S i) table)
        ⟨0, gridRow (n + 1) (Function.update (fun _ => intMax) 0 0)⟩ =
          .ok ⟨0, gridRow (n + 1) f⟩ ∧ ∀ k ≤ n, Least (costs S k) (f k) :=
    fill_row (P := fun k x => Least (costs S k) x) hzero fun i f hi1 hi hdone hf =>
      tryCoins_ok hpos hn hi1 hi hdone hf
  refine ⟨f n, ?_, hdone n le_rfl⟩
  simp only [minNum, hsize, Signed.ok_bind, hnat, hstart, access_ok, hrun]
  rw [get_gridRow (Nat.lt_succ_self n), access_ok]

theorem minNum_overflow (S : List Int) (m : Nat) (hn : intMax ≤ n) :
    minNum S m n = .error .overflow := by
  rw [minNum, add_overflow (by omega)]
  rfl

/-- No addition overflows, and the result is the least number of coins with sum `n`, or `INT_MAX`
when there are no such coins. -/
def FewestCoins (S : List Int) (n : Nat) : Prop :=
  ∃ x, minNum S S.length n = .ok x ∧ Least (costs S n) x

/-- **The condition**: `n` is not the greatest `int`. -/
theorem fewestCoins_iff (hpos : ∀ s ∈ S, 0 < s) (hn : n ≤ intMax) :
    FewestCoins S n ↔ n < intMax := by
  refine ⟨fun ⟨x, hrun, _⟩ => hn.lt_of_ne fun heq => ?_, minNum_ok hpos⟩
  rw [minNum_overflow S S.length heq.ge] at hrun
  cases hrun

theorem fewestCoins_iff_eleven : FewestCoins [5, 2] 11 ↔ (11 : Nat) < intMax :=
  fewestCoins_iff (by decide) (by decide)

theorem not_fewestCoins_max : ¬ FewestCoins [1] 2147483647 := by
  rintro ⟨x, hrun, -⟩
  rw [minNum_overflow [1] _ (by decide)] at hrun
  cases hrun

end

end CoinChange2
