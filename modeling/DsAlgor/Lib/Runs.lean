import Mathlib.Data.Set.Finite.Basic
import Mathlib.Tactic

/-!
# Runs of consecutive integers

A run of a set is an interval of its elements that cannot be made longer. A new element joins the
run that ends before it and the one that begins behind it (`run_insert`), and the greatest length
is that of this run or the one before (`longest_insert`).
-/

namespace Runs

variable {S : Set Int} {a b c d x low high n : Int}

/-- All numbers from `a` to `b` are in `S`. -/
def Within (S : Set Int) (a b : Int) : Prop := ∀ y, a ≤ y → y ≤ b → y ∈ S

structure Run (S : Set Int) (a b : Int) : Prop where
  le : a ≤ b
  within : Within S a b
  before : a - 1 ∉ S
  behind : b + 1 ∉ S

/-- `n` consecutive numbers are in `S`. -/
def Consecutive (S : Set Int) (n : Int) : Prop := ∃ a, Within S a (a + n - 1)

/-- Where a run with `x` begins, once `x` is in `S`. -/
def Begins (S : Set Int) (x low : Int) : Prop :=
  x - 1 ∉ S ∧ low = x ∨ Run S low (x - 1)

/-- Where it ends. -/
def EndsAt (S : Set Int) (x high : Int) : Prop :=
  x + 1 ∉ S ∧ high = x ∨ Run S (x + 1) high

theorem Run.begins_le (h : Run S a b) (hw : Within S c d) (hle : a ≤ d) : a ≤ c := by
  by_contra hlt
  exact h.before (hw (a - 1) (by omega) (by omega))

theorem Run.le_ends (h : Run S a b) (hw : Within S c d) (hge : c ≤ b) : d ≤ b := by
  by_contra hlt
  exact h.behind (hw (b + 1) (by omega) (by omega))

/-- Two runs with a common element are the same. -/
theorem Run.unique (h : Run S a b) (h' : Run S c d) (hle : a ≤ d) (hge : c ≤ b) :
    a = c ∧ b = d :=
  ⟨le_antisymm (h.begins_le h'.within hle) (h'.begins_le h.within hge),
    le_antisymm (h'.le_ends h.within hle) (h.le_ends h'.within hge)⟩

/-- From an element of a finite set one comes to the last one in each direction. -/
theorem exists_last (hS : S.Finite) {s : Int} (hs : s ≠ 0) (hx : x ∈ S) :
    ∃ n : Nat, (∀ i ≤ n, x + s * i ∈ S) ∧ x + s * (n + 1 : Nat) ∉ S := by
  classical
  have hout : ∃ n : Nat, x + s * n ∉ S := by
    by_contra hall
    push Not at hall
    refine Set.infinite_of_injective_forall_mem (f := fun n : Nat => x + s * n) ?_ hall hS
    intro i j hij
    have heq : s * (i : Int) = s * j := by
      dsimp only at hij
      omega
    exact Int.ofNat_inj.1 (Int.eq_of_mul_eq_mul_left hs heq)
  cases hn : Nat.find hout with
  | zero =>
    have hzero := (Nat.find_eq_zero hout).1 hn
    exact absurd hx (by simpa using hzero)
  | succ n =>
    obtain ⟨hlast, hbefore⟩ := (Nat.find_eq_iff hout).1 hn
    exact ⟨n, fun i hi => not_not.1 (hbefore i (Nat.lt_succ_of_le hi)), hlast⟩

theorem exists_run (hS : S.Finite) (hx : x ∈ S) : ∃ a b, Run S a b ∧ a ≤ x ∧ x ≤ b := by
  obtain ⟨m, hm, hbefore⟩ := exists_last hS (s := -1) (by decide) hx
  obtain ⟨n, hn, hbehind⟩ := exists_last hS (s := 1) (by decide) hx
  refine ⟨x - m, x + n, ⟨by omega, fun y hy hy' => ?_, ?_, ?_⟩, by omega, by omega⟩
  · by_cases hyx : y ≤ x
    · have hmem := hm (x - y).toNat (by omega)
      rwa [Int.toNat_of_nonneg (by omega), neg_one_mul, neg_sub, add_sub_cancel] at hmem
    · have hmem := hn (y - x).toNat (by omega)
      rwa [Int.toNat_of_nonneg (by omega), one_mul, add_sub_cancel] at hmem
  · intro hmem
    exact hbefore (by convert hmem using 1; omega)
  · intro hmem
    exact hbehind (by convert hmem using 1; omega)

/-! ## A new element -/

/-- `x` joins its neighbours. -/
theorem run_insert (hlow : Begins S x low) (hhigh : EndsAt S x high) :
    Run (insert x S) low high ∧ low ≤ x ∧ x ≤ high := by
  have hle : low ≤ x := by
    cases hlow with
    | inl h => exact h.2.le
    | inr h => exact h.le.trans (by omega)
  have hge : x ≤ high := by
    cases hhigh with
    | inl h => exact h.2.ge
    | inr h => exact le_trans (by omega) h.le
  refine ⟨⟨hle.trans hge, fun y hy hy' => ?_, ?_, ?_⟩, hle, hge⟩
  · rcases lt_trichotomy y x with hlt | heq | hlt
    · cases hlow with
      | inl h => omega
      | inr h => exact .inr (h.within y hy (by omega))
    · exact .inl heq
    · cases hhigh with
      | inl h => omega
      | inr h => exact .inr (h.within y (by omega) hy')
  · rintro (heq | hmem)
    · omega
    · cases hlow with
      | inl h => exact h.1 (h.2 ▸ hmem)
      | inr h => exact h.before hmem
  · rintro (heq | hmem)
    · omega
    · cases hhigh with
      | inl h => exact h.1 (h.2 ▸ hmem)
      | inr h => exact h.behind hmem

/-- An interval without the new element has been there before. -/
theorem Within.of_insert (h : Within (insert x S) a b) (hx : x < a ∨ b < x) : Within S a b :=
  fun y hy hy' => (h y hy hy').resolve_left (by omega)

/-- The other runs stay. -/
theorem Run.of_insert (h : Run (insert x S) a b) (hx : x < a ∨ b < x) : Run S a b :=
  ⟨h.le, h.within.of_insert hx, fun hmem => h.before (.inr hmem),
    fun hmem => h.behind (.inr hmem)⟩

theorem Consecutive.mono {T : Set Int} (h : Consecutive S n) (hsub : S ⊆ T) : Consecutive T n :=
  h.imp fun _ hw y hy hy' => hsub (hw y hy hy')

theorem longest_insert (hlong : IsGreatest {n | Consecutive S n} n)
    (hrun : Run (insert x S) low high) (hle : low ≤ x) (hge : x ≤ high) :
    IsGreatest {n | Consecutive (insert x S) n} (max n (high - low + 1)) := by
  have hnew : Consecutive (insert x S) (high - low + 1) :=
    ⟨low, fun y hy hy' => hrun.within y hy (by omega)⟩
  refine ⟨?_, fun m hm => ?_⟩
  · rcases max_choice n (high - low + 1) with heq | heq
    · rw [heq]
      exact Consecutive.mono hlong.1 (Set.subset_insert x S)
    · rw [heq]
      exact hnew
  · obtain ⟨a, hw⟩ := hm
    by_cases hx : x < a ∨ a + m - 1 < x
    · exact le_max_of_le_left (hlong.2 ⟨a, hw.of_insert hx⟩)
    · have hbegin := hrun.begins_le hw (by omega)
      have hend := hrun.le_ends hw (by omega)
      exact le_max_of_le_right (by omega)

theorem longest_empty : IsGreatest {n | Consecutive ∅ n} 0 := by
  refine ⟨⟨0, fun y hy hy' => ?_⟩, fun n hn => ?_⟩
  · omega
  · obtain ⟨a, hw⟩ := hn
    by_contra hlt
    exact hw a le_rfl (by omega)

/-- A run is not longer than the set. -/
theorem Run.length_le {S : Set Int} {a b : Int} (h : Run S a b) (hS : S.Finite) :
    b - a + 1 ≤ S.ncard := by
  have hsub : (Finset.Icc a b : Set Int) ⊆ S := by
    intro k hk
    rw [Finset.coe_Icc, Set.mem_Icc] at hk
    exact h.within k hk.1 hk.2
  have hle := Set.ncard_le_ncard hsub hS
  rw [Set.ncard_coe_finset, Int.card_Icc] at hle
  omega

end Runs
