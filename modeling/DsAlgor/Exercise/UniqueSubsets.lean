import DsAlgor.Lib.Enumerate
import DsAlgor.Lib.Grid

/-!
# `unique_subsets.cpp`, `subset.cc`

Both sort the array first, and both leave out an element that is equal to the one before it unless
it is the first of its level; they ask for that in different words (`walk`). What a level lists are
the sublists of the rest of the array.
-/

namespace UniqueSubsets

open Checked Grid Enumerate

section
variable (skips : Nat → Nat → Except Fault Bool) (s : List Int)

/-- The lists so far, and the current one. -/
abbrev State := List (List Int) × List Int

/-- The loop over `i`, with the recursive call `rest`. -/
def tryFrom (rest : Nat → State → Except Fault State) (pos : Nat) :
    List Nat → State → Except Fault State
  | [], state => return state
  | i :: is, (ret, list) => do
    if ← skips pos i then tryFrom rest pos is (ret, list)
    else
      let x ← Arr.get ⟨0, s⟩ i
      let (ret, list) ← rest (i + 1) (ret, list ++ [x])
      tryFrom rest pos is (ret, list.dropLast)

/-- The recursion of both, with the test of the loop. -/
def walk : Nat → Nat → State → Except Fault State
  | 0, _, _ => .error .loop
  | fuel + 1, pos, (ret, list) =>
    tryFrom skips s (walk fuel) pos (List.range' pos (s.length - pos)) (ret ++ [list], list)

end

section
variable (s : List Int)

/-- `s[i] == s[i - 1]` -/
def equalsPrevious (i : Nat) : Except Fault Bool := do
  return (← Arr.get ⟨0, s⟩ i) == (← Arr.get ⟨0, s⟩ (i - 1))

/-- `backtrack`, with the test `i > pos && s[i] == s[i - 1]`. -/
def backtrack : Nat → Nat → State → Except Fault State :=
  walk (fun pos i => if pos < i then equalsPrevious s i else return false) s

def subsetsWithDup (fuel : Nat) : Except Fault (List (List Int)) := do
  if s.isEmpty then return []
  let (result, _) ← backtrack (s.insertionSort (· ≤ ·)) fuel 0 ([], [])
  return result

/-- `subsetUniqueHelper`, with the test `i > 0 && i != pos && num[i] == num[i - 1]`; `printVec` adds
the current list to those printed. -/
def subsetUniqueHelper : Nat → Nat → State → Except Fault State :=
  walk (fun pos i => if 0 < i ∧ i ≠ pos then equalsPrevious s i else return false) s

/-- The lists that are printed. -/
def subsetUnique (num : List Int) (fuel : Nat) : Except Fault (List (List Int)) := do
  let (printed, _) ← subsetUniqueHelper (num.insertionSort (· ≤ ·)) fuel 0 ([], [])
  return printed

end

/-! ## The sublists of the rest -/

section
variable {n i j pos : Nat} {a : Nat → Int}

theorem cons_sublist_append {α : Type} {x : α} {B C t : List α} (hx : x ∉ B) :
    (x :: t).Sublist (B ++ x :: C) ↔ t.Sublist C := by
  induction B with
  | nil => exact List.cons_sublist_cons
  | cons y B ih =>
    have hne : x ≠ y := fun heq => hx (heq ▸ List.mem_cons_self)
    rw [List.cons_append, List.sublist_cons_iff, ih fun h => hx (List.mem_cons_of_mem y h)]
    exact or_iff_left fun ⟨_, heq, _⟩ => hne (List.cons.inj heq).1

/-- The array from `pos` on. -/
def after (n : Nat) (a : Nat → Int) (pos : Nat) : List Int := (List.range' pos (n - pos)).map a

theorem mem_after {x : Int} : x ∈ after n a pos ↔ ∃ i, pos ≤ i ∧ i < n ∧ a i = x := by
  rw [after, List.mem_map]
  constructor
  · rintro ⟨i, hi, rfl⟩
    rw [List.mem_range'_1] at hi
    exact ⟨i, hi.1, by omega, rfl⟩
  · rintro ⟨i, hpos, hi, rfl⟩
    exact ⟨i, List.mem_range'_1.2 ⟨hpos, by omega⟩, rfl⟩

theorem after_split (hpos : pos ≤ i) (hi : i < n) :
    after n a pos = (List.range' pos (i - pos)).map a ++ a i :: after n a (i + 1) := by
  have hlen : n - pos = (i - pos) + ((n - (i + 1)) + 1) := by omega
  have hend : pos + (i - pos) = i := by omega
  rw [after, hlen, ← List.range'_append_1, List.map_append, hend, List.range'_succ, List.map_cons]
  rfl

/-- The index `i` is not skipped on the level of `pos`. -/
def Chosen (a : Nat → Int) (pos i : Nat) : Prop := i = pos ∨ a i ≠ a (i - 1)

instance : DecidablePred (Chosen a pos) := fun _ => inferInstanceAs (Decidable (_ ∨ _))

/-- What is chosen is the first of its value on the level. -/
theorem Chosen.ne (h : Chosen a pos i) (ha : Ascending n a) (hi : i < n) (hj : pos ≤ j)
    (hji : j < i) : a j ≠ a i := by
  intro heq
  have h1 := ha j (i - 1) (by omega) (by omega)
  have h2 := ha (i - 1) i (by omega) hi
  rcases h with rfl | hne
  · omega
  · omega

/-- The indices of the level that are not skipped. -/
def chosen (n : Nat) (a : Nat → Int) (pos : Nat) : List Nat :=
  (List.range' pos (n - pos)).filter (Chosen a pos ·)

theorem mem_chosen : i ∈ chosen n a pos ↔ pos ≤ i ∧ i < n ∧ Chosen a pos i := by
  simp only [chosen, List.mem_filter, List.mem_range'_1, decide_eq_true_eq]
  constructor
  · exact fun h => ⟨h.1.1, by omega, h.2⟩
  · exact fun h => ⟨⟨h.1, by omega⟩, h.2.2⟩

theorem nodup_map_chosen (ha : Ascending n a) : ((chosen n a pos).map a).Nodup := by
  refine ((List.nodup_range' ..).filter _).map_on fun i hi j hj heq => ?_
  rw [mem_chosen] at hi hj
  rcases Nat.lt_trichotomy i j with hij | hij | hij
  · exact absurd heq (hj.2.2.ne ha hj.2.1 hi.1 hij)
  · exact hij
  · exact absurd heq.symm (hi.2.2.ne ha hi.2.1 hj.1 hij)

theorem mem_map_chosen {x : Int} (hx : x ∈ after n a pos) : x ∈ (chosen n a pos).map a := by
  have hex : ∃ i, pos ≤ i ∧ i < n ∧ a i = x := mem_after.1 hx
  classical
  obtain ⟨hpos, hi, hax⟩ := Nat.find_spec hex
  refine List.mem_map.2 ⟨Nat.find hex, mem_chosen.2 ⟨hpos, hi, ?_⟩, hax⟩
  by_contra hskip
  rw [Chosen, not_or, not_not] at hskip
  have hlt : Nat.find hex - 1 < Nat.find hex := by omega
  exact Nat.find_min hex hlt ⟨by omega, by omega, hskip.2.symm.trans hax⟩

theorem cons_sublist_after (ha : Ascending n a) (hi : i ∈ chosen n a pos) {t : List Int} :
    (a i :: t).Sublist (after n a pos) ↔ t.Sublist (after n a (i + 1)) := by
  obtain ⟨hpos, hin, hc⟩ := mem_chosen.1 hi
  rw [after_split hpos hin]
  refine cons_sublist_append fun hmem => ?_
  obtain ⟨j, hj, heq⟩ := List.mem_map.1 hmem
  rw [List.mem_range'_1] at hj
  exact hc.ne ha hin hj.1 (by omega) heq

end

/-! ## The recursion -/

section
variable {n i pos : Nat} {a : Nat → Int} {skips : Nat → Nat → Except Fault Bool}

/-- The test of the loop says what is not chosen. -/
def Tests (n : Nat) (a : Nat → Int) (skips : Nat → Nat → Except Fault Bool) : Prop :=
  ∀ pos i, pos ≤ i → i < n → skips pos i = .ok (!decide (Chosen a pos i))

theorem equalsPrevious_ok (h1 : 1 ≤ i) (hi : i < n) :
    equalsPrevious (gridRow n a) i = .ok (decide (a i = a (i - 1))) := by
  have hpred : (i : Int) - 1 = (i - 1 : Nat) := by omega
  have hget : Arr.get ⟨0, gridRow n a⟩ i = .ok (a i) := get_gridRow hi
  have hget' : Arr.get ⟨0, gridRow n a⟩ (i - 1 : Nat) = .ok (a (i - 1)) := get_gridRow (by omega)
  rw [equalsPrevious, hpred, hget, hget']
  rfl

theorem backtrack_tests : Tests n a fun pos i =>
    if pos < i then equalsPrevious (gridRow n a) i else return false := by
  intro pos i hpos hi
  by_cases hlt : pos < i
  · have hne : i ≠ pos := by omega
    simp [if_pos hlt, equalsPrevious_ok (a := a) (by omega) hi, Chosen, hne]
  · have heq : i = pos := by omega
    simp [Chosen, heq, pure, Except.pure]

theorem subsetUniqueHelper_tests : Tests n a fun pos i =>
    if 0 < i ∧ i ≠ pos then equalsPrevious (gridRow n a) i else return false := by
  intro pos i hpos hi
  by_cases hne : i = pos
  · simp [hne, Chosen, pure, Except.pure]
  · have hlt : 0 < i := by omega
    simp [hne, hlt, equalsPrevious_ok (a := a) hlt hi, Chosen]

/-- A call adds the lists of `out` behind the current one, and restores that. -/
def Adds (call : Nat → State → Except Fault State) (pos : Nat) (out : List (List Int)) : Prop :=
  ∀ ret list, call pos (ret, list) = .ok (ret ++ out.map (list ++ ·), list)

theorem tryFrom_ok {call : Nat → State → Except Fault State} {out : Nat → List (List Int)}
    {is : List Nat} (htests : Tests n a skips) (his : ∀ i ∈ is, pos ≤ i ∧ i < n)
    (hcall : ∀ i ∈ is, Chosen a pos i → Adds call (i + 1) (out i))
    (ret : List (List Int)) (list : List Int) :
    tryFrom skips (gridRow n a) call pos is (ret, list) =
      .ok (ret ++ ((is.filter (Chosen a pos ·)).flatMap fun i =>
        (out i).map (a i :: ·)).map (list ++ ·), list) := by
  induction is generalizing ret with
  | nil => simp [tryFrom, pure, Except.pure]
  | cons i is ih =>
    obtain ⟨hpos, hi⟩ := his i List.mem_cons_self
    have ih := ih (fun j hj => his j (List.mem_cons_of_mem i hj))
      fun j hj => hcall j (List.mem_cons_of_mem i hj)
    by_cases hc : Chosen a pos i
    · have hget : Arr.get ⟨0, gridRow n a⟩ i = .ok (a i) := get_gridRow hi
      simp only [tryFrom, htests pos i hpos hi, decide_eq_true hc, ok_bind, Bool.not_true,
        Bool.false_eq_true, if_false, hget, hcall i List.mem_cons_self hc _ _,
        List.dropLast_concat, ih]
      simp [hc, Function.comp_def]
    · simp only [tryFrom, htests pos i hpos hi, decide_eq_false hc, ok_bind, Bool.not_false,
        if_true, ih]
      simp [hc]

/-- **One call**: it lists the sublists of the rest, whichever test the loop has. -/
theorem walk_ok (ha : Ascending n a) (pos : Nat) :
    ∃ out, Enumerates out (List.Sublist · (after n a pos)) ∧
      ∀ skips, Tests n a skips → ∀ fuel, n - pos < fuel →
        Adds (walk skips (gridRow n a) fuel) pos out := by
  induction hk : n - pos using Nat.strong_induction_on generalizing pos with
  | _ k ih =>
    subst hk
    have hcalls : ∀ i ∈ chosen n a pos, ∃ out,
        Enumerates out (List.Sublist · (after n a (i + 1))) ∧
          ∀ skips, Tests n a skips → ∀ fuel, n - (i + 1) < fuel →
            Adds (walk skips (gridRow n a) fuel) (i + 1) out := by
      intro i hi
      have hlt := mem_chosen.1 hi
      exact ih (n - (i + 1)) (by omega) (i + 1) rfl
    choose! out hout using hcalls
    refine ⟨[] :: (chosen n a pos).flatMap fun i => (out i).map (a i :: ·),
      .nil_heads a (nodup_map_chosen ha) (fun i hi => ?_) (List.nil_sublist _)
        (fun x t h => mem_map_chosen (h.subset List.mem_cons_self)),
      fun skips htests fuel hfuel ret list => ?_⟩
    · exact (hout i hi).1.congr fun t => (cons_sublist_after ha hi).symm
    · obtain ⟨fuel, rfl⟩ := Nat.exists_eq_succ_of_ne_zero (Nat.ne_zero_of_lt hfuel)
      have hrange : ∀ i ∈ List.range' pos (n - pos), pos ≤ i ∧ i < n := by
        intro i hi
        rw [List.mem_range'_1] at hi
        omega
      have hcall : ∀ i ∈ List.range' pos (n - pos), Chosen a pos i →
          Adds (walk skips (gridRow n a) fuel) (i + 1) (out i) := by
        intro i hi hc
        have hmem := hrange i hi
        exact (hout i (mem_chosen.2 ⟨hmem.1, hmem.2, hc⟩)).2 skips htests fuel (by omega)
      rw [walk, length_gridRow, tryFrom_ok htests hrange hcall]
      simp [chosen]

/-- The sublists of the sorted array. -/
theorem sublist_sorted_iff {s t : List Int} : t.Sublist (s.insertionSort (· ≤ ·)) ↔
    t.Pairwise (· ≤ ·) ∧ t.Subperm s := by
  have hperm := List.perm_insertionSort (· ≤ ·) s
  have hsorted := List.pairwise_insertionSort (· ≤ ·) s
  constructor
  · exact fun h => ⟨hsorted.sublist h, h.subperm.trans hperm.subperm⟩
  · exact fun h =>
      List.sublist_of_subperm_of_pairwise (h.2.trans hperm.symm.subperm) h.1 hsorted

/-- **Both versions agree**: the one returns, and the other prints, the different parts of the
array as ascending lists, each once and in the same order. -/
theorem subsets_agree {s : List Int} (h : s ≠ []) : ∃ out,
    Ends (subsetsWithDup s) out ∧ Ends (subsetUnique s) out ∧
      Enumerates out fun t => t.Pairwise (· ≤ ·) ∧ t.Subperm s := by
  obtain ⟨a, heq, ha⟩ := exists_ascending s
  obtain ⟨out, henum, hadds⟩ := walk_ok ha 0
  have hafter : after s.length a 0 = s.insertionSort (· ≤ ·) := by
    rw [heq, after, gridRow, Nat.sub_zero, List.range_eq_range']
  have hempty : s.isEmpty = false := by rwa [Bool.eq_false_iff, ne_eq, List.isEmpty_iff]
  refine ⟨out, ⟨s.length + 1, fun fuel hfuel => ?_⟩, ⟨s.length + 1, fun fuel hfuel => ?_⟩,
    henum.congr fun t => ?_⟩
  · have hrun := hadds _ backtrack_tests fuel (by omega) [] []
    simp only [subsetsWithDup, hempty, Bool.false_eq_true, if_false, heq, backtrack, hrun, ok_bind]
    simp [pure, Except.pure]
  · have hrun := hadds _ subsetUniqueHelper_tests fuel (by omega) [] []
    simp only [subsetUnique, heq, subsetUniqueHelper, hrun, ok_bind]
    simp [pure, Except.pure]
  · rw [hafter, sublist_sorted_iff]

theorem subsets_agree_twice : ∃ out,
    Ends (subsetsWithDup [2, 1, 2]) out ∧ Ends (subsetUnique [2, 1, 2]) out ∧
      Enumerates out fun t => t.Pairwise (· ≤ ·) ∧ t.Subperm [2, 1, 2] :=
  subsets_agree (by decide)

end

end UniqueSubsets
