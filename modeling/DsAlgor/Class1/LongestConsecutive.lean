import DsAlgor.Lib.Outcome
import DsAlgor.Lib.Runs
import DsAlgor.Lib.Signed
import Mathlib.Data.List.Basic

/-!
# The longest run of consecutive integers

`longestConsecutive`. An `unordered_map` is the function of its entries. The entries at the two ends
of each run name the other end (`Table.Ends`); those between them may be out of date. No length is
greater than the size of the vector, so that only the counter of the loop can overflow.
-/

namespace LongestConsecutive

open Runs Signed

structure Bound where
  high : Int
  low : Int
deriving DecidableEq

abbrev Table := Int → Option Bound

section
variable (t : Table) (k v : Int)

def count : Bool := (t k).isSome

/-- `table[k]`; a new entry is `Bound()`. -/
def Table.at : Bound := (t k).getD ⟨0, 0⟩

/-- `table[k].high = v` -/
def setHigh : Table := Function.update t k (some { t.at k with high := v })

/-- `table[k].low = v` -/
def setLow : Table := Function.update t k (some { t.at k with low := v })

end

/-- The body of the loop: the table and `maxLen`. -/
def visit (s : Table × Int) (loc : Int) : Except Undefined (Table × Int) := do
  let (table, maxLen) := s
  if count table loc then return s
  else
    let pred ← sub loc 1
    let low := if count table pred then (table.at pred).low else loc
    let succ ← add loc 1
    let high := if count table succ then (table.at succ).high else loc
    let table := setHigh (setHigh table loc high) low high
    let table := setLow (setLow table loc low) high low
    let len ← add (← sub high low) 1
    return (table, if len > maxLen then len else maxLen)

def longestConsecutive (num : List Int) : Except Undefined Int := do
  let (_, maxLen) ← forEach visit (fun _ => none, 0) num
  return maxLen

/-! ## The entries -/

section
variable {t : Table} {j k v : Int}

@[simp] theorem at_setHigh : (setHigh t k v).at j =
    if j = k then { t.at k with high := v } else t.at j := by
  by_cases h : j = k
  · simp [setHigh, Table.at, h]
  · simp [setHigh, Table.at, h]

@[simp] theorem at_setLow : (setLow t k v).at j =
    if j = k then { t.at k with low := v } else t.at j := by
  by_cases h : j = k
  · simp [setLow, Table.at, h]
  · simp [setLow, Table.at, h]

@[simp] theorem count_setHigh : count (setHigh t k v) j = (j = k || count t j) := by
  by_cases h : j = k
  · simp [setHigh, count, h]
  · simp [setHigh, count, h]

@[simp] theorem count_setLow : count (setLow t k v) j = (j = k || count t j) := by
  by_cases h : j = k
  · simp [setLow, count, h]
  · simp [setLow, count, h]

end

/-- The keys are the elements of `S`, and the ends of a run name each other. -/
structure Table.Ends (t : Table) (S : Set Int) : Prop where
  keys : ∀ k, count t k = true ↔ k ∈ S
  ends : ∀ a b, Run S a b → (t.at a).high = b ∧ (t.at b).low = a

/-- The table and `maxLen` after the elements of `S`. -/
structure Seen (s : Table × Int) (S : Set Int) : Prop where
  finite : S.Finite
  table : s.1.Ends S
  longest : IsGreatest {n | Consecutive S n} s.2

/-! ## The loop -/

section
variable {t : Table} {s : Table × Int} {S : Set Int} {x low high : Int}

/-- The new run gets its ends, and those of the other runs stay. -/
theorem Table.Ends.insert (h : t.Ends S) (hrun : Run (insert x S) low high) (hle : low ≤ x)
    (hge : x ≤ high) :
    (setLow (setLow (setHigh (setHigh t x high) low high) x low) high low).Ends (insert x S) := by
  refine ⟨fun k => ?_, fun a b hab => ?_⟩
  · have hlow : low = x ∨ low ∈ S := hrun.within low le_rfl hrun.le
    have hhigh : high = x ∨ high ∈ S := hrun.within high hrun.le le_rfl
    simp only [count_setLow, count_setHigh, Bool.or_eq_true, decide_eq_true_eq, h.keys,
      Set.mem_insert_iff]
    grind
  · by_cases hx : x < a ∨ b < x
    · have hout : b < low ∨ high < a := by
        by_contra hin
        push Not at hin
        have heq := hab.unique hrun hin.2 hin.1
        omega
      have hle' := hab.le
      have hold := h.ends a b (hab.of_insert hx)
      simp only [at_setLow, at_setHigh]
      grind
    · push Not at hx
      obtain ⟨rfl, rfl⟩ := hab.unique hrun (hx.1.trans hge) (hle.trans hx.2)
      simp only [at_setLow, at_setHigh]
      grind

theorem Table.Ends.begins (h : t.Ends S) (hS : S.Finite) (hx : x ∉ S) :
    Begins S x (if count t (x - 1) then (t.at (x - 1)).low else x) := by
  by_cases hmem : x - 1 ∈ S
  · obtain ⟨a, b, hrun, ha, hb⟩ := exists_run hS hmem
    have hend : b = x - 1 := by
      by_contra hne
      exact hx (hrun.within x (by omega) (by omega))
    subst hend
    rw [if_pos ((h.keys _).2 hmem), (h.ends _ _ hrun).2]
    exact .inr hrun
  · rw [if_neg (mt (h.keys _).1 hmem)]
    exact .inl ⟨hmem, rfl⟩

theorem Table.Ends.endsAt (h : t.Ends S) (hS : S.Finite) (hx : x ∉ S) :
    EndsAt S x (if count t (x + 1) then (t.at (x + 1)).high else x) := by
  by_cases hmem : x + 1 ∈ S
  · obtain ⟨a, b, hrun, ha, hb⟩ := exists_run hS hmem
    have hbegin : a = x + 1 := by
      by_contra hne
      exact hx (hrun.within x (by omega) (by omega))
    subst hbegin
    rw [if_pos ((h.keys _).2 hmem), (h.ends _ _ hrun).1]
    exact .inr hrun
  · rw [if_neg (mt (h.keys _).1 hmem)]
    exact .inl ⟨hmem, rfl⟩

/-- One element. -/
theorem Seen.visit (h : Seen s S) (hmin : -2 ^ 31 < x) (hmax : x < 2 ^ 31 - 1)
    (hsize : S.ncard < intMax) :
    ∃ s', visit s x = .ok s' ∧ Seen s' (insert x S) := by
  have hint : intMax = 2 ^ 31 - 1 := rfl
  have hpred : sub x 1 = .ok (x - 1) := sub_eq (by omega) (by omega)
  have hsucc : add x 1 = .ok (x + 1) := add_eq (by omega) (by omega)
  obtain ⟨t, maxLen⟩ := s
  obtain ⟨hS, htable, hlong⟩ := h
  by_cases hx : x ∈ S
  · refine ⟨_, if_pos ((htable.keys x).2 hx), ?_⟩
    rw [Set.insert_eq_of_mem hx]
    exact ⟨hS, htable, hlong⟩
  · obtain ⟨hrun, hle, hge⟩ := run_insert (htable.begins hS hx) (htable.endsAt hS hx)
    have hlen := hrun.length_le (hS.insert x)
    rw [Set.ncard_insert_of_notMem hx hS] at hlen
    generalize hlow : (if count t (x - 1) then (t.at (x - 1)).low else x) = low at *
    generalize hhigh : (if count t (x + 1) then (t.at (x + 1)).high else x) = high at *
    have hvisit : LongestConsecutive.visit (t, maxLen) x =
        .ok (setLow (setLow (setHigh (setHigh t x high) low high) x low) high low,
          max maxLen (high - low + 1)) := by
      have hdiff : sub high low = .ok (high - low) := sub_eq (by omega) (by omega)
      have hsum : add (high - low) 1 = .ok (high - low + 1) := add_eq (by omega) (by omega)
      rw [LongestConsecutive.visit, if_neg (mt (htable.keys x).1 hx), hpred, max_def_lt]
      simp only [ok_bind, hlow, hsucc, hhigh, hdiff, hsum]
      rfl
    exact ⟨_, hvisit, hS.insert x, htable.insert hrun hle hge, longest_insert hlong hrun hle hge⟩

/-- All elements. -/
theorem Seen.run (num : List Int) (h : Seen s S)
    (hnum : ∀ x ∈ num, -2 ^ 31 < x ∧ x < 2 ^ 31 - 1) (hsize : S.ncard + num.length ≤ intMax) :
    ∃ s', num.foldlM LongestConsecutive.visit s = .ok s' ∧ Seen s' (S ∪ {x | x ∈ num}) := by
  induction num generalizing s S with
  | nil => exact ⟨s, rfl, by simpa using h⟩
  | cons x num ih =>
    have hx := hnum x List.mem_cons_self
    rw [List.length_cons] at hsize
    push_cast at hsize
    obtain ⟨s₁, hvisit, h₁⟩ := h.visit hx.1 hx.2 (by omega)
    have hle := Set.ncard_insert_le x S
    obtain ⟨s', hrest, h'⟩ :=
      ih h₁ (fun y hy => hnum y (List.mem_cons_of_mem x hy)) (by omega)
    have hset : S ∪ {y | y ∈ x :: num} = insert x S ∪ {y | y ∈ num} := by
      ext y
      simp only [Set.mem_union, Set.mem_ofPred_eq, List.mem_cons, Set.mem_insert_iff]
      rw [or_left_comm, or_assoc]
    rw [hset]
    refine ⟨s', ?_, h'⟩
    rw [List.foldlM_cons, hvisit]
    exact hrest

end

/-- The length of the longest run is returned, and it depends only on which elements there are. -/
def FindsLongest (num : List Int) : Prop :=
  ∃ n, longestConsecutive num = .ok n ∧ IsGreatest {n | Consecutive {x | x ∈ num} n} n ∧
    ∀ num' n', (∀ x, x ∈ num' ↔ x ∈ num) → longestConsecutive num' = .ok n' → n' = n

theorem longestConsecutive_ok {num : List Int} (hnum : ∀ x ∈ num, -2 ^ 31 < x ∧ x < 2 ^ 31 - 1)
    (hlen : num.length ≤ intMax) :
    ∃ n, longestConsecutive num = .ok n ∧ IsGreatest {n | Consecutive {x | x ∈ num} n} n := by
  have hstart : Seen (fun _ => none, 0) ∅ :=
    ⟨Set.finite_empty, ⟨fun k => by simp [count], fun a b h => (h.within a le_rfl h.le).elim⟩,
      longest_empty⟩
  have hsize : (∅ : Set Int).ncard + num.length ≤ intMax := by
    rw [Set.ncard_empty, Nat.cast_zero, Int.zero_add]
    exact hlen
  obtain ⟨s, hrun, hseen⟩ := hstart.run num hnum hsize
  have hloop : forEach visit (fun _ => none, 0) num = .ok s := forEach_eq_ok_iff.2 ⟨hlen, hrun⟩
  refine ⟨s.2, ?_, ?_⟩
  · rw [longestConsecutive, hloop]
    rfl
  · have hend := hseen.longest
    rwa [Set.empty_union] at hend

theorem length_le_of_ok {num : List Int} {n : Int} (h : longestConsecutive num = .ok n) :
    num.length ≤ intMax := by
  obtain ⟨s, hs, -⟩ := Outcome.bind_eq_ok h
  exact (forEach_eq_ok_iff.1 hs).1

/-- **The condition**: the number of elements is an `int`. -/
theorem findsLongest_iff {num : List Int} (hnum : ∀ x ∈ num, -2 ^ 31 < x ∧ x < 2 ^ 31 - 1) :
    FindsLongest num ↔ num.length ≤ intMax := by
  refine ⟨fun ⟨n, hrun, _⟩ => length_le_of_ok hrun, fun hlen => ?_⟩
  obtain ⟨n, hrun, hgreatest⟩ := longestConsecutive_ok hnum hlen
  refine ⟨n, hrun, hgreatest, fun num' n' hmem hrun' => ?_⟩
  obtain ⟨m, hm, hgreatest'⟩ :=
    longestConsecutive_ok (fun x hx => hnum x ((hmem x).1 hx)) (length_le_of_ok hrun')
  cases hm.symm.trans hrun'
  rw [show {x | x ∈ num'} = {x | x ∈ num} from Set.ext hmem] at hgreatest'
  exact hgreatest'.unique hgreatest

theorem findsLongest_iff_six : FindsLongest [100, 4, 200, 1, 3, 2] ↔ (6 : Nat) ≤ intMax :=
  findsLongest_iff (by decide)

/-- With `2 ^ 31` elements the counter overflows. -/
theorem not_findsLongest_ones : ¬FindsLongest (List.replicate (2 ^ 31) 1) := by
  rintro ⟨n, hrun, -⟩
  have hlen := length_le_of_ok hrun
  rw [List.length_replicate] at hlen
  exact absurd hlen (by decide)

end LongestConsecutive
