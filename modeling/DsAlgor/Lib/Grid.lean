import DsAlgor.Lib.Checked
import Mathlib.Data.List.Sort

/-!
# Two-dimensional arrays

A list of rows, with checked accesses. `grid m n f` has `m` rows and `n` columns, and `f i j` at row
`i` and column `j`.
-/

namespace Grid

open Checked

variable {α : Type}

/-- `g[i][j]` -/
def cell (g : List (List α)) (i j : Int) : Except Fault α := do
  let row ← Arr.get ⟨0, g⟩ i
  Arr.get ⟨0, row⟩ j

/-- `g[i][j] = x` -/
def setCell (g : List (List α)) (i j : Int) (x : α) : Except Fault (List (List α)) := do
  let row ← Arr.get ⟨0, g⟩ i
  let row ← Arr.set ⟨0, row⟩ j x
  let g ← Arr.set ⟨0, g⟩ i row.elems
  return g.elems

def gridRow (n : Nat) (f : Nat → α) : List α := (List.range n).map f

def grid (m n : Nat) (f : Nat → Nat → α) : List (List α) :=
  (List.range m).map fun i => gridRow n (f i)

section
variable {m n i j : Nat} {f : Nat → Nat → α} {x : α}

theorem exists_grid [Inhabited α] {g : List (List α)} (h : ∀ row ∈ g, row.length = n) :
    ∃ f, g = grid g.length n f ∧ ∀ i < g.length, ∀ j < n, ∃ row ∈ g, f i j ∈ row := by
  refine ⟨fun i j => (g.getD i []).getD j default, ?_, ?_⟩
  · refine List.ext_getElem (by simp [grid]) fun i hi _ => ?_
    have hlen := h g[i] (List.getElem_mem hi)
    refine List.ext_getElem (by simp [grid, gridRow, hlen]) fun j hj _ => ?_
    simp [grid, gridRow, hi, hj]
  · intro i hi j hj
    have hlen := h g[i] (List.getElem_mem hi)
    have hj' : j < g[i].length := by omega
    refine ⟨g[i], List.getElem_mem hi, ?_⟩
    simp [hi, hj']

@[simp] theorem length_grid : (grid m n f).length = m := by simp [grid]

@[simp] theorem length_gridRow {f : Nat → α} : (gridRow n f).length = n := by simp [gridRow]

theorem exists_gridRow [Inhabited α] (l : List α) : ∃ f, l = gridRow l.length f := by
  refine ⟨fun i => l.getD i default, List.ext_getElem (by simp [gridRow]) fun i hi _ => ?_⟩
  simp [gridRow, hi]

theorem replicate_gridRow : List.replicate n x = gridRow n fun _ => x := by
  refine List.ext_getElem (by simp) fun k hk _ => ?_
  simp [gridRow]

theorem get_grid (hi : i < m) : Arr.get ⟨0, grid m n f⟩ i = .ok (gridRow n (f i)) :=
  get_nat (by simp [grid, hi])

theorem get_gridRow {f : Nat → α} (hj : j < n) : Arr.get ⟨0, gridRow n f⟩ j = .ok (f j) :=
  get_nat (by simp [gridRow, hj])

theorem set_gridRow {f : Nat → α} (hj : j < n) :
    Arr.set ⟨0, gridRow n f⟩ j x = .ok ⟨0, gridRow n (Function.update f j x)⟩ := by
  have hrow : (gridRow n f).set j x = gridRow n (Function.update f j x) := by
    refine List.ext_getElem (by simp) fun k hk _ => ?_
    by_cases hkj : j = k
    · simp [gridRow, hkj]
    · simp [gridRow, List.getElem_set_of_ne hkj, Function.update_of_ne (Ne.symm hkj)]
  rw [set_nat (by rwa [length_gridRow]), hrow]

theorem cell_grid (hi : i < m) (hj : j < n) : cell (grid m n f) i j = .ok (f i j) := by
  rw [cell, get_grid hi]
  exact get_gridRow hj

theorem exists_of_get {l : List α} {k : Int} (h : Arr.get ⟨0, l⟩ k = .ok x) :
    ∃ i : Nat, k = i ∧ l[i]? = some x := by
  simp only [Arr.get, Int.sub_zero] at h
  split at h
  · cases h
  · cases hx : l[k.toNat]? with
    | none => simp [hx] at h
    | some y =>
      simp only [hx, Except.ok.injEq] at h
      exact ⟨k.toNat, by omega, by rw [hx, h]⟩

/-- An access that is no fault is inside. -/
theorem exists_of_cell {k l : Int} (h : cell (grid m n f) k l = .ok x) :
    ∃ i < m, ∃ j < n, k = i ∧ l = j ∧ f i j = x := by
  obtain ⟨row, hrow, hx⟩ := bind_eq_ok h
  obtain ⟨i, rfl, hget⟩ := exists_of_get hrow
  obtain ⟨j, rfl, hget'⟩ := exists_of_get hx
  obtain ⟨hi, rfl⟩ := List.getElem?_eq_some_iff.1 hget
  obtain ⟨hj, rfl⟩ := List.getElem?_eq_some_iff.1 hget'
  simp only [grid, gridRow, List.length_map, List.length_range, List.getElem_map,
    List.getElem_range] at hi hj
  exact ⟨i, hi, j, hj, rfl, rfl, by simp [grid, gridRow]⟩

theorem setCell_grid (hi : i < m) (hj : j < n) : setCell (grid m n f) i j x =
    .ok (grid m n (Function.update f i (Function.update (f i) j x))) := by
  have hset : (grid m n f).set i (gridRow n (Function.update (f i) j x)) =
      grid m n (Function.update f i (Function.update (f i) j x)) := by
    refine List.ext_getElem (by simp) fun k hk _ => ?_
    by_cases hki : i = k
    · simp [grid, hki]
    · simp [grid, List.getElem_set_of_ne hki, Function.update_of_ne (Ne.symm hki)]
  have hlen : i < (grid m n f).length := by rwa [length_grid]
  simp only [setCell, get_grid hi, set_gridRow hj, set_nat hlen, bind, Except.bind, pure,
    Except.pure, hset]

end

/-! ## A table filled from left to right -/

section
variable {n i : Nat} {f : Nat → α} {x : α}

/-- The entry that is being computed. -/
theorem get_current (hi : i < n) :
    Arr.get ⟨0, gridRow n (Function.update f i x)⟩ i = .ok x := by
  rw [get_gridRow hi, Function.update_self]

theorem set_current (hi : i < n) (y : α) :
    Arr.set ⟨0, gridRow n (Function.update f i x)⟩ i y =
      .ok ⟨0, gridRow n (Function.update f i y)⟩ := by
  rw [set_gridRow hi, Function.update_idem]

/-- An entry before it. -/
theorem get_before (hi : i < n) {s : Int} (hs : 0 < s) (hle : s ≤ i) :
    Arr.get ⟨0, gridRow n (Function.update f i x)⟩ (i - s) = .ok (f (i - s : Int).toNat) := by
  have hidx : (((i - s : Int).toNat : Nat) : Int) = i - s := by omega
  have hget := get_gridRow (n := n) (f := Function.update f i x) (j := (i - s : Int).toNat)
    (by omega)
  rwa [Function.update_of_ne (by omega), hidx] at hget

/-- The entries get `P` one after the other, and are `c` before that. -/
theorem fill_to {ε : Type} {N : Nat} {body : Arr α → Nat → Except ε (Arr α)} {P : Nat → α → Prop}
    {c : α}
    (hzero : P 0 x) (hstep : ∀ i f, 1 ≤ i → i ≤ n → (∀ k < i, P k (f k)) → f i = c → ∃ y,
      body ⟨0, gridRow (N + 1) f⟩ i = .ok ⟨0, gridRow (N + 1) (Function.update f i y)⟩ ∧ P i y) :
    ∃ f, (List.range' 1 n).foldlM body
        ⟨0, gridRow (N + 1) (Function.update (fun _ => c) 0 x)⟩ =
      .ok ⟨0, gridRow (N + 1) f⟩ ∧ (∀ k ≤ n, P k (f k)) ∧ ∀ k > n, f k = c := by
  obtain ⟨table, hrun, f, rfl, hdone, htodo⟩ : ∃ table, (List.range' 1 n).foldlM body
        ⟨0, gridRow (N + 1) (Function.update (fun _ => c) 0 x)⟩ = .ok table ∧
      ∃ f, table = ⟨0, gridRow (N + 1) f⟩ ∧ (∀ k < 1 + n, P k (f k)) ∧ ∀ k ≥ 1 + n, f k = c := by
    refine upward (P := fun i (table : Arr α) => ∃ f, table = ⟨0, gridRow (N + 1) f⟩ ∧
      (∀ k < i, P k (f k)) ∧ ∀ k ≥ i, f k = c) ?_
        ⟨Function.update (fun _ => c) 0 x, rfl, fun k hk => ?_, fun k hk => ?_⟩
    · rintro i hi1 hin _ ⟨f, rfl, hdone, htodo⟩
      obtain ⟨y, hrun, hy⟩ := hstep i f hi1 (by omega) hdone (htodo i le_rfl)
      refine ⟨_, hrun, _, rfl, fun k hk => ?_, fun k hk => ?_⟩
      · by_cases hki : k = i
        · subst hki
          rwa [Function.update_self]
        · rw [Function.update_of_ne hki]
          exact hdone k (by omega)
      · rw [Function.update_of_ne (by omega)]
        exact htodo k (by omega)
    · obtain rfl : k = 0 := by omega
      rwa [Function.update_self]
    · rw [Function.update_of_ne (by omega)]
  exact ⟨f, hrun, fun k hk => hdone k (by omega), fun k hk => htodo k (by omega)⟩

theorem fill_row {ε : Type} {body : Arr α → Nat → Except ε (Arr α)} {P : Nat → α → Prop} {c : α}
    (hzero : P 0 x) (hstep : ∀ i f, 1 ≤ i → i ≤ n → (∀ k < i, P k (f k)) → f i = c → ∃ y,
      body ⟨0, gridRow (n + 1) f⟩ i = .ok ⟨0, gridRow (n + 1) (Function.update f i y)⟩ ∧ P i y) :
    ∃ f, (List.range' 1 n).foldlM body
        ⟨0, gridRow (n + 1) (Function.update (fun _ => c) 0 x)⟩ =
      .ok ⟨0, gridRow (n + 1) f⟩ ∧ ∀ k ≤ n, P k (f k) := by
  obtain ⟨f, hrun, hdone, -⟩ := fill_to (N := n) hzero hstep
  exact ⟨f, hrun, hdone⟩

end

/-! ## A sorted array -/

/-- `a[0], ..., a[n - 1]` are in order. -/
def Ascending [LE α] (n : Nat) (a : Nat → α) : Prop := ∀ i j, i ≤ j → j < n → a i ≤ a j

theorem exists_ascending [LinearOrder α] [Inhabited α] (l : List α) : ∃ a,
    l.insertionSort (· ≤ ·) = gridRow l.length a ∧ Ascending l.length a := by
  obtain ⟨a, heq⟩ := exists_gridRow (l.insertionSort (· ≤ ·))
  rw [List.length_insertionSort] at heq
  refine ⟨a, heq, fun i j hij hj => ?_⟩
  have hsorted := List.pairwise_insertionSort (· ≤ ·) l
  rw [heq, gridRow, List.pairwise_map] at hsorted
  rcases Nat.eq_or_lt_of_le hij with rfl | hlt
  · exact le_rfl
  · have hpair := List.pairwise_iff_getElem.1 hsorted i j (by simp; omega) (by simpa) hlt
    simpa using hpair

end Grid
