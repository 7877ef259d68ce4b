import DsAlgor.Lib.Components
import DsAlgor.Lib.Grid
import DsAlgor.Lib.Pointers
import DsAlgor.Lib.Signed

/-!
# `connected_components.cpp`

A call of `dfs` goes on to the four cells around and comes back from a cell outside of the matrix.
The calls are a search (`dfsAll_halts`), and `connectedComponents` counts its roots, one in each
component. The indices are `int`s, which have to count the rows and the columns
(`countsComponents_iff`).
-/

namespace Homework

open Checked Grid Search
open Pointers (Halts)
open Signed (Undefined access add sub forEach intMax)

/-- `0 <= i && i < mat.size() && 0 <= j && j < mat[0].size()` -/
def inside (mat : List (List Int)) (i j : Int) : Except Fault Bool := do
  if 0 ≤ i ∧ i < mat.length ∧ 0 ≤ j then
    let row ← Arr.get ⟨0, mat⟩ 0
    return decide (j < row.length)
  else return false

/-- `mat[i][j] && !visited[i][j]` -/
def fresh (mat : List (List Int)) (i j : Int) (visited : List (List Int)) :
    Except Fault Bool := do
  if (← cell mat i j) ≠ 0 then return decide ((← cell visited i j) = 0) else return false

/-- Whether a component has been started, and `visited` after the call. -/
def dfs (mat : List (List Int)) : Nat → Int → Int → List (List Int) →
    Except Undefined (Bool × List (List Int))
  | 0, _, _, _ => .error (.fault .loop)
  | fuel + 1, i, j, visited => do
    if ← access (inside mat i j) then
      if ← access (fresh mat i j visited) then
        let visited ← access (setCell visited i j 1)
        let (_, visited) ← dfs mat fuel (← sub i 1) j visited
        let (_, visited) ← dfs mat fuel (← add i 1) j visited
        let (_, visited) ← dfs mat fuel i (← sub j 1) visited
        let (_, visited) ← dfs mat fuel i (← add j 1) visited
        return (true, visited)
      else return (false, visited)
    else return (false, visited)

/-- The body of the loops. -/
def scan (mat : List (List Int)) (fuel : Nat) (state : Nat × List (List Int)) (p : Int × Int) :
    Except Undefined (Nat × List (List Int)) := do
  let (started, visited) ← dfs mat fuel p.1 p.2 state.2
  return (if started then state.1 + 1 else state.1, visited)

/-- The loop over the columns. -/
def scanRow (mat : List (List Int)) (fuel : Nat) (state : Nat × List (List Int)) (i : Nat) :
    Except Undefined (Nat × List (List Int)) := do
  let row ← access (Arr.get ⟨0, mat⟩ 0)
  forEach (fun state (j : Nat) => scan mat fuel state (i, j)) state (List.range row.length)

def connectedComponents (fuel : Nat) (mat : List (List Int)) : Except Undefined Nat := do
  let row ← access (Arr.get ⟨0, mat⟩ 0)
  let visited := List.replicate mat.length (List.replicate row.length 0)
  let (count, _) ← forEach (scanRow mat fuel) (0, visited) (List.range mat.length)
  return count

/-- The cells above, below, on the left and on the right. -/
def around (p : Int × Int) : List (Int × Int) :=
  [(p.1 - 1, p.2), (p.1 + 1, p.2), (p.1, p.2 - 1), (p.1, p.2 + 1)]

theorem mem_around_comm {p q : Int × Int} : p ∈ around q ↔ q ∈ around p := by
  obtain ⟨a, b⟩ := p
  obtain ⟨c, d⟩ := q
  simp only [around, List.mem_cons, List.not_mem_nil, or_false, Prod.mk.injEq]
  omega

/-- Two cells are next to each other in a row or in a column. -/
def adjacency : SimpleGraph (Int × Int) where
  Adj p q := q ∈ around p
  symm := ⟨fun _ _ h => mem_around_comm.1 h⟩
  loopless := ⟨fun p h => by
    simp only [around, List.mem_cons, List.not_mem_nil, or_false, Prod.ext_iff] at h
    omega⟩

/-- The cells of `mat` that are 1. -/
def ones (mat : List (List Int)) : Set (Int × Int) := {p | cell mat p.1 p.2 = .ok 1}

/-! ## A call -/

section
variable {m n : Nat} {f : Nat → Nat → Int} {s s' ws roots : List (Int × Int)} {p : Int × Int}
  {fuel : Nat}

/-- The cells of `grid m n f` that are not 0. -/
def Land (m n : Nat) (f : Nat → Nat → Int) (p : Int × Int) : Prop :=
  ∃ i < m, ∃ j < n, p = (↑i, ↑j) ∧ f i j ≠ 0

/-- `visited` with the cells of `s`. -/
def marks (m n : Nat) (s : List (Int × Int)) : List (List Int) :=
  grid m n fun i j => if ((i : Int), (j : Int)) ∈ s then 1 else 0

theorem setCell_marks {i j : Nat} (hi : i < m) (hj : j < n) :
    setCell (marks m n s) i j 1 = .ok (marks m n (s ++ [((i : Int), (j : Int))])) := by
  rw [marks, setCell_grid hi hj, marks]
  congr 2
  funext a b
  by_cases ha : a = i
  · subst ha
    by_cases hb : b = j
    · subst hb
      simp
    · simp [hb]
  · simp [ha]

theorem inside_eq {i j : Int} (hm : 0 < m) : inside (grid m n f) i j =
    .ok (decide (0 ≤ i ∧ i < m ∧ 0 ≤ j ∧ j < n)) := by
  have hrow : Arr.get ⟨0, grid m n f⟩ 0 = .ok (gridRow n (f 0)) := get_grid (i := 0) hm
  by_cases h : 0 ≤ i ∧ i < m ∧ 0 ≤ j
  · obtain ⟨h1, h2, h3⟩ := h
    simp [inside, h1, h2, h3, hrow, bind, Except.bind, pure, Except.pure]
  · have h' : ¬ (0 ≤ i ∧ i < m ∧ 0 ≤ j ∧ j < n) := by omega
    simp only [inside, length_grid, if_neg h, h', decide_false]
    rfl

theorem fresh_eq {i j : Nat} (hi : i < m) (hj : j < n) :
    fresh (grid m n f) i j (marks m n s) =
      .ok (decide (f i j ≠ 0 ∧ ((i : Int), (j : Int)) ∉ s)) := by
  by_cases hf : f i j = 0
  · simp [fresh, cell_grid hi hj, hf, bind, Except.bind, pure, Except.pure]
  · by_cases hs : ((i : Int), (j : Int)) ∈ s <;>
      simp [fresh, marks, cell_grid hi hj, hf, hs, bind, Except.bind, pure, Except.pure]

theorem dfs_skip (hm : 0 < m) (h : p ∈ s ∨ ¬ Land m n f p) :
    dfs (grid m n f) (fuel + 1) p.1 p.2 (marks m n s) = .ok (false, marks m n s) := by
  obtain ⟨i, j⟩ := p
  by_cases hin : 0 ≤ i ∧ i < m ∧ 0 ≤ j ∧ j < n
  · obtain ⟨h1, h2, h3, h4⟩ := id hin
    lift i to ℕ using h1
    lift j to ℕ using h3
    have hi : i < m := by omega
    have hj : j < n := by omega
    have hold : ¬ (f i j ≠ 0 ∧ ((i : Int), (j : Int)) ∉ s) := by
      rintro ⟨hland, hs⟩
      exact h.elim hs fun hno => hno ⟨i, hi, j, hj, rfl, hland⟩
    simp only [dfs, inside_eq hm, fresh_eq hi hj, hin, hold, decide_false, Signed.access_ok,
      Signed.ok_bind]
    rfl
  · simp only [dfs, inside_eq hm, hin, decide_false, Signed.access_ok, Signed.ok_bind]
    rfl

/-- The calls for the cells `ws`. -/
def dfsAll (mat : List (List Int)) (fuel : Nat) :
    List (Int × Int) → List (List Int) → Except Undefined (List (List Int))
  | [], visited => return visited
  | p :: ws, visited => do
    let (_, visited) ← dfs mat fuel p.1 p.2 visited
    dfsAll mat fuel ws visited

theorem dfs_enter (hm : m ≤ intMax) (hn : n ≤ intMax) (hs : p ∉ s) (hp : Land m n f p) :
    dfs (grid m n f) (fuel + 1) p.1 p.2 (marks m n s) = do
      let visited ← dfsAll (grid m n f) fuel (around p) (marks m n (s ++ [p]))
      return (true, visited) := by
  obtain ⟨i, hi, j, hj, rfl, hland⟩ := hp
  have hin : 0 ≤ (i : Int) ∧ (i : Int) < m ∧ 0 ≤ (j : Int) ∧ (j : Int) < n := by omega
  have hnew : f i j ≠ 0 ∧ ((i : Int), (j : Int)) ∉ s := ⟨hland, hs⟩
  have hmax : 0 ≤ intMax := by decide
  simp [dfs, inside_eq (Nat.zero_lt_of_lt hi), fresh_eq hi hj, setCell_marks hi hj, hin, hnew,
    dfsAll, around, Signed.ok_bind,
    Signed.sub_eq (show -intMax - 1 ≤ (i : Int) - 1 by omega) (by omega),
    Signed.sub_eq (show -intMax - 1 ≤ (j : Int) - 1 by omega) (by omega),
    Signed.add_ok (Int.natCast_nonneg i) Int.one_nonneg (by omega),
    Signed.add_ok (Int.natCast_nonneg j) Int.one_nonneg (by omega)]

theorem dfs_halts {s₁ : List (Int × Int)} (hm : m ≤ intMax) (hn : n ≤ intMax) (hs : p ∉ s)
    (hp : Land m n f p)
    (h : Halts (fun fuel => dfsAll (grid m n f) fuel (around p) (marks m n (s ++ [p])))
      (.ok (marks m n s₁))) :
    Halts (fun fuel => dfs (grid m n f) fuel p.1 p.2 (marks m n s)) (.ok (true, marks m n s₁)) := by
  refine .succ ?_
  simp only [dfs_enter hm hn hs hp]
  exact h.bind (.const _)

/-- The calls are a search. -/
theorem dfsAll_halts (hpos : 0 < m) (hm : m ≤ intMax) (hn : n ≤ intMax)
    (h : Visits around (Land m n f) s ws s') :
    Halts (fun fuel => dfsAll (grid m n f) fuel ws (marks m n s)) (.ok (marks m n s')) := by
  induction h with
  | nil => exact .const _
  | @skip s s' ws p hp _ ih =>
    have hcall : Halts (fun fuel => dfs (grid m n f) fuel p.1 p.2 (marks m n s))
        (.ok (false, marks m n s)) := .succ (by simpa only [dfs_skip hpos hp] using .const _)
    exact hcall.bind ih
  | @enter s s₁ s' ws p hs hp _ _ ih ih' =>
    exact (dfs_halts hm hn hs hp ih).bind ih'

/-! ## The loops -/

theorem scan_halts (count : Nat) (hpos : 0 < m) (hm : m ≤ intMax) (hn : n ≤ intMax)
    (h : Forest around (Land m n f) s ws roots s') :
    Halts (fun fuel => ws.foldlM (scan (grid m n f) fuel) (count, marks m n s))
      (.ok (count + roots.length, marks m n s')) := by
  induction h generalizing count with
  | nil => exact .const _
  | @skip s s' ws roots p hp _ ih =>
    have hcall : Halts (fun fuel => scan (grid m n f) fuel (count, marks m n s) p)
        (.ok (count, marks m n s)) := .succ (by
      simpa [scan, dfs_skip hpos hp, Signed.ok_bind, pure, Except.pure] using .const _)
    simp only [List.foldlM_cons]
    exact hcall.bind (ih count)
  | @enter s s₁ s' ws roots p hs hp hin _ ih =>
    have hcall : Halts (fun fuel => scan (grid m n f) fuel (count, marks m n s) p)
        (.ok (count + 1, marks m n s₁)) :=
      (dfs_halts hm hn hs hp (dfsAll_halts hpos hm hn hin)).bind (.const _)
    have hsum : count + (p :: roots).length = count + 1 + roots.length := by
      rw [List.length_cons]
      omega
    simp only [List.foldlM_cons, hsum]
    exact hcall.bind (ih (count + 1))

/-- The cells in the order of the loops. -/
def cells (m n : Nat) : List (Int × Int) :=
  (List.range m).flatMap fun i : Nat => (List.range n).map fun j : Nat => (↑i, ↑j)

theorem land_finite : {p | Land m n f p}.Finite := by
  refine ((Set.finite_Ico (0 : Int) m).prod (Set.finite_Ico (0 : Int) n)).subset ?_
  rintro _ ⟨i, hi, j, hj, rfl, -⟩
  simp only [Set.mem_prod, Set.mem_Ico]
  omega

theorem foldlM_flatMap {α β σ ε : Type} (g : α → List β) (step : σ → β → Except ε σ) (l : List α)
    (state : σ) : (l.flatMap g).foldlM step state =
      l.foldlM (fun state a => (g a).foldlM step state) state := by
  induction l generalizing state with
  | nil => rfl
  | cons a l ih => simp [List.foldlM_append, ih]

theorem connectedComponents_eq (hpos : 0 < m) (hm : m ≤ intMax) (hn : n ≤ intMax) :
    connectedComponents fuel (grid m n f) = do
      let (count, _) ← (cells m n).foldlM (scan (grid m n f) fuel) (0, marks m n [])
      return count := by
  have hrow : Arr.get ⟨0, grid m n f⟩ 0 = .ok (gridRow n (f 0)) := get_grid (i := 0) hpos
  have hempty : List.replicate m (List.replicate n (0 : Int)) = marks m n [] := by
    simp [marks, grid, gridRow, List.map_const']
  have hscan : scanRow (grid m n f) fuel = fun state (i : Nat) =>
      (List.range n).foldlM (fun state (j : Nat) => scan (grid m n f) fuel state (i, j)) state := by
    funext state i
    rw [scanRow, hrow, Signed.access_ok, Signed.ok_bind, length_gridRow,
      Signed.forEach_eq (by rwa [List.length_range])]
  rw [connectedComponents, hrow, Signed.access_ok, Signed.ok_bind, length_gridRow, length_grid,
    hempty, hscan]
  dsimp only
  rw [Signed.forEach_eq (by rwa [List.length_range])]
  simp only [cells, foldlM_flatMap, List.foldlM_map]

/-- What is returned needs indices for all rows and all columns. -/
theorem size_of_ok {count : Nat} (hpos : 0 < m)
    (h : connectedComponents fuel (grid m n f) = .ok count) : m ≤ intMax ∧ n ≤ intMax := by
  have hrow : Arr.get ⟨0, grid m n f⟩ 0 = .ok (gridRow n (f 0)) := get_grid (i := 0) hpos
  rw [connectedComponents, hrow, Signed.access_ok, Signed.ok_bind, length_grid] at h
  dsimp only at h
  cases hrun : forEach (scanRow (grid m n f) fuel)
      (0, List.replicate m (List.replicate (gridRow n (f 0)).length 0)) (List.range m) with
  | error e =>
    rw [hrun] at h
    cases h
  | ok r =>
    obtain ⟨hm, hrows⟩ := Signed.forEach_eq_ok_iff.1 hrun
    rw [List.length_range] at hm
    refine ⟨hm, ?_⟩
    obtain ⟨m, rfl⟩ := Nat.exists_eq_succ_of_ne_zero hpos.ne'
    rw [List.range_succ_eq_map, List.foldlM_cons, scanRow, hrow, Signed.access_ok,
      Signed.ok_bind, length_gridRow] at hrows
    cases hfirst : forEach (fun state (j : Nat) =>
        scan (grid (m + 1) n f) fuel state (((0 : Nat) : Int), (j : Int)))
        (0, List.replicate (m + 1) (List.replicate n 0)) (List.range n) with
    | error e =>
      rw [hfirst] at hrows
      cases hrows
    | ok r =>
      have hn := (Signed.forEach_eq_ok_iff.1 hfirst).1
      rwa [List.length_range] at hn

theorem mem_cells (hp : Land m n f p) : p ∈ cells m n := by
  obtain ⟨i, hi, j, hj, rfl, -⟩ := hp
  exact List.mem_flatMap.2 ⟨i, List.mem_range.2 hi, List.mem_map.2 ⟨j, List.mem_range.2 hj, rfl⟩⟩

theorem land_iff (h01 : ∀ i < m, ∀ j < n, f i j = 0 ∨ f i j = 1) (p : Int × Int) :
    Land m n f p ↔ p ∈ ones (grid m n f) := by
  constructor
  · rintro ⟨i, hi, j, hj, rfl, hland⟩
    change cell (grid m n f) i j = .ok 1
    rw [cell_grid hi hj, (h01 i hi j hj).resolve_left hland]
  · intro hp
    obtain ⟨i, hi, j, hj, h1, h2, hone⟩ := exists_of_cell hp
    exact ⟨i, hi, j, hj, Prod.ext h1 h2, by omega⟩

end

/-- The number of components is returned, and every access is inside. -/
def CountsComponents (mat : List (List Int)) : Prop :=
  Halts (fun fuel => connectedComponents fuel mat)
    (.ok (Nat.card (adjacency.induce (ones mat)).ConnectedComponent))

/-- **The condition**: there are `int`s for the rows and for the columns. -/
theorem countsComponents_iff {mat : List (List Int)} {n : Nat} (hne : mat ≠ [])
    (hrect : ∀ row ∈ mat, row.length = n) (h01 : ∀ row ∈ mat, ∀ x ∈ row, x = 0 ∨ x = 1) :
    CountsComponents mat ↔ mat.length ≤ intMax ∧ n ≤ intMax := by
  obtain ⟨f, hmat, hmem⟩ := exists_grid hrect
  have hpos : 0 < mat.length := List.length_pos_iff.2 hne
  have h01' : ∀ i < mat.length, ∀ j < n, f i j = 0 ∨ f i j = 1 := by
    intro i hi j hj
    obtain ⟨row, hrow, hf⟩ := hmem i hi j hj
    exact h01 row hrow _ hf
  generalize mat.length = m at hmat hpos h01'
  subst hmat
  constructor
  · rintro ⟨k, hrun⟩
    exact size_of_ok hpos (hrun k le_rfl)
  · rintro ⟨hm, hn⟩
    obtain ⟨roots, s', hforest⟩ : ∃ roots s', Forest around (Land m n f) [] (cells m n) roots s' :=
      Forest.total land_finite [] (cells m n)
    rw [CountsComponents, card_components (fun _ _ => Iff.rfl) (land_iff h01')
      (fun p hp => mem_cells ((land_iff h01' p).2 hp)) hforest]
    simp only [connectedComponents_eq hpos hm hn]
    have hrun := scan_halts 0 hpos hm hn hforest
    rw [Nat.zero_add] at hrun
    exact hrun.bind (.const _)

/-- Two cells that touch at a corner. -/
theorem countsComponents_iff_corner :
    CountsComponents [[1, 0], [0, 1]] ↔
      ([[1, 0], [0, 1]] : List (List Int)).length ≤ intMax ∧ ((2 : Nat) : Int) ≤ intMax :=
  countsComponents_iff (by decide) (by decide) (by decide)

/-- A row of `2 ^ 31` zeros. -/
theorem not_countsComponents_long : ¬ CountsComponents [List.replicate (2 ^ 31) 0] := by
  rintro ⟨k, hrun⟩
  have hgrid : [List.replicate (2 ^ 31) (0 : Int)] = grid 1 (2 ^ 31) fun _ _ => 0 := by
    rw [replicate_gridRow]
    rfl
  have hrun := hrun k le_rfl
  rw [hgrid] at hrun
  exact absurd (size_of_ok Nat.one_pos hrun).2 (by decide)

end Homework
