import DsAlgor.Lib.Enumerate
import DsAlgor.Lib.Grid

/-!
# `unique_permute.cpp`

The array is sorted first. An element is left out if the one before it is equal and has not been
taken, so the taken ones of a run of equal elements are its first ones (`Prefixes`), and each
value is tried once on a level (`head_map_chosen`).
-/

namespace UniquePermute

open Checked Grid Enumerate

section
variable (nums : List Int)

/-- The result, the list, and the flags. -/
abbrev State := List (List Int) × List Int × Arr Bool

/-- `visited[i] || (i != 0 && nums[i] == nums[i - 1] && !visited[i - 1])` -/
def skips (visited : Arr Bool) (i : Nat) : Except Fault Bool := do
  if ← visited.get i then return true
  if i = 0 then return false
  if (← Arr.get ⟨0, nums⟩ i) ≠ (← Arr.get ⟨0, nums⟩ (i - 1)) then return false
  return !(← visited.get (i - 1))

/-- The loop over `i`, with the recursive call `rest`. -/
def tryAll (rest : State → Except Fault State) : List Nat → State → Except Fault State
  | [], state => return state
  | i :: is, (result, list, visited) => do
    if ← skips nums visited i then tryAll rest is (result, list, visited)
    else
      let visited ← visited.set i true
      let x ← Arr.get ⟨0, nums⟩ i
      let (result, list, visited) ← rest (result, list ++ [x], visited)
      let visited ← visited.set i false
      tryAll rest is (result, list.dropLast, visited)

def backTrack : Nat → State → Except Fault State
  | 0, _ => .error .loop
  | fuel + 1, (result, list, visited) =>
    if list.length = nums.length then return (result ++ [list], list, visited)
    else tryAll nums (backTrack fuel) (List.range nums.length) (result, list, visited)

/-- The result, and the array afterwards. -/
def permuteUnique (fuel : Nat) : Except Fault (List (List Int) × List Int) := do
  if nums.isEmpty then return ([], nums)
  let nums := nums.insertionSort (· ≤ ·)
  let visited : Arr Bool := ⟨0, List.replicate nums.length false⟩
  let (result, _, _) ← backTrack nums fuel ([], [], visited)
  return (result, nums)

end

/-! ## The elements that are not taken yet -/

section
variable {n i j : Nat} {a : Nat → Int} {v : Nat → Bool}

/-- The indices that are not visited. -/
def free (n : Nat) (v : Nat → Bool) : List Nat := (List.range n).filter (!v ·)

theorem mem_free : i ∈ free n v ↔ i < n ∧ v i = false := by
  simp [free]

theorem free_perm (hi : i < n) (hv : v i = false) :
    (free n v).Perm (i :: free n (Function.update v i true)) := by
  have hnodup : ∀ v, (free n v).Nodup := fun v => List.nodup_range.filter _
  have hout : i ∉ free n (Function.update v i true) := by
    rw [mem_free, Function.update_self]
    simp
  refine (List.perm_ext_iff_of_nodup (hnodup v) (List.nodup_cons.2 ⟨hout, hnodup _⟩)).2
    fun j => ?_
  rw [List.mem_cons, mem_free, mem_free]
  by_cases hj : j = i
  · simp [hj, hi, hv]
  · simp [hj]

/-- Their elements. -/
def remaining (n : Nat) (a : Nat → Int) (v : Nat → Bool) : List Int := (free n v).map a

theorem remaining_perm (hi : i < n) (hv : v i = false) :
    (remaining n a v).Perm (a i :: remaining n a (Function.update v i true)) :=
  (free_perm hi hv).map a

/-- **The invariant of the flags**: of equal elements the first ones are taken. -/
def Prefixes (n : Nat) (a : Nat → Int) (v : Nat → Bool) : Prop :=
  ∀ i, i + 1 < n → a i = a (i + 1) → v (i + 1) = true → v i = true

/-- The index `i` is not skipped. -/
def Chosen (a : Nat → Int) (v : Nat → Bool) (i : Nat) : Prop :=
  v i = false ∧ (i ≠ 0 → a i = a (i - 1) → v (i - 1) = true)

instance : DecidablePred (Chosen a v) := fun _ => inferInstanceAs (Decidable (_ ∧ _))

theorem skips_ok (hi : i < n) : skips (gridRow n a) ⟨0, gridRow n v⟩ i =
    .ok (!decide (Chosen a v i)) := by
  have hvi : Arr.get ⟨0, gridRow n v⟩ i = .ok (v i) := get_gridRow hi
  have hai : Arr.get ⟨0, gridRow n a⟩ i = .ok (a i) := get_gridRow hi
  cases hv : v i with
  | true =>
    simp only [skips, hvi, hv, ok_bind, Chosen]
    rfl
  | false =>
    cases i with
    | zero =>
      simp only [skips, hvi, hv, ok_bind, Chosen]
      simp [pure, Except.pure]
    | succ i =>
      have hpred : (((i + 1 : Nat) : Int) - 1) = i := by omega
      have hvp : Arr.get ⟨0, gridRow n v⟩ i = .ok (v i) := get_gridRow (by omega)
      have hap : Arr.get ⟨0, gridRow n a⟩ i = .ok (a i) := get_gridRow (by omega)
      simp only [skips, hvi, hv, hai, hpred, hvp, hap, ok_bind, Chosen, Nat.add_sub_cancel]
      by_cases heq : a (i + 1) = a i
      · simp [heq, pure, Except.pure]
      · simp [heq, pure, Except.pure]

theorem Prefixes.le (h : Prefixes n a v) (ha : Ascending n a) {j : Nat} (hij : i ≤ j) (hj : j < n)
    (heq : a i = a j) (hv : v j = true) : v i = true := by
  induction j, hij using Nat.le_induction with
  | base => exact hv
  | succ j hij ih =>
    have h1 := ha i j hij (by omega)
    have h2 := ha j (j + 1) (Nat.le_succ j) hj
    exact ih (by omega) (by omega) (h j hj (by omega) hv)

/-- Taking an index that is not skipped keeps the invariant. -/
theorem Prefixes.update (h : Prefixes n a v) (hi : Chosen a v i) :
    Prefixes n a (Function.update v i true) := by
  intro j hj heq hv
  by_cases hji : j = i
  · rw [hji, Function.update_self]
  · rw [Function.update_of_ne hji]
    by_cases hji' : j + 1 = i
    · subst hji'
      exact hi.2 (Nat.succ_ne_zero j) heq.symm
    · rw [Function.update_of_ne hji'] at hv
      exact h j hj heq hv

/-- The indices that are not skipped. -/
def chosen (n : Nat) (a : Nat → Int) (v : Nat → Bool) : List Nat :=
  (List.range n).filter (Chosen a v ·)

theorem mem_chosen : i ∈ chosen n a v ↔ i < n ∧ Chosen a v i := by
  simp [chosen]

/-- Of equal elements one at most is not skipped. -/
theorem nodup_map_chosen (h : Prefixes n a v) (ha : Ascending n a) :
    ((chosen n a v).map a).Nodup := by
  have hlt : ∀ {i j}, i < j → i ∈ chosen n a v → j ∈ chosen n a v → a i ≠ a j := by
    intro i j hij hi hj heq
    rw [mem_chosen] at hi hj
    have h1 := ha i (j - 1) (by omega) (by omega)
    have h2 := ha (j - 1) j (by omega) hj.1
    have hprev := hj.2.2 (by omega) (by omega)
    have htaken := h.le (i := i) (j := j - 1) ha (by omega) (by omega) (by omega) hprev
    rw [hi.2.1] at htaken
    cases htaken
  refine (List.nodup_range.filter _).map_on fun i hi j hj heq => ?_
  rcases Nat.lt_trichotomy i j with hij | hij | hij
  · exact absurd heq (hlt hij hi hj)
  · exact hij
  · exact absurd heq.symm (hlt hij hj hi)

/-- Of the elements that are left each value is tried. -/
theorem head_map_chosen (x : Int) : x ∈ (chosen n a v).map a ↔ x ∈ remaining n a v := by
  rw [remaining, List.mem_map, List.mem_map]
  constructor
  · rintro ⟨i, hi, rfl⟩
    rw [mem_chosen] at hi
    exact ⟨i, mem_free.2 ⟨hi.1, hi.2.1⟩, rfl⟩
  · rintro ⟨i, hi, rfl⟩
    -- the first index with this value that is not visited
    have hex : ∃ j, j ∈ free n v ∧ a j = a i := ⟨i, hi, rfl⟩
    classical
    have hfirst := Nat.find_spec hex
    rw [mem_free] at hfirst
    refine ⟨Nat.find hex, mem_chosen.2 ⟨hfirst.1.1, hfirst.1.2, fun hpos heq => ?_⟩, hfirst.2⟩
    by_contra hv
    have hprev := Nat.find_min hex (Nat.sub_one_lt hpos)
    exact hprev ⟨mem_free.2 ⟨by omega, by simpa using hv⟩, heq.symm.trans hfirst.2⟩

end

/-! ## The recursion -/

section
variable {n fuel : Nat} {a : Nat → Int} {v : Nat → Bool} {nums : List Int}

/-- A call adds the lists of `out` behind `list`, and restores the list and the flags. -/
def Adds (n : Nat) (call : State → Except Fault State) (v : Nat → Bool) (out : List (List Int)) :
    Prop :=
  ∀ result list, list.length + (free n v).length = n →
    call (result, list, ⟨0, gridRow n v⟩) =
      .ok (result ++ out.map (list ++ ·), list, ⟨0, gridRow n v⟩)

theorem tryAll_ok {call : State → Except Fault State} {out : Nat → List (List Int)} {is : List Nat}
    (his : ∀ i ∈ is, i < n)
    (hcall : ∀ i ∈ is, Chosen a v i → Adds n call (Function.update v i true) (out i))
    (result : List (List Int)) {list : List Int} (hlist : list.length + (free n v).length = n) :
    tryAll (gridRow n a) call is (result, list, ⟨0, gridRow n v⟩) =
      .ok (result ++ ((is.filter (Chosen a v ·)).flatMap fun i =>
        (out i).map (a i :: ·)).map (list ++ ·), list, ⟨0, gridRow n v⟩) := by
  induction is generalizing result with
  | nil => simp [tryAll, pure, Except.pure]
  | cons i is ih =>
    have hi := his i List.mem_cons_self
    have ih := ih (fun j hj => his j (List.mem_cons_of_mem i hj))
      fun j hj => hcall j (List.mem_cons_of_mem i hj)
    by_cases hc : Chosen a v i
    · have hset : Arr.set ⟨0, gridRow n v⟩ i true =
          .ok ⟨0, gridRow n (Function.update v i true)⟩ := set_gridRow hi
      have hget : Arr.get ⟨0, gridRow n a⟩ i = .ok (a i) := get_gridRow hi
      have hlen := (free_perm hi hc.1).length_eq
      have hrec := hcall i List.mem_cons_self hc result (list ++ [a i]) (by
        rw [List.length_append, List.length_singleton]
        rw [List.length_cons] at hlen
        omega)
      have hback : Arr.set ⟨0, gridRow n (Function.update v i true)⟩ i false =
          .ok ⟨0, gridRow n v⟩ := by
        rw [set_current hi, ← hc.1, Function.update_eq_self]
      simp only [tryAll, skips_ok hi, decide_eq_true hc, ok_bind, Bool.not_true,
        Bool.false_eq_true, if_false, hset, hget, hrec, hback, List.dropLast_concat, ih]
      simp [hc, Function.comp_def]
    · simp only [tryAll, skips_ok hi, decide_eq_false hc, ok_bind, Bool.not_false, if_true, ih]
      simp [hc]

/-- **One call**: it lists the permutations of what is left. -/
theorem backTrack_ok (ha : Ascending n a) (hv : Prefixes n a v) :
    ∃ out, Enumerates out (List.Perm · (remaining n a v)) ∧
      ∀ fuel, (free n v).length < fuel → Adds n (backTrack (gridRow n a) fuel) v out := by
  induction hk : (free n v).length generalizing v with
  | zero =>
    have hfree := List.eq_nil_of_length_eq_zero hk
    refine ⟨[[]], .singleton fun t => ?_, fun fuel hfuel result list hlist => ?_⟩
    · rw [remaining, hfree, List.map_nil, List.perm_nil]
    · obtain ⟨fuel, rfl⟩ := Nat.exists_eq_succ_of_ne_zero hfuel.ne'
      rw [hk, Nat.add_zero] at hlist
      simp [backTrack, hlist, pure, Except.pure]
  | succ k ih =>
    have hcalls : ∀ i ∈ chosen n a v, ∃ out,
        Enumerates out (List.Perm · ((remaining n a v).erase (a i))) ∧
          ∀ fuel, k < fuel →
            Adds n (backTrack (gridRow n a) fuel) (Function.update v i true) out := by
      intro i hi
      obtain ⟨hin, hc⟩ := mem_chosen.1 hi
      have hlen := (free_perm hin hc.1).length_eq
      rw [List.length_cons] at hlen
      obtain ⟨out, henum, hadds⟩ := ih (hv.update hc) (by omega)
      have herase := (remaining_perm (a := a) hin hc.1).erase (a i)
      rw [List.erase_cons_head] at herase
      exact ⟨out, henum.congr fun t => ⟨fun h => h.trans herase.symm, fun h => h.trans herase⟩,
        hadds⟩
    choose! out hout using hcalls
    have hne : remaining n a v ≠ [] := by
      rw [remaining, ne_eq, List.map_eq_nil_iff, ← List.length_eq_zero_iff, hk]
      exact Nat.succ_ne_zero k
    refine ⟨_, .permutations a hne (nodup_map_chosen hv ha) head_map_chosen
      fun i hi => (hout i hi).1, fun fuel hfuel result list hlist => ?_⟩
    obtain ⟨fuel, rfl⟩ := Nat.exists_eq_succ_of_ne_zero (Nat.ne_zero_of_lt hfuel)
    have hlong : list.length ≠ (gridRow n a).length := by
      rw [length_gridRow]
      omega
    rw [backTrack, if_neg hlong, length_gridRow]
    exact tryAll_ok (fun i hi => List.mem_range.1 hi)
      (fun i hi hc => (hout i (mem_chosen.2 ⟨List.mem_range.1 hi, hc⟩)).2 fuel (by omega))
      result hlist

/-- **`permuteUnique`** lists the permutations of the array, each once, and sorts the array. -/
theorem permuteUnique_ends (h : nums ≠ []) : ∃ out,
    Ends (permuteUnique nums) (out, nums.insertionSort (· ≤ ·)) ∧
      Enumerates out (List.Perm · nums) := by
  obtain ⟨a, heq, ha⟩ := exists_ascending nums
  have hfree : free nums.length (fun _ => false) = List.range nums.length := by simp [free]
  have hlen : (free nums.length fun _ => false).length = nums.length := by
    rw [hfree, List.length_range]
  have hremaining : remaining nums.length a (fun _ => false) = nums.insertionSort (· ≤ ·) := by
    rw [remaining, hfree, heq, gridRow]
  have hstart : Prefixes nums.length a fun _ => false :=
    fun _ _ _ h => absurd h Bool.false_ne_true
  have hempty : nums.isEmpty = false := by rwa [Bool.eq_false_iff, ne_eq, List.isEmpty_iff]
  obtain ⟨out, henum, hadds⟩ := backTrack_ok ha hstart
  rw [hremaining] at henum
  have hperm := List.perm_insertionSort (· ≤ ·) nums
  refine ⟨out, ⟨nums.length + 1, fun fuel hfuel => ?_⟩,
    henum.congr fun t => ⟨fun h => h.trans hperm, fun h => h.trans hperm.symm⟩⟩
  have hrun := hadds fuel (by omega) [] [] (by rw [hlen, List.length_nil, Nat.zero_add])
  simp only [permuteUnique, hempty, Bool.false_eq_true, if_false, heq, length_gridRow,
    replicate_gridRow, hrun, ok_bind]
  simp [pure, Except.pure]

end

end UniquePermute
