import DsAlgor.Exercise.UniquePermute
import DsAlgor.Lib.CInt
import DsAlgor.Lib.Outcome
import DsAlgor.Lib.Signed

/-!
# `permuteWithDups.cpp`

`permuteHelper` tries the different values of the rest of the array in turn, each swapped to the
front of it, and swaps them back. `PermutationHaveSameword` does the same with the characters of a
C string, but its loop goes on to `m`, the place of the terminator: it moves the terminator to
the front as if it were a character (`reaches_terminator`). `m` is an `int`: where the length has
more bits, `m` is the place of a character, and those behind it stay (`lines_keep`), which is right
when all characters are equal (`prints_equal`).
-/

namespace PermuteWithDups

open Checked Enumerate

/-! ## The version with a set -/

/-- The array and the paths. -/
abbrev State := Arr Int × List (List Int)

def swap (num : Arr Int) (start stop : Nat) : Except Fault (Arr Int) := do
  let temp ← num.get start
  let x ← num.get stop
  let num ← num.set start x
  num.set stop temp

/-- The loop over `i`, with the recursive call `rest`. -/
def tryFrom (rest : State → Except Fault State) (index : Nat) :
    List Nat → Finset Int → State → Except Fault State
  | [], _, state => return state
  | i :: is, used, (num, paths) => do
    if (← num.get i) ∈ used then tryFrom rest index is used (num, paths)
    else
      let num ← swap num index i
      let (num, paths) ← rest (num, paths)
      let num ← swap num index i
      let x ← num.get i
      tryFrom rest index is (insert x used) (num, paths)

def permuteHelper : Nat → Nat → State → Except Fault State
  | 0, _, _ => .error .loop
  | fuel + 1, index, (num, paths) =>
    let size := num.elems.length
    if size < index then return (num, paths)
    else
      let paths := if index = size then paths ++ [num.elems] else paths
      tryFrom (permuteHelper fuel (index + 1)) index (List.range' index (size - index)) ∅
        (num, paths)

/-- The paths, and the array afterwards. -/
def permuteUnique (num : List Int) (fuel : Nat) : Except Fault (List (List Int) × List Int) := do
  let (num, paths) ← permuteHelper fuel 0 (⟨0, num⟩, [])
  return (paths, num.elems)

section
variable {A B C heads : List Int} {out : Int → List (List Int)} {x : Int}

/-- The element `x` changes places with the first of `B`, and again. -/
theorem swap_swap (B C : List Int) (x : Int) : ∃ B', B'.Perm B ∧ ∀ A : List Int,
    swap ⟨0, A ++ (B ++ x :: C)⟩ A.length (A.length + B.length) = .ok ⟨0, A ++ x :: (B' ++ C)⟩ ∧
    swap ⟨0, A ++ x :: (B' ++ C)⟩ A.length (A.length + B.length) =
      .ok ⟨0, A ++ (B ++ x :: C)⟩ := by
  have hi : ∀ A : List Int, (A.length : Int) = 0 + A.length := fun A => (Int.zero_add _).symm
  cases B with
  | nil => exact ⟨[], List.Perm.refl _, fun A => ⟨swap_self (hi A), swap_self (hi A)⟩⟩
  | cons y B =>
    have hj : ∀ A : List Int,
        ((A.length + (y :: B).length : Nat) : Int) = 0 + A.length + 1 + B.length := by
      intro A
      rw [List.length_cons]
      push_cast
      omega
    have hjoin : x :: ((B ++ [y]) ++ C) = x :: (B ++ y :: C) := by simp
    refine ⟨B ++ [y], List.perm_append_singleton y B, fun A => ?_⟩
    rw [hjoin]
    exact ⟨swap_at (hi A) (hj A), swap_at (hi A) (hj A)⟩

/-- A call for the rest `l` adds the lists of `out` behind what is in front of it. -/
def Adds (l : List Int) (out : List (List Int)) : Prop :=
  ∀ (A : List Int) (fuel : Nat), l.length < fuel → ∀ paths,
    permuteHelper fuel A.length (⟨0, A ++ l⟩, paths) =
      .ok (⟨0, A ++ l⟩, paths ++ out.map (A ++ ·))

/-- Of the values of `C`, those that are not in `B` are tried once, and `out` has what is listed
behind each of them. -/
structure Tried (B C heads : List Int) (out : Int → List (List Int)) : Prop where
  nodup : heads.Nodup
  mem : ∀ y, y ∈ heads ↔ y ∈ C ∧ y ∉ B
  enumerates : ∀ y ∈ heads, Enumerates (out y) (List.Perm · ((B ++ C).erase y))

section
variable (h : Tried (B ++ [x]) C heads out)
include h

/-- A value that has been tried is passed over. -/
theorem Tried.skip (hx : x ∈ B) : Tried B (x :: C) heads out := by
  refine ⟨h.nodup, fun y => ?_, fun y hy => List.append_cons B x C ▸ h.enumerates y hy⟩
  rw [h.mem, List.mem_append, List.mem_singleton, List.mem_cons, not_or]
  constructor
  · exact fun h => ⟨.inr h.1, h.2.1⟩
  · rintro ⟨rfl | hy, hyB⟩
    · exact absurd hx hyB
    · exact ⟨hy, hyB, fun heq => hyB (heq ▸ hx)⟩

theorem Tried.notMem : x ∉ heads :=
  fun hx => ((h.mem x).1 hx).2 (by simp)

theorem Tried.update_eq (outx : List (List Int)) {y : Int} (hy : y ∈ heads) :
    Function.update out x outx y = out y := by
  have hne : y ≠ x := fun heq => h.notMem (heq ▸ hy)
  exact Function.update_of_ne hne _ _

/-- A new value is tried, and `outx` is listed behind it. -/
theorem Tried.take (hx : x ∉ B) {outx : List (List Int)}
    (houtx : Enumerates outx (List.Perm · ((B ++ x :: C).erase x))) :
    Tried B (x :: C) (x :: heads) (Function.update out x outx) := by
  refine ⟨List.nodup_cons.2 ⟨h.notMem, h.nodup⟩, fun y => ?_, fun y hy => ?_⟩
  · rw [List.mem_cons, h.mem, List.mem_append, List.mem_singleton, List.mem_cons, not_or]
    by_cases hyx : y = x
    · subst hyx
      simp [hx]
    · simp [hyx]
  · cases List.mem_cons.1 hy with
    | inl heq =>
      rw [heq, Function.update_self]
      exact houtx
    | inr hy =>
      rw [h.update_eq outx hy, List.append_cons]
      exact h.enumerates y hy

theorem Tried.flatMap_update (outx : List (List Int)) :
    (heads.flatMap fun y => (Function.update out x outx y).map (y :: ·)) =
      heads.flatMap fun y => (out y).map (y :: ·) :=
  List.flatMap_congr fun y hy => by rw [h.update_eq outx hy]

end

theorem get_value (A B C : List Int) (x : Int) :
    Arr.get ⟨0, A ++ (B ++ x :: C)⟩ (A.length + B.length : Nat) = .ok x := by
  rw [← List.append_assoc]
  refine get_at ?_
  rw [List.length_append, Int.zero_add]

section
variable {rest : State → Except Fault State} {used : Finset Int} {num : Arr Int} {is : List Nat}
  {paths paths' : List (List Int)}

/-- One round, with a value that has been tried. -/
theorem tryFrom_skip (hx : x ∈ used) :
    tryFrom rest A.length ((A.length + B.length) :: is) used (⟨0, A ++ (B ++ x :: C)⟩, paths) =
      tryFrom rest A.length is used (⟨0, A ++ (B ++ x :: C)⟩, paths) := by
  simp only [tryFrom, get_value, ok_bind, if_pos hx]

/-- One round, with a new value. -/
theorem tryFrom_take (hx : x ∉ used)
    (hswap : swap ⟨0, A ++ (B ++ x :: C)⟩ A.length (A.length + B.length) = .ok num)
    (hback : swap num A.length (A.length + B.length) = .ok ⟨0, A ++ (B ++ x :: C)⟩)
    (hrest : rest (num, paths) = .ok (num, paths')) :
    tryFrom rest A.length ((A.length + B.length) :: is) used (⟨0, A ++ (B ++ x :: C)⟩, paths) =
      tryFrom rest A.length is (insert x used) (⟨0, A ++ (B ++ x :: C)⟩, paths') := by
  simp only [tryFrom, get_value, ok_bind, if_neg hx, hswap, hrest, hback]

end

/-- **The loop**: `used` has the values before, and every other value is tried once. -/
theorem tryFrom_ok {n : Nat} {used : Finset Int} (hused : ∀ x, x ∈ used ↔ x ∈ B)
    (hn : B.length + C.length = n + 1)
    (hcall : ∀ l : List Int, l.length = n → ∃ out, Enumerates out (List.Perm · l) ∧ Adds l out) :
    ∃ heads out, Tried B C heads out ∧ ∀ (A : List Int) (fuel : Nat), n < fuel → ∀ paths,
      tryFrom (permuteHelper fuel (A.length + 1)) A.length
          (List.range' (A.length + B.length) C.length) used (⟨0, A ++ (B ++ C)⟩, paths) =
        .ok (⟨0, A ++ (B ++ C)⟩,
          paths ++ (heads.flatMap fun x => (out x).map (x :: ·)).map (A ++ ·)) := by
  induction C generalizing B used with
  | nil =>
    refine ⟨[], fun _ => [], ⟨List.nodup_nil, by simp, nofun⟩, fun A fuel _ paths => ?_⟩
    simp [tryFrom, pure, Except.pure]
  | cons x C ih =>
    have hlen : (B ++ [x]).length = B.length + 1 := by simp
    rw [List.length_cons] at hn
    by_cases hx : x ∈ B
    · have hused' : ∀ y, y ∈ used ↔ y ∈ B ++ [x] := by
        intro y
        rw [hused, List.mem_append, List.mem_singleton]
        exact ⟨.inl, fun h => h.elim id fun h => h ▸ hx⟩
      obtain ⟨heads, out, htried, hrun⟩ := ih hused' (by omega)
      refine ⟨heads, out, htried.skip hx, fun A fuel hfuel paths => ?_⟩
      have hrun := hrun A fuel hfuel paths
      rw [← List.append_cons, hlen, ← Nat.add_assoc] at hrun
      rw [List.length_cons, List.range'_succ, tryFrom_skip ((hused x).2 hx)]
      exact hrun
    · obtain ⟨B', hperm, hswap⟩ := swap_swap B C x
      have hused' : ∀ y, y ∈ insert x used ↔ y ∈ B ++ [x] := by
        intro y
        rw [Finset.mem_insert, hused, List.mem_append, List.mem_singleton, or_comm]
      obtain ⟨heads, out, htried, hrun⟩ := ih hused' (by omega)
      have hlen' : (B' ++ C).length = n := by
        rw [List.length_append, hperm.length_eq]
        omega
      obtain ⟨outx, henum, hadds⟩ := hcall (B' ++ C) hlen'
      have herase : (B' ++ C).Perm ((B ++ x :: C).erase x) := by
        rw [List.erase_append_right _ hx, List.erase_cons_head]
        exact hperm.append_right C
      have houtx : Enumerates outx (List.Perm · ((B ++ x :: C).erase x)) :=
        henum.congr fun t => ⟨fun h => h.trans herase, fun h => h.trans herase.symm⟩
      refine ⟨x :: heads, Function.update out x outx, htried.take hx houtx,
        fun A fuel hfuel paths => ?_⟩
      have hsplit : A ++ x :: (B' ++ C) = (A ++ [x]) ++ (B' ++ C) := List.append_cons A x _
      have hA : (A ++ [x]).length = A.length + 1 := by simp
      have hrec := hadds (A ++ [x]) fuel (hlen' ▸ hfuel) paths
      rw [← hsplit, hA] at hrec
      have hrun := hrun A fuel hfuel (paths ++ outx.map ((A ++ [x]) ++ ·))
      rw [← List.append_cons, hlen, ← Nat.add_assoc] at hrun
      have hxused : x ∉ used := fun h => hx ((hused x).1 h)
      rw [List.length_cons, List.range'_succ, tryFrom_take hxused (hswap A).1 (hswap A).2 hrec,
        hrun, List.flatMap_cons, htried.flatMap_update, Function.update_self]
      simp [Function.comp_def]

/-- **One call**: it lists the permutations of the rest. -/
theorem permuteHelper_ok (l : List Int) : ∃ out, Enumerates out (List.Perm · l) ∧ Adds l out := by
  induction hn : l.length generalizing l with
  | zero =>
    obtain rfl := List.eq_nil_of_length_eq_zero hn
    refine ⟨[[]], .singleton fun t => List.perm_nil, fun A fuel hfuel paths => ?_⟩
    obtain ⟨fuel, rfl⟩ := Nat.exists_eq_succ_of_ne_zero hfuel.ne'
    simp [permuteHelper, tryFrom, pure, Except.pure]
  | succ n ih =>
    have hused : ∀ x, x ∈ (∅ : Finset Int) ↔ x ∈ ([] : List Int) := by simp
    have hlen : ([] : List Int).length + l.length = n + 1 := by simpa using hn
    obtain ⟨heads, out, htried, hrun⟩ := tryFrom_ok hused hlen ih
    have hne : l ≠ [] := List.ne_nil_of_length_eq_add_one hn
    refine ⟨_, .permutations id hne (by simpa using htried.nodup) (by simpa using htried.mem)
      (by simpa using htried.enumerates), fun A fuel hfuel paths => ?_⟩
    obtain ⟨fuel, rfl⟩ := Nat.exists_eq_succ_of_ne_zero (Nat.ne_zero_of_lt hfuel)
    have hrun := hrun A fuel (by omega) paths
    have hlt : ¬ A.length + l.length < A.length := by omega
    have hidx : A.length ≠ A.length + l.length := by omega
    have hsub : A.length + l.length - A.length = l.length := by omega
    simp only [permuteHelper, List.length_append, if_neg hlt, if_neg hidx, hsub]
    simpa using hrun

theorem permuteUnique_ends (num : List Int) : ∃ paths,
    Ends (permuteUnique num) (paths, num) ∧ Enumerates paths (List.Perm · num) := by
  obtain ⟨out, henum, hadds⟩ := permuteHelper_ok num
  refine ⟨out, ⟨num.length + 1, fun fuel hfuel => ?_⟩, henum⟩
  have hrun : permuteHelper fuel 0 (⟨0, num⟩, []) = .ok (⟨0, num⟩, out) := by
    simpa using hadds [] fuel hfuel []
  simp only [permuteUnique, hrun, ok_bind]
  rfl

end

/-! ## The version with a C string -/

open Signed (Undefined access access_ok access_eq_ok add add_ok add_eq_ok intMax)

/-- The character that ends a C string. -/
def nul : Char := Char.ofNat 0

structure CString where
  chars : List Char
  noNul : nul ∉ chars

/-- The array of `pszStr` with the terminator, the positions that were read or written, and the
lines printed. -/
structure Memory where
  psz : Arr Char
  touched : List Int
  printed : List (List Char)

namespace Memory

/-- `pszStr[i]` -/
def load (mem : Memory) (i : Int) : Except Fault (Char × Memory) := do
  let c ← mem.psz.get i
  return (c, { mem with touched := mem.touched ++ [i] })

/-- `swap(pszStr[i], pszStr[j])` -/
def swap (mem : Memory) (i j : Int) : Except Fault Memory := do
  let psz ← mem.psz.swap i j
  return { mem with psz, touched := mem.touched ++ [i, j] }

/-- `printf("%s\n", pszStr)` -/
def print (mem : Memory) : Except Fault Memory :=
  if nul ∈ mem.psz.elems then
    return { mem with printed := mem.printed ++ [mem.psz.elems.takeWhile (· ≠ nul)] }
  else .error .outOfBounds

end Memory

/-- The loop of `IsSwap`, over `i`. -/
def isSwap (nEnd : Nat) : List Nat → Memory → Except Fault (Bool × Memory)
  | [], mem => return (true, mem)
  | i :: is, mem => do
    let (x, mem) ← mem.load i
    let (y, mem) ← mem.load nEnd
    if x = y then return (false, mem)
    isSwap nEnd is mem

/-- The body of the loop over `i`, with the recursive call `rest`. -/
def swapOne (rest : Memory → Except Undefined Memory) (k i : Nat) (mem : Memory) :
    Except Undefined Memory := do
  let (swaps, mem) ← access (isSwap i (List.range' k (i - k)) mem)
  if swaps then
    let mem ← access (mem.swap k i)
    let mem ← rest mem
    access (mem.swap k i)
  else return mem

def swapEach (rest : Memory → Except Undefined Memory) (k : Nat) :
    List Nat → Memory → Except Undefined Memory
  | [], mem => return mem
  | i :: is, mem => do
    let mem ← swapOne rest k i mem
    let _ ← add i 1 -- `i++`
    swapEach rest k is mem

def permutationHaveSameword : Nat → Nat → Int → Memory → Except Undefined Memory
  | 0, _, _, _ => .error (.fault .loop)
  | fuel + 1, k, m, mem =>
    if k = m then access mem.print
    else
      swapEach (permutationHaveSameword fuel (k + 1) m) k (List.range' k (m + 1 - k).toNat) mem

def CString.memory (str : CString) : Memory := ⟨⟨0, str.chars ++ [nul]⟩, [], []⟩

/-- The call of `main`. -/
def printAll (str : CString) (fuel : Nat) : Except Undefined Memory :=
  permutationHaveSameword fuel 0 (int32 str.chars.length) str.memory

/-- The permutations are printed, each once; only the characters are touched, and they are as they
were in the end. -/
def PrintsPermutations (str : CString) : Prop :=
  ∃ mem, Checked.Ends (printAll str) mem ∧ Enumerates mem.printed (List.Perm · str.chars) ∧
    (∀ i ∈ mem.touched, 0 ≤ i ∧ i < str.chars.length) ∧ mem.psz = str.memory.psz

section
variable {mem mem' : Memory} {i j m : Int} {k n fuel : Nat} {c : Char} {b : Bool}

/-- A relation between the memory before and after that a sequence of steps keeps. -/
structure Kept (R : Memory → Memory → Prop) : Prop where
  refl : ∀ mem, R mem mem
  trans : ∀ {mem mem' mem''}, R mem mem' → R mem' mem'' → R mem mem''

theorem load_touched (h : mem.load i = .ok (c, mem')) :
    mem' = { mem with touched := mem.touched ++ [i] } := by
  obtain ⟨x, -, hret⟩ := bind_eq_ok h
  cases hret
  rfl

theorem swap_touched (h : mem.swap i j = .ok mem') : mem'.touched = mem.touched ++ [i, j] := by
  obtain ⟨psz, -, hret⟩ := bind_eq_ok h
  cases hret
  rfl

/-- The test reads `nEnd` when there is something to compare it with, and changes nothing. -/
theorem isSwap_touched {is : List Nat} (h : isSwap n is mem = .ok (b, mem')) :
    mem'.psz = mem.psz ∧ mem'.printed = mem.printed ∧ mem.touched ⊆ mem'.touched ∧
      (is ≠ [] → (n : Int) ∈ mem'.touched) := by
  induction is generalizing mem with
  | nil =>
    cases h
    exact ⟨rfl, rfl, List.Subset.refl _, absurd rfl⟩
  | cons i is ih =>
    obtain ⟨⟨x, mem₁⟩, h₁, h⟩ := bind_eq_ok h
    obtain ⟨⟨y, mem₂⟩, h₂, h⟩ := bind_eq_ok h
    obtain rfl := load_touched h₁
    obtain rfl := load_touched h₂
    by_cases hxy : x = y
    · simp only [if_pos hxy] at h
      cases h
      exact ⟨rfl, rfl, by simp, fun _ => by simp⟩
    · simp only [if_neg hxy] at h
      obtain ⟨hpsz, hprinted, hsub, -⟩ := ih h
      exact ⟨hpsz, hprinted, List.Subset.trans (by simp) hsub, fun _ => hsub (by simp)⟩

variable {rest : Memory → Except Undefined Memory}

/-- **The loop** makes its steps one after the other, and no index is the greatest `int`. -/
theorem swapEach_kept {R : Memory → Memory → Prop} (hR : Kept R) {is : List Nat}
    (hbody : ∀ i ∈ is, ∀ mem mem', swapOne rest k i mem = .ok mem' → R mem mem')
    (h : swapEach rest k is mem = .ok mem') : R mem mem' ∧ (∀ i ∈ is, (i : Int) < intMax) ∧
      ∀ i ∈ is, ∃ mem₁ mem₂, swapOne rest k i mem₁ = .ok mem₂ ∧ R mem₂ mem' := by
  induction is generalizing mem with
  | nil =>
    cases h
    exact ⟨hR.refl _, nofun, nofun⟩
  | cons i is ih =>
    obtain ⟨mem₁, h₁, h⟩ := Outcome.bind_eq_ok h
    obtain ⟨next, hnext, h⟩ := Outcome.bind_eq_ok h
    obtain ⟨hend, hlt, hall⟩ := ih (fun j hj => hbody j (List.mem_cons_of_mem i hj)) h
    refine ⟨hR.trans (hbody i List.mem_cons_self _ _ h₁) hend, ?_, ?_⟩
    · rw [List.forall_mem_cons]
      refine ⟨?_, hlt⟩
      have hle := (add_eq_ok hnext).2
      omega
    · rw [List.forall_mem_cons]
      exact ⟨⟨mem, mem₁, h₁, hend⟩, hall⟩

/-! ### The terminator -/

theorem kept_touched : Kept fun mem mem' => mem.touched ⊆ mem'.touched :=
  ⟨fun _ => List.Subset.refl _, List.Subset.trans⟩

/-- The test of an index behind `k` reads it. -/
theorem swapOne_touched {i : Nat}
    (hrest : ∀ mem mem', rest mem = .ok mem' → mem.touched ⊆ mem'.touched)
    (h : swapOne rest k i mem = .ok mem') :
    mem.touched ⊆ mem'.touched ∧ (k < i → (i : Int) ∈ mem'.touched) := by
  obtain ⟨⟨swaps, mem₁⟩, h₁, h⟩ := Outcome.bind_eq_ok h
  obtain ⟨-, -, hsub, hi⟩ := isSwap_touched (access_eq_ok h₁)
  have hi : k < i → (i : Int) ∈ mem₁.touched := by
    intro hki
    refine hi ?_
    rw [← List.length_pos_iff, List.length_range']
    omega
  have hsub₁ : mem₁.touched ⊆ mem'.touched := by
    cases swaps with
    | true =>
      obtain ⟨mem₂, h₂, h⟩ := Outcome.bind_eq_ok h
      obtain ⟨mem₃, h₃, h⟩ := Outcome.bind_eq_ok h
      have hsub₂ : mem₁.touched ⊆ mem₂.touched := by simp [swap_touched (access_eq_ok h₂)]
      have hsub₃ : mem₃.touched ⊆ mem'.touched := by simp [swap_touched (access_eq_ok h)]
      exact List.Subset.trans (List.Subset.trans hsub₂ (hrest _ _ h₃)) hsub₃
    | false =>
      cases h
      exact List.Subset.refl _
  exact ⟨List.Subset.trans hsub hsub₁, fun hki => hsub₁ (hi hki)⟩

theorem permutationHaveSameword_touched (fuel k : Nat) (m : Int) {mem mem' : Memory}
    (h : permutationHaveSameword fuel k m mem = .ok mem') : mem.touched ⊆ mem'.touched := by
  induction fuel generalizing k mem mem' with
  | zero => cases h
  | succ fuel ih =>
    rw [permutationHaveSameword] at h
    split at h
    · have h := access_eq_ok h
      rw [Memory.print] at h
      split at h
      · cases h
        exact List.Subset.refl _
      · cases h
    · exact (swapEach_kept kept_touched
        (fun i _ _ _ h => (swapOne_touched (fun _ _ => ih (k + 1)) h).1) h).1

/-- **The last index**: a call for at least one character reads it, and it is not the greatest
`int`. -/
theorem reaches_last {last : Nat} (hk : k < last)
    (h : permutationHaveSameword fuel k last mem = .ok mem') :
    (last : Int) ∈ mem'.touched ∧ (last : Int) < intMax := by
  cases fuel with
  | zero => cases h
  | succ fuel =>
    have hrest : ∀ mem mem', permutationHaveSameword fuel (k + 1) last mem = .ok mem' →
        mem.touched ⊆ mem'.touched := fun _ _ => permutationHaveSameword_touched fuel (k + 1) last
    rw [permutationHaveSameword, if_neg (by omega)] at h
    obtain ⟨-, hlt, hall⟩ :=
      swapEach_kept kept_touched (fun i _ _ _ h => (swapOne_touched hrest h).1) h
    have hmem : last ∈ List.range' k ((last : Int) + 1 - k).toNat := by
      rw [List.mem_range'_1]
      omega
    obtain ⟨mem₁, mem₂, hone, hsub⟩ := hall last hmem
    exact ⟨hsub ((swapOne_touched hrest hone).2 hk), hlt last hmem⟩

/-! ### The characters behind the last index -/

/-- The array ends with `T`, and the lines that are printed end with its characters. -/
def Ended (T : List Char) (p : Nat) (mem : Memory) : Prop :=
  (∃ P, mem.psz = ⟨0, P ++ (T ++ [nul])⟩ ∧ P.length = p ∧ nul ∉ P) ∧
    ∀ line ∈ mem.printed, T <:+ line

theorem kept_ended (T : List Char) (p : Nat) :
    Kept fun mem mem' => Ended T p mem → Ended T p mem' :=
  ⟨fun _ => id, fun h h' hmem => h' (h hmem)⟩

theorem ended_swap {T : List Char} {p i j : Nat} (hi : i < p) (hj : j < p)
    (h : mem.swap i j = .ok mem') (hmem : Ended T p mem) : Ended T p mem' := by
  obtain ⟨⟨P, hpsz, hlen, hnul⟩, hprinted⟩ := hmem
  obtain ⟨psz, hswap, hret⟩ := bind_eq_ok h
  cases hret
  refine ⟨?_, hprinted⟩
  have hget : ∀ {l : Nat}, l < p → ∃ x ∈ P, ∀ Q : List Char,
      Arr.get ⟨0, P ++ Q⟩ l = .ok x := by
    intro l hl
    refine ⟨P[l], List.getElem_mem _, fun Q => get_nat ?_⟩
    rw [List.getElem?_append_left (hlen ▸ hl), List.getElem?_eq_getElem (hlen ▸ hl)]
  obtain ⟨x, hx, hgx⟩ := hget hi
  obtain ⟨y, hy, hgy⟩ := hget hj
  have hset : ∀ (P : List Char) (l : Nat) (z : Char), l < P.length →
      Arr.set ⟨0, P ++ (T ++ [nul])⟩ l z = .ok ⟨0, P.set l z ++ (T ++ [nul])⟩ := by
    intro P l z hl
    rw [set_nat (by rw [List.length_append]; omega), List.set_append_left _ _ hl]
  unfold Arr.swap at hswap
  rw [hpsz, hgx, hgy, Checked.ok_bind, Checked.ok_bind, hset P i y (by omega), Checked.ok_bind,
    hset _ j x (by rw [List.length_set]; omega)] at hswap
  cases hswap
  refine ⟨(P.set i y).set j x, rfl, by rw [List.length_set, List.length_set, hlen], fun hmem => ?_⟩
  rcases List.mem_or_eq_of_mem_set hmem with hmem | rfl
  · rcases List.mem_or_eq_of_mem_set hmem with hmem | rfl
    · exact hnul hmem
    · exact hnul hy
  · exact hnul hx

theorem ended_print {T : List Char} {p : Nat} (hT : nul ∉ T) (h : mem.print = .ok mem')
    (hmem : Ended T p mem) : Ended T p mem' := by
  obtain ⟨⟨P, hpsz, hlen, hnul⟩, hprinted⟩ := hmem
  rw [Memory.print] at h
  split at h
  · cases h
    refine ⟨⟨P, hpsz, hlen, hnul⟩, fun line hline => ?_⟩
    rcases List.mem_append.1 hline with hline | hline
    · exact hprinted line hline
    · rw [List.mem_singleton.1 hline, hpsz]
      have hne : ∀ c ∈ P ++ T, decide (c ≠ nul) = true := by
        intro c hc
        refine decide_eq_true fun heq => ?_
        rcases List.mem_append.1 (heq ▸ hc) with hc | hc
        · exact hnul hc
        · exact hT hc
      show T <:+ (P ++ (T ++ [nul])).takeWhile (· ≠ nul)
      rw [← List.append_assoc, List.takeWhile_append_of_pos hne,
        List.takeWhile_cons_of_neg (by simp), List.append_nil]
      exact List.suffix_append P T
  · cases h

/-- **The rest stays**: what is behind the last index ends every line. -/
theorem lines_keep {T : List Char} (hT : nul ∉ T) {last : Nat} (hk : k ≤ last)
    (h : permutationHaveSameword fuel k last mem = .ok mem') (hmem : Ended T (last + 1) mem) :
    Ended T (last + 1) mem' := by
  induction fuel generalizing k mem mem' with
  | zero => cases h
  | succ fuel ih =>
    rw [permutationHaveSameword] at h
    split at h
    · exact ended_print hT (access_eq_ok h) hmem
    · refine (swapEach_kept (kept_ended T (last + 1)) (fun i hi mem mem' hone hmem => ?_) h).1 hmem
      obtain ⟨hki, hilt⟩ := List.mem_range'_1.1 hi
      obtain ⟨⟨swaps, mem₁⟩, h₁, hone⟩ := Outcome.bind_eq_ok hone
      obtain ⟨hpsz, hprinted, -, -⟩ := isSwap_touched (access_eq_ok h₁)
      have hmem₁ : Ended T (last + 1) mem₁ := by
        unfold Ended at hmem ⊢
        rw [hpsz, hprinted]
        exact hmem
      cases swaps with
      | true =>
        obtain ⟨mem₂, h₂, hone⟩ := Outcome.bind_eq_ok hone
        obtain ⟨mem₃, h₃, hone⟩ := Outcome.bind_eq_ok hone
        have hmem₂ := ended_swap (by omega) (by omega) (access_eq_ok h₂) hmem₁
        exact ended_swap (by omega) (by omega) (access_eq_ok hone) (ih (by omega) h₃ hmem₂)
      | false =>
        cases hone
        exact hmem₁

/-! ### Equal characters -/

section
variable {c : Char} {L : Nat}

/-- The array of `L` times `c`, and what a call with fuel `n` adds to the rest of the memory. -/
def Prints (c : Char) (L last n : Nat) (lines : List (List Char))
    (call : Nat → Memory → Except Undefined Memory) : Prop :=
  ∃ ts : List Int, (∀ i ∈ ts, 0 ≤ i ∧ i ≤ last) ∧ ∀ fuel ≥ n, ∀ touched printed,
    call fuel ⟨⟨0, List.replicate L c ++ [nul]⟩, touched, printed⟩ =
      .ok ⟨⟨0, List.replicate L c ++ [nul]⟩, touched ++ ts, printed ++ lines⟩

theorem get_replicate {l : Nat} (hl : l < L) :
    Arr.get ⟨0, List.replicate L c ++ [nul]⟩ l = .ok c := by
  refine get_nat ?_
  rw [List.getElem?_append_left (by rwa [List.length_replicate]),
    List.getElem?_replicate_of_lt hl]

theorem swap_replicate {l : Nat} (hl : l < L) :
    Arr.swap ⟨0, List.replicate L c ++ [nul]⟩ l l = .ok ⟨0, List.replicate L c ++ [nul]⟩ := by
  have hset : Arr.set ⟨0, List.replicate L c ++ [nul]⟩ l c =
      .ok ⟨0, List.replicate L c ++ [nul]⟩ := by
    rw [set_nat (by rw [List.length_append, List.length_replicate]; omega),
      List.set_append_left _ _ (by rwa [List.length_replicate]), List.set_replicate_self]
  unfold Arr.swap
  rw [get_replicate hl, Checked.ok_bind, Checked.ok_bind, hset, Checked.ok_bind, hset]

variable {rest : Nat → Memory → Except Undefined Memory}

/-- An index behind `k` holds the character of `k`. -/
theorem swapOne_other {last i : Nat} (hki : k < i) (hi : i ≤ last) (hL : last < L) :
    Prints c L last n [] fun fuel => swapOne (rest fuel) k i := by
  refine ⟨[(k : Int), i], ?_, fun fuel _ touched printed => ?_⟩
  · rw [List.forall_mem_cons, List.forall_mem_singleton]
    omega
  · have hrange : List.range' k (i - k) = k :: List.range' (k + 1) (i - k - 1) := by
      rw [← List.range'_succ, show i - k - 1 + 1 = i - k by omega]
    have htest : isSwap i (k :: List.range' (k + 1) (i - k - 1))
        ⟨⟨0, List.replicate L c ++ [nul]⟩, touched, printed⟩ =
        .ok (false, ⟨⟨0, List.replicate L c ++ [nul]⟩, touched ++ [(k : Int)] ++ [(i : Int)],
          printed⟩) := by
      simp only [isSwap, Memory.load, get_replicate (show k < L by omega),
        get_replicate (show i < L by omega), Checked.ok_bind, pure, Except.pure, if_true]
    show swapOne (rest fuel) k i _ = _
    unfold swapOne
    rw [hrange, htest, access_ok, Signed.ok_bind, List.append_nil, List.append_assoc]
    rfl

/-- At `k` the call for the rest is made. -/
theorem swapOne_first {last : Nat} {lines : List (List Char)} (hk : k ≤ last) (hL : last < L)
    (hrest : Prints c L last n lines rest) :
    Prints c L last n lines fun fuel => swapOne (rest fuel) k k := by
  obtain ⟨ts, hts, hrest⟩ := hrest
  refine ⟨[(k : Int), k] ++ ts ++ [(k : Int), k], ?_, fun fuel hfuel touched printed => ?_⟩
  · simp only [List.forall_mem_append, List.forall_mem_cons, List.not_mem_nil, false_imp_iff,
      implies_true, and_true]
    exact ⟨⟨by omega, hts⟩, by omega⟩
  · have htest : isSwap k (List.range' k (k - k))
        ⟨⟨0, List.replicate L c ++ [nul]⟩, touched, printed⟩ =
        .ok (true, ⟨⟨0, List.replicate L c ++ [nul]⟩, touched, printed⟩) := by
      rw [Nat.sub_self]
      rfl
    have hswap : ∀ touched printed,
        Memory.swap ⟨⟨0, List.replicate L c ++ [nul]⟩, touched, printed⟩ k k =
          .ok ⟨⟨0, List.replicate L c ++ [nul]⟩, touched ++ [(k : Int), k], printed⟩ := by
      intro touched printed
      unfold Memory.swap
      rw [swap_replicate (by omega), Checked.ok_bind]
      rfl
    show swapOne (rest fuel) k k _ = _
    unfold swapOne
    rw [htest, access_ok, Signed.ok_bind]
    simp only [if_true, hswap, access_ok, Signed.ok_bind, hrest fuel hfuel,
      List.append_assoc]

theorem swapEach_others {last : Nat} (hL : last < L) (hmax : (last : Int) < intMax)
    (is : List Nat) (his : ∀ i ∈ is, k < i ∧ i ≤ last) :
    Prints c L last n [] fun fuel => swapEach (rest fuel) k is := by
  induction is with
  | nil =>
    refine ⟨[], nofun, fun _ _ _ _ => ?_⟩
    rw [List.append_nil, List.append_nil]
    rfl
  | cons i is ih =>
    obtain ⟨hki, hi⟩ := his i List.mem_cons_self
    obtain ⟨ts, hts, hone⟩ := @swapOne_other k n c L rest last i hki hi hL
    obtain ⟨ts', hts', hall⟩ := ih fun j hj => his j (List.mem_cons_of_mem i hj)
    refine ⟨ts ++ ts', by rw [List.forall_mem_append]; exact ⟨hts, hts'⟩,
      fun fuel hfuel touched printed => ?_⟩
    have hone := hone fuel hfuel touched printed
    have hall := hall fuel hfuel (touched ++ ts) (printed ++ [])
    dsimp only at hone hall ⊢
    unfold swapEach
    rw [hone, Signed.ok_bind, add_ok (by omega) (by omega) (by omega), Signed.ok_bind, hall]
    simp only [List.append_assoc, List.append_nil]

/-- **Equal characters** are printed once, whatever `m` is. -/
theorem prints_equal (hc : c ≠ nul) {last : Nat} (hL : last < L) (hmax : (last : Int) < intMax)
    (hk : k ≤ last) : Prints c L last (last - k + 1) [List.replicate L c]
      fun fuel => permutationHaveSameword fuel k last := by
  induction hd : last - k generalizing k with
  | zero =>
    obtain rfl : k = last := by omega
    refine ⟨[], nofun, fun fuel hfuel touched printed => ?_⟩
    obtain ⟨fuel, rfl⟩ := Nat.exists_eq_succ_of_ne_zero (Nat.ne_zero_of_lt hfuel)
    have htake : (List.replicate L c ++ [nul]).takeWhile (· ≠ nul) = List.replicate L c := by
      rw [List.takeWhile_append_of_pos, List.takeWhile_cons_of_neg (by simp), List.append_nil]
      intro x hx
      rw [List.eq_of_mem_replicate hx]
      exact decide_eq_true hc
    show permutationHaveSameword (fuel + 1) k k _ = _
    rw [permutationHaveSameword, if_pos rfl, Memory.print, if_pos (by simp), htake,
      List.append_nil]
    rfl
  | succ d ih =>
    have hrange : List.range' k ((last : Int) + 1 - k).toNat =
        k :: List.range' (k + 1) (d + 1) := by
      rw [← List.range'_succ]
      congr 1
      omega
    obtain ⟨ts, hts, hfirst⟩ := swapOne_first hk hL (ih (k := k + 1) (by omega) (by omega))
    have hothers : Prints c L last (d + 1) []
        fun fuel => swapEach (permutationHaveSameword fuel (k + 1) last) k
          (List.range' (k + 1) (d + 1)) := by
      refine swapEach_others hL hmax _ fun i hi => ?_
      rw [List.mem_range'_1] at hi
      omega
    obtain ⟨ts', hts', hothers⟩ := hothers
    refine ⟨ts ++ ts', by rw [List.forall_mem_append]; exact ⟨hts, hts'⟩,
      fun fuel hfuel touched printed => ?_⟩
    obtain ⟨fuel, rfl⟩ := Nat.exists_eq_succ_of_ne_zero (Nat.ne_zero_of_lt hfuel)
    have hfirst := hfirst fuel (by omega) touched printed
    have hothers := hothers fuel (by omega) (touched ++ ts) (printed ++ [List.replicate L c])
    dsimp only at hfirst hothers
    show permutationHaveSameword (fuel + 1) k last _ = _
    rw [permutationHaveSameword, if_neg (by omega), hrange]
    unfold swapEach
    rw [hfirst, Signed.ok_bind, add_ok (by omega) (by omega) (by omega), Signed.ok_bind, hothers,
      List.append_assoc, List.append_nil]

end

/-! ### The condition -/

/-- `int m` has the low bits of the length. -/
theorem int32_length (L : Nat) : (int32 L < 0 ∧ 2 ^ 31 ≤ L) ∨
    ∃ last : Nat, int32 L = last ∧ last < 2 ^ 31 ∧ (last = L ∨ 2 ^ 32 ≤ L ∧ L % 2 ^ 32 = last) := by
  have hlo := le_int32 L
  have hhi := int32_lt L
  obtain ⟨q, hq⟩ : (2 ^ 32 : Int) ∣ int32 L - L := Int.dvd_bmod_sub_self
  by_cases hneg : int32 L < 0
  · exact .inl ⟨hneg, by omega⟩
  · exact .inr ⟨(int32 L).toNat, by omega, by omega, by omega⟩

theorem CString.ended (str : CString) {p : Nat} (hp : p ≤ str.chars.length) :
    Ended (str.chars.drop p) p str.memory := by
  refine ⟨⟨str.chars.take p, ?_, by rw [List.length_take]; omega,
    fun hmem => str.noNul (List.mem_of_mem_take hmem)⟩, nofun⟩
  rw [← List.append_assoc, List.take_append_drop]
  rfl

/-- Lists that all end with the same element. -/
theorem eq_replicate_of_last {l : List Char} {a : Char}
    (h : ∀ t : List Char, t.Perm l → [a] <:+ t) : l = List.replicate l.length a := by
  refine List.eq_replicate_iff.2 ⟨rfl, fun x hx => ?_⟩
  have hsuffix := h (l.erase x ++ [x]) (List.perm_append_singleton x _ |>.trans
    (List.perm_cons_erase hx).symm)
  obtain ⟨t, ht⟩ := hsuffix
  exact (List.cons.inj (List.append_inj_right' ht rfl)).1.symm

/-- **The condition**: the string is empty, or its characters are equal and so many that `m` is the
index of one of them, but not the greatest `int`. -/
theorem printsPermutations_iff (str : CString) : PrintsPermutations str ↔ str.chars = [] ∨
    2 ^ 32 ≤ str.chars.length ∧ str.chars.length % 2 ^ 32 < 2 ^ 31 - 1 ∧
      ∃ c, str.chars = List.replicate str.chars.length c := by
  constructor
  · rintro ⟨mem, hends, henum, htouched, -⟩
    by_contra hnot
    rw [not_or] at hnot
    obtain ⟨fuel, hfuel, hrun⟩ := hends.from 1
    obtain ⟨fuel, rfl⟩ := Nat.exists_eq_succ_of_ne_zero (Nat.ne_zero_of_lt hfuel)
    have hself : str.chars ∈ mem.printed := (henum.mem _).2 (List.Perm.refl _)
    unfold printAll at hrun
    rcases int32_length str.chars.length with ⟨hneg, -⟩ | ⟨last, hm, hlt, hlast⟩
    · -- a negative `m`: no round
      have hrange : (int32 str.chars.length + 1 - (0 : Nat)).toNat = 0 := by omega
      rw [permutationHaveSameword, if_neg (by omega), hrange] at hrun
      cases hrun
      cases hself
    · rw [hm] at hrun
      rcases hlast with rfl | ⟨hL, hmod⟩
      · have hpos := List.length_pos_iff.2 hnot.1
        exact lt_irrefl _ (htouched _ (reaches_last hpos hrun).1).2
      · have hmax : last < 2 ^ 31 - 1 := by
          cases last with
          | zero => omega
          | succ last =>
            have hlt := (reaches_last (Nat.succ_pos last) hrun).2
            unfold intMax at hlt
            omega
        -- every line ends with the characters behind `m`
        have hnul : nul ∉ str.chars.drop (last + 1) :=
          fun hmem => str.noNul (List.mem_of_mem_drop hmem)
        obtain ⟨-, hlines⟩ :=
          lines_keep hnul (Nat.zero_le last) hrun (str.ended (p := last + 1) (by omega))
        have hne : str.chars.drop (last + 1) ≠ [] := by
          rw [ne_eq, List.drop_eq_nil_iff]
          omega
        obtain ⟨T, a, hT⟩ := (List.eq_nil_or_concat _).resolve_left hne
        refine hnot.2 ⟨hL, hmod ▸ hmax, a, eq_replicate_of_last fun t ht => ?_⟩
        have hline := hlines t ((henum.mem t).2 ht)
        rw [hT, List.concat_eq_append] at hline
        exact (List.suffix_append T [a]).trans hline
  · rintro (hnil | ⟨hL, hmod, c, hc⟩)
    · have hmem : str.memory = ⟨⟨0, [nul]⟩, [], []⟩ := by
        rw [CString.memory, hnil, List.nil_append]
      refine ⟨⟨⟨0, [nul]⟩, [], [[]]⟩, ⟨1, fun fuel hfuel => ?_⟩, ?_, nofun, ?_⟩
      · obtain ⟨fuel, rfl⟩ := Nat.exists_eq_succ_of_ne_zero (Nat.ne_zero_of_lt hfuel)
        rw [printAll, hnil, hmem]
        rfl
      · rw [hnil]
        exact .singleton fun t => List.perm_nil
      · rw [hmem]
    · have hm : int32 str.chars.length = (str.chars.length % 2 ^ 32 : Nat) := by
        have hlo := le_int32 str.chars.length
        rcases int32_length str.chars.length with ⟨hneg, -⟩ | ⟨last, hm, hlt, hlast⟩
        · obtain ⟨q, hq⟩ : (2 ^ 32 : Int) ∣ int32 str.chars.length - str.chars.length :=
            Int.dvd_bmod_sub_self
          omega
        · rw [hm]
          omega
      have hcnul : c ≠ nul := by
        rintro rfl
        refine str.noNul ?_
        rw [hc]
        exact List.mem_replicate.2 ⟨by omega, rfl⟩
      obtain ⟨ts, hts, hrun⟩ := @prints_equal 0 c str.chars.length hcnul
        (str.chars.length % 2 ^ 32) (by omega) (by unfold intMax; omega) (Nat.zero_le _)
      rw [← hc] at hrun
      refine ⟨⟨⟨0, str.chars ++ [nul]⟩, ts, [str.chars]⟩,
        ⟨str.chars.length % 2 ^ 32 + 1, fun fuel hfuel => ?_⟩, ?_, fun i hi => ?_, rfl⟩
      · unfold printAll
        rw [hm]
        exact hrun fuel hfuel [] []
      · refine Enumerates.singleton fun t => ?_
        rw [hc, List.perm_replicate]
      · have hle := hts i hi
        omega

/-- With one character the empty line is printed too. -/
example : ((printAll ⟨['a'], by decide⟩ 3).toOption.map (·.printed)) = some [['a'], []] := by
  decide

theorem not_printsPermutations_abb :
    ¬ PrintsPermutations ⟨['a', 'b', 'b'], by decide⟩ := by
  rintro ⟨mem, hends, -, htouched, -⟩
  obtain ⟨fuel, -, hrun⟩ := hends.from 0
  have hlast := @reaches_last _ _ 0 fuel 3 (by decide) hrun
  exact absurd (htouched _ hlast.1).2 (by decide)

end

end PermuteWithDups
