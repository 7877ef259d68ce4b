import DsAlgor.Lib.Checked
import DsAlgor.Lib.Enumerate
import Mathlib.Data.List.Palindrome

/-!
# `all_palindrome_partition.cpp`

`find` extends the pieces `r` by the palindromes that begin at `st`, and leaves `r` as it was; what
it adds to the result are the ways to cut the rest of the string (`find_ok`).
-/

namespace PalindromePartition

open Checked Enumerate

section
variable (s : List Char)

def isValid (str : List Char) (st ed : Int) : Except Fault Bool :=
  if st < ed then do
    if (← Arr.get ⟨0, str⟩ ed) != (← Arr.get ⟨0, str⟩ st) then return false
    isValid str (st + 1) (ed - 1)
  else return true
termination_by (ed - st).toNat
decreasing_by omega

/-- `s.substr(pos, len)` -/
def substr (pos len : Nat) : List Char := (s.drop pos).take len

/-- The pieces so far, and the result. -/
abbrev State := List (List Char) × List (List (List Char))

/-- The loop over `i`, with the recursive call `rest`. -/
def tryEnds (rest : Nat → State → Except Fault State) (st : Nat) :
    List Nat → State → Except Fault State
  | [], state => return state
  | i :: is, (r, res) => do
    if ← isValid s st i then
      let (r, res) ← rest (i + 1) (r ++ [substr s st (i - st + 1)], res)
      tryEnds rest st is (r.dropLast, res)
    else tryEnds rest st is (r, res)

def find : Nat → Nat → State → Except Fault State
  | 0, _, _ => .error .loop
  | fuel + 1, st, (r, res) =>
    if s.length ≤ st then return (r, res ++ [r])
    else tryEnds s (find fuel) st (List.range' st (s.length - st)) (r, res)

def partition (fuel : Nat) : Except Fault (List (List (List Char))) := do
  let (_, res) ← find s fuel 0 ([], [])
  return res

end

/-! ## The check -/

section
variable {α : Type} {w : List α} {a b : α}

theorem palindrome_ends : (a :: (w ++ [b])).Palindrome ↔ b = a ∧ w.Palindrome := by
  rw [List.Palindrome.iff_reverse_eq, List.Palindrome.iff_reverse_eq]
  constructor
  · intro h
    rw [List.reverse_cons, List.reverse_append, List.reverse_singleton, List.append_assoc,
      List.singleton_append, List.cons.injEq] at h
    exact ⟨h.1, (List.append_inj' h.2 rfl).1⟩
  · rintro ⟨rfl, hw⟩
    simp [hw]

end

/-- `isValid` on the part `w` of a string. -/
theorem isValid_part (A w B : List Char) {ed : Int} (hed : ed + 1 = A.length + w.length) :
    isValid (A ++ w ++ B) A.length ed = .ok (decide w.Palindrome) := by
  induction w using List.bidirectionalRec generalizing A B ed with
  | nil =>
    have hle : ¬ (A.length : Int) < ed := by
      rw [List.length_nil] at hed
      omega
    rw [isValid, if_neg hle, decide_eq_true List.Palindrome.nil]
    rfl
  | singleton a =>
    have hle : ¬ (A.length : Int) < ed := by
      rw [List.length_singleton] at hed
      omega
    rw [isValid, if_neg hle, decide_eq_true (List.Palindrome.singleton a)]
    rfl
  | cons_append a w b ih =>
    have hlen : (a :: (w ++ [b])).length = w.length + 2 := by simp
    rw [hlen] at hed
    push_cast at hed
    have hlt : (A.length : Int) < ed := by omega
    have hst : Arr.get ⟨0, A ++ (a :: (w ++ [b])) ++ B⟩ A.length = .ok a := by
      rw [List.append_assoc, List.cons_append]
      exact get_at (Int.zero_add _).symm
    have hend : Arr.get ⟨0, A ++ (a :: (w ++ [b])) ++ B⟩ ed = .ok b := by
      have hsplit : A ++ (a :: (w ++ [b])) ++ B = (A ++ a :: w) ++ b :: B := by simp
      rw [hsplit]
      refine get_at ?_
      rw [List.length_append, List.length_cons]
      push_cast
      omega
    have hinner : isValid (A ++ (a :: (w ++ [b])) ++ B) (A.length + 1) (ed - 1) =
        .ok (decide w.Palindrome) := by
      have hsplit : A ++ (a :: (w ++ [b])) ++ B = (A ++ [a]) ++ w ++ (b :: B) := by simp
      have hlen' : ((A ++ [a]).length : Int) = A.length + 1 := by simp
      rw [hsplit, ← hlen']
      exact ih (A ++ [a]) (b :: B) (by omega)
    rw [isValid, if_pos hlt, hst, hend]
    simp only [ok_bind]
    by_cases hab : b = a
    · simp only [hab, bne_self_eq_false, Bool.false_eq_true, if_false, palindrome_ends, true_and]
      exact hab ▸ hinner
    · have hno : ¬ (a :: (w ++ [b])).Palindrome := fun h => hab (palindrome_ends.1 h).1
      rw [decide_eq_false hno, if_pos (bne_iff_ne.2 hab)]
      rfl

section
variable {s : List Char} {st : Nat}

theorem isValid_substr {n : Nat} (h : st + n < s.length) :
    isValid s st (st + n : Nat) = .ok (decide (substr s st (n + 1)).Palindrome) := by
  have hlen : (s.take st).length = st := List.length_take_of_le (by omega)
  have hsub : (substr s st (n + 1)).length = n + 1 := by
    rw [substr, List.length_take, List.length_drop]
    omega
  have hsplit : s = s.take st ++ substr s st (n + 1) ++ s.drop (st + (n + 1)) := by
    rw [substr, ← List.take_add, List.take_append_drop]
  have hend : ((st + n : Nat) : Int) + 1 =
      (s.take st).length + (substr s st (n + 1)).length := by
    rw [hlen, hsub]
    push_cast
    omega
  have hpart := isValid_part (s.take st) (substr s st (n + 1)) (s.drop (st + (n + 1))) hend
  rwa [← hsplit, hlen] at hpart

/-! ## The recursion -/

/-- The ways to cut the rest of the string. -/
def rests (s : List Char) (st : Nat) : List (List (List Char)) := cuts List.Palindrome (s.drop st)

/-- A call leaves the pieces as they were, and adds the ways to go on. -/
def Adds (s : List Char) (rest : Nat → State → Except Fault State) (st : Nat) : Prop :=
  ∀ r res, rest st (r, res) = .ok (r, res ++ (rests s st).map (r ++ ·))

/-- The loop goes through the lengths `n + 1` for `n` in `ns`. -/
theorem tryEnds_ok {rest : Nat → State → Except Fault State} {ns : List Nat}
    (hns : ∀ n ∈ ns, st + n < s.length) (hrest : ∀ n ∈ ns, Adds s rest (st + n + 1))
    (r : List (List Char)) (res : List (List (List Char))) :
    tryEnds s rest st (ns.map (st + ·)) (r, res) = .ok (r, res ++
      (((ns.map (· + 1)).filter fun n => (substr s st n).Palindrome).flatMap fun n =>
        (rests s (st + n)).map (substr s st n :: ·)).map (r ++ ·)) := by
  induction ns generalizing res with
  | nil => simp [tryEnds, pure, Except.pure]
  | cons n ns ih =>
    have ih := ih (fun m hm => hns m (List.mem_cons_of_mem n hm))
      fun m hm => hrest m (List.mem_cons_of_mem n hm)
    have hsub : st + n - st + 1 = n + 1 := by omega
    simp only [List.map_cons, tryEnds, isValid_substr (hns n List.mem_cons_self), ok_bind, hsub]
    by_cases hn : (substr s st (n + 1)).Palindrome
    · simp only [decide_eq_true hn, if_true, hrest n List.mem_cons_self _ _, ok_bind,
        List.dropLast_concat, ih]
      simp [hn, Function.comp_def, Nat.add_assoc]
    · simp only [decide_eq_false hn, Bool.false_eq_true, if_false, ih]
      simp [hn]

theorem find_ok (s : List Char) {st fuel : Nat} (hfuel : s.length - st < fuel) :
    Adds s (find s fuel) st := by
  induction fuel generalizing st with
  | zero => omega
  | succ fuel ih =>
    intro r res
    rw [find]
    by_cases hst : s.length ≤ st
    · have hrest : rests s st = [[]] := by rw [rests, List.drop_of_length_le hst, cuts_nil]
      rw [if_pos hst, hrest]
      simp [pure, Except.pure]
    · have hne : s.drop st ≠ [] := by rwa [ne_eq, List.drop_eq_nil_iff]
      have hcuts : rests s st = ((List.range' 1 (s.length - st)).filter fun n =>
          (substr s st n).Palindrome).flatMap fun n =>
            (rests s (st + n)).map (substr s st n :: ·) := by
        simp only [rests, cuts_eq _ hne, cutLens, List.length_drop, List.drop_drop, substr]
        rfl
      have hends : List.range' st (s.length - st) = (List.range (s.length - st)).map (st + ·) :=
        List.range'_eq_map_range
      have hlens : List.range' 1 (s.length - st) = (List.range (s.length - st)).map (· + 1) := by
        rw [List.range'_eq_map_range]
        simp only [Nat.add_comm]
      rw [if_neg hst, hcuts, hends, hlens]
      refine tryEnds_ok (fun n hn => ?_) (fun n hn => ih ?_) r res
      · rw [List.mem_range] at hn
        omega
      · omega

/-- **`partition`** lists the ways to cut the string into palindromes. -/
theorem partition_ends (s : List Char) : Ends (partition s) (cuts List.Palindrome s) := by
  refine ⟨s.length + 1, fun fuel hfuel => ?_⟩
  have hpos : s.length - 0 < fuel := hfuel
  have hfind := find_ok s hpos [] []
  simp only [partition, hfind, ok_bind, rests, List.drop_zero, List.nil_append, List.map_id']
  rfl

end

end PalindromePartition
