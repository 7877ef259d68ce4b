import Mathlib.Data.BitVec
import Mathlib.Tactic

/-!
# Bits in an array of bytes

Bit `i` is bit `i % 8` of byte `i / 8`. A set of bits is made by setting one position after the
other; bits that are set stay set.
-/

namespace BitArray

abbrev Byte := BitVec 8

def set (a : List Byte) (i : Nat) : List Byte := a.modify (i / 8) fun b => b ||| 1#8 <<< (i % 8)

def get (a : List Byte) (i : Nat) : Bool := a.getD (i / 8) 0 &&& 1#8 <<< (i % 8) ≠ 0

def setAll (a : List Byte) (is : List Nat) : List Byte := is.foldl set a

variable {a : List Byte} {i j : Nat} {is js : List Nat}

theorem mask_ne_zero (b : Byte) {k : Nat} (hk : k < 8) :
    b &&& 1#8 <<< k ≠ 0 ↔ b.getLsbD k = true := by
  rw [← BitVec.twoPow_eq, BitVec.and_twoPow]
  split_ifs with h
  · refine ⟨fun _ => h, fun _ hzero => ?_⟩
    have hbit := congrArg (fun x => BitVec.getLsbD x k) hzero
    simp [hk] at hbit
  · exact ⟨fun hno => absurd rfl hno, fun hyes => absurd hyes h⟩

theorem get_iff : get a i = true ↔ (a.getD (i / 8) 0).getLsbD (i % 8) = true := by
  rw [get, decide_eq_true_iff]
  exact mask_ne_zero _ (Nat.mod_lt i (by norm_num))

@[simp] theorem length_set : (set a i).length = a.length := List.length_modify _ _ _

theorem getD_set (k : Nat) :
    (set a i).getD k 0 = if k = i / 8 ∧ k < a.length then a.getD k 0 ||| 1#8 <<<
    (i % 8) else a.getD k 0 := by
  unfold set
  rw [List.getD_eq_getElem?_getD, List.getElem?_modify, List.getD_eq_getElem?_getD]
  by_cases hk : k < a.length
  · rw [List.getElem?_eq_getElem hk]
    by_cases hi : i / 8 = k
    · simp [hi, hk]
    · rw [if_neg fun h => hi h.1.symm]
      simp [hi]
  · rw [List.getElem?_eq_none (Nat.le_of_not_lt hk), if_neg fun h => hk h.2]
    rfl

theorem get_set_self (hi : i / 8 < a.length) : get (set a i) i = true := by
  rw [get_iff, getD_set, if_pos ⟨rfl, hi⟩, BitVec.getLsbD_or, ← BitVec.twoPow_eq,
    BitVec.getLsbD_twoPow]
  simp [Nat.mod_lt]

/-- What is set stays set. -/
theorem get_set_of_get (h : get a i = true) (j : Nat) : get (set a j) i = true := by
  rw [get_iff] at h ⊢
  rw [getD_set]
  split_ifs
  · rw [BitVec.getLsbD_or, h, Bool.true_or]
  · exact h

@[simp] theorem length_setAll : (setAll a is).length = a.length := by
  induction is generalizing a with
  | nil => rfl
  | cons i is ih =>
    show (setAll (set a i) is).length = a.length
    rw [ih, length_set]

theorem setAll_append : setAll a (is ++ js) = setAll (setAll a is) js := List.foldl_append

theorem get_setAll_of_get (h : get a i = true) (js : List Nat) : get (setAll a js) i = true := by
  induction js generalizing a with
  | nil => exact h
  | cons j js ih => exact ih (get_set_of_get h j)

/-- Every position of the list is set. -/
theorem get_setAll (hi : i ∈ is) (hlt : i / 8 < a.length) : get (setAll a is) i = true := by
  induction is generalizing a with
  | nil => cases hi
  | cons j is ih =>
    rcases List.mem_cons.1 hi with rfl | hi
    · exact get_setAll_of_get (get_set_self hlt) is
    · exact ih hi (by rwa [length_set])

/-- Positions in other bytes do not matter. -/
theorem get_setAll_of_byte (h : ∀ j ∈ js, j / 8 ≠ i / 8) : get (setAll a js) i = get a i := by
  induction js generalizing a with
  | nil => rfl
  | cons j js ih =>
    have hj : (set a j).getD (i / 8) 0 = a.getD (i / 8) 0 := by
      rw [getD_set, if_neg fun hand => h j List.mem_cons_self hand.1.symm]
    show get (setAll (set a j) js) i = get a i
    rw [ih fun k hk => h k (List.mem_cons_of_mem _ hk), get, get, hj]

theorem get_append_left {b : List Byte} (hi : i / 8 < a.length) : get (a ++ b) i = get a i := by
  rw [get, get, List.getD_eq_getElem?_getD,
    List.getElem?_append_left hi, ← List.getD_eq_getElem?_getD]

theorem get_replicate_zero (n : Nat) : get (List.replicate n 0) i = false := by
  rw [← Bool.not_eq_true, get_iff, List.getD_eq_getElem?_getD, List.getElem?_replicate]
  split_ifs
  · simp
  · simp

end BitArray
