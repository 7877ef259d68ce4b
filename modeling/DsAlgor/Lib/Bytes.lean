import DsAlgor.Lib.BitArray

/-!
# Words in a buffer of bytes

A word is stored with its lowest byte first (`encode`, `decode`); `slice` reads and `write`
overwrites a part of a buffer.
-/

namespace Bytes

open BitArray

/-- The lowest `k` bytes of a number. -/
def encode : Nat → Nat → List Byte
  | 0, _ => []
  | k + 1, n => BitVec.ofNat 8 n :: encode k (n / 256)

def decode : List Byte → Nat
  | [] => 0
  | b :: bs => b.toNat + 256 * decode bs

def slice (buf : List Byte) (i n : Nat) : List Byte := (buf.drop i).take n

def write (buf : List Byte) (i : Nat) (bs : List Byte) : List Byte :=
  buf.take i ++ (bs ++ buf.drop (i + bs.length))

@[simp] theorem length_encode (k n : Nat) : (encode k n).length = k := by
  induction k generalizing n with
  | zero => rfl
  | succ k ih => rw [encode, List.length_cons, ih]

theorem decode_encode (k n : Nat) : decode (encode k n) = n % 256 ^ k := by
  induction k generalizing n with
  | zero => rw [encode, decode, pow_zero, Nat.mod_one]
  | succ k ih =>
    have hbyte : 2 ^ 8 = 256 := rfl
    rw [encode, decode, ih, BitVec.toNat_ofNat, hbyte, Nat.pow_succ', Nat.mod_mul]

section
variable {buf bs : List Byte} {i j n : Nat}

theorem getElem?_slice (k : Nat) : (slice buf i n)[k]? = if k < n then buf[i + k]? else none := by
  rw [slice, List.getElem?_take, List.getElem?_drop]

variable (h : i + bs.length ≤ buf.length)
include h

theorem length_write : (write buf i bs).length = buf.length := by
  rw [write, List.length_append, List.length_append, List.length_take, List.length_drop]
  omega

theorem getElem?_write (k : Nat) :
    (write buf i bs)[k]? = if i ≤ k ∧ k < i + bs.length then bs[k - i]? else buf[k]? := by
  have hlen : (buf.take i).length = i := by
    rw [List.length_take]
    omega
  rw [write, List.getElem?_append, hlen]
  by_cases hk : k < i
  · rw [if_pos hk, if_neg (by omega), List.getElem?_take, if_pos hk]
  · rw [if_neg hk, List.getElem?_append]
    by_cases hin : k - i < bs.length
    · rw [if_pos hin, if_pos ⟨by omega, by omega⟩]
    · rw [if_neg hin, if_neg (by omega), List.getElem?_drop]
      congr 1
      omega

/-- What has been written is read. -/
theorem slice_write_self : slice (write buf i bs) i bs.length = bs := by
  apply List.ext_getElem?
  intro k
  rw [getElem?_slice, getElem?_write h]
  by_cases hk : k < bs.length
  · rw [if_pos hk, if_pos ⟨by omega, by omega⟩, Nat.add_sub_cancel_left]
  · rw [if_neg hk, List.getElem?_eq_none (Nat.le_of_not_lt hk)]

/-- The rest of the buffer is as it was. -/
theorem slice_write_of_disjoint (hd : j + n ≤ i ∨ i + bs.length ≤ j) :
    slice (write buf i bs) j n = slice buf j n := by
  apply List.ext_getElem?
  intro k
  rw [getElem?_slice, getElem?_slice, getElem?_write h]
  by_cases hk : k < n
  · rw [if_pos hk, if_pos hk, if_neg (by omega)]
  · rw [if_neg hk, if_neg hk]

end

/-! ## Flattened lists -/

section
variable {ls : List (List Byte)} {i m : Nat}

/-- Where the parts of a flattened list start, when it is put behind `m` bytes. -/
def starts : Nat → List (List Byte) → List Nat
  | _, [] => []
  | m, l :: ls => m :: starts (m + l.length) ls

theorem starts_append (ls ls' : List (List Byte)) : starts m (ls ++ ls') = starts m ls ++ starts
    (m + ls.flatten.length) ls' := by
  induction ls generalizing m with
  | nil => rfl
  | cons l ls ih =>
    rw [List.cons_append, starts, ih, starts, List.flatten_cons, List.length_append,
      List.cons_append, Nat.add_assoc]

@[simp] theorem length_starts : (starts m ls).length = ls.length := by
  induction ls generalizing m with
  | nil => rfl
  | cons l ls ih => rw [starts, List.length_cons, ih, List.length_cons]

/-- The starts of the parts, and the end of the last one. -/
theorem getElem?_starts (hi : i ≤ ls.length) :
    (starts m ls ++ [m + ls.flatten.length])[i]? = some (m + (ls.take i).flatten.length) := by
  induction ls generalizing m i with
  | nil =>
    obtain rfl : i = 0 := Nat.le_zero.1 hi
    rfl
  | cons l ls ih =>
    cases i with
    | zero => rfl
    | succ i =>
      have hrec := ih (m := m + l.length) (Nat.le_of_succ_le_succ hi)
      rw [starts, List.cons_append, List.getElem?_cons_succ, List.flatten_cons,
        List.length_append, ← Nat.add_assoc, hrec, List.take_succ_cons, List.flatten_cons,
        List.length_append, Nat.add_assoc]

theorem length_flatten_take_succ (hi : i < ls.length) :
    (ls.take (i + 1)).flatten.length = (ls.take i).flatten.length + ls[i].length := by
  rw [List.take_succ_eq_append_getElem hi, List.flatten_append, List.length_append,
    List.flatten_singleton]

/-- A part of a flattened list, whatever comes behind. -/
theorem slice_flatten (hi : i < ls.length) (rest : List Byte) :
    slice (ls.flatten ++ rest) (ls.take i).flatten.length ls[i].length = ls[i] := by
  have hsplit : ls.flatten ++ rest = (ls.take i).flatten ++
    (ls[i] ++ ((ls.drop (i + 1)).flatten ++ rest)) := by
    nth_rewrite 1 [← List.take_append_drop i ls, List.drop_eq_getElem_cons hi]
    rw [List.flatten_append, List.flatten_cons, List.append_assoc, List.append_assoc]
  rw [slice, hsplit, List.drop_left, List.take_left]

end

/-! ## Signed 64-bit words -/

def readInt64 (buf : List Byte) (i : Nat) : Int := (BitVec.ofNat 64 (decode (slice buf i 8))).toInt

def writeInt64 (buf : List Byte) (i : Nat) (v : Int) : List Byte :=
  write buf i (encode 8 (BitVec.ofInt 64 v).toNat)

section
variable {buf : List Byte} {i j : Nat} {v : Int}

theorem length_writeInt64 (h : i + 8 ≤ buf.length) : (writeInt64 buf i v).length = buf.length := by
  apply length_write
  rwa [length_encode]

theorem readInt64_writeInt64 (h : i + 8 ≤ buf.length) (hlo : -2 ^ 63 ≤ v) (hhi : v < 2 ^ 63) :
    readInt64 (writeInt64 buf i v) i = v := by
  have hslice : slice (writeInt64 buf i v) i 8 = encode 8 (BitVec.ofInt 64 v).toNat := by
    have := slice_write_self (i := i) (show i + (encode 8 (BitVec.ofInt 64 v).toNat).length ≤
      buf.length by
      rwa [length_encode])
    rwa [length_encode] at this
  have hlt : (BitVec.ofInt 64 v).toNat < 256 ^ 8 := (BitVec.ofInt 64 v).isLt
  rw [readInt64, hslice, decode_encode, Nat.mod_eq_of_lt hlt, BitVec.ofNat_toNat,
    BitVec.setWidth_eq, BitVec.toInt_ofInt, Int.bmod_eq_of_le]
  · omega
  · omega

theorem readInt64_writeInt64_of_ne (h : i + 8 ≤ buf.length) (hd : j + 8 ≤ i ∨ i + 8 ≤ j) :
    readInt64 (writeInt64 buf i v) j = readInt64 buf j := by
  rw [readInt64, readInt64, writeInt64, slice_write_of_disjoint]
  · rwa [length_encode]
  · rwa [length_encode]

end

end Bytes
