import DsAlgor.Lib.Bytes
import DsAlgor.Lib.CInt

/-!
# The Bloom filter policy of LevelDB

The model of `bloom.cc`. A filter is an array of bits and a last byte with the number of probes; the
probes of a key are an arithmetic sequence of 32-bit words that starts with its hash. `CreateFilter`
gets the number of keys as an `int`, of which it takes as many keys from the array.
-/

namespace Leveldb

open BitArray Bytes

abbrev Slice := List Byte

structure BloomFilterPolicy where
  /-- `BloomHash`. -/
  hash : Slice → BitVec 32
  bitsPerKey : Nat
  k : Nat

/-- `static_cast<size_t>(bits_per_key * 0.69)`, at least 1 and at most 30. -/
def probeCount (bitsPerKey : Nat) : Nat :=
  let k := bitsPerKey * 69 / 100
  let k := if k < 1 then 1 else k
  if k > 30 then 30 else k

def newBloomFilterPolicy (hash : Slice → BitVec 32) (bitsPerKey : Nat) : BloomFilterPolicy :=
  ⟨hash, bitsPerKey, probeCount bitsPerKey⟩

/-- Rotate right 17 bits. -/
def delta (h : BitVec 32) : BitVec 32 := h >>> 17 ||| h <<< 15

/-- The loop of `CreateFilter` over the probes of a key. -/
def addLoop (bits : Nat) (d : BitVec 32) : Nat → BitVec 32 → List Byte → List Byte
  | 0, _, array => array
  | j + 1, h, array => addLoop bits d j (h + d) (set array (h.toNat % bits))

/-- The loop of `KeyMayMatch`. -/
def matchLoop (bits : Nat) (d : BitVec 32) (array : List Byte) : Nat → BitVec 32 → Bool
  | 0, _ => true
  | j + 1, h =>
    if get array (h.toNat % bits) = false then false else matchLoop bits d array j (h + d)

namespace BloomFilterPolicy

variable (policy : BloomFilterPolicy)

/-- The number of bytes for the bits, in 64-bit arithmetic. -/
def filterBytes (n : Int) : Nat :=
  let bits := (BitVec.ofInt 64 n * BitVec.ofNat 64 policy.bitsPerKey).toNat
  let bits := if bits < 64 then 64 else bits
  (bits + 7) % 2 ^ 64 / 8

def createFilter (keys : List Slice) (n : Int) (dst : List Byte) : List Byte :=
  let bytes := policy.filterBytes n
  let array := (keys.take n.toNat).foldl
    (fun array key => addLoop (bytes * 8) (delta (policy.hash key)) policy.k
    (policy.hash key) array)
    (List.replicate bytes 0)
  dst ++ (array ++ [BitVec.ofNat 8 policy.k])

def keyMayMatch (key filter : Slice) : Bool :=
  let len := filter.length
  if len < 2 then false
  else
    let bits := (len - 1) * 8
    let k := (filter.getD (len - 1) 0).toNat
    if k > 30 then true else matchLoop bits (delta (policy.hash key)) filter k (policy.hash key)

end BloomFilterPolicy

/-! ## The probes -/

/-- The positions of the probes. -/
def probes (bits : Nat) (d : BitVec 32) : Nat → BitVec 32 → List Nat
  | 0, _ => []
  | j + 1, h => h.toNat % bits :: probes bits d j (h + d)

section
variable {bits : Nat} {d h : BitVec 32} {j : Nat} {array : List Byte}

theorem addLoop_eq : addLoop bits d j h array = setAll array (probes bits d j h) := by
  induction j generalizing h array with
  | zero => rfl
  | succ j ih =>
    rw [addLoop, ih]
    rfl

theorem matchLoop_eq : matchLoop bits d array j h = (probes bits d j h).all (get array) := by
  induction j generalizing h with
  | zero => rfl
  | succ j ih =>
    rw [matchLoop, ih, probes, List.all_cons]
    cases get array (h.toNat % bits) with
    | false => rfl
    | true => rfl

theorem lt_of_mem_probes (h0 : 0 < bits) {i : Nat} (hi : i ∈ probes bits d j h) : i < bits := by
  induction j generalizing h with
  | zero => cases hi
  | succ j ih =>
    rcases List.mem_cons.1 hi with rfl | hi
    · exact Nat.mod_lt _ h0
    · exact ih hi

end

theorem probeCount_le (bitsPerKey : Nat) : probeCount bitsPerKey ≤ 30 := by
  unfold probeCount
  dsimp only
  split_ifs <;> omega

namespace BloomFilterPolicy

variable {policy : BloomFilterPolicy} {keys : List Slice} {n : Int}

/-- The positions of all the keys. -/
def positions (policy : BloomFilterPolicy) (n : Int) (keys : List Slice) : List Nat :=
  keys.flatMap fun key => probes (policy.filterBytes n * 8) (delta (policy.hash key)) policy.k
    (policy.hash key)

theorem foldl_addLoop (array : List Byte) :
    keys.foldl (fun array key =>
      addLoop (policy.filterBytes n * 8) (delta (policy.hash key)) policy.k (policy.hash key) array)
        array =
    setAll array (policy.positions n keys) := by
  induction keys generalizing array with
  | nil => rfl
  | cons key keys ih =>
    rw [List.foldl_cons, ih, addLoop_eq, ← setAll_append]
    rfl

theorem createFilter_eq (dst : List Byte) :
    policy.createFilter keys n dst =
      dst ++ (setAll (List.replicate (policy.filterBytes n) 0)
        (policy.positions n (keys.take n.toNat)) ++ [BitVec.ofNat 8 policy.k]) := by
  unfold createFilter
  dsimp only
  rw [foldl_addLoop]

/-- A filter has room for at least 64 bits. -/
theorem filterBytes_pos {m : Nat} (hm : m < 2 ^ 31) (hbits : policy.bitsPerKey < 2 ^ 31) :
    8 ≤ policy.filterBytes m := by
  unfold filterBytes
  dsimp only
  have hlt : m * policy.bitsPerKey < 2 ^ 62 := by
    calc m * policy.bitsPerKey < 2 ^ 31 * 2 ^ 31 := Nat.mul_lt_mul'' hm hbits
      _ = 2 ^ 62 := by norm_num
  have hprod : (BitVec.ofInt 64 m * BitVec.ofNat 64 policy.bitsPerKey).toNat =
    m * policy.bitsPerKey := by
    rw [BitVec.ofInt_natCast, BitVec.toNat_mul, BitVec.toNat_ofNat,
      BitVec.toNat_ofNat, ← Nat.mul_mod]
    exact Nat.mod_eq_of_lt (by omega)
  rw [hprod]
  split_ifs <;> omega

/-- What `KeyMayMatch` looks at in a filter that `CreateFilter` has made. -/
theorem keyMayMatch_eq {array : List Byte} {key : Slice} (hk : policy.k ≤ 30)
    (harray : array ≠ []) :
    policy.keyMayMatch key (array ++ [BitVec.ofNat 8 policy.k]) =
      (probes (array.length * 8) (delta (policy.hash key)) policy.k (policy.hash key)).all
      (get array) := by
  have hlen : 0 < array.length := List.length_pos_of_ne_nil harray
  have hlast : (array ++ [BitVec.ofNat 8 policy.k]).getD array.length 0 =
    BitVec.ofNat 8 policy.k := by
    rw [List.getD_eq_getElem?_getD, List.getElem?_append_right le_rfl, Nat.sub_self]
    rfl
  have hcount : (BitVec.ofNat 8 policy.k).toNat = policy.k := by
    rw [BitVec.toNat_ofNat]
    exact Nat.mod_eq_of_lt (by omega)
  unfold keyMayMatch
  dsimp only
  rw [List.length_append, List.length_singleton, Nat.add_sub_cancel, if_neg (by omega), hlast,
    hcount, if_neg (by omega), matchLoop_eq]
  rw [Bool.eq_iff_iff, List.all_eq_true, List.all_eq_true]
  refine forall₂_congr fun i hi => ?_
  have hlt := lt_of_mem_probes (by omega) hi
  rw [get_append_left (by omega)]

/-- **No false negatives** in one filter. -/
theorem keyMayMatch_createFilter (hk : policy.k ≤ 30) (hbits : policy.bitsPerKey < 2 ^ 31)
    (hlen : keys.length < 2 ^ 31) {key : Slice} (hkey : key ∈ keys) :
    policy.keyMayMatch key (policy.createFilter keys keys.length []) = true := by
  have hbytes := filterBytes_pos hlen hbits
  have harray : (setAll (List.replicate (policy.filterBytes keys.length) 0)
    (policy.positions keys.length keys)).length = policy.filterBytes keys.length := by
    rw [length_setAll, List.length_replicate]
  rw [createFilter_eq, List.nil_append, Int.toNat_natCast, List.take_length, keyMayMatch_eq hk,
    harray, List.all_eq_true]
  · intro i hi
    apply get_setAll (List.mem_flatMap.2 ⟨key, hkey, hi⟩)
    have hlt := lt_of_mem_probes (by omega) hi
    rw [List.length_replicate]
    omega
  · apply List.ne_nil_of_length_pos
    omega

end BloomFilterPolicy

end Leveldb
