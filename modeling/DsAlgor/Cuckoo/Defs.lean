import Mathlib.Data.List.Basic
import Mathlib.Logic.Function.Basic
import Mathlib.Tactic
import DsAlgor.Lib.Outcome

/-!
# `cuckoo_filter.c`

A log of key-value entries on flash and an in-memory table of slots that point into it. A slot does
not hold the key but a tag, which is the index of the other bucket of the entry.

`uint32_t` is `Nat` with explicit `% 2 ^ 32`. A key is its 20 bytes, read as the two `size_t` words
the hashes take and the rest. The flash is an array of `struct log_entry`; offsets on flash are
multiples of the sector size, which is the size of an entry. What an array holds and how long it is
are separate from the counts the code keeps (`slot_num`, `bucket_num`), since a failed allocation
leaves them apart; an access outside an array is a `Fault`.
-/

namespace Cuckoo

def SECTOR_SIZE : Nat := 32

def DAT_LEN : Nat := SECTOR_SIZE - 20

def ASSOC_WAY : Nat := 4

/-- `(uint32_t)-1` -/
def INVALID_OFFSET : Nat := 2 ^ 32 - 1

/-- 20 bytes. -/
structure Key where
  word0 : BitVec 64
  word1 : BitVec 64
  rest : BitVec 32
deriving DecidableEq

/-- `DAT_LEN` bytes. -/
abbrev Data := BitVec 96

structure LogEntry where
  sha1 : Key
  data : Data

inductive Status
  | availible
  | occupied
  | deleted
deriving DecidableEq

/-- `struct hash_slot_cache` -/
structure Slot where
  tag : Nat
  status : Status
  offset : Nat
deriving DecidableEq

/-- `struct hash_table`: `slots` has `slotsLen` elements, and `buckets` has `bucketsLen` pointers,
the `i`-th to slot `ASSOC_WAY * i`. -/
structure HashTable where
  slots : Nat → Slot
  slotsLen : Nat
  bucketsLen : Nat
  slotNum : Nat
  bucketNum : Nat

structure State where
  table : HashTable
  flash : Nat → LogEntry
  nvromSize : Nat
  logEntries : Nat

inductive Fault
  /-- An `assert` fails. -/
  | assertion
  /-- An access outside an array. -/
  | outOfBounds
  /-- The kick-out loop does not come to its end. -/
  | loop
deriving DecidableEq

/-! ## Hashing -/

/-- `word & (count - 1)`, where `count - 1` is computed in `uint32_t`. -/
def mask (word : BitVec 64) (count : Nat) : Nat := word.toNat &&& ((count + (2 ^ 32 - 1)) % 2 ^ 32)

def cuckooHashLsb (key : Key) (count : Nat) : Nat := mask key.word0 count

def cuckooHashMsb (key : Key) (count : Nat) : Nat := mask key.word1 count

/-- A `uint32_t` stored in the 30 bits of a tag. -/
def toTag (n : Nat) : Nat := n % 2 ^ 30

def isPowOf2 (x : Nat) : Bool := x &&& ((x + (2 ^ 32 - 1)) % 2 ^ 32) = 0

def nextPowOf2 (x : Nat) : Nat :=
  if isPowOf2 x then x
  else
    let x := x ||| x >>> 1
    let x := x ||| x >>> 2
    let x := x ||| x >>> 4
    let x := x ||| x >>> 8
    let x := x ||| x >>> 16
    (x + 1) % 2 ^ 32

/-! ## The table -/

/-- The slots of `table->buckets[tag]`. -/
def HashTable.bucket (t : HashTable) (tag : Nat) : Except Fault (List Nat) :=
  if tag < t.bucketsLen ∧ ASSOC_WAY * tag + ASSOC_WAY ≤ t.slotsLen then
    .ok (List.range' (ASSOC_WAY * tag) ASSOC_WAY)
  else .error .outOfBounds

def HashTable.set (t : HashTable) (p : Nat) (s : Slot) : HashTable :=
  { t with slots := Function.update t.slots p s }

def nextEntryOffset (st : State) : Nat :=
  if (st.logEntries + 1) % 2 ^ 32 * SECTOR_SIZE ≥ st.nvromSize then INVALID_OFFSET
  else st.logEntries * SECTOR_SIZE % 2 ^ 32

/-- `key_verify`: does the entry at `offset` have the key? -/
def keyVerify (st : State) (key : Key) (offset : Nat) : Except Fault Bool :=
  if offset + SECTOR_SIZE ≤ st.nvromSize then .ok ((st.flash (offset / SECTOR_SIZE)).sha1 = key)
  else .error .outOfBounds

/-- The loop of `cuckoo_hash_get` over one bucket; `none` when it runs to its end. -/
def getLoop (st : State) (t : HashTable) (key : Key) (tag : Nat) :
    List Nat → Except Fault (Option (Status × Nat))
  | [] => .ok none
  | p :: ps =>
    if tag = (t.slots p).tag then
      match (t.slots p).status with
      | .occupied => do
        if ← keyVerify st key (t.slots p).offset then return some (.occupied, (t.slots p).offset)
        else getLoop st t key tag ps
      | .deleted => .ok (some (.deleted, 0))
      | .availible => getLoop st t key tag ps
    else getLoop st t key tag ps

/-- `cuckoo_hash_get`: the status, and the offset of the entry of an occupied slot. -/
def cuckooHashGet (st : State) (t : HashTable) (key : Key) : Except Fault (Status × Nat) := do
  let tag0 := cuckooHashLsb key t.bucketNum
  let tag1 := cuckooHashMsb key t.bucketNum
  match ← getLoop st t key tag1 (← t.bucket tag0) with
  | some r => return r
  | none =>
    match ← getLoop st t key tag0 (← t.bucket tag1) with
    | some r => return r
    | none => return (.availible, 0)

/-! ## Insertion -/

/-- The loop that takes a slot: a deleted one when the log is full (`offset` then becomes its
offset), or a free one, which gets `newOffset`. `none` when there is neither. -/
def takeSlot (t : HashTable) (tag newOffset offset : Nat) : List Nat → Option (HashTable × Nat)
  | [] => none
  | p :: ps =>
    if offset = INVALID_OFFSET ∧ (t.slots p).status = .deleted then
      some (t.set p { t.slots p with status := .occupied, tag := toTag tag }, (t.slots p).offset)
    else if (t.slots p).status = .availible then
      some (t.set p ⟨toTag tag, .occupied, newOffset⟩, offset)
    else takeSlot t tag newOffset offset ps

/-- The variables of `cuckoo_hash_collide` at `KICK_OUT`. -/
structure Kick where
  table : HashTable
  oldTag : Bool → Nat
  oldOffset : Nat
  offset : Nat
  i : Bool
  k : Nat
  altCnt : Nat

/-- The slot the entry is exchanged with when its bucket has no room. -/
def Kick.victim (s : Kick) : Nat :=
  ASSOC_WAY * s.oldTag s.i + if s.altCnt + 1 > 512 then s.k + 1 else s.k

/-- Exchange the entry with the victim's. -/
def Kick.swap (s : Kick) : Kick :=
  let old := s.table.slots s.victim
  { table := s.table.set s.victim { old with tag := toTag (s.oldTag !s.i), offset := s.oldOffset }
    oldTag := Function.update s.oldTag (!s.i) old.tag
    oldOffset := old.offset
    offset := s.offset
    i := !s.i
    k := if s.altCnt + 1 > 512 then s.k + 1 else s.k
    altCnt := s.altCnt + 1 }

/-- From `KICK_OUT` to the `goto` or to the return: the return value, the table and `*p_offset`. -/
def kickOut (s : Kick) : Except Fault (Kick ⊕ Bool × HashTable × Nat) := do
  match takeSlot s.table (s.oldTag !s.i) s.oldOffset s.offset (← s.table.bucket (s.oldTag s.i)) with
  | some (t, offset) => return .inr (false, t, offset)
  | none =>
    if s.altCnt + 1 > 512 ∧ s.k = ASSOC_WAY - 1 then return .inr (true, s.table, s.offset)
    else return .inl s.swap

def kickLoop : Nat → Kick → Except Fault (Bool × HashTable × Nat)
  | 0, _ => .error .loop
  | fuel + 1, s => do
    match ← kickOut s with
    | .inl s => kickLoop fuel s
    | .inr r => return r

/-- The entry takes the first slot of its first bucket. -/
def firstKick (t : HashTable) (tag0 tag1 offset : Nat) : Kick :=
  let old := t.slots (ASSOC_WAY * tag0)
  { table := t.set (ASSOC_WAY * tag0) { old with tag := toTag tag1, offset := offset }
    oldTag := fun b => if b then old.tag else tag0
    oldOffset := old.offset
    offset := offset
    i := true
    k := 0
    altCnt := 0 }

/-- `cuckoo_hash_collide`, `true` for the return value 1. -/
def cuckooHashCollide (t : HashTable) (tag0 tag1 offset : Nat) :
    Except Fault (Bool × HashTable × Nat) := do
  let _ ← t.bucket tag0
  kickLoop (512 + ASSOC_WAY) (firstKick t tag0 tag1 offset)

/-- `cuckoo_hash_put`, `true` for the return value -1. -/
def cuckooHashPut (t : HashTable) (key : Key) (offset : Nat) :
    Except Fault (Bool × HashTable × Nat) := do
  let tag0 := cuckooHashLsb key t.bucketNum
  let tag1 := cuckooHashMsb key t.bucketNum
  match takeSlot t tag1 offset offset (← t.bucket tag0) with
  | some (t, offset) => return (false, t, offset)
  | none =>
    match takeSlot t tag0 offset offset (← t.bucket tag1) with
    | some (t, offset) => return (false, t, offset)
    | none => cuckooHashCollide t tag0 tag1 offset

/-! ## Deletion -/

/-- The first slot with a tag, of any status. -/
def findTag (t : HashTable) (tag : Nat) (ps : List Nat) : Option Nat :=
  ps.find? fun p => tag = (t.slots p).tag

def HashTable.setStatus (t : HashTable) (p : Nat) (status : Status) : HashTable :=
  t.set p { t.slots p with status := status }

def cuckooHashStatusSet (t : HashTable) (key : Key) (status : Status) : Except Fault HashTable := do
  let tag0 := cuckooHashLsb key t.bucketNum
  let tag1 := cuckooHashMsb key t.bucketNum
  match findTag t tag1 (← t.bucket tag0) with
  | some p => return t.setStatus p status
  | none =>
    match findTag t tag0 (← t.bucket tag1) with
    | some p => return t.setStatus p status
    | none => return t

def cuckooHashDelete (t : HashTable) (key : Key) : Except Fault HashTable :=
  cuckooHashStatusSet t key .deleted

def cuckooHashRecover (t : HashTable) (key : Key) : Except Fault HashTable :=
  cuckooHashStatusSet t key .occupied

/-! ## Growth -/

/-- What `calloc` and `malloc` in `cuckoo_rehash` do. -/
structure Alloc where
  calloc : Bool
  malloc : Bool

/-- What can go wrong in a put. -/
inductive Failure
  | callocNull
  | mallocNull
  | notEnoughCapacity
deriving DecidableEq

def emptySlot : Slot := ⟨0, .availible, 0⟩

/-- One round of the loop over the log. -/
def rehashEntry (st : State) (old t : HashTable) (e : Nat) : Except Fault HashTable :=
  if (e + 1) * SECTOR_SIZE ≤ st.nvromSize then do
    let key := (st.flash e).sha1
    let (fail, t, _) ← cuckooHashPut t key (e * SECTOR_SIZE)
    if fail then throw .assertion
    else
      match ← cuckooHashGet st old key with
      | (.deleted, _) => cuckooHashDelete t key
      | _ => return t
  else .error .outOfBounds

def rehashLog (st : State) (old : HashTable) : Nat → HashTable → Except Fault HashTable
  | 0, t => .ok t
  | n + 1, t => do
    let t ← rehashLog st old n t
    rehashEntry st old t n

/-- The table before the log is read again. -/
def grown (t : HashTable) : HashTable :=
  let slotNum := t.slotNum * 2 % 2 ^ 32
  let bucketNum := t.bucketNum * 2 % 2 ^ 32
  { slots := fun _ => emptySlot, slotsLen := slotNum, bucketsLen := bucketNum, slotNum, bucketNum }

def cuckooRehash (st : State) (alloc : Alloc) : Except Fault (Option Failure × HashTable) :=
  let t := st.table
  if !alloc.calloc then .ok (some .callocNull, { t with slotNum := t.slotNum * 2 % 2 ^ 32 })
  else if !alloc.malloc then
    .ok (some .mallocNull,
      { t with slotNum := t.slotNum * 2 % 2 ^ 32, bucketNum := t.bucketNum * 2 % 2 ^ 32 })
  else do
    let t ← rehashLog st t st.logEntries (grown t)
    return (none, t)

/-! ## The interface -/

def cuckooFilterGet (st : State) (key : Key) : Except Fault (Option Data) := do
  match ← cuckooHashGet st st.table key with
  | (.occupied, offset) => return some (st.flash (offset / SECTOR_SIZE)).data
  | _ => return none

/-- The put of a key that is not in the table, from the first `cuckoo_hash_put` to the second. -/
def insertKey (st : State) (key : Key) (offset : Nat) (alloc : Alloc) :
    Except Fault (Option Failure × HashTable × Nat) := do
  let (fail, t, offset) ← cuckooHashPut st.table key offset
  if fail then
    let (failure, t) ← cuckooRehash { st with table := t } alloc
    let (_, t, offset) ← cuckooHashPut t key offset
    return (failure, t, offset)
  else return (none, t, offset)

/-- `cuckoo_filter_put`, with a deletion for `NULL`: the failures on the way and the state. -/
def cuckooFilterPut (st : State) (key : Key) (value : Option Data) (alloc : Alloc) :
    Except Fault (List Failure × State) :=
  match value with
  | some value => do
    match ← cuckooHashGet st st.table key with
    | (.occupied, _) => return ([], st)
    | (.deleted, _) => return ([], { st with table := ← cuckooHashRecover st.table key })
    | (.availible, _) =>
      let (failure, t, offset) ← insertKey st key (nextEntryOffset st) alloc
      if offset = INVALID_OFFSET then
        return (failure.toList ++ [.notEnoughCapacity], { st with table := t })
      else if offset + SECTOR_SIZE ≤ st.nvromSize then
        return (failure.toList,
          { st with
            table := t
            flash := Function.update st.flash (offset / SECTOR_SIZE) ⟨key, value⟩
            logEntries := (st.logEntries + 1) % 2 ^ 32 })
      else throw .outOfBounds
  | none => return ([], { st with table := ← cuckooHashDelete st.table key })

/-- `cuckoo_filter_init` with the memory it asks for, whose contents are `flash`. -/
def cuckooFilterInit (size : Nat) (flash : Nat → LogEntry) : State :=
  let nvromSize := nextPowOf2 ((size / DAT_LEN + 1) * SECTOR_SIZE % 2 ^ 32)
  let slotNum := nvromSize / SECTOR_SIZE / 4
  let bucketNum := slotNum / ASSOC_WAY
  { table :=
      { slots := fun _ => emptySlot, slotsLen := slotNum, bucketsLen := bucketNum, slotNum
        bucketNum }
    flash, nvromSize, logEntries := 0 }

end Cuckoo
