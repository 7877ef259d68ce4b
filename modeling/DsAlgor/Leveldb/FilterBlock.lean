import DsAlgor.Leveldb.Bloom

/-!
# The filter block of LevelDB

The model of `filter_block.cc`. The builder collects keys and makes one filter for every 2 KB of
block offsets; the filters, the array of their offsets, the offset of this array and the base go
into one string, in which the reader finds the filter of an offset. `PutFixed32` and `DecodeFixed32`
are a parameter.

What the builder does to keys is grouping them (`keysOf`); a key is found as long as fewer than `2 ^
31` keys share its filter (`filterBlock_complete`). `GenerateFilter` hands the number of keys over
as an `int`, and a number that is negative as an `int` makes a filter without keys.
-/

namespace Leveldb

open BitArray Bytes

/-- `PutFixed32` and `DecodeFixed32`, which are inverse. -/
structure Coding where
  putFixed32 : BitVec 32 → List Byte
  decodeFixed32 : List Byte → BitVec 32
  length_put : ∀ x, (putFixed32 x).length = 4
  decode_put : ∀ x, decodeFixed32 (putFixed32 x) = x

def kFilterBaseLg : Nat := 11
def kFilterBase : Nat := 1 <<< kFilterBaseLg

structure FilterBlockBuilder where
  /-- Flattened key contents. -/
  keys : List Byte
  /-- Starting index in `keys` of each key. -/
  start : List Nat
  /-- Filter data computed so far. -/
  result : List Byte
  filterOffsets : List (BitVec 32)

namespace FilterBlockBuilder

def new : FilterBlockBuilder := ⟨[], [], [], []⟩

/-- The list of keys from the flattened key structure. -/
def tmpKeys (b : FilterBlockBuilder) : List Slice :=
  let start := b.start ++ [b.keys.length]
  (List.range b.start.length).map fun i => slice b.keys (start.getD i 0)
    (start.getD (i + 1) 0 - start.getD i 0)

def generateFilter (policy : BloomFilterPolicy) (b : FilterBlockBuilder) : FilterBlockBuilder :=
  if b.start.length = 0 then
    { b with filterOffsets := b.filterOffsets ++ [BitVec.ofNat 32 b.result.length] }
  else
    { keys := []
      start := []
      result := policy.createFilter b.tmpKeys (int32 b.start.length) b.result
      filterOffsets := b.filterOffsets ++ [BitVec.ofNat 32 b.result.length] }

/-- `while (filter_index > filter_offsets_.size())`, with `r` rounds left. -/
def startLoop (policy : BloomFilterPolicy) (filterIndex : Nat) : Nat → FilterBlockBuilder →
    FilterBlockBuilder
  | 0, b => b
  | r + 1, b =>
    if filterIndex > b.filterOffsets.length then startLoop policy filterIndex r
      (b.generateFilter policy) else b

/-- `StartBlock`; a failed assertion is `none`. -/
def startBlock (policy : BloomFilterPolicy) (b : FilterBlockBuilder) (blockOffset : Nat) :
    Option FilterBlockBuilder :=
  let filterIndex := blockOffset / kFilterBase
  if filterIndex ≥ b.filterOffsets.length then
    some (startLoop policy filterIndex filterIndex b) else none

def addKey (b : FilterBlockBuilder) (key : Slice) : FilterBlockBuilder :=
  { b with start := b.start ++ [b.keys.length], keys := b.keys ++ key }

def finish (policy : BloomFilterPolicy) (coding : Coding) (b : FilterBlockBuilder) : Slice :=
  let b := if b.start ≠ [] then b.generateFilter policy else b
  let arrayOffset := BitVec.ofNat 32 b.result.length
  b.result ++ b.filterOffsets.flatMap coding.putFixed32 ++ coding.putFixed32 arrayOffset ++
    [BitVec.ofNat 8 kFilterBaseLg]

end FilterBlockBuilder

structure FilterBlockReader where
  data : List Byte
  offset : Nat
  num : Nat
  baseLg : Nat

namespace FilterBlockReader

def new (coding : Coding) (contents : Slice) : FilterBlockReader :=
  let n := contents.length
  if n < 5 then ⟨[], 0, 0, 0⟩
  else
    let baseLg := ((contents.getD (n - 1) 0).signExtend 64).toNat
    let lastWord := (coding.decodeFixed32 (slice contents (n - 5) 4)).toNat
    if lastWord > n - 5 then ⟨[], 0, 0, baseLg⟩ else
      ⟨contents, lastWord, (n - 5 - lastWord) / 4, baseLg⟩

def keyMayMatch (policy : BloomFilterPolicy) (coding : Coding) (r : FilterBlockReader)
    (blockOffset : Nat) (key : Slice) :
    Bool :=
  let index := blockOffset >>> r.baseLg
  if index < r.num then
    let start := (coding.decodeFixed32 (slice r.data (r.offset + index * 4) 4)).toNat
    let limit := (coding.decodeFixed32 (slice r.data (r.offset + index * 4 + 4) 4)).toNat
    if start ≤ limit ∧ limit ≤ r.offset then policy.keyMayMatch key
      (slice r.data start (limit - start))
    else if start = limit then false
    else true
  else true

end FilterBlockReader

/-! ## Schedules -/

inductive Call
  | startBlock (blockOffset : Nat)
  | addKey (key : Slice)

def runCalls (policy : BloomFilterPolicy) : FilterBlockBuilder → List Call →
    Option FilterBlockBuilder
  | b, [] => some b
  | b, .startBlock o :: calls => (b.startBlock policy o).bind fun b => runCalls policy b calls
  | b, .addKey key :: calls => runCalls policy (b.addKey key) calls

/-- The block that a schedule and `Finish` make. -/
def build (policy : BloomFilterPolicy) (coding : Coding) (calls : List Call) : Option Slice :=
  (runCalls policy .new calls).map fun b => b.finish policy coding

/-- The offsets of the `StartBlock` calls. -/
def offsets : List Call → List Nat
  | [] => []
  | .startBlock o :: calls => o :: offsets calls
  | .addKey _ :: calls => offsets calls

/-- The keys of filter `i`, when the filter at hand is `c`. -/
def keysOf (i : Nat) : Nat → List Call → List Slice
  | _, [] => []
  | _, .startBlock o :: calls => keysOf i (o / kFilterBase) calls
  | c, .addKey key :: calls => if c = i then key :: keysOf i c calls else keysOf i c calls

/-! ## What the builder holds -/

/-- The filter of a group of keys. -/
def filterOf (policy : BloomFilterPolicy) (ks : List Slice) : List Byte :=
  if ks = [] then [] else policy.createFilter ks (int32 ks.length) []

/-- The groups of keys whose filters are made, and the keys of the filter at hand. -/
structure Holds (policy : BloomFilterPolicy) (b : FilterBlockBuilder) (done : List (List Slice))
    (pending : List Slice) :
    Prop where
  keys : b.keys = pending.flatten
  start : b.start = starts 0 pending
  result : b.result = (done.map (filterOf policy)).flatten
  filterOffsets : b.filterOffsets = (starts 0 (done.map (filterOf policy))).map (BitVec.ofNat 32)

/-- The keys of filter `i`. -/
def group (done : List (List Slice)) (pending : List Slice) (i : Nat) : List Slice :=
  (done ++ [pending]).getD i []

section
variable {policy : BloomFilterPolicy} {b : FilterBlockBuilder} {done : List (List Slice)}
  {pending : List Slice} {i c r : Nat}

theorem Holds.length_offsets (h : Holds policy b done pending) :
    b.filterOffsets.length = done.length := by
  rw [h.filterOffsets, List.length_map, length_starts, List.length_map]

theorem Holds.length_start (h : Holds policy b done pending) : b.start.length = pending.length := by
  rw [h.start, length_starts]

/-- The keys come back out of the flattened structure. -/
theorem Holds.tmpKeys (h : Holds policy b done pending) : b.tmpKeys = pending := by
  unfold FilterBlockBuilder.tmpKeys
  dsimp only
  apply List.ext_getElem?
  intro i
  rw [List.getElem?_map, h.length_start]
  by_cases hi : i < pending.length
  · have hstart : ∀ j ≤ pending.length, (b.start ++ [b.keys.length]).getD j 0 =
      (pending.take j).flatten.length := by
      intro j hj
      have hget := getElem?_starts (m := 0) hj
      rw [Nat.zero_add, Nat.zero_add, ← h.start, ← h.keys] at hget
      rw [List.getD_eq_getElem?_getD, hget]
      rfl
    rw [List.getElem?_range hi, Option.map_some, hstart i (le_of_lt hi), hstart (i + 1) hi,
      length_flatten_take_succ hi, Nat.add_sub_cancel_left, h.keys]
    have hslice := slice_flatten hi []
    rw [List.append_nil] at hslice
    rw [hslice, List.getElem?_eq_getElem hi]
  · rw [List.getElem?_eq_none (by rw [List.length_range]; omega),
      List.getElem?_eq_none (Nat.le_of_not_lt hi)]
    rfl

theorem createFilter_append (ks : List Slice) (n : Int) (dst : List Byte) :
    policy.createFilter ks n dst = dst ++ policy.createFilter ks n [] := by
  rw [BloomFilterPolicy.createFilter_eq, BloomFilterPolicy.createFilter_eq, List.nil_append]

theorem Holds.generateFilter (h : Holds policy b done pending) :
    Holds policy (b.generateFilter policy) (done ++ [pending]) [] := by
  have hoffsets : b.filterOffsets ++ [BitVec.ofNat 32 b.result.length] =
      (starts 0 ((done ++ [pending]).map (filterOf policy))).map (BitVec.ofNat 32) := by
    rw [List.map_append, starts_append, List.map_append, ← h.filterOffsets,
      Nat.zero_add, ← h.result]
    rfl
  have hresult : ((done ++ [pending]).map (filterOf policy)).flatten = b.result ++ filterOf policy
    pending := by
    rw [List.map_append, List.flatten_append, ← h.result, List.map_singleton,
      List.flatten_singleton]
  unfold FilterBlockBuilder.generateFilter
  rw [h.length_start]
  cases pending with
  | nil =>
    rw [List.length_nil, if_pos rfl]
    refine ⟨h.keys, h.start, ?_, hoffsets⟩
    rw [hresult, filterOf, if_pos rfl, List.append_nil]
  | cons key keys =>
    rw [if_neg (by simp), h.tmpKeys]
    refine ⟨rfl, rfl, ?_, hoffsets⟩
    rw [hresult, filterOf, if_neg (List.cons_ne_nil _ _)]
    exact createFilter_append _ _ _

theorem group_generate : group (done ++ [pending]) [] i = group done pending i := by
  unfold group
  rw [List.getD_eq_getElem?_getD, List.getD_eq_getElem?_getD]
  by_cases hi : i < (done ++ [pending]).length
  · rw [List.getElem?_append_left hi]
  · rw [List.getElem?_append_right (Nat.le_of_not_lt hi),
      List.getElem?_eq_none (Nat.le_of_not_lt hi)]
    cases i - (done ++ [pending]).length with
    | zero => rfl
    | succ k => rfl

/-- The loop of `StartBlock` only moves on to the filter of the offset. -/
theorem Holds.startLoop (h : Holds policy b done pending) (hc : done.length ≤ c)
    (hr : c ≤ done.length + r) :
    ∃ done' pending', Holds policy (.startLoop policy c r b) done' pending' ∧ done'.length = c ∧
      ∀ i, group done' pending' i = group done pending i := by
  induction r generalizing b done pending with
  | zero => exact ⟨done, pending, h, by omega, fun _ => rfl⟩
  | succ r ih =>
    rw [FilterBlockBuilder.startLoop, h.length_offsets]
    by_cases hlt : done.length < c
    · rw [if_pos hlt]
      have hlen : (done ++ [pending]).length = done.length + 1 := by
        rw [List.length_append, List.length_singleton]
      obtain ⟨done', pending', hholds, hlen', hgroup⟩ := ih h.generateFilter (by omega) (by omega)
      exact ⟨done', pending', hholds, hlen', fun i => (hgroup i).trans group_generate⟩
    · rw [if_neg hlt]
      exact ⟨done, pending, h, by omega, fun _ => rfl⟩

theorem Holds.addKey (h : Holds policy b done pending) (key : Slice) :
    Holds policy (b.addKey key) done (pending ++ [key]) := by
  refine ⟨?_, ?_, h.result, h.filterOffsets⟩
  · show b.keys ++ key = _
    rw [h.keys, List.flatten_append, List.flatten_singleton]
  · show b.start ++ [b.keys.length] = _
    rw [starts_append, ← h.start, h.keys, Nat.zero_add]
    rfl

theorem group_addKey (key : Slice) :
    group done (pending ++ [key]) i = group done pending i ++ if done.length = i then
      [key] else [] := by
  unfold group
  rw [List.getD_eq_getElem?_getD, List.getD_eq_getElem?_getD]
  rcases Nat.lt_trichotomy i done.length with hi | hi | hi
  · rw [List.getElem?_append_left hi, List.getElem?_append_left hi, if_neg (by omega),
      List.append_nil]
  · subst hi
    rw [List.getElem?_append_right le_rfl, List.getElem?_append_right le_rfl,
      Nat.sub_self, if_pos rfl]
    rfl
  · rw [List.getElem?_eq_none (by simp; omega), List.getElem?_eq_none (by simp; omega),
      if_neg (by omega)]
    rfl

/-- **A schedule** groups the keys. -/
theorem Holds.run {calls : List Call} (h : Holds policy b done pending)
    (hsorted : (offsets calls).Pairwise (· ≤ ·))
    (hc : ∀ o ∈ offsets calls, done.length ≤ o / kFilterBase) :
    ∃ b' done' pending', runCalls policy b calls = some b' ∧ Holds policy b' done' pending' ∧
      ∀ i, group done' pending' i = group done pending i ++ keysOf i done.length calls := by
  induction calls generalizing b done pending with
  | nil => exact ⟨b, done, pending, rfl, h, fun i => (List.append_nil _).symm⟩
  | cons call calls ih =>
    cases call with
    | startBlock o =>
      obtain ⟨ho, hsorted⟩ := List.pairwise_cons.1 hsorted
      have hle := hc o List.mem_cons_self
      obtain ⟨done₁, pending₁, hholds, hlen, hgroup⟩ :=
        h.startLoop hle (Nat.le_add_left _ done.length)
      have hc₁ : ∀ o' ∈ offsets calls, done₁.length ≤ o' / kFilterBase := by
        intro o' ho'
        rw [hlen]
        exact Nat.div_le_div_right (ho o' ho')
      obtain ⟨b', done', pending', hrun, hholds', hgroup'⟩ := ih hholds hsorted hc₁
      refine ⟨b', done', pending', ?_, hholds', fun i => ?_⟩
      · rw [runCalls, FilterBlockBuilder.startBlock, h.length_offsets, if_pos hle]
        exact hrun
      · rw [hgroup' i, hgroup i, hlen]
        rfl
    | addKey key =>
      obtain ⟨b', done', pending', hrun, hholds', hgroup'⟩ := ih (h.addKey key) hsorted hc
      refine ⟨b', done', pending', hrun, hholds', fun i => ?_⟩
      rw [hgroup' i, group_addKey, List.append_assoc, keysOf]
      split_ifs
      · rfl
      · rfl

theorem holds_new (policy : BloomFilterPolicy) : Holds policy .new [] [] := ⟨rfl, rfl, rfl, rfl⟩

/-! ## The block -/

/-- The words behind the filters: their offsets, and the end of the last one. -/
def words (filters : List (List Byte)) : List (BitVec 32) :=
  (starts 0 filters ++ [filters.flatten.length]).map (BitVec.ofNat 32)

def layout (coding : Coding) (filters : List (List Byte)) : Slice :=
  filters.flatten ++ ((words filters).flatMap coding.putFixed32 ++ [BitVec.ofNat 8 kFilterBaseLg])

/-- The groups whose filters are in the block. -/
def finished (done : List (List Slice)) (pending : List Slice) : List (List Slice) :=
  if pending = [] then done else done ++ [pending]

theorem Holds.finish (h : Holds policy b done pending) (coding : Coding) :
    b.finish policy coding = layout coding ((finished done pending).map (filterOf policy)) := by
  have hlayout : ∀ {b : FilterBlockBuilder} {done pending}, Holds policy b done pending →
      b.result ++ b.filterOffsets.flatMap coding.putFixed32 ++ coding.putFixed32
      (BitVec.ofNat 32 b.result.length) ++ [BitVec.ofNat 8 kFilterBaseLg] = layout coding
      (done.map (filterOf policy)) := by
    intro b done pending h
    rw [layout, words, List.map_append, List.flatMap_append, ← h.filterOffsets, ← h.result]
    simp only [List.map_cons, List.map_nil, List.flatMap_cons, List.flatMap_nil, List.append_nil,
      List.append_assoc]
  unfold FilterBlockBuilder.finish finished
  dsimp only
  cases pending with
  | nil =>
    have hnil : b.start = [] := h.start
    rw [if_neg (not_not.2 hnil), if_pos rfl]
    exact hlayout h
  | cons key keys =>
    have hne : b.start ≠ [] := by
      rw [h.start]
      exact List.cons_ne_nil _ _
    rw [if_pos hne, if_neg (List.cons_ne_nil _ _)]
    exact hlayout h.generateFilter

/-- A group with a key has its filter in the block. -/
theorem finished_of_mem {key : Slice} (hkey : key ∈ group done pending i) :
    (finished done pending)[i]? = some (group done pending i) := by
  unfold group at hkey ⊢
  rw [List.getD_eq_getElem?_getD] at hkey ⊢
  have hi : i < (done ++ [pending]).length := by
    by_contra hno
    rw [List.getElem?_eq_none (Nat.le_of_not_lt hno)] at hkey
    cases hkey
  rw [List.getElem?_eq_getElem hi] at hkey ⊢
  unfold finished
  split_ifs with hnil
  · have hlt : i < done.length := by
      by_contra hno
      have hlast : i = done.length := by
        rw [List.length_append, List.length_singleton] at hi
        omega
      subst hlast
      rw [Option.getD_some, List.getElem_append_right le_rfl] at hkey
      simp [hnil] at hkey
    rw [Option.getD_some, List.getElem_append_left hlt, List.getElem?_eq_getElem hlt]
  · rw [List.getElem?_eq_getElem hi]
    rfl

end

section
variable {policy : BloomFilterPolicy} {coding : Coding} {filters : List (List Byte)} {i : Nat}

theorem length_words : (words filters).length = filters.length + 1 := by
  rw [words, List.length_map, List.length_append, length_starts, List.length_singleton]

theorem length_flatMap_put (ws : List (BitVec 32)) :
    (ws.flatMap coding.putFixed32).length = 4 * ws.length := by
  induction ws with
  | nil => rfl
  | cons w ws ih =>
    rw [List.flatMap_cons, List.length_append, coding.length_put, ih, List.length_cons]
    omega

theorem length_layout : (layout coding filters).length = filters.flatten.length +
    (4 * filters.length + 5) := by
  rw [layout, List.length_append, List.length_append, length_flatMap_put, length_words,
    List.length_singleton]
  omega

variable (hsize : (layout coding filters).length < 2 ^ 32)
include hsize

/-- A word of the block. -/
theorem decode_layout (hi : i ≤ filters.length) : (coding.decodeFixed32
    (slice (layout coding filters) (filters.flatten.length + i * 4) 4)).toNat =
    (filters.take i).flatten.length := by
  have hword : (words filters)[i]? = some (BitVec.ofNat 32 (filters.take i).flatten.length) := by
    have hget := getElem?_starts (m := 0) hi
    rw [Nat.zero_add, Nat.zero_add] at hget
    rw [words, List.getElem?_map, hget]
    rfl
  obtain ⟨hlt, hword⟩ := List.getElem?_eq_some_iff.1 hword
  have hslice : slice (layout coding filters) (filters.flatten.length + i * 4) 4 = coding.putFixed32
    (words filters)[i] := by
    have hlt' : i < ((words filters).map coding.putFixed32).length := by rwa [List.length_map]
    have hpart := slice_flatten hlt' [BitVec.ofNat 8 kFilterBaseLg]
    have hoff : (((words filters).map coding.putFixed32).take i).flatten.length = i * 4 := by
      rw [← List.map_take, ← List.flatMap_def, length_flatMap_put, List.length_take]
      omega
    rw [hoff, List.getElem_map, coding.length_put, ← List.flatMap_def] at hpart
    rw [layout, ← hpart, slice, slice, List.drop_length_add_append]
  have hle : (filters.take i).flatten.length ≤ filters.flatten.length := by
    nth_rewrite 2 [← List.take_append_drop i filters]
    rw [List.flatten_append, List.length_append]
    omega
  rw [length_layout] at hsize
  rw [hslice, coding.decode_put, hword, BitVec.toNat_ofNat]
  exact Nat.mod_eq_of_lt (by omega)

/-- The reader of a block. -/
theorem new_layout : FilterBlockReader.new coding (layout coding filters) =
      ⟨layout coding filters, filters.flatten.length, filters.length, kFilterBaseLg⟩ := by
  have hlen : (layout coding filters).length = filters.flatten.length + (4 * filters.length + 5) :=
    length_layout
  have hlast : (layout coding filters).getD ((layout coding filters).length - 1) 0 =
    BitVec.ofNat 8 kFilterBaseLg := by
    rw [layout, ← List.append_assoc, List.length_append, List.length_singleton, Nat.add_sub_cancel,
      List.getD_eq_getElem?_getD, List.getElem?_append_right le_rfl, Nat.sub_self]
    rfl
  have hend := decode_layout hsize (le_refl filters.length)
  rw [List.take_length] at hend
  unfold FilterBlockReader.new
  dsimp only
  rw [if_neg (by omega), hlast, show (layout coding filters).length - 5 = filters.flatten.length +
    filters.length * 4 by omega, hend, if_neg (by omega)]
  congr 1
  omega

/-- **The reader** asks the filter of the offset. -/
theorem keyMayMatch_layout {o : Nat} (ho : o / kFilterBase = i) {filter : List Byte}
    (hi : filters[i]? = some filter) (key : Slice) :
    (FilterBlockReader.new coding (layout coding filters)).keyMayMatch policy coding o key =
      policy.keyMayMatch key filter := by
  obtain ⟨hlt, rfl⟩ := List.getElem?_eq_some_iff.1 hi
  have hindex : o >>> kFilterBaseLg = i := by
    rw [Nat.shiftRight_eq_div_pow, ← ho]
    rfl
  have hstart := decode_layout hsize (le_of_lt hlt)
  have hlimit := decode_layout hsize (Nat.succ_le_of_lt hlt)
  rw [length_flatten_take_succ hlt] at hlimit
  have hle : (filters.take i).flatten.length + filters[i].length ≤ filters.flatten.length := by
    rw [← length_flatten_take_succ hlt]
    nth_rewrite 2 [← List.take_append_drop (i + 1) filters]
    rw [List.flatten_append, List.length_append]
    omega
  rw [new_layout hsize]
  unfold FilterBlockReader.keyMayMatch
  dsimp only
  rw [hindex, if_pos hlt, Nat.add_assoc,
    show i * 4 + 4 = (i + 1) * 4 by
      omega, hstart, hlimit, if_pos ⟨by omega, hle⟩, Nat.add_sub_cancel_left, layout,
        slice_flatten hlt]

end

/-! ## Keys are found -/

section
variable {calls mid pre post : List Call} {i c o : Nat} {key : Slice}

theorem keysOf_addKeys (hmid : ∀ call ∈ mid, ∃ k, call = .addKey k) (hkey : .addKey key ∈ mid) :
    key ∈ keysOf i i (mid ++ post) := by
  induction mid with
  | nil => cases hkey
  | cons call mid ih =>
    obtain ⟨k, rfl⟩ := hmid call List.mem_cons_self
    rw [List.cons_append, keysOf, if_pos rfl]
    rcases List.mem_cons.1 hkey with heq | hkey
    · cases heq
      exact List.mem_cons_self
    · exact List.mem_cons_of_mem _ (ih (fun c hc => hmid c (List.mem_cons_of_mem _ hc)) hkey)

/-- A key that is added after `StartBlock` and before the next one belongs to the filter of the
offset. -/
theorem mem_keysOf (hmid : ∀ call ∈ mid, ∃ k, call = .addKey k) (hkey : .addKey key ∈ mid) :
    key ∈ keysOf (o / kFilterBase) c (pre ++ .startBlock o :: (mid ++ post)) := by
  induction pre generalizing c with
  | nil => exact keysOf_addKeys hmid hkey
  | cons call pre ih =>
    rw [List.cons_append]
    cases call with
    | startBlock o' => exact ih
    | addKey k =>
      rw [keysOf]
      split_ifs
      · exact List.mem_cons_of_mem _ ih
      · exact ih

end

/-- The block that a schedule makes. -/
theorem build_eq (policy : BloomFilterPolicy) (coding : Coding) {calls : List Call}
    (hsorted : (offsets calls).Pairwise (· ≤ ·)) :
    ∃ groups : List (List Slice), build policy coding calls =
      some (layout coding (groups.map (filterOf policy))) ∧
      ∀ i key, key ∈ keysOf i 0 calls → groups[i]? = some (keysOf i 0 calls) := by
  obtain ⟨b, done, pending, hrun, hholds, hgroup⟩ := (holds_new policy).run hsorted fun o _ =>
    Nat.zero_le _
  have hkeys : ∀ i, group done pending i = keysOf i 0 calls := by
    intro i
    rw [hgroup i]
    cases i with
    | zero => rfl
    | succ i => rfl
  refine ⟨finished done pending, ?_, fun i key hkey => ?_⟩
  · rw [build, hrun, Option.map_some, hholds.finish]
  · rw [← hkeys i] at hkey ⊢
    exact finished_of_mem hkey

/-- **No false negatives** in a filter block, as long as the number of keys in a filter is an
`int`. -/
theorem filterBlock_complete (hash : Slice → BitVec 32) (coding : Coding) {bitsPerKey : Nat}
    (hbits : bitsPerKey < 2 ^ 31) {calls : List Call} (hsorted : (offsets calls).Pairwise (· ≤ ·))
    (hcount : ∀ i, (keysOf i 0 calls).length < 2 ^ 31) :
    ∃ contents, build (newBloomFilterPolicy hash bitsPerKey) coding calls = some contents ∧
      (contents.length < 2 ^ 32 → ∀ pre o mid post key, calls = pre ++ .startBlock o ::
      (mid ++ post) → (∀ call ∈ mid, ∃ k, call = .addKey k) → .addKey key ∈ mid →
        (FilterBlockReader.new coding contents).keyMayMatch
        (newBloomFilterPolicy hash bitsPerKey) coding o key = true) := by
  obtain ⟨groups, hbuild, hgroups⟩ := build_eq (newBloomFilterPolicy hash bitsPerKey) coding hsorted
  refine ⟨_, hbuild, fun hsize pre o mid post key hcalls hmid hkey => ?_⟩
  have hmem : key ∈ keysOf (o / kFilterBase) 0 calls := by
    rw [hcalls]
    exact mem_keysOf hmid hkey
  have hget : (groups.map (filterOf (newBloomFilterPolicy hash bitsPerKey)))[o / kFilterBase]? =
      some (filterOf (newBloomFilterPolicy hash bitsPerKey)
      (keysOf (o / kFilterBase) 0 calls)) := by
    rw [List.getElem?_map, hgroups _ key hmem]
    rfl
  rw [keyMayMatch_layout hsize rfl hget, filterOf, if_neg (List.ne_nil_of_mem hmem),
    int32_natCast (hcount _)]
  exact BloomFilterPolicy.keyMayMatch_createFilter (probeCount_le bitsPerKey) hbits (hcount _) hmem

/-- Fixed-width words with the lowest byte first. -/
def littleEndian : Coding where
  putFixed32 x := encode 4 x.toNat
  decodeFixed32 l := BitVec.ofNat 32 (decode l)
  length_put x := length_encode 4 x.toNat
  decode_put x := by
    have hlt : x.toNat < 256 ^ 4 := x.isLt
    rw [decode_encode, Nat.mod_eq_of_lt hlt, BitVec.ofNat_toNat, BitVec.setWidth_eq]

/-- Two blocks in one filter. -/
def twoBlocks : List Call := [.startBlock 0, .addKey [1, 2], .startBlock 100, .addKey [3]]

theorem twoBlocks_found :
    ∃ contents, build (newBloomFilterPolicy (fun _ => 77) 10) littleEndian twoBlocks =
      some contents ∧
    (contents.length < 2 ^ 32 → (FilterBlockReader.new littleEndian contents).keyMayMatch
      (newBloomFilterPolicy (fun _ => 77) 10) littleEndian 100 [3] = true) := by
  have hcount : ∀ i, (keysOf i 0 twoBlocks).length < 2 ^ 31 := by
    intro i
    refine lt_of_le_of_lt (b := 2) ?_ (by norm_num)
    cases i with
    | zero => exact le_refl 2
    | succ i => exact Nat.zero_le 2
  have hsorted : (offsets twoBlocks).Pairwise (· ≤ ·) := by decide
  obtain ⟨contents, hbuild, hfound⟩ :=
    filterBlock_complete (fun _ => 77) littleEndian (show 10 < 2 ^ 31 by norm_num) hsorted hcount
  refine ⟨contents, hbuild, fun hsize => ?_⟩
  exact hfound hsize [.startBlock 0, .addKey [1, 2]] 100 [.addKey [3]] [] [3] rfl
    (fun call hcall => ⟨[3], List.mem_singleton.1 hcall⟩) List.mem_cons_self

/-! ## Too many keys -/

theorem Holds.addKeys {policy : BloomFilterPolicy} {b : FilterBlockBuilder}
    {done : List (List Slice)} {pending : List Slice} (h : Holds policy b done pending)
    (ks : List Slice) :
    ∃ b', runCalls policy b (ks.map .addKey) = some b' ∧ Holds policy b' done (pending ++ ks) := by
  induction ks generalizing b pending with
  | nil =>
    rw [List.append_nil]
    exact ⟨b, rfl, h⟩
  | cons k ks ih =>
    obtain ⟨b', hrun, hholds⟩ := ih (h.addKey k)
    rw [List.append_assoc, List.singleton_append] at hholds
    exact ⟨b', hrun, hholds⟩

/-- `2 ^ 31` times the empty key, in one block. -/
def manyKeys : List Call := .startBlock 0 :: (List.replicate (2 ^ 31) []).map .addKey

/-- The number of keys is negative as an `int`. -/
theorem filterOf_manyKeys :
    filterOf (newBloomFilterPolicy (fun _ => 0) 0)
      (List.replicate (2 ^ 31) []) = List.replicate 8 0 ++ [1] := by
  have hne : List.replicate (2 ^ 31) ([] : Slice) ≠ [] := by
    apply List.ne_nil_of_length_pos
    rw [List.length_replicate]
    norm_num
  have hint : int32 (List.replicate (2 ^ 31) ([] : Slice)).length = -2 ^ 31 := by
    rw [List.length_replicate]
    decide
  rw [filterOf, if_neg hne, hint, BloomFilterPolicy.createFilter_eq, List.nil_append,
    Int.toNat_of_nonpos (by norm_num), List.take_zero]
  rfl

theorem offsets_addKeys (ks : List Slice) : offsets (ks.map .addKey) = [] := by
  induction ks with
  | nil => rfl
  | cons k ks ih => exact ih

/-- A block with `2 ^ 31` keys in one filter does not know any of them. -/
theorem manyKeys_lost :
    ∃ contents, build (newBloomFilterPolicy (fun _ => 0) 0) littleEndian manyKeys = some contents ∧
      contents.length < 2 ^ 32 ∧ (offsets manyKeys).Pairwise (· ≤ ·) ∧
    (∃ mid, manyKeys = .startBlock 0 :: mid ∧ (∀ call ∈ mid, ∃ k, call = .addKey k) ∧
      .addKey [] ∈ mid) ∧
    (FilterBlockReader.new littleEndian contents).keyMayMatch (newBloomFilterPolicy (fun _ => 0) 0)
      littleEndian 0 [] = false := by
  obtain ⟨b, hrun, hholds⟩ := (holds_new (newBloomFilterPolicy (fun _ => 0) 0)).addKeys
    (List.replicate (2 ^ 31) [])
  have hmem : ([] : Slice) ∈ List.replicate (2 ^ 31) [] := List.mem_replicate.2 ⟨by norm_num, rfl⟩
  have hfinished : finished [] ([] ++ List.replicate (2 ^ 31) ([] : Slice)) =
    [List.replicate (2 ^ 31) []] := by
    rw [finished, List.nil_append, if_neg (List.ne_nil_of_mem hmem), List.nil_append]
  have hcontents : b.finish (newBloomFilterPolicy (fun _ => 0) 0) littleEndian =
      layout littleEndian [List.replicate 8 0 ++ [1]] := by
    rw [hholds.finish, hfinished, List.map_singleton, filterOf_manyKeys]
  have hsize : (layout littleEndian [List.replicate 8 0 ++ [1]]).length < 2 ^ 32 := by
    rw [length_layout]
    decide
  refine ⟨layout littleEndian [List.replicate 8 0 ++ [1]], ?_, hsize, ?_,
    ⟨_, rfl, ?_, List.mem_map_of_mem hmem⟩, ?_⟩
  · have hstart : FilterBlockBuilder.new.startBlock (newBloomFilterPolicy (fun _ => 0) 0) 0 =
      some .new := rfl
    rw [build, manyKeys, runCalls, hstart, Option.bind_some, hrun, Option.map_some, hcontents]
  · rw [manyKeys, offsets, offsets_addKeys]
    exact List.pairwise_singleton _ _
  · intro call hcall
    obtain ⟨k, -, rfl⟩ := List.mem_map.1 hcall
    exact ⟨k, rfl⟩
  · rw [keyMayMatch_layout hsize (show 0 / kFilterBase = 0 from rfl) rfl]
    decide

end Leveldb
