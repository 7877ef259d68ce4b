import DsAlgor.Lib.Circular
import DsAlgor.Lib.Signed
import Mathlib.Tactic

/-!
# The hash table of census

`hash_table.c`. A key is the union of an integer and a pointer, 64 bits that the key type tells how
to read. A chain is the list of its entries, and an entry locator names an entry by its position in
the chain. The array of buckets is a function of the index. What `gpr_malloc` returns holds
anything: `create` takes what it finds in the two fields that it does not set. The deleters of the
options only free memory and are left out.

The abstract table is a function from keys to data, which treats equal keys alike (`Op.apply`).
-/

namespace CensusHt

open Circular Signed

abbrev Key := UInt64

inductive KeyType where
  | uint64
  | pointer
  deriving DecidableEq

/-- `census_ht_option`, with what `check_options` asserts of the number of buckets. -/
structure Options where
  keyType : KeyType
  numBuckets : Nat
  hash : Key → UInt64
  compareKeys : Key → Key → Int
  pos : 0 < numBuckets
  int32 : numBuckets < 2 ^ 31

namespace Options

def hashOf (opt : Options) (key : Key) : UInt64 :=
  match opt.keyType with
  | .uint64 => key
  | .pointer => opt.hash key

def keysMatch (opt : Options) (p key : Key) : Bool :=
  match opt.keyType with
  | .uint64 => p = key
  | .pointer => opt.compareKeys p key = 0

/-- The functions of the options respect a notion of equal keys. -/
def Lawful (opt : Options) : Prop :=
  opt.keyType = .pointer →
    (Equivalence fun a b => opt.compareKeys a b = 0) ∧ ∀ a b, opt.compareKeys a b = 0 →
    opt.hash a = opt.hash b

end Options

structure Entry (D : Type) where
  key : Key
  data : D

structure Bucket (D : Type) where
  chain : List (Entry D)
  prevNonEmptyBucket : Int
  nextNonEmptyBucket : Int

structure Table (D : Type) where
  size : Nat
  buckets : Int → Bucket D
  firstNonEmptyBucket : Int
  lastNonEmptyBucket : Int
  options : Options

structure EntryLocator where
  bucketIdx : Int
  isFirstInChain : Bool
  found : Bool
  prevEntry : Nat

variable {D : Type}

/-- `census_ht_create`; the memory holds `first` and `last` where the two indices are. -/
def create (option : Options) (first last : Int) : Table D :=
  ⟨0, fun _ => ⟨[], -1, -1⟩, first, last, option⟩

/-- The loop of `ht_find`: the position of the entry before the one with the key. -/
def scan (opt : Options) (key : Key) : Nat → List (Entry D) → Option Nat
  | _, [] => none
  | pos, e :: es => if opt.keysMatch e.key key then some pos else scan opt key (pos + 1) es

namespace Table

def chain (t : Table D) (i : Int) : List (Entry D) := (t.buckets i).chain

def setChain (t : Table D) (i : Int) (chain : List (Entry D)) : Table D :=
  { t with buckets := Function.update t.buckets i { t.buckets i with chain := chain } }

def setPrev (t : Table D) (i idx : Int) : Table D :=
  { t with buckets := Function.update t.buckets i { t.buckets i with prevNonEmptyBucket := idx } }

def setNext (t : Table D) (i idx : Int) : Table D :=
  { t with buckets := Function.update t.buckets i { t.buckets i with nextNonEmptyBucket := idx } }

def findBucketIdx (t : Table D) (key : Key) : Int :=
  ((t.options.hashOf key).toNat % t.options.numBuckets : Nat)

def htFind (t : Table D) (key : Key) : EntryLocator :=
  let loc : EntryLocator := ⟨0, false, false, 0⟩
  let idx := t.findBucketIdx key
  match t.chain idx with
  | [] => loc
  | ptr :: es =>
    if t.options.keysMatch ptr.key key then
      { loc with bucketIdx := idx, isFirstInChain := true, found := true }
    else
      match scan t.options key 0 es with
      | some prev => ⟨idx, false, true, prev⟩
      | none => loc

/-- The position in the chain of the entry that a locator names. -/
def position (loc : EntryLocator) : Nat := if loc.isFirstInChain then 0 else loc.prevEntry + 1

/-- `census_ht_find`, where `null` is `NULL`. -/
def find (null : D) (t : Table D) (key : Key) : D :=
  let loc := t.htFind key
  if !loc.found then null
  else (((t.chain loc.bucketIdx)[position loc]?).map Entry.data).getD null

/-- The part of `census_ht_insert` that links in the bucket `idx`, for the first entry of the table
and for the first entry of the bucket. -/
def link (t : Table D) (idx : Int) : Table D :=
  if t.size = 0 then
    let t := (t.setNext idx (-1)).setPrev idx (-1)
    { t with firstNonEmptyBucket := idx, lastNonEmptyBucket := idx }
  else if (t.chain idx).isEmpty then
    let t := t.setNext t.lastNonEmptyBucket idx
    let t := t.setPrev idx t.lastNonEmptyBucket
    let t := t.setNext idx (-1)
    { t with lastNonEmptyBucket := idx }
  else t

def insert (t : Table D) (key : Key) (data : D) : Table D :=
  let idx := t.findBucketIdx key
  let loc := t.htFind key
  if loc.found then
    t.setChain loc.bucketIdx ((t.chain loc.bucketIdx).modify (position loc) fun ptr =>
      { ptr with data := data })
  else
    let t := t.link idx
    let t := t.setChain idx (⟨key, data⟩ :: t.chain idx)
    { t with size := t.size + 1 }

/-- The bucket `i` leaves the list of the buckets that are not empty. -/
def unlink (t : Table D) (i : Int) : Table D :=
  let prev := (t.buckets i).prevNonEmptyBucket
  let next := (t.buckets i).nextNonEmptyBucket
  let t := if prev ≠ -1 then t.setNext prev next else { t with firstNonEmptyBucket := next }
  if next ≠ -1 then t.setPrev next prev else { t with lastNonEmptyBucket := prev }

def erase (t : Table D) (key : Key) : Table D :=
  let loc := t.htFind key
  if !loc.found then t
  else
    let t := { t with size := t.size - 1 }
    if loc.isFirstInChain then
      let t := if (t.chain loc.bucketIdx).tail.isEmpty then t.unlink loc.bucketIdx else t
      t.setChain loc.bucketIdx (t.chain loc.bucketIdx).tail
    else t.setChain loc.bucketIdx ((t.chain loc.bucketIdx).eraseIdx (loc.prevEntry + 1))

/-- `for (; ptr != NULL; ptr = ptr->next)`: the entries of a chain are written to `ret[i]`, which is
an array of `size` entries; `i` is an `int`. -/
def writeChain (size : Nat) :
    List (Entry D) → Int → List (Entry D) → Except Undefined (Int × List (Entry D))
  | [], i, ret => return (i, ret)
  | ptr :: es, i, ret =>
    if i < size then do writeChain size es (← add i 1) (ret ++ [ptr])
    else .error (.fault .outOfBounds)

/-- `while (idx >= 0)`: the entries that are written, within a number of rounds. -/
def collect (t : Table D) : Nat → Int → Int → List (Entry D) → Except Undefined (List (Entry D))
  | 0, _, _, _ => .error (.fault .loop)
  | rounds + 1, idx, i, ret =>
    if 0 ≤ idx then do
      let (i, ret) ← writeChain t.size (t.chain idx) i ret
      t.collect rounds (t.buckets idx).nextNonEmptyBucket i ret
    else return ret

/-- `census_ht_get_all_elements`. A list without repetitions has at most as many buckets as the
table. -/
def getAllElements (t : Table D) : Except Undefined (List (Entry D)) :=
  if t.size = 0 then return []
  else t.collect (t.options.numBuckets + 1) t.firstNonEmptyBucket 0 []

end Table

/-! ## The abstract table -/

inductive Op (D : Type) where
  | insert (key : Key) (data : D)
  | erase (key : Key)
  | find (key : Key)

def Op.run (t : Table D) : Op D → Table D
  | insert key data => t.insert key data
  | erase key => t.erase key
  | find _ => t

/-- What an operation does to the map from keys to data. -/
def Op.apply (opt : Options) (M : Key → Option D) : Op D → Key → Option D
  | insert key data => fun k => if opt.keysMatch key k then some data else M k
  | erase key => fun k => if opt.keysMatch key k then none else M k
  | find _ => M

def Op.IsInsert : Op D → Prop
  | insert _ _ => True
  | _ => False

namespace Table

/-- The bucket after `i` in the list; the list starts and ends at `-1`. -/
def next (t : Table D) (i : Int) : Int :=
  if i = -1 then t.firstNonEmptyBucket else (t.buckets i).nextNonEmptyBucket

def prev (t : Table D) (i : Int) : Int :=
  if i = -1 then t.lastNonEmptyBucket else (t.buckets i).prevNonEmptyBucket

end Table

/-- The list of the buckets, from the first to the last one, holds those that are not empty, once
each. -/
structure Listed (t : Table D) (bs : List Int) : Prop where
  circular : Circular t.next t.prev (-1) bs
  nodup : bs.Nodup
  mem : ∀ i, i ∈ bs ↔ (0 ≤ i ∧ i < t.options.numBuckets) ∧ t.chain i ≠ []

/-- Each key of the map with its data once, and nothing else. -/
structure Enumerates (opt : Options) (M : Key → Option D) (L : List (Entry D)) : Prop where
  once : L.Pairwise fun a b => opt.keysMatch a.key b.key = false
  mem : ∀ k d, M k = some d ↔ ∃ e ∈ L, opt.keysMatch e.key k = true ∧ e.data = d

/-- An `int` counts the keys of the map. -/
def Few (opt : Options) (M : Key → Option D) : Prop := ∃ L, Enumerates opt M L ∧ L.length ≤ intMax

/-- The table is the map: `find`, the size, the list of the buckets and the enumeration. -/
structure Right (null : D) (t : Table D) (M : Key → Option D) : Prop where
  find : ∀ k, t.find null k = (M k).getD null
  listed : ∃ bs, Listed t bs
  elements : ∃ L, t.getAllElements = .ok L ∧ L.length = t.size ∧ Enumerates t.options M L

/-! ## The parts of the hash table

Equal keys have equal hashes (`Options.Lawful`). What a write changes of the chains and of the
links; what `ht_find` says about the chain of a key (`Located`); and how a bucket enters and leaves
the list of the buckets that are not empty (`Listed.add`, `Listed.unlink`).
-/

variable {D : Type}

/-! ## Equal keys -/

section
variable {opt : Options} {a b c : Key}

theorem Options.Lawful.refl (h : opt.Lawful) (a : Key) : opt.keysMatch a a = true := by
  unfold Options.keysMatch
  cases hk : opt.keyType with
  | uint64 => exact decide_eq_true rfl
  | pointer => exact decide_eq_true ((h hk).1.refl a)

theorem Options.Lawful.symm (h : opt.Lawful) (hab : opt.keysMatch a b = true) :
    opt.keysMatch b a = true := by
  unfold Options.keysMatch at hab ⊢
  cases hk : opt.keyType with
  | uint64 =>
    rw [hk] at hab
    exact decide_eq_true (of_decide_eq_true hab).symm
  | pointer =>
    rw [hk] at hab
    exact decide_eq_true ((h hk).1.symm (of_decide_eq_true hab))

theorem Options.Lawful.trans (h : opt.Lawful) (hab : opt.keysMatch a b = true)
    (hbc : opt.keysMatch b c = true) :
    opt.keysMatch a c = true := by
  unfold Options.keysMatch at hab hbc ⊢
  cases hk : opt.keyType with
  | uint64 =>
    rw [hk] at hab hbc
    exact decide_eq_true ((of_decide_eq_true hab).trans (of_decide_eq_true hbc))
  | pointer =>
    rw [hk] at hab hbc
    exact decide_eq_true ((h hk).1.trans (of_decide_eq_true hab) (of_decide_eq_true hbc))

theorem Options.Lawful.hashOf_eq (h : opt.Lawful) (hab : opt.keysMatch a b = true) :
    opt.hashOf a = opt.hashOf b := by
  unfold Options.keysMatch at hab
  unfold Options.hashOf
  cases hk : opt.keyType with
  | uint64 =>
    rw [hk] at hab
    exact of_decide_eq_true hab
  | pointer =>
    rw [hk] at hab
    exact (h hk).2 a b (of_decide_eq_true hab)

/-- Equal keys match the same keys. -/
theorem Options.Lawful.match_congr (h : opt.Lawful) (hab : opt.keysMatch a b = true) (c : Key) :
    opt.keysMatch c a = opt.keysMatch c b := by
  rw [Bool.eq_iff_iff]
  exact ⟨fun hc => h.trans hc hab, fun hc => h.trans hc (h.symm hab)⟩

end

/-! ## Writing to the table -/

section
variable {t : Table D} {i j idx : Int} {c : List (Entry D)}

@[simp] theorem options_setChain : (t.setChain i c).options = t.options := rfl
@[simp] theorem options_setPrev : (t.setPrev i idx).options = t.options := rfl
@[simp] theorem options_setNext : (t.setNext i idx).options = t.options := rfl
@[simp] theorem size_setChain : (t.setChain i c).size = t.size := rfl
@[simp] theorem size_setPrev : (t.setPrev i idx).size = t.size := rfl
@[simp] theorem size_setNext : (t.setNext i idx).size = t.size := rfl

@[simp] theorem chain_setChain : (t.setChain i c).chain = Function.update t.chain i c := by
  funext j
  unfold Table.chain Table.setChain
  dsimp only
  by_cases hj : j = i
  · rw [hj, Function.update_self, Function.update_self]
  · rw [Function.update_of_ne hj, Function.update_of_ne hj]

@[simp] theorem chain_setPrev : (t.setPrev i idx).chain = t.chain := by
  funext j
  unfold Table.chain Table.setPrev
  dsimp only
  by_cases hj : j = i
  · rw [hj, Function.update_self]
  · rw [Function.update_of_ne hj]

@[simp] theorem chain_setNext : (t.setNext i idx).chain = t.chain := by
  funext j
  unfold Table.chain Table.setNext
  dsimp only
  by_cases hj : j = i
  · rw [hj, Function.update_self]
  · rw [Function.update_of_ne hj]

/-- A write to the bucket `i` that leaves its index `f`, read with `g` at `-1`. -/
theorem read_update {α : Type} {f : Bucket D → α} {g : α} {b : Bucket D}
    (hb : f b = f (t.buckets i)) :
    (if j = -1 then g else f (Function.update t.buckets i b j)) = if j = -1 then g else f
      (t.buckets j) := by
  by_cases hj : j = i
  · rw [hj, Function.update_self, hb]
  · rw [Function.update_of_ne hj]

@[simp] theorem next_setChain : (t.setChain i c).next = t.next := funext fun _ => read_update rfl

@[simp] theorem prev_setChain : (t.setChain i c).prev = t.prev := funext fun _ => read_update rfl

@[simp] theorem next_setPrev : (t.setPrev i idx).next = t.next := funext fun _ => read_update rfl

@[simp] theorem prev_setNext : (t.setNext i idx).prev = t.prev := funext fun _ => read_update rfl

theorem next_setNext (hi : i ≠ -1) : (t.setNext i idx).next = Function.update t.next i idx := by
  funext j
  unfold Table.next Table.setNext
  dsimp only
  by_cases hj : j = i
  · rw [hj, Function.update_self, if_neg hi, Function.update_self]
  · rw [Function.update_of_ne hj, Function.update_of_ne hj]

theorem prev_setPrev (hi : i ≠ -1) : (t.setPrev i idx).prev = Function.update t.prev i idx := by
  funext j
  unfold Table.prev Table.setPrev
  dsimp only
  by_cases hj : j = i
  · rw [hj, Function.update_self, if_neg hi, Function.update_self]
  · rw [Function.update_of_ne hj, Function.update_of_ne hj]

theorem next_setFirst : { t with firstNonEmptyBucket := idx }.next = Function.update t.next
    (-1) idx := by
  funext j
  unfold Table.next
  by_cases hj : j = -1
  · rw [hj, Function.update_self, if_pos rfl]
  · rw [Function.update_of_ne hj, if_neg hj, if_neg hj]

theorem prev_setLast : { t with lastNonEmptyBucket := idx }.prev = Function.update t.prev
    (-1) idx := by
  funext j
  unfold Table.prev
  by_cases hj : j = -1
  · rw [hj, Function.update_self, if_pos rfl]
  · rw [Function.update_of_ne hj, if_neg hj, if_neg hj]

end

/-! ## The search in a chain -/

section
variable {t : Table D} {opt : Options} {key k : Key}

theorem scan_eq_none {es : List (Entry D)} {pos : Nat} (h : scan opt key pos es = none) :
    ∀ e ∈ es, opt.keysMatch e.key key = false := by
  induction es generalizing pos with
  | nil => nofun
  | cons e es ih =>
    unfold scan at h
    by_cases hmatch : opt.keysMatch e.key key = true
    · rw [if_pos hmatch] at h
      cases h
    · rw [if_neg hmatch] at h
      exact List.forall_mem_cons.2 ⟨Bool.not_eq_true _ ▸ hmatch, ih h⟩

theorem scan_eq_some {es : List (Entry D)} {pos prev : Nat} (h : scan opt key pos es = some prev) :
    ∃ (L : List (Entry D)) (e : Entry D) (R : List (Entry D)), es = L ++ e :: R ∧
      opt.keysMatch e.key key = true ∧ prev = pos + L.length := by
  induction es generalizing pos with
  | nil => cases h
  | cons e es ih =>
    unfold scan at h
    by_cases hmatch : opt.keysMatch e.key key = true
    · rw [if_pos hmatch] at h
      cases h
      exact ⟨[], e, es, rfl, hmatch, rfl⟩
    · rw [if_neg hmatch] at h
      obtain ⟨L, e', R, rfl, hmatch', rfl⟩ := ih h
      exact ⟨e :: L, e', R, rfl, hmatch', by rw [List.length_cons]; omega⟩

/-- What a locator says about the chain of the key. -/
inductive Located (t : Table D) (key : Key) (loc : EntryLocator) : Prop where
  | absent (found : loc.found = false) (none : ∀ e ∈ t.chain (t.findBucketIdx key),
      t.options.keysMatch e.key key = false)
  | first (e : Entry D) (R : List (Entry D)) (found : loc.found = true)
      (idx : loc.bucketIdx = t.findBucketIdx key) (first : loc.isFirstInChain = true)
      (chain : t.chain (t.findBucketIdx key) = e :: R)
      (matches' : t.options.keysMatch e.key key = true)
  | later (p : Entry D) (L : List (Entry D)) (e : Entry D) (R : List (Entry D))
      (found : loc.found = true) (idx : loc.bucketIdx = t.findBucketIdx key)
      (first : loc.isFirstInChain = false)
      (prev : loc.prevEntry = L.length) (chain : t.chain (t.findBucketIdx key) = p :: L ++ e :: R)
      (matches' : t.options.keysMatch e.key key = true)

theorem located (t : Table D) (key : Key) : Located t key (t.htFind key) := by
  unfold Table.htFind
  dsimp only
  cases hchain : t.chain (t.findBucketIdx key) with
  | nil => exact .absent rfl (by rw [hchain]; nofun)
  | cons p es =>
    dsimp only
    by_cases hmatch : t.options.keysMatch p.key key = true
    · rw [if_pos hmatch]
      exact .first p es rfl rfl rfl hchain hmatch
    · rw [if_neg hmatch]
      cases hscan : scan t.options key 0 es with
      | none =>
        refine .absent rfl ?_
        rw [hchain]
        exact List.forall_mem_cons.2 ⟨Bool.not_eq_true _ ▸ hmatch, scan_eq_none hscan⟩
      | some prev =>
        obtain ⟨L, e, R, rfl, hmatch', hprev⟩ := scan_eq_some hscan
        exact .later p L e R rfl rfl rfl (hprev.trans (Nat.zero_add _)) hchain hmatch'

/-- A found entry, by its position in the chain. -/
theorem Located.found_iff {loc : EntryLocator} (h : Located t key loc) (hfound : loc.found = true) :
    ∃ L e R, loc.bucketIdx = t.findBucketIdx key ∧ t.chain (t.findBucketIdx key) = L ++ e :: R ∧
      t.options.keysMatch e.key key = true ∧ Table.position loc = L.length ∧
      (loc.isFirstInChain = true ↔ L = []) ∧
      (loc.isFirstInChain = false → loc.prevEntry + 1 = L.length) := by
  cases h with
  | absent found => rw [found] at hfound; cases hfound
  | first e R found idx first chain matches' =>
    refine ⟨[], e, R, idx, chain, matches', ?_, iff_of_true first rfl, fun hf => ?_⟩
    · unfold Table.position
      rw [if_pos first]
      rfl
    · rw [first] at hf
      cases hf
  | later p L e R found idx first prev chain matches' =>
    refine ⟨p :: L, e, R, idx, chain, matches', ?_, iff_of_false (by rw [first]; nofun) nofun,
      fun _ => ?_⟩
    · unfold Table.position
      rw [if_neg (by rw [first]; nofun), prev, List.length_cons]
    · rw [prev, List.length_cons]

end

/-! ## The bucket of a key -/

section
variable {t t' : Table D} {bs : List Int} {key k : Key} {i : Int}

theorem findBucketIdx_range (t : Table D) (key : Key) :
    0 ≤ t.findBucketIdx key ∧ t.findBucketIdx key < t.options.numBuckets := by
  unfold Table.findBucketIdx
  have := Nat.mod_lt (t.options.hashOf key).toNat t.options.pos
  omega

theorem findBucketIdx_congr (law : t.options.Lawful) (h : t.options.keysMatch key k = true) :
    t.findBucketIdx key = t.findBucketIdx k := by
  unfold Table.findBucketIdx
  rw [law.hashOf_eq h]

theorem findBucketIdx_options (h : t'.options = t.options) (key : Key) :
    t'.findBucketIdx key = t.findBucketIdx key := by
  unfold Table.findBucketIdx
  rw [h]

theorem Listed.ne_neg (h : Listed t bs) (hi : i ∈ bs) : i ≠ -1 := by
  have := ((h.mem i).1 hi).1.1
  omega

theorem Listed.nodup_cons (h : Listed t bs) : (-1 :: bs).Nodup :=
  List.nodup_cons.2 ⟨fun hmem => h.ne_neg hmem rfl, h.nodup⟩

/-! ## The list of the buckets -/

theorem Listed.congr (h : Listed t bs) (hopt : t'.options = t.options) (hnext : t'.next = t.next)
    (hprev : t'.prev = t.prev) (hchain : ∀ j, t'.chain j ≠ [] ↔ t.chain j ≠ []) : Listed t' bs := by
  refine ⟨?_, h.nodup, fun j => ?_⟩
  · rw [hnext, hprev]
    exact h.circular
  · rw [hopt, hchain, h.mem]

/-- A bucket that is not in the list yet is linked in at its end. -/
theorem Listed.add (h : Listed t bs) (hopt : t'.options = t.options)
    (hi : 0 ≤ i ∧ i < t.options.numBuckets) (hempty : t.chain i = [])
    (hchain : ∀ j ≠ i, t'.chain j = t.chain j) (hself : t'.chain i ≠ [])
    (hnext : t'.next = Function.update (Function.update t.next (lastOr (-1) bs) i) i (-1))
    (hprev : t'.prev = Function.update (Function.update t.prev i (lastOr (-1) bs)) (-1) i) :
    Listed t' (bs ++ [i]) := by
  have hnot : i ∉ bs := fun hmem => ((h.mem i).1 hmem).2 hempty
  have hne : i ≠ -1 := by omega
  have hx : i ∉ -1 :: bs := fun hmem => (List.mem_cons.1 hmem).elim hne hnot
  have hlast : lastOr (-1) bs ≠ i := fun heq => hx (heq ▸ lastOr_mem)
  refine ⟨?_, ?_, fun j => ?_⟩
  · have hcirc := h.circular
    rw [← List.append_nil bs] at hcirc
    refine hcirc.insert (by rw [List.append_nil]; exact h.nodup_cons)
      (by rw [List.append_nil]; exact hx) ?_ ?_ ?_ ?_ (fun q hq hql => ?_) fun q hq hqh => ?_
    · rw [hnext, Function.update_self, headOr_nil]
    · rw [hprev, Function.update_of_ne hne, Function.update_self]
    · rw [hnext, Function.update_of_ne hlast, Function.update_self]
    · rw [hprev, headOr_nil, Function.update_self]
    · rw [hnext, Function.update_of_ne hq, Function.update_of_ne hql]
    · rw [headOr_nil] at hqh
      rw [hprev, Function.update_of_ne hqh, Function.update_of_ne hq]
  · rw [List.nodup_append]
    refine ⟨h.nodup, List.nodup_singleton _, fun a ha b hb heq => ?_⟩
    rw [List.mem_singleton.1 hb] at heq
    exact hnot (heq ▸ ha)
  · rw [List.mem_append, List.mem_singleton, hopt]
    by_cases hj : j = i
    · rw [hj]
      exact iff_of_true (.inr rfl) ⟨hi, hself⟩
    · rw [hchain j hj, h.mem, or_iff_left hj]

theorem next_unlink (hi : i ≠ -1) : (t.unlink i).next = Function.update t.next (t.prev i)
    (t.next i) := by
  have hprev : (t.buckets i).prevNonEmptyBucket = t.prev i := (if_neg hi).symm
  have hnext : (t.buckets i).nextNonEmptyBucket = t.next i := (if_neg hi).symm
  unfold Table.unlink
  dsimp only
  rw [hprev, hnext]
  have hfirst : (if t.prev i ≠ -1 then t.setNext (t.prev i) (t.next i) else
      { t with firstNonEmptyBucket := t.next i }).next = Function.update t.next (t.prev i)
        (t.next i) := by
    by_cases hp : t.prev i = -1
    · rw [if_neg (not_not.2 hp), hp]
      exact next_setFirst
    · rw [if_pos hp]
      exact next_setNext hp
  by_cases hn : t.next i = -1
  · rw [if_neg (not_not.2 hn)]
    exact hfirst
  · rw [if_pos hn, next_setPrev]
    exact hfirst

theorem prev_unlink (hi : i ≠ -1) : (t.unlink i).prev = Function.update t.prev (t.next i)
    (t.prev i) := by
  have hprev : (t.buckets i).prevNonEmptyBucket = t.prev i := (if_neg hi).symm
  have hnext : (t.buckets i).nextNonEmptyBucket = t.next i := (if_neg hi).symm
  unfold Table.unlink
  dsimp only
  rw [hprev, hnext]
  have hfirst : (if t.prev i ≠ -1 then t.setNext (t.prev i) (t.next i) else
      { t with firstNonEmptyBucket := t.next i }).prev = t.prev := by
    split_ifs
    · exact prev_setNext
    · rfl
  by_cases hn : t.next i = -1
  · rw [if_neg (not_not.2 hn), prev_setLast, hfirst, hn]
  · rw [if_pos hn, prev_setPrev hn, hfirst]

theorem chain_unlink : (t.unlink i).chain = t.chain := by
  unfold Table.unlink
  dsimp only
  split_ifs
  · rw [chain_setPrev, chain_setNext]
  · exact chain_setPrev
  · exact chain_setNext
  · rfl

theorem size_unlink : (t.unlink i).size = t.size := by
  unfold Table.unlink
  dsimp only
  split_ifs <;> rfl

theorem options_unlink : (t.unlink i).options = t.options := by
  unfold Table.unlink
  dsimp only
  split_ifs <;> rfl

/-- A bucket whose chain is empty now leaves the list. -/
theorem Listed.unlink {A B : List Int} (h : Listed t (A ++ i :: B)) (hopt : t'.options = t.options)
    (hchain : ∀ j ≠ i, t'.chain j = t.chain j) (hself : t'.chain i = [])
    (hnext : t'.next = (t.unlink i).next)
    (hprev : t'.prev = (t.unlink i).prev) : Listed t' (A ++ B) := by
  have hi : i ∈ A ++ i :: B := List.mem_append_right _ List.mem_cons_self
  have hne := h.ne_neg hi
  have hcirc := h.circular
  rw [next_unlink hne, hcirc.next_mid, hcirc.prev_mid] at hnext
  rw [prev_unlink hne, hcirc.next_mid, hcirc.prev_mid] at hprev
  have hnodup := List.nodup_cons.1 (List.nodup_middle.1 h.nodup)
  refine ⟨?_, hnodup.2, fun j => ?_⟩
  · refine hcirc.remove h.nodup_cons ?_ ?_ (fun q _ hq => ?_) fun q _ hq => ?_
    · rw [hnext, Function.update_self]
    · rw [hprev, Function.update_self]
    · rw [hnext, Function.update_of_ne hq]
    · rw [hprev, Function.update_of_ne hq]
  · rw [hopt]
    by_cases hj : j = i
    · rw [hj]
      exact iff_of_false hnodup.1 fun hmem => hmem.2 hself
    · rw [hchain j hj, ← h.mem, List.perm_middle.mem_iff, List.mem_cons, or_iff_right hj]

theorem length_flatMap_update {α : Type} (f : Int → List α) (hnodup : bs.Nodup) (hi : i ∈ bs)
    (c : List α) :
    (bs.flatMap (Function.update f i c)).length + (f i).length = (bs.flatMap f).length +
      c.length := by
  obtain ⟨A, B, rfl⟩ := List.append_of_mem hi
  have hnot := (List.nodup_cons.1 (List.nodup_middle.1 hnodup)).1
  have hsame : ∀ X : List Int, i ∉ X → X.flatMap (Function.update f i c) = X.flatMap f := by
    intro X hX
    exact List.flatMap_congr fun j hj => Function.update_of_ne
      (fun (heq : j = i) => hX (heq ▸ hj)) _ _
  rw [List.flatMap_append, List.flatMap_append, List.flatMap_cons, List.flatMap_cons,
    Function.update_self, hsame A fun hmem => hnot (List.mem_append_left _ hmem),
    hsame B fun hmem => hnot (List.mem_append_right _ hmem)]
  simp only [List.length_append]
  omega

/-! ## Linking in -/

theorem chain_link : (t.link i).chain = t.chain := by
  unfold Table.link
  dsimp only
  split_ifs
  · exact chain_setPrev.trans chain_setNext
  · exact chain_setNext.trans (chain_setPrev.trans chain_setNext)
  · rfl

theorem size_link : (t.link i).size = t.size := by
  unfold Table.link
  dsimp only
  split_ifs <;> rfl

theorem options_link : (t.link i).options = t.options := by
  unfold Table.link
  dsimp only
  split_ifs <;> rfl

end

end CensusHt
