import DsAlgor.Lib.CInt
import DsAlgor.Lib.Circular
import DsAlgor.Lib.Recency
import Mathlib.Data.List.AList
import Mathlib.Tactic

/-!
# The cache with least recently used keys

The class `LRUCache` of `lru.cpp`. The entries are the array `entries` and the two sentinels `head`
and `tail`; what a new entry holds is whatever the memory held. `NULL` of the type of the data is a
parameter. A `hash_map` is an association list, and its `operator[]` inserts `NULL` for a missing
key. A vector is a list, its back the end.

The linked list holds the most recently used keys in the order of use (`Inv`). Two things are not as
they should be. The loop of the constructor counts in an `int`, so that it stops after `2 ^ 31`
entries (`freeLoop_eq`): the cache is what it says for all smaller sizes (`lru_iff`). And `get`
leaves a `NULL` in the map for each key it does not find, so that the map has room for the cached
keys and these (`mapping_bounded_iff`).
-/

namespace LRUCache

open Recency

inductive Ptr where
  | null
  | head
  | tail
  | entry (i : Nat)
  deriving DecidableEq

/-- The fields of the entries. -/
structure Memory (K T : Type) where
  key : Ptr → K
  data : Ptr → T
  prev : Ptr → Ptr
  next : Ptr → Ptr

structure Cache (K T : Type) extends Memory K T where
  mapping : AList fun _ : K => Ptr
  freeEntries : List Ptr

variable {K T : Type} [DecidableEq K]

/-- `i` as a `size_t`. -/
def sizeT (i : Int) : Int := i % 2 ^ 64

/-- `for (int i=0; i<size; i++) _freeEntries.push_back(entries+i)`; `size + 1` rounds are enough. -/
def freeLoop (size : Nat) : Nat → Int → List Ptr → List Ptr
  | 0, _, free => free
  | rounds + 1, i, free =>
    if sizeT i < size then freeLoop size rounds (int32 (i + 1)) (free ++ [.entry i.toNat]) else free

/-- The constructor. An entry has two pointers at least, and there is no array of more than `2 ^ 64`
bytes. -/
def create (mem : Memory K T) (size : Nat) : Option (Cache K T) :=
  if 16 * size < 2 ^ 64 then
    some {
      key := mem.key
      data := mem.data
      prev := Function.update (Function.update mem.prev .head .null) .tail .head
      next := Function.update (Function.update mem.next .head .tail) .tail .null
      mapping := ∅
      freeEntries := freeLoop size (size + 1) 0 [] }
  else none

/-- `_mapping[key]`. -/
def index (m : AList fun _ : K => Ptr) (key : K) : Ptr × AList fun _ : K => Ptr :=
  match m.lookup key with
  | some node => (node, m)
  | none => (.null, m.insert key .null)

namespace Cache

def detach (c : Cache K T) (node : Ptr) : Cache K T :=
  let c := { c with next := Function.update c.next (c.prev node) (c.next node) }
  { c with prev := Function.update c.prev (c.next node) (c.prev node) }

def attach (c : Cache K T) (node : Ptr) : Cache K T :=
  let c := { c with next := Function.update c.next node (c.next .head) }
  let c := { c with prev := Function.update c.prev node .head }
  let c := { c with next := Function.update c.next .head node }
  { c with prev := Function.update c.prev (c.next node) node }

def setData (c : Cache K T) (node : Ptr) (data : T) : Cache K T :=
  { c with data := Function.update c.data node data }

def setKey (c : Cache K T) (node : Ptr) (key : K) : Cache K T :=
  { c with key := Function.update c.key node key }

def put (c : Cache K T) (key : K) (data : T) : Cache K T :=
  let (node, mapping) := index c.mapping key
  let c := { c with mapping := mapping }
  if node ≠ .null then ((c.detach node).setData node data).attach node
  else if c.freeEntries.isEmpty then
    let node := c.prev .tail
    let c := c.detach node
    let c := { c with mapping := c.mapping.erase (c.key node) }
    let c := (c.setData node data).setKey node key
    let c := { c with mapping := c.mapping.insert key node }
    c.attach node
  else
    let node := c.freeEntries.getLastD .null
    let c := { c with freeEntries := c.freeEntries.dropLast }
    let c := (c.setKey node key).setData node data
    let c := { c with mapping := c.mapping.insert key node }
    c.attach node

/-- `get`, where `null` is `NULL` as data. -/
def get (null : T) (c : Cache K T) (key : K) : T × Cache K T :=
  let (node, mapping) := index c.mapping key
  let c := { c with mapping := mapping }
  if node ≠ .null then
    let c := (c.detach node).attach node
    (c.data node, c)
  else (null, c)

end Cache

inductive Op (K T : Type) where
  | put (key : K) (data : T)
  | get (key : K)

def Op.run (null : T) (c : Cache K T) : Op K T → Cache K T
  | put key data => c.put key data
  | get key => (c.get null key).2

/-! ## What is promised -/

/-- What has been used, most recently used first: the keys with the data of their last `put`. A
`get` is a use when the key is one of the first `size`. -/
def Op.use (size : Nat) (U : List (K × T)) : Op K T → List (K × T)
  | put key data => touch key data U
  | get key =>
    match (U.take size).lookup key with
    | some data => touch key data U
    | none => U

/-- A `get` returns the data of a key that is one of the first `size`, and `NULL` for the others. -/
def Op.Right (size : Nat) (null : T) (c : Cache K T) (U : List (K × T)) : Op K T → Prop
  | put _ _ => True
  | get key => (c.get null key).1 = ((U.take size).lookup key).getD null

/-- The linked list holds the first `size` keys in their order; they are the entries of `_mapping`
that are not `NULL`, and the other slots are free. -/
structure Lru (size : Nat) (c : Cache K T) (U : List (K × T)) (ns : List Ptr) : Prop where
  linked : Segment c.next c.prev .head .tail ns
  entries : ns.map (fun n => (c.key n, c.data n)) = U.take size
  mapping : ∀ k n, n ≠ .null → (c.mapping.lookup k = some n ↔ n ∈ ns ∧ c.key n = k)
  slots : (ns ++ c.freeEntries).Perm ((List.range size).map .entry)

/-- The answers are right and the cache is in order after each operation. -/
def AllRight (size : Nat) (null : T) : Cache K T → List (K × T) → List (Op K T) → Prop
  | _, _, [] => True
  | c, U, op :: ops =>
    op.Right size null c U ∧ (∃ ns, Lru size (op.run null c) (op.use size U) ns) ∧
      AllRight size null (op.run null c) (op.use size U) ops

/-- The keys that a `get` did not find and that have not been put since. -/
def Op.pending (size : Nat) (U : List (K × T)) (missed : List K) : Op K T → List K
  | put key _ => missed.filter (· ≠ key)
  | get key => if key ∈ keys (U.take size) ∨ key ∈ missed then missed else key :: missed

/-- `_mapping` has at most `size` entries all along. -/
def Bounded (size : Nat) (null : T) : Cache K T → List (Op K T) → Prop
  | c, [] => c.mapping.keys.length ≤ size
  | c, op :: ops => c.mapping.keys.length ≤ size ∧ Bounded size null (op.run null c) ops

/-- The cached keys, of which there are at most `cap`, and the missed ones are at most `size` all
along. -/
def Modest (size cap : Nat) : List (K × T) → List K → List (Op K T) → Prop
  | U, missed, [] => (U.take cap).length + missed.length ≤ size
  | U, missed, op :: ops =>
    (U.take cap).length + missed.length ≤ size ∧
      Modest size cap (op.use cap U) (op.pending cap U missed) ops

/-! ## The constructor -/

/-- The number of entries that the loop of the constructor reaches. -/
def slots (size : Nat) : Nat := min size (2 ^ 31)

theorem int32_last : int32 (2 ^ 31 : Nat) = -2 ^ 31 := by decide

theorem freeLoop_eq {size : Nat} (hsize : 16 * size < 2 ^ 64) (rounds n : Nat) (free : List Ptr)
    (hn : n ≤ slots size) (hrounds : slots size < n + rounds) :
    freeLoop size rounds (int32 n) free = free ++
      ((List.range' n (slots size - n)).map .entry) := by
  unfold slots at hn hrounds ⊢
  induction rounds generalizing n free with
  | zero => omega
  | succ rounds ih =>
    unfold freeLoop
    by_cases hlt : n < min size (2 ^ 31)
    · have hint := int32_natCast (n := n) (by omega)
      have hsizeT : sizeT n = n := by
        unfold sizeT
        omega
      rw [hint, hsizeT, if_pos (by omega), Int.toNat_natCast]
      have hnext : ((n : Int) + 1) = ((n + 1 : Nat) : Int) := by push_cast; rfl
      rw [hnext, ih (n + 1) _ (by omega) (by omega), List.append_assoc,
        show min size (2 ^ 31) - n = min size (2 ^ 31) - (n + 1) + 1 by omega, List.range'_succ]
      rfl
    · have hstop : ¬sizeT (int32 n) < size := by
        by_cases hlast : n = 2 ^ 31
        · rw [hlast, int32_last]
          unfold sizeT
          omega
        · rw [int32_natCast (by omega)]
          unfold sizeT
          omega
      rw [if_neg hstop, show min size (2 ^ 31) - n = 0 by omega]
      simp

/-! ## The linked list -/

section
variable {c : Cache K T} {ns A B : List Ptr} {n : Ptr}

def IsEntry (n : Ptr) : Prop := ∃ i, n = .entry i

theorem IsEntry.ne_head (h : IsEntry n) : n ≠ .head := by
  obtain ⟨i, rfl⟩ := h
  nofun

theorem IsEntry.ne_tail (h : IsEntry n) : n ≠ .tail := by
  obtain ⟨i, rfl⟩ := h
  nofun

theorem IsEntry.ne_null (h : IsEntry n) : n ≠ .null := by
  obtain ⟨i, rfl⟩ := h
  nofun

theorem nodup_ends (hnodup : ns.Nodup) (he : ∀ q ∈ ns, IsEntry q) :
    (.head :: ns).Nodup ∧ (.tail :: ns).Nodup :=
  ⟨List.nodup_cons.2 ⟨fun h => (he _ h).ne_head rfl, hnodup⟩,
    List.nodup_cons.2 ⟨fun h => (he _ h).ne_tail rfl, hnodup⟩⟩

omit [DecidableEq K] in
theorem linked_detach (h : Segment c.next c.prev .head .tail (A ++ n :: B))
    (hnodup : (A ++ n :: B).Nodup) (he : ∀ q ∈ A ++ n :: B, IsEntry q) :
    Segment (c.detach n).next (c.detach n).prev .head .tail (A ++ B) := by
  obtain ⟨hhead, htail⟩ := nodup_ends hnodup he
  have hprev := h.prev_mid
  have hnext := h.next_mid
  have hne : n ≠ c.prev n := by
    rw [hprev]
    intro heq
    have hmem : n ∈ .head :: A := heq ▸ Circular.lastOr_mem
    rw [← List.cons_append] at hhead
    exact (List.nodup_append.1 hhead).2.2 n hmem n List.mem_cons_self rfl
  unfold Cache.detach
  dsimp only
  rw [Function.update_of_ne hne]
  refine h.remove hhead htail ?_ ?_ (fun q _ hq => ?_) fun q _ hq => ?_
  · rw [← hprev, Function.update_self, hnext]
  · rw [← hnext, Function.update_self, hprev]
  · exact Function.update_of_ne (hprev ▸ hq) _ _
  · exact Function.update_of_ne (hnext ▸ hq) _ _

omit [DecidableEq K] in
theorem linked_attach (h : Segment c.next c.prev .head .tail ns) (hnodup : (n :: ns).Nodup)
    (he : ∀ q ∈ n :: ns, IsEntry q) : Segment (c.attach n).next (c.attach n).prev .head .tail
    (n :: ns) := by
  obtain ⟨hn, hns⟩ := List.nodup_cons.1 hnodup
  obtain ⟨hhead, htail⟩ := nodup_ends hns fun q hq => he q (List.mem_cons_of_mem _ hq)
  have hentry := he n List.mem_cons_self
  have hnh : n ∉ .head :: ns := fun hmem => (List.mem_cons.1 hmem).elim hentry.ne_head hn
  have hnt : n ∉ .tail :: ns := fun hmem => (List.mem_cons.1 hmem).elim hentry.ne_tail hn
  have hfirst := h.next_start
  have hne : n ≠ c.next .head := by
    rw [hfirst]
    exact fun heq => hnt (heq ▸ Circular.headOr_mem)
  unfold Cache.attach
  dsimp only
  rw [Function.update_of_ne hentry.ne_head, Function.update_self]
  refine Segment.insert (A := []) h hhead htail hnh hnt ?_ ?_ ?_ ?_ (fun q hq hq' => ?_)
    fun q hq hq' => ?_
  · rw [Function.update_of_ne hentry.ne_head, Function.update_self, hfirst]
  · rw [Function.update_of_ne hne, Function.update_self]
    rfl
  · rw [Circular.lastOr_nil, Function.update_self]
  · rw [← hfirst, Function.update_self]
  · rw [Circular.lastOr_nil] at hq'
    rw [Function.update_of_ne hq', Function.update_of_ne hq]
  · rw [← hfirst] at hq'
    rw [Function.update_of_ne hq', Function.update_of_ne hq]

end

/-! ## The invariant -/

/-- The cache with room for `cap` keys, and the keys that the map holds with `NULL`. -/
structure Inv (cap : Nat) (c : Cache K T) (U : List (K × T)) (missed : List K) (ns : List Ptr) :
    Prop where
  linked : Segment c.next c.prev .head .tail ns
  entries : ns.map (fun n => (c.key n, c.data n)) = U.take cap
  used : (keys U).Nodup
  mapping : ∀ k n, c.mapping.lookup k = some n ↔ (n ∈ ns ∧ c.key n = k) ∨ (n = .null ∧ k ∈ missed)
  slots : (ns ++ c.freeEntries).Perm ((List.range cap).map .entry)
  nodup : missed.Nodup
  missed : ∀ k ∈ missed, k ∉ keys (U.take cap)

section
variable {cap : Nat} {c : Cache K T} {U : List (K × T)} {missed : List K} {ns : List Ptr}
  {k : K} {n : Ptr}

theorem nodup_of_slots {ns free : List Ptr}
    (h : (ns ++ free).Perm ((List.range cap).map .entry)) : (ns ++ free).Nodup := by
  rw [h.nodup_iff]
  exact List.Nodup.map (fun a b heq => Ptr.entry.inj heq) List.nodup_range

theorem isEntry_of_slots {ns free : List Ptr}
    (h : (ns ++ free).Perm ((List.range cap).map .entry)) (hn : n ∈ ns ++ free) : IsEntry n := by
  obtain ⟨i, -, rfl⟩ := List.mem_map.1 (h.mem_iff.1 hn)
  exact ⟨i, rfl⟩

theorem length_of_slots {ns free : List Ptr}
    (h : (ns ++ free).Perm ((List.range cap).map .entry)) : ns.length + free.length = cap := by
  have hlen := h.length_eq
  rwa [List.length_append, List.length_map, List.length_range] at hlen

section
variable (h : Inv cap c U missed ns)
include h

theorem Inv.isEntry (hn : n ∈ ns) : IsEntry n :=
  isEntry_of_slots h.slots (List.mem_append_left _ hn)

theorem Inv.nodup_ns : ns.Nodup :=
  (List.nodup_append.1 (nodup_of_slots h.slots)).1

theorem Inv.keys_eq : keys (U.take cap) = ns.map c.key := by
  rw [← h.entries]
  unfold keys
  rw [List.map_map]
  rfl

theorem Inv.mem_keys_iff : k ∈ keys (U.take cap) ↔
    ∃ n ∈ ns, c.key n = k := by
  rw [h.keys_eq, List.mem_map]

theorem Inv.lru : Lru cap c U ns := by
  refine ⟨h.linked, h.entries, fun k n hn => ?_, h.slots⟩
  rw [h.mapping]
  exact ⟨fun hor => hor.elim id fun hnull => absurd hnull.1 hn, .inl⟩

/-- The number of entries of the map. -/
theorem Inv.length_mapping : c.mapping.keys.length = (U.take cap).length + missed.length := by
  have hperm : c.mapping.keys.Perm (keys (U.take cap) ++ missed) := by
    rw [List.perm_ext_iff_of_nodup c.mapping.keys_nodup]
    · intro k
      rw [← AList.mem_keys, ← AList.lookup_isSome, Option.isSome_iff_exists, List.mem_append,
        h.mem_keys_iff]
      constructor
      · rintro ⟨n, hn⟩
        rcases (h.mapping k n).1 hn with hmem | hnull
        · exact .inl ⟨n, hmem⟩
        · exact .inr hnull.2
      · rintro (⟨n, hmem⟩ | hmiss)
        · exact ⟨n, (h.mapping k n).2 (.inl hmem)⟩
        · exact ⟨.null, (h.mapping k .null).2 (.inr ⟨rfl, hmiss⟩)⟩
    · rw [List.nodup_append]
      refine ⟨h.used.sublist ((List.take_sublist _ _).map _), h.nodup, fun a ha b hb heq => ?_⟩
      exact h.missed b hb (heq ▸ ha)
  rw [hperm.length_eq, List.length_append]
  unfold keys
  rw [List.length_map]

/-! ## The operations -/

theorem Inv.index_hit (hn : n ∈ ns) : index c.mapping (c.key n) = (n, c.mapping) := by
  unfold index
  rw [(h.mapping (c.key n) n).2 (.inl ⟨hn, rfl⟩)]

/-- A key that is not cached: the map holds `NULL` for it afterwards. -/
theorem Inv.index_miss (hk : k ∉ keys (U.take cap)) :
    ∃ m, index c.mapping k = (.null, m) ∧ m.lookup k = some .null ∧
      ∀ k' ≠ k, m.lookup k' = c.mapping.lookup k' := by
  unfold index
  by_cases hmiss : k ∈ missed
  · have hnull := (h.mapping k .null).2 (.inr ⟨rfl, hmiss⟩)
    refine ⟨c.mapping, by rw [hnull], hnull, fun _ _ => rfl⟩
  · have hnone : c.mapping.lookup k = none := by
      rw [Option.eq_none_iff_forall_ne_some]
      intro n hn
      rcases (h.mapping k n).1 hn with hmem | hnull
      · exact hk (h.mem_keys_iff.2 ⟨n, hmem⟩)
      · exact hmiss hnull.2
    refine ⟨c.mapping.insert k .null, by rw [hnone], AList.lookup_insert _, fun k' hne => ?_⟩
    exact AList.lookup_insert_ne hne

/-- The node of a cached key comes to the front. -/
theorem Inv.refresh (hn : n ∈ ns) (d : T) :
    ∃ ns', Inv cap (((c.detach n).setData n d).attach n) (touch (c.key n) d U) missed ns' := by
  obtain ⟨A, B, rfl⟩ := List.append_of_mem hn
  have hnodup := List.nodup_middle.1 h.nodup_ns
  have hperm : (n :: (A ++ B)).Perm (A ++ n :: B) := List.perm_middle.symm
  have hentries := h.entries
  rw [List.map_append, List.map_cons] at hentries
  have hused : (keys (A.map (fun n => (c.key n, c.data n)) ++ (c.key n, c.data n) ::
      B.map (fun n => (c.key n, c.data n)))).Nodup := by
    rw [hentries]
    exact h.used.sublist ((List.take_sublist _ _).map _)
  have htake : (touch (c.key n) d U).take cap =
      (c.key n, d) :: (A ++ B).map (fun n => (c.key n, c.data n)) := by
    rw [take_touch h.used, ← hentries, touch_middle hused, ← List.map_append,
      List.take_of_length_le]
    have hlen := congrArg List.length hentries
    rw [List.length_append, List.length_cons, List.length_map, List.length_map,
      List.length_take] at hlen
    rw [List.length_cons, List.length_map, List.length_append]
    omega
  have hkeys : keys ((touch (c.key n) d U).take cap) = (n :: (A ++ B)).map c.key := by
    rw [htake]
    unfold keys
    rw [List.map_cons, List.map_map, List.map_cons]
    rfl
  refine ⟨n :: (A ++ B), ⟨?_, ?_, nodup_touch h.used, fun k m => ?_, ?_, h.nodup, fun k hk => ?_⟩⟩
  · exact linked_attach (linked_detach h.linked h.nodup_ns fun q hq => h.isEntry hq) hnodup
      fun q hq => h.isEntry (hperm.subset hq)
  · rw [htake, List.map_cons]
    congr 1
    · exact Prod.ext rfl (Function.update_self ..)
    · refine List.map_congr_left fun q hq => Prod.ext rfl ?_
      exact Function.update_of_ne (fun (heq : q = n) => (List.nodup_cons.1 hnodup).1 (heq ▸ hq)) _ _
  · rw [hperm.mem_iff]
    exact h.mapping k m
  · exact (hperm.append_right _).trans h.slots
  · intro hmem
    rw [hkeys, (hperm.map _).mem_iff, ← h.keys_eq] at hmem
    exact h.missed k hk hmem

end

/-- A node with a new key comes to the front of the others, which are at most `cap - 1`. -/
theorem inv_attach (hcap : 0 < cap) (hused : (keys U).Nodup) {d : T} (hk : k ∉ keys (U.take cap))
    (hkey : c.key n = k) (hdata : c.data n = d) (hlinked : Segment c.next c.prev .head .tail ns)
    (hentries : ns.map (fun n => (c.key n, c.data n)) = (U.take cap).take (cap - 1))
    (hmapping : ∀ k' m, c.mapping.lookup k' = some m ↔ (m ∈ n :: ns ∧ c.key m = k') ∨
    (m = .null ∧ k' ∈ missed))
    (hslots : (n :: ns ++ c.freeEntries).Perm ((List.range cap).map .entry)) (hnodup : missed.Nodup)
    (hmissed : ∀ k' ∈ missed, k' ∉ keys (U.take cap) ∧ k' ≠ k) :
    Inv cap (c.attach n) (touch k d U) missed (n :: ns) := by
  have htake : (touch k d U).take cap = (k, d) :: (U.take cap).take (cap - 1) := by
    rw [take_touch hused, touch_of_notMem hk]
    obtain ⟨cap, rfl⟩ := Nat.exists_eq_add_one_of_ne_zero hcap.ne'
    rfl
  refine ⟨?_, ?_, nodup_touch hused, hmapping, hslots, hnodup, fun k' hk' hmem => ?_⟩
  · exact linked_attach hlinked (List.nodup_append.1 (nodup_of_slots hslots)).1
      fun q hq => isEntry_of_slots hslots (List.mem_append_left _ hq)
  · rw [htake, ← hentries, List.map_cons, ← hkey, ← hdata]
    rfl
  · rw [htake] at hmem
    rcases List.mem_cons.1 hmem with heq | hmem
    · exact (hmissed k' hk').2 heq
    · exact (hmissed k' hk').1 (((List.take_sublist _ _).map _).subset hmem)

/-- A key that is not among those of `ns` is stored with the node `n`. -/
theorem lookup_insert_iff {m : AList fun _ : K => Ptr} {key : Ptr → K} (hn : n ∉ ns)
    (hk : ∀ q ∈ ns, key q ≠ k) (hm : ∀ k' ≠ k, ∀ x, m.lookup k' = some x ↔ (x ∈ ns ∧ key x = k') ∨
    (x = .null ∧ k' ∈ missed)) (k' : K) (x : Ptr) :
    (m.insert k n).lookup k' = some x ↔
      (x ∈ n :: ns ∧ Function.update key n k x = k') ∨
      (x = .null ∧ k' ∈ missed.filter (· ≠ k)) := by
  have hkey : ∀ q ∈ ns, Function.update key n k q = key q :=
    fun q hq => Function.update_of_ne (fun (heq : q = n) => hn (heq ▸ hq)) _ _
  have hfilter : k' ∈ missed.filter (· ≠ k) ↔ k' ∈ missed ∧ k' ≠ k := by simp
  have hmem : (x ∈ n :: ns ∧ Function.update key n k x = k') ↔ (x = n ∧ k' = k) ∨
    (x ∈ ns ∧ key x = k') := by
    rw [List.mem_cons, or_and_right]
    refine or_congr (and_congr_right fun heq => ?_) (and_congr_right fun hx => by rw [hkey x hx])
    rw [heq, Function.update_self, eq_comm]
  rw [hmem, hfilter]
  by_cases hkk : k' = k
  · rw [hkk, AList.lookup_insert, Option.some.injEq]
    constructor
    · exact fun heq => .inl (.inl ⟨heq.symm, rfl⟩)
    · rintro ((⟨heq, -⟩ | ⟨hx, heq⟩) | ⟨-, -, hne⟩)
      · exact heq.symm
      · exact absurd heq (hk x hx)
      · exact absurd rfl hne
  · rw [AList.lookup_insert_ne hkk, hm k' hkk]
    simp [hkk]

variable (h : Inv cap c U missed ns)
include h

theorem Inv.key_ne (hk : k ∉ keys (U.take cap)) : ∀ q ∈ ns, c.key q ≠ k :=
  fun q hq heq => hk (h.mem_keys_iff.2 ⟨q, hq, heq⟩)

theorem Inv.missed_filter : ∀ k' ∈ missed.filter (· ≠ k), k' ∉ keys (U.take cap) ∧ k' ≠ k := by
  intro k' hk'
  rw [List.mem_filter, decide_eq_true_eq] at hk'
  exact ⟨h.missed k' hk'.1, hk'.2⟩

/-- `put` of a key that is not cached, when all entries are in use: the last node gets the key. -/
theorem Inv.put_evict (hcap : 0 < cap) (hk : k ∉ keys (U.take cap)) (d : T)
    (hfree : c.freeEntries = []) :
    ∃ ns', Inv cap (c.put k d) (touch k d U) (missed.filter (· ≠ k)) ns' := by
  obtain ⟨m, hindex, hmk, hmne⟩ := h.index_miss hk
  have hlen := length_of_slots h.slots
  rw [hfree, List.length_nil, Nat.add_zero] at hlen
  obtain ⟨A, n, rfl⟩ : ∃ A n, ns = A ++ [n] := by
    rcases List.eq_nil_or_concat ns with rfl | ⟨A, n, rfl⟩
    · exact absurd hlen hcap.ne
    · exact ⟨A, n, List.concat_eq_append ..⟩
  have hlast : c.prev .tail = n := by
    have hprev := Segment.prev_eq (B := []) (by rw [List.append_nil]; exact h.linked)
    rwa [Circular.headOr_nil, Circular.lastOr_concat] at hprev
  have hnA : n ∉ A := fun hmem =>
    (List.nodup_cons.1 (List.nodup_middle.1 h.nodup_ns)).1 (List.mem_append_left _ hmem)
  have hkeyA : ∀ q ∈ A, c.key q ≠ c.key n := by
    intro q hq heq
    have hnodup : (keys (U.take cap)).Nodup := h.used.sublist ((List.take_sublist _ _).map _)
    rw [h.keys_eq, List.map_append, List.map_singleton, List.nodup_append] at hnodup
    exact hnodup.2.2 _ (List.mem_map_of_mem hq) _ (List.mem_singleton_self _) heq
  have hcached := h.key_ne hk
  have herase : ∀ k' ≠ k, ∀ x, (m.erase (c.key n)).lookup k' = some x ↔
      (x ∈ A ∧ c.key x = k') ∨ (x = .null ∧ k' ∈ missed) := by
    intro k' hne x
    by_cases hkn : k' = c.key n
    · rw [hkn, AList.lookup_erase]
      refine iff_of_false nofun ?_
      rintro (⟨hx, heq⟩ | ⟨-, hmiss⟩)
      · exact hkeyA x hx heq
      · exact h.missed _ hmiss
          (h.mem_keys_iff.2 ⟨n, List.mem_append_right _ (List.mem_singleton_self _), rfl⟩)
    · rw [AList.lookup_erase_ne hkn, hmne k' hne, h.mapping, List.mem_append, List.mem_singleton,
        or_and_right]
      refine or_congr_left (or_iff_left ?_)
      rintro ⟨rfl, heq⟩
      exact hkn heq.symm
  unfold Cache.put
  rw [hindex]
  dsimp only
  rw [if_neg (not_not.2 rfl), if_pos (by rw [hfree]; rfl), hlast]
  refine ⟨n :: A, inv_attach hcap h.used hk (Function.update_self ..)
    (Function.update_self ..) ?_ ?_
    (lookup_insert_iff hnA (fun q hq => hcached q (List.mem_append_left _ hq)) herase) ?_
    (h.nodup.filter _)
    h.missed_filter⟩
  · have hdetach := linked_detach h.linked h.nodup_ns fun q hq => h.isEntry hq
    rw [List.append_nil] at hdetach
    exact hdetach
  · rw [← h.entries, List.map_append, List.take_append_of_le_length, List.take_of_length_le]
    · refine List.map_congr_left fun q hq => ?_
      have hqn : q ≠ n := fun heq => hnA (heq ▸ hq)
      exact Prod.ext (Function.update_of_ne hqn _ _) (Function.update_of_ne hqn _ _)
    all_goals
      rw [List.length_append, List.length_singleton] at hlen
      rw [List.length_map]
      omega
  · refine List.Perm.trans ?_ h.slots
    exact (List.perm_append_singleton n A).symm.append_right _

/-- `put` of a key that is not cached, when there is a free entry. -/
theorem Inv.put_free (hk : k ∉ keys (U.take cap)) (d : T) (hfree : c.freeEntries ≠ []) :
    ∃ ns', Inv cap (c.put k d) (touch k d U) (missed.filter (· ≠ k)) ns' := by
  obtain ⟨m, hindex, hmk, hmne⟩ := h.index_miss hk
  have hlen := length_of_slots h.slots
  obtain ⟨F, n, hF⟩ : ∃ F n, c.freeEntries = F ++ [n] := by
    rcases List.eq_nil_or_concat c.freeEntries with heq | ⟨F, n, heq⟩
    · exact absurd heq hfree
    · exact ⟨F, n, heq.trans (List.concat_eq_append ..)⟩
  have hperm : (n :: ns ++ F).Perm (ns ++ c.freeEntries) := by
    rw [hF, ← List.append_assoc, List.cons_append]
    exact (List.perm_append_singleton n (ns ++ F)).symm
  have hn : n ∉ ns := by
    have hnodup := (nodup_of_slots h.slots).perm hperm.symm
    exact fun hmem => (List.nodup_cons.1 hnodup).1 (List.mem_append_left _ hmem)
  have hcap : 0 < cap ∧ ns.length ≤ cap - 1 := by
    rw [hF, List.length_append, List.length_singleton] at hlen
    omega
  have hm : ∀ k' ≠ k, ∀ x, m.lookup k' = some x ↔ (x ∈ ns ∧ c.key x = k') ∨
    (x = .null ∧ k' ∈ missed) := by
    intro k' hne x
    rw [hmne k' hne, h.mapping]
  unfold Cache.put
  rw [hindex]
  dsimp only
  rw [if_neg (not_not.2 rfl), if_neg (by rw [hF]; simp), hF, List.dropLast_concat,
    List.getLastD_concat]
  refine ⟨n :: ns, inv_attach hcap.1 h.used hk (Function.update_self ..)
    (Function.update_self ..) h.linked ?_ (lookup_insert_iff hn (h.key_ne hk) hm)
    (hperm.trans h.slots)
    (h.nodup.filter _) h.missed_filter⟩
  rw [← h.entries, List.take_of_length_le (by rw [List.length_map]; exact hcap.2)]
  refine List.map_congr_left fun q hq => ?_
  have hqn : q ≠ n := fun heq => hn (heq ▸ hq)
  exact Prod.ext (Function.update_of_ne hqn _ _) (Function.update_of_ne hqn _ _)

theorem Inv.put (hcap : 0 < cap) (k : K) (d : T) :
    ∃ ns', Inv cap (c.put k d) (touch k d U) (missed.filter (· ≠ k)) ns' := by
  by_cases hk : k ∈ keys (U.take cap)
  · obtain ⟨n, hn, rfl⟩ := h.mem_keys_iff.1 hk
    have hmissed : missed.filter (· ≠ c.key n) = missed := by
      rw [List.filter_eq_self]
      intro k' hk'
      rw [decide_eq_true_eq]
      exact fun heq => h.missed k' hk' (heq ▸ hk)
    unfold Cache.put
    rw [h.index_hit hn, hmissed]
    dsimp only
    rw [if_pos (h.isEntry hn).ne_null]
    exact h.refresh hn d
  · by_cases hfree : c.freeEntries = []
    · exact h.put_evict hcap hk d hfree
    · exact h.put_free hk d hfree

theorem Inv.lookup_eq (hn : n ∈ ns) : (U.take cap).lookup (c.key n) = some (c.data n) := by
  obtain ⟨A, B, rfl⟩ := List.append_of_mem hn
  have hentries := h.entries
  rw [List.map_append, List.map_cons] at hentries
  rw [← hentries]
  refine lookup_middle (nodup_middle (w := c.data n) (B := B.map fun n => (c.key n, c.data n)) ?_).1
  rw [hentries]
  exact h.used.sublist ((List.take_sublist _ _).map _)

theorem Inv.get_hit (hn : n ∈ ns) (null : T) : (c.get null (c.key n)).1 = c.data n ∧
      ∃ ns', Inv cap (c.get null (c.key n)).2 (touch (c.key n) (c.data n) U) missed ns' := by
  obtain ⟨ns', hinv⟩ := h.refresh hn (c.data n)
  have hdata : (c.detach n).setData n (c.data n) = c.detach n := by
    unfold Cache.setData
    rw [show (c.detach n).data = c.data from rfl, Function.update_eq_self]
    rfl
  rw [hdata] at hinv
  unfold Cache.get
  rw [h.index_hit hn]
  dsimp only
  rw [if_pos (h.isEntry hn).ne_null]
  exact ⟨rfl, ns', hinv⟩

/-- A `get` that misses only leaves `NULL` in the map. -/
theorem Inv.get_miss (hk : k ∉ keys (U.take cap)) (null : T) :
    (c.get null k).1 = null ∧ Inv cap (c.get null k).2 U
    (if k ∈ missed then missed else k :: missed) ns := by
  obtain ⟨m, hindex, hmk, hmne⟩ := h.index_miss hk
  have hmissed : ∀ k', k' ∈ (if k ∈ missed then missed else k :: missed) ↔ k' = k ∨
    k' ∈ missed := by
    intro k'
    split_ifs with hmem
    · exact ⟨.inr, fun hor => hor.elim (fun heq => heq ▸ hmem) id⟩
    · exact List.mem_cons
  unfold Cache.get
  rw [hindex]
  dsimp only
  rw [if_neg (not_not.2 rfl)]
  refine ⟨rfl, h.linked, h.entries, h.used, fun k' x => ?_, h.slots, ?_, fun k' hk' => ?_⟩
  · dsimp only
    rw [hmissed]
    by_cases hkk : k' = k
    · rw [hkk, hmk, Option.some.injEq]
      constructor
      · exact fun heq => .inr ⟨heq.symm, .inl rfl⟩
      · rintro (⟨hx, heq⟩ | ⟨heq, -⟩)
        · exact absurd heq (h.key_ne hk x hx)
        · exact heq.symm
    · rw [hmne k' hkk, h.mapping]
      simp [hkk]
  · split_ifs with hmem
    · exact h.nodup
    · exact List.nodup_cons.2 ⟨hmem, h.nodup⟩
  · rcases (hmissed k').1 hk' with rfl | hmem
    · exact hk
    · exact h.missed k' hmem

/-- One operation. -/
theorem Inv.step (hcap : 0 < cap) (null : T) (op : Op K T) :
    op.Right cap null c U ∧ ∃ ns', Inv cap (op.run null c) (op.use cap U)
      (op.pending cap U missed) ns' := by
  cases op with
  | put k d => exact ⟨trivial, h.put hcap k d⟩
  | get k =>
    unfold Op.Right Op.use Op.pending
    dsimp only
    by_cases hk : k ∈ keys (U.take cap)
    · obtain ⟨n, hn, rfl⟩ := h.mem_keys_iff.1 hk
      rw [h.lookup_eq hn, if_pos (.inl hk)]
      exact h.get_hit hn null
    · have hget := h.get_miss hk null
      rw [lookup_of_notMem hk]
      simp only [hk, false_or]
      exact ⟨hget.1, ns, hget.2⟩

/-! ## The runs -/

theorem Inv.allRight (hcap : 0 < cap) (null : T) (ops : List (Op K T)) :
    AllRight cap null c U ops := by
  induction ops generalizing c U missed ns with
  | nil => trivial
  | cons op ops ih =>
    obtain ⟨hright, ns', hinv⟩ := h.step hcap null op
    exact ⟨hright, ⟨ns', hinv.lru⟩, ih hinv⟩

theorem Inv.bounded_iff (hcap : 0 < cap) (null : T) (size : Nat) (ops : List (Op K T)) :
    Bounded size null c ops ↔ Modest size cap U missed ops := by
  induction ops generalizing c U missed ns with
  | nil =>
    unfold Bounded Modest
    rw [h.length_mapping]
  | cons op ops ih =>
    obtain ⟨-, ns', hinv⟩ := h.step hcap null op
    unfold Bounded Modest
    rw [h.length_mapping, ih hinv]

end

section
variable {mem : Memory K T} {size : Nat} {c : Cache K T}

theorem create_inv (h : create mem size = some c) : Inv (slots size) c [] [] [] := by
  unfold create at h
  by_cases hsize : 16 * size < 2 ^ 64
  · rw [if_pos hsize] at h
    cases h
    have hfree := freeLoop_eq hsize (size + 1) 0 [] (Nat.zero_le _) (by unfold slots; omega)
    refine ⟨Segment.nil ?_ ?_, ?_, List.nodup_nil, fun k n => ?_, ?_, List.nodup_nil, nofun⟩
    · dsimp only
      rw [Function.update_of_ne (by decide), Function.update_self]
    · dsimp only
      rw [Function.update_self]
    · rw [List.take_nil, List.map_nil]
    · dsimp only
      rw [AList.lookup_empty]
      simp
    · rw [List.nil_append]
      show (freeLoop size (size + 1) (int32 (0 : Nat)) []).Perm _
      rw [hfree, Nat.sub_zero, List.nil_append, ← List.range_eq_range']
  · rw [if_neg hsize] at h
    cases h

theorem slots_pos (hsize : 0 < size) : 0 < slots size := by
  unfold slots
  omega

/-- After a `get` in the empty cache all slots must be free. -/
theorem size_le_of_allRight (hsize : 0 < size) (hc : create mem size = some c) {null : T} {k : K}
    (h : AllRight size null c [] [.get k]) : size ≤ 2 ^ 31 := by
  obtain ⟨-, ⟨ns, hlru⟩, -⟩ := h
  obtain ⟨-, ns', hinv⟩ := (create_inv hc).step (slots_pos hsize) null (.get k)
  have hnil : ∀ cap, Op.use cap ([] : List (K × T)) (.get k) = [] := by
    intro cap
    unfold Op.use
    dsimp only
    rw [List.take_nil]
    rfl
  have hns := hlru.entries
  have hns' := hinv.entries
  rw [hnil, List.take_nil, List.map_eq_nil_iff] at hns hns'
  have hlen := length_of_slots hlru.slots
  have hlen' := length_of_slots hinv.slots
  rw [hns, List.length_nil] at hlen
  rw [hns', List.length_nil] at hlen'
  have hle : slots size ≤ 2 ^ 31 := min_le_right _ _
  omega

/-- **The least recently used map**: a cache that has been constructed answers as it should and is
in order after each operation, whatever the operations are, exactly when its size is at most `2 ^
31`. -/
theorem lru_iff (null : T) (hsize : 0 < size) (hc : create mem size = some c) :
    (∀ ops, AllRight size null c [] ops) ↔ size ≤ 2 ^ 31 := by
  constructor
  · intro h
    exact size_le_of_allRight hsize hc (h [.get (mem.key .head)])
  · intro hle
    have hinv := create_inv hc
    have hslots : slots size = size := min_eq_left hle
    rw [hslots] at hinv
    exact hinv.allRight hsize null

/-- **The size of the map**: `_mapping` has at most `size` entries exactly as long as the cached
keys and the keys that a `get` has missed, and that have not been put since, are at most `size`. -/
theorem mapping_bounded_iff (null : T) (hsize : 0 < size) (hc : create mem size = some c)
    (ops : List (Op K T)) :
    Bounded size null c ops ↔ Modest size (min size (2 ^ 31)) [] [] ops :=
  (create_inv hc).bounded_iff (slots_pos hsize) null size ops

end

/-- The memory of the examples: integers, all zero. -/
def zeros : Memory Int Int := ⟨fun _ => 0, fun _ => 0, fun _ => .null, fun _ => .null⟩

theorem lru_two : ∃ c, create zeros 2 = some c ∧ ∀ ops, AllRight 2 0 c [] ops :=
  ⟨_, rfl, (lru_iff 0 (by decide) rfl).2 (by decide)⟩

/-- A size that the loop of the constructor does not reach. -/
theorem size_too_large : ∃ c, create zeros (2 ^ 31 + 1) = some c ∧ ¬∀ ops, AllRight
    (2 ^ 31 + 1) 0 c [] ops := by
  refine ⟨_, if_pos (by norm_num), fun h => ?_⟩
  have hle := size_le_of_allRight (by norm_num) (if_pos (by norm_num)) (h [.get 0])
  omega

/-- One key is cached, and one is missed. -/
theorem mapping_bounded_two : ∃ c, create zeros 2 = some c ∧ Bounded 2 0 c [.put 1 10, .get 2] :=
  ⟨_, rfl, (mapping_bounded_iff 0 (by decide) rfl _).2
    ⟨by decide, by decide, by unfold Modest; decide⟩⟩

/-- Two keys are missed in a cache of size one. -/
theorem misses_fill_mapping : ∃ c, create zeros 1 = some c ∧ ¬Bounded 1 0 c [.get 1, .get 2] := by
  refine ⟨_, rfl, fun h => ?_⟩
  have hinv := create_inv (show create zeros 1 = some _ from rfl)
  have hmodest := (hinv.bounded_iff (slots_pos (by decide)) 0 1 [.get 1, .get 2]).1 h
  exact absurd hmodest.2.2 (by unfold Modest; decide)

end LRUCache
