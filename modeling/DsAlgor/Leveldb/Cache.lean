import DsAlgor.Leveldb.TableMap

/-!
# The cache with reference counts

The class `LRUCache` of `cache.cc`. An entry is freed when its count of references comes to 0: the
cache has one of them as long as the entry is in it, and the clients have one for every handle. An
address that `malloc` gives is a parameter of `insert`. A deleter that is called is written down in
`calls`, with the key and the value.

`Inv` is about one moment inside an operation: the entries `es` that are allocated, with the counts
`cnt`, of which `ring` is linked in the list and `tab` is in the table. There is a lemma for every
step of an operation.
-/

namespace Leveldb.Cache

open Circular
open Outcome (ok_bind)

structure LRUCache where
  capacity : Nat
  usage : Nat
  /-- The address of `lru_`. -/
  lru : Ptr
  table : HandleTable

/-- The memory, and the calls of deleters, the first one first. -/
structure World (K V : Type) where
  heap : Heap K V
  calls : List (Nat × K × V)

section
variable {K V : Type}

def Heap.setNext (h : Heap K V) (e p : Ptr) : Except Fault (Heap K V) :=
  if h.live e then .ok { h with next := Function.update h.next e p } else .error .freed

def Heap.setPrev (h : Heap K V) (e p : Ptr) : Except Fault (Heap K V) :=
  if h.live e then .ok { h with prev := Function.update h.prev e p } else .error .freed

def Heap.setRefs (h : Heap K V) (e : Ptr) (n : Nat) : Except Fault (Heap K V) :=
  if h.live e then .ok { h with refs := Function.update h.refs e n } else .error .freed

def Heap.free (h : Heap K V) (e : Ptr) : Except Fault (Heap K V) :=
  if h.live e then .ok { h with live := Function.update h.live e false } else .error .freed

def lruRemove (h : Heap K V) (e : Ptr) : Except Fault (Heap K V) := do
  let next ← h.load h.next e
  let h ← h.setPrev next (← h.load h.prev e)
  let prev ← h.load h.prev e
  h.setNext prev (← h.load h.next e)

def lruAppend (h : Heap K V) (lru e : Ptr) : Except Fault (Heap K V) := do
  let h ← h.setNext e lru
  let h ← h.setPrev e (← h.load h.prev lru)
  let prev ← h.load h.prev e
  let h ← h.setNext prev e
  let next ← h.load h.next e
  h.setPrev next e

/-- `malloc`, and the fields of the new handle. -/
def Heap.alloc (h : Heap K V) (e : Ptr) (key : K) (hash : Nat) (value : V) (charge deleter : Nat) :
    Heap K V :=
  { h with
    live := Function.update h.live e true
    value := Function.update h.value e value
    deleter := Function.update h.deleter e deleter
    charge := Function.update h.charge e charge
    keyData := Function.update h.keyData e key
    refs := Function.update h.refs e 2
    hash := Function.update h.hash e hash }

variable [DecidableEq K] (asSlice : V → K)

def unref (w : World K V) (c : LRUCache) (e : Ptr) : Except Fault (World K V × LRUCache) := do
  let refs ← w.heap.load w.heap.refs e
  if refs > 0 then
    let h ← w.heap.setRefs e (refs - 1)
    let refs ← h.load h.refs e
    if refs ≤ 0 then
      let charge ← h.load h.charge e
      let deleter ← h.load h.deleter e
      let key ← h.key asSlice e
      let value ← h.load h.value e
      let h ← h.free e
      return (⟨h, w.calls ++ [(deleter, key, value)]⟩,
        { c with usage := (c.usage + 2 ^ 64 - charge) % 2 ^ 64 })
    else return ({ w with heap := h }, c)
  else .error .assertion

namespace LRUCache

def lookup (c : LRUCache) (w : World K V) (key : K) (hash : Nat) :
    Except Fault (Ptr × World K V × LRUCache) := do
  let e ← c.table.lookup asSlice w.heap key hash
  if e ≠ 0 then
    let refs ← w.heap.load w.heap.refs e
    let h ← w.heap.setRefs e ((refs + 1) % 2 ^ 32)
    let h ← lruRemove h e
    let h ← lruAppend h c.lru e
    return (e, { w with heap := h }, c)
  else return (e, w, c)

def release (c : LRUCache) (w : World K V) (e : Ptr) : Except Fault (World K V × LRUCache) :=
  unref asSlice w c e

/-- An entry that is no longer in the table goes from the list. -/
def drop (c : LRUCache) (w : World K V) (e : Ptr) : Except Fault (World K V × LRUCache) := do
  let h ← lruRemove w.heap e
  unref asSlice { w with heap := h } c e

/-- `while (usage_ > capacity_ && lru_.next != &lru_) { … }` -/
def evictLoop : Nat → LRUCache → World K V → Except Fault (World K V × LRUCache)
  | 0, _, _ => .error .loop
  | fuel + 1, c, w => do
    let old ← w.heap.load w.heap.next c.lru
    if c.usage > c.capacity ∧ old ≠ c.lru then
      let h ← lruRemove w.heap old
      let key ← h.key asSlice old
      let hash ← h.load h.hash old
      let (_, h, table) ← c.table.remove asSlice h key hash
      let (w, c) ← unref asSlice { w with heap := h } { c with table := table } old
      evictLoop fuel c w
    else return (w, c)

/-- `Insert` before the loop, where `malloc` gives the address `e`. -/
def put (c : LRUCache) (w : World K V) (e : Ptr) (key : K) (hash : Nat) (value : V)
    (charge deleter : Nat) : Except Fault (World K V × LRUCache) := do
  let h ← lruAppend (w.heap.alloc e key hash value charge deleter) c.lru e
  let c := { c with usage := (c.usage + charge) % 2 ^ 64 }
  let (old, h, table) ← c.table.insert asSlice h e
  let c := { c with table := table }
  if old ≠ 0 then c.drop asSlice { w with heap := h } old else return ({ w with heap := h }, c)

def insert (c : LRUCache) (w : World K V) (e : Ptr) (key : K) (hash : Nat) (value : V)
    (charge deleter : Nat) : Except Fault (World K V × LRUCache) := do
  let (w, c) ← c.put asSlice w e key hash value charge deleter
  evictLoop asSlice (c.table.elems + 1) c w

def erase (c : LRUCache) (w : World K V) (key : K) (hash : Nat) :
    Except Fault (World K V × LRUCache) := do
  let (e, h, table) ← c.table.remove asSlice w.heap key hash
  let c := { c with table := table }
  if e ≠ 0 then c.drop asSlice { w with heap := h } e else return ({ w with heap := h }, c)

/-- The loop of `Prune`. -/
def pruneLoop : Nat → Ptr → LRUCache → World K V → Except Fault (World K V × LRUCache)
  | 0, _, _, _ => .error .loop
  | fuel + 1, e, c, w =>
    if e ≠ c.lru then do
      let next ← w.heap.load w.heap.next e
      let refs ← w.heap.load w.heap.refs e
      if refs = 1 then
        let key ← w.heap.key asSlice e
        let hash ← w.heap.load w.heap.hash e
        let (_, h, table) ← c.table.remove asSlice w.heap key hash
        let (w, c) ← { c with table := table }.drop asSlice { w with heap := h } e
        pruneLoop fuel next c w
      else pruneLoop fuel next c w
    else return (w, c)

def prune (c : LRUCache) (w : World K V) : Except Fault (World K V × LRUCache) := do
  pruneLoop asSlice (c.table.elems + 1) (← w.heap.load w.heap.next c.lru) c w

/-- The loop of the destructor. -/
def destroyLoop : Nat → Ptr → LRUCache → World K V → Except Fault (World K V × LRUCache)
  | 0, _, _, _ => .error .loop
  | fuel + 1, e, c, w =>
    if e ≠ c.lru then do
      let next ← w.heap.load w.heap.next e
      let refs ← w.heap.load w.heap.refs e
      if refs = 1 then
        let (w, c) ← unref asSlice w c e
        destroyLoop fuel next c w
      else .error .assertion
    else return (w, c)

def destroy (c : LRUCache) (w : World K V) : Except Fault (World K V × LRUCache) := do
  destroyLoop asSlice (c.table.elems + 1) (← w.heap.load w.heap.next c.lru) c w

end LRUCache

/-- The constructor, and `SetCapacity`; `lru` is where the object has its `lru_`. -/
def LRUCache.new (h : Heap K V) (lru : Ptr) (capacity : Nat) :
    Except Fault (Heap K V × LRUCache) := do
  let h ← h.setNext lru lru
  let h ← h.setPrev lru lru
  let (h, table) ← HandleTable.new h
  return (h, ⟨capacity, 0, lru, table⟩)

end

/-! ## The list -/

section
variable {K V : Type} {h : Heap K V} {lru e p : Ptr} {xs A B : List Ptr}

theorem Heap.setNext_ok (he : h.live e = true) (p : Ptr) :
    h.setNext e p = .ok { h with next := Function.update h.next e p } := if_pos he

theorem Heap.setPrev_ok (he : h.live e = true) (p : Ptr) :
    h.setPrev e p = .ok { h with prev := Function.update h.prev e p } := if_pos he

/-- No node of a circle is its own successor. -/
theorem next_ne (hc : Circular h.next h.prev lru xs) (hnd : (lru :: xs).Nodup) (he : e ∈ xs) :
    h.next e ≠ e := by
  obtain ⟨A, B, rfl⟩ := List.append_of_mem he
  rw [hc.next_mid]
  intro heq
  have hmem : e ∈ lru :: B := heq ▸ headOr_mem
  rw [List.nodup_cons, List.mem_append, List.nodup_middle, List.nodup_cons] at hnd
  rcases List.mem_cons.1 hmem with rfl | hmem
  · exact hnd.1 (.inr List.mem_cons_self)
  · exact hnd.2.1 (List.mem_append_right A hmem)

theorem lruRemove_ok (hc : Circular h.next h.prev lru (A ++ e :: B))
    (hnd : (lru :: (A ++ e :: B)).Nodup) (hlive : ∀ q ∈ lru :: (A ++ e :: B), h.live q = true) :
    ∃ n p, lruRemove h e = .ok { h with next := n, prev := p } ∧ Circular n p lru (A ++ B) ∧
      ∀ q ∉ lru :: (A ++ B), n q = h.next q ∧ p q = h.prev q := by
  have hlast : lastOr lru A ∈ lru :: (A ++ B) :=
    List.cons_subset_cons _ (List.subset_append_left _ _) lastOr_mem
  have hhead : headOr lru B ∈ lru :: (A ++ B) :=
    List.cons_subset_cons _ (List.subset_append_right _ _) headOr_mem
  have hsub : ∀ q ∈ lru :: (A ++ B), q ∈ lru :: (A ++ e :: B) := by
    intro q hq
    simp only [List.mem_cons, List.mem_append] at hq ⊢
    tauto
  have he : e ∉ lru :: (A ++ B) := by
    have := List.nodup_middle.1 (by simpa using hnd : ((lru :: A) ++ e :: B).Nodup)
    simpa using (List.nodup_cons.1 this).1
  have helive := hlive e (by simp)
  refine ⟨Function.update h.next (lastOr lru A) (headOr lru B),
    Function.update h.prev (headOr lru B) (lastOr lru A), ?_, ?_, fun q hq => ⟨?_, ?_⟩⟩
  · unfold lruRemove
    rw [Heap.load_ok helive, ok_bind, Heap.load_ok helive, ok_bind, hc.next_mid, hc.prev_mid,
      Heap.setPrev_ok (hlive _ (hsub _ hhead)), ok_bind]
    dsimp only
    rw [Heap.load_ok (by exact helive), ok_bind, Heap.load_ok (by exact helive), ok_bind,
      Function.update_of_ne (ne_of_mem_of_not_mem hhead he).symm, hc.next_mid, hc.prev_mid]
    exact if_pos (hlive _ (hsub _ hlast))
  · exact hc.remove hnd (Function.update_self ..) (Function.update_self ..)
      (fun q _ hq => Function.update_of_ne hq ..) fun q _ hq => Function.update_of_ne hq ..
  · exact Function.update_of_ne (ne_of_mem_of_not_mem hlast hq).symm ..
  · exact Function.update_of_ne (ne_of_mem_of_not_mem hhead hq).symm ..

theorem lruAppend_ok (hc : Circular h.next h.prev lru xs) (hnd : (lru :: xs).Nodup)
    (he : e ∉ lru :: xs) (hlive : ∀ q ∈ lru :: (xs ++ [e]), h.live q = true) :
    ∃ n p, lruAppend h lru e = .ok { h with next := n, prev := p } ∧
      Circular n p lru (xs ++ [e]) ∧
      ∀ q ∉ lru :: (xs ++ [e]), n q = h.next q ∧ p q = h.prev q := by
  have hlast : lastOr lru xs ∈ lru :: xs := lastOr_mem
  have hne : lastOr lru xs ≠ e := ne_of_mem_of_not_mem hlast he
  have hlru : lru ≠ e := ne_of_mem_of_not_mem List.mem_cons_self he
  have helive := hlive e (by simp)
  have hlrulive := hlive lru List.mem_cons_self
  have hlastlive : h.live (lastOr lru xs) = true := by
    refine hlive _ (List.cons_subset_cons _ (List.subset_append_left _ _) hlast)
  have hc' : Circular h.next h.prev lru (xs ++ []) := by rwa [List.append_nil]
  have hprev : h.prev lru = lastOr lru xs := hc'.prev_eq
  refine ⟨Function.update (Function.update h.next e lru) (lastOr lru xs) e,
    Function.update (Function.update h.prev e (lastOr lru xs)) lru e, ?_, ?_, fun q hq => ?_⟩
  · unfold lruAppend
    rw [Heap.setNext_ok helive, ok_bind]
    dsimp only
    rw [Heap.load_ok (by exact hlrulive), ok_bind, Heap.setPrev_ok (by exact helive), ok_bind,
      Heap.load_ok (by exact helive), ok_bind]
    dsimp only
    rw [Function.update_self, hprev, Heap.setNext_ok (by exact hlastlive), ok_bind,
      Heap.load_ok (by exact helive), ok_bind]
    dsimp only
    rw [Function.update_of_ne hne.symm, Function.update_self]
    exact if_pos hlrulive
  · refine hc'.insert (by rwa [List.append_nil]) (by rwa [List.append_nil]) ?_ ?_ ?_ ?_ ?_ ?_
    · rw [Function.update_of_ne hne.symm, Function.update_self]
      rfl
    · rw [Function.update_of_ne hlru.symm, Function.update_self]
    · exact Function.update_self ..
    · exact Function.update_self ..
    · intro q hqe hq
      rw [Function.update_of_ne hq, Function.update_of_ne hqe]
    · intro q hqe hq
      rw [Function.update_of_ne (by exact hq), Function.update_of_ne hqe]
  · have hsub : ∀ r ∈ lru :: xs, r ≠ q := by
      intro r hr hrq
      exact hq (hrq ▸ List.cons_subset_cons _ (List.subset_append_left _ _) hr)
    have hqe : q ≠ e := fun heq => hq (by simp [heq])
    rw [Function.update_of_ne (hsub _ hlast).symm, Function.update_of_ne hqe,
      Function.update_of_ne (hsub _ List.mem_cons_self).symm, Function.update_of_ne hqe]
    exact ⟨rfl, rfl⟩

end

/-! ## Entries -/

structure Entry (K V : Type) where
  handle : Ptr
  key : K
  hash : Nat
  value : V
  charge : Nat
  deleter : Nat

/-- The call of the deleter. -/
def Entry.call {K V : Type} (e : Entry K V) : Nat × K × V := (e.deleter, e.key, e.value)

/-- The handle of the entry holds it. -/
structure Stored {K V : Type} (h : Heap K V) (e : Entry K V) : Prop where
  live : h.live e.handle = true
  nonzero : e.handle ≠ 0
  keyData : h.keyData e.handle = e.key
  hash : h.hash e.handle = e.hash
  value : h.value e.handle = e.value
  charge : h.charge e.handle = e.charge
  deleter : h.deleter e.handle = e.deleter
  next : h.next e.handle ≠ e.handle
  size : e.charge < 2 ^ 64

/-- All fields at `p` are the same. -/
structure Same {K V : Type} (h h' : Heap K V) (p : Ptr) : Prop where
  live : h'.live p = h.live p
  value : h'.value p = h.value p
  deleter : h'.deleter p = h.deleter p
  nextHash : h'.nextHash p = h.nextHash p
  next : h'.next p = h.next p
  prev : h'.prev p = h.prev p
  charge : h'.charge p = h.charge p
  keyData : h'.keyData p = h.keyData p
  refs : h'.refs p = h.refs p
  hash : h'.hash p = h.hash p

def Frame {K V : Type} (h h' : Heap K V) (ps : List Ptr) : Prop := ∀ p ∉ ps, Same h h' p

section
variable {K V : Type} {asSlice : V → K} {h h' h'' : Heap K V} {e : Entry K V} {p : Ptr}
  {ps qs : List Ptr}

theorem Stored.keyOf (s : Stored h e) (asSlice : V → K) : h.keyOf asSlice e.handle = e.key := by
  unfold Heap.keyOf
  rw [if_neg s.next, s.keyData]

theorem Same.trans (h₁ : Same h h' p) (h₂ : Same h' h'' p) : Same h h'' p where
  live := h₂.live.trans h₁.live
  value := h₂.value.trans h₁.value
  deleter := h₂.deleter.trans h₁.deleter
  nextHash := h₂.nextHash.trans h₁.nextHash
  next := h₂.next.trans h₁.next
  prev := h₂.prev.trans h₁.prev
  charge := h₂.charge.trans h₁.charge
  keyData := h₂.keyData.trans h₁.keyData
  refs := h₂.refs.trans h₁.refs
  hash := h₂.hash.trans h₁.hash

theorem Frame.refl (h : Heap K V) (ps : List Ptr) : Frame h h ps :=
  fun _ _ => ⟨rfl, rfl, rfl, rfl, rfl, rfl, rfl, rfl, rfl, rfl⟩

theorem Frame.trans (h₁ : Frame h h' ps) (h₂ : Frame h' h'' qs) (hsub : ∀ p ∈ qs, p ∈ ps) :
    Frame h h'' ps :=
  fun p hp => (h₁ p hp).trans (h₂ p fun hq => hp (hsub p hq))

end

/-! ## The steps of the operations -/

/-- Of the entries `es` with the counts `cnt`, `ring` is in the list and `tab` in the table. -/
structure Inv {K V : Type} (asSlice : V → K) (h : Heap K V) (c : LRUCache) (ring tab : List Ptr)
    (es : List (Entry K V)) (cnt : Ptr → Nat) : Prop where
  circular : Circular h.next h.prev c.lru ring
  ringNodup : (c.lru :: ring).Nodup
  ringSub : ∀ p ∈ ring, p ∈ es.map Entry.handle
  table : Holds asSlice h c.table tab
  tabSub : ∀ p ∈ tab, p ∈ es.map Entry.handle
  nodup : (c.lru :: es.map Entry.handle).Nodup
  lru : h.live c.lru = true
  stored : ∀ e ∈ es, Stored h e
  refs : ∀ e ∈ es, h.refs e.handle = cnt e.handle
  usage : c.usage = (es.map Entry.charge).sum % 2 ^ 64

section
variable {K V : Type} {asSlice : V → K} {h : Heap K V} {c : LRUCache} {ring tab A B : List Ptr}
  {es : List (Entry K V)} {cnt cnt' : Ptr → Nat} {e : Entry K V} {p : Ptr}

variable (I : Inv asSlice h c ring tab es cnt)
include I

theorem Inv.congr (hcnt : ∀ e ∈ es, cnt' e.handle =
    cnt e.handle) : Inv asSlice h c ring tab es cnt' :=
  { I with refs := fun e he => (I.refs e he).trans (hcnt e he).symm }

theorem Inv.perm {tab' : List Ptr} {es' : List (Entry K V)} (htab : tab.Perm tab')
    (hes : es.Perm es') : Inv asSlice h c ring tab' es' cnt where
  circular := I.circular
  ringNodup := I.ringNodup
  ringSub p hp := (hes.map _).mem_iff.1 (I.ringSub p hp)
  table := I.table.perm htab
  tabSub p hp := (hes.map _).mem_iff.1 (I.tabSub p (htab.mem_iff.2 hp))
  nodup := ((hes.map _).cons _).nodup_iff.1 I.nodup
  lru := I.lru
  stored e he := I.stored e (hes.mem_iff.2 he)
  refs e he := I.refs e (hes.mem_iff.2 he)
  usage := by rw [I.usage, (hes.map _).sum_eq]

theorem Inv.live (hp : p ∈ c.lru :: es.map Entry.handle) : h.live p = true := by
  rcases List.mem_cons.1 hp with rfl | hp
  · exact I.lru
  · obtain ⟨e, he, rfl⟩ := List.mem_map.1 hp
    exact (I.stored e he).live

theorem Inv.ringMem : ∀ p ∈ c.lru :: ring, p ∈ c.lru :: es.map Entry.handle :=
  List.cons_subset_cons _ I.ringSub

/-- A change of the list: other nodes keep their links. -/
theorem Inv.relink {n p : Ptr → Ptr} {ring' : List Ptr} (hc : Circular n p c.lru ring')
    (hnd : (c.lru :: ring').Nodup) (hsub : ∀ q ∈ ring', q ∈ es.map Entry.handle)
    (hframe : ∀ q ∉ c.lru :: ring', n q = h.next q ∧ p q = h.prev q) :
    Inv asSlice { h with next := n, prev := p } c ring' tab es cnt ∧
      Frame h { h with next := n, prev := p } (c.lru :: es.map Entry.handle) := by
  have hstored : ∀ e ∈ es, Stored { h with next := n, prev := p } e := by
    intro e he
    have s := I.stored e he
    refine { s with next := ?_ }
    by_cases hmem : e.handle ∈ ring'
    · exact next_ne (h := { h with next := n, prev := p }) hc hnd hmem
    · have hlru : e.handle ≠ c.lru := by
        intro heq
        exact (List.nodup_cons.1 I.nodup).1 (heq ▸ List.mem_map_of_mem he)
      have hn := (hframe e.handle (by simp [hlru, hmem])).1
      dsimp only
      rw [hn]
      exact s.next
  refine ⟨{ I with
    circular := hc
    ringNodup := hnd
    ringSub := hsub
    table := ?_
    stored := hstored }, fun q hq => ?_⟩
  · refine I.table.congr (fun _ _ => rfl) (fun _ _ => rfl) (fun q hq => I.table.live hq)
      fun q hq => ?_
    obtain ⟨e, he, rfl⟩ := List.mem_map.1 (I.tabSub q hq)
    rw [(hstored e he).keyOf, (I.stored e he).keyOf]
  · have hq' : q ∉ c.lru :: ring' := by
      intro hmem
      exact hq (List.cons_subset_cons _ hsub hmem)
    exact ⟨rfl, rfl, rfl, rfl, (hframe q hq').1, (hframe q hq').2, rfl, rfl, rfl, rfl⟩

omit I in
theorem Inv.lruRemove (I : Inv asSlice h c (A ++ p :: B) tab es cnt) :
    ∃ h', lruRemove h p = .ok h' ∧ Inv asSlice h' c (A ++ B) tab es cnt ∧
      Frame h h' (c.lru :: es.map Entry.handle) := by
  obtain ⟨n, q, hrun, hc, hframe⟩ := lruRemove_ok I.circular I.ringNodup
    fun q hq => I.live (I.ringMem q hq)
  have hsub : (A ++ B).Sublist (A ++ p :: B) := by simp
  obtain ⟨I', hf⟩ := I.relink hc (I.ringNodup.sublist (hsub.cons_cons _))
    (fun q hq => I.ringSub q (hsub.subset hq)) hframe
  exact ⟨_, hrun, I', hf⟩

theorem Inv.lruAppend (hp : p ∈ es.map Entry.handle) (hring : p ∉ ring) :
    ∃ h', lruAppend h c.lru p = .ok h' ∧
      Inv asSlice h' c (ring ++ [p]) tab es cnt ∧ Frame h h' (c.lru :: es.map Entry.handle) := by
  have hlru : p ≠ c.lru := by
    rintro rfl
    exact (List.nodup_cons.1 I.nodup).1 hp
  have hsub : ∀ q ∈ ring ++ [p], q ∈ es.map Entry.handle := by
    intro q hq
    rcases List.mem_append.1 hq with hq | hq
    · exact I.ringSub q hq
    · rw [List.mem_singleton.1 hq]
      exact hp
  have hnd : (c.lru :: (ring ++ [p])).Nodup := by
    rw [← List.cons_append]
    refine List.nodup_append.2 ⟨I.ringNodup, List.nodup_singleton p, ?_⟩
    rintro x hx y hy rfl
    rw [List.mem_singleton.1 hy] at hx
    rcases List.mem_cons.1 hx with hx | hx
    · exact hlru hx
    · exact hring hx
  obtain ⟨n, q, hrun, hc, hframe⟩ := lruAppend_ok I.circular I.ringNodup
    (by simp [hlru, hring]) fun q hq => I.live (List.cons_subset_cons _ hsub hq)
  obtain ⟨I', hf⟩ := I.relink hc hnd hsub hframe
  exact ⟨_, hrun, I', hf⟩

theorem Inv.setRefs (hp : p ∈ es.map Entry.handle) (n : Nat) :
    h.setRefs p n = .ok { h with refs := Function.update h.refs p n } ∧
      Inv asSlice { h with refs := Function.update h.refs p n } c ring tab es
        (Function.update cnt p n) ∧
      Frame h { h with refs := Function.update h.refs p n } (c.lru :: es.map Entry.handle) := by
  refine ⟨if_pos (I.live (List.mem_cons_of_mem _ hp)), { I with
    table := ?_
    stored := ?_
    refs := ?_ }, fun q hq => ?_⟩
  · exact I.table.congr (fun _ _ => rfl) (fun _ _ => rfl) (fun q hq => I.table.live hq)
      fun _ _ => rfl
  · exact fun e he => { I.stored e he with }
  · intro e he
    by_cases heq : e.handle = p
    · dsimp only
      rw [heq, Function.update_self, Function.update_self]
    · dsimp only
      rw [Function.update_of_ne heq, Function.update_of_ne heq]
      exact I.refs e he
  · have hqp : q ≠ p := by
      rintro rfl
      exact hq (List.mem_cons_of_mem _ hp)
    exact ⟨rfl, rfl, rfl, rfl, rfl, rfl, rfl, rfl, Function.update_of_ne hqp .., rfl⟩

/-- A change of the table. -/
theorem Inv.rehash {f : Ptr → Ptr} {t' : HandleTable} {tab' : List Ptr}
    (H : Holds asSlice { h with nextHash := f } t' tab')
    (hsub : ∀ q ∈ tab', q ∈ es.map Entry.handle)
    (hframe : ∀ q ∉ es.map Entry.handle, f q = h.nextHash q) :
    Inv asSlice { h with nextHash := f } { c with table := t' } ring tab' es cnt ∧
      Frame h { h with nextHash := f } (c.lru :: es.map Entry.handle) := by
  refine ⟨{ I with table := H, tabSub := hsub, stored := fun e he => { I.stored e he with } },
    fun q hq => ?_⟩
  exact ⟨rfl, rfl, rfl, hframe q fun hmem => hq (List.mem_cons_of_mem _ hmem), rfl, rfl, rfl, rfl,
    rfl, rfl⟩

omit I in
/-- `p` is the handle in the table for the key, or `NULL` when there is none. -/
def Found (es : List (Entry K V)) (tab : List Ptr) (key : K) (hash : Nat) (p : Ptr) : Prop :=
  (∃ e ∈ es, e.handle = p ∧ p ∈ tab ∧ e.key = key ∧ e.hash = hash) ∨
    p = 0 ∧ ∀ e ∈ es, e.handle ∈ tab → ¬(e.key = key ∧ e.hash = hash)

theorem Inv.isFor_iff (he : e ∈ es) {key : K} {hash : Nat} :
    IsFor asSlice h key hash e.handle ↔ e.key = key ∧ e.hash = hash := by
  have s := I.stored e he
  unfold IsFor
  rw [s.hash, s.keyOf, and_comm]

theorem Inv.found {key : K} {hash : Nat} (hfound : p ∈ tab ∧ IsFor asSlice h key hash p ∨
      p = 0 ∧ ∀ q ∈ tab, ¬IsFor asSlice h key hash q) : Found es tab key hash p := by
  rcases hfound with ⟨hp, hfor⟩ | ⟨hp, hnone⟩
  · obtain ⟨e, he, rfl⟩ := List.mem_map.1 (I.tabSub p hp)
    obtain ⟨hkey, hhash⟩ := (I.isFor_iff he).1 hfor
    exact .inl ⟨e, he, rfl, hp, hkey, hhash⟩
  · exact .inr ⟨hp, fun e he hmem heq => hnone _ hmem ((I.isFor_iff he).2 heq)⟩

/-- A reference is given back, and there are others. -/
theorem Inv.unref_keep (calls : List (Nat × K × V)) (hp : p ∈ es.map Entry.handle)
    (hcnt : 1 < cnt p) : ∃ h', unref asSlice ⟨h, calls⟩ c p = .ok (⟨h', calls⟩, c) ∧
      Inv asSlice h' c ring tab es (Function.update cnt p (cnt p - 1)) ∧
      Frame h h' (c.lru :: es.map Entry.handle) := by
  obtain ⟨e, he, rfl⟩ := List.mem_map.1 hp
  have hlive := (I.stored e he).live
  obtain ⟨hset, I', hf⟩ := I.setRefs hp (cnt e.handle - 1)
  refine ⟨_, ?_, I', hf⟩
  unfold unref
  dsimp only
  rw [Heap.load_ok hlive, ok_bind, I.refs e he, if_pos (by omega), hset, ok_bind,
    Heap.load_ok (by exact hlive), ok_bind]
  dsimp only
  rw [if_neg (by rw [Function.update_self]; omega)]
  rfl

omit I in
theorem sub_charge (x r : Nat) (hx : x < 2 ^ 64) :
    ((x + r) % 2 ^ 64 + 2 ^ 64 - x) % 2 ^ 64 = r % 2 ^ 64 := by
  omega

omit I in
/-- The last reference is given back, and the memory with it. -/
theorem Stored.unref (s : Stored h e) (c : LRUCache) (calls : List (Nat × K × V))
    (hrefs : h.refs e.handle = 1) :
    Cache.unref asSlice ⟨h, calls⟩ c e.handle = .ok (⟨{ h with
      refs := Function.update h.refs e.handle 0
      live := Function.update h.live e.handle false }, calls ++ [e.call]⟩,
      { c with usage := (c.usage + 2 ^ 64 - e.charge) % 2 ^ 64 }) := by
  have s' : Stored { h with refs := Function.update h.refs e.handle 0 } e := { s with }
  unfold Cache.unref
  dsimp only
  rw [Heap.load_ok s.live, ok_bind, hrefs, if_pos (by decide)]
  unfold Heap.setRefs
  rw [if_pos s.live, ok_bind, Heap.load_ok s'.live, ok_bind]
  dsimp only
  rw [if_pos (by rw [Function.update_self]), Heap.load_ok s'.live, ok_bind, Heap.load_ok s'.live,
    ok_bind]
  unfold Heap.key Heap.free
  rw [Heap.load_ok s'.live, ok_bind, Heap.load_ok s'.live, ok_bind, if_pos s'.live, ok_bind,
    s'.keyOf]
  dsimp only
  rw [s.deleter, s.value, s.charge]
  rfl

omit I in
theorem Inv.unref_free {E₁ E₂ : List (Entry K V)}
    (I : Inv asSlice h c ring tab (E₁ ++ e :: E₂) cnt) (calls : List (Nat × K × V))
    (hcnt : cnt e.handle = 1) (hring : e.handle ∉ ring) (htab : e.handle ∉ tab) :
    ∃ h' u, unref asSlice ⟨h, calls⟩ c e.handle =
        .ok (⟨h', calls ++ [e.call]⟩, { c with usage := u }) ∧
      Inv asSlice h' { c with usage := u } ring tab (E₁ ++ E₂) cnt ∧
      Frame h h' (c.lru :: (E₁ ++ e :: E₂).map Entry.handle) ∧ h'.live e.handle = false := by
  have he : e ∈ E₁ ++ e :: E₂ := by simp
  have s := I.stored e he
  have hnd := I.nodup
  rw [List.nodup_cons, List.map_append, List.map_cons] at hnd
  have hmid := List.nodup_cons.1 (List.nodup_middle.1 hnd.2)
  rw [← List.map_append] at hmid
  have hne : ∀ q ∈ (E₁ ++ E₂).map Entry.handle, q ≠ e.handle :=
    fun q hq => ne_of_mem_of_not_mem hq hmid.1
  have hlru : c.lru ≠ e.handle := fun heq => hnd.1 (by simp [heq])
  have hsub : ∀ q, q ∈ (E₁ ++ e :: E₂).map Entry.handle → q ≠ e.handle →
      q ∈ (E₁ ++ E₂).map Entry.handle := by
    intro q hq hqe
    simp only [List.map_append, List.map_cons, List.mem_append, List.mem_cons] at hq ⊢
    tauto
  have hsubE : ∀ x ∈ E₁ ++ E₂, x ∈ E₁ ++ e :: E₂ := by
    intro x hx
    simp only [List.mem_append, List.mem_cons] at hx ⊢
    tauto
  have hsum : ((E₁ ++ e :: E₂).map Entry.charge).sum =
      e.charge + ((E₁ ++ E₂).map Entry.charge).sum := by
    simp only [List.map_append, List.map_cons, List.sum_append, List.sum_cons]
    omega
  refine ⟨{ h with
      refs := Function.update h.refs e.handle 0
      live := Function.update h.live e.handle false },
    (c.usage + 2 ^ 64 - e.charge) % 2 ^ 64, ?_, {
    circular := I.circular
    ringNodup := I.ringNodup
    ringSub := fun q hq => hsub q (I.ringSub q hq) (ne_of_mem_of_not_mem hq hring)
    table := ?_
    tabSub := fun q hq => hsub q (I.tabSub q hq) (ne_of_mem_of_not_mem hq htab)
    nodup := List.nodup_cons.2 ⟨fun hmem => hnd.1 ?_, hmid.2⟩
    lru := ?_
    stored := fun x hx => { I.stored x (hsubE x hx) with live := ?_ }
    refs := fun x hx => ?_
    usage := ?_ }, fun q hq => ?_, Function.update_self ..⟩
  · exact s.unref c calls ((I.refs e he).trans hcnt)
  · refine I.table.congr (fun _ _ => rfl) (fun _ _ => rfl) (fun q hq => ?_) fun _ _ => rfl
    dsimp only
    rw [Function.update_of_ne (ne_of_mem_of_not_mem hq htab)]
    exact I.table.live hq
  · obtain ⟨x, hx, hxe⟩ := List.mem_map.1 hmem
    rw [← List.map_cons, ← List.map_append, ← hxe]
    exact List.mem_map_of_mem (hsubE x hx)
  · exact (Function.update_of_ne hlru ..).trans I.lru
  · exact (Function.update_of_ne (hne _ (List.mem_map_of_mem hx)) ..).trans
      (I.stored x (hsubE x hx)).live
  · exact (Function.update_of_ne (hne _ (List.mem_map_of_mem hx)) ..).trans
      (I.refs x (hsubE x hx))
  · dsimp only
    rw [I.usage, hsum]
    exact sub_charge _ _ s.size
  · have hqe : q ≠ e.handle := by
      rintro rfl
      exact hq (List.mem_cons_of_mem _ (List.mem_map_of_mem he))
    exact ⟨Function.update_of_ne hqe .., rfl, rfl, rfl, rfl, rfl, rfl, rfl,
      Function.update_of_ne hqe .., rfl⟩

/-- A new handle, with a reference of the cache and one of the client. -/
theorem Inv.append_new (hdead : h.live e.handle = false) (hzero : e.handle ≠ 0)
    (hsize : e.charge < 2 ^ 64) :
    ∃ h', Cache.lruAppend (h.alloc e.handle e.key e.hash e.value e.charge e.deleter) c.lru
        e.handle = .ok h' ∧
      Inv asSlice h' { c with usage := (c.usage + e.charge) % 2 ^ 64 } (ring ++ [e.handle]) tab
        (e :: es) (Function.update cnt e.handle 2) ∧
      Frame h h' (c.lru :: (e :: es).map Entry.handle) := by
  have hout : ∀ q ∈ c.lru :: es.map Entry.handle, q ≠ e.handle := by
    rintro q hq rfl
    rw [I.live hq] at hdead
    cases hdead
  have hring : e.handle ∉ c.lru :: ring := fun hmem => hout _ (I.ringMem _ hmem) rfl
  have hnd : (c.lru :: (ring ++ [e.handle])).Nodup := by
    rw [← List.cons_append]
    refine List.nodup_append.2 ⟨I.ringNodup, List.nodup_singleton _, ?_⟩
    rintro x hx y hy rfl
    exact hring (List.mem_singleton.1 hy ▸ hx)
  have hlive : ∀ q ∈ c.lru :: es.map Entry.handle,
      Function.update h.live e.handle true q = true := by
    intro q hq
    rw [Function.update_of_ne (hout q hq)]
    exact I.live hq
  obtain ⟨n, p, hrun, hc, hframe⟩ := lruAppend_ok
    (h := h.alloc e.handle e.key e.hash e.value e.charge e.deleter) I.circular I.ringNodup hring
    (by
      intro q hq
      rw [← List.cons_append, List.mem_append, List.mem_singleton] at hq
      rcases hq with hq | rfl
      · exact hlive q (I.ringMem q hq)
      · exact Function.update_self ..)
  have hsame : ∀ (α : Type) (f : Ptr → α) (a : α), ∀ q ∈ c.lru :: es.map Entry.handle,
      Function.update f e.handle a q = f q :=
    fun _ _ _ q hq => Function.update_of_ne (hout q hq) ..
  have hnext : ∀ x ∈ es, n x.handle ≠ x.handle := by
    intro x hx
    have hmem := List.mem_cons_of_mem c.lru (List.mem_map_of_mem (f := Entry.handle) hx)
    by_cases hxr : x.handle ∈ ring ++ [e.handle]
    · exact next_ne (h := { h with next := n, prev := p }) hc hnd hxr
    · have hxl : x.handle ≠ c.lru := by
        intro heq
        exact (List.nodup_cons.1 I.nodup).1 (heq ▸ List.mem_map_of_mem hx)
      rw [(hframe x.handle (by rw [List.mem_cons, not_or]; exact ⟨hxl, hxr⟩)).1]
      exact (I.stored x hx).next
  have hold : ∀ x ∈ es, Stored { h.alloc e.handle e.key e.hash e.value e.charge e.deleter with
      next := n, prev := p } x := by
    intro x hx
    have hmem := List.mem_cons_of_mem c.lru (List.mem_map_of_mem (f := Entry.handle) hx)
    have s := I.stored x hx
    exact ⟨hlive _ hmem, s.nonzero, (hsame _ _ _ _ hmem).trans s.keyData,
      (hsame _ _ _ _ hmem).trans s.hash, (hsame _ _ _ _ hmem).trans s.value,
      (hsame _ _ _ _ hmem).trans s.charge, (hsame _ _ _ _ hmem).trans s.deleter, hnext x hx, s.size⟩
  have hnew : Stored { h.alloc e.handle e.key e.hash e.value e.charge e.deleter with
      next := n, prev := p } e :=
    ⟨Function.update_self .., hzero, Function.update_self .., Function.update_self ..,
      Function.update_self .., Function.update_self .., Function.update_self ..,
      next_ne (h := { h with next := n, prev := p }) hc hnd (by simp), hsize⟩
  refine ⟨_, hrun, {
    circular := hc
    ringNodup := hnd
    ringSub := fun q hq => ?_
    table := ?_
    tabSub := fun q hq => List.mem_cons_of_mem _ (I.tabSub q hq)
    nodup := ?_
    lru := hlive _ List.mem_cons_self
    stored := fun x hx => ?_
    refs := fun x hx => ?_
    usage := ?_ }, fun q hq => ?_⟩
  · rcases List.mem_append.1 hq with hq | hq
    · exact List.mem_cons_of_mem _ (I.ringSub q hq)
    · rw [List.mem_singleton.1 hq]
      exact List.mem_cons_self
  · have hmem : ∀ q ∈ tab, q ∈ c.lru :: es.map Entry.handle :=
      fun q hq => List.mem_cons_of_mem _ (I.tabSub q hq)
    refine I.table.congr (fun _ _ => rfl) (fun q hq => hsame _ _ _ _ (hmem q hq))
      (fun q hq => hlive q (hmem q hq)) fun q hq => ?_
    obtain ⟨x, hx, rfl⟩ := List.mem_map.1 (I.tabSub q hq)
    rw [(I.stored x hx).keyOf]
    exact (hold x hx).keyOf _
  · have hlru := (List.nodup_cons.1 I.nodup)
    rw [List.map_cons, List.nodup_cons, List.nodup_cons, List.mem_cons, not_or]
    exact ⟨⟨hout _ List.mem_cons_self, hlru.1⟩,
      fun hmem => hout _ (List.mem_cons_of_mem _ hmem) rfl, hlru.2⟩
  · rcases List.mem_cons.1 hx with rfl | hx
    · exact hnew
    · exact hold x hx
  · rcases List.mem_cons.1 hx with rfl | hx
    · rw [Function.update_self]
      exact Function.update_self ..
    · have hmem := List.mem_cons_of_mem c.lru (List.mem_map_of_mem (f := Entry.handle) hx)
      exact (hsame _ _ _ _ hmem).trans ((I.refs x hx).trans (hsame _ _ _ _ hmem).symm)
  · dsimp only
    rw [I.usage, List.map_cons, List.sum_cons, Nat.mod_add_mod, Nat.add_comm]
  · rw [List.map_cons, List.mem_cons, List.mem_cons, not_or, not_or] at hq
    have hring' : q ∉ c.lru :: (ring ++ [e.handle]) := by
      intro hmem
      rw [← List.cons_append, List.mem_append, List.mem_singleton] at hmem
      rcases hmem with hmem | hmem
      · rcases List.mem_cons.1 (I.ringMem q hmem) with hmem | hmem
        · exact hq.1 hmem
        · exact hq.2.2 hmem
      · exact hq.2.1 hmem
    have hne : ∀ (α : Type) (f : Ptr → α) (a : α), Function.update f e.handle a q = f q :=
      fun _ _ _ => Function.update_of_ne hq.2.1 ..
    exact ⟨hne _ _ _, hne _ _ _, hne _ _ _, rfl, (hframe q hring').1, (hframe q hring').2,
      hne _ _ _, hne _ _ _, hne _ _ _, hne _ _ _⟩

variable [DecidableEq K]

theorem Inv.tableLookup (key : K) (hash : Nat) :
    ∃ p, c.table.lookup asSlice h key hash = .ok p ∧ Found es tab key hash p := by
  obtain ⟨p, hrun, hfound⟩ := I.table.lookup key hash
  exact ⟨p, hrun, I.found hfound⟩

theorem Inv.tableRemove (key : K) (hash : Nat) :
    ∃ p h' t', c.table.remove asSlice h key hash = .ok (p, h', t') ∧ Found es tab key hash p ∧
      Inv asSlice h' { c with table := t' } ring (tab.erase p) es cnt ∧
      Frame h h' (c.lru :: es.map Entry.handle) := by
  obtain ⟨p, f, t', hrun, hfound, H, hframe⟩ := I.table.remove key hash
  obtain ⟨I', hf⟩ := I.rehash H (fun q hq => I.tabSub q (List.mem_of_mem_erase hq))
    fun q hq => hframe q fun hmem => hq (I.tabSub q hmem)
  exact ⟨p, _, t', hrun, I.found hfound, I', hf⟩

theorem Inv.tableInsert (he : e ∈ es) (htab : e.handle ∉ tab) (hroom : tab.length < 2 ^ 31) :
    ∃ p h' t', c.table.insert asSlice h e.handle = .ok (p, h', t') ∧
      Found es tab e.key e.hash p ∧
      Inv asSlice h' { c with table := t' } ring (e.handle :: tab.erase p) es cnt ∧
      Frame h h' (c.lru :: es.map Entry.handle) := by
  have s := I.stored e he
  obtain ⟨p, f, t', hrun, hfound, H, hframe⟩ := I.table.insert htab s.live s.nonzero hroom
  have hmem : e.handle ∈ es.map Entry.handle := List.mem_map_of_mem he
  rw [s.keyOf, s.hash] at hfound
  obtain ⟨I', hf⟩ := I.rehash H
    (by
      intro q hq
      rcases List.mem_cons.1 hq with rfl | hq
      · exact hmem
      · exact I.tabSub q (List.mem_of_mem_erase hq))
    (by
      intro q hq
      refine hframe q ?_
      rw [List.mem_cons, not_or]
      exact ⟨fun heq => hq (heq ▸ hmem), fun htab => hq (I.tabSub q htab)⟩)
  exact ⟨p, _, t', hrun, I.found hfound, I', hf⟩

end

end Leveldb.Cache
