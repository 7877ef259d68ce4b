import DsAlgor.Lib.HashChains
import DsAlgor.Lib.Outcome

/-!
# The hash table in C

`hashtable.c`, with the memory of its entries. An address is a number, 0 is `NULL`, and a new entry
comes from `brk`; an access to an entry that is not allocated is a fault, and so is one outside an
array, a read of memory that nothing was written to, and a loop that does not come to its end.
Whether `malloc` and `realloc` succeed is up to the caller, and so is `loadLimit`, the number
`ceil(size * max_load_factor)` that the floating point unit gives for a size.

`Holds m t nodes`: the table has the entries `nodes`, newest first. An expansion turns the entries
of a hash value round (`Holds.expand`).
-/

namespace Hashtable

open HashChains Circular
open Outcome (ok_bind)

abbrev Ptr := Nat

inductive Fault
  /-- An access to an entry that is not allocated. -/
  | freed
  | outOfBounds
  /-- A read of memory that nothing was written to. -/
  | uninitialised
  /-- A loop without end. -/
  | loop
deriving DecidableEq

/-- The functions that `create_hashtable` gets. -/
structure KeyFns (K : Type) where
  hashfn : K → BitVec 32
  eqfn : K → K → Bool
  /-- Equal keys have one hash value. -/
  compat : ∀ k k', eqfn k k' = true → hashfn k = hashfn k'

/-- The fields of the `struct entry`s, and what `free` was called for besides them. -/
structure Memory (K V : Type) where
  live : Ptr → Bool
  k : Ptr → K
  v : Ptr → V
  h : Ptr → BitVec 32
  next : Ptr → Ptr
  brk : Ptr
  freedKeys : List K
  freedValues : List V

/-- `struct hashtable` -/
structure Table where
  tablelength : Nat
  table : List Ptr
  entrycount : Nat
  loadlimit : Nat
  primeindex : Nat

/-- `primes` -/
def primes : List Nat :=
  [53, 97, 193, 389, 769, 1543, 3079, 6151, 12289, 24593, 49157, 98317, 196613, 393241, 786433,
    1572869, 3145739, 6291469, 12582917, 25165843, 50331653, 100663319, 201326611, 402653189,
    805306457, 1610612741]

section
variable {K V α : Type}

/-- `e->f` -/
def Memory.load (m : Memory K V) (f : Ptr → α) (e : Ptr) : Except Fault α :=
  if m.live e then .ok (f e) else .error .freed

/-- `e->next = p` -/
def Memory.setNext (m : Memory K V) (e p : Ptr) : Except Fault (Memory K V) :=
  if m.live e then .ok { m with next := Function.update m.next e p } else .error .freed

/-- `freekey(e->k); free(e)` -/
def Memory.free (m : Memory K V) (e : Ptr) : Except Fault (Memory K V) := do
  let k ← m.load m.k e
  return { m with live := Function.update m.live e false, freedKeys := m.freedKeys ++ [k] }

/-- `table[i]` -/
def cell (table : List Ptr) (i : Nat) : Except Fault Ptr :=
  match table[i]? with
  | some p => .ok p
  | none => .error .outOfBounds

/-- `table[i] = p` -/
def setCell (table : List Ptr) (i : Nat) (p : Ptr) : Except Fault (List Ptr) :=
  if i < table.length then .ok (table.set i p) else .error .outOfBounds

/-! ## Creation -/

/-- The loop of `create_hashtable`: `size` and `pindex`. -/
def findPrime (minsize : Nat) : Nat → List Nat → Nat × Nat
  | pindex, [] => (53, pindex)
  | pindex, p :: ps => if p > minsize then (p, pindex) else findPrime minsize (pindex + 1) ps

/-- `create_hashtable`; the two flags say whether `malloc` succeeds. -/
def create (loadLimit : Nat → Nat) (minsize : Nat) (forTable forArray : Bool) : Option Table :=
  if minsize > 2 ^ 30 then none
  else
    let (size, pindex) := findPrime minsize 0 primes
    if forTable && forArray then
      some
        { tablelength := size
          table := List.replicate size 0
          entrycount := 0
          loadlimit := loadLimit size
          primeindex := pindex }
    else none

/-- `hash` -/
def hash (fns : KeyFns K) (k : K) : BitVec 32 :=
  let i := fns.hashfn k
  let i := i + ~~~(i <<< 9)
  let i := i ^^^ ((i >>> 14) ||| (i <<< 18))
  let i := i + (i <<< 4)
  i ^^^ ((i >>> 10) ||| (i <<< 22))

/-- `indexFor` -/
def indexFor (tablelength : Nat) (hashvalue : BitVec 32) : Nat := hashvalue.toNat % tablelength

/-! ## Expansion -/

/-- Which allocations succeed. -/
structure Allocs where
  /-- The `malloc` of the new table. -/
  table : Bool
  /-- The `realloc` of the table. -/
  realloc : Bool
  /-- The `malloc` of the entry. -/
  entry : Bool

/-- What `hashtable_expand` changes: the entries, `h->table` and `newtable`. -/
structure Moving (K V : Type) where
  memory : Memory K V
  table : List Ptr
  newtable : List Ptr

/-- `while (NULL != (e = h->table[i])) { … }` -/
def moveLoop (newsize i : Nat) : Nat → Moving K V → Except Fault (Moving K V)
  | 0, _ => .error .loop
  | fuel + 1, s => do
    let e ← cell s.table i
    if e ≠ 0 then
      let table ← setCell s.table i (← s.memory.load s.memory.next e)
      let index := indexFor newsize (← s.memory.load s.memory.h e)
      let memory ← s.memory.setNext e (← cell s.newtable index)
      let newtable ← setCell s.newtable index e
      moveLoop newsize i fuel ⟨memory, table, newtable⟩
    else return s

def expand (loadLimit : Nat → Nat) (a : Allocs) (m : Memory K V) (t : Table) :
    Except Fault (Memory K V × Table) :=
  if t.primeindex = primes.length - 1 then return (m, t)
  else do
    let newsize ← cell primes (t.primeindex + 1)
    if a.table then
      let s ← (List.range t.tablelength).foldlM (fun s i => moveLoop newsize i (m.brk + 1) s)
        ⟨m, t.table, List.replicate newsize 0⟩
      return (s.memory, {
        tablelength := newsize
        table := s.newtable
        entrycount := t.entrycount
        loadlimit := loadLimit newsize
        primeindex := t.primeindex + 1 })
    else if a.realloc then
      -- `memset(newtable[h->tablelength], …)`, and nothing was written to that cell
      .error .uninitialised
    else return (m, t)

/-! ## The operations -/

/-- `if (++(h->entrycount) > h->loadlimit) hashtable_expand(h);` -/
def countUp (loadLimit : Nat → Nat) (a : Allocs) (m : Memory K V) (t : Table) :
    Except Fault (Memory K V × Table) :=
  let t := { t with entrycount := (t.entrycount + 1) % 2 ^ 32 }
  if t.entrycount > t.loadlimit then expand loadLimit a m t else return (m, t)

/-- `hashtable_insert` -/
def insert (fns : KeyFns K) (loadLimit : Nat → Nat) (a : Allocs) (m : Memory K V) (t : Table)
    (k : K) (v : V) : Except Fault (Bool × Memory K V × Table) := do
  let (m, t) ← countUp loadLimit a m t
  if a.entry then
    let e := m.brk
    let h := hash fns k
    let index := indexFor t.tablelength h
    let m :=
      { m with
        live := Function.update m.live e true
        h := Function.update m.h e h
        k := Function.update m.k e k
        v := Function.update m.v e v
        brk := m.brk + 1 }
    let m ← m.setNext e (← cell t.table index)
    return (true, m, { t with table := ← setCell t.table index e })
  else return (false, m, { t with entrycount := (t.entrycount + 2 ^ 32 - 1) % 2 ^ 32 })

/-- The loop of `hashtable_search`; `NULL` is `none`. -/
def searchLoop (fns : KeyFns K) (m : Memory K V) (k : K) : Nat → Ptr → Except Fault (Option V)
  | 0, _ => .error .loop
  | fuel + 1, e =>
    if e ≠ 0 then do
      if hash fns k = (← m.load m.h e) ∧ fns.eqfn k (← m.load m.k e) then
        return some (← m.load m.v e)
      else searchLoop fns m k fuel (← m.load m.next e)
    else return none

/-- `hashtable_search` -/
def search (fns : KeyFns K) (m : Memory K V) (t : Table) (k : K) : Except Fault (Option V) := do
  searchLoop fns m k (m.brk + 1) (← cell t.table (indexFor t.tablelength (hash fns k)))

/-- `*pE` -/
def loadSlot (m : Memory K V) (table : List Ptr) : Slot Ptr → Except Fault Ptr
  | .head i => cell table i
  | .next e => m.load m.next e

/-- `*pE = p` -/
def storeSlot (m : Memory K V) (table : List Ptr) (p : Ptr) :
    Slot Ptr → Except Fault (Memory K V × List Ptr)
  | .head i => do return (m, ← setCell table i p)
  | .next e => do return (← m.setNext e p, table)

/-- The loop of `hashtable_remove`. -/
def removeLoop (fns : KeyFns K) (k : K) (m : Memory K V) (t : Table) :
    Nat → Slot Ptr → Except Fault (Option V × Memory K V × Table)
  | 0, _ => .error .loop
  | fuel + 1, pE => do
    let e ← loadSlot m t.table pE
    if e ≠ 0 then
      if hash fns k = (← m.load m.h e) ∧ fns.eqfn k (← m.load m.k e) then
        let (m, table) ← storeSlot m t.table (← m.load m.next e) pE
        let v ← m.load m.v e
        return (some v, ← m.free e,
          { t with table := table, entrycount := (t.entrycount + 2 ^ 32 - 1) % 2 ^ 32 })
      else removeLoop fns k m t fuel (.next e)
    else return (none, m, t)

/-- `hashtable_remove` -/
def remove (fns : KeyFns K) (m : Memory K V) (t : Table) (k : K) :
    Except Fault (Option V × Memory K V × Table) :=
  removeLoop fns k m t (m.brk + 1) (.head (indexFor t.tablelength (hash fns k)))

/-- The loop of `hashtable_destroy` over a row. -/
def destroyLoop (freeValues : Bool) : Nat → Ptr → Memory K V → Except Fault (Memory K V)
  | 0, _, _ => .error .loop
  | fuel + 1, e, m =>
    if e ≠ 0 then do
      let next ← m.load m.next e
      let v ← m.load m.v e
      let m ← m.free e
      destroyLoop freeValues fuel next
        (if freeValues then { m with freedValues := m.freedValues ++ [v] } else m)
    else return m

/-- `hashtable_destroy` -/
def destroy (freeValues : Bool) (m : Memory K V) (t : Table) : Except Fault (Memory K V) :=
  (List.range t.tablelength).foldlM
    (fun m i => do destroyLoop freeValues (m.brk + 1) (← cell t.table i) m) m

end

/-! ## What a table holds -/

/-- The table has the entries `nodes`, newest first; those of one hash value are in one row, in
this order. -/
structure Holds {K V : Type} (fns : KeyFns K) (loadLimit : Nat → Nat) (m : Memory K V) (t : Table)
    (rows : Nat → List Ptr) (nodes : List Ptr) : Prop where
  chained : Chained (heads 0 t.table) m.next 0 t.tablelength rows
  size : t.table.length = t.tablelength
  perm : (Buckets.rows t.tablelength rows).Perm nodes
  home : ∀ i < t.tablelength, ∀ p ∈ rows i, indexFor t.tablelength (m.h p) = i
  order : ∀ h, (rows (indexFor t.tablelength h)).filter (m.h · = h) = nodes.filter (m.h · = h)
  live : ∀ p, m.live p = true ↔ p ∈ nodes
  bound : ∀ p ∈ nodes, p < m.brk
  brk : 0 < m.brk
  hashed : ∀ p ∈ nodes, m.h p = hash fns (m.k p)
  prime : primes[t.primeindex]? = some t.tablelength
  limit : t.loadlimit = loadLimit t.tablelength

section
variable {K V α : Type} {fns : KeyFns K} {loadLimit : Nat → Nat} {m : Memory K V} {t : Table}
  {rows : Nat → List Ptr} {nodes A B : List Ptr} {i : Nat} {e : Ptr} {k : K}

theorem hash_eq {k k' : K} (h : fns.eqfn k k' = true) : hash fns k = hash fns k' := by
  unfold hash
  rw [fns.compat k k' h]

theorem Memory.load_ok (he : m.live e = true) (f : Ptr → α) : m.load f e = .ok (f e) := if_pos he

theorem Memory.setNext_ok (he : m.live e = true) (p : Ptr) :
    m.setNext e p = .ok { m with next := Function.update m.next e p } :=
  if_pos he

theorem cell_ok {table : List Ptr} (hi : i < table.length) :
    cell table i = .ok (heads 0 table i) := by
  unfold cell heads
  rw [List.getD_eq_getElem?_getD, List.getElem?_eq_getElem hi]
  rfl

theorem setCell_ok {table : List Ptr} (hi : i < table.length) (p : Ptr) :
    setCell table i p = .ok (table.set i p) :=
  if_pos hi

namespace Holds

variable (H : Holds fns loadLimit m t rows nodes)
include H

theorem pos : 0 < t.tablelength := by
  have hall : ∀ p ∈ primes, 0 < p := by decide
  exact hall _ (List.mem_of_getElem? H.prime)

theorem index_lt (h : BitVec 32) : indexFor t.tablelength h < t.tablelength :=
  Nat.mod_lt _ H.pos

theorem mem_nodes (hi : i < t.tablelength) (he : e ∈ rows i) : e ∈ nodes :=
  H.perm.mem_iff.1 (mem_rows.2 ⟨i, hi, he⟩)

theorem nodup : nodes.Nodup :=
  H.perm.nodup_iff.1 H.chained.nodup

theorem row_live (hi : i < t.tablelength) (he : e ∈ rows i) : m.live e = true :=
  (H.live e).2 (H.mem_nodes hi he)

theorem ne_zero (hi : i < t.tablelength) (he : e ∈ rows i) : e ≠ 0 :=
  ne_of_mem_of_not_mem he (H.chained.null i hi)

theorem row_lt (hi : i < t.tablelength) : (rows i).length < m.brk + 1 := by
  have hsub : rows i ⊆ List.range m.brk := fun p hp =>
    List.mem_range.2 (H.bound p (H.mem_nodes hi hp))
  have hle := ((nodup_row H.chained.nodup hi).subperm hsub).length_le
  rw [List.length_range] at hle
  exact Nat.lt_succ_of_le hle

theorem head (hi : i < t.tablelength) : cell t.table i = .ok (headOr 0 (rows i)) := by
  rw [cell_ok (by rw [H.size]; exact hi), H.chained.head_eq hi rfl]

/-- The entries of a hash value are those of its row. -/
theorem all_filter (h : BitVec 32) :
    (Buckets.rows t.tablelength rows).filter (m.h · = h) = nodes.filter (m.h · = h) := by
  rw [← H.order, filter_rows (H.index_lt h)]
  intro j hj hne p hp
  refine decide_eq_false fun heq => hne ?_
  rw [← heq, H.home j hj p hp]

end Holds

/-! ## Searches -/

/-- What the loops look for. -/
def Matches (fns : KeyFns K) (m : Memory K V) (k : K) (e : Ptr) : Prop :=
  hash fns k = m.h e ∧ fns.eqfn k (m.k e) = true

instance : DecidablePred (Matches fns m k) := fun e =>
  inferInstanceAs (Decidable (hash fns k = m.h e ∧ fns.eqfn k (m.k e) = true))

/-- The first match in the row is the newest entry with an equal key. -/
theorem Holds.find_row (H : Holds fns loadLimit m t rows nodes) (k : K) :
    (rows (indexFor t.tablelength (hash fns k))).find? (Matches fns m k ·) =
      nodes.find? (fun p => fns.eqfn k (m.k p)) := by
  have hrow : ∀ L : List Ptr, L.find? (Matches fns m k ·) =
      (L.filter (m.h · = hash fns k)).find? (fun p => fns.eqfn k (m.k p)) := by
    intro L
    rw [List.find?_filter]
    refine congrArg (L.find? ·) (funext fun p => decide_eq_decide.2 ?_)
    unfold Matches
    rw [decide_eq_true_eq, eq_comm]
  have hnodes : nodes.find? (fun p => fns.eqfn k (m.k p)) =
      (nodes.filter (m.h · = hash fns k)).find? (fun p => fns.eqfn k (m.k p)) := by
    rw [List.find?_filter]
    refine List.find?_congr fun p hp => ?_
    by_cases heq : fns.eqfn k (m.k p) = true
    · have hhash : m.h p = hash fns k := by rw [H.hashed p hp, hash_eq heq]
      simp [heq, hhash]
    · simp [heq]
  rw [hrow, H.order, hnodes]

theorem Holds.searchLoop (H : Holds fns loadLimit m t rows nodes) (hi : i < t.tablelength) (k : K) :
    ∀ {B A : List Ptr} {fuel : Nat}, rows i = A ++ B → B.length < fuel →
      searchLoop fns m k fuel (headOr 0 B) = .ok ((B.find? (Matches fns m k ·)).map m.v)
  | _, _, 0, _, hf => absurd hf (Nat.not_lt_zero _)
  | [], _, fuel + 1, _, _ => by
    unfold Hashtable.searchLoop
    rw [headOr_nil, if_neg (not_not.2 rfl)]
    rfl
  | p :: B, A, fuel + 1, hrow, hf => by
    have hp : p ∈ rows i := by rw [hrow]; simp
    have hlive := H.row_live hi hp
    unfold Hashtable.searchLoop
    rw [headOr_cons, if_pos (H.ne_zero hi hp), Memory.load_ok hlive, ok_bind,
      Memory.load_ok hlive, ok_bind, Memory.load_ok hlive, ok_bind, Memory.load_ok hlive, ok_bind,
      List.find?_cons]
    by_cases hmatch : Matches fns m k p
    · rw [if_pos (by exact hmatch), decide_eq_true hmatch]
      rfl
    · rw [if_neg (by exact hmatch), decide_eq_false hmatch, H.chained.next_eq hi hrow]
      exact H.searchLoop hi k (A := A ++ [p]) (by simpa using hrow) (by simpa using hf)

/-- **`hashtable_search`** gives the value of the newest entry with an equal key. -/
theorem Holds.search (H : Holds fns loadLimit m t rows nodes) (k : K) :
    search fns m t k = .ok ((nodes.find? (fun p => fns.eqfn k (m.k p))).map m.v) := by
  have hi := H.index_lt (hash fns k)
  unfold Hashtable.search
  rw [H.head hi, ok_bind, H.searchLoop hi k (A := []) rfl (H.row_lt hi), H.find_row]

/-! ## Removal -/

namespace Holds

variable (H : Holds fns loadLimit m t rows nodes)
include H

theorem loadSlot (hi : i < t.tablelength) (hrow : rows i = A ++ B) :
    loadSlot m t.table (.behind i A) = .ok (headOr 0 B) := by
  have hload := H.chained.load hi hrow
  cases A using List.reverseRecOn with
  | nil =>
    rw [← hload]
    exact cell_ok (by rw [H.size]; exact hi)
  | append_singleton A p _ =>
    rw [Slot.behind_concat] at hload ⊢
    rw [← hload]
    exact Memory.load_ok (H.row_live hi (by rw [hrow]; simp)) _

theorem storeSlot (hi : i < t.tablelength) (hrow : rows i = A ++ B) (q : Ptr) :
    ∃ f table, storeSlot m t.table q (.behind i A) = .ok ({ m with next := f }, table) ∧
      (Slot.behind i A).store (heads 0 t.table) m.next q = (heads 0 table, f) ∧
      table.length = t.table.length := by
  have hi' : i < t.table.length := by rw [H.size]; exact hi
  cases A using List.reverseRecOn with
  | nil =>
    refine ⟨m.next, t.table.set i q, ?_, ?_, List.length_set ..⟩
    · unfold Hashtable.storeSlot
      rw [Slot.behind_nil]
      dsimp only
      rw [setCell_ok hi']
      rfl
    · rw [heads_set hi']
      rfl
  | append_singleton A p _ =>
    refine ⟨Function.update m.next p q, t.table, ?_, ?_, rfl⟩
    · unfold Hashtable.storeSlot
      rw [Slot.behind_concat]
      dsimp only
      rw [Memory.setNext_ok (H.row_live hi (by rw [hrow]; simp))]
      rfl
    · rw [Slot.behind_concat]
      rfl

theorem length_without (he : e ∈ nodes) : (nodes.filter (· ≠ e)).length + 1 = nodes.length := by
  have hnot : e ∉ nodes.filter (· ≠ e) := by simp
  have hperm : (e :: nodes.filter (· ≠ e)).Perm nodes := by
    refine (List.perm_ext_iff_of_nodup (List.nodup_cons.2 ⟨hnot, H.nodup.filter _⟩) H.nodup).2 ?_
    intro x
    rw [List.mem_cons, List.mem_filter, decide_eq_true_eq]
    by_cases hx : x = e
    · simp [hx, he]
    · simp [hx]
  rw [← hperm.length_eq, List.length_cons]

/-- An entry is taken out of its row and freed. -/
theorem unlink (hi : i < t.tablelength) (hrow : rows i = A ++ e :: B) {f : Ptr → Ptr}
    {table : List Ptr} (freedKeys : List K)
    (hslot : (Slot.behind i A).store (heads 0 t.table) m.next (m.next e) = (heads 0 table, f))
    (hsize : table.length = t.table.length) : Holds fns loadLimit
      { m with
        next := f
        live := Function.update m.live e false
        freedKeys := freedKeys }
      { t with table := table, entrycount := (t.entrycount + 2 ^ 32 - 1) % 2 ^ 32 }
      (Function.update rows i (A ++ B)) (nodes.filter (· ≠ e)) := by
  have hwithout := fun j (hj : j < t.tablelength) =>
    update_eq_filter H.chained.nodup hi hrow hj
  have hchained := H.chained.unlink hi hrow hslot
  refine ⟨hchained, hsize.trans H.size, ?_, fun j hj p hp => ?_, fun h => ?_, fun p => ?_,
    fun p hp => ?_, H.brk, fun p hp => ?_, H.prime, H.limit⟩
  · refine (List.perm_ext_iff_of_nodup hchained.nodup (H.nodup.filter _)).2 fun p => ?_
    rw [List.mem_filter, ← H.perm.mem_iff, mem_rows, mem_rows]
    constructor
    · rintro ⟨j, hj, hp⟩
      rw [hwithout j hj, List.mem_filter] at hp
      exact ⟨⟨j, hj, hp.1⟩, hp.2⟩
    · rintro ⟨⟨j, hj, hp⟩, hpe⟩
      refine ⟨j, hj, ?_⟩
      rw [hwithout j hj]
      exact List.mem_filter.2 ⟨hp, hpe⟩
  · rw [hwithout j hj] at hp
    exact H.home j hj p (List.mem_filter.1 hp).1
  · dsimp only
    rw [hwithout _ (H.index_lt h), List.filter_comm, H.order, List.filter_comm]
  · dsimp only
    rw [List.mem_filter, decide_eq_true_eq, ← H.live]
    by_cases hp : p = e
    · rw [hp, Function.update_self]
      simp
    · rw [Function.update_of_ne hp]
      simp [hp]
  · exact H.bound p (List.mem_filter.1 hp).1
  · exact H.hashed p (List.mem_filter.1 hp).1

theorem removeLoop (hi : i < t.tablelength) (k : K) :
    ∀ {B A : List Ptr} {fuel : Nat}, rows i = A ++ B → B.length < fuel →
      (B.find? (Matches fns m k ·) = none ∧
        removeLoop fns k m t fuel (.behind i A) = .ok (none, m, t)) ∨
      ∃ e m' t' rows', B.find? (Matches fns m k ·) = some e ∧
        removeLoop fns k m t fuel (.behind i A) = .ok (some (m.v e), m', t') ∧
        Holds fns loadLimit m' t' rows' (nodes.filter (· ≠ e)) ∧ m'.k = m.k ∧ m'.v = m.v ∧
        m'.freedKeys = m.freedKeys ++ [m.k e] ∧ m'.freedValues = m.freedValues ∧
        t'.primeindex = t.primeindex ∧ t'.entrycount = (t.entrycount + 2 ^ 32 - 1) % 2 ^ 32
  | _, _, 0, _, hf => absurd hf (Nat.not_lt_zero _)
  | [], A, fuel + 1, hrow, _ => by
    refine .inl ⟨rfl, ?_⟩
    unfold Hashtable.removeLoop
    rw [H.loadSlot hi hrow, ok_bind, headOr_nil, if_neg (not_not.2 rfl)]
    rfl
  | p :: B, A, fuel + 1, hrow, hf => by
    have hp : p ∈ rows i := by rw [hrow]; simp
    have hlive := H.row_live hi hp
    unfold Hashtable.removeLoop
    rw [H.loadSlot hi hrow, ok_bind, headOr_cons, if_pos (H.ne_zero hi hp), Memory.load_ok hlive,
      ok_bind, Memory.load_ok hlive, ok_bind, List.find?_cons]
    by_cases hmatch : Matches fns m k p
    · rw [if_pos (by exact hmatch), decide_eq_true hmatch, Memory.load_ok hlive, ok_bind]
      obtain ⟨f, table, hstore, hslot, hsize⟩ := H.storeSlot hi hrow (m.next p)
      refine .inr ⟨p, _, _, _, rfl, ?_, H.unlink hi hrow (m.freedKeys ++ [m.k p]) hslot hsize, rfl,
        rfl, rfl, rfl, rfl, rfl⟩
      have hlive' : { m with next := f }.live p = true := hlive
      rw [hstore, ok_bind]
      dsimp only
      unfold Memory.free
      rw [Memory.load_ok hlive', ok_bind, Memory.load_ok hlive', ok_bind]
      rfl
    · rw [if_neg (by exact hmatch), decide_eq_false hmatch, ← Slot.behind_concat i A p]
      exact removeLoop hi k (by simpa using hrow) (by simpa using hf)

/-- **`hashtable_remove`** takes the newest entry with an equal key out, and frees it with its
key. -/
theorem remove (k : K) :
    (nodes.find? (fun p => fns.eqfn k (m.k p)) = none ∧ remove fns m t k = .ok (none, m, t)) ∨
    ∃ e m' t' rows', nodes.find? (fun p => fns.eqfn k (m.k p)) = some e ∧
      remove fns m t k = .ok (some (m.v e), m', t') ∧
      Holds fns loadLimit m' t' rows' (nodes.filter (· ≠ e)) ∧ m'.k = m.k ∧ m'.v = m.v ∧
      m'.freedKeys = m.freedKeys ++ [m.k e] ∧ m'.freedValues = m.freedValues ∧
      t'.primeindex = t.primeindex ∧ t'.entrycount = (t.entrycount + 2 ^ 32 - 1) % 2 ^ 32 := by
  have hi := H.index_lt (hash fns k)
  rw [← H.find_row k]
  exact H.removeLoop hi k (A := []) rfl (H.row_lt hi)

end Holds

/-! ## Expansion -/

section
variable {n : Nat} {s : Moving K V} {moved ps : List Ptr}

/-- The entries `moved` have been moved to `n` new rows. -/
structure Moved (m : Memory K V) (n : Nat) (moved : List Ptr) (s : Moving K V) : Prop where
  memory : ∃ f, s.memory = { m with next := f }
  chained : Chained (heads 0 s.newtable) s.memory.next 0 n
    (spread (fun p => indexFor n (m.h p)) moved)
  size : s.newtable.length = n
  rest : ∀ p ∉ moved, s.memory.next p = m.next p

theorem Moved.step (M : Moved m n moved s) (hn : 0 < n) (he : e ∉ moved) (hzero : e ≠ 0)
    (table : List Ptr) :
    Moved m n (moved ++ [e])
      { memory :=
          { s.memory with
            next := Function.update s.memory.next e (heads 0 s.newtable (indexFor n (m.h e))) }
        table := table
        newtable := s.newtable.set (indexFor n (m.h e)) e } := by
  obtain ⟨f, hf⟩ := M.memory
  have hi : ∀ p, indexFor n (m.h p) < n := fun p => Nat.mod_lt _ hn
  refine ⟨⟨_, by rw [hf]⟩, ?_, (List.length_set ..).trans M.size, fun p hp => ?_⟩
  · rw [heads_set (by rw [M.size]; exact hi e)]
    exact M.chained.move (fun p => indexFor n (m.h p)) moved hi he hzero
  · rw [List.mem_append, List.mem_singleton, not_or] at hp
    exact (Function.update_of_ne hp.2 ..).trans (M.rest p hp.1)

/-- The entries of an old row. -/
theorem Moved.row (hn : 0 < n) : ∀ {ps moved : List Ptr} {s : Moving K V} {fuel : Nat},
    Moved m n moved s → i < s.table.length → Chain m.next (heads 0 s.table i) ps 0 → 0 ∉ ps →
    (moved ++ ps).Nodup → (∀ p ∈ ps, m.live p = true) → ps.length < fuel →
    ∃ s', moveLoop n i fuel s = .ok s' ∧ Moved m n (moved ++ ps) s' ∧
      s'.table.length = s.table.length ∧ ∀ j, j ≠ i → heads 0 s'.table j = heads 0 s.table j
  | _, _, _, 0, _, _, _, _, _, _, hf => absurd hf (Nat.not_lt_zero _)
  | [], moved, s, fuel + 1, M, hi, hchain, _, _, _, _ => by
    refine ⟨s, ?_, by rwa [List.append_nil], rfl, fun _ _ => rfl⟩
    have hend : heads 0 s.table i = 0 := hchain
    unfold moveLoop
    rw [cell_ok hi, ok_bind, hend, if_neg (not_not.2 rfl)]
    rfl
  | p :: ps, moved, s, fuel + 1, M, hi, hchain, hzero, hnd, hlive, hf => by
    obtain ⟨hhead, hchain⟩ := hchain
    obtain ⟨f, hmemory⟩ := M.memory
    have hp : p ∉ moved := fun hmem =>
      (List.nodup_append.1 hnd).2.2 p hmem p List.mem_cons_self rfl
    have hp0 : p ≠ 0 := ne_of_mem_of_not_mem List.mem_cons_self hzero
    have hlive' : s.memory.live p = true := by
      rw [hmemory]
      exact hlive p List.mem_cons_self
    have hhash : s.memory.h = m.h := by rw [hmemory]
    have hindex : indexFor n (m.h p) < s.newtable.length := by
      rw [M.size]
      exact Nat.mod_lt _ hn
    have M' := M.step hn hp hp0 (s.table.set i (m.next p))
    rw [List.append_cons] at hnd ⊢
    obtain ⟨s', hloop, M'', hsize, hrest⟩ := Moved.row hn M'
      (by dsimp only; rwa [List.length_set])
      (by dsimp only; rwa [heads_set hi, Function.update_self])
      (fun hmem => hzero (List.mem_cons_of_mem _ hmem)) hnd
      (fun q hq => hlive q (List.mem_cons_of_mem _ hq)) (Nat.lt_of_succ_lt_succ hf)
    refine ⟨s', ?_, M'', hsize.trans (List.length_set ..), fun j hj => ?_⟩
    · unfold moveLoop
      rw [cell_ok hi, ok_bind, hhead, if_pos hp0, Memory.load_ok hlive', ok_bind, M.rest p hp,
        setCell_ok hi, ok_bind, Memory.load_ok hlive', ok_bind, hhash]
      dsimp only
      rw [cell_ok hindex, ok_bind, Memory.setNext_ok hlive', ok_bind, setCell_ok hindex, ok_bind]
      exact hloop
    · rw [hrest j hj]
      dsimp only
      rw [heads_set hi, Function.update_of_ne hj]

theorem Holds.moveRows (H : Holds fns loadLimit m t rows nodes) (hn : 0 < n) (c : Nat)
    (hc : c ≤ t.tablelength) :
    ∃ s, (List.range c).foldlM (fun s i => moveLoop n i (m.brk + 1) s)
        ⟨m, t.table, List.replicate n 0⟩ = .ok s ∧ Moved m n (Buckets.rows c rows) s ∧
      s.table.length = t.table.length ∧ ∀ j, c ≤ j → heads 0 s.table j = heads 0 t.table j := by
  induction c with
  | zero =>
    exact ⟨_, rfl, ⟨⟨m.next, rfl⟩, Chained.empty _ 0 m.next n, List.length_replicate ..,
      fun _ _ => rfl⟩, rfl, fun _ _ => rfl⟩
  | succ c ih =>
    obtain ⟨s, hs, M, hsize, hrest⟩ := ih (by omega)
    have hlt : c < t.tablelength := hc
    have hsub : (Buckets.rows (c + 1) rows).Sublist (Buckets.rows t.tablelength rows) := by
      obtain ⟨d, hd⟩ := Nat.exists_eq_add_of_le hc
      have hrange : List.range (c + 1 + d) = List.range (c + 1) ++ _ := List.range_add
      unfold Buckets.rows
      rw [hd, hrange, List.flatMap_append]
      exact List.sublist_append_left ..
    have hnd := H.chained.nodup.sublist hsub
    have hchain := H.chained.chain c hlt
    rw [← hrest c le_rfl] at hchain
    rw [Buckets.rows_succ] at hnd ⊢
    obtain ⟨s', hs', M', hsize', hrest'⟩ := M.row hn (by rw [hsize, H.size]; exact hlt) hchain
      (H.chained.null c hlt) hnd (fun p hp => H.row_live hlt hp) (H.row_lt hlt)
    refine ⟨s', ?_, M', hsize'.trans hsize, fun j hj => ?_⟩
    · rw [List.range_succ, List.foldlM_append, hs, ok_bind, List.foldlM_cons, hs']
      rfl
    · rw [hrest' j (by omega), hrest j (by omega)]

/-- **An expansion** keeps the entries and turns their order round. -/
theorem Holds.move (H : Holds fns loadLimit m t rows nodes)
    (hn : primes[t.primeindex + 1]? = some n) :
    ∃ s, (List.range t.tablelength).foldlM (fun s i => moveLoop n i (m.brk + 1) s)
        ⟨m, t.table, List.replicate n 0⟩ = .ok s ∧
      (∃ f, s.memory = { m with next := f }) ∧
      Holds fns loadLimit s.memory
        { tablelength := n
          table := s.newtable
          entrycount := t.entrycount
          loadlimit := loadLimit n
          primeindex := t.primeindex + 1 }
        (spread (fun p => indexFor n (m.h p)) (Buckets.rows t.tablelength rows)) nodes.reverse := by
  have hpos : 0 < n := by
    have hall : ∀ p ∈ primes, 0 < p := by decide
    exact hall n (List.mem_of_getElem? hn)
  obtain ⟨s, hs, M, -, -⟩ := H.moveRows hpos t.tablelength le_rfl
  obtain ⟨f, hmemory⟩ := M.memory
  have hperm := spread_perm (fun p => indexFor n (m.h p)) (Buckets.rows t.tablelength rows)
    (m := n) (fun p _ => Nat.mod_lt _ hpos)
  have hchained := M.chained
  rw [hmemory] at hchained
  refine ⟨s, hs, ⟨f, hmemory⟩, ?_⟩
  rw [hmemory]
  refine ⟨hchained, M.size, hperm.trans (H.perm.trans (List.reverse_perm _).symm),
    fun i hi p hp => ?_, fun h => ?_, fun p => ?_, fun p hp => ?_, H.brk, fun p hp => ?_, hn, rfl⟩
  · unfold spread at hp
    rw [List.mem_reverse, List.mem_filter, decide_eq_true_eq] at hp
    exact hp.2
  · -- all entries of a hash value go to one new row
    unfold spread
    dsimp only
    rw [List.filter_reverse, List.filter_reverse, List.filter_filter, ← H.all_filter h]
    refine congrArg _ (List.filter_congr fun p _ => ?_)
    by_cases hp : m.h p = h
    · simp [hp]
    · simp [hp]
  · rw [List.mem_reverse]
    exact H.live p
  · exact H.bound p (List.mem_reverse.1 hp)
  · exact H.hashed p (List.mem_reverse.1 hp)

end

/-- Whether `hashtable_expand` gets to a larger size. -/
def CanGrow (t : Table) : Prop := t.primeindex ≠ primes.length - 1

instance : Decidable (CanGrow t) := inferInstanceAs (Decidable (_ ≠ _))

theorem Holds.next_prime (H : Holds fns loadLimit m t rows nodes) (hgrow : CanGrow t) :
    ∃ n, primes[t.primeindex + 1]? = some n := by
  have hlt : t.primeindex < primes.length := (List.getElem?_eq_some_iff.1 H.prime).1
  have hlen : primes.length = 26 := rfl
  have hne : t.primeindex ≠ primes.length - 1 := hgrow
  exact ⟨_, List.getElem?_eq_getElem (by omega)⟩

/-- The `realloc` of the table succeeds where `malloc` did not. -/
def PlanB (a : Allocs) : Prop := a.table = false ∧ a.realloc = true

instance (a : Allocs) : Decidable (PlanB a) := inferInstanceAs (Decidable (_ ∧ _))

/-- **`hashtable_expand`**. -/
theorem Holds.expand (H : Holds fns loadLimit m t rows nodes) (a : Allocs) :
    ((CanGrow t ∧ PlanB a) ∧ expand loadLimit a m t = .error .uninitialised) ∨
    ¬ (CanGrow t ∧ PlanB a) ∧ ∃ f t' rows',
      expand loadLimit a m t = .ok ({ m with next := f }, t') ∧
      Holds fns loadLimit { m with next := f } t' rows'
        (if CanGrow t ∧ a.table = true then nodes.reverse else nodes) ∧
      t'.entrycount = t.entrycount ∧
      t'.primeindex = if CanGrow t ∧ a.table = true then t.primeindex + 1 else t.primeindex := by
  unfold Hashtable.expand
  by_cases hgrow : CanGrow t
  · have hne : ¬ t.primeindex = primes.length - 1 := hgrow
    obtain ⟨n, hn⟩ := H.next_prime hgrow
    have hcell : cell primes (t.primeindex + 1) = .ok n := by
      unfold cell
      rw [hn]
    rw [if_neg hne, hcell, ok_bind]
    cases htable : a.table with
    | true =>
      refine .inr ⟨fun hand => Bool.false_ne_true (hand.2.1.symm.trans htable), ?_⟩
      obtain ⟨s, hs, ⟨f, hmemory⟩, H'⟩ := H.move hn
      have hnodes : (if CanGrow t ∧ true = true then nodes.reverse else nodes) = nodes.reverse :=
        if_pos ⟨hgrow, rfl⟩
      rw [hmemory, ← hnodes] at H'
      refine ⟨f, _, _, ?_, H', rfl, ?_⟩
      · rw [if_pos rfl, hs, ok_bind, hmemory]
        rfl
      · rw [if_pos ⟨hgrow, rfl⟩]
    | false =>
      rw [if_neg Bool.false_ne_true]
      cases hrealloc : a.realloc with
      | true => exact .inl ⟨⟨hgrow, htable, hrealloc⟩, rfl⟩
      | false =>
        refine .inr ⟨fun hand => Bool.false_ne_true (hrealloc.symm.trans hand.2.2), ?_⟩
        have hnot : ¬ (CanGrow t ∧ false = true) := fun hand => Bool.false_ne_true hand.2
        exact ⟨m.next, t, rows, rfl, by rw [if_neg hnot]; exact H, rfl, by rw [if_neg hnot]⟩
  · have heq : t.primeindex = primes.length - 1 := not_not.1 hgrow
    have hnot : ¬ (CanGrow t ∧ a.table = true) := fun hand => hgrow hand.1
    rw [if_pos heq]
    exact .inr ⟨fun hand => hgrow hand.1, m.next, t, rows, rfl, by rw [if_neg hnot]; exact H, rfl,
      by rw [if_neg hnot]⟩

/-! ## Insertion -/

/-- The entry that `hashtable_insert` makes. -/
def Memory.entry (m : Memory K V) (h : BitVec 32) (k : K) (v : V) : Memory K V :=
  { m with
    live := Function.update m.live m.brk true
    h := Function.update m.h m.brk h
    k := Function.update m.k m.brk k
    v := Function.update m.v m.brk v
    brk := m.brk + 1 }

theorem Holds.put (H : Holds fns loadLimit m t rows nodes) (k : K) (v : V) :
    Holds fns loadLimit
      { m.entry (hash fns k) k v with
        next := Function.update m.next m.brk
          (heads 0 t.table (indexFor t.tablelength (hash fns k))) }
      { t with table := t.table.set (indexFor t.tablelength (hash fns k)) m.brk }
      (Function.update rows (indexFor t.tablelength (hash fns k))
        (m.brk :: rows (indexFor t.tablelength (hash fns k)))) (m.brk :: nodes) := by
  have hi := H.index_lt (hash fns k)
  have hi' : indexFor t.tablelength (hash fns k) < t.table.length := by rw [H.size]; exact hi
  have hfresh : m.brk ∉ nodes := fun hmem => lt_irrefl _ (H.bound _ hmem)
  have hold : ∀ p ∈ nodes, p ≠ m.brk := fun p hp => (H.bound p hp).ne
  have hrow : ∀ j < t.tablelength, ∀ p ∈ rows j, p ≠ m.brk :=
    fun j hj p hp => hold p (H.mem_nodes hj hp)
  have hchained := H.chained.push hi (fun hmem => hfresh (H.perm.mem_iff.1 hmem)) H.brk.ne'
  rw [← heads_set hi'] at hchained
  refine ⟨hchained, (List.length_set ..).trans H.size, ?_, fun j hj p hp => ?_, fun h => ?_,
    fun p => ?_, fun p hp => ?_, Nat.succ_pos _, fun p hp => ?_, H.prime, H.limit⟩
  · have hperm : (Buckets.rows t.tablelength (Function.update rows
        (indexFor t.tablelength (hash fns k))
        (m.brk :: rows (indexFor t.tablelength (hash fns k)))) ++ []).Perm
        (Buckets.rows t.tablelength rows ++ [m.brk]) := by
      refine rows_splice (A := []) hi rfl ?_
      rw [List.append_nil]
      exact (List.perm_append_singleton _ _).symm
    rw [List.append_nil] at hperm
    exact hperm.trans ((List.perm_append_singleton _ _).trans (H.perm.cons _))
  · show indexFor t.tablelength (Function.update m.h m.brk (hash fns k) p) = j
    by_cases hji : j = indexFor t.tablelength (hash fns k)
    · rw [hji, Function.update_self] at hp
      rcases List.mem_cons.1 hp with rfl | hp
      · rw [Function.update_self, hji]
      · rw [Function.update_of_ne (hrow _ hi p hp), H.home _ hi p hp, hji]
    · rw [Function.update_of_ne hji] at hp
      rw [Function.update_of_ne (hrow j hj p hp), H.home j hj p hp]
  · show (Function.update rows _ _ (indexFor t.tablelength h)).filter
      (Function.update m.h m.brk (hash fns k) · = h) =
      (m.brk :: nodes).filter (Function.update m.h m.brk (hash fns k) · = h)
    have hkeep : ∀ L : List Ptr, (∀ p ∈ L, p ≠ m.brk) →
        L.filter (Function.update m.h m.brk (hash fns k) · = h) = L.filter (m.h · = h) :=
      fun L hL => List.filter_congr fun p hp => by rw [Function.update_of_ne (hL p hp)]
    rw [List.filter_cons, hkeep nodes hold, Function.update_self, ← H.order]
    by_cases hindex : indexFor t.tablelength h = indexFor t.tablelength (hash fns k)
    · rw [hindex, Function.update_self, List.filter_cons, Function.update_self,
        hkeep _ (hrow _ hi)]
    · have hne : ¬ hash fns k = h := fun heq => hindex (by rw [heq])
      rw [Function.update_of_ne hindex, hkeep _ (hrow _ (H.index_lt h)), decide_eq_false hne,
        if_neg Bool.false_ne_true]
  · show Function.update m.live m.brk true p = true ↔ p ∈ m.brk :: nodes
    rw [List.mem_cons, ← H.live]
    by_cases hp : p = m.brk
    · rw [hp, Function.update_self]
      simp
    · rw [Function.update_of_ne hp]
      simp [hp]
  · show p < m.brk + 1
    rcases List.mem_cons.1 hp with rfl | hp
    · exact Nat.lt_succ_self _
    · exact Nat.lt_succ_of_lt (H.bound p hp)
  · show Function.update m.h m.brk _ p = hash fns (Function.update m.k m.brk k p)
    rcases List.mem_cons.1 hp with rfl | hp
    · rw [Function.update_self, Function.update_self]
    · rw [Function.update_of_ne (hold p hp), Function.update_of_ne (hold p hp), H.hashed p hp]

/-- Whether `hashtable_insert` calls `hashtable_expand`. -/
def Crowded (t : Table) : Prop := (t.entrycount + 1) % 2 ^ 32 > t.loadlimit

instance : Decidable (Crowded t) := inferInstanceAs (Decidable (_ > _))

/-- A crowded table that is not of the last size. -/
def Grows (t : Table) : Prop := Crowded t ∧ CanGrow t

instance : Decidable (Grows t) := inferInstanceAs (Decidable (_ ∧ _))

theorem Holds.recount (H : Holds fns loadLimit m t rows nodes) (c : Nat) :
    Holds fns loadLimit m { t with entrycount := c } rows nodes :=
  ⟨H.chained, H.size, H.perm, H.home, H.order, H.live, H.bound, H.brk, H.hashed, H.prime, H.limit⟩

/-- The entries after the expansion that comes before an insertion. -/
def grown (a : Allocs) (t : Table) (nodes : List α) : List α :=
  if Grows t ∧ a.table = true then nodes.reverse else nodes

/-- The size after the expansion that comes before an insertion. -/
def grownIndex (a : Allocs) (t : Table) : Nat :=
  if Grows t ∧ a.table = true then t.primeindex + 1 else t.primeindex

/-- The expansion that comes before an insertion. -/
theorem Holds.countUp (H : Holds fns loadLimit m t rows nodes) (a : Allocs) :
    ((Grows t ∧ PlanB a) ∧ countUp loadLimit a m t = .error .uninitialised) ∨
    ¬ (Grows t ∧ PlanB a) ∧ ∃ f t' rows', countUp loadLimit a m t = .ok ({ m with next := f }, t') ∧
      Holds fns loadLimit { m with next := f } t' rows' (grown a t nodes) ∧
      t'.entrycount = (t.entrycount + 1) % 2 ^ 32 ∧ t'.primeindex = grownIndex a t := by
  unfold Hashtable.countUp grown grownIndex
  dsimp only
  by_cases hcrowded : Crowded t
  · have hiff : Grows t ↔ CanGrow { t with entrycount := (t.entrycount + 1) % 2 ^ 32 } :=
      and_iff_right hcrowded
    rw [if_pos (by exact hcrowded)]
    simp only [hiff]
    exact (H.recount ((t.entrycount + 1) % 2 ^ 32)).expand a
  · have hnot : ¬ (Grows t ∧ a.table = true) := fun hand => hcrowded hand.1.1
    rw [if_neg (by exact hcrowded), if_neg hnot, if_neg hnot]
    exact .inr ⟨fun hand => hcrowded hand.1.1, m.next, _, rows, rfl, H.recount _, rfl, rfl⟩

/-- **`hashtable_insert`**. -/
theorem Holds.insert (H : Holds fns loadLimit m t rows nodes) (a : Allocs) (k : K) (v : V)
    (hcount : t.entrycount < 2 ^ 32) :
    ((Grows t ∧ PlanB a) ∧ insert fns loadLimit a m t k v = .error .uninitialised) ∨
    ¬ (Grows t ∧ PlanB a) ∧ ∃ m' t' rows', insert fns loadLimit a m t k v = .ok (a.entry, m', t') ∧
      Holds fns loadLimit m' t' rows'
        (if a.entry = true then m.brk :: grown a t nodes else grown a t nodes) ∧
      m'.k = (if a.entry = true then Function.update m.k m.brk k else m.k) ∧
      m'.v = (if a.entry = true then Function.update m.v m.brk v else m.v) ∧
      m'.freedKeys = m.freedKeys ∧ m'.freedValues = m.freedValues ∧
      t'.entrycount = (if a.entry = true then (t.entrycount + 1) % 2 ^ 32 else t.entrycount) ∧
      t'.primeindex = grownIndex a t := by
  unfold Hashtable.insert
  rcases H.countUp a with ⟨hfault, herr⟩ | ⟨hfine, f, t', rows', hrun, H', ht', hprime⟩
  · rw [herr]
    exact .inl ⟨hfault, rfl⟩
  · refine .inr ⟨hfine, ?_⟩
    rw [hrun, ok_bind]
    dsimp only
    cases a.entry with
    | true =>
      have hlive : ({ m with next := f }.entry (hash fns k) k v).live m.brk = true :=
        Function.update_self ..
      have hi : indexFor t'.tablelength (hash fns k) < t'.table.length := by
        rw [H'.size]
        exact H'.index_lt _
      refine ⟨_, _, _, ?_, H'.put k v, rfl, rfl, rfl, rfl, ht', hprime⟩
      rw [if_pos rfl, cell_ok hi, ok_bind, setCell_ok hi]
      unfold Memory.entry at hlive
      rw [Memory.setNext_ok hlive, ok_bind, ok_bind]
      rfl
    | false =>
      refine ⟨_, _, rows', rfl, H'.recount _, rfl, rfl, rfl, rfl, ?_, hprime⟩
      rw [ht']
      dsimp only
      rw [if_neg Bool.false_ne_true]
      omega

end

end Hashtable
