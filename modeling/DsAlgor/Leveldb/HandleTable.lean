import DsAlgor.Lib.HashChains
import DsAlgor.Lib.Outcome

/-!
# The hash table of the cache

The class `HandleTable` of `cache.cc`, and the memory of the `LRUHandle`s. An address is a number,
and 0 is `NULL`; an access to a handle that is not allocated is a fault, and so is a failed `assert`
and a loop that does not come to its end. `asSlice` reads a value as a pointer to a key, which
`key()` does for a handle that is its own `next`.

`Rows h t rows`: the chains of the table are `rows`, each handle in the row of the low bits of its
hash. `Resize` moves them all to a power of two of rows (`Chains.resize`).
-/

namespace Leveldb.Cache

open HashChains Circular
open Outcome (ok_bind)

abbrev Ptr := Nat

inductive Fault
  /-- An access to a handle that is not allocated. -/
  | freed
  /-- An access outside an array. -/
  | outOfBounds
  /-- A failed `assert`. -/
  | assertion
  /-- A loop without end. -/
  | loop
deriving DecidableEq

/-- The fields of the `LRUHandle`s. -/
structure Heap (K V : Type) where
  live : Ptr → Bool
  value : Ptr → V
  /-- The address of the function. -/
  deleter : Ptr → Nat
  nextHash : Ptr → Ptr
  next : Ptr → Ptr
  prev : Ptr → Ptr
  charge : Ptr → Nat
  keyData : Ptr → K
  refs : Ptr → Nat
  hash : Ptr → Nat

section
variable {K V α : Type}

/-- `e->f` -/
def Heap.load (h : Heap K V) (f : Ptr → α) (e : Ptr) : Except Fault α :=
  if h.live e then .ok (f e) else .error .freed

def Heap.setNextHash (h : Heap K V) (e p : Ptr) : Except Fault (Heap K V) :=
  if h.live e then .ok { h with nextHash := Function.update h.nextHash e p } else .error .freed

variable (asSlice : V → K)

def Heap.keyOf (h : Heap K V) (e : Ptr) : K :=
  if h.next e = e then asSlice (h.value e) else h.keyData e

/-- `e->key()` -/
def Heap.key (h : Heap K V) (e : Ptr) : Except Fault K := h.load (h.keyOf asSlice) e

end

structure HandleTable where
  length : Nat
  elems : Nat
  list : List Ptr

/-- `list[i]` -/
def cell (list : List Ptr) (i : Nat) : Except Fault Ptr :=
  match list[i]? with
  | some p => .ok p
  | none => .error .outOfBounds

/-- `list[i] = p` -/
def setCell (list : List Ptr) (i : Nat) (p : Ptr) : Except Fault (List Ptr) :=
  if i < list.length then .ok (list.set i p) else .error .outOfBounds

section
variable {K V : Type}

/-- `*ptr` -/
def loadSlot (h : Heap K V) (list : List Ptr) : Slot Ptr → Except Fault Ptr
  | .head i => cell list i
  | .next e => h.load h.nextHash e

/-- `*ptr = p` -/
def storeSlot (h : Heap K V) (list : List Ptr) (p : Ptr) :
    Slot Ptr → Except Fault (Heap K V × List Ptr)
  | .head i => do return (h, ← setCell list i p)
  | .next e => do return (← h.setNextHash e p, list)

/-- `old == NULL ? NULL : old->next_hash` -/
def nextOf (h : Heap K V) (old : Ptr) : Except Fault Ptr :=
  if old = 0 then .ok 0 else h.load h.nextHash old

/-! ## Resizing -/

/-- `while (new_length < elems_) new_length *= 2;` -/
def lengthLoop (elems : Nat) : Nat → Nat → Except Fault Nat
  | 0, _ => .error .loop
  | fuel + 1, newLength =>
    if newLength < elems then lengthLoop elems fuel (newLength * 2 % 2 ^ 32) else return newLength

/-- What `Resize` changes: the handles, `new_list` and `count`. -/
structure Moving (K V : Type) where
  heap : Heap K V
  newList : List Ptr
  count : Nat

/-- `while (h != NULL) { … }` -/
def moveLoop (newLength : Nat) : Nat → Ptr → Moving K V → Except Fault (Moving K V)
  | 0, _, _ => .error .loop
  | fuel + 1, e, s =>
    if e ≠ 0 then do
      let next ← s.heap.load s.heap.nextHash e
      let hash ← s.heap.load s.heap.hash e
      let ptr := hash &&& (newLength - 1)
      let heap ← s.heap.setNextHash e (← cell s.newList ptr)
      let newList ← setCell s.newList ptr e
      moveLoop newLength fuel next ⟨heap, newList, (s.count + 1) % 2 ^ 32⟩
    else return s

namespace HandleTable

/-- The body of the loop over the old rows. -/
def moveRow (t : HandleTable) (newLength : Nat) (s : Moving K V) (i : Nat) :
    Except Fault (Moving K V) := do
  moveLoop newLength (t.elems + 1) (← cell t.list i) s

def resize (t : HandleTable) (h : Heap K V) : Except Fault (Heap K V × HandleTable) := do
  let newLength ← lengthLoop t.elems 33 4
  let s ← (List.range t.length).foldlM (t.moveRow newLength)
    ⟨h, List.replicate newLength 0, 0⟩
  if t.elems = s.count then
    return (s.heap, { t with list := s.newList, length := newLength })
  else .error .assertion

/-- The constructor. -/
def new (h : Heap K V) : Except Fault (Heap K V × HandleTable) := resize ⟨0, 0, []⟩ h

/-! ## The operations -/

variable [DecidableEq K] (asSlice : V → K)

/-- The loop of `FindPointer`. -/
def findLoop (h : Heap K V) (list : List Ptr) (key : K) (hash : Nat) :
    Nat → Slot Ptr → Except Fault (Slot Ptr)
  | 0, _ => .error .loop
  | fuel + 1, ptr => do
    let e ← loadSlot h list ptr
    if e ≠ 0 then
      let eHash ← h.load h.hash e
      let eKey ← h.key asSlice e
      if eHash ≠ hash ∨ key ≠ eKey then findLoop h list key hash fuel (.next e) else return ptr
    else return ptr

def findPointer (t : HandleTable) (h : Heap K V) (key : K) (hash : Nat) :
    Except Fault (Slot Ptr) :=
  findLoop asSlice h t.list key hash (t.elems + 1) (.head (hash &&& (t.length - 1)))

def lookup (t : HandleTable) (h : Heap K V) (key : K) (hash : Nat) : Except Fault Ptr := do
  loadSlot h t.list (← t.findPointer asSlice h key hash)

def insert (t : HandleTable) (h : Heap K V) (e : Ptr) :
    Except Fault (Ptr × Heap K V × HandleTable) := do
  let ptr ← t.findPointer asSlice h (← h.key asSlice e) (← h.load h.hash e)
  let old ← loadSlot h t.list ptr
  let nextHash ← nextOf h old
  let h ← h.setNextHash e nextHash
  let (h, list) ← storeSlot h t.list e ptr
  let t := { t with list := list }
  if old = 0 then
    let t := { t with elems := (t.elems + 1) % 2 ^ 32 }
    if t.elems > t.length then
      let (h, t) ← t.resize h
      return (old, h, t)
    else return (old, h, t)
  else return (old, h, t)

def remove (t : HandleTable) (h : Heap K V) (key : K) (hash : Nat) :
    Except Fault (Ptr × Heap K V × HandleTable) := do
  let ptr ← t.findPointer asSlice h key hash
  let result ← loadSlot h t.list ptr
  if result ≠ 0 then
    let (h, list) ← storeSlot h t.list (← h.load h.nextHash result) ptr
    return (result, h, { t with list := list, elems := (t.elems + 2 ^ 32 - 1) % 2 ^ 32 })
  else return (result, h, t)

end HandleTable

end

/-! ## Accesses -/

section
variable {K V α : Type} {h : Heap K V} {e : Ptr} {list : List Ptr} {i : Nat}

theorem Heap.load_ok (he : h.live e = true) (f : Ptr → α) : h.load f e = .ok (f e) := if_pos he

theorem Heap.setNextHash_ok (he : h.live e = true) (p : Ptr) :
    h.setNextHash e p = .ok { h with nextHash := Function.update h.nextHash e p } :=
  if_pos he

theorem cell_ok (hi : i < list.length) : cell list i = .ok (heads 0 list i) := by
  unfold cell heads
  rw [List.getD_eq_getElem?_getD, List.getElem?_eq_getElem hi]
  rfl

theorem setCell_ok (hi : i < list.length) (p : Ptr) : setCell list i p = .ok (list.set i p) :=
  if_pos hi

end

/-! ## What a table holds -/

/-- The number of rows is a power of two. -/
def RowCount (n : Nat) : Prop := ∃ k, 2 ≤ k ∧ k ≤ 31 ∧ n = 2 ^ k

theorem RowCount.and_eq {n : Nat} (hn : RowCount n) (hash : Nat) : hash &&& (n - 1) = hash % n := by
  obtain ⟨k, -, -, rfl⟩ := hn
  exact Nat.and_two_pow_sub_one_eq_mod hash k

theorem RowCount.pos {n : Nat} (hn : RowCount n) : 0 < n := by
  obtain ⟨k, -, -, rfl⟩ := hn
  exact Nat.two_pow_pos k

/-- The chains of a table. -/
structure Chains {K V : Type} (h : Heap K V) (t : HandleTable) (rows : Nat → List Ptr) : Prop where
  chained : Chained (heads 0 t.list) h.nextHash 0 t.length rows
  size : t.list.length = t.length
  live : ∀ i < t.length, ∀ p ∈ rows i, h.live p = true
  elems : t.elems = (Buckets.rows t.length rows).length

/-- Every handle is in the row of its hash. -/
structure Rows {K V : Type} (h : Heap K V) (t : HandleTable) (rows : Nat → List Ptr) : Prop
    extends Chains h t rows where
  rowCount : RowCount t.length
  home : ∀ i < t.length, ∀ p ∈ rows i, h.hash p % t.length = i

section
variable {K V : Type} {asSlice : V → K} {h : Heap K V} {t : HandleTable} {rows : Nat → List Ptr}
  {A B : List Ptr} {i : Nat} {e : Ptr}

theorem Chains.loadSlot (R : Chains h t rows) (hi : i < t.length) (hrow : rows i = A ++ B) :
    loadSlot h t.list (.behind i A) = .ok (headOr 0 B) := by
  have hload := R.chained.load hi hrow
  cases A using List.reverseRecOn with
  | nil =>
    rw [← hload]
    exact cell_ok (by rw [R.size]; exact hi)
  | append_singleton A p _ =>
    rw [Slot.behind_concat] at hload ⊢
    rw [← hload]
    exact Heap.load_ok (R.live i hi p (by rw [hrow]; simp)) _

theorem Chains.ne_zero (R : Chains h t rows) (hi : i < t.length) (he : e ∈ rows i) : e ≠ 0 :=
  ne_of_mem_of_not_mem he (R.chained.null i hi)

theorem Chains.length_le (R : Chains h t rows) (hi : i < t.length) :
    (rows i).length ≤ t.elems := by
  obtain ⟨others, hothers⟩ := exists_others rows hi
  have hperm := hothers (rows i)
  rw [Function.update_eq_self] at hperm
  rw [R.elems, hperm.length_eq, List.length_append]
  exact Nat.le_add_right ..

variable [DecidableEq K]

/-- The handle is that of the key and its hash. -/
def IsFor (asSlice : V → K) (h : Heap K V) (key : K) (hash : Nat) (e : Ptr) : Prop :=
  h.hash e = hash ∧ h.keyOf asSlice e = key

variable {key : K} {hash : Nat}

theorem Chains.findLoop (R : Chains h t rows) (asSlice : V → K) (key : K) (hash : Nat)
    (hi : i < t.length) :
    ∀ {B A : List Ptr} {fuel : Nat}, rows i = A ++ B → B.length < fuel →
      (∀ p ∈ A, ¬IsFor asSlice h key hash p) → ∃ A' B', rows i = A' ++ B' ∧
      HandleTable.findLoop asSlice h t.list key hash fuel (.behind i A) = .ok (.behind i A') ∧
      (∀ p ∈ A', ¬IsFor asSlice h key hash p) ∧ ∀ p ∈ B'.head?, IsFor asSlice h key hash p
  | _, _, 0, _, hf, _ => absurd hf (Nat.not_lt_zero _)
  | [], A, fuel + 1, hrow, _, hA => by
    refine ⟨A, [], hrow, ?_, hA, by simp⟩
    unfold HandleTable.findLoop
    rw [R.loadSlot hi hrow, ok_bind, headOr_nil, if_neg (not_not.2 rfl)]
    rfl
  | p :: B, A, fuel + 1, hrow, hf, hA => by
    have hp : p ∈ rows i := by rw [hrow]; simp
    have hlive := R.live i hi p hp
    unfold HandleTable.findLoop
    rw [R.loadSlot hi hrow, ok_bind, headOr_cons, if_pos (R.ne_zero hi hp), Heap.load_ok hlive,
      ok_bind]
    unfold Heap.key
    rw [Heap.load_ok hlive, ok_bind]
    by_cases hfor : IsFor asSlice h key hash p
    · rw [if_neg (by rw [hfor.1, hfor.2]; simp)]
      exact ⟨A, p :: B, hrow, rfl, hA, by simpa using hfor⟩
    · rw [if_pos (by unfold IsFor at hfor; tauto), ← Slot.behind_concat i A p]
      have hA' : ∀ q ∈ A ++ [p], ¬IsFor asSlice h key hash q := by
        intro q hq
        rcases List.mem_append.1 hq with hq | hq
        · exact hA q hq
        · rw [List.mem_singleton.1 hq]
          exact hfor
      exact R.findLoop asSlice key hash hi (by simpa using hrow) (by simpa using hf) hA'

/-- `FindPointer` stops at the first handle of the row for the key, or behind the row. -/
theorem Rows.findPointer (R : Rows h t rows) (asSlice : V → K) (key : K) (hash : Nat) :
    ∃ i < t.length, ∃ A B, rows i = A ++ B ∧
      t.findPointer asSlice h key hash = .ok (.behind i A) ∧ i = hash % t.length ∧
      (∀ p ∈ A, ¬IsFor asSlice h key hash p) ∧ ∀ p ∈ B.head?, IsFor asSlice h key hash p := by
  have hi : hash % t.length < t.length := Nat.mod_lt _ R.rowCount.pos
  obtain ⟨A, B, hrow, hfind, hA, hB⟩ := R.findLoop asSlice key hash hi (A := [])
    rfl (Nat.lt_succ_of_le (R.length_le hi)) (by simp)
  refine ⟨_, hi, A, B, hrow, ?_, rfl, hA, hB⟩
  unfold HandleTable.findPointer
  rw [R.rowCount.and_eq]
  exact hfind

end

/-! ## Changes of a slot -/

section
variable {K V : Type} {h : Heap K V} {t : HandleTable} {rows : Nat → List Ptr}
  {A B B' : List Ptr} {i n : Nat} {e q : Ptr}

theorem Chains.storeSlot (R : Chains h t rows) (hi : i < t.length) (hrow : rows i = A ++ B)
    (hB' : Chain h.nextHash q B' 0) (hnull : 0 ∉ B') (hlive : ∀ p ∈ B', h.live p = true)
    (hnd : (Buckets.rows t.length (Function.update rows i (A ++ B'))).Nodup)
    (hn : n = (Buckets.rows t.length (Function.update rows i (A ++ B'))).length) :
    ∃ f list, storeSlot h t.list q (.behind i A) = .ok ({ h with nextHash := f }, list) ∧
      Chains { h with nextHash := f } { t with list := list, elems := n }
        (Function.update rows i (A ++ B')) ∧ ∀ p ∉ A, f p = h.nextHash p := by
  have hlive' : ∀ j < t.length, ∀ p ∈ Function.update rows i (A ++ B') j, h.live p = true := by
    intro j hj p hp
    by_cases hji : j = i
    · rw [hji, Function.update_self] at hp
      rcases List.mem_append.1 hp with hp | hp
      · exact R.live i hi p (by rw [hrow]; exact List.mem_append_left B hp)
      · exact hlive p hp
    · rw [Function.update_of_ne hji] at hp
      exact R.live j hj p hp
  cases A using List.reverseRecOn with
  | nil =>
    have hi' : i < t.list.length := by rw [R.size]; exact hi
    refine ⟨h.nextHash, t.list.set i q, ?_, ⟨?_, ?_, hlive', hn⟩, fun _ _ => rfl⟩
    · unfold Cache.storeSlot
      rw [Slot.behind_nil]
      dsimp only
      rw [setCell_ok hi']
      rfl
    · refine R.chained.splice hi hrow hB' hnull hnd ?_
      dsimp only
      rw [heads_set hi']
      rfl
    · exact (List.length_set ..).trans R.size
  | append_singleton A p _ =>
    have hp : h.live p = true := R.live i hi p (by rw [hrow]; simp)
    refine ⟨Function.update h.nextHash p q, t.list, ?_, ⟨?_, R.size, hlive', hn⟩, fun x hx => ?_⟩
    · unfold Cache.storeSlot
      rw [Slot.behind_concat]
      dsimp only
      rw [Heap.setNextHash_ok hp]
      rfl
    · refine R.chained.splice hi hrow hB' hnull hnd ?_
      rw [Slot.behind_concat]
      rfl
    · exact Function.update_of_ne (ne_of_mem_of_not_mem (by simp) hx).symm ..

/-- In the slot behind `A` the handle `e` comes for the first one of `B`. -/
theorem Rows.put (R : Rows h t rows) (hi : i < t.length) (hrow : rows i = A ++ B)
    (he : e ∉ Buckets.rows t.length rows) (hlive : h.live e = true) (hzero : e ≠ 0)
    (hhome : h.hash e % t.length = i)
    (hn : n + B.head?.toList.length = (Buckets.rows t.length rows).length + 1) :
    ∃ f list, storeSlot { h with
        nextHash := Function.update h.nextHash e (headOr 0 B.tail) } t.list e (.behind i A) =
        .ok ({ h with nextHash := f }, list) ∧
      Rows { h with nextHash := f } { t with list := list, elems := n }
        (Function.update rows i (A ++ e :: B.tail)) ∧
      (Buckets.rows t.length (Function.update rows i (A ++ e :: B.tail)) ++ B.head?.toList).Perm
        (Buckets.rows t.length rows ++ [e]) ∧
      ∀ p ∉ e :: Buckets.rows t.length rows, f p = h.nextHash p := by
  have hB : (e :: B.tail ++ B.head?.toList).Perm (B ++ [e]) := by
    cases B with
    | nil => exact List.Perm.refl _
    | cons p B =>
      refine (List.perm_append_singleton p _).trans ?_
      exact List.Perm.cons p (List.perm_append_singleton e B).symm
  have hperm := rows_splice hi hrow hB
  have hsub : ∀ p ∈ B, p ∈ Buckets.rows t.length rows :=
    fun p hp => mem_rows.2 ⟨i, hi, by rw [hrow]; exact List.mem_append_right A hp⟩
  have hnd : (Buckets.rows t.length (Function.update rows i (A ++ e :: B.tail))).Nodup := by
    refine (List.nodup_append.1 (hperm.nodup_iff.2 (List.nodup_append.2
      ⟨R.chained.nodup, List.nodup_singleton e, ?_⟩))).1
    rintro p hp q hq rfl
    exact he (List.mem_singleton.1 hq ▸ hp)
  have R₁ : Chains { h with
      nextHash := Function.update h.nextHash e (headOr 0 B.tail) } t rows := by
    refine ⟨R.chained.congr (fun _ _ => rfl) fun p hp => ?_, R.size, R.live, R.elems⟩
    exact Function.update_of_ne (ne_of_mem_of_not_mem hp he) ..
  have hchain : Chain (Function.update h.nextHash e (headOr 0 B.tail)) e (e :: B.tail) 0 := by
    refine ⟨rfl, ?_⟩
    rw [Function.update_self]
    cases B with
    | nil => rfl
    | cons p B =>
      have hrest := R₁.chained.chain i hi
      rw [hrow] at hrest
      obtain ⟨_, -, rfl, hrest⟩ := Chain.append.1 hrest
      cases B with
      | nil => rfl
      | cons q B => exact ⟨rfl, hrest.2⟩
  have hmem : ∀ p ∈ e :: B.tail, p = e ∨ p ∈ rows i := by
    intro p hp
    rcases List.mem_cons.1 hp with rfl | hp
    · exact .inl rfl
    · exact .inr (by rw [hrow]; exact List.mem_append_right A (List.mem_of_mem_tail hp))
  obtain ⟨f, list, hstore, R', hf⟩ := R₁.storeSlot (q := e) (n := n) hi hrow hchain
    (by
      intro h0
      rcases hmem 0 h0 with h0 | h0
      · exact hzero h0.symm
      · exact R.chained.null i hi h0)
    (by
      intro p hp
      rcases hmem p hp with rfl | hp
      · exact hlive
      · exact R.live i hi p hp) hnd
    (by
      have hlen := hperm.length_eq
      rw [List.length_append, List.length_append, List.length_singleton] at hlen
      omega)
  refine ⟨f, list, hstore, ⟨R', R.rowCount, fun j hj p hp => ?_⟩, hperm, fun p hp => ?_⟩
  · by_cases hji : j = i
    · rw [hji, Function.update_self, List.mem_append] at hp
      rw [hji]
      rcases hp with hp | hp
      · exact R.home i hi p (by rw [hrow]; exact List.mem_append_left B hp)
      · rcases hmem p hp with rfl | hp
        · exact hhome
        · exact R.home i hi p hp
    · rw [Function.update_of_ne hji] at hp
      exact R.home j hj p hp
  · rw [List.mem_cons, not_or] at hp
    rw [hf p fun hpA => hp.2 (mem_rows.2 ⟨i, hi, by rw [hrow]; exact List.mem_append_left B hpA⟩)]
    exact Function.update_of_ne hp.1 ..

end

/-! ## Resizing -/

section
variable {K V : Type} {h : Heap K V} {t : HandleTable} {rows : Nat → List Ptr} {n : Nat}
  {s : Moving K V} {moved ps : List Ptr} {e : Ptr}

theorem lengthLoop_ok {elems : Nat} (helems : elems ≤ 2 ^ 31) : ∀ {fuel k : Nat}, 2 ≤ k → k ≤ 31 →
    31 < fuel + k → ∃ n, lengthLoop elems fuel (2 ^ k) = .ok n ∧ RowCount n ∧ elems ≤ n
  | 0, k, _, _, hf => by omega
  | fuel + 1, k, h2, h31, hf => by
    unfold lengthLoop
    by_cases hlt : 2 ^ k < elems
    · have hk : k < 31 := by
        by_contra hk
        have : k = 31 := by omega
        subst this
        omega
      have hpow : 2 ^ (k + 1) ≤ 2 ^ 31 := Nat.pow_le_pow_right (by decide) hk
      rw [if_pos hlt, ← Nat.pow_succ, Nat.mod_eq_of_lt (by omega)]
      exact lengthLoop_ok helems (by omega) hk (by omega)
    · rw [if_neg hlt]
      exact ⟨2 ^ k, rfl, ⟨k, h2, h31, rfl⟩, by omega⟩

/-- The handles `moved` have been moved to `n` new rows. -/
structure Moved (h : Heap K V) (n : Nat) (moved : List Ptr) (s : Moving K V) : Prop where
  heap : ∃ f, s.heap = { h with nextHash := f }
  chained : Chained (heads 0 s.newList) s.heap.nextHash 0 n (spread (fun p => h.hash p % n) moved)
  size : s.newList.length = n
  count : s.count = moved.length
  rest : ∀ p ∉ moved, s.heap.nextHash p = h.nextHash p

theorem Moved.step (M : Moved h n moved s) (hn : 0 < n) (he : e ∉ moved) (hzero : e ≠ 0) :
    Moved h n (moved ++ [e]) {
      heap := { s.heap with
        nextHash := Function.update s.heap.nextHash e (heads 0 s.newList (h.hash e % n)) }
      newList := s.newList.set (h.hash e % n) e
      count := s.count + 1 } := by
  obtain ⟨f, hf⟩ := M.heap
  have hi : h.hash e % n < n := Nat.mod_lt _ hn
  refine ⟨⟨_, by rw [hf]⟩, ?_, (List.length_set ..).trans M.size, ?_, fun p hp => ?_⟩
  · rw [heads_set (by rw [M.size]; exact hi)]
    exact M.chained.move (fun p => h.hash p % n) moved (fun p => Nat.mod_lt _ hn) he hzero
  · rw [List.length_append, M.count]
    rfl
  · rw [List.mem_append, List.mem_singleton, not_or] at hp
    exact (Function.update_of_ne hp.2 ..).trans (M.rest p hp.1)

/-- The handles of an old row. -/
theorem Moved.row (hn : RowCount n) : ∀ {ps moved : List Ptr} {e : Ptr} {s : Moving K V}
    {fuel : Nat}, Moved h n moved s → Chain h.nextHash e ps 0 → 0 ∉ ps → (moved ++ ps).Nodup →
    (∀ p ∈ ps, h.live p = true) → ps.length < fuel → (moved ++ ps).length < 2 ^ 32 →
    ∃ s', moveLoop n fuel e s = .ok s' ∧ Moved h n (moved ++ ps) s'
  | _, _, _, _, 0, _, _, _, _, _, hf, _ => absurd hf (Nat.not_lt_zero _)
  | [], moved, e, s, fuel + 1, M, hchain, _, _, _, _, _ => by
    refine ⟨s, ?_, by rwa [List.append_nil]⟩
    have hend : ¬e ≠ 0 := not_not.2 hchain
    unfold moveLoop
    rw [if_neg hend]
    rfl
  | p :: ps, moved, e, s, fuel + 1, M, hchain, hzero, hnd, hlive, hf, hlen => by
    obtain ⟨rfl, hchain⟩ := hchain
    obtain ⟨f, hheap⟩ := M.heap
    have hnd' := List.nodup_append.1 hnd
    have he : e ∉ moved := fun hmem => hnd'.2.2 e hmem e List.mem_cons_self rfl
    have hzero' : e ≠ 0 := ne_of_mem_of_not_mem List.mem_cons_self hzero
    have hlive' : s.heap.live e = true := by
      rw [hheap]
      exact hlive e List.mem_cons_self
    have hhash : s.heap.hash = h.hash := by rw [hheap]
    have hi : h.hash e % n < s.newList.length := by
      rw [M.size]
      exact Nat.mod_lt _ hn.pos
    have hcount : (s.count + 1) % 2 ^ 32 = s.count + 1 := by
      rw [List.length_append, List.length_cons] at hlen
      rw [M.count]
      exact Nat.mod_eq_of_lt (by omega)
    unfold moveLoop
    rw [if_pos hzero', Heap.load_ok hlive', ok_bind, Heap.load_ok hlive', ok_bind, hn.and_eq,
      hhash, M.rest e he]
    dsimp only
    rw [cell_ok hi, ok_bind, Heap.setNextHash_ok hlive', ok_bind, setCell_ok hi, ok_bind, hcount]
    have M' := M.step hn.pos he hzero'
    rw [List.append_cons] at hnd hlen ⊢
    exact Moved.row hn M' hchain (fun hmem => hzero (List.mem_cons_of_mem _ hmem)) hnd
      (fun q hq => hlive q (List.mem_cons_of_mem _ hq)) (by simpa using hf) hlen

theorem Chains.moveRows (R : Chains h t rows) (hn : RowCount n) (helems : t.elems < 2 ^ 32)
    (m : Nat) (hm : m ≤ t.length) : ∃ s,
    (List.range m).foldlM (t.moveRow n) ⟨h, List.replicate n 0, 0⟩ = .ok s ∧
      Moved h n (Buckets.rows m rows) s := by
  induction m with
  | zero =>
    exact ⟨_, rfl, ⟨h.nextHash, rfl⟩, Chained.empty _ 0 h.nextHash n, List.length_replicate .., rfl,
      fun _ _ => rfl⟩
  | succ m ih =>
    obtain ⟨s, hs, M⟩ := ih (by omega)
    have hsub : (Buckets.rows (m + 1) rows).Sublist (Buckets.rows t.length rows) := by
      obtain ⟨d, hd⟩ := Nat.exists_eq_add_of_le hm
      have hrange : List.range (m + 1 + d) = List.range (m + 1) ++ _ := List.range_add
      unfold Buckets.rows
      rw [hd, hrange, List.flatMap_append]
      exact List.sublist_append_left ..
    rw [Buckets.rows_succ] at hsub ⊢
    have hlen : (Buckets.rows m rows ++ rows m).length < 2 ^ 32 :=
      Nat.lt_of_le_of_lt (by rw [R.elems]; exact hsub.length_le) helems
    obtain ⟨s', hs', M'⟩ := M.row hn (R.chained.chain m (by omega)) (R.chained.null m (by omega))
      (R.chained.nodup.sublist hsub) (R.live m (by omega))
      (Nat.lt_succ_of_le (R.length_le (by omega))) hlen
    refine ⟨s', ?_, M'⟩
    rw [List.range_succ, List.foldlM_append, hs, ok_bind, List.foldlM_cons]
    unfold HandleTable.moveRow
    rw [cell_ok (by rw [R.size]; omega), ok_bind, hs']
    rfl

/-- `Resize` keeps the handles, in rows enough for them, and its `assert` holds. -/
theorem Chains.resize (R : Chains h t rows) (helems : t.elems ≤ 2 ^ 31) :
    ∃ f t' rows', t.resize h = .ok ({ h with nextHash := f }, t') ∧
      Rows { h with nextHash := f } t' rows' ∧ t'.elems = t.elems ∧ t'.elems ≤ t'.length ∧
      (Buckets.rows t'.length rows').Perm (Buckets.rows t.length rows) ∧
      ∀ p ∉ Buckets.rows t.length rows, f p = h.nextHash p := by
  obtain ⟨n, hlength, hn, hle⟩ : ∃ n, lengthLoop t.elems 33 4 = .ok n ∧ RowCount n ∧ t.elems ≤ n :=
    lengthLoop_ok helems (k := 2) le_rfl (by decide) (by decide)
  obtain ⟨s, hs, M⟩ := R.moveRows hn (by omega) t.length le_rfl
  obtain ⟨f, hheap⟩ := M.heap
  have hperm := spread_perm (fun p => h.hash p % n) (Buckets.rows t.length rows)
    (m := n) (fun p _ => Nat.mod_lt _ hn.pos)
  have hmem : ∀ i < n, ∀ p ∈ spread (fun p => h.hash p % n) (Buckets.rows t.length rows) i,
      p ∈ Buckets.rows t.length rows ∧ h.hash p % n = i := by
    intro i _ p hp
    unfold spread at hp
    rw [List.mem_reverse, List.mem_filter, decide_eq_true_eq] at hp
    exact hp
  have hchained := M.chained
  rw [hheap] at hchained
  refine ⟨f, ⟨n, t.elems, s.newList⟩, _, ?_, ⟨⟨hchained, M.size, fun i hi p hp => ?_, ?_⟩, hn,
    fun i hi p hp => (hmem i hi p hp).2⟩, rfl, hle, hperm, fun p hp => ?_⟩
  · unfold HandleTable.resize
    rw [hlength, ok_bind, hs, ok_bind, M.count, if_pos R.elems, hheap]
    rfl
  · obtain ⟨j, hj, hpj⟩ := mem_rows.1 (hmem i hi p hp).1
    exact R.live j hj p hpj
  · exact R.elems.trans hperm.length_eq.symm
  · have hrest := M.rest p hp
    rwa [hheap] at hrest

end

end Leveldb.Cache
