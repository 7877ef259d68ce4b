import DsAlgor.SkipRank.Defs
import DsAlgor.SkipRank.Rows

/-!
# `skiplist.h`

The skip list without ranks. Links, nodes and addresses are those of `skiplist_with_rank.h`: node
`0` is the list itself, and `pos--` is the link one level below. Freed nodes are kept in `freed`,
and their addresses are not used again.
-/

namespace SkipList

open SkipRank (Ptr Link Fault MAX_LEVEL INT_MAX Drawn)
open Circular

structure Mem where
  next : Link → Link
  prev : Link → Link
  key : Ptr → Int
  value : Ptr → Int
  brk : Ptr
  /-- The latest first. -/
  freed : List Ptr

structure Skiplist where
  level : Nat
  count : Int
  mem : Mem

/-! ## Links -/

def Mem.setNext (m : Mem) (p q : Link) : Mem := { m with next := Function.update m.next p q }

def Mem.setPrev (m : Mem) (p q : Link) : Mem := { m with prev := Function.update m.prev p q }

def listInit (m : Mem) (link : Link) : Mem := (m.setPrev link link).setNext link link

/-- `__list_add` -/
def listAdd (m : Mem) (link prev next : Link) : Mem :=
  (((m.setNext link next).setPrev link prev).setPrev next link).setNext prev link

/-- `list_del` -/
def listDel (m : Mem) (link : Link) : Mem :=
  let prev := m.prev link
  let next := m.next link
  listInit ((m.setNext prev next).setPrev next prev) link

def listEmpty (m : Mem) (link : Link) : Bool := m.next link = link

/-! ## The list -/

def skiplistNew : Skiplist :=
  { level := 1, count := 0
    mem :=
      { next := id, prev := id, key := fun _ => 0, value := fun _ => 0, brk := 1, freed := [] } }

def skipnodeNew (m : Mem) (key value : Int) : Ptr × Mem :=
  (m.brk,
    { m with
      key := Function.update m.key m.brk key
      value := Function.update m.value m.brk value
      brk := m.brk + 1 })

def skipnodeDelete (m : Mem) (node : Ptr) : Mem := { m with freed := node :: m.freed }

/-! ## Insertion -/

/-- The body of the loop of `skiplist_insert` over one level. -/
def insertBody (m : Mem) (key : Int) (pos : Link) (_ : Unit) : Link ⊕ Unit :=
  if m.key pos.node ≥ key then .inl pos else .inr ()

/-- The loop: the new `end`. -/
def insertWalk (m : Mem) (key : Int) (pos end_ : Link) : Option Link :=
  (foreach m.next (insertBody m key) m.brk pos end_ ()).map fun
    | .inl pos => pos
    | .inr () => end_

/-- The levels below `i`, from the top. -/
def insertLevels (key : Int) (node : Ptr) (level : Nat) : Nat → Mem → Link → Link → Option Mem
  | 0, m, _, _ => some m
  | i + 1, m, pos, end_ =>
    match insertWalk m key (m.next pos) end_ with
    | none => none
    | some end_ =>
      let pos := m.prev end_
      let m := if i < level then listAdd m ⟨node, i⟩ pos end_ else m
      insertLevels key node level i m pos.dec end_.dec

/-- `skiplist_insert`, where `random_level` gave `level` and `alloc` tells whether `malloc` has
memory. The node is `0` when it has not. -/
def skiplistInsert (l : Skiplist) (key value : Int) (level : Nat) (alloc : Bool) :
    Except Fault (Ptr × Skiplist) :=
  let l := if level > l.level then { l with level := level } else l
  if alloc then
    let (node, mem) := skipnodeNew l.mem key value
    let head : Link := ⟨0, l.level - 1⟩
    match insertLevels key node level l.level mem head head with
    | none => .error .loop
    | some mem =>
      if l.count = INT_MAX then .error .overflow
      else .ok (node, { l with mem := mem, count := l.count + 1 })
  else .ok (0, l)

/-! ## Removal -/

/-- One round of the loop of `__remove`. -/
def removeStep (node : Ptr) (l : Skiplist) (i : Nat) : Skiplist :=
  let l := { l with mem := listDel l.mem ⟨node, i⟩ }
  if listEmpty l.mem ⟨0, i⟩ then { l with level := l.level - 1 } else l

/-- `__remove` -/
def remove (l : Skiplist) (node : Ptr) (level : Nat) : Skiplist :=
  let l := (List.range level).foldl (removeStep node) l
  { l with mem := skipnodeDelete l.mem node, count := l.count - 1 }

/-- The loop of `skiplist_remove` over level `i`: `skiplist_foreach_safe`, which has read the next
link `n` before the body frees the node. -/
def removeLevel (key : Int) (i : Nat) : Nat → Skiplist → Link → Link → Link → Option Skiplist
  | 0, _, _, _, _ => none
  | fuel + 1, l, pos, n, end_ =>
    if pos = end_ then some l
    else
      let l := if l.mem.key pos.node = key then remove l pos.node (i + 1) else l
      removeLevel key i fuel l n (l.mem.next n) end_

/-- The levels below `i`, from the top. -/
def removeLevels (key : Int) : Nat → Skiplist → Link → Link → Except Fault Skiplist
  | 0, l, _, _ => .ok l
  | i + 1, l, pos, end_ =>
    let pos := l.mem.next pos
    match removeLevel key i l.mem.brk l pos (l.mem.next pos) end_ with
    | none => .error .loop
    | some l => removeLevels key i l (l.mem.prev end_).dec end_.dec

def skiplistRemove (l : Skiplist) (key : Int) : Except Fault Skiplist :=
  let head : Link := ⟨0, l.level - 1⟩
  removeLevels key l.level l head head

/-! ## Runs -/

inductive Op
  | insert (key value : Int) (level : Drawn) (alloc : Bool)
  | remove (key : Int)

def Op.run (l : Skiplist) : Op → Except Fault Skiplist
  | .insert key value level alloc => (skiplistInsert l key value level alloc).map Prod.snd
  | .remove key => skiplistRemove l key

def runOps (l : Skiplist) (ops : List Op) : Except Fault Skiplist := ops.foldlM Op.run l

/-! ## The levels of the skip list

`Linked l S`: the nodes of the list are `S` in the order of level 0, and every level has its row of
them. `listAdd_spec` and `listDel_spec` are the changes of one row.
-/

open SkipRank (Ptr Link Node MAX_LEVEL INT_MAX row firstNode lastNode row_append row_cons
    headOr_row lastOr_row)
open Circular

structure Linked (l : Skiplist) (S : List Node) : Prop where
  circular : ∀ i, Circular l.mem.next l.mem.prev ⟨0, i⟩ (row S i)
  nodup : (S.map Node.ptr).Nodup
  bound : ∀ n ∈ S, 0 < n.ptr ∧ n.ptr < l.mem.brk
  key : ∀ n ∈ S, l.mem.key n.ptr = n.key
  sorted : S.Pairwise (·.key ≤ ·.key)
  height : ∀ n ∈ S, 1 ≤ n.height ∧ n.height ≤ l.level
  level : l.level ≤ MAX_LEVEL
  count : l.count = S.length
  countMax : l.count ≤ INT_MAX
  brk : 0 < l.mem.brk
  /-- What is not in the list any more has been freed once, and nothing else. -/
  freed : l.mem.freed.Nodup ∧ ∀ p, p ∈ l.mem.freed ↔ 0 < p ∧ p < l.mem.brk ∧ ∀ n ∈ S, n.ptr ≠ p

/-- The links of level `i` are the same. -/
structure AgreeAt (i : Nat) (m m' : Mem) : Prop where
  next : ∀ p, m'.next ⟨p, i⟩ = m.next ⟨p, i⟩
  prev : ∀ p, m'.prev ⟨p, i⟩ = m.prev ⟨p, i⟩

/-- Only links are different. -/
structure SameNodes (m m' : Mem) : Prop where
  key : m'.key = m.key
  value : m'.value = m.value
  brk : m'.brk = m.brk
  freed : m'.freed = m.freed

theorem SameNodes.refl (m : Mem) : SameNodes m m := ⟨rfl, rfl, rfl, rfl⟩

theorem SameNodes.trans {m m' m'' : Mem} (h : SameNodes m m') (h' : SameNodes m' m'') :
    SameNodes m m'' :=
  ⟨h'.key.trans h.key, h'.value.trans h.value, h'.brk.trans h.brk, h'.freed.trans h.freed⟩

section
variable {i : Nat} {m m' m'' : Mem} {S A B : List Node} {N v : Node}

theorem AgreeAt.refl (i : Nat) (m : Mem) : AgreeAt i m m := ⟨fun _ => rfl, fun _ => rfl⟩

theorem AgreeAt.trans (h : AgreeAt i m m') (h' : AgreeAt i m' m'') : AgreeAt i m m'' :=
  ⟨fun p => (h'.next p).trans (h.next p), fun p => (h'.prev p).trans (h.prev p)⟩

theorem AgreeAt.circular (h : AgreeAt i m m') (hc : Circular m.next m.prev ⟨0, i⟩ (row S i)) :
    Circular m'.next m'.prev ⟨0, i⟩ (row S i) := by
  have hidx : ∀ q ∈ (⟨0, i⟩ : Link) :: row S i, q = ⟨q.node, i⟩ := by
    intro q hq
    cases List.mem_cons.1 hq with
    | inl hq => rw [hq]
    | inr hq => rw [← (SkipRank.mem_row.1 hq).1]
  refine hc.congr (fun q hq => ?_) fun q hq => ?_
  · rw [hidx q hq]
    exact h.next _
  · rw [hidx q hq]
    exact h.prev _

/-! ## One row -/

theorem listAdd_next {link pv nx q : Link} : (listAdd m link pv nx).next q =
    if q = pv then link else if q = link then nx else m.next q := by
  simp [listAdd, Mem.setNext, Mem.setPrev, Function.update_apply]

theorem listAdd_prev {link pv nx q : Link} : (listAdd m link pv nx).prev q =
    if q = nx then link else if q = link then pv else m.prev q := by
  simp [listAdd, Mem.setNext, Mem.setPrev, Function.update_apply]

theorem listDel_next {link q : Link} : (listDel m link).next q =
    if q = link then link else if q = m.prev link then m.next link else m.next q := by
  simp [listDel, listInit, Mem.setNext, Mem.setPrev, Function.update_apply]

theorem listDel_prev {link q : Link} : (listDel m link).prev q =
    if q = link then link else if q = m.next link then m.prev link else m.prev q := by
  simp [listDel, listInit, Mem.setNext, Mem.setPrev, Function.update_apply]

/-- The new node between its neighbours. -/
theorem listAdd_spec (hc : Circular m.next m.prev ⟨0, i⟩ (row (A ++ B) i))
    (hnd : (⟨0, i⟩ :: row (A ++ B) i).Nodup) (hN : ⟨N.ptr, i⟩ ∉ (⟨0, i⟩ : Link) :: row (A ++ B) i)
    (hi : i < N.height) :
    let m' := listAdd m ⟨N.ptr, i⟩ ⟨lastNode A i, i⟩ ⟨firstNode B i, i⟩
    Circular m'.next m'.prev ⟨0, i⟩ (row (A ++ N :: B) i) ∧ ∀ k ≠ i, AgreeAt k m m' := by
  intro m'
  rw [row_append] at hc hnd hN
  have hfirst : firstNode B i ≠ N.ptr := by
    intro he
    refine hN ?_
    rw [← he, ← headOr_row]
    exact List.cons_subset_cons _ (List.subset_append_right _ _) headOr_mem
  have hlast : lastNode A i ≠ N.ptr := by
    intro he
    refine hN ?_
    rw [← he, ← lastOr_row]
    exact List.cons_subset_cons _ (List.subset_append_left _ _) lastOr_mem
  refine ⟨?_, fun k hk => ⟨fun p => ?_, fun p => ?_⟩⟩
  · rw [row_append, row_cons, if_pos hi]
    refine hc.insert hnd hN ?_ ?_ ?_ ?_ (fun q h1 h2 => ?_) fun q h1 h2 => ?_
    · rw [listAdd_next, if_neg (by simpa using hlast.symm), if_pos rfl, headOr_row]
    · rw [listAdd_prev, if_neg (by simpa using hfirst.symm), if_pos rfl, lastOr_row]
    · rw [listAdd_next, lastOr_row, if_pos rfl]
    · rw [listAdd_prev, headOr_row, if_pos rfl]
    · rw [lastOr_row] at h2
      rw [listAdd_next, if_neg h2, if_neg h1]
    · rw [headOr_row] at h2
      rw [listAdd_prev, if_neg h2, if_neg h1]
  · rw [listAdd_next, if_neg (by simp [hk]), if_neg (by simp [hk])]
  · rw [listAdd_prev, if_neg (by simp [hk]), if_neg (by simp [hk])]

/-- A node out of its row. -/
theorem listDel_spec (hc : Circular m.next m.prev ⟨0, i⟩ (row (A ++ v :: B) i))
    (hnd : (⟨0, i⟩ :: row (A ++ v :: B) i).Nodup) (hi : i < v.height) :
    Circular (listDel m ⟨v.ptr, i⟩).next (listDel m ⟨v.ptr, i⟩).prev ⟨0, i⟩ (row (A ++ B) i) ∧
      ∀ k ≠ i, AgreeAt k m (listDel m ⟨v.ptr, i⟩) := by
  rw [row_append, row_cons, if_pos hi] at hc hnd
  have hv : (⟨v.ptr, i⟩ : Link) ∉ ⟨0, i⟩ :: (row A i ++ row B i) := by
    have := List.nodup_middle.1 (by simpa using hnd :
      (((⟨0, i⟩ : Link) :: row A i) ++ ⟨v.ptr, i⟩ :: row B i).Nodup)
    simpa using (List.nodup_cons.1 this).1
  have hlast : lastOr ⟨0, i⟩ (row A i) ≠ ⟨v.ptr, i⟩ := fun he =>
    hv (he ▸ List.cons_subset_cons _ (List.subset_append_left _ _) lastOr_mem)
  have hhead : headOr ⟨0, i⟩ (row B i) ≠ ⟨v.ptr, i⟩ := fun he =>
    hv (he ▸ List.cons_subset_cons _ (List.subset_append_right _ _) headOr_mem)
  refine ⟨?_, fun k hk => ⟨fun p => ?_, fun p => ?_⟩⟩
  · rw [row_append]
    refine hc.remove hnd ?_ ?_ (fun q h1 h2 => ?_) fun q h1 h2 => ?_
    · rw [listDel_next, if_neg hlast, hc.prev_mid, if_pos rfl, hc.next_mid]
    · rw [listDel_prev, if_neg hhead, hc.next_mid, if_pos rfl, hc.prev_mid]
    · rw [listDel_next, if_neg h1, hc.prev_mid, if_neg h2]
    · rw [listDel_prev, if_neg h1, hc.next_mid, if_neg h2]
  · rw [listDel_next, hc.prev_mid, lastOr_row, if_neg (by simp [hk]), if_neg (by simp [hk])]
  · rw [listDel_prev, hc.next_mid, headOr_row, if_neg (by simp [hk]), if_neg (by simp [hk])]

/-! ## The whole list -/

theorem Linked.row_nodup {l : Skiplist} (h : Linked l S) (i : Nat) : (⟨0, i⟩ :: row S i).Nodup :=
  SkipRank.row_nodup h.nodup (fun n hn => (h.bound n hn).1) i

theorem Linked.length_lt {l : Skiplist} (h : Linked l S) : S.length < l.mem.brk :=
  SkipRank.length_lt_brk h.nodup h.bound h.brk

theorem skiplistNew_linked : Linked skiplistNew [] where
  circular _ := Circular.nil rfl rfl
  nodup := List.nodup_nil
  bound := nofun
  key := nofun
  sorted := List.Pairwise.nil
  height := nofun
  level := by decide
  count := rfl
  countMax := by decide
  brk := Nat.zero_lt_one
  freed := by
    refine ⟨List.nodup_nil, fun p => ⟨nofun, fun ⟨hpos, hlt, _⟩ => ?_⟩⟩
    exact absurd hpos (Nat.not_lt.2 (Nat.le_of_lt_succ hlt))

end

end SkipList
