import DsAlgor.Lib.Circular

/-!
# `skiplist_with_rank.h`

A skip list whose links carry the distance to their predecessor. Node `0` is the list itself: its
links are `head[0]`, …, `head[MAX_LEVEL - 1]`. An address of a `struct sk_link` is a node and an
index into its array of links, so that `list_entry(pos, struct skipnode, link[i])` is `pos.node` and
`pos--` is the link one level below. Addresses come from `brk` and are not used again after `free`.

Spans are `unsigned int`; the ranks an insertion sums up (`int`) are their bits as well.
-/

namespace SkipRank

open Circular

abbrev Ptr := Nat

/-- The address of `link[idx]` of a node. -/
structure Link where
  node : Ptr
  idx : Nat
deriving DecidableEq

/-- `pos--` -/
def Link.dec (p : Link) : Link := ⟨p.node, p.idx - 1⟩

structure Mem where
  next : Link → Link
  prev : Link → Link
  span : Link → BitVec 32
  key : Ptr → Int
  value : Ptr → Int
  brk : Ptr

structure Skiplist where
  level : Nat
  count : Int
  mem : Mem

inductive Fault
  /-- `count++` at `INT_MAX`. -/
  | overflow
  /-- A loop over a level does not come to its end. -/
  | loop
deriving DecidableEq

def MAX_LEVEL : Nat := 32

def INT_MAX : Int := 2 ^ 31 - 1

/-! ## Links -/

def Mem.setNext (m : Mem) (p q : Link) : Mem := { m with next := Function.update m.next p q }

def Mem.setPrev (m : Mem) (p q : Link) : Mem := { m with prev := Function.update m.prev p q }

def Mem.setSpan (m : Mem) (p : Link) (n : BitVec 32) : Mem :=
  { m with span := Function.update m.span p n }

def listInit (m : Mem) (link : Link) : Mem := (m.setPrev link link).setNext link link

/-- `__list_add` at the place before `next`. -/
def listAdd (m : Mem) (link next : Link) : Mem :=
  let prev := m.prev next
  (((m.setNext link next).setPrev link prev).setPrev next link).setNext prev link

def listDel (m : Mem) (link : Link) : Mem :=
  let prev := m.prev link
  let next := m.next link
  listInit ((m.setNext prev next).setPrev next prev) link

def listEmpty (m : Mem) (link : Link) : Bool := m.next link = link

/-! ## The list -/

def skiplistNew : Skiplist :=
  { level := 1, count := 0
    mem :=
      { next := id, prev := id, span := fun _ => 0, key := fun _ => 0, value := fun _ => 0
        brk := 1 } }

def skipnodeNew (m : Mem) (key value : Int) : Ptr × Mem :=
  (m.brk,
    { m with
      key := Function.update m.key m.brk key
      value := Function.update m.value m.brk value
      brk := m.brk + 1 })

/-! ## Insertion -/

/-- The body of the loop of `skiplist_insert` over one level. -/
def insertBody (m : Mem) (key : Int) (pos : Link) (rank : BitVec 32) :
    Link × BitVec 32 ⊕ BitVec 32 :=
  if m.key pos.node ≥ key then .inl (pos, rank) else .inr (rank + m.span pos)

/-- The loop: where it ends, and the rank. -/
def insertWalk (m : Mem) (key : Int) (pos end_ : Link) (rank : BitVec 32) :
    Option (Link × BitVec 32) :=
  (foreach m.next (insertBody m key) m.brk pos end_ rank).map fun
    | .inl r => r
    | .inr rank => (end_, rank)

/-- The levels below `i`, from the top. -/
def insertSearch (l : Skiplist) (key : Int) :
    Nat → Link → Link → (Nat → BitVec 32) → (Nat → Link) → Option ((Nat → BitVec 32) × (Nat → Link))
  | 0, _, _, rank, update => some (rank, update)
  | i + 1, pos, end_, rank, update =>
    let r := if i = l.level - 1 then 0 else rank (i + 1)
    match insertWalk l.mem key (l.mem.next pos) end_ r with
    | none => none
    | some (end_, r) =>
      insertSearch l key i (l.mem.prev end_).dec end_.dec (Function.update rank i r)
        (Function.update update i end_)

/-- One round of the second loop of `skiplist_insert`. -/
def insertStep (node : Ptr) (level : Nat) (rank : Nat → BitVec 32) (update : Nat → Link) (m : Mem)
    (i : Nat) : Mem :=
  if i < level then
    let m := listAdd m ⟨node, i⟩ (update i)
    let m := m.setSpan ⟨node, i⟩ (rank 0 - rank i + 1)
    m.setSpan (update i) (m.span (update i) - (m.span ⟨node, i⟩ - 1))
  else m.setSpan (update i) (m.span (update i) + 1)

/-- `skiplist_insert`, where `random_level` gave `level` and `alloc` tells whether `malloc` has
memory. The node is `0` when it has not. -/
def skiplistInsert (l : Skiplist) (key value : Int) (level : Nat) (alloc : Bool) :
    Except Fault (Ptr × Skiplist) :=
  let l := if level > l.level then { l with level := level } else l
  if alloc then
    let (node, mem) := skipnodeNew l.mem key value
    let l := { l with mem := mem }
    let head : Link := ⟨0, l.level - 1⟩
    match insertSearch l key l.level head head (fun _ => 0) (fun _ => head) with
    | none => .error .loop
    | some (rank, update) =>
      let mem := (List.range l.level).foldl (insertStep node level rank update) l.mem
      if l.count = INT_MAX then .error .overflow
      else .ok (node, { l with mem := mem, count := l.count + 1 })
  else .ok (0, l)

/-! ## Removal -/

structure Removing where
  mem : Mem
  update : Nat → Link
  remainLevel : Nat

/-- One round of the loop of `__remove`. -/
def removeStep (listLevel : Nat) (node : Ptr) (level : Nat) (s : Removing) (i : Nat) : Removing :=
  let s :=
    if i < level then
      let m := listDel s.mem ⟨node, i⟩
      let update := Function.update s.update i (m.next ⟨node, i⟩)
      { s with
        mem := m.setSpan (update i) (m.span (update i) + (m.span ⟨node, i⟩ - 1))
        update := update }
    else { s with mem := s.mem.setSpan (s.update i) (s.mem.span (s.update i) - 1) }
  if listEmpty s.mem ⟨0, i⟩ ∧ s.remainLevel = listLevel then { s with remainLevel := i + 1 } else s

/-- `__remove` -/
def remove (l : Skiplist) (node : Ptr) (level : Nat) (update : Nat → Link) : Skiplist :=
  let s := (List.range l.level).foldl (removeStep l.level node level) ⟨l.mem, update, l.level⟩
  { level := s.remainLevel, count := l.count - 1, mem := s.mem }

/-- Why the loop over one level is left. -/
inductive Stop
  /-- A greater key: the new `end`. -/
  | greater (end_ : Link)
  /-- The key. -/
  | found (node : Ptr)

/-- The body of the loop of `skiplist_remove` over one level. -/
def removeBody (m : Mem) (key : Int) (pos : Link) (_ : Unit) : Stop ⊕ Unit :=
  if m.key pos.node > key then .inl (.greater pos)
  else if m.key pos.node = key then .inl (.found pos.node)
  else .inr ()

def removeWalk (m : Mem) (key : Int) (pos end_ : Link) : Option Stop :=
  (foreach m.next (removeBody m key) m.brk pos end_ ()).map fun
    | .inl r => r
    | .inr () => .greater end_

/-- The levels below `i`, from the top. -/
def removeSearch (l : Skiplist) (key : Int) :
    Nat → Link → Link → (Nat → Link) → Except Fault Skiplist
  | 0, _, _, _ => .ok l
  | i + 1, pos, end_, update =>
    match removeWalk l.mem key (l.mem.next pos) end_ with
    | none => .error .loop
    | some (.found node) => .ok (remove l node (i + 1) update)
    | some (.greater end_) =>
      removeSearch l key i (l.mem.prev end_).dec end_.dec (Function.update update i end_)

def skiplistRemove (l : Skiplist) (key : Int) : Except Fault Skiplist :=
  let head : Link := ⟨0, l.level - 1⟩
  removeSearch l key l.level head head (fun _ => head)

/-! ## Runs -/

/-- What `random_level` can return. -/
abbrev Drawn := { level : Nat // 1 ≤ level ∧ level ≤ MAX_LEVEL }

theorem drawn_one : 1 ≤ 1 ∧ 1 ≤ MAX_LEVEL := by decide

theorem drawn_two : 1 ≤ 2 ∧ 2 ≤ MAX_LEVEL := by decide

theorem drawn_three : 1 ≤ 3 ∧ 3 ≤ MAX_LEVEL := by decide

inductive Op
  | insert (key value : Int) (level : Drawn) (alloc : Bool)
  | remove (key : Int)

def Op.run (l : Skiplist) : Op → Except Fault Skiplist
  | .insert key value level alloc => (skiplistInsert l key value level alloc).map Prod.snd
  | .remove key => skiplistRemove l key

def runOps : Skiplist → List Op → Except Fault Skiplist
  | l, [] => .ok l
  | l, op :: ops => do
    let l ← op.run l
    runOps l ops

end SkipRank
