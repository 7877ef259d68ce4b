import DsAlgor.Lib.CArray

/-!
# The B+ tree of `bplustree-master`

The model of `lib/bplustree.c`. The heap is one map per field of the node structs, indexed by
address (`0` is `NULL`); the arrays of a node are functions on indices (`CArray`), written by the
loops of the source. `calloc` always succeeds and hands out a fresh address, `free` gives nothing
back. What the program prints on `stderr` is kept, newest first, in `Tree.stderr`.

A function that meets a failing `assert`, or reads a key or a child where the node holds none
(`NonLeaf.keyAt`, `NonLeaf.subAt`), stops with a `Fault`. The loops that follow child or parent
pointers take a number of rounds (`MAX_LEVEL`, the bound on the height) and stop with `outOfFuel`
beyond it.
-/

namespace BplusTree

open CArray

/-- An address; `0` is `NULL`. -/
abbrev Ptr := Nat

def MIN_ORDER : Nat := 3
def MAX_ORDER : Nat := 64
def MAX_ENTRIES : Nat := 64
def MAX_LEVEL : Nat := 10

inductive NodeType
  | leaf
  | nonLeaf
  deriving DecidableEq, Repr

/-- `struct bplus_non_leaf` without `type`, `parent` and `next`. -/
structure NonLeaf where
  children : Nat
  key : Nat → Int
  subPtr : Nat → Ptr

/-- `struct bplus_leaf` without `type`, `parent` and `next`. -/
structure Leaf where
  entries : Nat
  key : Nat → Int
  data : Nat → Int

structure Heap where
  type : Ptr → NodeType
  parent : Ptr → Ptr
  next : Ptr → Ptr
  nonLeaf : Ptr → NonLeaf
  leaf : Ptr → Leaf
  /-- The next address `calloc` hands out. -/
  brk : Ptr

/-- `struct bplus_tree`, with the heap and the text written to `stderr`. -/
structure Tree where
  order : Nat
  entries : Nat
  level : Int
  root : Ptr
  head : Nat → Ptr
  heap : Heap
  stderr : List String

inductive Fault
  /-- An `assert` fails. -/
  | assertion
  /-- A key or child is read where the node holds none. -/
  | staleRead
  /-- A pointer chase is longer than `MAX_LEVEL`. -/
  | outOfFuel
  deriving DecidableEq, Repr

inductive Borrow
  | fromLeft
  | fromRight
  deriving DecidableEq, Repr

/-! ## Heap writes -/

def Heap.setParent (h : Heap) (p q : Ptr) : Heap :=
  { h with parent := Function.update h.parent p q }

def Heap.setNext (h : Heap) (p q : Ptr) : Heap := { h with next := Function.update h.next p q }

def Heap.setNonLeaf (h : Heap) (p : Ptr) (n : NonLeaf) : Heap :=
  { h with nonLeaf := Function.update h.nonLeaf p n }

def Heap.setLeaf (h : Heap) (p : Ptr) (l : Leaf) : Heap :=
  { h with leaf := Function.update h.leaf p l }

/-- `c->parent = p` for the children `c` a loop runs over. -/
def Heap.reparent (h : Heap) (p : Ptr) (cs : List Ptr) : Heap := cs.foldl (·.setParent · p) h

/-- The `n` children from index `i` on. -/
def segment (a : Nat → Ptr) (i n : Nat) : List Ptr := (List.range n).map fun k => a (i + k)

def nonLeafNew (h : Heap) : Ptr × Heap :=
  (h.brk, { h with
    type := Function.update h.type h.brk .nonLeaf
    parent := Function.update h.parent h.brk 0
    next := Function.update h.next h.brk 0
    nonLeaf := Function.update h.nonLeaf h.brk ⟨0, fun _ => 0, fun _ => 0⟩
    brk := h.brk + 1 })

def leafNew (h : Heap) : Ptr × Heap :=
  (h.brk, { h with
    type := Function.update h.type h.brk .leaf
    parent := Function.update h.parent h.brk 0
    next := Function.update h.next h.brk 0
    leaf := Function.update h.leaf h.brk ⟨0, fun _ => 0, fun _ => 0⟩
    brk := h.brk + 1 })

/-- `node->key[i]`, which must be one of the node's keys. -/
def NonLeaf.keyAt (n : NonLeaf) (i : Nat) : Except Fault Int :=
  if i + 1 < n.children then .ok (n.key i) else .error .staleRead

/-- `node->sub_ptr[i]`, which must be one of the node's children. -/
def NonLeaf.subAt (n : NonLeaf) (i : Nat) : Except Fault Ptr :=
  if i < n.children then .ok (n.subPtr i) else .error .staleRead

/-! ## Search -/

/-- The loop of `key_binary_search`; the result is the final `high`. -/
def keyBinarySearchLoop (arr : Nat → Int) (target : Int) : Nat → Int → Int → Int
  | 0, _, high => high
  | fuel + 1, low, high =>
    if low + 1 < high then
      let mid := low + (high - low) / 2
      if target > arr mid.toNat then keyBinarySearchLoop arr target fuel mid high
      else keyBinarySearchLoop arr target fuel low mid
    else high

/-- The index of `target`, or `-(insertion point) - 1`. -/
def keyBinarySearch (arr : Nat → Int) (len : Nat) (target : Int) : Int :=
  let high := keyBinarySearchLoop arr target (len + 1) (-1) len
  if high ≥ len ∨ arr high.toNat ≠ target then -high - 1 else high

/-- One step down: the child of an inner node that `key` belongs under. -/
def childFor (h : Heap) (key : Int) (node : Ptr) : Ptr :=
  let nln := h.nonLeaf node
  let i := keyBinarySearch nln.key (nln.children - 1) key
  if i ≥ 0 then nln.subPtr (i + 1).toNat else nln.subPtr (-i - 1).toNat

/-- The loop `while (node != NULL) switch (node->type)` that search, insertion and deletion start
with: the leaf reached, `NULL` for an empty tree. -/
def findLeaf (h : Heap) (key : Int) : Nat → Ptr → Except Fault Ptr
  | 0, _ => .error .outOfFuel
  | fuel + 1, node =>
    if node = 0 then .ok 0
    else match h.type node with
      | .nonLeaf => findLeaf h key fuel (childFor h key node)
      | .leaf => .ok node

def bplusTreeSearch (t : Tree) (key : Int) : Except Fault Int := do
  let ln ← findLeaf t.heap key MAX_LEVEL t.root
  if ln = 0 then return 0
  let l := t.heap.leaf ln
  let i := keyBinarySearch l.key l.entries key
  return if i ≥ 0 then l.data i.toNat else 0

/-! ## Insertion -/

/-- `non_leaf_insert` on a full node, `insert < split`: the new child goes into `node`, the keys
from `split` on move to `sibling`. Returns `split_key`. -/
def splitBefore (order : Nat) (h : Heap) (node sibling subNode : Ptr) (key : Int)
    (insert split : Nat) :
    Int × Heap :=
  let n := h.nonLeaf node
  let s := h.nonLeaf sibling
  let splitKey := n.key (split - 1)
  let moved := order - 1 - split
  let h := h.setNonLeaf sibling
    { children := moved + 1
      key := copy n.key moved split 0 s.key
      subPtr := copy n.subPtr moved (split + 1) 1 (Function.update s.subPtr 0 (n.subPtr split)) }
  let h := h.reparent sibling (segment n.subPtr split (moved + 1))
  let h := h.setNonLeaf node
    { children := split + 1
      key := Function.update (shiftUp insert (split - 1) n.key) insert key
      subPtr := Function.update (shiftUp (insert + 1) split n.subPtr) (insert + 1) subNode }
  (splitKey, h.setParent subNode node)

/-- The case `insert == split`: the new child is the first one of `sibling`. -/
def splitAt (order : Nat) (h : Heap) (node sibling subNode : Ptr) (key : Int) (split : Nat) :
    Int × Heap :=
  let n := h.nonLeaf node
  let s := h.nonLeaf sibling
  let moved := order - 1 - split
  let h := h.setParent subNode sibling
  let h := h.setNonLeaf sibling
    { children := moved + 1
      key := copy n.key moved split 0 s.key
      subPtr := copy n.subPtr moved (split + 1) 1 (Function.update s.subPtr 0 subNode) }
  let h := h.reparent sibling (segment n.subPtr (split + 1) moved)
  (key, h.setNonLeaf node { n with children := split + 1 })

/-- The case `insert > split`: the keys from `split + 1` on move to `sibling`, leaving a hole for
the new child. -/
def splitAfter (order : Nat) (h : Heap) (node sibling subNode : Ptr) (key : Int)
    (insert split : Nat) :
    Except Fault (Int × Heap) :=
  let n := h.nonLeaf node
  let s := h.nonLeaf sibling
  let splitKey := n.key split
  let hole := insert - split - 1
  let rounds := order - 1 - (split + 1) + 1
  let ks := copyHole n.key 0 (order - 1) hole rounds (split + 1) 0 s.key
  let cs := copyHole n.subPtr 1 (order - 1) hole rounds (split + 1) 0
    (Function.update s.subPtr 0 (n.subPtr (split + 1)))
  let j := ks.2
  let h := h.reparent sibling (segment n.subPtr (split + 1) (order - 1 - split))
  let h := h.setNonLeaf node { n with children := split + 1 }
  if j > hole ∨ j = hole then
    let h := h.setNonLeaf sibling
      { children := if j > hole then j + 1 else j + 2
        key := Function.update ks.1 hole key
        subPtr := Function.update cs.1 (hole + 1) subNode }
    .ok (splitKey, h.setParent subNode sibling)
  else .error .assertion

/-- The block `node full` of `non_leaf_insert`: the sibling, `split_key` and the heap. -/
def splitNonLeaf (order : Nat) (h : Heap) (node subNode : Ptr) (key : Int) (insert : Nat) :
    Except Fault (Ptr × Int × Heap) :=
  let split := (order + 1) / 2
  let new := nonLeafNew h
  let sibling := new.1
  let h := new.2.setNext sibling (new.2.next node)
  let h := h.setNext node sibling
  if insert < split then .ok (sibling, splitBefore order h node sibling subNode key insert split)
  else if insert = split then .ok (sibling, splitAt order h node sibling subNode key split)
  else (splitAfter order h node sibling subNode key insert split).map (sibling, ·)

/-- The block `simple insertion` of `non_leaf_insert`. -/
def insertNonLeaf (h : Heap) (node subNode : Ptr) (key : Int) (insert : Nat) : Heap :=
  let n := h.nonLeaf node
  h.setNonLeaf node
    { children := n.children + 1
      key := Function.update (shiftUp insert (n.children - 1) n.key) insert key
      subPtr := Function.update (shiftUp (insert + 1) n.children n.subPtr) (insert + 1) subNode }

/-- `new parent`: a root with the two children `l` and `r`, which becomes the head of `level`. -/
def newRoot (t : Tree) (l r : Ptr) (key : Int) (level : Nat) : Tree :=
  let new := nonLeafNew t.heap
  let n := new.2.nonLeaf new.1
  let h := new.2.setNonLeaf new.1
    { children := 2
      key := Function.update n.key 0 key
      subPtr := Function.update (Function.update n.subPtr 0 l) 1 r }
  { t with
    heap := (h.setParent l new.1).setParent r new.1
    root := new.1
    head := Function.update t.head level new.1 }

def levelExceeded : String :=
  "!!Panic: Level exceeded, please expand the tree level, non-leaf order or leaf entries " ++
    "for element capacity!\n"

/-- `non_leaf_insert`: the return value and the tree. -/
def nonLeafInsert : Nat → Tree → Ptr → Ptr → Int → Nat → Except Fault (Int × Tree)
  | 0, _, _, _, _, _ => .error .outOfFuel
  | fuel + 1, t, node, subNode, key, level =>
    let n := t.heap.nonLeaf node
    let insert := keyBinarySearch n.key (n.children - 1) key
    if insert ≥ 0 then .error .assertion
    else
      let insert := (-insert - 1).toNat
      if n.children = t.order then
        match splitNonLeaf t.order t.heap node subNode key insert with
        | .error e => .error e
        | .ok (sibling, splitKey, h) =>
          if (t.order + 1) / 2 = 0 then .ok (0, { t with heap := h })
          else
            let parent := h.parent node
            if parent = 0 then
              if (level + 1 : Int) ≥ t.level then
                .ok (-1, { t with
                  heap := h.setNext node (h.next sibling), stderr := levelExceeded :: t.stderr })
              else .ok (0, newRoot { t with heap := h } node sibling splitKey (level + 1))
            else
              nonLeafInsert fuel { t with heap := h.setParent sibling parent } parent
                sibling splitKey (level + 1)
      else .ok (0, { t with heap := insertNonLeaf t.heap node subNode key insert })

/-- `leaf_insert` on a full leaf, `insert < split`: the entries from `split - 1` on move to
`sibling`, the new entry goes into `leaf`. -/
def splitLeafBefore (entries : Nat) (h : Heap) (leaf sibling : Ptr) (key data : Int)
    (insert split : Nat) : Heap :=
  let l := h.leaf leaf
  let s := h.leaf sibling
  let moved := entries - (split - 1)
  let h := h.setLeaf sibling
    { entries := moved
      key := copy l.key moved (split - 1) 0 s.key
      data := copy l.data moved (split - 1) 0 s.data }
  h.setLeaf leaf
    { entries := split
      key := Function.update (shiftUp insert (split - 1) l.key) insert key
      data := Function.update (shiftUp insert (split - 1) l.data) insert data }

/-- The case `insert >= split`: the entries from `split` on move to `sibling`, leaving a hole for
the new entry. -/
def splitLeafAfter (entries : Nat) (h : Heap) (leaf sibling : Ptr) (key data : Int)
    (insert split : Nat) : Except Fault Heap :=
  let l := h.leaf leaf
  let s := h.leaf sibling
  let hole := insert - split
  let rounds := entries - split + 1
  let ks := copyHole l.key 0 entries hole rounds split 0 s.key
  let ds := copyHole l.data 0 entries hole rounds split 0 s.data
  let j := ks.2
  let h := h.setLeaf leaf { l with entries := split }
  if j > hole ∨ j = hole then
    .ok (h.setLeaf sibling
      { entries := if j > hole then j else j + 1
        key := Function.update ks.1 hole key
        data := Function.update ds.1 hole data })
  else .error .assertion

/-- The block `node full` of `leaf_insert`: the sibling and the heap. -/
def splitLeaf (entries : Nat) (h : Heap) (leaf : Ptr) (key data : Int) (insert : Nat) :
    Except Fault (Ptr × Heap) :=
  let split := (entries + 1) / 2
  let new := leafNew h
  let sibling := new.1
  let h := new.2.setNext sibling (new.2.next leaf)
  let h := h.setNext leaf sibling
  if insert < split then .ok (sibling, splitLeafBefore entries h leaf sibling key data insert split)
  else (splitLeafAfter entries h leaf sibling key data insert split).map (sibling, ·)

/-- The block `simple insertion` of `leaf_insert`. -/
def insertLeaf (h : Heap) (leaf : Ptr) (key data : Int) (insert : Nat) : Heap :=
  let l := h.leaf leaf
  h.setLeaf leaf
    { entries := l.entries + 1
      key := Function.update (shiftUp insert l.entries l.key) insert key
      data := Function.update (shiftUp insert l.entries l.data) insert data }

def leafInsert (t : Tree) (leaf : Ptr) (key data : Int) : Except Fault (Int × Tree) :=
  let l := t.heap.leaf leaf
  let insert := keyBinarySearch l.key l.entries key
  if insert ≥ 0 then .ok (-1, t)
  else
    let insert := (-insert - 1).toNat
    if l.entries = t.entries then
      match splitLeaf t.entries t.heap leaf key data insert with
      | .error e => .error e
      | .ok (sibling, h) =>
        if (t.entries + 1) / 2 = 0 then .ok (0, { t with heap := h })
        else
          let parent := h.parent leaf
          let splitKey := (h.leaf sibling).key 0
          if parent = 0 then .ok (0, newRoot { t with heap := h } leaf sibling splitKey 1)
          else
            nonLeafInsert MAX_LEVEL { t with heap := h.setParent sibling parent } parent sibling
              splitKey 1
    else .ok (0, { t with heap := insertLeaf t.heap leaf key data insert })

def bplusTreeInsert (t : Tree) (key data : Int) : Except Fault (Int × Tree) := do
  let ln ← findLeaf t.heap key MAX_LEVEL t.root
  if ln = 0 then
    let new := leafNew t.heap
    let l := new.2.leaf new.1
    let h := new.2.setLeaf new.1
      { entries := 1, key := Function.update l.key 0 key, data := Function.update l.data 0 data }
    return (0, { t with heap := h, head := Function.update t.head 0 new.1, root := new.1 })
  else leafInsert t ln key data

/-! ## Deletion -/

/-- Which sibling of the `i`-th child of `p` to borrow from; `size` counts a node's children or
entries. -/
def chooseSibling (size : Ptr → Nat) (p : NonLeaf) (i : Nat) : Except Fault (Ptr × Borrow) := do
  if i = 0 then return (← p.subAt (i + 1), .fromRight)
  else if i = p.children - 1 then return (← p.subAt (i - 1), .fromLeft)
  else
    let l ← p.subAt (i - 1)
    let r ← p.subAt (i + 1)
    return if size l ≥ size r then (l, .fromLeft) else (r, .fromRight)

/-- `non_leaf_remove`, borrowing the last child of the left sibling; `i` is the parent's key
between the two nodes. -/
def borrowLeft (h : Heap) (parent sibling node : Ptr) (remove i : Nat) : Heap :=
  let n := h.nonLeaf node
  let s := h.nonLeaf sibling
  let p := h.nonLeaf parent
  let last := s.subPtr (s.children - 1)
  let h := h.setNonLeaf node
    { n with
      key := Function.update (shiftUp 0 remove n.key) 0 (p.key i)
      subPtr := Function.update (shiftUp 0 (remove + 1) n.subPtr) 0 last }
  let h := h.setNonLeaf parent { p with key := Function.update p.key i (s.key (s.children - 2)) }
  let h := h.setParent last node
  h.setNonLeaf sibling { s with children := s.children - 1 }

/-- Merging `node` into the left sibling. -/
def mergeLeft (h : Heap) (parent sibling node : Ptr) (remove i : Nat) : Heap :=
  let n := h.nonLeaf node
  let s := h.nonLeaf sibling
  let p := h.nonLeaf parent
  let ks := copySkip n.key remove (n.children - 1) 0 s.children
    (Function.update s.key (s.children - 1) (p.key i))
  let cs := copySkip n.subPtr (remove + 1) n.children 0 s.children s.subPtr
  let h := h.setNonLeaf sibling { children := cs.2, key := ks.1, subPtr := cs.1 }
  let h := h.reparent sibling ((segment n.subPtr 0 n.children).eraseIdx (remove + 1))
  h.setNext sibling (h.next node)

/-- The loop that removes `key[remove]` and `sub_ptr[remove + 1]`. -/
def removeNonLeaf (n : NonLeaf) (remove : Nat) : NonLeaf :=
  { children := n.children - 1
    key := shiftDown (n.children - 2 - remove) remove n.key
    subPtr := shiftDown (n.children - 2 - remove) (remove + 1) n.subPtr }

/-- Borrowing the first child of the right sibling. -/
def borrowRight (h : Heap) (parent sibling node : Ptr) (remove i : Nat) : Heap :=
  let n := removeNonLeaf (h.nonLeaf node) remove
  let s := h.nonLeaf sibling
  let p := h.nonLeaf parent
  let h := h.setNonLeaf node
    { children := n.children + 1
      key := Function.update n.key (n.children - 1) (p.key i)
      subPtr := Function.update n.subPtr n.children (s.subPtr 0) }
  let h := h.setNonLeaf parent { p with key := Function.update p.key i (s.key 0) }
  let h := h.setParent (s.subPtr 0) node
  h.setNonLeaf sibling
    { children := s.children - 1
      key := shiftDown (s.children - 2) 0 s.key
      subPtr := shiftDown (s.children - 1) 0 s.subPtr }

/-- Merging the right sibling into `node`. -/
def mergeRight (h : Heap) (parent sibling node : Ptr) (remove i : Nat) : Heap :=
  let n := removeNonLeaf (h.nonLeaf node) remove
  let s := h.nonLeaf sibling
  let p := h.nonLeaf parent
  let h := h.setNonLeaf node
    { children := n.children + s.children
      key := copy s.key (s.children - 1) 0 n.children
        (Function.update n.key (n.children - 1) (p.key i))
      subPtr := copy s.subPtr s.children 0 n.children n.subPtr }
  let h := h.reparent node (segment s.subPtr 0 s.children)
  h.setNext node (h.next sibling)

/-- The block `simple deletion` of `non_leaf_remove`. -/
def simpleDeletion (t : Tree) (node : Ptr) (remove : Nat) : Except Fault Tree :=
  let n := t.heap.nonLeaf node
  if n.children > 2 then .ok { t with heap := t.heap.setNonLeaf node (removeNonLeaf n remove) }
  else .error .assertion

/-- `non_leaf_remove`: remove `key[remove]` and `sub_ptr[remove + 1]`. -/
def nonLeafRemove : Nat → Tree → Ptr → Nat → Nat → Except Fault Tree
  | 0, _, _, _, _ => .error .outOfFuel
  | fuel + 1, t, node, remove, level =>
    let n := t.heap.nonLeaf node
    if n.children ≤ (t.order + 1) / 2 then
      let parent := t.heap.parent node
      if parent ≠ 0 then do
        let p := t.heap.nonLeaf parent
        let i := keyBinarySearch p.key (p.children - 1) (← n.keyAt 0)
        if i ≥ 0 then throw .assertion
        let i := (-i - 1).toNat
        let (sibling, borrow) ← chooseSibling (fun s => (t.heap.nonLeaf s).children) p i
        let s := t.heap.nonLeaf sibling
        match borrow with
        | .fromLeft =>
          if s.children > (t.order + 1) / 2 then
            return { t with heap := borrowLeft t.heap parent sibling node remove (i - 1) }
          else
            nonLeafRemove fuel
              { t with heap := mergeLeft t.heap parent sibling node remove (i - 1) } parent
                  (i - 1) (level + 1)
        | .fromRight =>
          if s.children > (t.order + 1) / 2 then
            return { t with heap := borrowRight t.heap parent sibling node remove i }
          else
            nonLeafRemove fuel { t with heap := mergeRight t.heap parent sibling node remove i }
              parent i (level + 1)
      else if n.children = 2 then
        if remove = 0 then
          .ok { t with
            heap := t.heap.setParent (n.subPtr 0) 0
            root := n.subPtr 0
            head := Function.update t.head level 0 }
        else .error .assertion
      else simpleDeletion t node remove
    else simpleDeletion t node remove

/-- `leaf_remove`, borrowing the last entry of the left sibling. -/
def borrowLeftLeaf (h : Heap) (parent sibling leaf : Ptr) (remove i : Nat) : Heap :=
  let l := h.leaf leaf
  let s := h.leaf sibling
  let p := h.nonLeaf parent
  let h := h.setLeaf leaf
    { l with
      key := Function.update (shiftUp 0 remove l.key) 0 (s.key (s.entries - 1))
      data := Function.update (shiftUp 0 remove l.data) 0 (s.data (s.entries - 1)) }
  let h := h.setLeaf sibling { s with entries := s.entries - 1 }
  h.setNonLeaf parent { p with key := Function.update p.key i ((h.leaf leaf).key 0) }

/-- Merging `leaf` into the left sibling. -/
def mergeLeftLeaf (h : Heap) (sibling leaf : Ptr) (remove : Nat) : Heap :=
  let l := h.leaf leaf
  let s := h.leaf sibling
  let ks := copySkip l.key remove l.entries 0 s.entries s.key
  let ds := copySkip l.data remove l.entries 0 s.entries s.data
  let h := h.setLeaf sibling { entries := ks.2, key := ks.1, data := ds.1 }
  h.setNext sibling (h.next leaf)

/-- The loop that removes the entry at `remove`. -/
def removeLeaf (l : Leaf) (remove : Nat) : Leaf :=
  { entries := l.entries - 1
    key := shiftDown (l.entries - 1 - remove) remove l.key
    data := shiftDown (l.entries - 1 - remove) remove l.data }

/-- Borrowing the first entry of the right sibling. -/
def borrowRightLeaf (h : Heap) (parent sibling leaf : Ptr) (remove i : Nat) : Heap :=
  let l := removeLeaf (h.leaf leaf) remove
  let s := h.leaf sibling
  let p := h.nonLeaf parent
  let h := h.setLeaf leaf
    { entries := l.entries + 1
      key := Function.update l.key l.entries (s.key 0)
      data := Function.update l.data l.entries (s.data 0) }
  let h := h.setLeaf sibling
    { entries := s.entries - 1
      key := shiftDown (s.entries - 1) 0 s.key
      data := shiftDown (s.entries - 1) 0 s.data }
  h.setNonLeaf parent { p with key := Function.update p.key i ((h.leaf sibling).key 0) }

/-- Merging the right sibling into `leaf`. -/
def mergeRightLeaf (h : Heap) (sibling leaf : Ptr) (remove : Nat) : Heap :=
  let l := removeLeaf (h.leaf leaf) remove
  let s := h.leaf sibling
  let h := h.setLeaf leaf
    { entries := l.entries + s.entries
      key := copy s.key s.entries 0 l.entries l.key
      data := copy s.data s.entries 0 l.entries l.data }
  h.setNext leaf (h.next sibling)

def leafRemove (t : Tree) (leaf : Ptr) (key : Int) : Except Fault (Int × Tree) :=
  let l := t.heap.leaf leaf
  let remove := keyBinarySearch l.key l.entries key
  if remove < 0 then .ok (-1, t)
  else
    let remove := remove.toNat
    if l.entries ≤ (t.entries + 1) / 2 then
      let parent := t.heap.parent leaf
      if parent ≠ 0 then do
        let p := t.heap.nonLeaf parent
        let i := keyBinarySearch p.key (p.children - 1) (l.key 0)
        -- a key found at `i` is the left separator of child `i + 1`, so there is a left sibling
        let i := if i ≥ 0 then (i + 1).toNat else (-i - 1).toNat
        let (sibling, borrow) ← chooseSibling (fun s => (t.heap.leaf s).entries) p i
        let s := t.heap.leaf sibling
        match borrow with
        | .fromLeft =>
          if s.entries > (t.entries + 1) / 2 then
            return (0, { t with heap := borrowLeftLeaf t.heap parent sibling leaf remove (i - 1) })
          else
            let t ← nonLeafRemove MAX_LEVEL
              { t with heap := mergeLeftLeaf t.heap sibling leaf remove } parent (i - 1) 1
            return (0, t)
        | .fromRight =>
          if s.entries > (t.entries + 1) / 2 then
            return (0, { t with heap := borrowRightLeaf t.heap parent sibling leaf remove i })
          else
            let t ← nonLeafRemove MAX_LEVEL
              { t with heap := mergeRightLeaf t.heap sibling leaf remove } parent i 1
            return (0, t)
      else if l.entries = 1 then
        if key = l.key 0 then
          .ok (0, { t with root := 0, head := Function.update t.head 0 0 })
        else .error .assertion
      else .ok (0, { t with heap := t.heap.setLeaf leaf (removeLeaf l remove) })
    else .ok (0, { t with heap := t.heap.setLeaf leaf (removeLeaf l remove) })

def bplusTreeDelete (t : Tree) (key : Int) : Except Fault (Int × Tree) := do
  let ln ← findLeaf t.heap key MAX_LEVEL t.root
  if ln = 0 then return (-1, t) else leafRemove t ln key

/-! ## The interface -/

def bplusTreeGet (t : Tree) (key : Int) : Except Fault Int := do
  let data ← bplusTreeSearch t key
  return if data ≠ 0 then data else -1

def bplusTreePut (t : Tree) (key data : Int) : Except Fault (Int × Tree) :=
  if data ≠ 0 then bplusTreeInsert t key data else bplusTreeDelete t key

/-- `bplus_tree_init`; the heap is empty. -/
def bplusTreeInit (level : Int) (order entries : Nat) : Except Fault Tree :=
  if level ≤ MAX_LEVEL ∧ order ≤ MAX_ORDER ∧ entries ≤ MAX_ENTRIES then
    .ok
      { order, entries, level, root := 0, head := fun _ => 0, stderr := []
        heap :=
          { type := fun _ => .leaf, parent := fun _ => 0, next := fun _ => 0
            nonLeaf := fun _ => ⟨0, fun _ => 0, fun _ => 0⟩
            leaf := fun _ => ⟨0, fun _ => 0, fun _ => 0⟩, brk := 1 } }
  else .error .assertion

end BplusTree
