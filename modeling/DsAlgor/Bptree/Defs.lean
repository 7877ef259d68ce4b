import DsAlgor.Lib.CArray

/-!
# The B+ tree of jimDB

The model of `bptree.c`: search, insertion and deletion along a recorded path. A node is one record
with the fields of both arms of its union (`leaf` says which arm is in use) and arrays that are
functions on indices (`CArray`). Memory comes from `malloc` and `calloc`, which always succeed and
hand out the addresses in order; the arrays of a new node, a new entry and a new path hold what is
in memory there. `free` gives nothing back.

A key is a `void *` other than `NULL`, which stands for the absence of a key in the source. The
functions that follow pointers or call themselves one level up take a number of rounds, and return
`none` when these are not enough.
-/

namespace Bptree

open CArray

/-- An address; `0` is `NULL`. -/
abbrev Ptr := Nat

def BPT_OK : Int := 0
def BPT_ERR : Int := 1
def BPT_DEFAULT_ORDER : Nat := 32

structure Entry (K V : Type) where
  key : K
  val : V

structure Node (K : Type) where
  keys : Nat → K
  children : Nat → Ptr
  entries : Nat → Ptr
  next : Ptr
  count : Nat
  level : Nat
  leaf : Bool

/-- `struct bptreeType` without the destructors. A copy may depend on the state of the allocator, so
that two copies of one key need not have one address. -/
structure KeyType (K V : Type) where
  keyDup : Option (Ptr → K → K)
  valDup : Option (Ptr → V → V)
  keyCompare : Option (K → K → Int)

/-- `struct bptreePathInfo` without `find`, which nobody reads. -/
structure PathInfo where
  p : Nat → Nat
  n : Nat → Ptr

/-- `struct bptree`, with the heap. -/
structure Tree (K V : Type) where
  innerOrder : Nat
  leafOrder : Nat
  count : BitVec 64
  root : Ptr
  min : Ptr
  node : Ptr → Node K
  entry : Ptr → Entry K V
  /-- What the memory of a new path holds. -/
  path : PathInfo
  /-- The next address `malloc` hands out. -/
  brk : Ptr

variable {K V : Type} [DecidableEq K]

namespace KeyType

/-- The macro `bptreeCompareKeys`. -/
def compareKeys (type : KeyType K V) (key1 key2 : K) : Int :=
  match type.keyCompare with
  | some cmp => cmp key1 key2
  | none => if key1 = key2 then 1 else 0

/-- What the macro `bptreeSetKey` stores. -/
def setKey (type : KeyType K V) (brk : Ptr) (key : K) : K :=
  match type.keyDup with
  | some dup => dup brk key
  | none => key

/-- What the macro `bptreeSetVal` stores. -/
def setVal (type : KeyType K V) (brk : Ptr) (val : V) : V :=
  match type.valDup with
  | some dup => dup brk val
  | none => val

end KeyType

/-! ## Memory -/

/-- A node that `_allocateNode` makes in the memory of `n`. -/
def Node.cleared (n : Node K) (leaf : Bool) : Node K :=
  { n with next := 0, count := 0, level := 0, leaf := leaf }

namespace Tree

def setNode (t : Tree K V) (p : Ptr) (n : Node K) : Tree K V :=
  { t with node := Function.update t.node p n }

def setEntry (t : Tree K V) (p : Ptr) (e : Entry K V) : Tree K V :=
  { t with entry := Function.update t.entry p e }

/-- The key of an entry. -/
def key (t : Tree K V) (e : Ptr) : K := (t.entry e).key

/-- The level of the root, plus one. -/
def height (t : Tree K V) : Nat := (t.node t.root).level + 1

def allocateNode (t : Tree K V) (leaf : Bool) : Ptr × Tree K V :=
  (t.brk,
    { t with
      node := Function.update t.node t.brk ((t.node t.brk).cleared leaf)
      brk := t.brk + 1 })

/-- `e = malloc(sizeof(*e)); bptreeSetKey(t, e, key)`. -/
def allocateEntry (type : KeyType K V) (t : Tree K V) (key : K) : Ptr × Tree K V :=
  (t.brk, { t with
    entry := Function.update t.entry t.brk { t.entry t.brk with key := type.setKey t.brk key }
    brk := t.brk + 1 })

def setVal (type : KeyType K V) (t : Tree K V) (e : Ptr) (val : V) : Tree K V :=
  t.setEntry e { t.entry e with val := type.setVal t.brk val }

end Tree

/-- `bptreeCreate`, in a memory that holds `t`. It does not set `count`. -/
def bptreeCreate (t : Tree K V) : Tree K V :=
  { t with
    innerOrder := BPT_DEFAULT_ORDER, leafOrder := BPT_DEFAULT_ORDER * 2, root := 0, min := 0 }

/-! ## Search -/

/-- `for (; i < count; ++i) if (0 > bptreeCompareKeys(t, key, keys[i])) break`, with `r` rounds
left. -/
def childPos (type : KeyType K V) (key : K) (keys : Nat → K) : Nat → Nat → Nat
  | 0, i => i
  | r + 1, i => if 0 > type.compareKeys key (keys i) then i else childPos type key keys r (i + 1)

/-- The loop of `_bptreeFindEntry` over the entries of a leaf: the entry, or `NULL`, and the last
`i`. -/
def entryPos (type : KeyType K V) (t : Tree K V) (key : K) (entries : Nat → Ptr) :
    Nat → Nat → Ptr × Nat
  | 0, i => (0, i)
  | r + 1, i =>
    let cpResult := type.compareKeys key (t.key (entries i))
    if cpResult < 0 then (0, i)
    else if cpResult = 0 then (entries i, i)
    else entryPos type t key entries r (i + 1)

/-- The loop of `_bptreeFindEntry` over the levels. -/
def findLeafLoop (type : KeyType K V) (t : Tree K V) (key : K) : Nat → Ptr → PathInfo →
    Option PathInfo
  | 0, _, _ => none
  | r + 1, node, path =>
    let n := t.node node
    if n.leaf then some { path with n := Function.update path.n 0 node }
    else
      let i := childPos type key n.keys n.count 0
      findLeafLoop type t key r (n.children i)
        { n := Function.update path.n n.level node, p := Function.update path.p n.level i }

def bptreeFindEntry (type : KeyType K V) (t : Tree K V) (key : K) (path : PathInfo) :
    Option (Ptr × PathInfo) :=
  if t.root = 0 then some (0, { n := Function.update path.n 0 0, p := Function.update path.p 0 0 })
  else do
    let path ← findLeafLoop type t key t.height t.root path
    let node := t.node (path.n 0)
    let (e, i) := entryPos type t key node.entries node.count 0
    return (e, { path with p := Function.update path.p 0 i })

/-- `bptreeFind`; a missing key is the null pointer. -/
def bptreeFind (type : KeyType K V) (t : Tree K V) : Option K → Option Ptr
  | none => some 0
  | some key => do
    let (e, _) ← bptreeFindEntry type t key t.path
    return e

/-! ## Insertion -/

/-- The branches of `_insertSplitInnerNode`: `n`, its new sibling `nn`, and the key that goes up. -/
def splitInnerNode (n nn : Node K) (half p : Nat) (lc rc : Ptr) (newk : K) : Node K × Node K × K :=
  if p = half then
    ({ n with count := half },
      { nn with
        keys := memmove nn.keys 0 n.keys half (n.count - half)
        children := Function.update (memmove nn.children 1 n.children (half + 1) (n.count - half)) 0
          rc
        count := n.count - half },
      newk)
  else if p < half then
    ({ n with
        keys := Function.update (memmove n.keys (p + 1) n.keys p (half - 1 - p)) p newk
        children := Function.update (memmove n.children (p + 2) n.children (p + 1) (half - 1 - p))
          (p + 1) rc
        count := half },
      { nn with
        keys := memmove nn.keys 0 n.keys half (n.count - half)
        children := memmove nn.children 0 n.children half (n.count - half + 1)
        count := n.count - half },
      n.keys (half - 1))
  else
    ({ n with count := half },
      { nn with
        keys := memmove (Function.update (memmove nn.keys 0 n.keys (half + 1) (p - half - 1))
          (p - half - 1) newk) (p - half) n.keys p (n.count - p)
        children := memmove (Function.update (Function.update
            (memmove nn.children 0 n.children (half + 1) (p - half - 1)) (p - half - 1) lc)
            (p - half) rc)
          (p - half + 1) n.children (p + 1) (n.count - p)
        count := n.count - half },
      n.keys half)

/-- `_insertSplitInnerNode` before it calls `_insertIntoInnerNode` with the new node and the key. -/
def insertSplitInnerNode (t : Tree K V) (path : PathInfo) (rc : Ptr) (newk : K) :
    Tree K V × Ptr × K :=
  let half := (t.innerOrder - 1) >>> 1
  let (nn, t) := t.allocateNode false
  let level := (t.node rc).level
  let n := path.n (level + 1)
  let (n', nn', nk) := splitInnerNode (t.node n) { t.node nn with level := (t.node n).level } half
    (path.p (level + 1)) (path.n level) rc newk
  ((t.setNode n n').setNode nn nn', nn, nk)

/-- `keys[p] = nk; children[p + 1] = c`, after the others have moved up. -/
def Node.insertChild (n : Node K) (p : Nat) (c : Ptr) (nk : K) : Node K :=
  { n with
    keys := Function.update (memmove n.keys (p + 1) n.keys p (n.count - p)) p nk
    children := Function.update (memmove n.children (p + 2) n.children (p + 1) (n.count - p))
      (p + 1) c
    count := n.count + 1 }

def insertIntoInnerNodeNotFull (t : Tree K V) (path : PathInfo) (n : Ptr) (nk : K) : Tree K V :=
  let level := (t.node n).level
  let pn := path.n (level + 1)
  t.setNode pn ((t.node pn).insertChild (path.p (level + 1)) n nk)

/-- What `_insertIntoInnerNode` writes into a new root. -/
def rootNode (node : Node K) (l : Nat) (lc rc : Ptr) (nk : K) : Node K :=
  { node with
    level := l
    count := 1
    keys := Function.update node.keys 0 nk
    children := Function.update (Function.update node.children 0 lc) 1 rc }

def newRoot (t : Tree K V) (l : Nat) (lc rc : Ptr) (nk : K) : Tree K V :=
  let (node, t) := t.allocateNode false
  { t.setNode node (rootNode (t.node node) l lc rc nk) with root := node }

def insertIntoInnerNode : Nat → Tree K V → PathInfo → Ptr → K → Option (Tree K V)
  | 0, _, _, _, _ => none
  | r + 1, t, path, n, nk =>
    let l := (t.node n).level + 1
    if l > (t.node t.root).level then
      some (newRoot t l (path.n (t.node n).level) n nk)
    else if (t.node (path.n l)).count = t.innerOrder - 1 then
      let (t', nn, nk') := insertSplitInnerNode t path n nk
      insertIntoInnerNode r t' path nn nk'
    else some (insertIntoInnerNodeNotFull t path n nk)

/-- The branches of `_insertSpiltLeafNode`: `n` and its new sibling `nn`. -/
def spiltLeafNode (n nn : Node K) (order half p : Nat) (e : Ptr) : Node K × Node K :=
  if p < half then
    ({ n with
        entries := Function.update (memmove n.entries (p + 1) n.entries p (half - 1 - p)) p e
        count := half },
      { nn with
        entries := memmove nn.entries 0 n.entries (half - 1) (order - half)
        count := order - half })
  else
    ({ n with count := half },
      { nn with
        entries := memmove
          (Function.update (memmove nn.entries (p - (half - 1)) n.entries p (n.count - p))
          (p - half) e) 0 n.entries half (p - half)
        count := order - half })

def insertSpiltLeafNode (t : Tree K V) (path : PathInfo) (e : Ptr) : Option (Tree K V) :=
  let half := t.leafOrder >>> 1
  let n := path.n 0
  let (nn, t') := t.allocateNode (t.node n).leaf
  let (n', nn') := spiltLeafNode (t'.node n) { t'.node nn with level := (t'.node n).level }
    t.leafOrder half (path.p 0) e
  let nk := t'.key (nn'.entries 0)
  let t'' := (t'.setNode nn { nn' with next := n'.next }).setNode n { n' with next := nn }
  insertIntoInnerNode t''.height t'' path nn nk

/-- `entries[p] = e`, after the others have moved up. -/
def Node.insertEntry (n : Node K) (p : Nat) (e : Ptr) : Node K :=
  { n with
    entries := Function.update (memmove n.entries (p + 1) n.entries p (n.count - p)) p e
    count := n.count + 1 }

def insertIntoLeafNodeNotFull (t : Tree K V) (path : PathInfo) (e : Ptr) : Tree K V :=
  t.setNode (path.n 0) ((t.node (path.n 0)).insertEntry (path.p 0) e)

def insertIntoLeafNode (t : Tree K V) (path : PathInfo) (e : Ptr) : Option (Tree K V) := do
  let (t, path) :=
    if t.root = 0 then
      let (root, t) := t.allocateNode true
      ({ t with root := root, min := root }, { path with n := Function.update path.n 0 root })
    else (t, path)
  let t ←
    if (t.node (path.n 0)).count = t.leafOrder - 1 then insertSpiltLeafNode t path e
    else some (insertIntoLeafNodeNotFull t path e)
  return { t with count := t.count + 1 }

/-! ## Deletion -/

def findMinEntry (t : Tree K V) : Nat → Ptr → Option Ptr
  | 0, _ => none
  | r + 1, node => if (t.node node).leaf then some ((t.node node).entries 0) else findMinEntry t r
      ((t.node node).children 0)

/-- The key of the smallest entry under a node. -/
def findMinKey (t : Tree K V) (n : Ptr) : Option K := do
  let e ← findMinEntry t t.height n
  return t.key e

def updateInnerNode (t : Tree K V) (path : PathInfo) (level : Nat) : Option (Tree K V) := do
  let p := path.p level
  let n := t.node (path.n level)
  let nk ← findMinKey t (n.children (p + 1))
  return t.setNode (path.n level) { n with keys := Function.update n.keys p nk }

/-- The loop of `_removeKeyInPath` from level `i` on, with `r` rounds left. -/
def removeKeyLoop (type : KeyType K V) (path : PathInfo) (delkey nextkey : K) :
    Nat → Nat → Tree K V → Tree K V
  | 0, _, t => t
  | r + 1, i, t =>
    let node := t.node (path.n i)
    let pos := path.p i
    if pos = 0 then removeKeyLoop type path delkey nextkey r (i + 1) t
    else if type.compareKeys delkey (node.keys (pos - 1)) = 0 then
      t.setNode (path.n i) { node with keys := Function.update node.keys (pos - 1) nextkey }
    else removeKeyLoop type path delkey nextkey r (i + 1) t

def removeKeyInPath (type : KeyType K V) (t : Tree K V) (path : PathInfo) (delkey : K) : Tree K V :=
  let pos := path.p 0
  let node := t.node (path.n 0)
  if pos = 0 then
    let nextkey :=
      if pos < node.count - 1 then some (t.key (node.entries (pos + 1)))
      else if node.next ≠ 0 then some (t.key ((t.node node.next).entries 0))
      else none
    match nextkey with
    | some nextkey => removeKeyLoop type path delkey nextkey (t.node t.root).level 1 t
    | none => t
  else t

/-- The removal of `keys[p]` and `children[p + 1]`. -/
def Node.eraseChild (n : Node K) (p : Nat) : Node K :=
  { n with
    keys := memmove n.keys p n.keys (p + 1) (n.count - 1 - p)
    children := memmove n.children (p + 1) n.children (p + 2) (n.count - 1 - p)
    count := n.count - 1 }

/-- The neighbours of a child, `0` where there is none. -/
def Node.left (n : Node K) (pos : Nat) : Ptr := if pos > 0 then n.children (pos - 1) else 0
def Node.right (n : Node K) (pos : Nat) : Ptr := if pos < n.count then n.children (pos + 1) else 0

/-- The branch of `_deleteFromInnerNode` that takes the last child of `ln`, before `keys[0]` is
set. -/
def innerFromLeft (n ln : Node K) (p : Nat) : Node K :=
  { n with
    keys := memmove n.keys 1 n.keys 0 p
    children := Function.update (memmove n.children 1 n.children 0 (p + 1)) 0
      (ln.children ln.count) }

/-- The branch that takes the first child of `rn`, before `keys[n->count - 1]` is set. -/
def innerFromRight (n rn : Node K) (p : Nat) : Node K :=
  { n with
    keys := memmove n.keys p n.keys (p + 1) (n.count - 1 - p)
    children := Function.update (memmove n.children (p + 1) n.children (p + 2) (n.count - 1 - p))
      n.count
      (rn.children 0) }

def Node.dropFirst (rn : Node K) : Node K :=
  { rn with
    keys := memmove rn.keys 0 rn.keys 1 (rn.count - 1)
    children := memmove rn.children 0 rn.children 1 rn.count
    count := rn.count - 1 }

/-- The merge of `n` without its child `p + 1` into `ln`, with the key `k` of the parent between
them. -/
def innerIntoLeft (n ln : Node K) (p : Nat) (k : K) : Node K :=
  { ln with
    keys := memmove (memmove (Function.update ln.keys ln.count k) (ln.count + 1) n.keys 0 p)
      (ln.count + 1 + p) n.keys (p + 1) (n.count - 1 - p)
    children := memmove (memmove ln.children (ln.count + 1) n.children 0 (p + 1))
      (ln.count + 2 + p) n.children (p + 2) (n.count - 1 - p)
    count := ln.count + n.count }

/-- The merge of `rn` into `n` without its child `p + 1`. -/
def innerIntoRight (n rn : Node K) (p : Nat) (k : K) : Node K :=
  { n with
    keys := memmove (Function.update (memmove n.keys p n.keys (p + 1) (n.count - 1 - p))
      (n.count - 1) k) n.count rn.keys 0 rn.count
    children := memmove (memmove n.children (p + 1) n.children (p + 2) (n.count - 1 - p))
      n.count rn.children 0 (rn.count + 1)
    count := n.count + rn.count }

/-- `--path->p[level]`. -/
def PathInfo.decr (path : PathInfo) (level : Nat) : PathInfo :=
  { path with p := Function.update path.p level (path.p level - 1) }

def deleteFromInnerNode : Nat → Tree K V → PathInfo → Nat → Option (Tree K V)
  | 0, _, _, _ => none
  | r + 1, t, path, level =>
    let half := (t.innerOrder - 1) >>> 1
    let p := path.p level
    let pn := path.n level
    let n := t.node pn
    if n.count > half then some (t.setNode pn (n.eraseChild p))
    else if level = (t.node t.root).level then
      if (t.node t.root).count = 1 then some { t with root := (t.node t.root).children 0 }
      else some (t.setNode pn (n.eraseChild p))
    else
      let posInParent := path.p (level + 1)
      let parent := t.node (path.n (level + 1))
      let ln := parent.left posInParent
      let rn := parent.right posInParent
      if ln ≠ 0 ∧ (t.node ln).count > half then do
        let n' := innerFromLeft n (t.node ln) p
        let t := t.setNode pn n'
        let k ← findMinKey t (n'.children 1)
        let t := t.setNode pn { n' with keys := Function.update n'.keys 0 k }
        let t := t.setNode ln { t.node ln with count := (t.node ln).count - 1 }
        updateInnerNode t (path.decr (level + 1)) (level + 1)
      else if rn ≠ 0 ∧ (t.node rn).count > half then do
        let n' := innerFromRight n (t.node rn) p
        let t := t.setNode pn n'
        let k ← findMinKey t (n'.children n'.count)
        let t := t.setNode pn { n' with keys := Function.update n'.keys (n'.count - 1) k }
        let t := t.setNode rn (t.node rn).dropFirst
        updateInnerNode t path (level + 1)
      else if ln ≠ 0 then
        let t := t.setNode ln (innerIntoLeft n (t.node ln) p (parent.keys (posInParent - 1)))
        deleteFromInnerNode r t (path.decr (level + 1)) (level + 1)
      else if rn ≠ 0 then
        let t := t.setNode pn (innerIntoRight n (t.node rn) p (parent.keys posInParent))
        deleteFromInnerNode r t path (level + 1)
      else some t

/-- The branches of `_distributeOrMergeLeafNode`. -/
def leafFromLeft (n ln : Node K) (p : Nat) : Node K :=
  { n with
    entries := Function.update (memmove n.entries 1 n.entries 0 p) 0 (ln.entries (ln.count - 1)) }

def leafFromRight (n rn : Node K) (p : Nat) : Node K :=
  { n with
    entries := Function.update (memmove n.entries p n.entries (p + 1) (n.count - 1 - p))
      (n.count - 1) (rn.entries 0) }

def Node.dropFirstEntry (rn : Node K) : Node K :=
  { rn with entries := memmove rn.entries 0 rn.entries 1 (rn.count - 1), count := rn.count - 1 }

def leafIntoLeft (n ln : Node K) (p : Nat) : Node K :=
  { ln with
    entries := memmove (memmove ln.entries ln.count n.entries 0 p)
      (ln.count + p) n.entries (p + 1) (n.count - 1 - p)
    count := ln.count + (n.count - 1)
    next := n.next }

def leafIntoRight (n rn : Node K) (p : Nat) : Node K :=
  { n with
    entries := memmove (memmove n.entries p n.entries (p + 1) (n.count - 1 - p)) (n.count - 1)
      rn.entries 0 rn.count
    count := n.count + (rn.count - 1)
    next := rn.next }

def distributeOrMergeLeafNode (t : Tree K V) (path : PathInfo) : Option (Tree K V) :=
  let half := t.leafOrder >>> 1
  let p := path.p 0
  let pn := path.n 0
  let n := t.node pn
  let posInParent := path.p 1
  let parent := t.node (path.n 1)
  let ln := parent.left posInParent
  let rn := parent.right posInParent
  if ln ≠ 0 ∧ (t.node ln).count > half then
    let t := t.setNode pn (leafFromLeft n (t.node ln) p)
    let t := t.setNode ln { t.node ln with count := (t.node ln).count - 1 }
    updateInnerNode t (path.decr 1) 1
  else if rn ≠ 0 ∧ (t.node rn).count > half then
    let t := t.setNode pn (leafFromRight n (t.node rn) p)
    let t := t.setNode rn (t.node rn).dropFirstEntry
    updateInnerNode t path 1
  else if ln ≠ 0 then
    let t := t.setNode ln (leafIntoLeft n (t.node ln) p)
    deleteFromInnerNode t.height t (path.decr 1) 1
  else if rn ≠ 0 then
    let t := t.setNode pn (leafIntoRight n (t.node rn) p)
    deleteFromInnerNode t.height t path 1
  else some t

/-- The removal of `entries[p]`. -/
def Node.eraseEntry (n : Node K) (p : Nat) : Node K :=
  { n with
    entries := memmove n.entries p n.entries (p + 1) (n.count - 1 - p), count := n.count - 1 }

def deleteFromLeafNodeMoreThanHalf (t : Tree K V) (path : PathInfo) : Tree K V :=
  t.setNode (path.n 0) ((t.node (path.n 0)).eraseEntry (path.p 0))

def deleteFromLeafNode (type : KeyType K V) (t : Tree K V) (path : PathInfo) (delkey : K) :
    Option (Tree K V) := do
  let t := removeKeyInPath type t path delkey
  let t ←
    if (t.node (path.n 0)).count > t.leafOrder >>> 1 ∨ (t.node t.root).level = 0 then
      some (deleteFromLeafNodeMoreThanHalf t path)
    else distributeOrMergeLeafNode t path
  return { t with count := t.count - 1 }

/-! ## The operations -/

/-- `bptreeAddRaw`: the new entry, or `NULL`. -/
def bptreeAddRaw (type : KeyType K V) (t : Tree K V) (key : K) : Option (Ptr × Tree K V) := do
  let (found, path) ← bptreeFindEntry type t key t.path
  if found ≠ 0 then return (0, t)
  let (e, t) := t.allocateEntry type key
  let t ← insertIntoLeafNode t path e
  return (e, t)

def bptreeAdd (type : KeyType K V) (t : Tree K V) (key : K) (val : V) :
    Option (Int × Tree K V) := do
  let (entry, t) ← bptreeAddRaw type t key
  if entry = 0 then return (BPT_ERR, t)
  return (BPT_OK, t.setVal type entry val)

def bptreeReplace (type : KeyType K V) (t : Tree K V) (key : K) (val : V) :
    Option (Int × Tree K V) := do
  let (e, path) ← bptreeFindEntry type t key t.path
  if e ≠ 0 then return (1, t.setVal type e val)
  let (e, t) := t.allocateEntry type key
  let t ← insertIntoLeafNode (t.setVal type e val) path e
  return (0, t)

def bptreeReplaceRaw (type : KeyType K V) (t : Tree K V) (key : K) : Option (Ptr × Tree K V) := do
  let (found, path) ← bptreeFindEntry type t key t.path
  if found ≠ 0 then return (found, t)
  let (e, t) := t.allocateEntry type key
  let t ← insertIntoLeafNode t path e
  return (e, t)

/-- `bptreeGenericDelete`; what is freed stays as it is. -/
def bptreeDelete (type : KeyType K V) (t : Tree K V) (key : K) : Option (Int × Tree K V) := do
  let (e, path) ← bptreeFindEntry type t key t.path
  if e = 0 then return (BPT_ERR, t)
  let t ← deleteFromLeafNode type t path key
  return (BPT_OK, t)

end Bptree
