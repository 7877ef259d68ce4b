import DsAlgor.Bptree.Map

/-!
# Insertions when memory runs out

`insertIntoLeafNode` and the functions it calls, for a `malloc` that may refuse an entry or a node.
A refused node ends an insertion with `BPT_ERR`, and leaves what was done before:
`_insertIntoLeafNode` has increased the count. Where `malloc` refuses nothing these are the
functions of `Bptree.Defs` (`insertIntoLeafNode_granted`, `step_granted`). Every other refusal ends
the program: the arrays of a node, the path of a search, the first leaf of a tree and what a bulk
load allocates are used without a test, or tested by `assert`.
-/

namespace Bptree.Malloc

variable {K V : Type}

/-- What `malloc` grants in one call: an entry or not, and how many nodes before it refuses one
(`none` if it refuses none). -/
structure Grants where
  entry : Bool
  nodes : Option Nat

/-- What is left behind one node. -/
def next (nodes : Option Nat) : Option Nat := nodes.map Nat.pred

def insertIntoInnerNode : Nat → Option Nat → Tree K V → PathInfo → Ptr → K →
    Option (Int × Tree K V)
  | 0, _, _, _, _, _ => none
  | r + 1, nodes, t, path, n, nk =>
    let l := (t.node n).level + 1
    if l > (t.node t.root).level then
      -- `if(!node) return BPT_ERR`
      if nodes = some 0 then some (BPT_ERR, t)
      else some (BPT_OK, newRoot t l (path.n (t.node n).level) n nk)
    else if (t.node (path.n l)).count = t.innerOrder - 1 then
      if nodes = some 0 then some (BPT_ERR, t)
      else
        let (t', nn, nk') := insertSplitInnerNode t path n nk
        insertIntoInnerNode r (next nodes) t' path nn nk'
    else some (BPT_OK, insertIntoInnerNodeNotFull t path n nk)

def insertSpiltLeafNode (nodes : Option Nat) (t : Tree K V) (path : PathInfo) (e : Ptr) :
    Option (Int × Tree K V) :=
  let half := t.leafOrder >>> 1
  let n := path.n 0
  if nodes = some 0 then some (BPT_ERR, t)
  else
    let (nn, t') := t.allocateNode (t.node n).leaf
    let (n', nn') := spiltLeafNode (t'.node n) { t'.node nn with level := (t'.node n).level }
      t.leafOrder half (path.p 0) e
    let nk := t'.key (nn'.entries 0)
    let t'' := (t'.setNode nn { nn' with next := n'.next }).setNode n { n' with next := nn }
    insertIntoInnerNode t''.height (next nodes) t'' path nn nk

/-- The count goes up whatever the result is. -/
def insertIntoLeafNode (nodes : Option Nat) (t : Tree K V) (path : PathInfo) (e : Ptr) :
    Option (Int × Tree K V) := do
  let (t, path, nodes) ←
    if t.root = 0 then
      -- `p->n[0]->count` of a null pointer
      if nodes = some 0 then none
      else
        let (root, t) := t.allocateNode true
        some ({ t with root := root, min := root },
          { path with n := Function.update path.n 0 root }, next nodes)
    else some (t, path, nodes)
  let (result, t) ←
    if (t.node (path.n 0)).count = t.leafOrder - 1 then insertSpiltLeafNode nodes t path e
    else some (BPT_OK, insertIntoLeafNodeNotFull t path e)
  return (result, { t with count := t.count + 1 })

section
variable [DecidableEq K]

/-- `bptreeAddRaw`; the entry of a failed insertion is freed, and stays as it is. -/
def bptreeAddRaw (type : KeyType K V) (g : Grants) (t : Tree K V) (key : K) :
    Option (Ptr × Tree K V) := do
  let (found, path) ← bptreeFindEntry type t key t.path
  if found ≠ 0 then return (0, t)
  if g.entry = false then return (0, t)
  let (e, t) := t.allocateEntry type key
  let (result, t) ← insertIntoLeafNode g.nodes t path e
  return (if result = BPT_ERR then 0 else e, t)

def bptreeAdd (type : KeyType K V) (g : Grants) (t : Tree K V) (key : K) (val : V) :
    Option (Int × Tree K V) := do
  let (entry, t) ← bptreeAddRaw type g t key
  if entry = 0 then return (BPT_ERR, t)
  return (BPT_OK, t.setVal type entry val)

def bptreeReplace (type : KeyType K V) (g : Grants) (t : Tree K V) (key : K) (val : V) :
    Option (Int × Tree K V) := do
  let (e, path) ← bptreeFindEntry type t key t.path
  if e ≠ 0 then return (1, t.setVal type e val)
  if g.entry = false then return (0, t)
  let (e, t) := t.allocateEntry type key
  let (_, t) ← insertIntoLeafNode g.nodes (t.setVal type e val) path e
  return (0, t)

def bptreeReplaceRaw (type : KeyType K V) (g : Grants) (t : Tree K V) (key : K) :
    Option (Ptr × Tree K V) := do
  let (found, path) ← bptreeFindEntry type t key t.path
  if found ≠ 0 then return (found, t)
  if g.entry = false then return (0, t)
  let (e, t) := t.allocateEntry type key
  let (result, t) ← insertIntoLeafNode g.nodes t path e
  return (if result = BPT_ERR then 0 else e, t)

def step (type : KeyType K V) (g : Grants) (t : Tree K V) : Op K V → Option (Result × Tree K V)
  | .add key val => (bptreeAdd type g t key val).map fun (c, t) => (.code c, t)
  | .addRaw key => (bptreeAddRaw type g t key).map fun (e, t) => (.entry e, t)
  | .replace key val => (bptreeReplace type g t key val).map fun (c, t) => (.code c, t)
  | .replaceRaw key => (bptreeReplaceRaw type g t key).map fun (e, t) => (.entry e, t)
  | .delete key => (bptreeDelete type t key).map fun (c, t) => (.code c, t)
  | .find key => (bptreeFind type t (some key)).map fun e => (.entry e, t)

end

/-! ## Nothing is refused -/

theorem insertIntoInnerNode_granted (r : Nat) (t : Tree K V) (path : PathInfo) (n : Ptr) (nk : K) :
    insertIntoInnerNode r none t path n nk =
      (Bptree.insertIntoInnerNode r t path n nk).map (BPT_OK, ·) := by
  induction r generalizing t n nk with
  | zero => rfl
  | succ r ih =>
    rw [insertIntoInnerNode, Bptree.insertIntoInnerNode]
    dsimp only [next, Option.map_none]
    rw [if_neg (Option.some_ne_none 0).symm, if_neg (Option.some_ne_none 0).symm]
    split_ifs
    · rfl
    · exact ih _ _ _
    · rfl

theorem insertIntoLeafNode_granted (t : Tree K V) (path : PathInfo) (e : Ptr) :
    insertIntoLeafNode none t path e =
      (Bptree.insertIntoLeafNode t path e).map (BPT_OK, ·) := by
  have hspilt : ∀ (t : Tree K V) (path : PathInfo), insertSpiltLeafNode none t path e =
      (Bptree.insertSpiltLeafNode t path e).map (BPT_OK, ·) := fun t path =>
    insertIntoInnerNode_granted _ _ path _ _
  have hbody : ∀ (t : Tree K V) (path : PathInfo),
      (if (t.node (path.n 0)).count = t.leafOrder - 1 then
        (insertSpiltLeafNode none t path e).bind fun x =>
          some (x.1, { x.2 with count := x.2.count + 1 })
      else
        let t := insertIntoLeafNodeNotFull t path e
        some (BPT_OK, { t with count := t.count + 1 })) =
      (if (t.node (path.n 0)).count = t.leafOrder - 1 then
        (Bptree.insertSpiltLeafNode t path e).bind fun t => some { t with count := t.count + 1 }
      else
        let t := insertIntoLeafNodeNotFull t path e
        some { t with count := t.count + 1 }).map (BPT_OK, ·) := by
    intro t path
    split_ifs
    · rw [hspilt]
      cases Bptree.insertSpiltLeafNode t path e <;> rfl
    · rfl
  unfold insertIntoLeafNode Bptree.insertIntoLeafNode
  by_cases hroot : t.root = 0
  · rw [if_pos hroot, if_pos hroot, if_neg (Option.some_ne_none 0).symm]
    exact hbody _ _
  · rw [if_neg hroot, if_neg hroot]
    exact hbody _ _

/-- An operation to which `malloc` refuses nothing. -/
theorem step_granted [DecidableEq K] (type : KeyType K V) (t : Tree K V) (o : Op K V) :
    step type ⟨true, none⟩ t o = o.step type t := by
  have hadd : ∀ key, bptreeAddRaw type ⟨true, none⟩ t key = Bptree.bptreeAddRaw type t key := by
    intro key
    unfold bptreeAddRaw Bptree.bptreeAddRaw
    simp only [insertIntoLeafNode_granted, Option.bind_eq_bind, Option.bind_map]
    rfl
  cases o with
  | add key val => rw [step, Op.step, bptreeAdd, Bptree.bptreeAdd, hadd]
  | addRaw key => rw [step, Op.step, hadd]
  | replace key val =>
    rw [step, Op.step, bptreeReplace, Bptree.bptreeReplace]
    simp only [insertIntoLeafNode_granted, Option.bind_eq_bind, Option.bind_map]
    rfl
  | replaceRaw key =>
    rw [step, Op.step, bptreeReplaceRaw, Bptree.bptreeReplaceRaw]
    simp only [insertIntoLeafNode_granted, Option.bind_eq_bind, Option.bind_map]
    rfl
  | delete key => rfl
  | find key => rfl

end Bptree.Malloc
