import DsAlgor.Bptree.RemoveKey

/-!
# The tree without its keys

Where entries go in and come out is decided by the comparisons of keys, but what happens there is
not: once the path is recorded, an insertion or a deletion moves the same pointers in the tree
without keys and values (`Tree.bare`), where all keys are equal. So what it does to the nodes holds
for any order of the entries, and for any function `keyCompare`.
-/

namespace Bptree

open CArray

variable {K V : Type}

/-- A node without its keys. -/
def Node.bare (n : Node K) : Node Unit :=
  ⟨fun _ => (), n.children, n.entries, n.next, n.count, n.level, n.leaf⟩

/-- The tree without its keys and values. -/
def Tree.bare (t : Tree K V) : Tree Unit Unit where
  innerOrder := t.innerOrder
  leafOrder := t.leafOrder
  count := t.count
  root := t.root
  min := t.min
  node p := (t.node p).bare
  entry _ := ⟨(), ()⟩
  path := t.path
  brk := t.brk

/-- All keys are equal. -/
def bareKeys : KeyType Unit Unit := ⟨none, none, some fun _ _ => 0⟩

section
variable {t : Tree K V} {n : Node K} {p : Ptr}

theorem bare_height : t.bare.height = t.height := rfl

theorem bare_setNode : (t.setNode p n).bare = t.bare.setNode p n.bare := by
  unfold Tree.bare Tree.setNode
  congr 1
  funext q
  rw [Function.apply_update (fun _ => Node.bare)]

theorem setNode_bare {m : Node Unit} (h : m = n.bare) :
    t.bare.setNode p m = (t.setNode p n).bare := by
  rw [h, bare_setNode]

theorem bare_allocateNode (leaf : Bool) :
    (t.allocateNode leaf).2.bare = (t.bare.allocateNode leaf).2 := by
  unfold Tree.bare Tree.allocateNode
  congr 1
  funext q
  rw [Function.apply_update (fun _ => Node.bare)]
  rfl

end

/-! ## Insertion -/

section
variable (t : Tree K V) (path : PathInfo)

theorem splitInnerNode_bare (n nn : Node K) (half p : Nat) (lc rc : Ptr) (newk : K) :
    splitInnerNode n.bare nn.bare half p lc rc () =
      ((splitInnerNode n nn half p lc rc newk).1.bare,
      (splitInnerNode n nn half p lc rc newk).2.1.bare, ()) := by
  unfold splitInnerNode
  split_ifs
  · rfl
  · rfl
  · rfl

theorem insertSplitInnerNode_bare (rc : Ptr) (newk : K) :
    insertSplitInnerNode t.bare path rc () =
      ((insertSplitInnerNode t path rc newk).1.bare, (insertSplitInnerNode t path rc newk).2.1,
      ()) := by
  unfold insertSplitInnerNode
  dsimp only
  rw [bare_setNode, bare_setNode, ← bare_allocateNode]
  generalize (t.allocateNode false).2 = t₁
  have hsplit := splitInnerNode_bare (t₁.node (path.n ((t₁.node rc).level + 1)))
    { t₁.node (t.allocateNode
        false).1 with level := (t₁.node (path.n ((t₁.node rc).level + 1))).level }
    ((t.innerOrder - 1) >>> 1) (path.p ((t₁.node rc).level + 1)) (path.n (t₁.node rc).level) rc newk
  refine Prod.ext ?_ rfl
  exact congrArg (fun x => (t₁.bare.setNode (path.n ((t₁.node rc).level + 1)) x.1).setNode
    (t.allocateNode false).1 x.2.1) hsplit

theorem newRoot_bare (l : Nat) (lc rc : Ptr) (nk : K) :
    newRoot t.bare l lc rc () = (newRoot t l lc rc nk).bare := by
  unfold newRoot
  dsimp only
  rw [← bare_allocateNode]
  generalize (t.allocateNode false).2 = t₁
  have hset : (t₁.setNode t.brk (rootNode (t₁.node t.brk) l lc rc nk)).bare =
    t₁.bare.setNode t.brk (rootNode (t₁.node t.brk) l lc rc nk).bare := bare_setNode
  exact congrArg (fun s : Tree Unit Unit => { s with root := t.brk }) hset.symm

theorem insertIntoInnerNode_bare (r : Nat) (n : Ptr) (nk : K) :
    insertIntoInnerNode r t.bare path n () = (insertIntoInnerNode r t path n nk).map Tree.bare := by
  induction r generalizing t n nk with
  | zero => rfl
  | succ r ih =>
    unfold insertIntoInnerNode
    dsimp only
    by_cases hroot : (t.node n).level + 1 > (t.node t.root).level
    · rw [if_pos hroot,
        if_pos (show (t.bare.node n).level + 1 > (t.bare.node t.bare.root).level from hroot)]
      exact congrArg some (newRoot_bare t _ _ _ _)
    rw [if_neg hroot, if_neg
      (show ¬ (t.bare.node n).level + 1 > (t.bare.node t.bare.root).level from hroot)]
    by_cases hfull : (t.node (path.n ((t.node n).level + 1))).count = t.innerOrder - 1
    · rw [if_pos hfull, if_pos (show (t.bare.node (path.n ((t.bare.node n).level + 1))).count =
        t.bare.innerOrder - 1 from hfull), insertSplitInnerNode_bare t path n nk]
      exact ih _ _ _
    · rw [if_neg hfull, if_neg (show ¬ (t.bare.node (path.n ((t.bare.node n).level + 1))).count =
        t.bare.innerOrder - 1 from hfull)]
      refine congrArg some ?_
      unfold insertIntoInnerNodeNotFull
      dsimp only
      rw [bare_setNode]
      rfl

theorem spiltLeafNode_bare (n nn : Node K) (order half p : Nat) (e : Ptr) :
    spiltLeafNode n.bare nn.bare order half p e =
      ((spiltLeafNode n nn order half p e).1.bare, (spiltLeafNode n nn order half p e).2.bare) := by
  unfold spiltLeafNode
  split_ifs
  · rfl
  · rfl

/-- A leaf and its new sibling in their places. -/
def linkLeaves (t : Tree K V) (n nn : Ptr) (x : Node K × Node K) : Tree K V :=
  (t.setNode nn { x.2 with next := x.1.next }).setNode n { x.1 with next := nn }

theorem linkLeaves_bare (n nn : Ptr) (x : Node K × Node K) :
    linkLeaves t.bare n nn (x.1.bare, x.2.bare) = (linkLeaves t n nn x).bare := by
  unfold linkLeaves
  rw [bare_setNode, bare_setNode]
  rfl

theorem insertSpiltLeafNode_bare (e : Ptr) :
    insertSpiltLeafNode t.bare path e = (insertSpiltLeafNode t path e).map Tree.bare := by
  have halloc : (t.bare.allocateNode (t.node (path.n 0)).leaf).2 =
    (t.allocateNode (t.node (path.n 0)).leaf).2.bare :=
    (bare_allocateNode _).symm
  obtain ⟨t₁, ht₁⟩ : ∃ t₁, t₁ = (t.allocateNode (t.node (path.n 0)).leaf).2 := ⟨_, rfl⟩
  have hsplit := spiltLeafNode_bare (t₁.node (path.n 0))
    { t₁.node t.brk with level := (t₁.node (path.n 0)).level } t.leafOrder
        (t.leafOrder >>> 1) (path.p 0) e
  obtain ⟨x, hx⟩ : ∃ x,
    x = spiltLeafNode (t₁.node (path.n 0))
    { t₁.node t.brk with level := (t₁.node (path.n 0)).level } t.leafOrder (t.leafOrder >>> 1)
      (path.p 0) e := ⟨_, rfl⟩
  rw [← ht₁] at halloc
  rw [← hx] at hsplit
  have hleft : insertSpiltLeafNode t.bare path e =
      insertIntoInnerNode (linkLeaves t₁ (path.n 0) t.brk x).bare.height
      (linkLeaves t₁ (path.n 0) t.brk x).bare path t.brk () := by
    unfold insertSpiltLeafNode
    dsimp only
    rw [show (t.bare.allocateNode (t.bare.node (path.n 0)).leaf).2 =
      t₁.bare from halloc, ← linkLeaves_bare, ← hsplit]
    rfl
  have hright : insertSpiltLeafNode t path e = insertIntoInnerNode
    (linkLeaves t₁ (path.n 0) t.brk x).height (linkLeaves t₁ (path.n 0) t.brk x) path t.brk
    (t₁.key (x.2.entries 0)) := by
    rw [hx, ht₁]
    rfl
  rw [hleft, hright]
  exact insertIntoInnerNode_bare _ _ _ _ _

theorem insertIntoLeafNode_bare (hroot : t.root ≠ 0) (e : Ptr) :
    insertIntoLeafNode t.bare path e = (insertIntoLeafNode t path e).map Tree.bare := by
  have hroot' : t.bare.root ≠ 0 := hroot
  rw [insertIntoLeafNode_of_root hroot, insertIntoLeafNode_of_root hroot']
  by_cases hfull : (t.node (path.n 0)).count = t.leafOrder - 1
  · rw [if_pos hfull, if_pos (show (t.bare.node (path.n 0)).count = t.bare.leafOrder -
      1 from hfull), insertSpiltLeafNode_bare, Option.map_map, Option.map_map]
    rfl
  · rw [if_neg hfull, if_neg (show ¬ (t.bare.node (path.n 0)).count = t.bare.leafOrder -
      1 from hfull)]
    have hset : (insertIntoLeafNodeNotFull t path e).bare = insertIntoLeafNodeNotFull t.bare path
      e := bare_setNode
    rw [← hset]
    rfl

end

/-! ## Deletion -/

section
variable (t : Tree K V) (path : PathInfo)

theorem findMinEntry_bare (r : Nat) (n : Ptr) : findMinEntry t.bare r n = findMinEntry t r n := by
  induction r generalizing n with
  | zero => rfl
  | succ r ih =>
    unfold findMinEntry
    rw [ih]
    rfl

theorem findMinKey_bare (n : Ptr) : findMinKey t.bare n = (findMinKey t n).map fun _ => () := by
  unfold findMinKey
  rw [findMinEntry_bare, bare_height]
  cases findMinEntry t t.height n with
  | none => rfl
  | some e => rfl

theorem bind_findMinKey_bare (n : Ptr) {F : K → Option (Tree K V)}
    {F' : Unit → Option (Tree Unit Unit)} (hF : ∀ k, F' () = (F k).map Tree.bare) :
    (findMinKey t.bare n).bind F' = ((findMinKey t n).bind F).map Tree.bare := by
  rw [findMinKey_bare]
  cases findMinKey t n with
  | none => rfl
  | some k => exact hF k

theorem updateInnerNode_bare (level : Nat) :
    updateInnerNode t.bare path level = (updateInnerNode t path level).map Tree.bare := by
  unfold updateInnerNode
  exact bind_findMinKey_bare t _ fun k => congrArg some (setNode_bare rfl)

theorem deleteFromInnerNode_bare (r level : Nat) :
    deleteFromInnerNode r t.bare path level = (deleteFromInnerNode r t path level).map
      Tree.bare := by
  induction r generalizing t path level with
  | zero => rfl
  | succ r ih =>
    unfold deleteFromInnerNode
    dsimp only
    by_cases hmore : (t.node (path.n level)).count > (t.innerOrder - 1) >>> 1
    · rw [if_pos hmore,
        if_pos (show (t.bare.node (path.n level)).count > (t.bare.innerOrder - 1) >>> 1 from hmore)]
      exact congrArg some (setNode_bare rfl)
    rw [if_neg hmore, if_neg (show ¬ (t.bare.node (path.n level)).count >
      (t.bare.innerOrder - 1) >>> 1 from hmore)]
    by_cases htop : level = (t.node t.root).level
    · rw [if_pos htop, if_pos (show level = (t.bare.node t.bare.root).level from htop)]
      by_cases hone : (t.node t.root).count = 1
      · rw [if_pos hone, if_pos (show (t.bare.node t.bare.root).count = 1 from hone)]
        rfl
      · rw [if_neg hone, if_neg (show ¬ (t.bare.node t.bare.root).count = 1 from hone)]
        exact congrArg some (setNode_bare rfl)
    rw [if_neg htop, if_neg (show ¬ level = (t.bare.node t.bare.root).level from htop)]
    obtain ⟨ln, hln⟩ : ∃ ln, ln = (t.node (path.n (level + 1))).left (path.p (level + 1)) :=
      ⟨_, rfl⟩
    obtain ⟨rn, hrn⟩ : ∃ rn, rn = (t.node (path.n (level + 1))).right (path.p (level + 1)) :=
      ⟨_, rfl⟩
    rw [← hln, ← hrn, show (t.bare.node (path.n (level + 1))).left (path.p (level + 1)) =
      ln from hln.symm, show (t.bare.node (path.n (level + 1))).right (path.p (level + 1)) =
      rn from hrn.symm]
    by_cases hleft : ln ≠ 0 ∧ (t.node ln).count > (t.innerOrder - 1) >>> 1
    · rw [if_pos hleft,
        if_pos (show ln ≠ 0 ∧ (t.bare.node ln).count > (t.bare.innerOrder - 1) >>> 1 from hleft)]
      have hset : t.bare.setNode (path.n level) (innerFromLeft (t.bare.node (path.n level))
        (t.bare.node ln) (path.p level)) =
        (t.setNode (path.n level) (innerFromLeft (t.node (path.n level)) (t.node ln)
        (path.p level))).bare := setNode_bare rfl
      rw [hset]
      refine bind_findMinKey_bare _ _ fun k => ?_
      rw [← updateInnerNode_bare]
      refine congrArg (fun s => updateInnerNode s _ _) (Eq.trans ?_ (setNode_bare rfl))
      exact congrArg (fun s : Tree Unit Unit =>
        s.setNode ln { s.node ln with count := (s.node ln).count - 1 }) (setNode_bare rfl)
    rw [if_neg hleft, if_neg
      (show ¬ (ln ≠ 0 ∧ (t.bare.node ln).count > (t.bare.innerOrder - 1) >>> 1) from hleft)]
    by_cases hright : rn ≠ 0 ∧ (t.node rn).count > (t.innerOrder - 1) >>> 1
    · rw [if_pos hright,
        if_pos (show rn ≠ 0 ∧ (t.bare.node rn).count > (t.bare.innerOrder - 1) >>> 1 from hright)]
      have hset : t.bare.setNode (path.n level) (innerFromRight (t.bare.node (path.n level))
        (t.bare.node rn) (path.p level)) =
        (t.setNode (path.n level) (innerFromRight (t.node (path.n level)) (t.node rn)
        (path.p level))).bare := setNode_bare rfl
      rw [hset]
      refine bind_findMinKey_bare _ _ fun k => ?_
      rw [← updateInnerNode_bare]
      refine congrArg (fun s => updateInnerNode s _ _) (Eq.trans ?_ (setNode_bare rfl))
      exact congrArg (fun s : Tree Unit Unit => s.setNode rn (s.node rn).dropFirst)
        (setNode_bare rfl)
    rw [if_neg hright,
      if_neg (show ¬ (rn ≠ 0 ∧ (t.bare.node rn).count > (t.bare.innerOrder - 1) >>> 1) from hright)]
    split_ifs
    · rw [← ih]
      exact congrArg (fun s => deleteFromInnerNode r s _ _) (setNode_bare rfl)
    · rw [← ih]
      exact congrArg (fun s => deleteFromInnerNode r s _ _) (setNode_bare rfl)
    · rfl

theorem distributeOrMergeLeafNode_bare :
    distributeOrMergeLeafNode t.bare path = (distributeOrMergeLeafNode t path).map Tree.bare := by
  unfold distributeOrMergeLeafNode
  dsimp only
  obtain ⟨ln, hln⟩ : ∃ ln, ln = (t.node (path.n 1)).left (path.p 1) := ⟨_, rfl⟩
  obtain ⟨rn, hrn⟩ : ∃ rn, rn = (t.node (path.n 1)).right (path.p 1) := ⟨_, rfl⟩
  rw [← hln, ← hrn, show (t.bare.node (path.n 1)).left (path.p 1) = ln from hln.symm,
    show (t.bare.node (path.n 1)).right (path.p 1) = rn from hrn.symm]
  by_cases hleft : ln ≠ 0 ∧ (t.node ln).count > t.leafOrder >>> 1
  · rw [if_pos hleft, if_pos (show ln ≠ 0 ∧
      (t.bare.node ln).count > t.bare.leafOrder >>> 1 from hleft), ← updateInnerNode_bare]
    refine congrArg (fun s => updateInnerNode s _ _) (Eq.trans ?_ (setNode_bare rfl))
    exact congrArg (fun s : Tree Unit Unit =>
      s.setNode ln { s.node ln with count := (s.node ln).count - 1 }) (setNode_bare rfl)
  rw [if_neg hleft, if_neg
    (show ¬ (ln ≠ 0 ∧ (t.bare.node ln).count > t.bare.leafOrder >>> 1) from hleft)]
  by_cases hright : rn ≠ 0 ∧ (t.node rn).count > t.leafOrder >>> 1
  · rw [if_pos hright,
      if_pos (show rn ≠ 0 ∧
      (t.bare.node rn).count > t.bare.leafOrder >>> 1 from hright), ← updateInnerNode_bare]
    refine congrArg (fun s => updateInnerNode s _ _) (Eq.trans ?_ (setNode_bare rfl))
    exact congrArg (fun s : Tree Unit Unit => s.setNode rn (s.node rn).dropFirstEntry)
      (setNode_bare rfl)
  rw [if_neg hright, if_neg
    (show ¬ (rn ≠ 0 ∧ (t.bare.node rn).count > t.bare.leafOrder >>> 1) from hright)]
  split_ifs
  · have hset : t.bare.setNode ln (leafIntoLeft (t.bare.node (path.n 0)) (t.bare.node ln)
      (path.p 0)) = (t.setNode ln (leafIntoLeft (t.node (path.n 0)) (t.node ln) (path.p 0))).bare :=
      setNode_bare rfl
    rw [hset]
    exact deleteFromInnerNode_bare _ _ _ _
  · have hset : t.bare.setNode (path.n 0) (leafIntoRight (t.bare.node (path.n 0)) (t.bare.node rn)
      (path.p 0)) = (t.setNode (path.n 0) (leafIntoRight (t.node (path.n 0)) (t.node rn)
      (path.p 0))).bare := setNode_bare rfl
    rw [hset]
    exact deleteFromInnerNode_bare _ _ _ _
  · rfl

variable [DecidableEq K]

omit [DecidableEq K] in
/-- A node with other keys. -/
theorem setNode_keys_bare {p : Ptr} {keys : Nat → K} :
    (t.setNode p { t.node p with keys := keys }).bare = t.bare := by
  rw [bare_setNode]
  show { t.bare with node := Function.update t.bare.node p (t.bare.node p) } = t.bare
  rw [Function.update_eq_self]

theorem removeKeyLoop_bare (type : KeyType K V) (delkey nextkey : K) (r i : Nat) :
    (removeKeyLoop type path delkey nextkey r i t).bare = t.bare := by
  induction r generalizing i with
  | zero => rfl
  | succ r ih =>
    unfold removeKeyLoop
    dsimp only
    split_ifs
    · exact ih _
    · exact setNode_keys_bare t
    · exact ih _

/-- Only keys change on the way. -/
theorem removeKeyInPath_bare (type : KeyType K V) (delkey : K) :
    (removeKeyInPath type t path delkey).bare = t.bare := by
  unfold removeKeyInPath
  dsimp only
  by_cases hpos : path.p 0 = 0
  · rw [if_pos hpos]
    split
    · exact removeKeyLoop_bare _ _ _ _ _ _ _
    · rfl
  · rw [if_neg hpos]

theorem deleteFromLeafNode_bare (type : KeyType K V) (delkey : K) :
    deleteFromLeafNode bareKeys t.bare path
      () = (deleteFromLeafNode type t path delkey).map Tree.bare := by
  unfold deleteFromLeafNode
  dsimp only
  have hleft := removeKeyInPath_bare t path type delkey
  have hright : removeKeyInPath bareKeys t.bare path () = t.bare := by
    have hbare := removeKeyInPath_bare t.bare path bareKeys ()
    exact hbare
  rw [hright, ← hleft]
  generalize removeKeyInPath type t path delkey = t₁
  by_cases hmore : (t₁.node (path.n 0)).count > t₁.leafOrder >>> 1 ∨ (t₁.node t₁.root).level = 0
  · rw [if_pos hmore, if_pos (show (t₁.bare.node (path.n 0)).count > t₁.bare.leafOrder >>> 1 ∨
      (t₁.bare.node t₁.bare.root).level = 0 from hmore)]
    have hset : deleteFromLeafNodeMoreThanHalf t₁.bare path =
      (deleteFromLeafNodeMoreThanHalf t₁ path).bare := setNode_bare rfl
    rw [hset]
    rfl
  · rw [if_neg hmore, if_neg (show ¬ ((t₁.bare.node (path.n 0)).count > t₁.bare.leafOrder >>> 1 ∨
      (t₁.bare.node t₁.bare.root).level = 0) from hmore), distributeOrMergeLeafNode_bare]
    cases distributeOrMergeLeafNode t₁ path with
    | none => rfl
    | some t' => rfl

end

/-! ## Search -/

open PtrTree

section
variable {t : Tree K V} {root : Bool} {l r L : Nat} {T : Shape} {fs : Place} {path : PathInfo}

theorem Sub.bare (h : Sub t root l T) : Sub t.bare root l T := by
  induction l generalizing T root with
  | zero =>
    cases T with
    | node p cs => exact h.elim
    | leaf p es =>
      have hok : LeafOk (t.node p) root es := h
      exact ⟨⟨hok.count, hok.entry⟩, hok.leaf, hok.level, hok.least, hok.most⟩
  | succ l ih =>
    cases T with
    | leaf p es => exact h.elim
    | node p cs =>
      obtain ⟨hok, hcs⟩ := h
      have hcount := hok.count
      have hleast := hok.least
      have hmost := hok.most
      have hchild := hok.child
      rw [List.length_map] at hcount hleast hmost
      rw [List.map_map] at hchild
      refine ⟨⟨⟨?_, ?_, fun j hj => ?_⟩, hok.leaf, hok.level, ?_, ?_⟩, fun c hc => ih (hcs c hc)⟩
      · rw [List.length_map]
        exact hcount
      · rw [List.map_map]
        exact hchild
      · exact List.getElem?_eq_getElem hj
      · rw [List.length_map]
        exact hleast
      · rw [List.length_map]
        exact hmost

theorem Built.bare (h : Built t L T) : Built t.bare L T :=
  ⟨h.root, h.sub.bare, h.nodup, h.bound, h.chain, h.innerOrder, h.leafOrder⟩

variable [DecidableEq K] (type : KeyType K V) (key : K)

theorem childPos_le (keys : Nat → K) (r i : Nat) : childPos type key keys r i ≤ i + r := by
  induction r generalizing i with
  | zero => exact le_rfl
  | succ r ih =>
    unfold childPos
    split_ifs
    · exact Nat.le_add_right _ _
    · exact (ih (i + 1)).trans (by omega)

theorem entryPos_le (entries : Nat → Ptr) (r i : Nat) :
    (entryPos type t key entries r i).2 ≤ i + r ∧
      ((entryPos type t key entries r i).1 ≠ 0 → (entryPos type t key entries r i).2 < i + r) := by
  induction r generalizing i with
  | zero => exact ⟨le_rfl, fun h => absurd rfl h⟩
  | succ r ih =>
    unfold entryPos
    dsimp only
    split_ifs
    · exact ⟨Nat.le_add_right _ _, fun h => absurd rfl h⟩
    · exact ⟨Nat.le_add_right _ _, fun _ => Nat.lt_add_of_pos_right (Nat.succ_pos r)⟩
    · obtain ⟨hle, hlt⟩ := ih (i + 1)
      exact ⟨hle.trans (by omega), fun h => (hlt h).trans_le (by omega)⟩

/-- The way down, whatever the comparisons say. -/
theorem findLeafLoop_placed (hsub : Sub t.bare fs.isEmpty l T)
    (haround : Around t.bare l fs (item t.bare T)) (halong : Along path l fs) (hr : l < r) :
    ∃ gs p es path', findLeafLoop type t key r T.ptr path = some path' ∧ Placed t.bare
      (plug fs T) path' gs p es := by
  induction l generalizing T fs path r with
  | zero =>
    obtain ⟨r, rfl⟩ := Nat.exists_eq_succ_of_ne_zero (Nat.ne_zero_of_lt hr)
    cases T with
    | node p cs => exact hsub.elim
    | leaf p es =>
      have hok : LeafOk (t.bare.node p) fs.isEmpty es := hsub
      have hleaf : (t.node p).leaf = true := hok.leaf
      refine ⟨fs, p, es, { path with n := Function.update path.n 0 p }, ?_, rfl, hok,
        haround, ?_, ?_⟩
      · unfold findLeafLoop
        dsimp only
        rw [ptr_leaf, if_pos hleaf]
      · refine halong.congr fun j hj => ⟨?_, rfl⟩
        exact Function.update_of_ne (by omega) _ _
      · exact Function.update_self 0 p path.n
  | succ l ih =>
    obtain ⟨r, rfl⟩ := Nat.exists_eq_succ_of_ne_zero (Nat.ne_zero_of_lt hr)
    cases T with
    | leaf p es => exact hsub.elim
    | node p cs =>
      obtain ⟨hnode, hcs⟩ := hsub
      have hcount : (t.node p).count + 1 = cs.length := by
        have hcount := hnode.count
        rw [List.length_map] at hcount
        exact hcount
      obtain ⟨i, hpos⟩ : ∃ i, i = childPos type key (t.node p).keys (t.node p).count 0 := ⟨_, rfl⟩
      have hle := childPos_le type key (t.node p).keys (t.node p).count 0
      rw [← hpos, Nat.zero_add] at hle
      have hi : i < cs.length := by omega
      have hchild : (t.node p).children i = cs[i].ptr := hnode.child_ptr hi
      have hchildSub : Sub t.bare (List.isEmpty (Frame.mk p (cs.take i) (cs.drop (i + 1)) :: fs)) l
        cs[i] :=
        hcs _ (List.getElem_mem hi)
      obtain ⟨gs, q, es, path', hrun, hplaced⟩ :=
        ih hchildSub (haround.descend hnode hcs hi) (halong.descend p hi)
          (Nat.lt_of_succ_lt_succ hr)
      have hleaf : (t.node p).leaf = false := hnode.leaf
      have hlevel : (t.node p).level = l + 1 := hnode.level
      refine ⟨gs, q, es, path', ?_, ?_⟩
      · unfold findLeafLoop
        dsimp only
        rw [ptr_node, hleaf, if_neg (by simp), hlevel, ← hpos, hchild]
        exact hrun
      · rw [← plug_descend fs p hi]
        exact hplaced

/-- **Search** leads to a leaf and a position there. -/
theorem bptreeFindEntry_placed (h : Built t.bare L T) (path : PathInfo) :
    ∃ gs p es path' e, bptreeFindEntry type t key path = some (e, path') ∧
      Placed t.bare T path' gs p es ∧ path'.p 0 ≤ es.length ∧ (e ≠ 0 → path'.p 0 < es.length) := by
  have hroot : t.root ≠ 0 := by
    have hroot : t.root = T.ptr := h.root
    rw [hroot]
    exact Nat.ne_of_gt (h.bound _ (ptr_mem_ptrs T)).1
  have hheight : t.height = L + 1 := by
    rw [← bare_height, Tree.height, h.root, h.sub.level]
  have hloop : ∃ gs p es path', findLeafLoop type t key (L + 1) T.ptr path = some path' ∧
      Placed t.bare (plug [] T) path' gs p es :=
      findLeafLoop_placed type key h.sub trivial trivial (Nat.lt_succ_self L)
  obtain ⟨gs, p, es, path', hrun, hplaced⟩ := hloop
  have hcount : (t.node p).count = es.length := hplaced.leaf.count
  obtain ⟨hle, hlt⟩ := entryPos_le (t := t) type key (t.node p).entries es.length 0
  rw [Nat.zero_add] at hle hlt
  have hpos := Function.update_self 0 (entryPos type t key (t.node p).entries es.length 0).2 path'.p
  refine ⟨gs, p, es, {
    path' with p := Function.update path'.p 0 (entryPos type t key (t.node p).entries es.length 0).2
    }, (entryPos type t key (t.node p).entries es.length 0).1, ?_,
    ⟨hplaced.plugged, hplaced.leaf, hplaced.around, ?_, hplaced.here⟩, ?_, fun he => ?_⟩
  · have hptr : t.root = T.ptr := h.root
    unfold bptreeFindEntry
    rw [if_neg hroot, hheight, hptr, hrun]
    dsimp only [bind, Option.bind]
    rw [hplaced.here, hcount]
    rfl
  · refine hplaced.along.congr fun j hj => ⟨rfl, ?_⟩
    exact Function.update_of_ne (Nat.ne_of_gt hj) _ _
  · exact hpos.trans_le hle
  · exact hpos.trans_lt (hlt he)

end

end Bptree
