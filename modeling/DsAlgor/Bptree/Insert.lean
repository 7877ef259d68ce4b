import DsAlgor.Bptree.Held

/-!
# Insertion of a new node into its parent

`_insertIntoInnerNode` puts the new right half `B` of a divided node `A` behind it, and goes up as
long as the parents are full (`insertIntoInnerNode_spec`). The two halves are held by the heap, the
frames around them are still those of `A` alone (`Halves`).
-/

namespace Bptree

open CArray PtrTree

variable {K V : Type}

/-! ## Memory -/

section
variable {t : Tree K V} {p q : Ptr} {n : Node K} {b : Bool}

@[simp] theorem setNode_self : (t.setNode p n).node p = n := Function.update_self _ _ _

theorem setNode_of_ne (h : q ≠ p) : (t.setNode p n).node q = t.node q := Function.update_of_ne h _ _

theorem allocateNode_of_ne (h : q ≠ t.brk) : (t.allocateNode b).2.node q = t.node q :=
  Function.update_of_ne h _ _

@[simp] theorem allocateNode_fst : (t.allocateNode b).1 = t.brk := rfl

@[simp] theorem allocateNode_self :
    (t.allocateNode b).2.node t.brk = (t.node t.brk).cleared b :=
  Function.update_self _ _ _

end

/-- What an operation on the nodes in `S` leaves as it is. -/
structure Kept (t t' : Tree K V) (S : List Ptr) : Prop where
  entry : t'.entry = t.entry
  min : t'.min = t.min
  count : t'.count = t.count
  innerOrder : t'.innerOrder = t.innerOrder
  leafOrder : t'.leafOrder = t.leafOrder
  path : t'.path = t.path
  brk : t.brk ≤ t'.brk
  node : ∀ p < t.brk, p ∉ S → t'.node p = t.node p

section
variable {t t' t'' : Tree K V} {S S' : List Ptr} {T : Shape} {fs : Place} {l : Nat} {root : Bool}
  {i : Ptr × K}

theorem Kept.trans (h : Kept t t' S) (h' : Kept t' t'' S') : Kept t t'' (S ++ S') where
  entry := h'.entry.trans h.entry
  min := h'.min.trans h.min
  count := h'.count.trans h.count
  innerOrder := h'.innerOrder.trans h.innerOrder
  leafOrder := h'.leafOrder.trans h.leafOrder
  path := h'.path.trans h.path
  brk := h.brk.trans h'.brk
  node := by
    intro p hp hS
    rw [List.mem_append, not_or] at hS
    rw [h'.node p (hp.trans_le h.brk) hS.2, h.node p hp hS.1]

theorem Kept.mono (h : Kept t t' S) (hS : S ⊆ S') : Kept t t' S' :=
  { h with node := fun p hp hn => h.node p hp fun hm => hn (hS hm) }

theorem kept_setNode (t : Tree K V) (p : Ptr) (n : Node K) : Kept t (t.setNode p n) [p] where
  entry := rfl
  min := rfl
  count := rfl
  innerOrder := rfl
  leafOrder := rfl
  path := rfl
  brk := le_rfl
  node := fun q _ hq => setNode_of_ne (by simpa using hq)

theorem kept_allocateNode (t : Tree K V) (b : Bool) : Kept t (t.allocateNode b).2 [] where
  entry := rfl
  min := rfl
  count := rfl
  innerOrder := rfl
  leafOrder := rfl
  path := rfl
  brk := Nat.le_succ _
  node := fun _ hq _ => allocateNode_of_ne (ne_of_lt hq)

theorem minKey_of_entry (h : t'.entry = t.entry) : minKey t' = minKey t := by
  funext T
  unfold minKey Tree.key
  rw [h]

theorem item_of_entry (h : t'.entry = t.entry) : item t' = item t := by
  funext T
  unfold item
  rw [minKey_of_entry h]

/-- A leaf other than the root, from what has been written to it. -/
theorem sub_leaf {p : Ptr} {n : Node K} {es : List Ptr} (hnode : t'.node p = n)
    (hentries : Entries n es) (hleaf : n.leaf = true) (hlevel : n.level = 0)
    (hleast : 32 ≤ es.length) (hmost : es.length ≤ 63) : Sub t' false 0 (.leaf p es) := by
  subst hnode
  exact LeafOk.mk hentries hleaf hlevel hleast hmost

/-- An inner node other than the root, from what has been written to it. -/
theorem sub_node {p : Ptr} {n : Node K} {cs : List Shape} (hentry : t'.entry = t.entry)
    (hnode : t'.node p = n) (hbody : Body n (cs.map (item t))) (hleaf : n.leaf = false)
    (hlevel : n.level = l + 1) (hleast : 16 ≤ cs.length) (hmost : cs.length ≤ 32)
    (hcs : ∀ c ∈ cs, Sub t' false l c) : Sub t' false (l + 1) (.node p cs) := by
  subst hnode
  refine ⟨⟨?_, hleaf, hlevel, ?_, ?_⟩, hcs⟩
  · rwa [item_of_entry hentry]
  · rwa [List.length_map]
  · rwa [List.length_map]

theorem frameMin_of_entry (h : t'.entry = t.entry) : frameMin t' = frameMin t := by
  funext f k
  unfold frameMin
  rw [minKey_of_entry h]

theorem frameItems_of_entry (h : t'.entry = t.entry) : frameItems t' = frameItems t := by
  funext f k
  unfold frameItems
  rw [item_of_entry h]

theorem Sub.kept (h : Sub t root l T) (hk : Kept t t' S) (hT : ∀ p ∈ T.ptrs, p < t.brk ∧ p ∉ S) :
    Sub t' root l T := by
  refine h.congr (fun p hp => hk.node p (hT p hp).1 (hT p hp).2) fun e _ => ?_
  unfold Tree.key
  rw [hk.entry]

theorem Around.kept (h : Around t l fs i) (hk : Kept t t' S)
    (hfs : ∀ p ∈ framePtrs fs, p < t.brk ∧ p ∉ S) :
    Around t' l fs i := by
  refine h.congr (fun p hp => hk.node p (hfs p hp).1 (hfs p hp).2) fun e _ => ?_
  unfold Tree.key
  rw [hk.entry]

theorem Sub.level (h : Sub t root l T) : (t.node T.ptr).level = l := by
  cases l with
  | zero =>
    cases T with
    | leaf p es => exact LeafOk.level h
    | node p cs => exact h.elim
  | succ l =>
    cases T with
    | leaf p es => exact h.elim
    | node p cs => exact h.1.level

/-- The level of the whole tree. -/
theorem Around.level (h : Around t l fs i) (hT : (t.node T.ptr).level = l) :
    (t.node (plug fs T).ptr).level = l + fs.length := by
  induction fs generalizing l T i with
  | nil => exact hT
  | cons f fs ih =>
    rw [List.length_cons, show l + (fs.length + 1) = l + 1 + fs.length by omega]
    exact ih h.2.2 (T := f.fill T) h.1.level

end

/-! ## Going up -/

/-- A divided node: `B` is not yet in the parent of `A`. -/
structure Halves (t : Tree K V) (path : PathInfo) (l : Nat) (fs : Place) (A B : Shape) : Prop where
  left : Sub t false l A
  right : Sub t false l B
  around : Around t l fs (item t A)
  along : Along path l fs
  here : path.n l = A.ptr
  nodup : (A.ptrs ++ B.ptrs ++ framePtrs fs).Nodup
  bound : ∀ p ∈ A.ptrs ++ B.ptrs ++ framePtrs fs, 0 < p ∧ p < t.brk
  root : t.root = (plug fs A).ptr
  innerOrder : t.innerOrder = 32

/-- The tree with both halves in it. -/
structure Raised (t t' : Tree K V) (fs : Place) (A B : Shape) (L : Nat) (T : Shape) : Prop where
  sub : Sub t' true L T
  root : t'.root = T.ptr
  leaves : T.leaves = before fs ++ (A.leaves ++ B.leaves) ++ after fs
  nodup : T.ptrs.Nodup
  bound : ∀ p ∈ T.ptrs, 0 < p ∧ p < t'.brk
  kept : Kept t t' (fs.map Frame.ptr)
  fresh : ∀ p ∈ T.ptrs, p ∈ A.ptrs ++ B.ptrs ++ framePtrs fs ∨ t.brk ≤ p

section
variable {t : Tree K V} {path : PathInfo} {l r : Nat} {f : Frame Ptr Ptr} {fs : Place} {A B : Shape}

theorem Halves.level (h : Halves t path l fs A B) : (t.node t.root).level = l + fs.length := by
  rw [h.root]
  exact h.around.level h.left.level

theorem Halves.left_lt (h : Halves t path l fs A B) : A.ptr < t.brk :=
  (h.bound _ (List.mem_append_left _ (List.mem_append_left _ (ptr_mem_ptrs A)))).2

theorem Halves.right_lt (h : Halves t path l fs A B) : B.ptr < t.brk :=
  (h.bound _ (List.mem_append_left _ (List.mem_append_right _ (ptr_mem_ptrs B)))).2

theorem newRoot_self (t : Tree K V) (l : Nat) (lc rc : Ptr) (nk : K) :
    (newRoot t l lc rc nk).node t.brk = rootNode ((t.node t.brk).cleared false) l lc rc nk := by
  unfold newRoot
  dsimp only
  rw [allocateNode_fst, setNode_self, allocateNode_self]

theorem kept_newRoot (t : Tree K V) (l : Nat) (lc rc : Ptr) (nk : K) :
    Kept t (newRoot t l lc rc nk) [] where
  entry := rfl
  min := rfl
  count := rfl
  innerOrder := rfl
  leafOrder := rfl
  path := rfl
  brk := Nat.le_succ _
  node := by
    intro q hq _
    have hne : q ≠ t.brk := ne_of_lt hq
    unfold newRoot
    dsimp only
    rw [allocateNode_fst, setNode_of_ne hne, allocateNode_of_ne hne]

/-- The halves of the root get a new root. -/
theorem Halves.newRoot (h : Halves t path l [] A B) :
    ∃ t' L T, insertIntoInnerNode (r + 1) t path B.ptr (minKey t B) = some t' ∧ Raised t t'
      [] A B L T := by
  have hroot := h.level
  have hlevel := h.right.level
  have hbound := h.bound
  have hnodup := h.nodup
  rw [framePtrs, List.append_nil] at hbound hnodup
  have hfresh : t.brk ∉ A.ptrs ++ B.ptrs := fun hm => lt_irrefl _ (hbound _ hm).2
  have hkept := kept_newRoot t (l + 1) A.ptr B.ptr (minKey t B)
  refine ⟨Bptree.newRoot t (l + 1) A.ptr B.ptr (minKey t B), l + 1, .node t.brk [A, B], ?_, ?_, rfl,
    ?_, ?_, ?_, hkept, ?_⟩
  · unfold insertIntoInnerNode
    rw [hlevel, hroot, h.here]
    simp
  · refine ⟨⟨?_, ?_, ?_, ?_, ?_⟩, ?_⟩
    · rw [newRoot_self, item_of_entry hkept.entry]
      exact body_rootNode _ _ _ _ _ _
    · rw [newRoot_self]
      rfl
    · rw [newRoot_self]
      rfl
    · exact le_rfl
    · exact Nat.le_of_ble_eq_true rfl
    · intro c hc
      simp only [List.mem_cons, List.not_mem_nil, or_false] at hc
      rcases hc with rfl | rfl
      · exact h.left.kept hkept fun p hp => ⟨(hbound p (List.mem_append_left _ hp)).2,
          List.not_mem_nil⟩
      · exact h.right.kept hkept fun p hp => ⟨(hbound p (List.mem_append_right _ hp)).2,
          List.not_mem_nil⟩
  · simp [before, after]
  · simp only [ptrs_node, List.flatMap_cons, List.flatMap_nil, List.append_nil]
    exact List.nodup_cons.2 ⟨hfresh, hnodup⟩
  · intro p hp
    simp only [ptrs_node, List.flatMap_cons, List.flatMap_nil, List.append_nil, List.mem_cons] at hp
    rcases hp with rfl | hp
    · exact ⟨Nat.zero_lt_of_lt h.left_lt, Nat.lt_succ_self _⟩
    · exact ⟨(hbound p hp).1, (hbound p hp).2.trans_le hkept.brk⟩
  · intro p hp
    simp only [ptrs_node, List.flatMap_cons, List.flatMap_nil, List.append_nil, List.mem_cons] at hp
    rcases hp with rfl | hp
    · exact .inr le_rfl
    · exact .inl (List.mem_append_left _ hp)

section
variable (h : Halves t path l (f :: fs) A B)
include h

/-- The node of the innermost frame occurs nowhere else. -/
theorem Halves.fresh : f.ptr ∉ A.ptrs ∧ f.ptr ∉ B.ptrs ∧ (∀ c ∈ f.left ++ f.right, f.ptr ∉ c.ptrs) ∧
      f.ptr ∉ framePtrs fs := by
  have hnodup := h.nodup
  rw [framePtrs, List.nodup_middle, List.nodup_cons] at hnodup
  have hn := hnodup.1
  simp only [List.mem_append, not_or, List.mem_flatMap, not_exists, not_and] at hn
  refine ⟨hn.1.1, hn.1.2, fun c hc => ?_, hn.2.2⟩
  exact hn.2.1 c (List.mem_append.1 hc)

theorem Halves.frame_lt : 0 < f.ptr ∧ f.ptr < t.brk := by
  apply h.bound
  simp [framePtrs]

theorem Halves.sub_lt {c : Shape} (hc : c ∈ f.left ++ f.right) {p : Ptr} (hp : p ∈ c.ptrs) :
    p < t.brk := by
  refine (h.bound p (List.mem_append_right _ ?_)).2
  exact List.mem_cons_of_mem _ (List.mem_append_left _ (List.mem_flatMap.2 ⟨c, hc, hp⟩))

/-- The children of the parent, with the new one. -/
theorem Halves.children {c : Shape} (hc : c ∈ f.left ++ A :: B :: f.right) :
    Sub t false l c ∧ ∀ p ∈ c.ptrs, p < t.brk ∧ p ∉ [f.ptr] := by
  obtain ⟨hfA, hfB, hfsub, -⟩ := h.fresh
  have hother : ∀ d ∈ f.left ++ f.right, Sub t false l d ∧ ∀ p ∈ d.ptrs, p < t.brk ∧
    p ∉ [f.ptr] := by
    intro d hd
    refine ⟨h.around.2.1 d hd, fun p hp => ⟨h.sub_lt hd hp, ?_⟩⟩
    rw [List.mem_singleton]
    exact fun heq => hfsub d hd (heq ▸ hp)
  rw [List.mem_append, List.mem_cons, List.mem_cons] at hc
  rcases hc with hc | rfl | rfl | hc
  · exact hother c (List.mem_append_left _ hc)
  · refine ⟨h.left, fun p hp => ⟨(h.bound p (List.mem_append_left _ (List.mem_append_left _ hp))).2,
      ?_⟩⟩
    rw [List.mem_singleton]
    exact fun heq => hfA (heq ▸ hp)
  · refine ⟨h.right, fun p hp =>
      ⟨(h.bound p (List.mem_append_left _ (List.mem_append_right _ hp))).2, ?_⟩⟩
    rw [List.mem_singleton]
    exact fun heq => hfB (heq ▸ hp)
  · exact hother c (List.mem_append_right _ hc)

theorem Halves.outer {p : Ptr} (hp : p ∈ framePtrs fs) : p < t.brk ∧ p ∉ [f.ptr] := by
  refine ⟨(h.bound p ?_).2, ?_⟩
  · exact List.mem_append_right _ (List.mem_cons_of_mem _ (List.mem_append_right _ hp))
  · rw [List.mem_singleton]
    exact fun heq => h.fresh.2.2.2 (heq ▸ hp)

end

theorem frameItems_insert (t : Tree K V) (f : Frame Ptr Ptr) (A B : Shape) :
    (frameItems t f (item t A)).insertIdx (f.left.length + 1) (item t B) =
      (f.left ++ A :: B :: f.right).map (item t) := by
  unfold frameItems
  have := insertIdx_mid (f.left.map (item t)) (item t A) (item t B) (f.right.map (item t))
  rw [List.length_map] at this
  rw [this, List.map_append, List.map_cons, List.map_cons]

/-- The children of a parent with room. -/
theorem Halves.notFull (h : Halves t path l (f :: fs) A B) (hroom : (t.node f.ptr).count ≠ 31) :
    ∃ t' L T, insertIntoInnerNode (r + 1) t path B.ptr (minKey t B) = some t' ∧ Raised t t'
      (f :: fs) A B L T := by
  have hroot := h.level
  have hlevel := h.right.level
  obtain ⟨hf, hsub, haround⟩ := h.around
  obtain ⟨hn, hp, halong⟩ := h.along
  have hcount := hf.count
  have hmost := hf.most
  have hlen : (frameItems t f (item t A)).length = f.left.length + f.right.length + 1 := by
    simp [frameItems]
    omega
  have hkept := kept_setNode t f.ptr ((t.node f.ptr).insertChild f.left.length B.ptr (minKey t B))
  have hA : Sub (t.setNode f.ptr ((t.node f.ptr).insertChild f.left.length B.ptr (minKey t B)))
    false l A :=
    (h.children (by simp)).1.kept hkept (h.children (by simp)).2
  have hperm : (plug ({ f with right := B :: f.right } :: fs) A).ptrs.Perm
      (A.ptrs ++ B.ptrs ++ framePtrs (f :: fs)) := by
    refine (ptrs_plug _ _).trans (List.perm_iff_count.2 fun a => ?_)
    simp only [framePtrs, List.flatMap_append, List.flatMap_cons, List.count_append,
      List.count_cons]
    omega
  refine ⟨_, _, plug ({ f with right := B :: f.right } :: fs) A, ?_,
    Around.plugged (l := l) ⟨?_, ?_, ?_⟩ hA fun _ => h.left.elems_ne_nil, ?_, ?_, ?_, ?_,
    hkept.mono (by simp), fun p hpT => .inl (hperm.mem_iff.1 hpT)⟩
  · unfold insertIntoInnerNode
    dsimp only
    rw [hlevel, hroot, if_neg (by simp), hn, h.innerOrder, if_neg hroom]
    unfold insertIntoInnerNodeNotFull
    dsimp only
    rw [hlevel, hn, hp]
  · have hbody := hf.toBody.insertChild (p := f.left.length) (by omega) B.ptr (minKey t B)
    have hitems : frameItems t { f with right := B :: f.right } (item t A) =
        (frameItems t f (item t A)).insertIdx (f.left.length + 1) (B.ptr, minKey t B) := by
      rw [show (B.ptr, minKey t B) = item t B from rfl, frameItems_insert]
      simp [frameItems]
    rw [setNode_self, frameItems_of_entry hkept.entry, item_of_entry hkept.entry, hitems]
    refine ⟨hbody, hf.leaf, hf.level, ?_, ?_⟩
    · rw [List.length_insertIdx, if_pos (by omega)]
      exact hf.least.trans (Nat.le_succ _)
    · rw [List.length_insertIdx, if_pos (by omega)]
      omega
  · intro c hc
    have hmem : c ∈ f.left ++ A :: B :: f.right := by
      rw [List.mem_append] at hc ⊢
      exact hc.imp_right (List.mem_cons_of_mem _)
    exact (h.children hmem).1.kept hkept (h.children hmem).2
  · rw [frameMin_of_entry hkept.entry, item_of_entry hkept.entry]
    exact haround.kept hkept fun p hpf => h.outer hpf
  · have hfill : (f.fill A).ptr = (Frame.fill { f with right := B :: f.right } A).ptr := rfl
    exact h.root.trans (ptr_plug hfill fs)
  · rw [leaves_plug]
    simp [before, after]
  · exact hperm.nodup_iff.2 h.nodup
  · intro p hpT
    exact h.bound p (hperm.mem_iff.1 hpT)

theorem insertSplitInnerNode_eq {n rc : Ptr} {newk : K} (hl : (t.node rc).level = l)
    (hrc : rc < t.brk) (hn : path.n (l + 1) = n) (hnb : n < t.brk) (ho : t.innerOrder = 32) :
    insertSplitInnerNode t path rc newk =
      let r := splitInnerNode (t.node n)
        { (t.node t.brk).cleared false with level := (t.node n).level } 15 (path.p (l + 1))
            (path.n l) rc newk
      (((t.allocateNode false).2.setNode n r.1).setNode t.brk r.2.1, t.brk, r.2.2) := by
  unfold insertSplitInnerNode
  dsimp only
  rw [allocateNode_fst, allocateNode_of_ne (ne_of_lt hrc), hl, hn,
    allocateNode_of_ne (ne_of_lt hnb), allocateNode_self, ho]
  rfl

theorem kept_divided (t : Tree K V) (p : Ptr) (n n' : Node K) :
    Kept t (((t.allocateNode false).2.setNode p n).setNode t.brk n') [p] := by
  have hkept := ((kept_allocateNode t false).trans (kept_setNode _ p n)).trans
    (kept_setNode _ t.brk n')
  refine { hkept with node := fun q hqb hqp => ?_ }
  rw [setNode_of_ne (ne_of_lt hqb), setNode_of_ne (by simpa using hqp),
    allocateNode_of_ne (ne_of_lt hqb)]

/-- Two nodes in place of one: there is one pointer more. -/
theorem ptrs_divided (f : Frame Ptr Ptr) (fs : Place) (A B : Shape) (brk : Ptr) (m : Nat) :
    ((node f.ptr ((f.left ++ A :: B :: f.right).take m) : Shape).ptrs ++
      (node brk ((f.left ++ A :: B :: f.right).drop m) : Shape).ptrs ++ framePtrs fs).Perm
      (brk :: (A.ptrs ++ B.ptrs ++ framePtrs (f :: fs))) := by
  have hall : ((f.left ++ A :: B :: f.right).take m).flatMap ptrs ++
      ((f.left ++ A :: B :: f.right).drop m).flatMap ptrs =
      (f.left ++ A :: B :: f.right).flatMap ptrs := by
    rw [← List.flatMap_append, List.take_append_drop]
  refine List.perm_iff_count.2 fun a => ?_
  have hcount := congrArg (List.count a) hall
  simp only [List.flatMap_append, List.flatMap_cons, List.count_append] at hcount
  simp only [ptrs_node, framePtrs, List.flatMap_append, List.count_append, List.count_cons]
  omega

/-- The left one of the two keeps the least key. -/
theorem Halves.minKey_left (h : Halves t path l (f :: fs) A B) {m : Nat} (hm : 0 < m) :
    minKey t (.node f.ptr ((f.left ++ A :: B :: f.right).take m)) =
      frameMin t f (minKey t A) := by
  obtain ⟨m, rfl⟩ := Nat.exists_eq_succ_of_ne_zero hm.ne'
  unfold frameMin
  cases hl : f.left with
  | nil => exact minKey_node h.left.elems_ne_nil
  | cons c cs => exact minKey_node (h.children (by simp [hl])).1.elems_ne_nil

/-- The children of a full parent go to two nodes. -/
theorem Halves.full (h : Halves t path l (f :: fs) A B) (hfull : (t.node f.ptr).count = 31) :
    ∃ t' nn nk A' B', insertSplitInnerNode t path B.ptr (minKey t B) = (t', nn, nk) ∧ nn = B'.ptr ∧
      nk = minKey t' B' ∧ Halves t' path (l + 1) fs A' B' ∧ Kept t t' [f.ptr] ∧
      A'.leaves ++ B'.leaves = (f.left ++ A :: B :: f.right).flatMap leaves ∧
      ∀ p ∈ A'.ptrs ++ B'.ptrs ++ framePtrs fs, p = t.brk ∨ p ∈ A.ptrs ++ B.ptrs ++ framePtrs
        (f :: fs) := by
  have hlevel := h.right.level
  obtain ⟨hf, hsub, haround⟩ := h.around
  obtain ⟨hn, hp, halong⟩ := h.along
  have hflt := h.frame_lt.2
  have hcount := hf.count
  have hlen : (frameItems t f (item t A)).length = f.left.length + f.right.length + 1 := by
    simp [frameItems]
    omega
  have hlc : (t.node f.ptr).children f.left.length = path.n l := by
    rw [h.here]
    refine hf.child.get ?_
    simp [frameItems, item]
  rw [insertSplitInnerNode_eq hlevel h.right_lt hn hflt h.innerOrder, hp, ← hlc]
  have hkind := splitInnerNode_kind (t.node f.ptr)
    { (t.node t.brk).cleared false with level := (t.node f.ptr).level } 15 f.left.length
    ((t.node f.ptr).children f.left.length) B.ptr (minKey t B)
  have hdiv := hf.toBody.divide (divided_splitInnerNode (p := f.left.length)
    (show (t.node f.ptr).count = 2 * 15 + 1 from hfull)
    (by omega) { (t.node t.brk).cleared false with level := (t.node f.ptr).level } B.ptr
    (minKey t B))
    (by omega) (by omega)
  rw [show (B.ptr, minKey t B) = item t B from rfl,
    frameItems_insert, ← List.map_take, ← List.map_drop] at hdiv
  generalize splitInnerNode (t.node f.ptr)
    { (t.node t.brk).cleared false with level := (t.node f.ptr).level } 15 f.left.length
    ((t.node f.ptr).children f.left.length) B.ptr (minKey t B) = r at hkind hdiv ⊢
  dsimp only
  obtain ⟨hleft, hright, hmid⟩ := hdiv
  obtain ⟨⟨hleaf, hlev⟩, hleaf', hlev'⟩ := hkind
  have hcs : (f.left ++ A :: B :: f.right).length = 33 := by
    rw [List.length_append, List.length_cons, List.length_cons]
    omega
  have hkept := kept_divided t f.ptr r.1 r.2.1
  have hfold : (((t.allocateNode false).2.setNode f.ptr r.1).setNode t.brk r.2.1).node f.ptr =
    r.1 := by
    rw [setNode_of_ne (ne_of_lt hflt), setNode_self]
  have hcsub : ∀ c ∈ f.left ++ A :: B :: f.right,
      Sub (((t.allocateNode false).2.setNode f.ptr r.1).setNode t.brk r.2.1) false l c := by
    intro c hc
    exact (h.children hc).1.kept hkept (h.children hc).2
  have hne : ∀ c ∈ f.left ++ A :: B :: f.right, c.elems ≠ [] :=
    fun c hc => (h.children hc).1.elems_ne_nil
  have hminB : minKey t (.node t.brk ((f.left ++ A :: B :: f.right).drop 16)) = r.2.2 := by
    obtain ⟨d, hd⟩ : ∃ d, (f.left ++ A :: B :: f.right)[16]? = some d :=
      ⟨_, List.getElem?_eq_getElem (by omega)⟩
    rw [List.drop_eq_getElem_cons (by omega), minKey_node (hne _ (List.getElem_mem _))]
    rw [List.getElem?_map, List.getElem?_map, List.getElem?_eq_getElem (by omega)] at hmid
    exact Option.some.inj hmid
  have hperm := ptrs_divided f fs A B t.brk 16
  have hsubA := sub_node hkept.entry hfold hleft (hleaf.trans hf.leaf) (hlev.trans hf.level)
    (by rw [List.length_take, hcs]; exact le_rfl) (by rw [List.length_take, hcs]; omega)
    fun c hc => hcsub c (List.mem_of_mem_take hc)
  have hsubB := sub_node hkept.entry setNode_self hright hleaf' (hlev'.trans hf.level)
    (by rw [List.length_drop, hcs]; omega) (by rw [List.length_drop, hcs]; omega)
    fun c hc => hcsub c (List.mem_of_mem_drop hc)
  refine ⟨_, _, _, .node f.ptr ((f.left ++ A :: B :: f.right).take 16),
    .node t.brk ((f.left ++ A :: B :: f.right).drop 16), rfl, rfl, ?_,
    ⟨hsubA, hsubB, ?_, halong, hn, ?_, ?_, ?_, h.innerOrder⟩, hkept, ?_,
      fun p hpm => List.mem_cons.1 (hperm.mem_iff.1 hpm)⟩
  · rw [minKey_of_entry hkept.entry, hminB]
  · unfold item
    rw [minKey_of_entry hkept.entry, h.minKey_left (by omega)]
    exact haround.kept hkept fun p hpf => h.outer hpf
  · rw [hperm.nodup_iff, List.nodup_cons]
    exact ⟨fun hm => lt_irrefl _ (h.bound _ hm).2, h.nodup⟩
  · intro p hpm
    rw [hperm.mem_iff, List.mem_cons] at hpm
    rcases hpm with rfl | hpm
    · exact ⟨Nat.zero_lt_of_lt hflt, Nat.lt_succ_self _⟩
    · exact ⟨(h.bound p hpm).1, (h.bound p hpm).2.trans (Nat.lt_succ_self _)⟩
  · have hfill : (f.fill A).ptr = (node f.ptr ((f.left ++ A :: B :: f.right).take 16) :
      Shape).ptr := rfl
    exact h.root.trans (ptr_plug hfill fs)
  · simp only [leaves_node]
    rw [← List.flatMap_append, List.take_append_drop]

/-- **Insertion of the right half** of a divided node. -/
theorem insertIntoInnerNode_spec (h : Halves t path l fs A B) (hr : fs.length < r) :
    ∃ t' L T, insertIntoInnerNode r t path B.ptr (minKey t B) = some t' ∧
      Raised t t' fs A B L T := by
  -- up along the frames; what one full parent leaves is again a divided node
  induction fs generalizing t l A B r with
  | nil =>
    obtain ⟨r, rfl⟩ := Nat.exists_eq_add_of_lt hr
    exact h.newRoot
  | cons f fs ih =>
    obtain ⟨r, rfl⟩ := Nat.exists_eq_succ_of_ne_zero (Nat.ne_zero_of_lt hr)
    by_cases hfull : (t.node f.ptr).count = 31
    · obtain ⟨t₁, nn, nk, A', B', hsplit, rfl, rfl, hhalves, hkept, hleaves, hptrs⟩ := h.full hfull
      obtain ⟨t', L, T, hrun, hraised⟩ := ih hhalves (Nat.lt_of_succ_lt_succ hr)
      refine ⟨t', L, T, ?_, hraised.sub, hraised.root, ?_, hraised.nodup, hraised.bound,
        hkept.trans hraised.kept, fun p hp => ?_⟩
      · unfold insertIntoInnerNode
        dsimp only
        rw [h.right.level, h.level, if_neg (by simp), h.along.1, h.innerOrder, if_pos hfull, hsplit]
        exact hrun
      · rw [hraised.leaves, hleaves]
        simp [before, after]
      · rcases hraised.fresh p hp with hm | hlt
        · rcases hptrs p hm with rfl | hm
          · exact .inr le_rfl
          · exact .inl hm
        · exact .inr (hkept.brk.trans hlt)
    · exact h.notFull hfull

end

end Bptree
