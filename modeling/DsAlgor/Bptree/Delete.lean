import DsAlgor.Bptree.InsertLeaf

/-!
# Deletion of a child

A node `q` with the children `X`, an item `x` and the children `Y`, where the item is not what it
should be (`Loose`): it stands for a child that has been merged away, and `_deleteFromInnerNode`
takes it out (`deleteFromInnerNode_spec`), or its key is the old one, and `_updateInnerNode` puts it
right (`Loose.update`).
-/

namespace Bptree

open CArray PtrTree

variable {K V : Type}

/-! ## The smallest entry -/

section
variable {t : Tree K V} {root : Bool} {l r : Nat} {T : Shape}

theorem findMinEntry_spec (h : Sub t root l T) (hT : T.elems ≠ []) (hr : l < r) :
    findMinEntry t r T.ptr = some (T.elems.headD 0) := by
  induction l generalizing T r root with
  | zero =>
    obtain ⟨r, rfl⟩ := Nat.exists_eq_add_of_lt hr
    cases T with
    | node p cs => exact h.elim
    | leaf p es =>
      have hleaf : (t.node p).leaf = true := LeafOk.leaf h
      rw [elems_leaf] at hT ⊢
      obtain ⟨e, es, rfl⟩ := List.exists_cons_of_ne_nil hT
      unfold findMinEntry
      rw [ptr_leaf, if_pos hleaf, (LeafOk.toEntries h).entry.get (x := e) rfl]
      rfl
  | succ l ih =>
    obtain ⟨r, rfl⟩ := Nat.exists_eq_succ_of_ne_zero (Nat.ne_zero_of_lt hr)
    cases T with
    | leaf p es => exact h.elim
    | node p cs =>
      obtain ⟨hnode, hcs⟩ := h
      cases cs with
      | nil => exact absurd rfl hnode.toBody.ne_nil
      | cons c cs =>
        have hc := hcs c List.mem_cons_self
        have hchild : (t.node p).children 0 = c.ptr := hnode.child.get rfl
        unfold findMinEntry
        rw [ptr_node, hnode.leaf, if_neg (by simp), hchild,
          ih hc hc.elems_ne_nil (Nat.lt_of_succ_lt_succ hr)]
        rw [elems_node, List.flatMap_cons]
        cases hce : c.elems with
        | nil => exact absurd hce hc.elems_ne_nil
        | cons e es => rfl

theorem findMinKey_spec (h : Sub t false l T) (hl : l < t.height) :
    findMinKey t T.ptr = some (minKey t T) := by
  unfold findMinKey
  rw [findMinEntry_spec h h.elems_ne_nil hl]
  rfl

/-- A node is a root if it is full enough for one. -/
theorem Sub.toRoot (h : Sub t false l T) : Sub t true l T := by
  cases l with
  | zero =>
    cases T with
    | leaf p es => exact { LeafOk.toEntries h with
        leaf := LeafOk.leaf h
        level := LeafOk.level h
        least := Nat.zero_le _
        most := LeafOk.most h }
    | node p cs => exact h.elim
  | succ l =>
    cases T with
    | leaf p es => exact h.elim
    | node p cs =>
      have hleast : minChildren true ≤ (cs.map (item t)).length := le_trans (by decide) h.1.least
      exact ⟨{ h.1 with least := hleast }, h.2⟩

end

/-! ## A node with an item that is not right -/

/-- The path leads to the item `x`, which is not what it should be. The nodes `ys` are not in the
tree. -/
structure Loose (t : Tree K V) (path : PathInfo) (l : Nat) (fs : Place) (q : Ptr) (X : List Shape)
    (x : Ptr × K) (Y : List Shape) (ys : List Ptr) : Prop
    extends Site t path (l + 1) fs q (minKey t (.node q X))
      (q :: ((X ++ Y).flatMap ptrs ++ ys)) where
  node : InnerOk (t.node q) fs.isEmpty (l + 1) (X.map (item t) ++ x :: Y.map (item t))
  sub : ∀ c ∈ X ++ Y, Sub t false l c
  pos : path.p (l + 1) + 1 = X.length

/-- The tree `T` has come out, from the nodes `ps`. -/
structure Settled (t t' : Tree K V) (ps : List Ptr) (lv : List (Ptr × List Ptr)) (L : Nat)
    (T : Shape) : Prop where
  sub : Sub t' true L T
  root : t'.root = T.ptr
  leaves : T.leaves = lv
  nodup : T.ptrs.Nodup
  ptrs : T.ptrs ⊆ ps
  next : ∀ p, (t'.node p).next = (t.node p).next
  kept : Kept t t' ps

section
variable {t t' t'' : Tree K V} {path path' : PathInfo} {l r L : Nat} {f : Frame Ptr Ptr}
  {fs : Place} {q : Ptr} {k : K} {qs ps ys S : List Ptr} {X Y : List Shape} {x : Ptr × K} {lv :
  List (Ptr × List Ptr)} {T : Shape}

theorem Settled.after (hk : Kept t t' S) (hnext : ∀ p, (t'.node p).next = (t.node p).next)
    (h : Settled t' t'' qs lv L T) (hS : S ⊆ ps) (hqs : qs ⊆ ps) : Settled t t'' ps lv L T where
  sub := h.sub
  root := h.root
  leaves := h.leaves
  nodup := h.nodup
  ptrs := fun _ hp => hqs (h.ptrs hp)
  next := fun p => (h.next p).trans (hnext p)
  kept := (hk.trans h.kept).mono (List.append_subset.2 ⟨hS, hqs⟩)

theorem Settled.mono (h : Settled t t' qs lv L T) (hqs : qs ⊆ ps) : Settled t t' ps lv L T :=
  { h with
    ptrs := fun _ hp => hqs (h.ptrs hp)
    kept := h.kept.mono hqs }

theorem Site.rootLevel (h : Site t path l fs q k qs) : (t.node t.root).level = l + fs.length := by
  rw [h.root]
  exact h.around.level (T := .leaf q []) h.level

theorem Site.lt_height (h : Site t path (l + 1) fs q k qs) : l < t.height := by
  unfold Tree.height
  rw [h.rootLevel]
  omega

/-- The node gets the children `cs`. -/
theorem Site.settle (h : Site t path (l + 1) fs q k qs) {n : Node K} (cs : List Shape)
    (hn : InnerOk n fs.isEmpty (l + 1) (cs.map (item t))) (hnext : n.next = (t.node q).next)
    (hsub : ∀ c ∈ cs, Sub t false l c) (hmin : minKey t (.node q cs) = k)
    (hperm : qs.Perm (q :: cs.flatMap ptrs)) :
    Settled t (t.setNode q n) (qs ++ framePtrs fs) (before fs ++ cs.flatMap leaves ++ after fs)
      (l + 1 + fs.length) (plug fs (.node q cs)) := by
  have hkept := kept_setNode t q n
  have hall : (plug fs (.node q cs)).ptrs.Perm (qs ++ framePtrs fs) := by
    refine (ptrs_plug fs (.node q cs)).trans ?_
    rw [ptrs_node]
    exact hperm.symm.append_right _
  have hnodup := h.nodup
  rw [(hperm.append_right _).nodup_iff, List.cons_append, List.nodup_cons, List.mem_append,
    not_or] at hnodup
  have hbound : ∀ p ∈ qs ++ framePtrs fs, p < t.brk := fun p hp => (h.bound p hp).2
  have hcs : cs ≠ [] := by
    intro hnil
    rw [hnil] at hn
    exact hn.toBody.ne_nil rfl
  have hnode : Sub (t.setNode q n) fs.isEmpty (l + 1) (.node q cs) := by
    refine ⟨?_, fun c hc => (hsub c hc).kept hkept fun p hp => ⟨?_, ?_⟩⟩
    · rw [setNode_self, item_of_entry hkept.entry]
      exact hn
    · apply hbound
      rw [List.mem_append]
      exact .inl (hperm.mem_iff.2 (List.mem_cons_of_mem _ (List.mem_flatMap.2 ⟨c, hc, hp⟩)))
    · rw [List.mem_singleton]
      intro heq
      exact hnodup.1.1 (List.mem_flatMap.2 ⟨c, hc, heq ▸ hp⟩)
  refine ⟨Around.plugged ?_ hnode ?_, ?_, ?_, hall.nodup_iff.2 h.nodup, fun p hp =>
    hall.mem_iff.1 hp, ?_, hkept.mono ?_⟩
  · unfold item
    rw [minKey_of_entry hkept.entry, hmin]
    refine h.around.kept hkept fun p hp => ⟨hbound p (List.mem_append_right _ hp), ?_⟩
    rw [List.mem_singleton]
    intro heq
    exact hnodup.1.2 (heq ▸ hp)
  · intro _
    obtain ⟨c, cs', rfl⟩ := List.exists_cons_of_ne_nil hcs
    rw [elems_node, List.flatMap_cons]
    intro hnil
    exact (hsub c List.mem_cons_self).elems_ne_nil (List.append_eq_nil_iff.1 hnil).1
  · have hptr : (PtrTree.leaf q [] : Shape).ptr = (PtrTree.node q cs : Shape).ptr := rfl
    exact h.root.trans (ptr_plug hptr fs)
  · rw [leaves_plug, leaves_node]
  · intro p
    by_cases hp : p = q
    · rw [hp, setNode_self, hnext]
    · rw [setNode_of_ne hp]
  · intro p hp
    rw [List.mem_singleton] at hp
    rw [hp]
    exact List.mem_append_left _ h.own

/-- `_updateInnerNode` puts the key of a child right. -/
theorem Loose.update {y : Shape} (h : Loose t path l fs q X x Y y.ptrs) (hy : Sub t false l y)
    (hx : x.1 = y.ptr) :
    ∃ t', updateInnerNode t path (l + 1) = some t' ∧
      Settled t t' (q :: ((X ++ Y).flatMap ptrs ++ y.ptrs) ++ framePtrs fs)
        (before fs ++ (X ++ y :: Y).flatMap leaves ++ after fs) (l + 1 + fs.length)
        (plug fs (.node q (X ++ y :: Y))) := by
  have hX : X ≠ [] := by
    intro hnil
    have hpos := h.pos
    rw [hnil] at hpos
    cases hpos
  have hchild : (t.node q).children (path.p (l + 1) + 1) = y.ptr := by
    rw [← hx, h.pos]
    refine h.node.child.get ?_
    simp
  have hpos : path.p (l + 1) = (X.map (item t)).length - 1 := by
    rw [List.length_map, ← h.pos]
    rfl
  have hbody := Body.setKey _ h.node.toBody (by simpa using hX) (minKey t y)
  refine ⟨t.setNode q { t.node
    q with keys := Function.update (t.node q).keys (path.p (l + 1)) (minKey t y) }, ?_,
    h.toSite.settle _ ⟨?_, h.node.leaf, h.node.level, ?_, ?_⟩ rfl ?_ ?_ ?_⟩
  · unfold updateInnerNode
    dsimp only
    rw [h.here, hchild, findMinKey_spec hy h.lt_height]
    rfl
  · rw [hpos, List.map_append, List.map_cons]
    rw [hx] at hbody
    exact hbody
  · have := h.node.least
    simpa using this
  · have := h.node.most
    simpa using this
  · intro c hc
    rw [List.mem_append, List.mem_cons] at hc
    rcases hc with hc | rfl | hc
    · exact h.sub c (List.mem_append_left _ hc)
    · exact hy
    · exact h.sub c (List.mem_append_right _ hc)
  · obtain ⟨c, cs, rfl⟩ := List.exists_cons_of_ne_nil hX
    have hc := (h.sub c (by simp)).elems_ne_nil
    rw [List.cons_append, minKey_node hc, minKey_node hc]
  · refine List.perm_iff_count.2 fun a => ?_
    simp only [List.flatMap_append, List.flatMap_cons, List.count_append, List.count_cons]
    omega

/-! ## Brothers -/

theorem Site.frame_count (h : Site t path l (f :: fs) q k qs) (a : Ptr) :
    qs.count a + ([f.ptr].count a + (((f.left ++ f.right).flatMap ptrs).count a +
      (framePtrs fs).count a)) ≤ 1 := by
  have hone := List.nodup_iff_count_le_one.1 h.nodup a
  simp only [framePtrs, List.count_append, List.count_cons, List.count_nil] at hone ⊢
  omega

/-- The parent, after the node and one of its brothers have changed. -/
theorem Site.up {A B : List Shape} {s : Shape} (h : Site t path l (f :: fs) q k qs)
    (hs : f.left ++ f.right = A ++ s :: B) (hk : Kept t t' S) (hS : S ⊆ qs ++ s.ptrs)
    (hroot : t'.root = t.root)
    (hitems : X.map (item t) ++ x :: Y.map (item t) = frameItems t f (q, k))
    (hsub : ∀ c ∈ X ++ Y, c ∈ A ++ B ∨ Sub t' false l c)
    (hcount : ∀ a, ((X ++ Y).flatMap ptrs ++ ys).count a ≤
    (qs ++ (f.left ++ f.right).flatMap ptrs).count a)
    (hn : path'.n = path.n) (hpos : path'.p (l + 1) + 1 = X.length)
    (hp : ∀ j, l + 1 < j → path'.p j = path.p j) :
    Loose t' path' l fs f.ptr X x Y ys := by
  obtain ⟨hf, hfsub, haround⟩ := h.around
  obtain ⟨hfn, -, halong⟩ := h.along
  have hflat : (f.left ++ f.right).flatMap ptrs = A.flatMap ptrs ++ (s.ptrs ++ B.flatMap ptrs) := by
    rw [hs, List.flatMap_append, List.flatMap_cons]
  -- nothing else has changed
  have hother : ∀ p, 0 < [f.ptr].count p + ((A ++ B).flatMap ptrs).count p + (framePtrs fs).count
    p → p ∉ S := by
    intro p hpos hpS
    have hone := h.frame_count p
    have hmem := List.count_pos_iff.2 (hS hpS)
    rw [hflat] at hone
    simp only [List.flatMap_append, List.count_append] at hone hpos hmem
    omega
  have hlt : ∀ p, 0 < qs.count p + ([f.ptr].count p + (((f.left ++ f.right).flatMap ptrs).count p +
      (framePtrs fs).count p)) → 0 < p ∧ p < t.brk := by
    intro p hpos
    refine h.bound p (List.count_pos_iff.1 ?_)
    simp only [framePtrs, List.count_append, List.count_cons, List.count_nil] at hpos ⊢
    omega
  have hfself : 0 < [f.ptr].count f.ptr := List.count_pos_iff.2 List.mem_cons_self
  have hX : X ≠ [] := by
    intro hnil
    rw [hnil] at hpos
    cases hpos
  have hmin : minKey t' (.node f.ptr X) = frameMin t f k := by
    obtain ⟨c, cs, rfl⟩ := List.exists_cons_of_ne_nil hX
    have hc : c.elems ≠ [] := by
      rcases hsub c (by simp) with hc | hc
      · have hcf : c ∈ f.left ++ f.right := by
          rw [hs]
          simp only [List.mem_append, List.mem_cons] at hc ⊢
          exact hc.imp_right .inr
        exact (hfsub c hcf).elems_ne_nil
      · exact hc.elems_ne_nil
    rw [minKey_of_entry hk.entry, minKey_node hc]
    unfold frameItems at hitems
    unfold frameMin
    cases hleft : f.left with
    | nil =>
      rw [hleft] at hitems
      exact congrArg Prod.snd (List.cons.inj hitems).1
    | cons d ds =>
      rw [hleft] at hitems
      exact congrArg Prod.snd (List.cons.inj hitems).1
  refine ⟨⟨?_, ?_, ?_, List.mem_cons_self, ?_, ?_, ?_, ?_, ?_⟩, ?_, ?_, hpos⟩
  · rw [hmin]
    refine haround.kept hk fun p hpf => ⟨(hlt p ?_).2, hother p ?_⟩
    · have := List.count_pos_iff.2 hpf
      omega
    · have := List.count_pos_iff.2 hpf
      omega
  · exact halong.congr fun j hj => ⟨congrFun hn j, hp j hj⟩
  · rw [hn]
    exact hfn
  · rw [hk.node f.ptr (hlt _ (by omega)).2 (hother _ (by omega))]
    exact hf.level
  · refine List.nodup_iff_count_le_one.2 fun a => ?_
    have hone := h.frame_count a
    have hle := hcount a
    simp only [List.count_append, List.count_cons, List.count_nil] at hone hle ⊢
    omega
  · intro p hpm
    have hpos := List.count_pos_iff.2 hpm
    have hle := hcount p
    refine (hlt p ?_).imp_right fun hlt => hlt.trans_le hk.brk
    simp only [List.count_append, List.count_cons, List.count_nil] at hpos hle ⊢
    omega
  · have hptr : (f.fill (.leaf q [])).ptr = (PtrTree.leaf f.ptr [] : Shape).ptr := rfl
    rw [hroot, h.root]
    exact ptr_plug hptr fs
  · rw [hk.innerOrder, h.innerOrder]
  · rw [hk.node f.ptr (hlt _ (by omega)).2 (hother _ (by omega)), item_of_entry hk.entry, hitems]
    exact hf
  · intro c hc
    rcases hsub c hc with hcAB | hc
    · have hcf : c ∈ f.left ++ f.right := by
        rw [hs]
        simp only [List.mem_append, List.mem_cons] at hcAB ⊢
        exact hcAB.imp_right .inr
      refine (hfsub c hcf).kept hk fun p hpc => ⟨(hlt p ?_).2, hother p ?_⟩
      · have := List.count_pos_iff.2 (List.mem_flatMap.2 ⟨c, hcf, hpc⟩)
        omega
      · have := List.count_pos_iff.2 (List.mem_flatMap.2 ⟨c, hcAB, hpc⟩)
        omega
    · exact hc

/-- The nodes of the parent are nodes of the tree. -/
theorem subset_of_count
    (hcount : ∀ a, ((X ++ Y).flatMap ptrs ++ ys).count a ≤
    (qs ++ (f.left ++ f.right).flatMap ptrs).count a) :
    f.ptr :: ((X ++ Y).flatMap ptrs ++ ys) ++ framePtrs fs ⊆ qs ++ framePtrs (f :: fs) := by
  intro a ha
  have hpos := List.count_pos_iff.2 ha
  have hle := hcount a
  apply List.count_pos_iff.1
  simp only [framePtrs, List.count_append, List.count_cons] at hpos hle ⊢
  omega

section
variable {A B : List Shape} {s s' y : Shape}

/-- The parent, after the node has changed with its brother on the left. The key on the left of the
node is the old one. -/
theorem Site.left_up (h : Site t path l (f :: fs) q k qs) (s' : Shape) (ys : List Ptr)
    (hleft : f.left = A ++ [s]) (hk : Kept t t' S)
    (hS : S ⊆ qs ++ s.ptrs) (hroot : t'.root = t.root) (hs' : Sub t' false l s')
    (hitem : item t s' = item t s)
    (hcount : ∀ a, (s'.ptrs ++ ys).count a ≤ (qs ++ s.ptrs).count a) :
    Loose t' (path.decr (l + 1)) l fs f.ptr (A ++ [s']) (q, k) f.right ys ∧
      f.ptr :: ((A ++ [s'] ++ f.right).flatMap ptrs ++ ys) ++ framePtrs fs ⊆ qs ++ framePtrs
        (f :: fs) := by
  have hall : ∀ a, ((A ++ [s'] ++ f.right).flatMap ptrs ++ ys).count a ≤
      (qs ++ (f.left ++ f.right).flatMap ptrs).count a := by
    intro a
    have hle := hcount a
    simp only [hleft, List.flatMap_append, List.flatMap_cons, List.flatMap_nil, List.count_append,
      List.count_nil] at hle ⊢
    omega
  have hs : f.left ++ f.right = A ++ s :: f.right := by
    rw [hleft, List.append_assoc, List.singleton_append]
  refine ⟨h.up hs hk hS hroot ?_ ?_ hall rfl ?_ ?_, subset_of_count hall⟩
  · unfold frameItems
    rw [hleft, List.map_append, List.map_append, List.map_singleton, List.map_singleton, hitem]
  · intro c hc
    simp only [List.mem_append, List.mem_singleton] at hc
    rcases hc with (hc | rfl) | hc
    · exact .inl (List.mem_append_left _ hc)
    · exact .inr hs'
    · exact .inl (List.mem_append_right _ hc)
  · unfold PathInfo.decr
    dsimp only
    rw [Function.update_self, h.along.2.1, hleft, List.length_append, List.length_append]
    rfl
  · intro j hj
    exact Function.update_of_ne (Nat.ne_of_gt hj) _ _

/-- The parent, after the node has changed with its brother on the right. The key on the left of the
brother is the old one. -/
theorem Site.right_up (h : Site t path l (f :: fs) q k qs) (y : Shape) (ys : List Ptr)
    (hright : f.right = s :: B) (hk : Kept t t' S)
    (hS : S ⊆ qs ++ s.ptrs) (hroot : t'.root = t.root) (hy : Sub t' false l y)
    (hitem : item t y = (q, k))
    (hcount : ∀ a, (y.ptrs ++ ys).count a ≤ (qs ++ s.ptrs).count a) :
    Loose t' path l fs f.ptr (f.left ++ [y]) (item t s) B ys ∧
      f.ptr :: ((f.left ++ [y] ++ B).flatMap ptrs ++ ys) ++ framePtrs fs ⊆ qs ++ framePtrs
        (f :: fs) := by
  have hall : ∀ a, ((f.left ++ [y] ++ B).flatMap ptrs ++ ys).count a ≤
      (qs ++ (f.left ++ f.right).flatMap ptrs).count a := by
    intro a
    have hle := hcount a
    simp only [hright, List.flatMap_append, List.flatMap_cons, List.flatMap_nil, List.count_append,
      List.count_nil] at hle ⊢
    omega
  have hs : f.left ++ f.right = f.left ++ s :: B := by rw [hright]
  refine ⟨h.up hs hk hS hroot ?_ ?_ hall rfl ?_ fun _ _ => rfl, subset_of_count hall⟩
  · unfold frameItems
    rw [hright, List.map_append, List.map_singleton, hitem, List.append_assoc, List.map_cons]
    rfl
  · intro c hc
    simp only [List.mem_append, List.mem_singleton] at hc
    rcases hc with (hc | rfl) | hc
    · exact .inl (List.mem_append_left _ hc)
    · exact .inr hy
    · exact .inl (List.mem_append_right _ hc)
  · rw [h.along.2.1, List.length_append, List.length_singleton]

theorem left_leaves {M : List Shape} (lv : List (Ptr × List Ptr)) (hleft : f.left = A ++ [s])
    (hM : M.flatMap leaves = s.leaves ++ lv) :
    before fs ++ (A ++ M ++ f.right).flatMap leaves ++ after fs = before (f :: fs) ++ lv ++ after
      (f :: fs) := by
  simp only [before, after, hleft, List.flatMap_append, List.flatMap_cons, List.flatMap_nil, hM,
    List.append_assoc, List.append_nil]

theorem right_leaves {M : List Shape} (lv : List (Ptr × List Ptr)) (hright : f.right = s :: B)
    (hM : M.flatMap leaves = lv ++ s.leaves) :
    before fs ++ (f.left ++ M ++ B).flatMap leaves ++ after fs = before (f :: fs) ++ lv ++ after
      (f :: fs) := by
  simp only [before, after, hright, List.flatMap_append, List.flatMap_cons, hM, List.append_assoc]

/-- The node takes from its brother on the left. -/
theorem Site.borrow_left (h : Site t path l (f :: fs) q k qs) (s' y : Shape)
    (hleft : f.left = A ++ [s]) (hk : Kept t t' S) (hS : S ⊆ qs ++ s.ptrs)
    (hroot : t'.root = t.root) (hnext : ∀ p, (t'.node p).next = (t.node p).next)
    (hs' : Sub t' false l s') (hitem : item t s' = item t s) (hy : Sub t' false l y)
    (hyq : y.ptr = q)
    (hcount : ∀ a, (s'.ptrs ++ y.ptrs).count a ≤ (qs ++ s.ptrs).count a) :
    ∃ t'' L T, updateInnerNode t' (path.decr (l + 1)) (l + 1) = some t'' ∧
      Settled t t'' (qs ++ framePtrs (f :: fs))
        (before fs ++ (A ++ [s', y] ++ f.right).flatMap leaves ++ after fs) L T := by
  obtain ⟨hloose, hsubset⟩ := h.left_up s' y.ptrs hleft hk hS hroot hs' hitem hcount
  obtain ⟨t'', hrun, hsettled⟩ := hloose.update hy hyq.symm
  rw [show A ++ [s'] ++ y :: f.right = A ++ [s', y] ++ f.right by simp] at hsettled
  refine ⟨t'', _, _, hrun, hsettled.after hk hnext ?_ hsubset⟩
  intro p hp
  have hmem := hS hp
  simp only [framePtrs, hleft, List.mem_append, List.mem_cons, List.flatMap_append,
    List.flatMap_cons] at hmem ⊢
  exact hmem.imp_right fun hm => .inr (.inl (.inl (.inr (.inl hm))))

/-- The node takes from its brother on the right. -/
theorem Site.borrow_right (h : Site t path l (f :: fs) q k qs) (y s' : Shape)
    (hright : f.right = s :: B) (hk : Kept t t' S) (hS : S ⊆ qs ++ s.ptrs)
    (hroot : t'.root = t.root) (hnext : ∀ p, (t'.node p).next = (t.node p).next)
    (hy : Sub t' false l y) (hitem : item t y = (q, k)) (hs' : Sub t' false l s')
    (hsp : s'.ptr = s.ptr)
    (hcount : ∀ a, (y.ptrs ++ s'.ptrs).count a ≤ (qs ++ s.ptrs).count a) :
    ∃ t'' L T, updateInnerNode t' path (l + 1) = some t'' ∧
      Settled t t'' (qs ++ framePtrs (f :: fs))
        (before fs ++ (f.left ++ [y, s'] ++ B).flatMap leaves ++ after fs) L T := by
  obtain ⟨hloose, hsubset⟩ := h.right_up y s'.ptrs hright hk hS hroot hy hitem hcount
  obtain ⟨t'', hrun, hsettled⟩ := hloose.update hs' hsp.symm
  rw [show f.left ++ [y] ++ s' :: B = f.left ++ [y, s'] ++ B by simp] at hsettled
  refine ⟨t'', _, _, hrun, hsettled.after hk hnext ?_ hsubset⟩
  intro p hp
  have hmem := hS hp
  simp only [framePtrs, hright, List.mem_append, List.mem_cons, List.flatMap_append,
    List.flatMap_cons] at hmem ⊢
  exact hmem.imp_right fun hm => .inr (.inl (.inr (.inl hm)))

end

section
variable (h : Site t path l (f :: fs) q k qs)
include h

/-- The brother on the left. -/
theorem Site.left_snoc {A : List Shape} {s : Shape} (hleft : f.left = A ++ [s]) :
    (t.node (path.n (l + 1))).left (path.p (l + 1)) = s.ptr ∧ s.ptr ≠ 0 := by
  obtain ⟨hf, hfsub, -⟩ := h.around
  obtain ⟨hfn, hfp, -⟩ := h.along
  constructor
  · unfold Node.left
    rw [hfn, hfp, hleft, List.length_append, List.length_singleton, if_pos (Nat.succ_pos _)]
    refine hf.child.get ?_
    simp [frameItems, hleft, item]
  · apply Nat.ne_of_gt
    refine (h.bound s.ptr ?_).1
    simp only [framePtrs, List.mem_append, List.mem_cons, List.mem_flatMap]
    exact .inr (.inr (.inl ⟨s, by simp [hleft], ptr_mem_ptrs s⟩))

theorem Site.left_nil (hleft : f.left = []) :
    (t.node (path.n (l + 1))).left (path.p (l + 1)) = 0 := by
  unfold Node.left
  rw [h.along.2.1, hleft]
  rfl

/-- The brother on the right. -/
theorem Site.right_cons {B : List Shape} {s : Shape} (hright : f.right = s :: B) :
    (t.node (path.n (l + 1))).right (path.p (l + 1)) = s.ptr ∧ s.ptr ≠ 0 := by
  obtain ⟨hf, hfsub, -⟩ := h.around
  obtain ⟨hfn, hfp, -⟩ := h.along
  have hcount := hf.count
  constructor
  · unfold Node.right
    rw [hfn, hfp, if_pos]
    · refine hf.child.get ?_
      simp [frameItems, hright, item]
    · simp only [frameItems, hright, List.length_append, List.length_map,
        List.length_cons] at hcount
      omega
  · apply Nat.ne_of_gt
    refine (h.bound s.ptr ?_).1
    simp only [framePtrs, List.mem_append, List.mem_cons, List.mem_flatMap]
    exact .inr (.inr (.inl ⟨s, by simp [hright], ptr_mem_ptrs s⟩))

theorem Site.right_nil (hright : f.right = []) :
    (t.node (path.n (l + 1))).right (path.p (l + 1)) = 0 := by
  obtain ⟨hf, -, -⟩ := h.around
  obtain ⟨hfn, hfp, -⟩ := h.along
  have hcount := hf.count
  unfold Node.right
  rw [hfn, hfp, if_neg]
  simp only [frameItems, hright, List.length_append, List.length_map, List.length_cons,
    List.map_nil, List.length_nil] at hcount
  omega

/-! ## One level -/

end

/-- The first child is not the one that goes. -/
theorem Loose.cons (h : Loose t path l fs q X x Y ys) :
    ∃ c cs, X = c :: cs ∧ path.p (l + 1) = cs.length ∧ path.p
      (l + 1) < (cs.map (item t) ++ x :: Y.map (item t)).length ∧ Body (t.node q)
      (item t c :: (cs.map (item t) ++ x :: Y.map (item t))) ∧
      (cs.map (item t) ++ x :: Y.map (item t)).eraseIdx (path.p (l + 1)) = (cs ++ Y).map
      (item t) := by
  have hpos := h.pos
  have hbody := h.node.toBody
  cases X with
  | nil => cases hpos
  | cons c cs =>
    rw [List.length_cons, Nat.add_right_cancel_iff] at hpos
    refine ⟨c, cs, rfl, hpos, ?_, hbody, ?_⟩
    · rw [hpos, List.length_append, List.length_map, List.length_cons]
      omega
    · have hlen : path.p (l + 1) = (cs.map (item t)).length := by rw [List.length_map, hpos]
      rw [hlen, List.eraseIdx_append_of_length_le le_rfl, Nat.sub_self, List.eraseIdx_cons_zero,
        List.map_append]

/-- The child is taken out of a node with enough others. -/
theorem Loose.erase (h : Loose t path l fs q X x Y [])
    (hleast : minChildren fs.isEmpty ≤ X.length + Y.length) :
    Settled t (t.setNode q ((t.node q).eraseChild (path.p (l + 1))))
      (q :: (X ++ Y).flatMap ptrs ++ framePtrs fs)
      (before fs ++ (X ++ Y).flatMap leaves ++ after fs) (l + 1 + fs.length)
      (plug fs (.node q (X ++ Y))) := by
  obtain ⟨c, cs, rfl, hp, hlt, hbody, herase⟩ := h.cons
  have hmost := h.node.most
  simp only [List.length_append, List.length_map, List.length_cons] at hmost hleast
  have hbody' := hbody.eraseChild (p := path.p (l + 1)) (by simpa using hlt)
  rw [List.eraseIdx_cons_succ, herase] at hbody'
  refine (h.toSite.settle (c :: cs ++ Y) ⟨hbody', h.node.leaf, h.node.level, ?_, ?_⟩ rfl
    h.sub ?_ ?_).mono ?_
  · rw [List.length_map, List.length_append, List.length_cons]
    omega
  · rw [List.length_map, List.length_append, List.length_cons]
    omega
  · have hc := (h.sub c (by simp)).elems_ne_nil
    rw [minKey_node hc]
    exact minKey_node hc
  · rw [List.append_nil]
  · rw [List.append_nil]
    exact List.Subset.refl _

/-- The only other child becomes the root. -/
theorem Loose.shrink (h : Loose t path l [] q X x Y []) (hcount : (t.node q).count = 1) :
    ∃ c, (t.node q).children 0 = c.ptr ∧
      Settled t { t with root := c.ptr } (q :: (X ++ Y).flatMap ptrs)
        ((X ++ Y).flatMap leaves) l c := by
  obtain ⟨c, cs, rfl, hp, hlt, hbody, herase⟩ := h.cons
  have hone := hbody.count
  simp only [hcount, List.length_append, List.length_map, List.length_cons] at hone
  have hcs : cs = [] := List.length_eq_zero_iff.1 (by omega)
  have hY : Y = [] := List.length_eq_zero_iff.1 (by omega)
  subst hcs hY
  have hnodup := h.nodup
  rw [List.append_nil, List.append_nil, List.flatMap_singleton] at hnodup
  refine ⟨c, hbody.first, ?_, rfl, ?_, ?_, ?_, fun _ => rfl, ?_⟩
  · exact (h.sub c (by simp)).toRoot.congr (fun _ _ => rfl) fun _ _ => rfl
  · simp
  · exact ((List.nodup_cons.1 (List.nodup_append.1 hnodup).1).2)
  · intro p hp
    simpa using .inr hp
  · exact ⟨rfl, rfl, rfl, rfl, rfl, rfl, le_rfl, fun _ _ _ => rfl⟩

theorem height_setNode {n : Node K} (hn : n.level = (t.node q).level) :
    (t.setNode q n).height = t.height := by
  unfold Tree.height
  rw [Nat.add_right_cancel_iff]
  show ((t.setNode q n).node t.root).level = _
  by_cases hq : t.root = q
  · rw [hq, setNode_self, hn]
  · rw [setNode_of_ne hq]

end

end Bptree
