import DsAlgor.Bptree.Delete

/-!
# Deletion of a child, up to the root

The cases of `_deleteFromInnerNode` for a node that is as empty as it may be: it takes a child from
one of its brothers, or it is merged with one of them, and the parent loses a child.
-/

namespace Bptree

open CArray PtrTree

variable {K V : Type}

section
variable {t t' : Tree K V} {path : PathInfo} {l r : Nat} {f : Frame Ptr Ptr} {fs : Place}
  {q sp : Ptr} {S : List Ptr} {X Y A B scs : List Shape} {x : Ptr × K} {s : Shape}

/-- The brother is another node, and what is below the two is still there when they have changed. -/
theorem Loose.below (h : Loose t path l (f :: fs) q X x Y [])
    (hs : .node sp scs ∈ f.left ++ f.right) (hk : Kept t t' S) (hS : S ⊆ [q, sp]) :
    sp ≠ q ∧ ∀ c ∈ X ++ Y ++ scs, Sub t' false l c := by
  obtain ⟨A, B, hAB⟩ := List.append_of_mem hs
  have hcount : ∀ a, ([q].count a + ((X ++ Y).flatMap ptrs).count a) +
    ([sp].count a + (scs.flatMap ptrs).count a) ≤ 1 := by
    intro a
    have hone := h.frame_count a
    rw [hAB] at hone
    simp only [List.flatMap_append, List.flatMap_cons, ptrs_node, List.append_nil,
      List.count_append, List.count_cons, List.count_nil] at hone ⊢
    omega
  have hq : [q].count q = 1 := List.count_singleton_self
  have hsp : [sp].count sp = 1 := List.count_singleton_self
  constructor
  · intro heq
    have hone := hcount q
    rw [heq] at hone
    omega
  · intro c hc
    have hsub : Sub t false l c := by
      rw [List.mem_append] at hc
      rcases hc with hc | hc
      · exact h.sub c hc
      · exact (h.around.2.1 _ hs).2 c hc
    refine hsub.kept hk fun p hp => ?_
    have hpos : 0 < ((X ++ Y).flatMap ptrs).count p + (scs.flatMap ptrs).count p := by
      rw [← List.count_append, ← List.flatMap_append]
      exact List.count_pos_iff.2 (List.mem_flatMap.2 ⟨c, hc, hp⟩)
    constructor
    · refine (h.bound p (List.count_pos_iff.1 ?_)).2
      rw [framePtrs, hAB]
      simp only [List.flatMap_append, List.flatMap_cons, ptrs_node, List.count_append,
        List.count_cons] at hpos ⊢
      omega
    · intro hpS
      have hone := hcount p
      have hmem := hS hpS
      simp only [List.mem_cons, List.not_mem_nil, or_false] at hmem
      rcases hmem with rfl | rfl
      · omega
      · omega

/-- The node `q` is written twice and then its brother. -/
def lent (t : Tree K V) (q sp : Ptr) (n n' m : Node K) : Tree K V :=
  ((t.setNode q n).setNode q n').setNode sp m

/-- What a node that took a child and its brother leave as it was. -/
structure Lent (t t' : Tree K V) (l : Nat) (q sp : Ptr) (cs : List Shape) (n' m : Node K) :
    Prop where
  kept : Kept t t' [q, q, sp]
  root : t'.root = t.root
  ne : sp ≠ q
  node : t'.node q = n'
  brother : t'.node sp = m
  below : ∀ c ∈ cs, Sub t' false l c
  next : ∀ p, (t'.node p).next = (t.node p).next

theorem Loose.lends (h : Loose t path l (f :: fs) q X x Y [])
    (hs : .node sp scs ∈ f.left ++ f.right)
    (n n' m : Node K) (hnext : n'.next = (t.node q).next)
    (hnext' : m.next = (t.node sp).next) :
    Lent t (lent t q sp n n' m) l q sp (X ++ Y ++ scs) n' m := by
  have hkept : Kept t (lent t q sp n n' m) [q, q, sp] :=
    ((kept_setNode t q n).trans (kept_setNode _ q n')).trans (kept_setNode _ sp m)
  obtain ⟨hne, hbelow⟩ := h.below hs hkept (by simp)
  refine ⟨hkept, rfl, hne, ?_, setNode_self, hbelow, fun p => ?_⟩
  · unfold lent
    rw [setNode_of_ne hne.symm, setNode_self]
  · unfold lent
    by_cases hps : p = sp
    · rw [hps, setNode_self, hnext']
    rw [setNode_of_ne hps]
    by_cases hpq : p = q
    · rw [hpq, setNode_self, hnext]
    · rw [setNode_of_ne hpq, setNode_of_ne hpq]

theorem Loose.half (h : Loose t path l fs q X x Y []) : (t.innerOrder - 1) >>> 1 = 15 := by
  rw [h.innerOrder]
  rfl

section
variable (h : Loose t path l (f :: fs) q X x Y [])
include h

variable (hcount : (t.node q).count = 15)
include hcount

/-- What `_deleteFromInnerNode` tests before it looks at the brothers. -/
theorem Loose.poor :
    ¬ (t.node (path.n (l + 1))).count > (t.innerOrder - 1) >>> 1 ∧ ¬ l + 1 = (t.node t.root).level ∧
      (t.innerOrder - 1) >>> 1 = 15 := by
  rw [h.here, hcount, h.half, h.rootLevel, List.length_cons]
  exact ⟨lt_irrefl 15, by omega, rfl⟩

/-- The lengths in a node that is as empty as it may be. -/
theorem Loose.length : X.length + Y.length = 15 := by
  have hlen := h.node.count
  simp only [hcount, List.length_append, List.length_map, List.length_cons] at hlen
  omega

theorem Loose.borrow_left (hleft : f.left = A ++ [s]) (hrich : 15 < (t.node s.ptr).count) :
    ∃ t' L T, deleteFromInnerNode (r + 1) t path (l + 1) = some t' ∧
      Settled t t' (q :: (X ++ Y).flatMap ptrs ++ framePtrs (f :: fs))
        (before (f :: fs) ++ (X ++ Y).flatMap leaves ++ after (f :: fs)) L T := by
  have hmem : s ∈ f.left ++ f.right := by simp [hleft]
  have hsub := h.around.2.1 s hmem
  obtain ⟨hln, hlnz⟩ := h.left_snoc hleft
  obtain ⟨hc1, hc2, hhalf⟩ := h.poor hcount
  have hlen := h.length hcount
  cases s with
  | leaf sp es => exact hsub.elim
  | node sp scs =>
    rw [ptr_node] at hln hlnz hrich
    obtain ⟨hsnode, hscs⟩ := hsub
    have hslen := hsnode.count
    have hsmost := hsnode.most
    rw [List.length_map] at hslen hsmost
    obtain ⟨c, cs, rfl, hp, hlt, hbody, herase⟩ := h.cons
    -- the last child of the brother
    obtain rfl | ⟨scs, z, rfl⟩ := List.eq_nil_or_concat' scs
    · cases hslen
    rw [List.length_append, List.length_singleton] at hslen hsmost
    rw [List.map_append, List.map_singleton] at hsnode
    have hne : scs ≠ [] := by
      intro hnil
      rw [hnil, List.length_nil] at hslen
      omega
    obtain ⟨n', hn'⟩ : ∃ n', n' = innerFromLeft (t.node q) (t.node sp) (path.p (l + 1)) := ⟨_, rfl⟩
    have hfrom := hbody.fromLeft hsnode.toBody hlt (minKey t c) (minKey t z)
    rw [herase, ← hn'] at hfrom
    have hchild : n'.children 1 = c.ptr := hfrom.child.get (j := 1) rfl
    have hlevel : n'.level = (t.node q).level := by
      rw [hn']
      rfl
    have hmin : findMinKey (t.setNode q n') c.ptr = some (minKey t c) := by
      have hcsub := (h.below hmem (kept_setNode t q n') (by simp)).2 c (by simp)
      rw [findMinKey_spec hcsub, minKey_of_entry (kept_setNode t q n').entry]
      rw [height_setNode hlevel]
      exact h.lt_height
    have hlent := h.lends hmem n' { n' with keys := Function.update n'.keys 0 (minKey t c) }
      { t.node sp with count := (t.node sp).count - 1 } (by rw [hn']; rfl) rfl
    generalize ht₃ : lent t q sp n' { n' with keys := Function.update n'.keys 0 (minKey t c) }
      { t.node sp with count := (t.node sp).count - 1 } = t₃ at hlent
    rw [List.length_cons] at hlen
    have hbrother : Sub t₃ false (l + 1) (.node sp scs) :=
      sub_node hlent.kept.entry hlent.brother (hsnode.toBody.dropLast (by simpa using hne))
        hsnode.leaf hsnode.level (by omega) (by omega) fun d hd => hlent.below d (by simp [hd])
    have hnode : Sub t₃ false (l + 1) (.node q (z :: (c :: cs ++ Y))) := by
      refine sub_node hlent.kept.entry hlent.node hfrom (hn' ▸ h.node.leaf) (hn' ▸ h.node.level)
        ?_ ?_ fun d hd => hlent.below d ?_
      · rw [List.length_cons, List.length_append, List.length_cons]
        omega
      · rw [List.length_cons, List.length_append, List.length_cons]
        omega
      · simp only [List.mem_append, List.mem_cons, List.not_mem_nil] at hd ⊢
        grind
    obtain ⟨t', L, T, hrun, hsettled⟩ := h.toSite.borrow_left
      (.node sp scs) (.node q (z :: (c :: cs ++ Y))) hleft hlent.kept (by simp) hlent.root
      hlent.next hbrother
      (by
        obtain ⟨d, ds, rfl⟩ := List.exists_cons_of_ne_nil hne
        have hd := (hscs d (by simp)).elems_ne_nil
        unfold item
        rw [minKey_node hd, ptr_node, ptr_node, List.cons_append, minKey_node hd])
      hnode rfl
      (by
        intro a
        simp only [ptrs_node, List.flatMap_append, List.flatMap_cons, List.flatMap_nil,
          List.count_append, List.count_cons, List.count_nil]
        omega)
    rw [left_leaves ((c :: cs ++ Y).flatMap leaves) hleft (by simp)] at hsettled
    refine ⟨t', L, T, ?_, hsettled.mono (by simp)⟩
    unfold deleteFromInnerNode
    dsimp only
    rw [if_neg hc1, if_neg hc2, hln, hhalf, if_pos ⟨hlnz, hrich⟩, h.here, ← hn', hchild,
      hmin, ← hrun]
    dsimp only [bind, Option.bind]
    rw [setNode_of_ne hlent.ne, setNode_of_ne hlent.ne, ← ht₃]
    rfl

theorem Loose.borrow_right (hln : ¬ ((t.node (path.n (l + 2))).left (path.p (l + 2)) ≠ 0 ∧
      (t.node ((t.node (path.n (l + 2))).left (path.p (l + 2)))).count > 15))
    (hright : f.right = s :: B) (hrich : 15 < (t.node s.ptr).count) :
    ∃ t' L T, deleteFromInnerNode (r + 1) t path (l + 1) = some t' ∧
      Settled t t' (q :: (X ++ Y).flatMap ptrs ++ framePtrs (f :: fs))
        (before (f :: fs) ++ (X ++ Y).flatMap leaves ++ after (f :: fs)) L T := by
  have hmem : s ∈ f.left ++ f.right := by simp [hright]
  have hsub := h.around.2.1 s hmem
  obtain ⟨hrn, hrnz⟩ := h.right_cons hright
  obtain ⟨hc1, hc2, hhalf⟩ := h.poor hcount
  have hlen := h.length hcount
  cases s with
  | leaf sp es => exact hsub.elim
  | node sp scs =>
    rw [ptr_node] at hrn hrnz hrich
    obtain ⟨hsnode, hscs⟩ := hsub
    have hslen := hsnode.count
    have hsmost := hsnode.most
    rw [List.length_map] at hslen hsmost
    obtain ⟨c, cs, rfl, hp, hlt, hbody, herase⟩ := h.cons
    -- the first child of the brother
    cases scs with
    | nil => cases hslen
    | cons z scs =>
      rw [List.length_cons] at hslen hsmost
      rw [List.map_cons] at hsnode
      have hne : scs ≠ [] := by
        intro hnil
        rw [hnil, List.length_nil] at hslen
        omega
      obtain ⟨n', hn'⟩ : ∃ n', n' = innerFromRight (t.node q) (t.node sp) (path.p (l + 1)) :=
        ⟨_, rfl⟩
      have hcount' : n'.count = (t.node q).count := by
        rw [hn']
        rfl
      have hfrom := hbody.fromRight hsnode.toBody hlt (minKey t z)
      rw [herase, ← hn'] at hfrom
      have hchild : n'.children n'.count = z.ptr := by
        rw [hn']
        exact (Function.update_self _ _ _).trans hsnode.toBody.first
      have hlevel : n'.level = (t.node q).level := by
        rw [hn']
        rfl
      have hmin : findMinKey (t.setNode q n') z.ptr = some (minKey t z) := by
        have hzsub := (h.below hmem (kept_setNode t q n') (by simp)).2 z (by simp)
        rw [findMinKey_spec hzsub, minKey_of_entry (kept_setNode t q n').entry]
        rw [height_setNode hlevel]
        exact h.lt_height
      have hlent := h.lends hmem n'
        { n' with keys := Function.update n'.keys (n'.count - 1) (minKey t z) }
        (t.node sp).dropFirst (by rw [hn']; rfl) rfl
      generalize ht₃ : lent t q sp n'
        { n' with keys := Function.update n'.keys (n'.count - 1) (minKey t z) }
        (t.node sp).dropFirst = t₃ at hlent
      rw [List.length_cons] at hlen
      have hnode : Sub t₃ false (l + 1) (.node q (c :: cs ++ Y ++ [z])) := by
        refine sub_node hlent.kept.entry hlent.node ?_ (hn' ▸ h.node.leaf) (hn' ▸ h.node.level)
          ?_ ?_ fun d hd => hlent.below d ?_
        · rw [List.map_append]
          exact hfrom
        · simp only [List.length_cons, List.length_append, List.length_nil]
          omega
        · simp only [List.length_cons, List.length_append, List.length_nil]
          omega
        · simp only [List.mem_append, List.mem_cons, List.not_mem_nil] at hd ⊢
          grind
      have hbrother : Sub t₃ false (l + 1) (.node sp scs) :=
        sub_node hlent.kept.entry hlent.brother (hsnode.toBody.dropFirst (by simpa using hne))
          hsnode.leaf hsnode.level (by omega) (by omega) fun d hd => hlent.below d (by simp [hd])
      obtain ⟨t', L, T, hrun, hsettled⟩ := h.toSite.borrow_right
        (.node q (c :: cs ++ Y ++ [z])) (.node sp scs) hright hlent.kept (by simp) hlent.root
        hlent.next hnode
        (by
          have hc := (h.sub c (by simp)).elems_ne_nil
          unfold item
          rw [List.cons_append, List.cons_append, minKey_node hc, minKey_node hc]
          rfl)
        hbrother rfl
        (by
          intro a
          simp only [ptrs_node, List.flatMap_append, List.flatMap_cons, List.flatMap_nil,
            List.count_append, List.count_cons, List.count_nil]
          omega)
      rw [right_leaves ((c :: cs ++ Y).flatMap leaves) hright (by simp)] at hsettled
      refine ⟨t', L, T, ?_, hsettled.mono (by simp)⟩
      unfold deleteFromInnerNode
      dsimp only
      rw [if_neg hc1, if_neg hc2, hhalf, if_neg hln, hrn, if_pos ⟨hrnz, hrich⟩, h.here, ← hn',
        hchild, hmin, ← hrun]
      dsimp only [bind, Option.bind]
      rw [setNode_of_ne hlent.ne, setNode_of_ne hlent.ne, ← ht₃]
      rfl

/-- The node goes into its brother on the left. -/
theorem Loose.merge_left (hleft : f.left = A ++ [s]) (hpoor : (t.node s.ptr).count = 15)
    (hrn : ¬ ((t.node (path.n (l + 2))).right (path.p (l + 2)) ≠ 0 ∧
      (t.node ((t.node (path.n (l + 2))).right (path.p (l + 2)))).count > 15)) :
    ∃ t' s', deleteFromInnerNode (r + 1) t path (l + 1) = deleteFromInnerNode r t'
      (path.decr (l + 2)) (l + 2) ∧ Kept t t' [s.ptr] ∧ (∀ p, (t'.node p).next = (t.node p).next) ∧
      Loose t' (path.decr (l + 2)) (l + 1) fs f.ptr (A ++ [s']) (q, minKey t (.node q X))
        f.right [] ∧
      f.ptr :: ((A ++ [s'] ++ f.right).flatMap ptrs ++ []) ++ framePtrs fs ⊆
        q :: ((X ++ Y).flatMap ptrs ++ []) ++ framePtrs (f :: fs) ∧
      s'.leaves = s.leaves ++ (X ++ Y).flatMap leaves := by
  have hmem : s ∈ f.left ++ f.right := by simp [hleft]
  have hsub := h.around.2.1 s hmem
  obtain ⟨hln, hlnz⟩ := h.left_snoc hleft
  obtain ⟨hc1, hc2, hhalf⟩ := h.poor hcount
  have hlen := h.length hcount
  obtain ⟨hf, -, -⟩ := h.around
  cases s with
  | leaf sp es => exact hsub.elim
  | node sp scs =>
    rw [ptr_node] at hln hlnz hpoor
    obtain ⟨hsnode, hscs⟩ := hsub
    have hslen := hsnode.count
    rw [List.length_map] at hslen
    obtain ⟨c, cs, rfl, hp, hlt, hbody, herase⟩ := h.cons
    have hc := (h.sub c (by simp)).elems_ne_nil
    -- the key of the parent between the two
    have hkey : (t.node (path.n (l + 2))).keys (path.p (l + 2) - 1) = minKey t c := by
      rw [h.along.1, h.along.2.1, hleft, List.length_append, List.length_singleton,
        Nat.add_sub_cancel]
      refine hf.key.get ?_
      unfold frameItems
      rw [hleft, List.map_append, List.append_assoc, List.map_singleton]
      cases A with
      | nil => simp [minKey_node hc]
      | cons a A => simp [minKey_node hc]
    have hinto := hbody.intoLeft hsnode.toBody hlt (minKey t c)
    rw [herase] at hinto
    have hkept := kept_setNode t sp (innerIntoLeft (t.node q) (t.node sp) (path.p (l + 1))
      (minKey t c))
    obtain ⟨hspq, hbelow⟩ := h.below hmem hkept (by simp)
    have hinto : Body (innerIntoLeft (t.node q) (t.node sp) (path.p (l + 1)) (minKey t c))
        ((scs ++ (c :: cs ++ Y)).map (item t)) := by
      rw [List.map_append]
      exact hinto
    have hsum : (scs ++ (c :: cs ++ Y)).length = 31 := by
      rw [List.length_append, List.length_append, hlen, ← hslen, hpoor]
    have hnode := sub_node hkept.entry setNode_self hinto hsnode.leaf hsnode.level
      (by omega) (by omega) fun d hd => hbelow d (List.mem_append.2 (List.mem_append.1 hd).symm)
    obtain ⟨hloose, hsubset⟩ := h.toSite.left_up (.node sp (scs ++ (c :: cs ++ Y))) [] hleft hkept
      (by simp) rfl hnode
      (by
        cases scs with
        | nil => cases hslen
        | cons d ds =>
          have hd := (hscs d (by simp)).elems_ne_nil
          unfold item
          rw [minKey_node hd, ptr_node, ptr_node, List.cons_append, minKey_node hd])
      (by
        intro a
        simp only [ptrs_node, List.flatMap_append, List.flatMap_cons, List.append_nil,
          List.count_append, List.count_cons]
        omega)
    refine ⟨_, _, ?_, hkept, ?_, hloose, hsubset, by simp⟩
    · rw [deleteFromInnerNode]
      dsimp only
      rw [if_neg hc1, if_neg hc2, hhalf, hln, if_neg (by omega), if_neg hrn, if_pos hlnz,
        h.here, hkey]
    · intro p
      by_cases hps : p = sp
      · rw [hps, setNode_self]
        rfl
      · rw [setNode_of_ne hps]

/-- The brother on the right goes into the node. -/
theorem Loose.merge_right (hleft : f.left = []) (hright : f.right = s :: B)
    (hpoor : (t.node s.ptr).count = 15) :
    ∃ t' y, deleteFromInnerNode (r + 1) t path (l + 1) = deleteFromInnerNode r t' path (l + 2) ∧
      Kept t t' [q] ∧ (∀ p, (t'.node p).next = (t.node p).next) ∧
      Loose t' path (l + 1) fs f.ptr (f.left ++ [y]) (item t s) B [] ∧
      f.ptr :: ((f.left ++ [y] ++ B).flatMap ptrs ++ []) ++ framePtrs fs ⊆
        q :: ((X ++ Y).flatMap ptrs ++ []) ++ framePtrs (f :: fs) ∧
      y.leaves = (X ++ Y).flatMap leaves ++ s.leaves := by
  have hmem : s ∈ f.left ++ f.right := by simp [hright]
  have hsub := h.around.2.1 s hmem
  obtain ⟨hrn, hrnz⟩ := h.right_cons hright
  have hln := h.left_nil hleft
  obtain ⟨hc1, hc2, hhalf⟩ := h.poor hcount
  have hlen := h.length hcount
  obtain ⟨hf, -, -⟩ := h.around
  cases s with
  | leaf sp es => exact hsub.elim
  | node sp scs =>
    rw [ptr_node] at hrn hrnz hpoor
    obtain ⟨hsnode, hscs⟩ := hsub
    have hslen := hsnode.count
    rw [List.length_map] at hslen
    obtain ⟨c, cs, rfl, hp, hlt, hbody, herase⟩ := h.cons
    have hc := (h.sub c (by simp)).elems_ne_nil
    cases scs with
    | nil => cases hslen
    | cons z scs =>
      have hz := (hscs z (by simp)).elems_ne_nil
      -- the key of the parent between the two
      have hkey : (t.node (path.n (l + 2))).keys (path.p (l + 2)) = minKey t z := by
        rw [h.along.1, h.along.2.1]
        refine hf.key.get ?_
        unfold frameItems
        rw [hleft, hright]
        simp [item, minKey_node hz]
      have hinto := hbody.intoRight hsnode.toBody hlt (minKey t z)
      rw [herase] at hinto
      have hkept := kept_setNode t q (innerIntoRight (t.node q) (t.node sp) (path.p (l + 1))
        (minKey t z))
      obtain ⟨hspq, hbelow⟩ := h.below hmem hkept (by simp)
      have hinto : Body (innerIntoRight (t.node q) (t.node sp) (path.p (l + 1)) (minKey t z))
          ((c :: cs ++ Y ++ z :: scs).map (item t)) := by
        rw [List.map_append]
        exact hinto
      have hsum : (c :: cs ++ Y ++ z :: scs).length = 31 := by
        rw [List.length_append, List.length_append, hlen, ← hslen, hpoor]
      have hnode := sub_node hkept.entry setNode_self hinto h.node.leaf h.node.level
        (by omega) (by omega) hbelow
      obtain ⟨hloose, hsubset⟩ :=
        h.toSite.right_up (.node q (c :: cs ++ Y ++ z :: scs)) [] hright hkept (by simp) rfl hnode
        (by
          unfold item
          rw [List.cons_append, List.cons_append, minKey_node hc, minKey_node hc]
          rfl)
        (by
          intro a
          simp only [ptrs_node, List.flatMap_append, List.flatMap_cons, List.append_nil,
            List.count_append, List.count_cons]
          omega)
      refine ⟨_, _, ?_, hkept, ?_, hloose, hsubset, by simp⟩
      · rw [deleteFromInnerNode]
        dsimp only
        rw [if_neg hc1, if_neg hc2, hhalf, hln, if_neg (by simp), hrn, if_neg (by omega),
          if_neg (by simp), if_pos hrnz, h.here, hkey]
      · intro p
        by_cases hpq : p = q
        · rw [hpq, setNode_self]
          rfl
        · rw [setNode_of_ne hpq]

end

/-- A node with more children than it needs. -/
theorem Loose.rich (h : Loose t path l fs q X x Y []) (hrich : 15 < (t.node q).count) :
    ∃ t' L T, deleteFromInnerNode (r + 1) t path (l + 1) = some t' ∧
      Settled t t' (q :: (X ++ Y).flatMap ptrs ++ framePtrs fs)
        (before fs ++ (X ++ Y).flatMap leaves ++ after fs) L T := by
  have hlen := h.node.count
  simp only [List.length_append, List.length_map, List.length_cons] at hlen
  refine ⟨_, _, _, ?_, h.erase ?_⟩
  · rw [deleteFromInnerNode]
    dsimp only
    rw [h.here, h.half, if_pos hrich]
  · unfold minChildren
    split_ifs
    · omega
    · omega

/-- The root. -/
theorem Loose.top (h : Loose t path l [] q X x Y []) (hpoor : ¬ 15 < (t.node q).count) :
    ∃ t' L T, deleteFromInnerNode (r + 1) t path (l + 1) = some t' ∧
      Settled t t' (q :: (X ++ Y).flatMap ptrs ++ framePtrs ([] : Place))
        ((X ++ Y).flatMap leaves) L T := by
  have hlevel : l + 1 = (t.node t.root).level := by
    rw [h.rootLevel]
    rfl
  have hroot : t.root = q := h.root
  have hleast : 2 ≤ (X.map (item t) ++ x :: Y.map (item t)).length := h.node.least
  rw [deleteFromInnerNode]
  dsimp only
  rw [h.here, h.half, if_neg hpoor, if_pos hlevel, hroot]
  by_cases hone : (t.node q).count = 1
  · obtain ⟨c, hchild, hsettled⟩ := h.shrink hone
    rw [if_pos hone, hchild]
    exact ⟨_, l, c, rfl, hsettled.mono (List.subset_append_left _ _)⟩
  · have hlen := h.node.count
    simp only [List.length_append, List.length_map, List.length_cons] at hlen hleast
    rw [if_neg hone]
    have hsettled := h.erase (show 2 ≤ _ by omega)
    rw [show before ([] : Place) = [] from rfl, show after ([] : Place) = [] from rfl,
      List.nil_append, List.append_nil] at hsettled
    exact ⟨_, _, _, rfl, hsettled⟩

/-- **Deletion of a child** that has been merged away. -/
theorem deleteFromInnerNode_spec (h : Loose t path l fs q X x Y []) (hr : fs.length < r) :
    ∃ t' L T, deleteFromInnerNode r t path (l + 1) = some t' ∧
      Settled t t' (q :: (X ++ Y).flatMap ptrs ++ framePtrs fs)
        (before fs ++ (X ++ Y).flatMap leaves ++ after fs) L T := by
  -- up along the frames; a merge leaves a parent with one child too many
  induction fs generalizing t path l q X x Y r with
  | nil =>
    obtain ⟨r, rfl⟩ := Nat.exists_eq_succ_of_ne_zero (Nat.ne_zero_of_lt hr)
    rw [show before ([] : Place) = [] from rfl, show after ([] : Place) = [] from rfl,
      List.nil_append, List.append_nil]
    by_cases hrich : 15 < (t.node q).count
    · have hrun := h.rich (r := r) hrich
      rw [show before ([] : Place) = [] from rfl, show after ([] : Place) = [] from rfl,
        List.nil_append, List.append_nil] at hrun
      exact hrun
    · exact h.top hrich
  | cons f fs ih =>
    obtain ⟨r, rfl⟩ := Nat.exists_eq_succ_of_ne_zero (Nat.ne_zero_of_lt hr)
    by_cases hrich : 15 < (t.node q).count
    · exact h.rich hrich
    have hcount : (t.node q).count = 15 := by
      have hlen := h.node.count
      have hleast : 16 ≤ _ := h.node.least
      omega
    -- a brother has at least as many children as it needs
    have hpoor : ∀ s ∈ f.left ++ f.right, ¬ 15 < (t.node s.ptr).count →
      (t.node s.ptr).count = 15 := by
      intro s hs hn
      have hsub := h.around.2.1 s hs
      cases s with
      | leaf sp es => exact hsub.elim
      | node sp scs =>
        have hlen := hsub.1.count
        have hleast : 16 ≤ _ := hsub.1.least
        rw [ptr_node] at hn ⊢
        omega
    have hmerge : ∀ (t₁ : Tree K V) path₁ X₁ x₁ Y₁ S, deleteFromInnerNode (r + 1) t path (l + 1) =
        deleteFromInnerNode r t₁ path₁ (l + 2) → Kept t t₁ S →
        S ⊆ q :: (X ++ Y).flatMap ptrs ++ framePtrs (f :: fs) →
        (∀ p, (t₁.node p).next = (t.node p).next) → Loose t₁ path₁ (l + 1) fs f.ptr X₁ x₁ Y₁ [] →
        f.ptr :: ((X₁ ++ Y₁).flatMap ptrs ++ []) ++ framePtrs fs ⊆
          q :: ((X ++ Y).flatMap ptrs ++ []) ++ framePtrs (f :: fs) →
        before fs ++ (X₁ ++ Y₁).flatMap leaves ++ after fs =
          before (f :: fs) ++ (X ++ Y).flatMap leaves ++ after (f :: fs) →
        ∃ t' L T, deleteFromInnerNode (r + 1) t path (l + 1) = some t' ∧
          Settled t t' (q :: (X ++ Y).flatMap ptrs ++ framePtrs (f :: fs))
            (before (f :: fs) ++ (X ++ Y).flatMap leaves ++ after (f :: fs)) L T := by
      intro t₁ path₁ X₁ x₁ Y₁ S hstep hkept hS hnext hloose hsubset hleaves
      obtain ⟨t', L, T, hrun, hsettled⟩ := ih hloose (Nat.lt_of_succ_lt_succ hr)
      rw [hleaves] at hsettled
      rw [List.append_nil, List.append_nil] at hsubset
      exact ⟨t', L, T, hstep.trans hrun, hsettled.after hkept hnext hS hsubset⟩
    obtain hleft | ⟨A, s, hleft⟩ := List.eq_nil_or_concat' f.left
    · -- the first child has a brother on the right
      have hln := h.left_nil hleft
      cases hright : f.right with
      | nil =>
        have hleast : 2 ≤ (frameItems t f (q, minKey t (.node q X))).length :=
          (two_le_minChildren _).trans h.around.1.least
        simp [frameItems, hleft, hright] at hleast
      | cons s B =>
        have hs : s ∈ f.left ++ f.right := by simp [hright]
        by_cases hsrich : 15 < (t.node s.ptr).count
        · exact h.borrow_right hcount (by simp [hln]) hright hsrich
        · obtain ⟨t₁, y, hstep, hkept, hnext, hloose, hsubset, hleaves⟩ :=
            h.merge_right (r := r) hcount hleft hright (hpoor s hs hsrich)
          have hM : [y].flatMap leaves = (X ++ Y).flatMap leaves ++ s.leaves := by
            simpa using hleaves
          exact hmerge _ _ _ _ _ _ hstep hkept (by simp) hnext hloose hsubset
            (right_leaves _ hright hM)
    · have hs : s ∈ f.left ++ f.right := by simp [hleft]
      obtain ⟨hln, hlnz⟩ := h.left_snoc hleft
      by_cases hsrich : 15 < (t.node s.ptr).count
      · exact h.borrow_left hcount hleft hsrich
      by_cases hrn : (t.node (path.n (l + 2))).right (path.p (l + 2)) ≠ 0 ∧
        (t.node ((t.node (path.n (l + 2))).right (path.p (l + 2)))).count > 15
      · cases hright : f.right with
        | nil => exact absurd (h.right_nil hright) hrn.1
        | cons s' B =>
          rw [(h.right_cons hright).1] at hrn
          refine h.borrow_right hcount ?_ hright hrn.2
          rw [hln]
          exact fun hr => hsrich hr.2
      · obtain ⟨t₁, s', hstep, hkept, hnext, hloose, hsubset, hleaves⟩ :=
          h.merge_left (r := r) hcount hleft (hpoor s hs hsrich) hrn
        have hM : [s'].flatMap leaves = s.leaves ++ (X ++ Y).flatMap leaves := by
          simpa using hleaves
        refine hmerge _ _ _ _ _ _ hstep hkept ?_ hnext hloose hsubset (left_leaves _ hleft hM)
        intro p hp
        rw [List.mem_singleton] at hp
        rw [hp]
        simp only [framePtrs, List.mem_append, List.mem_cons, List.mem_flatMap]
        exact .inr (.inr (.inl ⟨s, List.mem_append.1 hs, ptr_mem_ptrs s⟩))

end

end Bptree
