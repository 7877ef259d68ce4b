import DsAlgor.Bptree.DeleteInner

/-!
# Deletion of an entry from its leaf

`_deleteFromLeafNode`, after the keys above the leaf have been put right: the entry at the position
of the path goes, and a leaf that is as empty as it may be takes an entry from one of its brothers
or is merged with one of them (`Leaving.delete`).
-/

namespace Bptree

open CArray PtrTree

variable {K V : Type}

/-- A leaf whose entry `i` is to go. The keys above are those of the other entries. -/
structure Leaving (t : Tree K V) (path : PathInfo) (gs : Place) (p : Ptr) (es : List Ptr)
    (i : Nat) : Prop extends Site t path 0 gs p (minKey t (.leaf p (es.eraseIdx i))) [p] where
  leaf : LeafOk (t.node p) gs.isEmpty es
  pos : path.p 0 = i
  lt : i < es.length
  chain : Chain (fun q => (t.node q).next) t.min
    ((before gs).map Prod.fst ++ p :: (after gs).map Prod.fst) 0
  leafOrder : t.leafOrder = 64

section
variable {t t' : Tree K V} {path : PathInfo} {gs fs : Place} {f : Frame Ptr Ptr} {p sp : Ptr}
  {es ss ps : List Ptr} {i L : Nat} {A B : List Shape} {lv : List (Ptr × List Ptr)} {T : Shape}

theorem Settled.changed (h : Settled t t' ps lv L T) (hbound : ∀ q ∈ ps, 0 < q ∧ q < t.brk)
    (hchain : Chain (fun q => (t.node q).next) t.min (lv.map Prod.fst) 0) (hio : t.innerOrder = 32)
    (hlo : t.leafOrder = 64) : Changed t t' ps L T (lv.flatMap Prod.snd) where
  root := h.root
  sub := h.sub
  nodup := h.nodup
  bound := fun q hq => (hbound q (h.ptrs hq)).imp_right fun hlt => hlt.trans_le h.kept.brk
  chain := by
    rw [h.leaves, h.kept.min]
    exact hchain.congr fun q _ => h.next q
  innerOrder := h.kept.innerOrder.trans hio
  leafOrder := h.kept.leafOrder.trans hlo
  elems := by
    unfold PtrTree.elems
    rw [h.leaves]
  entry := h.kept.entry
  path := h.kept.path
  brk := h.kept.brk
  node := h.kept.node
  fresh := fun q hq => .inl (h.ptrs hq)

/-- `deleteFromLeafNodeMoreThanHalf`, also for the root. -/
theorem Leaving.erase (h : Leaving t path gs p es i) (hrich : gs ≠ [] → 32 < es.length) :
    Changed t (deleteFromLeafNodeMoreThanHalf t path) (p :: framePtrs gs) gs.length
      (plug gs (.leaf p (es.eraseIdx i)))
      ((before gs).flatMap Prod.snd ++ es.eraseIdx i ++ (after gs).flatMap Prod.snd) := by
  have hlen : (es.eraseIdx i).length = es.length - 1 := by rw [List.length_eraseIdx, if_pos h.lt]
  have hmost := h.leaf.most
  unfold deleteFromLeafNodeMoreThanHalf
  rw [h.here, h.pos]
  refine h.toSite.changed ⟨h.leaf.toEntries.eraseEntry h.lt, h.leaf.leaf, h.leaf.level, ?_, ?_⟩ rfl
    rfl h.chain h.leafOrder
  · cases gs with
    | nil => exact Nat.zero_le _
    | cons f fs =>
      have hlt := hrich (List.cons_ne_nil _ _)
      show 32 ≤ _
      omega
  · omega

/-- The brother is another leaf. -/
theorem Leaving.brother (h : Leaving t path (f :: fs) p es i)
    (hs : .leaf sp ss ∈ f.left ++ f.right) :
    sp ≠ p ∧ LeafOk (t.node sp) false ss := by
  have hp : p ∉ framePtrs (f :: fs) := (List.nodup_cons.1 h.nodup).1
  refine ⟨?_, h.around.2.1 _ hs⟩
  intro heq
  apply hp
  rw [← heq, framePtrs, List.mem_cons, List.mem_append]
  exact .inr (.inl (List.mem_flatMap.2 ⟨_, hs, ptr_mem_ptrs _⟩))

theorem Leaving.half (h : Leaving t path gs p es i) : t.leafOrder >>> 1 = 32 := by
  rw [h.leafOrder]
  rfl

theorem Leaving.chain_nodup (h : Leaving t path gs p es i) :
    ((before gs).map Prod.fst ++ p :: (after gs).map Prod.fst).Nodup := by
  refine List.nodup_iff_count_le_one.2 fun a => ?_
  have hone := List.nodup_iff_count_le_one.1 h.nodup a
  have hcount := count_framePtrs gs a
  simp only [List.map_append, List.count_append, List.count_cons, List.count_nil] at hone hcount ⊢
  omega

/-- The lengths of a leaf that is as empty as it may be. -/
theorem Leaving.length (h : Leaving t path (f :: fs) p es i) (hpoor : es.length = 32) :
    (es.eraseIdx i).length = 31 := by
  rw [List.length_eraseIdx, if_pos h.lt, hpoor]

/-- What a leaf that took an entry and its brother leave as it was. -/
structure Traded (t t₂ : Tree K V) (p sp : Ptr) (n m : Node K) : Prop where
  kept : Kept t t₂ [p, sp]
  root : t₂.root = t.root
  node : t₂.node p = n
  brother : t₂.node sp = m
  next : ∀ q, (t₂.node q).next = (t.node q).next

theorem traded (t : Tree K V) (hne : sp ≠ p) {n m : Node K} (hn : n.next = (t.node p).next)
    (hm : m.next = (t.node sp).next) : Traded t ((t.setNode p n).setNode sp m) p sp n m where
  kept := (kept_setNode t p n).trans (kept_setNode _ sp m)
  root := rfl
  node := by rw [setNode_of_ne hne.symm, setNode_self]
  brother := setNode_self
  next := fun q => by
    by_cases hqs : q = sp
    · rw [hqs, setNode_self, hm]
    rw [setNode_of_ne hqs]
    by_cases hqp : q = p
    · rw [hqp, setNode_self, hn]
    · rw [setNode_of_ne hqp]

/-- `distribute_or_merge_leaf_node` takes the entry `i` out of the leaf. -/
abbrev Distributes (t : Tree K V) (path : PathInfo) (fs : Place) (p : Ptr) (es : List Ptr)
    (i : Nat) : Prop :=
  ∃ t' L T, distributeOrMergeLeafNode t path = some t' ∧ t'.count = t.count ∧
    Changed t t' (p :: framePtrs fs) L T
      ((before fs).flatMap Prod.snd ++ es.eraseIdx i ++ (after fs).flatMap Prod.snd)

theorem Leaving.borrow_left (h : Leaving t path (f :: fs) p es i) (hpoor : es.length = 32)
    (hleft : f.left = A ++ [.leaf sp ss]) (hrich : 32 < (t.node sp).count) :
    Distributes t path (f :: fs) p es i := by
  obtain ⟨hln, hlnz⟩ := h.left_snoc hleft
  rw [ptr_leaf] at hln hlnz
  obtain ⟨hspp, hs⟩ := h.brother (show .leaf sp ss ∈ f.left ++ f.right by simp [hleft])
  have hlen := h.length hpoor
  have hslen := hs.count
  have hsmost := hs.most
  -- the last entry of the brother
  obtain rfl | ⟨ss, x, rfl⟩ := List.eq_nil_or_concat' ss
  · rw [hslen] at hrich
    cases hrich
  rw [List.length_append, List.length_singleton] at hslen hsmost
  have htraded := traded t hspp
    (n := leafFromLeft (t.node p) (t.node sp) i)
    (m := { t.node sp with count := (t.node sp).count - 1 }) rfl rfl
  generalize ht₂ : (t.setNode p (leafFromLeft (t.node p) (t.node sp) i)).setNode sp
    { t.node sp with count := (t.node sp).count - 1 } = t₂ at htraded
  have hbrother : Sub t₂ false 0 (.leaf sp ss) :=
    sub_leaf htraded.brother hs.toEntries.dropLast hs.leaf hs.level (by omega) (by omega)
  have hnode : Sub t₂ false 0 (.leaf p (x :: es.eraseIdx i)) := by
    refine sub_leaf htraded.node (h.leaf.toEntries.fromLeft hs.toEntries h.lt) h.leaf.leaf
      h.leaf.level ?_ ?_
    · rw [List.length_cons, hlen]
    · rw [List.length_cons, hlen]
      decide
  obtain ⟨t', L, T, hrun, hsettled⟩ :=
    h.toSite.borrow_left (.leaf sp ss) (.leaf p (x :: es.eraseIdx i)) hleft htraded.kept (by simp)
      htraded.root htraded.next hbrother
    (by
      unfold item minKey
      rw [elems_leaf, elems_leaf]
      cases ss with
      | nil => simp at hslen; omega
      | cons y ys => rfl)
    hnode rfl
    (by
      intro a
      simp only [ptrs_leaf, List.count_append]
      omega)
  have hchanged := hsettled.changed (fun q hq => h.bound q hq)
    (by
      have hchain := h.chain
      simp only [before, after, hleft] at hchain
      simpa using hchain) h.innerOrder h.leafOrder
  refine ⟨t', L, T, ?_, hsettled.kept.count, ?_⟩
  · unfold distributeOrMergeLeafNode
    dsimp only
    rw [hln, h.half, if_pos ⟨hlnz, hrich⟩, h.here, h.pos, ← hrun]
    rw [setNode_of_ne hspp, ← ht₂]
  · simp only [before, after, hleft]
    simpa using hchanged

theorem Leaving.borrow_right (h : Leaving t path (f :: fs) p es i) (hpoor : es.length = 32)
    (hln : ¬ ((t.node (path.n 1)).left (path.p 1) ≠ 0 ∧
    (t.node ((t.node (path.n 1)).left (path.p 1))).count > 32))
    (hright : f.right = .leaf sp ss :: B) (hrich : 32 < (t.node sp).count) :
    Distributes t path (f :: fs) p es i := by
  obtain ⟨hrn, hrnz⟩ := h.right_cons hright
  rw [ptr_leaf] at hrn hrnz
  obtain ⟨hspp, hs⟩ := h.brother (show .leaf sp ss ∈ f.left ++ f.right by simp [hright])
  have hlen := h.length hpoor
  have hslen := hs.count
  have hsmost := hs.most
  -- the first entry of the brother
  cases ss with
  | nil =>
    rw [hslen] at hrich
    cases hrich
  | cons x ss =>
    rw [List.length_cons] at hslen hsmost
    have htraded := traded t hspp (n := leafFromRight (t.node p) (t.node sp) i)
      (m := (t.node sp).dropFirstEntry) rfl rfl
    generalize ht₂ : (t.setNode p (leafFromRight (t.node p) (t.node sp) i)).setNode sp
      (t.node sp).dropFirstEntry = t₂ at htraded
    have hnode : Sub t₂ false 0 (.leaf p (es.eraseIdx i ++ [x])) := by
      refine sub_leaf htraded.node (h.leaf.toEntries.fromRight hs.toEntries h.lt) h.leaf.leaf
        h.leaf.level ?_ ?_
      · rw [List.length_append, hlen, List.length_singleton]
      · rw [List.length_append, hlen, List.length_singleton]
        decide
    have hbrother : Sub t₂ false 0 (.leaf sp ss) :=
      sub_leaf htraded.brother hs.toEntries.dropFirstEntry hs.leaf hs.level (by omega) (by omega)
    obtain ⟨t', L, T, hrun, hsettled⟩ :=
      h.toSite.borrow_right (.leaf p (es.eraseIdx i ++ [x])) (.leaf sp ss) hright htraded.kept
        (by simp) htraded.root htraded.next hnode
      (by
        unfold item minKey
        rw [elems_leaf, elems_leaf]
        cases hes : es.eraseIdx i with
        | nil =>
          rw [hes] at hlen
          cases hlen
        | cons y ys => rfl)
      hbrother rfl
      (by
        intro a
        simp only [ptrs_leaf, List.count_append]
        omega)
    have hchanged := hsettled.changed (fun q hq => h.bound q hq)
      (by
        have hchain := h.chain
        simp only [before, after, hright] at hchain
        simpa using hchain) h.innerOrder h.leafOrder
    refine ⟨t', L, T, ?_, hsettled.kept.count, ?_⟩
    · unfold distributeOrMergeLeafNode
      dsimp only
      rw [h.half, if_neg hln, hrn, if_pos ⟨hrnz, hrich⟩, h.here, h.pos, ← hrun]
      rw [setNode_of_ne hspp, ← ht₂]
    · simp only [before, after, hright]
      simpa using hchanged

/-- The parent loses the leaf that has been merged away. -/
theorem Settled.merged {t₁ : Tree K V} (hk : Kept t t₁ ps) (hps : ps ⊆ p :: framePtrs gs)
    (hbound : ∀ q ∈ p :: framePtrs gs, 0 < q ∧ q < t.brk)
    (h : Settled t₁ t' (p :: framePtrs gs) lv L T)
    (hchain : Chain (fun q => (t₁.node q).next) t₁.min (lv.map Prod.fst) 0)
    (hio : t.innerOrder = 32)
    (hlo : t.leafOrder = 64) :
    t'.count = t.count ∧ Changed t t' (p :: framePtrs gs) L T (lv.flatMap Prod.snd) := by
  have hbound₁ : ∀ q ∈ p :: framePtrs gs, 0 < q ∧ q < t₁.brk := fun q hq =>
    (hbound q hq).imp_right fun hlt => hlt.trans_le hk.brk
  have hchanged := h.changed hbound₁ hchain (hk.innerOrder.trans hio) (hk.leafOrder.trans hlo)
  refine ⟨h.kept.count.trans hk.count, hchanged.toBuilt, hchanged.elems,
    hchanged.entry.trans hk.entry, hchanged.path.trans hk.path, hk.brk.trans hchanged.brk, ?_,
    fun q hq => .inl (h.ptrs hq)⟩
  intro q hlt hq
  rw [hchanged.node q (hlt.trans_le hk.brk) hq]
  exact hk.node q hlt fun hm => hq (hps hm)

theorem Leaving.merge_left (h : Leaving t path (f :: fs) p es i) (hpoor : es.length = 32)
    (hleft : f.left = A ++ [.leaf sp ss]) (hspoor : (t.node sp).count = 32)
    (hrn : ¬ ((t.node (path.n 1)).right (path.p 1) ≠ 0 ∧
    (t.node ((t.node (path.n 1)).right (path.p 1))).count > 32)) :
    Distributes t path (f :: fs) p es i := by
  obtain ⟨hln, hlnz⟩ := h.left_snoc hleft
  rw [ptr_leaf] at hln hlnz
  obtain ⟨hspp, hs⟩ := h.brother (show .leaf sp ss ∈ f.left ++ f.right by simp [hleft])
  have hlen := h.length hpoor
  have hslen := hs.count
  have hkept := kept_setNode t sp (leafIntoLeft (t.node p) (t.node sp) i)
  have hsum : (ss ++ es.eraseIdx i).length = 63 := by
    rw [List.length_append, hlen, ← hslen, hspoor]
  have hnode : Sub (t.setNode sp (leafIntoLeft (t.node p) (t.node sp) i)) false 0
      (.leaf sp (ss ++ es.eraseIdx i)) :=
    sub_leaf setNode_self (h.leaf.toEntries.intoLeft hs.toEntries h.lt) hs.leaf hs.level
      (by omega) (by omega)
  obtain ⟨hloose, hsubset⟩ := h.toSite.left_up (.leaf sp (ss ++ es.eraseIdx i)) [] hleft hkept
    (by simp) rfl hnode
    (by
      unfold item minKey
      rw [elems_leaf, elems_leaf]
      cases ss with
      | nil =>
        rw [hslen] at hspoor
        cases hspoor
      | cons y ys => rfl)
    (by
      intro a
      simp only [ptrs_leaf, List.append_nil, List.count_append]
      omega)
  obtain ⟨t', L, T, hrun, hsettled⟩ := deleteFromInnerNode_spec
    (r := (t.setNode sp (leafIntoLeft (t.node p) (t.node sp) i)).height) hloose (by
      unfold Tree.height
      rw [hloose.rootLevel]
      omega)
  rw [List.append_nil] at hsubset
  have hmerged := (hsettled.mono hsubset).merged hkept
    (by
      intro q hq
      rw [List.mem_singleton] at hq
      rw [hq, framePtrs]
      refine List.mem_cons_of_mem _
        (List.mem_cons_of_mem _ (List.mem_append_left _ (List.mem_flatMap.2 ?_)))
      exact ⟨.leaf sp ss, by simp [hleft], ptr_mem_ptrs _⟩)
    (fun q hq => h.bound q hq)
    (by
      have hchain := h.chain
      have hnodup := h.chain_nodup
      simp only [before, after, hleft, List.flatMap_append, List.flatMap_cons,
        List.flatMap_nil, leaves_leaf, List.map_append, List.map_cons, List.map_nil,
        List.append_assoc, List.cons_append, List.nil_append]
        at hchain hnodup ⊢
      rw [← List.append_assoc] at hchain hnodup ⊢
      refine hchain.remove_after hnodup ?_ fun q hq hqs => ?_
      · rw [setNode_self]
        rfl
      · rw [setNode_of_ne hqs]) h.innerOrder h.leafOrder
  refine ⟨t', L, T, ?_, hmerged.1, ?_⟩
  · unfold distributeOrMergeLeafNode
    dsimp only
    rw [hln, h.half, if_neg (by omega), if_neg hrn, if_pos hlnz, h.here, h.pos]
    exact hrun
  · simp only [before, after, hleft]
    simpa using hmerged.2

theorem Leaving.merge_right (h : Leaving t path (f :: fs) p es i) (hpoor : es.length = 32)
    (hleft : f.left = []) (hright : f.right = .leaf sp ss :: B) (hspoor : (t.node sp).count = 32) :
    Distributes t path (f :: fs) p es i := by
  obtain ⟨hrn, hrnz⟩ := h.right_cons hright
  rw [ptr_leaf] at hrn hrnz
  have hln := h.left_nil hleft
  obtain ⟨hspp, hs⟩ := h.brother (show .leaf sp ss ∈ f.left ++ f.right by simp [hright])
  have hlen := h.length hpoor
  have hslen := hs.count
  have hss : ss ≠ [] := by
    intro hnil
    rw [hnil] at hslen
    rw [hslen] at hspoor
    cases hspoor
  have hkept := kept_setNode t p (leafIntoRight (t.node p) (t.node sp) i)
  have hsum : (es.eraseIdx i ++ ss).length = 63 := by
    rw [List.length_append, hlen, ← hslen, hspoor]
  have hnode : Sub (t.setNode p (leafIntoRight (t.node p) (t.node sp) i)) false 0
      (.leaf p (es.eraseIdx i ++ ss)) :=
    sub_leaf setNode_self (h.leaf.toEntries.intoRight hs.toEntries h.lt hss) h.leaf.leaf
      h.leaf.level (by omega) (by omega)
  obtain ⟨hloose, hsubset⟩ := h.toSite.right_up (.leaf p (es.eraseIdx i ++ ss)) [] hright hkept
    (by simp) rfl hnode
    (by
      unfold item minKey
      rw [elems_leaf, elems_leaf]
      cases hes : es.eraseIdx i with
      | nil =>
        rw [hes] at hlen
        cases hlen
      | cons y ys => rfl)
    (by
      intro a
      simp only [ptrs_leaf, List.append_nil, List.count_append]
      omega)
  obtain ⟨t', L, T, hrun, hsettled⟩ := deleteFromInnerNode_spec
    (r := (t.setNode p (leafIntoRight (t.node p) (t.node sp) i)).height) hloose (by
      unfold Tree.height
      rw [hloose.rootLevel]
      omega)
  rw [List.append_nil] at hsubset
  have hmerged := (hsettled.mono hsubset).merged hkept (by simp) (fun q hq => h.bound q hq)
    (by
      have hchain := h.chain
      have hnodup := h.chain_nodup
      simp only [before, after, hright, List.flatMap_append, List.flatMap_cons, leaves_leaf,
        List.map_append, List.map_cons, List.append_assoc, List.cons_append,
        List.nil_append] at hchain hnodup ⊢
      rw [← List.append_assoc] at hchain hnodup ⊢
      refine hchain.remove_after hnodup ?_ fun q hq hqs => ?_
      · rw [setNode_self]
        rfl
      · rw [setNode_of_ne hqs]) h.innerOrder h.leafOrder
  refine ⟨t', L, T, ?_, hmerged.1, ?_⟩
  · unfold distributeOrMergeLeafNode
    dsimp only
    rw [hln, h.half, if_neg (by simp), hrn, if_neg (by omega), if_neg (by simp), if_pos hrnz,
      h.here, h.pos]
    exact hrun
  · simp only [before, after, hright]
    simpa using hmerged.2

/-- **Deletion of an entry** from a leaf that is as empty as it may be. -/
theorem Leaving.distribute (h : Leaving t path (f :: fs) p es i) (hpoor : es.length = 32) :
    Distributes t path (f :: fs) p es i := by
  -- a brother is a leaf with at least as many entries as it needs
  have hbrother : ∀ s ∈ f.left ++ f.right, ∃ sp ss, s = .leaf sp ss ∧
      (¬ 32 < (t.node sp).count → (t.node sp).count = 32) := by
    intro s hs
    have hsub := h.around.2.1 s hs
    cases s with
    | node sp scs => exact hsub.elim
    | leaf sp ss =>
      refine ⟨sp, ss, rfl, fun hn => ?_⟩
      have hcount := (LeafOk.toEntries hsub).count
      have hleast : 32 ≤ ss.length := LeafOk.least hsub
      omega
  obtain hleft | ⟨A, s, hleft⟩ := List.eq_nil_or_concat' f.left
  · have hln := h.left_nil hleft
    cases hright : f.right with
    | nil =>
      have hleast : 2 ≤ (frameItems t f (p, minKey t (.leaf p (es.eraseIdx i)))).length :=
        (two_le_minChildren _).trans h.around.1.least
      simp [frameItems, hleft, hright] at hleast
    | cons s B =>
      obtain ⟨sp, ss, rfl, hspoor⟩ := hbrother s (by simp [hright])
      by_cases hrich : 32 < (t.node sp).count
      · exact h.borrow_right hpoor (by simp [hln]) hright hrich
      · exact h.merge_right hpoor hleft hright (hspoor hrich)
  · obtain ⟨sp, ss, rfl, hspoor⟩ := hbrother s (by simp [hleft])
    obtain ⟨hln, hlnz⟩ := h.left_snoc hleft
    by_cases hrich : 32 < (t.node sp).count
    · exact h.borrow_left hpoor hleft hrich
    by_cases hrn : (t.node (path.n 1)).right (path.p 1) ≠ 0 ∧
      (t.node ((t.node (path.n 1)).right (path.p 1))).count > 32
    · cases hright : f.right with
      | nil => exact absurd (h.right_nil hright) hrn.1
      | cons s' B =>
        obtain ⟨sp', ss', rfl, -⟩ := hbrother s' (by simp [hright])
        rw [(h.right_cons hright).1] at hrn
        refine h.borrow_right hpoor ?_ hright hrn.2
        rw [hln]
        exact fun hr => hrich hr.2
    · exact h.merge_left hpoor hleft (hspoor hrich) hrn

/-- What `_deleteFromLeafNode` does after `_removeKeyInPath`. -/
theorem Leaving.delete (h : Leaving t path gs p es i) :
    ∃ t' L T, (if (t.node (path.n 0)).count > t.leafOrder >>> 1 ∨ (t.node t.root).level = 0 then
        some (deleteFromLeafNodeMoreThanHalf t path) else distributeOrMergeLeafNode t path) =
          some t' ∧
      t'.count = t.count ∧ Changed t t' (p :: framePtrs gs) L T
        ((before gs).flatMap Prod.snd ++ es.eraseIdx i ++ (after gs).flatMap Prod.snd) := by
  rw [h.half, h.here, h.leaf.count, h.rootLevel, Nat.zero_add]
  by_cases hrich : es.length > 32 ∨ gs.length = 0
  · rw [if_pos hrich]
    refine ⟨_, _, _, rfl, rfl, h.erase fun hgs => ?_⟩
    exact hrich.resolve_right fun hnil => hgs (List.length_eq_zero_iff.1 hnil)
  · rw [if_neg hrich]
    rw [not_or] at hrich
    cases gs with
    | nil => exact absurd rfl hrich.2
    | cons f fs =>
      have hleast : 32 ≤ es.length := h.leaf.least
      exact h.distribute (by omega)

end

end Bptree
