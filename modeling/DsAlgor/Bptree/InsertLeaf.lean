import DsAlgor.Bptree.Insert

/-!
# Insertion of an entry into its leaf

`_insertIntoLeafNode` puts an entry into the leaf to which the path leads, at the position the path
says (`insertIntoLeafNode_spec`). Where the entry becomes the first of the leaf, the keys above have
to be right already.
-/

namespace Bptree

open CArray PtrTree

variable {K V : Type}

/-- What an operation on the tree with the nodes `ps` does: afterwards the tree `T` holds the
entries `es`. -/
structure Changed (t t' : Tree K V) (ps : List Ptr) (L : Nat) (T : Shape) (es : List Ptr) :
    Prop extends Built t' L T where
  elems : T.elems = es
  entry : t'.entry = t.entry
  path : t'.path = t.path
  brk : t.brk ≤ t'.brk
  node : ∀ p < t.brk, p ∉ ps → t'.node p = t.node p
  fresh : ∀ p ∈ T.ptrs, p ∈ ps ∨ t.brk ≤ p

section
variable {t : Tree K V} {path : PathInfo} {L l i : Nat} {T : Shape} {gs : Place} {p e : Ptr}
  {es : List Ptr}

/-! ## The leaf in the tree -/

section
variable (h : Placed t T path gs p es)
include h

theorem Placed.perm : T.ptrs.Perm (p :: framePtrs gs) := by
  rw [← h.plugged]
  exact ptrs_plug gs (.leaf p es)

theorem Placed.elems :
    T.elems = (before gs).flatMap Prod.snd ++ es ++ (after gs).flatMap Prod.snd := by
  rw [← h.plugged, elems_plug, elems_leaf]

theorem Placed.nodup (hb : Built t L T) : (p :: framePtrs gs).Nodup :=
  h.perm.nodup_iff.1 hb.nodup

theorem Placed.mem : p ∈ T.ptrs := h.perm.mem_iff.2 List.mem_cons_self

theorem Placed.frame_bound (hb : Built t L T) {q : Ptr} (hq : q ∈ framePtrs gs) :
    q < t.brk ∧ q ∉ [p] := by
  refine ⟨(hb.bound q (h.perm.mem_iff.2 (List.mem_cons_of_mem _ hq))).2, ?_⟩
  rw [List.mem_singleton]
  intro heq
  exact (List.nodup_cons.1 (h.nodup hb)).1 (heq ▸ hq)

theorem Placed.root (hb : Built t L T) (es' : List Ptr) : t.root = (plug gs (.leaf p es')).ptr := by
  have hptr : (PtrTree.leaf p es).ptr = (PtrTree.leaf p es').ptr := rfl
  rw [hb.root, ← h.plugged]
  exact ptr_plug hptr gs

/-- The chain of the leaves around the leaf. -/
theorem Placed.chain (hb : Built t L T) : Chain (fun q => (t.node q).next) t.min
      ((before gs).map Prod.fst ++ p :: (after gs).map Prod.fst) 0 := by
  have hchain := hb.chain
  rw [← h.plugged, leaves_plug] at hchain
  simpa using hchain

theorem Placed.chain_nodup (hb : Built t L T) :
    ((before gs).map Prod.fst ++ p :: (after gs).map Prod.fst).Nodup := by
  have hnodup := (leaves_sublist T).nodup hb.nodup
  rw [← h.plugged, leaves_plug] at hnodup
  simpa using hnodup

/-- The place of the leaf, where the leaf is to hold `es'`. -/
theorem Placed.site (hb : Built t L T) {es' : List Ptr}
    (haround : Around t 0 gs (item t (.leaf p es'))) :
    Site t path 0 gs p (minKey t (.leaf p es')) [p] where
  around := haround
  along := h.along
  here := h.here
  own := List.mem_singleton_self p
  level := h.leaf.level
  nodup := h.nodup hb
  bound := fun q hq => hb.bound q (h.perm.mem_iff.2 hq)
  root := h.root hb []
  innerOrder := hb.innerOrder

end

/-- An operation on the leaf alone. -/
theorem Site.changed {k : K} (h : Site t path 0 gs p k [p]) {n : Node K}
    (hn : LeafOk n gs.isEmpty es) (hk : minKey t (.leaf p es) = k)
    (hnext : n.next = (t.node p).next)
    (hchain : Chain (fun q => (t.node q).next) t.min
    ((before gs).map Prod.fst ++ p :: (after gs).map Prod.fst) 0)
    (hlo : t.leafOrder = 64) :
    Changed t (t.setNode p n) (p :: framePtrs gs) gs.length (plug gs (.leaf p es))
      ((before gs).flatMap Prod.snd ++ es ++ (after gs).flatMap Prod.snd) := by
  have hkept := kept_setNode t p n
  have hperm : (plug gs (.leaf p es)).ptrs.Perm (p :: framePtrs gs) := ptrs_plug gs (.leaf p es)
  have hptr : (PtrTree.leaf p [] : Shape).ptr = (PtrTree.leaf p es : Shape).ptr := rfl
  refine ⟨⟨h.root.trans (ptr_plug hptr gs), ?_, hperm.nodup_iff.2 h.nodup, ?_, ?_, h.innerOrder,
    hlo⟩, ?_, rfl, rfl, le_rfl, ?_, ?_⟩
  · have hsub : Sub (t.setNode p n) gs.isEmpty 0 (.leaf p es) := by
      show LeafOk _ _ _
      rw [setNode_self]
      exact hn
    rw [← Nat.zero_add gs.length]
    refine Around.plugged ?_ hsub ?_
    · unfold item
      rw [minKey_of_entry hkept.entry, hk]
      refine h.around.kept hkept fun q hq => ⟨(h.bound q (List.mem_cons_of_mem _ hq)).2, ?_⟩
      rw [List.mem_singleton]
      intro heq
      exact (List.nodup_cons.1 h.nodup).1 (heq ▸ hq)
    · intro hgs hnil
      have hleast := hn.least
      rw [elems_leaf] at hnil
      rw [hnil, List.isEmpty_eq_false_iff.2 hgs] at hleast
      cases hleast
  · intro q hq
    exact h.bound q (hperm.mem_iff.1 hq)
  · rw [leaves_plug]
    simp only [List.map_append, leaves_leaf, List.map_cons, List.append_assoc, List.cons_append,
      List.nil_append]
    refine hchain.congr fun q _ => ?_
    by_cases hq : q = p
    · rw [hq]
      rw [setNode_self, hnext]
    · rw [setNode_of_ne hq]
  · rw [elems_plug, elems_leaf]
  · intro q _ hq
    refine setNode_of_ne ?_
    intro heq
    exact hq (heq ▸ List.mem_cons_self)
  · intro q hq
    exact .inl (hperm.mem_iff.1 hq)

theorem Changed.perm {t t' : Tree K V} {ps qs : List Ptr} (h : Changed t t' ps L T es)
    (hp : ps.Perm qs) :
    Changed t t' qs L T es :=
  { h with
    node := fun p hlt hn => h.node p hlt fun hm => hn (hp.mem_iff.1 hm)
    fresh := fun p hm => (h.fresh p hm).imp_left hp.mem_iff.1 }

/-! ## A leaf with room -/

theorem insertIntoLeafNode_of_root (h : t.root ≠ 0) :
    insertIntoLeafNode t path e =
      (if (t.node (path.n 0)).count = t.leafOrder - 1 then insertSpiltLeafNode t path e
        else some (insertIntoLeafNodeNotFull t path e)).map fun t =>
          { t with count := t.count + 1 } := by
  unfold insertIntoLeafNode
  rw [if_neg h]
  dsimp only
  split_ifs
  · cases insertSpiltLeafNode t path e with
    | none => rfl
    | some t' => rfl
  · rfl

theorem Changed.count {t t' : Tree K V} {ps : List Ptr} (h : Changed t t' ps L T es)
    (c : BitVec 64) :
    Changed t { t' with count := c } ps L T es where
  root := h.root
  sub := h.sub.congr (fun _ _ => rfl) fun _ _ => rfl
  nodup := h.nodup
  bound := h.bound
  chain := h.chain
  innerOrder := h.innerOrder
  leafOrder := h.leafOrder
  elems := h.elems
  entry := h.entry
  path := h.path
  brk := h.brk
  node := h.node
  fresh := h.fresh

theorem Placed.insert_notFull (h : Placed t T path gs p es) (hb : Built t L T)
    (hlen : es.length ≠ 63) (hi : path.p 0 = i) (hle : i ≤ es.length)
    (haround : Around t 0 gs (item t (.leaf p (es.insertIdx i e)))) :
    Changed t (insertIntoLeafNodeNotFull t path e) T.ptrs gs.length
      (plug gs (.leaf p (es.insertIdx i e)))
      ((before gs).flatMap Prod.snd ++ es.insertIdx i e ++ (after gs).flatMap Prod.snd) := by
  have hmost := h.leaf.most
  have hleast := h.leaf.least
  have hlength : (es.insertIdx i e).length = es.length + 1 := by
    rw [List.length_insertIdx, if_pos hle]
  unfold insertIntoLeafNodeNotFull
  rw [h.here, hi]
  refine ((h.site hb haround).changed ⟨h.leaf.toEntries.insertEntry hle e, h.leaf.leaf,
    h.leaf.level, ?_, ?_⟩ rfl rfl (h.chain hb) hb.leafOrder).perm h.perm.symm
  · omega
  · omega

/-! ## A full leaf -/

/-- The heap after the leaf has been divided. -/
theorem insertSpiltLeafNode_eq (hn : path.n 0 = p) (hp : p ≠ t.brk) (ho : t.leafOrder = 64) :
    insertSpiltLeafNode t path e =
      let r := spiltLeafNode (t.node p)
        { (t.node t.brk).cleared (t.node p).leaf with level := (t.node p).level } 64 32 (path.p 0) e
      let t' := ((t.allocateNode (t.node p).leaf).2.setNode t.brk
        { r.2 with next := r.1.next }).setNode p { r.1 with next := t.brk }
      insertIntoInnerNode t'.height t' path t.brk (t.key (r.2.entries 0)) := by
  unfold insertSpiltLeafNode
  dsimp only
  rw [hn, allocateNode_fst, allocateNode_of_ne hp, allocateNode_self, ho]
  rfl

theorem spiltLeafNode_kind (n nn : Node K) (order half q : Nat) (e : Ptr) :
    ((spiltLeafNode n nn order half q e).1.leaf = n.leaf ∧
    (spiltLeafNode n nn order half q e).1.level = n.level ∧
    (spiltLeafNode n nn order half q e).1.next = n.next) ∧
    (spiltLeafNode n nn order half q e).2.leaf = nn.leaf ∧
    (spiltLeafNode n nn order half q e).2.level = nn.level := by
  unfold spiltLeafNode
  split_ifs
  · exact ⟨⟨rfl, rfl, rfl⟩, rfl, rfl⟩
  · exact ⟨⟨rfl, rfl, rfl⟩, rfl, rfl⟩

/-- The heap `t₁`, where the leaf `p` has been divided and the second half of its entries is in a
new leaf. -/
structure Spilt (t t₁ : Tree K V) (p : Ptr) (es : List Ptr) : Prop where
  kept : Kept t t₁ [p]
  brk : t₁.brk = t.brk + 1
  root : t₁.root = t.root
  left : LeafOk (t₁.node p) false (es.take 32)
  right : LeafOk (t₁.node t.brk) false (es.drop 32)
  next : (t₁.node p).next = t.brk
  behind : (t₁.node t.brk).next = (t.node p).next
  other : ∀ q, q ≠ p → q ≠ t.brk → t₁.node q = t.node q

/-- The leaf is divided, then the key of the new one goes up. -/
theorem Placed.divide (h : Placed t T path gs p es) (hb : Built t L T) (hlen : es.length = 63)
    (hi : path.p 0 = i) (hle : i ≤ es.length) :
    ∃ t₁, Spilt t t₁ p (es.insertIdx i e) ∧ insertSpiltLeafNode t path e =
      insertIntoInnerNode t₁.height t₁ path t.brk
        (minKey t₁ (.leaf t.brk ((es.insertIdx i e).drop 32))) := by
  have hpne : p ≠ t.brk := ne_of_lt (hb.bound p h.mem).2
  have hlength : (es.insertIdx i e).length = 64 := by rw [List.length_insertIdx, if_pos hle, hlen]
  rw [insertSpiltLeafNode_eq h.here hpne hb.leafOrder, hi]
  have hkind := spiltLeafNode_kind (t.node p)
    { (t.node t.brk).cleared (t.node p).leaf with level := (t.node p).level } 64 32 i e
  have hdiv := h.leaf.toEntries.spiltLeafNode (show es.length + 1 = 2 * 32 by omega) hle
    { (t.node t.brk).cleared (t.node p).leaf with level := (t.node p).level } e
  generalize spiltLeafNode (t.node p)
    { (t.node t.brk).cleared (t.node p).leaf with level := (t.node p).level } 64 32 i e =
        r at hkind hdiv ⊢
  dsimp only
  obtain ⟨hleft, hright⟩ := hdiv
  obtain ⟨⟨hleaf, hlev, hnext⟩, hleaf', hlev'⟩ := hkind
  obtain ⟨t₁, ht₁⟩ : ∃ t₁,
    t₁ = ((t.allocateNode (t.node p).leaf).2.setNode t.brk { r.2 with next := r.1.next }).setNode p
    { r.1 with next := t.brk } := ⟨_, rfl⟩
  rw [← ht₁]
  have hold : t₁.node p = { r.1 with next := t.brk } := by
    rw [ht₁, setNode_self]
  have hnew : t₁.node t.brk = { r.2 with next := r.1.next } := by
    rw [ht₁, setNode_of_ne hpne.symm, setNode_self]
  have hother : ∀ q, q ≠ p → q ≠ t.brk → t₁.node q = t.node q := by
    intro q hqp hqb
    rw [ht₁, setNode_of_ne hqp, setNode_of_ne hqb, allocateNode_of_ne hqb]
  have hkept : Kept t t₁ [p] := by
    have h1 := ((kept_allocateNode t (t.node p).leaf).trans
      (kept_setNode _ t.brk { r.2 with next := r.1.next })).trans
      (kept_setNode _ p { r.1 with next := t.brk })
    rw [← ht₁] at h1
    exact { h1 with node := fun q hq hqp => hother q (by simpa using hqp) (ne_of_lt hq) }
  refine ⟨t₁, ⟨hkept, ?_, ?_, ?_, ?_, ?_, ?_, hother⟩, ?_⟩
  · rw [ht₁]
    rfl
  · rw [ht₁]
    rfl
  · rw [hold]
    refine ⟨⟨hleft.count, hleft.entry⟩, hleaf.trans h.leaf.leaf, hlev.trans h.leaf.level, ?_, ?_⟩
    · rw [List.length_take, hlength]
      exact le_rfl
    · rw [List.length_take, hlength]
      omega
  · rw [hnew]
    refine ⟨⟨hright.count, hright.entry⟩, hleaf'.trans h.leaf.leaf, hlev'.trans h.leaf.level,
      ?_, ?_⟩
    · rw [List.length_drop, hlength]
      exact le_rfl
    · rw [List.length_drop, hlength]
      omega
  · rw [hold]
  · rw [hnew, hnext]
  · obtain ⟨x, xs, hx⟩ : ∃ x xs, (es.insertIdx i e).drop 32 = x :: xs := by
      refine List.exists_cons_of_ne_nil fun hnil => ?_
      have := congrArg List.length hnil
      rw [List.length_drop, hlength] at this
      cases this
    rw [hx] at hright
    have hkey : t.key (r.2.entries 0) = minKey t₁ (.leaf t.brk ((es.insertIdx i e).drop 32)) := by
      rw [minKey_of_entry hkept.entry, minKey, elems_leaf, hx, hright.entry.get (x := x) (by simp)]
      rfl
    rw [hkey]

/-- The two halves in their place. -/
theorem Spilt.halves {t₁ : Tree K V} {es' : List Ptr} (hd : Spilt t t₁ p es')
    (h : Placed t T path gs p es) (hb : Built t L T)
    (haround : Around t 0 gs (item t (.leaf p es'))) :
    Halves t₁ path 0 gs (.leaf p (es'.take 32)) (.leaf t.brk (es'.drop 32)) := by
  have hp := hb.bound p h.mem
  have hpne : p ≠ t.brk := ne_of_lt hp.2
  have hframe : ∀ q ∈ framePtrs gs, 0 < q ∧ q < t.brk := fun q hq =>
    hb.bound q (h.perm.mem_iff.2 (List.mem_cons_of_mem _ hq))
  have hitem : item t (.leaf p (es'.take 32)) = item t (.leaf p es') := by
    unfold item minKey
    rw [elems_leaf, elems_leaf]
    cases es' with
    | nil => rfl
    | cons x xs => rfl
  refine ⟨hd.left, hd.right, ?_, h.along, h.here, ?_, ?_, ?_, ?_⟩
  · rw [item_of_entry hd.kept.entry, hitem]
    exact haround.kept hd.kept fun q hq => h.frame_bound hb hq
  · rw [ptrs_leaf, ptrs_leaf, List.singleton_append, List.cons_append, List.singleton_append]
    rw [List.nodup_cons, List.nodup_cons]
    obtain ⟨h1, h2⟩ := List.nodup_cons.1 (h.nodup hb)
    refine ⟨?_, fun hm => lt_irrefl _ (hframe _ hm).2, h2⟩
    rw [List.mem_cons, not_or]
    exact ⟨hpne, h1⟩
  · intro q hq
    rw [hd.brk]
    simp only [ptrs_leaf, List.mem_append, List.mem_singleton, or_assoc] at hq
    rcases hq with rfl | rfl | hq
    · exact ⟨hp.1, hp.2.trans (Nat.lt_succ_self _)⟩
    · exact ⟨hp.1.trans hp.2, Nat.lt_succ_self _⟩
    · exact ⟨(hframe q hq).1, (hframe q hq).2.trans (Nat.lt_succ_self _)⟩
  · rw [← h.root hb, hd.root]
  · rw [hd.kept.innerOrder]
    exact hb.innerOrder

theorem Placed.chain_mem (h : Placed t T path gs p es) {q : Ptr}
    (hq : q ∈ (before gs).map Prod.fst ++ p :: (after gs).map Prod.fst) : q ∈ T.ptrs := by
  refine (leaves_sublist T).subset ?_
  rw [← h.plugged, leaves_plug]
  simpa using hq

/-- The new leaf is behind the old one. -/
theorem Spilt.chain {t₁ : Tree K V} {es' : List Ptr} (hd : Spilt t t₁ p es')
    (h : Placed t T path gs p es) (hb : Built t L T) :
    Chain (fun q => (t₁.node q).next) t.min
      ((before gs).map Prod.fst ++ p :: t.brk :: (after gs).map Prod.fst) 0 := by
  apply Chain.insert_after (h.chain hb) (h.chain_nodup hb)
  · exact hd.behind
  · exact hd.next
  · intro q hq hqp
    rw [hd.other q hqp]
    intro hqb
    exact lt_irrefl _ (hqb ▸ (hb.bound q (h.chain_mem hq)).2)

/-- What is raised above the two halves leaves the chain as it is. -/
theorem Spilt.raised_chain {t₁ t' : Tree K V} {es' : List Ptr} {L' : Nat} {T' : Shape}
    (hd : Spilt t t₁ p es') (h : Placed t T path gs p es) (hb : Built t L T)
    (hhalves : Halves t₁ path 0 gs (.leaf p (es'.take 32)) (.leaf t.brk (es'.drop 32)))
    (hraised : Raised t₁ t' gs (.leaf p (es'.take 32)) (.leaf t.brk (es'.drop 32)) L' T') :
    Chain (fun q => (t'.node q).next) t.min (T'.leaves.map Prod.fst) 0 := by
  rw [hraised.leaves]
  simp only [leaves_leaf, List.map_append, List.map_cons, List.append_assoc, List.cons_append,
    List.nil_append]
  refine (hd.chain h hb).congr fun q hq => ?_
  have hlt : q < t₁.brk := by
    rw [hd.brk]
    rw [List.mem_append, List.mem_cons, List.mem_cons] at hq
    have hmem : q ∈ (before gs).map Prod.fst ++ p :: (after gs).map Prod.fst → q < t.brk :=
      fun hq' =>
      (hb.bound q (h.chain_mem hq')).2
    rcases hq with hq | rfl | rfl | hq
    · exact (hmem (List.mem_append_left _ hq)).trans (Nat.lt_succ_self _)
    · exact (hb.bound q h.mem).2.trans (Nat.lt_succ_self _)
    · exact Nat.lt_succ_self _
    · exact (hmem (List.mem_append_right _ (List.mem_cons_of_mem _ hq))).trans (Nat.lt_succ_self _)
  rw [hraised.kept.node q hlt]
  -- a frame is no leaf: every address is there once
  intro hqf
  have hcount := count_framePtrs gs q
  have hone := List.nodup_iff_count_le_one.1 hhalves.nodup q
  have hpos := List.count_pos_iff.2 hqf
  have hpos' := List.count_pos_iff.2 hq
  simp only [ptrs_leaf, List.map_append, List.count_append, List.count_cons,
    List.count_nil] at hcount hone hpos'
  omega

theorem Placed.insert_full (h : Placed t T path gs p es) (hb : Built t L T) (hlen : es.length = 63)
    (hi : path.p 0 = i) (hle : i ≤ es.length)
    (haround : Around t 0 gs (item t (.leaf p (es.insertIdx i e)))) :
    ∃ t' L' T', insertSpiltLeafNode t path e = some t' ∧ t'.count = t.count ∧
      Changed t t' T.ptrs L' T'
        ((before gs).flatMap Prod.snd ++ es.insertIdx i e ++ (after gs).flatMap Prod.snd) := by
  obtain ⟨t₁, hd, hsplit⟩ := h.divide (e := e) hb hlen hi hle
  have hhalves := hd.halves h hb haround
  obtain ⟨t', L', T', hrun, hraised⟩ := insertIntoInnerNode_spec (r := t₁.height) hhalves (by
    unfold Tree.height
    rw [hhalves.level]
    omega)
  have hk := hd.kept.trans hraised.kept
  refine ⟨t', L', T', hsplit.trans hrun, hk.count, ⟨hraised.root, hraised.sub, hraised.nodup,
    hraised.bound, ?_, ?_, ?_⟩, ?_, hk.entry, hk.path, hk.brk, ?_, ?_⟩
  · have hmin : t'.min = t.min := hk.min
    rw [hmin]
    exact hd.raised_chain h hb hhalves hraised
  · rw [hk.innerOrder]
    exact hb.innerOrder
  · rw [hk.leafOrder]
    exact hb.leafOrder
  · unfold PtrTree.elems
    rw [hraised.leaves, leaves_leaf, leaves_leaf, List.flatMap_append, List.flatMap_append]
    simp only [List.singleton_append, List.flatMap_cons, List.flatMap_nil, List.append_nil,
      List.take_append_drop]
  · intro q hq hqT
    refine hk.node q hq ?_
    intro hqf
    rw [List.singleton_append, List.mem_cons] at hqf
    apply hqT
    rcases hqf with rfl | hqf
    · exact h.mem
    · refine h.perm.mem_iff.2 (List.mem_cons_of_mem _ ?_)
      have hcount := count_framePtrs gs q
      have hpos := List.count_pos_iff.2 hqf
      exact List.count_pos_iff.1 (by omega)
  · intro q hq
    rcases hraised.fresh q hq with hm | hlt
    · simp only [ptrs_leaf, List.mem_append, List.mem_singleton, or_assoc] at hm
      rcases hm with rfl | rfl | hm
      · exact .inl h.mem
      · exact .inr le_rfl
      · exact .inl (h.perm.mem_iff.2 (List.mem_cons_of_mem _ hm))
    · exact .inr (hd.kept.brk.trans hlt)

/-! ## Any tree -/

/-- **Insertion of an entry** at the position the path says. -/
theorem insertIntoLeafNode_spec (h : Placed t T path gs p es) (hb : Built t L T) (hi : path.p 0 = i)
    (hle : i ≤ es.length) (haround : Around t 0 gs (item t (.leaf p (es.insertIdx i e)))) :
    ∃ t' L' T', insertIntoLeafNode t path e = some t' ∧ t'.count = t.count + 1 ∧
      Changed t t' T.ptrs L' T'
        ((before gs).flatMap Prod.snd ++ es.insertIdx i e ++ (after gs).flatMap Prod.snd) := by
  have hroot : t.root ≠ 0 := by
    rw [hb.root]
    exact Nat.ne_of_gt (hb.bound _ (ptr_mem_ptrs T)).1
  rw [insertIntoLeafNode_of_root hroot, h.here, h.leaf.count, hb.leafOrder]
  by_cases hlen : es.length = 63
  · obtain ⟨t', L', T', hrun, hcount, hchanged⟩ := h.insert_full hb hlen hi hle haround
    refine ⟨{ t' with count := t'.count + 1 }, L', T', ?_, ?_, hchanged.count _⟩
    · rw [if_pos hlen, hrun]
      rfl
    · rw [hcount]
  · refine ⟨_, _, _, ?_, ?_, (h.insert_notFull hb hlen hi hle haround).count (t.count + 1)⟩
    · rw [if_neg hlen]
      rfl
    · rfl

/-- The first entry of an empty tree. -/
theorem insertIntoLeafNode_empty (e : Ptr) (hroot : t.root = 0) (hbrk : 0 < t.brk)
    (hio : t.innerOrder = 32) (hlo : t.leafOrder = 64) (hi : path.p 0 = 0) :
    ∃ t' L' T', insertIntoLeafNode t path e = some t' ∧ t'.count = t.count + 1 ∧ Changed t t'
      [] L' T' [e] := by
  obtain ⟨t₁, ht₁⟩ : ∃ t₁ : Tree K V,
    t₁ = { (t.allocateNode true).2 with root := t.brk, min := t.brk } := ⟨_, rfl⟩
  obtain ⟨path₁, hpath₁⟩ : ∃ path₁ : PathInfo,
    path₁ = { path with n := Function.update path.n 0 t.brk } := ⟨_, rfl⟩
  have hbrk₁ : t₁.brk = t.brk + 1 := by
    rw [ht₁]
    rfl
  have hnode : t₁.node t.brk = (t.node t.brk).cleared true := by
    rw [ht₁]
    exact allocateNode_self
  have hleaf : LeafOk (t₁.node t.brk) true [] := by
    rw [hnode]
    exact ⟨⟨rfl, Rep.nil _⟩, rfl, rfl, le_rfl, Nat.zero_le _⟩
  have hbuilt : Built t₁ 0 (.leaf t.brk []) := by
    refine ⟨?_, hleaf, ?_, ?_, ?_, ?_, ?_⟩
    · rw [ht₁]
      rfl
    · rw [ptrs_leaf]
      exact List.nodup_singleton _
    · intro q hq
      rw [ptrs_leaf, List.mem_singleton] at hq
      rw [hq, hbrk₁]
      exact ⟨hbrk, Nat.lt_succ_self _⟩
    · rw [leaves_leaf]
      refine ⟨?_, ?_⟩
      · rw [ht₁]
      · show (t₁.node t.brk).next = 0
        rw [hnode]
        rfl
    · rw [ht₁]
      exact hio
    · rw [ht₁]
      exact hlo
  have hplaced : Placed t₁ (.leaf t.brk []) path₁ [] t.brk [] := by
    refine ⟨rfl, hleaf, trivial, trivial, ?_⟩
    rw [hpath₁]
    exact Function.update_self 0 t.brk path.n
  have hi₁ : path₁.p 0 = 0 := by
    rw [hpath₁]
    exact hi
  obtain ⟨t', L', T', hrun, hcount, hchanged⟩ :=
    insertIntoLeafNode_spec hplaced hbuilt hi₁ (e := e) le_rfl trivial
  have hstart : insertIntoLeafNode t path e = insertIntoLeafNode t₁ path₁ e := by
    have hroot₁ : t₁.root ≠ 0 := by
      rw [ht₁]
      exact Nat.ne_of_gt hbrk
    rw [insertIntoLeafNode_of_root hroot₁, hpath₁, ht₁]
    unfold insertIntoLeafNode
    rw [if_pos hroot]
    dsimp only
    rw [allocateNode_fst]
    split_ifs
    · cases insertSpiltLeafNode _ _ e with
      | none => rfl
      | some t' => rfl
    · rfl
  refine ⟨t', L', T', hstart.trans hrun, ?_, hchanged.toBuilt, hchanged.elems, ?_, ?_, ?_, ?_, ?_⟩
  · rw [hcount, ht₁]
    rfl
  · rw [hchanged.entry, ht₁]
    rfl
  · rw [hchanged.path, ht₁]
    rfl
  · have hle := hchanged.brk
    rw [hbrk₁] at hle
    exact (Nat.le_succ _).trans hle
  · intro q hq _
    have hqne : q ≠ t.brk := ne_of_lt hq
    rw [hchanged.node q]
    · rw [ht₁]
      exact allocateNode_of_ne hqne
    · rw [hbrk₁]
      exact hq.trans (Nat.lt_succ_self _)
    · rw [ptrs_leaf, List.mem_singleton]
      exact hqne
  · intro q hq
    rcases hchanged.fresh q hq with hm | hlt
    · rw [ptrs_leaf, List.mem_singleton] at hm
      rw [hm]
      exact .inr le_rfl
    · rw [hbrk₁] at hlt
      exact .inr ((Nat.le_succ _).trans hlt)

end

end Bptree
