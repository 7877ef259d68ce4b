import DsAlgor.Bptree.BulkLoad

/-!
# The levels of a bulk load

Each level puts the nodes of the one below into groups, from left to right (`Grouped`), until there
is one node. What comes out is a tree of the entries as they were read (`bptreeBulkLoad_spec`).
-/

namespace Bptree

open CArray PtrTree

variable {K V : Type}

/-! ## Groups -/

/-- `nextlevel` from `i` on holds the nodes of `cs`, each with the key on the left of the next. -/
structure Row (t : Tree K V) (nextlevel : Nat → Ptr × K) (i : Nat) (cs : List Shape) : Prop where
  fst : ∀ j c, cs[j]? = some c → (nextlevel (i + j)).1 = c.ptr
  snd : ∀ j c, cs[j + 1]? = some c → (nextlevel (i + j)).2 = minKey t c

/-- The nodes `cs` have been put into `r` new nodes `ds`. -/
structure Grouped (t t' : Tree K V) (nextlevel nextlevel' : Nat → Ptr × K) (root : Bool)
    (l i r : Nat) (cs ds : List Shape) : Prop where
  length : ds.length = r
  sub : ∀ d ∈ ds, Sub t' root (l + 1) d
  leaves : ds.flatMap leaves = cs.flatMap leaves
  ptrs : (ds.flatMap ptrs).Perm (List.range' t.brk r ++ cs.flatMap ptrs)
  row : Row t nextlevel' i ds
  before : ∀ j < i, nextlevel' j = nextlevel j
  kept : Kept t t' []
  brk : t'.brk = t.brk + r

section
variable {t t' : Tree K V} {nl nl' : Nat → Ptr × K} {root : Bool} {l i r : Nat}
  {cs ds g rest : List Shape}

theorem Sub.inner_ne_nil {T : Shape} (h : Sub t root (l + 1) T) : T.elems ≠ [] := by
  cases T with
  | leaf p es => exact h.elim
  | node p cs =>
    cases cs with
    | nil => exact absurd rfl h.1.toBody.ne_nil
    | cons c cs =>
      rw [elems_node, List.flatMap_cons]
      intro hnil
      exact (h.2 c List.mem_cons_self).elems_ne_nil (List.append_eq_nil_iff.1 hnil).1

/-- The first key of the first of several nodes. -/
theorem minKey_eq_of_leaves {c d : Shape} (hc : c.elems ≠ []) (hd : d.elems ≠ [])
    (h : (d :: ds).flatMap PtrTree.leaves = (c :: cs).flatMap PtrTree.leaves) :
    minKey t d = minKey t c := by
  have helems : d.elems ++ ds.flatMap elems = c.elems ++ cs.flatMap elems := by
    have := congrArg (List.flatMap Prod.snd) h
    rw [List.flatMap_assoc, List.flatMap_assoc, List.flatMap_cons, List.flatMap_cons] at this
    exact this
  unfold minKey
  cases hce : c.elems with
  | nil => exact absurd hce hc
  | cons x xs =>
    cases hde : d.elems with
    | nil => exact absurd hde hd
    | cons y ys =>
      rw [hce, hde] at helems
      rw [List.headD_cons, List.headD_cons, (List.cons.inj helems).1]

/-- One more node in front. -/
theorem Grouped.cons {n : Node K} {k : K} (hn : InnerOk n root (l + 1) (g.map (item t)))
    (hsub : ∀ c ∈ g ++ rest, Sub t false l c) (hbound : ∀ c ∈ g ++ rest, ∀ p ∈ c.ptrs, p < t.brk)
    (hk : ∀ c ∈ rest.head?, k = minKey t c)
    (h : Grouped ((t.allocateNode false).2.setNode t.brk n) t' (Function.update nl i (t.brk, k)) nl'
    root l (i + 1) r rest ds) : Grouped t t' nl nl' root l i (r + 1) (g ++ rest)
      (.node t.brk g :: ds) := by
  obtain ⟨t₁, ht₁⟩ : ∃ t₁, t₁ = (t.allocateNode false).2.setNode t.brk n := ⟨_, rfl⟩
  rw [← ht₁] at h
  have hkept₁ : Kept t t₁ [] := by
    have hk₁ := (kept_allocateNode t false).trans (kept_setNode _ t.brk n)
    rw [← ht₁] at hk₁
    refine { hk₁ with node := fun p hp _ => ?_ }
    rw [ht₁, setNode_of_ne (ne_of_lt hp), allocateNode_of_ne (ne_of_lt hp)]
  have hbrk₁ : t₁.brk = t.brk + 1 := by
    rw [ht₁]
    rfl
  have hkept : Kept t t' [] := hkept₁.trans h.kept
  have hnode : t'.node t.brk = n := by
    rw [h.kept.node t.brk (by rw [hbrk₁]; exact Nat.lt_succ_self _) List.not_mem_nil, ht₁,
      setNode_self]
  refine ⟨?_, ?_, ?_, ?_, ⟨?_, ?_⟩, ?_, hkept, ?_⟩
  · rw [List.length_cons, h.length]
  · intro d hd
    rcases List.mem_cons.1 hd with rfl | hd
    · refine ⟨?_, fun c hc => ?_⟩
      · rw [hnode, item_of_entry hkept.entry]
        exact hn
      · refine (hsub c (List.mem_append_left _ hc)).kept hkept fun p hp => ⟨?_, List.not_mem_nil⟩
        exact hbound c (List.mem_append_left _ hc) p hp
    · exact h.sub d hd
  · rw [List.flatMap_cons, leaves_node, h.leaves, List.flatMap_append]
  · rw [List.flatMap_cons, ptrs_node]
    refine List.perm_iff_count.2 fun a => ?_
    have hcount := List.perm_iff_count.1 h.ptrs a
    rw [hbrk₁] at hcount
    simp only [List.range'_succ, List.flatMap_append, List.count_append,
      List.count_cons] at hcount ⊢
    omega
  · intro j d hd
    cases j with
    | zero =>
      cases hd
      rw [Nat.add_zero, h.before i (Nat.lt_succ_self i), Function.update_self]
      rfl
    | succ j =>
      have := h.row.fst j d hd
      rwa [Nat.add_assoc, Nat.add_comm 1 j] at this
  · intro j d hd
    cases j with
    | zero =>
      rw [Nat.add_zero, h.before i (Nat.lt_succ_self i), Function.update_self]
      cases hds : ds with
      | nil =>
        rw [hds] at hd
        cases hd
      | cons d' ds' =>
        rw [hds] at hd
        cases hd
        have hd' : d.elems ≠ [] := (h.sub d (by rw [hds]; exact List.mem_cons_self)).inner_ne_nil
        have hleaves := h.leaves
        rw [hds] at hleaves
        cases hrest : rest with
        | nil =>
          rw [hrest] at hleaves
          have helems := congrArg (List.flatMap Prod.snd) hleaves
          rw [List.flatMap_assoc, List.flatMap_cons] at helems
          exact absurd (List.append_eq_nil_iff.1 helems).1 hd'
        | cons c rest' =>
          rw [hrest] at hleaves hk hsub
          have hc : c.elems ≠ [] := (hsub c (by simp)).elems_ne_nil
          rw [minKey_eq_of_leaves hc hd' hleaves]
          exact hk c rfl
    | succ j =>
      have := h.row.snd j d hd
      rwa [Nat.add_assoc, Nat.add_comm 1 j, minKey_of_entry hkept₁.entry] at this
  · intro j hj
    rw [h.before j (hj.trans (Nat.lt_succ_self i)), Function.update_of_ne (ne_of_lt hj)]
  · rw [h.brk, hbrk₁, Nat.add_assoc, Nat.add_comm 1 r]

theorem Grouped.nil (t : Tree K V) (nl : Nat → Ptr × K) (root : Bool) (l i : Nat) :
    Grouped t t nl nl root l i 0 [] [] :=
  ⟨rfl, fun _ hd => (nomatch hd), rfl, List.Perm.nil,
    ⟨fun _ _ hd => (nomatch hd), fun _ _ hd => (nomatch hd)⟩,
    fun _ _ => rfl, ⟨rfl, rfl, rfl, rfl, rfl, rfl, le_rfl, fun _ _ _ => rfl⟩, rfl⟩

/-- A node is the same when there is a new one. -/
theorem Sub.allocated {c : Shape} (h : Sub t false l c) (hbound : ∀ p ∈ c.ptrs, p < t.brk)
    (n : Node K) : Sub ((t.allocateNode false).2.setNode t.brk n) false l c := by
  refine h.kept ((kept_allocateNode t false).trans (kept_setNode _ t.brk n)) fun p hp => ?_
  refine ⟨hbound p hp, ?_⟩
  rw [List.nil_append, List.mem_singleton]
  exact ne_of_lt (hbound p hp)

/-! ## The higher levels -/

/-- The new node has the first `m + 1` nodes as its children. -/
theorem bulkNode_ok {index m : Nat} (hrow : Row t nl index cs) (hm : m < cs.length)
    (hleast : minChildren root ≤ m + 1) (hmost : m + 1 ≤ 32) (n₀ : Node K)
    (hleaf : n₀.leaf = false) :
    InnerOk { n₀ with
        level := l + 1
        count := m
        keys := copy (fun j => (nl j).2) m index 0 n₀.keys
        children := Function.update (copy (fun j => (nl j).1) m index 0 n₀.children) m
          (nl (index + m)).1 } root (l + 1) ((cs.take (m + 1)).map (item t)) := by
  have hlen : (cs.take (m + 1)).length = m + 1 := by
    rw [List.length_take]
    omega
  have hget : ∀ j < m + 1, ∃ c, cs[j]? = some c := fun j hj =>
    ⟨cs[j], List.getElem?_eq_getElem (by omega)⟩
  refine ⟨⟨?_, ?_, ?_⟩, hleaf, rfl, ?_, ?_⟩
  · rw [List.length_map, hlen]
  · intro j hj
    rw [List.length_map, List.length_map, hlen] at hj
    obtain ⟨c, hcj⟩ := hget j hj
    rw [List.getElem?_map, List.getElem?_map, List.getElem?_take, if_pos hj, hcj]
    dsimp only
    have hptr := hrow.fst j c hcj
    by_cases hjm : j = m
    · rw [hjm] at hptr ⊢
      rw [Function.update_self, hptr]
      rfl
    · rw [Function.update_of_ne hjm, copy_apply, if_pos ⟨Nat.zero_le _, by omega⟩,
        Nat.sub_zero, hptr]
      rfl
  · intro j hj
    rw [List.length_map, List.length_tail, List.length_map, hlen, Nat.add_sub_cancel] at hj
    obtain ⟨c, hcj⟩ := hget (j + 1) (Nat.succ_lt_succ hj)
    rw [List.getElem?_map, List.getElem?_tail, List.getElem?_map, List.getElem?_take,
      if_pos (Nat.succ_lt_succ hj), hcj]
    dsimp only
    rw [copy_apply, if_pos ⟨Nat.zero_le _, by omega⟩, Nat.sub_zero, hrow.snd j c hcj]
    rfl
  · rw [List.length_map, hlen]
    exact hleast
  · rw [List.length_map, hlen]
    exact hmost

/-- The nodes that are left, when the first new one is in `nextlevel`. -/
theorem Row.drop {index m i : Nat} (hrow : Row t nl index cs) (hi : i ≤ index)
    (hentry : t'.entry = t.entry) (x : Ptr × K) :
    Row t' (Function.update nl i x) (index + m + 1) (cs.drop (m + 1)) := by
  refine ⟨fun j c hcj => ?_, fun j c hcj => ?_⟩
  · rw [List.getElem?_drop] at hcj
    rw [Function.update_of_ne (by omega), show index + m + 1 + j = index + (m + 1 + j) by omega]
    exact hrow.fst _ c hcj
  · rw [List.getElem?_drop] at hcj
    rw [Function.update_of_ne (by omega), show index + m + 1 + j = index + (m + 1 + j) by omega,
      minKey_of_entry hentry]
    exact hrow.snd _ c hcj

theorem bulkLevel_spec {index : Nat} (hrow : Row t nl index cs) (hi : i ≤ index)
    (hsub : ∀ c ∈ cs, Sub t false l c) (hbound : ∀ c ∈ cs, ∀ p ∈ c.ptrs, p < t.brk)
    (hlo : minChildren root * r ≤ cs.length) (hhi : cs.length ≤ 32 * r) :
    ∃ ds, (bulkLevel r i index t cs.length nl).2.1 = 0 ∧
      Grouped t (bulkLevel r i index t cs.length nl).1 nl
        (bulkLevel r i index t cs.length nl).2.2 root l i r cs ds := by
  induction r generalizing t nl i index cs with
  | zero =>
    obtain rfl : cs = [] := List.length_eq_zero_iff.1 (Nat.le_zero.1 hhi)
    exact ⟨[], rfl, Grouped.nil t nl root l i⟩
  | succ r ih =>
    obtain ⟨hc1, hc2, hr1, hr2, hcn⟩ := share hlo hhi
    have hpos := two_le_minChildren root
    rw [bulkLevel]
    dsimp only
    rw [allocateNode_fst]
    generalize hc : cs.length / (r + 1) = c at hc1 hc2 hr1 hr2 hcn ⊢
    obtain ⟨m, rfl⟩ : ∃ m, c = m + 1 := ⟨c - 1, by omega⟩
    have hcs : cs = cs.take (m + 1) ++ cs.drop (m + 1) := (List.take_append_drop _ _).symm
    have hlevel : ((t.allocateNode false).2.node (nl index).1).level = l := by
      obtain ⟨c, hc0⟩ : ∃ c, cs[0]? = some c := ⟨cs[0], List.getElem?_eq_getElem (by omega)⟩
      have hcmem := List.mem_of_getElem? hc0
      have hptr := hrow.fst 0 c hc0
      rw [Nat.add_zero] at hptr
      have hlt : c.ptr < t.brk := hbound c hcmem c.ptr (ptr_mem_ptrs c)
      rw [hptr, allocateNode_of_ne (ne_of_lt hlt)]
      exact (hsub c hcmem).level
    rw [Nat.add_sub_cancel, allocateNode_self, hlevel]
    have hok : InnerOk _ root (l + 1) ((cs.take (m + 1)).map (item t)) :=
      bulkNode_ok (l := l) hrow (by omega) hc1 hc2 ((t.node t.brk).cleared false) rfl
    generalize Node.mk _ _ _ _ _ _ _ = n at hok ⊢
    have hrest : ∀ c ∈ cs.drop (m + 1), c ∈ cs := fun c hc => List.mem_of_mem_drop hc
    have hentry : ((t.allocateNode false).2.setNode t.brk n).entry = t.entry := rfl
    have hrow' : Row ((t.allocateNode false).2.setNode t.brk n)
      (Function.update nl i (t.brk, (nl (index + m)).2)) (index + m + 1) (cs.drop (m + 1)) :=
      hrow.drop hi hentry _
    obtain ⟨ds, hzero, hgrouped⟩ := ih hrow' (show i + 1 ≤ index + m + 1 by omega)
      (fun c hc => (hsub c (hrest c hc)).allocated (hbound c (hrest c hc)) n)
      (fun c hc p hp => (hbound c (hrest c hc) p hp).trans (Nat.lt_succ_self _))
      (by rw [List.length_drop]; exact hr1) (by rw [List.length_drop]; exact hr2)
    rw [List.length_drop] at hzero hgrouped
    refine ⟨.node t.brk (cs.take (m + 1)) :: ds, hzero, ?_⟩
    rw [hcs] at hsub hbound
    have hcons := hgrouped.cons hok hsub hbound ?_
    · rw [← hcs] at hcons
      exact hcons
    · intro c hc
      rw [List.head?_drop] at hc
      exact hrow.snd m c (Option.mem_def.1 hc)

/-! ## Level 1 -/

theorem minKey_leaf {c : Shape} (h : Sub t false 0 c) :
    t.key ((t.node c.ptr).entries 0) = minKey t c := by
  cases c with
  | node p cs => exact h.elim
  | leaf p es =>
    cases es with
    | nil => exact absurd (elems_leaf p []) h.elems_ne_nil
    | cons e es =>
      rw [ptr_leaf, (LeafOk.toEntries h).entry.get (x := e) rfl, minKey, elems_leaf]
      rfl

/-- The keys and children that the loop over `g` adds to a node. -/
theorem bulkChildren_spec {leaf : Ptr} {n : Node K} {ks : List K} {ps : List Ptr}
    (hchain : Chain (fun p => (t.node p).next) leaf ((g ++ rest).map ptr) 0)
    (hsub : ∀ c ∈ g, Sub t false 0 c)
    (hks : Rep n.keys ks) (hps : Rep n.children ps) (hlen : ps.length = ks.length + 1) :
    Chain (fun p => (t.node p).next) (bulkChildren t g.length ks.length leaf n).1 (rest.map ptr) 0 ∧
      Rep (bulkChildren t g.length ks.length leaf n).2.keys (ks ++ g.map (minKey t)) ∧
      Rep (bulkChildren t g.length ks.length leaf n).2.children (ps ++ g.map ptr) ∧
      (bulkChildren t g.length ks.length leaf n).2.leaf = n.leaf ∧
      (bulkChildren t g.length ks.length leaf n).2.level = n.level ∧
      (bulkChildren t g.length ks.length leaf n).2.count = n.count := by
  induction g generalizing leaf n ks ps with
  | nil =>
    rw [List.map_nil, List.map_nil, List.append_nil, List.append_nil]
    exact ⟨hchain, hks, hps, rfl, rfl, rfl⟩
  | cons c g ih =>
    obtain ⟨rfl, hchain⟩ := hchain
    rw [List.length_cons, bulkChildren, minKey_leaf (hsub c List.mem_cons_self)]
    have hks' := hks.snoc (minKey t c)
    have hps' := hps.snoc c.ptr
    rw [hlen] at hps'
    have hrec := ih (n := { n with
        keys := Function.update n.keys ks.length (minKey t c)
        children := Function.update n.children (ks.length + 1) c.ptr })
      hchain (fun d hd => hsub d (List.mem_cons_of_mem _ hd)) hks' hps'
      (by rw [List.length_append, List.length_append, hlen]; rfl)
    rw [List.length_append, List.length_singleton] at hrec
    simpa using hrec

/-- The new node has the leaf `d` and those of `g` as its children. -/
theorem bulkParent_ok {n : Node K} {d : Shape}
    (hchain : Chain (fun p => (t.node p).next) (t.node d.ptr).next ((g ++ rest).map ptr) 0)
    (hsub : ∀ c ∈ g, Sub t false 0 c) (hfirst : n.children 0 = d.ptr) (hleaf : n.leaf = false)
    (hlevel : n.level = 1) (hcount : n.count = g.length)
    (hleast : minChildren root ≤ g.length + 1) (hmost : g.length + 1 ≤ 32) :
    Chain (fun p => (t.node p).next) (bulkChildren t g.length 0 (t.node d.ptr).next n).1
      (rest.map ptr) 0 ∧
    InnerOk (bulkChildren t g.length 0 (t.node d.ptr).next n).2 root 1 ((d :: g).map (item t)) := by
  obtain ⟨hnext, hkeys, hchildren, hleaf', hlevel', hcount'⟩ :=
    bulkChildren_spec hchain hsub (Rep.nil n.keys) (Rep.cons hfirst (Rep.nil _)) rfl
  refine ⟨hnext, ⟨?_, ?_, ?_⟩, hleaf'.trans hleaf, hlevel'.trans hlevel, ?_, ?_⟩
  · rw [List.length_map, List.length_cons]
    exact congrArg (· + 1) (hcount'.trans hcount)
  · rw [List.map_map]
    exact hchildren
  · rw [List.map_cons, List.tail_cons, List.map_map]
    exact hkeys
  · rwa [List.length_map, List.length_cons]
  · rwa [List.length_map, List.length_cons]

theorem bulkParents_spec {leaf : Ptr} (nl : Nat → Ptr × K) (i : Nat)
    (hchain : Chain (fun p => (t.node p).next) leaf (cs.map ptr) 0)
    (hsub : ∀ c ∈ cs, Sub t false 0 c) (hbound : ∀ c ∈ cs, ∀ p ∈ c.ptrs, 0 < p ∧ p < t.brk)
    (hlo : minChildren root * r ≤ cs.length) (hhi : cs.length ≤ 32 * r) :
    ∃ ds, Grouped t (bulkParents r i t leaf cs.length nl).1 nl
      (bulkParents r i t leaf cs.length nl).2 root 0 i r cs ds := by
  induction r generalizing t nl i leaf cs with
  | zero =>
    obtain rfl : cs = [] := List.length_eq_zero_iff.1 (Nat.le_zero.1 hhi)
    exact ⟨[], Grouped.nil t nl root 0 i⟩
  | succ r ih =>
    obtain ⟨hc1, hc2, hr1, hr2, hcn⟩ := share hlo hhi
    have hpos := two_le_minChildren root
    rw [bulkParents]
    dsimp only
    rw [allocateNode_fst]
    generalize hc : cs.length / (r + 1) = c at hc1 hc2 hr1 hr2 hcn ⊢
    obtain ⟨m, rfl⟩ : ∃ m, c = m + 1 := ⟨c - 1, by omega⟩
    rw [Nat.add_sub_cancel]
    cases cs with
    | nil => exact absurd hcn (Nat.not_succ_le_zero m)
    | cons d cs =>
      obtain ⟨rfl, hchain⟩ := hchain
      rw [List.length_cons] at hcn hr1 hr2 ⊢
      have hcs : cs = cs.take m ++ cs.drop m := (List.take_append_drop _ _).symm
      have hlen : (cs.take m).length = m := by
        rw [List.length_take]
        omega
      have hne : ∀ c ∈ d :: cs, c.ptr ≠ t.brk :=
        fun c hcm => ne_of_lt (hbound c hcm c.ptr (ptr_mem_ptrs c)).2
      have hkept₀ := kept_allocateNode t false
      have hsub₀ : ∀ c ∈ d :: cs, Sub (t.allocateNode false).2 false 0 c := fun c hcm =>
        (hsub c hcm).kept hkept₀ fun p hp => ⟨(hbound c hcm p hp).2, List.not_mem_nil⟩
      have hchain₀ : Chain (fun p => ((t.allocateNode false).2.node p).next)
        ((t.allocateNode false).2.node d.ptr).next ((cs.take m ++ cs.drop m).map ptr) 0 := by
        rw [← hcs, allocateNode_of_ne (hne d List.mem_cons_self)]
        refine hchain.congr fun q hq => ?_
        obtain ⟨c, hcm, rfl⟩ := List.mem_map.1 hq
        rw [allocateNode_of_ne (hne c (List.mem_cons_of_mem _ hcm))]
      rw [allocateNode_self]
      have hspec := bulkParent_ok (n := { (t.node t.brk).cleared false with
          level := 1
          count := m
          children := Function.update ((t.node t.brk).cleared false).children 0 d.ptr })
        hchain₀ (fun c hcm => hsub₀ c (List.mem_cons_of_mem _ (List.mem_of_mem_take hcm)))
        (Function.update_self 0 d.ptr ((t.node t.brk).cleared false).children) rfl rfl hlen.symm
        (hlen.symm ▸ hc1) (hlen.symm ▸ hc2)
      rw [hlen, item_of_entry hkept₀.entry] at hspec
      generalize bulkChildren (t.allocateNode false).2 m 0
        ((t.allocateNode false).2.node d.ptr).next _ = res at hspec ⊢
      obtain ⟨leaf', n⟩ := res
      obtain ⟨hnext, hok⟩ := hspec
      dsimp only at hnext hok ⊢
      have hkept : Kept t ((t.allocateNode false).2.setNode t.brk n) [t.brk] :=
        hkept₀.trans (kept_setNode _ t.brk n)
      have hrest : ∀ c ∈ cs.drop m, c ∈ d :: cs :=
        fun c hcm => List.mem_cons_of_mem _ (List.mem_of_mem_drop hcm)
      have hsub₁ : ∀ c ∈ cs.drop m, Sub ((t.allocateNode false).2.setNode t.brk n) false 0 c :=
        fun c hcm =>
        (hsub c (hrest c hcm)).allocated (fun p hp => (hbound c (hrest c hcm) p hp).2) n
      have hchain₁ : Chain (fun p => (((t.allocateNode false).2.setNode t.brk n).node p).next) leaf'
          ((cs.drop m).map ptr) 0 := by
        refine hnext.congr fun q hq => ?_
        obtain ⟨c, hcm, rfl⟩ := List.mem_map.1 hq
        rw [setNode_of_ne (hne c (hrest c hcm))]
      obtain ⟨ds, hgrouped⟩ := ih (Function.update nl i (t.brk, if leaf' ≠ 0 then
          ((t.allocateNode false).2.setNode t.brk n).key
            (((t.allocateNode false).2.setNode t.brk n).node leaf' |>.entries 0)
          else (nl i).2)) (i + 1) hchain₁ hsub₁
        (fun c hcm p hp => (hbound c (hrest c hcm) p hp).imp_right fun hlt =>
          hlt.trans (Nat.lt_succ_self _))
        (by rw [List.length_drop]; omega) (by rw [List.length_drop]; omega)
      rw [List.length_drop] at hgrouped
      rw [show cs.length + 1 - (m + 1) = cs.length - m by omega]
      refine ⟨.node t.brk (d :: cs.take m) :: ds, ?_⟩
      have hall : d :: cs = (d :: cs.take m) ++ cs.drop m := by rw [List.cons_append, ← hcs]
      rw [hall] at hsub hbound
      have hcons := hgrouped.cons hok hsub (fun c hcm p hp => (hbound c hcm p hp).2) ?_
      · rw [← hall] at hcons
        exact hcons
      · -- the key of the next leaf
        intro c hcm
        cases hdrop : cs.drop m with
        | nil =>
          rw [hdrop] at hcm
          cases hcm
        | cons c' cs' =>
          rw [hdrop] at hcm hnext hsub₁
          cases hcm
          obtain ⟨rfl, -⟩ := hnext
          have hc0 : c.ptr ≠ 0 :=
            Nat.ne_of_gt (hbound c (by rw [hdrop]; simp) c.ptr (ptr_mem_ptrs c)).1
          rw [if_pos hc0, minKey_leaf (hsub₁ c List.mem_cons_self), minKey_of_entry hkept.entry]

/-! ## All levels -/

/-- The number of parents of `n` nodes. -/
theorem ceilDiv_parents {n : Nat} (hn : 2 ≤ n) :
    ceilDiv n 32 < n ∧ 0 < ceilDiv n 32 ∧ minChildren
      (decide (ceilDiv n 32 = 1)) * ceilDiv n 32 ≤ n ∧ n ≤ 32 * ceilDiv n 32 := by
  unfold ceilDiv minChildren
  refine ⟨by omega, by omega, ?_, by omega⟩
  by_cases h1 : (n + (32 - 1)) / 32 = 1
  · rw [h1]
    simpa using hn
  · rw [if_neg (by simpa using h1)]
    omega

/-- The nodes of the next level. -/
theorem Grouped.next (h : Grouped t t' nl nl' root l i r cs ds)
    (hbound : ∀ c ∈ cs, ∀ p ∈ c.ptrs, 0 < p ∧ p < t.brk) (hnodup : (cs.flatMap PtrTree.ptrs).Nodup)
    (hbrk : 0 < t.brk) :
    (∀ d ∈ ds, ∀ p ∈ d.ptrs, 0 < p ∧ p < t'.brk) ∧ (ds.flatMap PtrTree.ptrs).Nodup ∧
      ∀ p ∈ ds.flatMap PtrTree.ptrs, p ∈ cs.flatMap PtrTree.ptrs ∨ t.brk ≤ p ∧ p < t'.brk := by
  have hmem : ∀ p ∈ ds.flatMap PtrTree.ptrs, p ∈ cs.flatMap PtrTree.ptrs ∨ t.brk ≤ p ∧
    p < t'.brk := by
    intro p hp
    rw [h.ptrs.mem_iff, List.mem_append, List.mem_range'_1] at hp
    rw [h.brk]
    exact hp.symm
  have hold : ∀ p ∈ cs.flatMap PtrTree.ptrs, 0 < p ∧ p < t.brk := by
    intro p hp
    obtain ⟨c, hc, hp⟩ := List.mem_flatMap.1 hp
    exact hbound c hc p hp
  refine ⟨fun d hd p hp => ?_, ?_, hmem⟩
  · rcases hmem p (List.mem_flatMap.2 ⟨d, hd, hp⟩) with hp | hp
    · exact (hold p hp).imp_right fun hlt => hlt.trans_le h.kept.brk
    · exact ⟨hbrk.trans_le hp.1, hp.2⟩
  · rw [h.ptrs.nodup_iff, List.nodup_append]
    refine ⟨List.nodup_range', hnodup, fun a ha b hb hab => ?_⟩
    rw [List.mem_range'_1] at ha
    have hlt := (hold b hb).2
    rw [← hab] at hlt
    exact absurd ha.1 (not_le.2 hlt)

theorem bulkLevels_spec (hrow : Row t nl 0 cs) (hcs : cs ≠ [])
    (hsub : ∀ c ∈ cs, Sub t (decide (cs.length = 1)) l c)
    (hbound : ∀ c ∈ cs, ∀ p ∈ c.ptrs, 0 < p ∧ p < t.brk) (hnodup : (cs.flatMap PtrTree.ptrs).Nodup)
    (hbrk : 0 < t.brk)
    (hio : t.innerOrder = 32) (hr : cs.length ≤ r) :
    ∃ t' nl' L T, bulkLevels r cs.length t nl = some (t', nl') ∧ (nl' 0).1 = T.ptr ∧
      Sub t' true L T ∧ T.leaves = cs.flatMap leaves ∧ T.ptrs.Nodup ∧
      (∀ p ∈ T.ptrs, p ∈ cs.flatMap PtrTree.ptrs ∨ t.brk ≤ p ∧ p < t'.brk) ∧ Kept t t' [] := by
  -- one level after the other; there are fewer nodes each time
  induction r generalizing t nl cs l with
  | zero => exact absurd (List.length_eq_zero_iff.1 (Nat.le_zero.1 hr)) hcs
  | succ r ih =>
    have hpos := List.length_pos_of_ne_nil hcs
    rw [bulkLevels]
    by_cases hone : cs.length = 1
    · obtain ⟨c, rfl⟩ := List.length_eq_one_iff.1 hone
      have hc := hsub c List.mem_cons_self
      rw [decide_eq_true hone] at hc
      rw [List.flatMap_singleton] at hnodup
      refine ⟨t, nl, l, c, if_pos hone, hrow.fst 0 c rfl, hc, (List.flatMap_singleton _ _).symm,
        hnodup, fun p hp => ?_, rfl, rfl, rfl, rfl, rfl, rfl, le_rfl, fun _ _ _ => rfl⟩
      rw [List.flatMap_singleton]
      exact .inl hp
    · rw [if_neg hone]
      rw [decide_eq_false hone] at hsub
      obtain ⟨hlt, hpar, hlo, hhi⟩ := ceilDiv_parents (n := cs.length) (by omega)
      dsimp only
      rw [hio]
      obtain ⟨ds, hzero, hgrouped⟩ :=
        bulkLevel_spec (i := 0) (r := ceilDiv cs.length 32) hrow le_rfl hsub
          (fun c hc p hp => (hbound c hc p hp).2) hlo hhi
      generalize bulkLevel (ceilDiv cs.length 32) 0 0 t cs.length nl = res at hzero hgrouped ⊢
      obtain ⟨t₁, left, nl₁⟩ := res
      dsimp only at hzero hgrouped ⊢
      rw [if_pos hzero]
      have hlen := hgrouped.length
      obtain ⟨hbound₁, hnodup₁, hmem₁⟩ := hgrouped.next hbound hnodup hbrk
      have hsub₁ := hgrouped.sub
      rw [← hlen] at hsub₁
      have hrow₁ : Row t₁ nl₁ 0 ds := by
        refine ⟨hgrouped.row.fst, fun j d hd => ?_⟩
        rw [minKey_of_entry hgrouped.kept.entry]
        exact hgrouped.row.snd j d hd
      obtain ⟨t', nl', L, T, hrun, hptr, hT, hleaves, hTnodup, hTmem, hkept⟩ := ih hrow₁
        (by
          intro hnil
          rw [hnil] at hlen
          exact absurd hlen (ne_of_lt hpar))
        hsub₁ hbound₁ hnodup₁ (hbrk.trans_le hgrouped.kept.brk) (hgrouped.kept.innerOrder.trans hio)
          (by omega)
      rw [hlen] at hrun
      refine ⟨t', nl', L, T, hrun, hptr, hT, hleaves.trans hgrouped.leaves, hTnodup, fun p hp => ?_,
        hgrouped.kept.trans hkept⟩
      rcases hTmem p hp with hp | hp
      · exact (hmem₁ p hp).imp_right fun hp => ⟨hp.1, hp.2.trans_le hkept.brk⟩
      · exact .inr ⟨hgrouped.kept.brk.trans hp.1, hp.2⟩

/-! ## The whole tree -/

/-- The number of leaves of `count` entries. -/
theorem ceilDiv_leaves {count : Nat} (h0 : 0 < count) (hcount : count ≤ 63 * (2 ^ 32 - 1)) :
    ceilDiv count 63 % 2 ^ 32 = ceilDiv count 63 ∧ 0 < ceilDiv count 63 ∧ ceilDiv count 63 ≤ count ∧
      minEntries (decide (ceilDiv count 63 = 1)) * ceilDiv count 63 ≤ count ∧
        count ≤ 63 * ceilDiv count 63 := by
  unfold ceilDiv minEntries
  refine ⟨Nat.mod_eq_of_lt (by omega), by omega, by omega, ?_, by omega⟩
  by_cases h1 : (count + (63 - 1)) / 63 = 1
  · rw [h1]
    simp
  · rw [if_neg (by simpa using h1)]
    omega

/-- The leaves of a bulk load as trees. -/
def leafShapes (ls : List (Ptr × List Ptr)) : List Shape := ls.map fun x => .leaf x.1 x.2

theorem leafShapes_facts (ls : List (Ptr × List Ptr)) :
    (leafShapes ls).flatMap PtrTree.leaves = ls ∧ (leafShapes ls).flatMap PtrTree.ptrs =
    ls.map Prod.fst ∧ (leafShapes ls).map ptr = ls.map Prod.fst ∧
      (leafShapes ls).length = ls.length := by
  unfold leafShapes
  refine ⟨?_, ?_, ?_, by simp⟩
  · induction ls with
    | nil => rfl
    | cons x ls ih => rw [List.map_cons, List.flatMap_cons, ih, leaves_leaf, List.singleton_append]
  · induction ls with
    | nil => rfl
    | cons x ls ih =>
      rw [List.map_cons, List.flatMap_cons, ih, ptrs_leaf, List.singleton_append, List.map_cons]
  · rw [List.map_map]
    rfl

theorem Rowed.sub {node : Ptr} {ls : List (Ptr × List Ptr)}
    (h : Rowed t t' node r (minEntries root) 63 ls) :
    ∀ c ∈ leafShapes ls, Sub t' root 0 c := by
  intro c hc
  obtain ⟨x, hx, rfl⟩ := List.mem_map.1 hc
  obtain ⟨hentries, hleaf, hlevel, hleast, hmost⟩ := h.leaf x hx
  exact ⟨hentries, hleaf, hlevel, hleast, hmost⟩

/-- A row of new leaves in `t₁`, and nothing else. -/
structure Laid (t t₁ : Tree K V) (root : Bool) (ls : List (Ptr × List Ptr)) : Prop where
  sub : ∀ c ∈ leafShapes ls, Sub t₁ root 0 c
  chain : Chain (fun p => (t₁.node p).next) t₁.min (ls.map Prod.fst) 0
  fresh : ∀ p ∈ ls.map Prod.fst, t.brk ≤ p ∧ p < t₁.brk
  nodup : (ls.map Prod.fst).Nodup
  node : ∀ p < t.brk, t₁.node p = t.node p
  entry : t₁.entry = t.entry
  path : t₁.path = t.path
  innerOrder : t₁.innerOrder = t.innerOrder
  leafOrder : t₁.leafOrder = t.leafOrder
  brk : t.brk ≤ t₁.brk

theorem Rowed.laid {ls : List (Ptr × List Ptr)} (h : Rowed t t' 0 r (minEntries root) 63 ls)
    (hr : r ≠ 0) :
    Laid t t' root ls := by
  have hmin : t'.min = t.brk := by
    rw [h.min, if_pos ⟨rfl, hr⟩]
  have hchain := h.chain
  rw [if_neg hr] at hchain
  refine ⟨h.sub, ?_, ?_, ?_, fun p hp => h.node p hp fun h0 => absurd rfl h0, h.entry, h.path,
    h.innerOrder, h.leafOrder, ?_⟩
  · rw [hmin, h.ptrs]
    exact hchain
  · intro p hp
    rw [h.ptrs, List.mem_range'_1] at hp
    rw [h.brk]
    exact hp
  · rw [h.ptrs]
    exact List.nodup_range'
  · rw [h.brk]
    exact Nat.le_add_right _ _

/-- A single leaf is the tree. -/
theorem Laid.single {t₁ : Tree K V} {p : Ptr} {es : List Ptr} (h : Laid t t₁ true [(p, es)])
    (hio : t.innerOrder = 32) (hlo : t.leafOrder = 64) (hbrk : 0 < t.brk) :
    Changed t { t₁ with root := t₁.min } [] 0 (.leaf p es) es := by
  have hp := h.fresh p (by simp)
  refine ⟨⟨h.chain.1, h.sub (.leaf p es) (by simp [leafShapes]), ?_, ?_, ?_, h.innerOrder.trans hio,
    h.leafOrder.trans hlo⟩, ?_, h.entry, h.path, h.brk, fun q hq _ => h.node q hq, ?_⟩
  · rw [ptrs_leaf]
    exact List.nodup_singleton p
  · intro q hq
    rw [ptrs_leaf, List.mem_singleton] at hq
    rw [hq]
    exact ⟨hbrk.trans_le hp.1, hp.2⟩
  · rw [leaves_leaf]
    exact h.chain
  · rw [elems_leaf]
  · intro q hq
    rw [ptrs_leaf, List.mem_singleton] at hq
    rw [hq]
    exact .inr hp.1

/-- The levels above a row of leaves. -/
theorem Laid.levels {t₁ : Tree K V} {ls : List (Ptr × List Ptr)} (h : Laid t t₁ false ls)
    (hio : t.innerOrder = 32) (hlo : t.leafOrder = 64) (hbrk : 0 < t.brk) (hlen : 1 < ls.length)
    (hr : ls.length ≤ r) (nl : Nat → Ptr × K) :
    ∃ t₂ nl₂ t' nl' L T, bulkParents (ceilDiv ls.length 32) 0 t₁ t₁.min ls.length nl = (t₂, nl₂) ∧
      bulkLevels r (ceilDiv ls.length 32) t₂ nl₂ = some (t', nl') ∧ t'.count = t₁.count ∧
      Changed t { t' with root := (nl' 0).1 } [] L T (ls.flatMap Prod.snd) := by
  obtain ⟨hflat, hflatp, hptrs, hshapes⟩ := leafShapes_facts ls
  obtain ⟨hlt, hpar, hplo, hphi⟩ := ceilDiv_parents hlen
  have hio₁ : t₁.innerOrder = 32 := h.innerOrder.trans hio
  have hbrk₁ : 0 < t₁.brk := hbrk.trans_le h.brk
  have hbound : ∀ c ∈ leafShapes ls, ∀ p ∈ c.ptrs, 0 < p ∧ p < t₁.brk := by
    intro c hc p hp
    have hmem : p ∈ ls.map Prod.fst := by
      rw [← hflatp]
      exact List.mem_flatMap.2 ⟨c, hc, hp⟩
    exact ⟨hbrk.trans_le (h.fresh p hmem).1, (h.fresh p hmem).2⟩
  -- level 1
  have hchain := h.chain
  rw [← hptrs] at hchain
  rw [← hshapes] at hplo hphi
  obtain ⟨ds, hgrouped⟩ := bulkParents_spec nl 0 hchain h.sub hbound hplo hphi
  rw [hshapes] at hgrouped
  generalize bulkParents (ceilDiv ls.length 32) 0 t₁ t₁.min ls.length nl = res at hgrouped ⊢
  obtain ⟨t₂, nl₂⟩ := res
  dsimp only at hgrouped
  have hdlen := hgrouped.length
  obtain ⟨hbound₂, hnodup₂, hmem₂⟩ := hgrouped.next hbound (by rw [hflatp]; exact h.nodup) hbrk₁
  have hsub₂ := hgrouped.sub
  rw [← hdlen] at hsub₂
  -- the levels above
  have hrow₂ : Row t₂ nl₂ 0 ds := by
    refine ⟨hgrouped.row.fst, fun j d hd => ?_⟩
    rw [minKey_of_entry hgrouped.kept.entry]
    exact hgrouped.row.snd j d hd
  have hds : ds ≠ [] := by
    intro hnil
    rw [hnil] at hdlen
    exact absurd hdlen (ne_of_lt hpar)
  obtain ⟨t', nl', L, T, hrun, hptr, hT, hTleaves, hTnodup, hTmem, hkept⟩ :=
    bulkLevels_spec (r := r) hrow₂ hds hsub₂ hbound₂ hnodup₂ (hbrk₁.trans_le hgrouped.kept.brk)
      (hgrouped.kept.innerOrder.trans hio₁) (by omega)
  rw [hdlen] at hrun
  have hall : Kept t₁ t' [] := hgrouped.kept.trans hkept
  have hTold : ∀ p ∈ T.ptrs, t.brk ≤ p ∧ p < t'.brk := by
    intro p hp
    rcases hTmem p hp with hp | hp
    · rcases hmem₂ p hp with hp | hp
      · rw [hflatp] at hp
        exact (h.fresh p hp).imp_right fun hlt => hlt.trans_le hall.brk
      · exact ⟨h.brk.trans hp.1, hp.2.trans_le hkept.brk⟩
    · exact ⟨h.brk.trans (hgrouped.kept.brk.trans hp.1), hp.2⟩
  have hTl : T.leaves = ls := by rw [hTleaves, hgrouped.leaves, hflat]
  refine ⟨t₂, nl₂, t', nl', L, T, rfl, hrun, hall.count,
    ⟨hptr, ?_, hTnodup, ?_, ?_, hall.innerOrder.trans hio₁,
    hall.leafOrder.trans (h.leafOrder.trans hlo)⟩, ?_, hall.entry.trans h.entry,
    hall.path.trans h.path, h.brk.trans hall.brk, ?_,
    fun p hp => .inr (hTold p hp).1⟩
  · exact hT.congr (fun _ _ => rfl) fun _ _ => rfl
  · exact fun p hp => ⟨hbrk.trans_le (hTold p hp).1, (hTold p hp).2⟩
  · show Chain (fun p => (t'.node p).next) t'.min (T.leaves.map Prod.fst) 0
    rw [hall.min, hTl]
    refine h.chain.congr fun q hq => ?_
    rw [hall.node q (h.fresh q hq).2 List.not_mem_nil]
  · unfold PtrTree.elems
    rw [hTl]
  · intro q hq _
    show t'.node q = t.node q
    rw [hall.node q (hq.trans_le h.brk) List.not_mem_nil, h.node q hq]

/-- **A bulk load** makes a tree of the entries as they are read. -/
theorem bptreeBulkLoad_spec (e : Nat → Ptr) {count : Nat} (nl : Nat → Ptr × K)
    (hio : t.innerOrder = 32) (hlo : t.leafOrder = 64) (hbrk : 0 < t.brk) (h0 : 0 < count)
    (hcount : count ≤ 63 * (2 ^ 32 - 1)) (hr : count ≤ r) :
    ∃ t' L T, bptreeBulkLoad r t e count nl = some t' ∧ t'.count = BitVec.ofNat 64 count ∧
      Changed t t' [] L T (readEntries e 0 count) := by
  obtain ⟨hmod, hleaves, hle, hleast, hmost⟩ := ceilDiv_leaves h0 hcount
  unfold bptreeBulkLoad
  dsimp only
  have hnum : ceilDiv count (t.leafOrder - 1) % 2 ^ 32 = ceilDiv count 63 := by
    rw [hlo]
    exact hmod
  rw [hnum]
  have hnode : 0 < Tree.brk { t with count := BitVec.ofNat 64 count } := hbrk
  obtain ⟨ls, hzero, hrow, hread⟩ := bulkLeaves_spec (e := e) hnode hleast hmost (by norm_num) 0
  rw [Nat.zero_mod] at hzero hrow
  generalize bulkLeaves e (ceilDiv count 63) { t with count := BitVec.ofNat 64 count } 0 count 0 =
    res at hzero hrow ⊢
  obtain ⟨t₁, left⟩ := res
  dsimp only at hzero hrow ⊢
  rw [if_neg (not_not.2 hzero)]
  generalize ceilDiv count 63 = leaves at hleaves hle hleast hmost hrow ⊢
  have hlslen : ls.length = leaves := by
    have := congrArg List.length hrow.ptrs
    rwa [List.length_map, List.length_range'] at this
  have hlaid := hrow.laid (Nat.ne_of_gt hleaves)
  -- only the count of the tree differs
  have hlaid' : Laid t t₁ (decide (leaves = 1)) ls :=
    ⟨hlaid.sub, hlaid.chain, hlaid.fresh, hlaid.nodup, hlaid.node, hlaid.entry, hlaid.path,
      hlaid.innerOrder, hlaid.leafOrder, hlaid.brk⟩
  rw [← hread]
  by_cases hone : leaves = 1
  · rw [if_pos hone]
    rw [decide_eq_true hone] at hlaid'
    obtain ⟨⟨p, es⟩, rfl⟩ := List.length_eq_one_iff.1 (hlslen.trans hone)
    rw [List.flatMap_singleton]
    exact ⟨{ t₁ with root := t₁.min }, 0, .leaf p es, rfl, hrow.count, hlaid'.single hio hlo hbrk⟩
  · rw [if_neg hone]
    rw [decide_eq_false hone] at hlaid'
    obtain ⟨t₂, nl₂, t', nl', L, T, hparents, hrun, hnumber, hchanged⟩ :=
      hlaid'.levels hio hlo hbrk (by omega) (show ls.length ≤ r by omega) nl
    rw [hlslen] at hparents hrun
    refine ⟨{ t' with root := (nl' 0).1 }, L, T, ?_, hnumber.trans hrow.count, hchanged⟩
    rw [hlaid'.innerOrder.trans hio, hparents]
    dsimp only
    rw [hrun]
    rfl

end

end Bptree
