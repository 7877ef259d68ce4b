import DsAlgor.Bptree.Loaded
import DsAlgor.Bptree.Query

/-!
# Splitting a tree

`bptreeSplit` copies the entries into an array, loads the second part of it into a new tree, tears
the nodes of the old tree down, and loads the first part into the old tree. A bulk load of no
entries at all does not return, since the number of parents stays 0, and one of more than `2 ^ 32`
entries does not load them all. So a split is right exactly when both parts have entries, and at
most `2 ^ 32` of them (`split_right_iff`).
-/

namespace Bptree

open CArray

variable {K V α : Type}

/-- The loop of `_bptreeClearNode` over the children from number `i` on, with `r` of them to
come. -/
def clearChildren (clear : Tree K V → Ptr → Option (Tree K V)) (p : Ptr) : Nat → Nat → Tree K V →
    Option (Tree K V)
  | 0, _, t => some t
  | r + 1, i, t => do
    let t ← clear t ((t.node p).children i)
    clearChildren clear p r (i + 1)
      (t.setNode p { t.node p with children := Function.update (t.node p).children i 0 })

/-- `_bptreeClearNode` without `freeEntry`; what is freed stays as it is. -/
def clearNode : Nat → Tree K V → Ptr → Option (Tree K V)
  | 0, _, _ => none
  | r + 1, t, p =>
    if p = 0 then some t
    else
      let n := t.node p
      if n.leaf then
        some (t.setNode p { n with
          entries := fun i => if i < n.count then 0 else n.entries i
          next := if n.count = 0 then n.next else 0 })
      else clearChildren (clearNode r) p (n.count + 1) 0 t

/-- The tree `t`, with the heap of `s`. -/
def Tree.withHeap (t s : Tree K V) : Tree K V :=
  { t with node := s.node, entry := s.entry, path := s.path, brk := s.brk }

/-- The number of entries that stay. -/
def splitIndex [DecidableEq K] (type : KeyType K V) (r : Nat) (t : Tree K V) :
    Option K → Option (BitVec 64)
  | some key => (bptreeQuery type t (some key) 0 r none none none).map Prod.fst
  | none => some (t.count >>> 1)

/-- What `bptreeSplit` does when it has the entries and their number. -/
def splitLoad (r : Nat) (t : Tree K V) (entries : Nat → Ptr) (index : BitVec 64)
    (nextlevel nextlevel' : Nat → Ptr × K) :
    Option (Tree K V × Tree K V) := do
  let splitTree ← bptreeBulkLoad r (bptreeCreate t) (fun i => entries (index.toNat + i))
    (t.count - index).toNat nextlevel
  let t ← clearNode r (t.withHeap splitTree) t.root
  let t ← bptreeBulkLoad r t entries index.toNat nextlevel'
  return (t, splitTree.withHeap t)

/-- `bptreeSplit`: the tree and the new tree. `entries` and `nextlevel` are what is in the memory of
these arrays. -/
def bptreeSplit [DecidableEq K] (type : KeyType K V) (r : Nat) (t : Tree K V) (splitKey : Option K)
    (entries : Nat → Ptr) (nextlevel nextlevel' : Nat → Ptr × K) :
    Option (Tree K V × Tree K V) := do
  let (n, output) ← bptreeQuery type t none t.count r none (some entries) none
  if t.count ≠ n then none
  else
    let index ← splitIndex type r t splitKey
    splitLoad r t (output.getD entries) index nextlevel nextlevel'

/-! ## What a split should do -/

/-- The entries that stay in the tree. -/
def keptPart [LinearOrder α] (rank : K → α) (t : Tree K V) (es : List Ptr) : Option K → List Ptr
  | some key => es.filter fun e => rank (t.key e) < rank key
  | none => es.take (es.length / 2)

/-- The entries of the new tree. -/
def movedPart [LinearOrder α] (rank : K → α) (t : Tree K V) (es : List Ptr) : Option K → List Ptr
  | some key => es.filter fun e => rank key ≤ rank (t.key e)
  | none => es.drop (es.length / 2)

/-- A tree with the entries `es`, as they were in `t`. -/
structure Holding [DecidableEq K] [LinearOrder α] (type : KeyType K V) (rank : K → α)
    (t t' : Tree K V) (es : List Ptr) :
    Prop where
  stands : Stands rank t' es
  finds : Finds type rank t' es
  entry : t'.entry = t.entry
  count : t'.count = BitVec.ofNat 64 es.length

/-- The split returns, with the two parts in two trees. -/
def SplitRight [DecidableEq K] [LinearOrder α] (type : KeyType K V) (rank : K → α) (t : Tree K V)
    (es : List Ptr) (splitKey : Option K) (entries : Nat → Ptr)
    (nextlevel nextlevel' : Nat → Ptr × K) : Prop :=
  ∃ n t' splitTree, (∀ r ≥ n, bptreeSplit type r t splitKey entries nextlevel nextlevel' =
    some (t', splitTree)) ∧ Holding type rank t t' (keptPart rank t es splitKey) ∧
    Holding type rank t splitTree (movedPart rank t es splitKey)

open PtrTree

/-! ## Tearing down -/

/-- Only the nodes `ps` are written. -/
structure Within (t t' : Tree K V) (ps : List Ptr) : Prop where
  eq : t' = { t with node := t'.node }
  node : ∀ p, p ∉ ps → t'.node p = t.node p

section
variable {t t' t'' : Tree K V} {l r : Nat} {T : Shape} {cs : List Shape} {p : Ptr}
  {ps qs : List Ptr} {root : Bool}

theorem Within.refl (t : Tree K V) (ps : List Ptr) : Within t t ps := ⟨rfl, fun _ _ => rfl⟩

theorem Within.trans (h : Within t t' ps) (h' : Within t' t'' qs) (hps : ps ⊆ qs) :
    Within t t'' qs := by
  refine ⟨?_, fun p hp => ?_⟩
  · rw [h'.eq, h.eq]
  · rw [h'.node p hp, h.node p fun hmem => hp (hps hmem)]

theorem Within.mono (h : Within t t' ps) (hps : ps ⊆ qs) : Within t t' qs :=
  ⟨h.eq, fun p hp => h.node p fun hmem => hp (hps hmem)⟩

theorem within_setNode (n : Node K) (hp : p ∈ ps) : Within t (t.setNode p n) ps :=
  ⟨rfl, fun q hq => Function.update_of_ne (fun heq : q = p => hq (heq ▸ hp)) _ _⟩

theorem Within.key (h : Within t t' ps) (e : Ptr) : t'.key e = t.key e := by
  rw [h.eq]
  rfl

/-- A tree apart from what is written. -/
theorem Within.sub (h : Within t t' ps) (hT : Sub t root l T) (hdisj : ∀ q ∈ T.ptrs, q ∉ ps) :
    Sub t' root l T :=
  hT.congr (fun q hq => h.node q (hdisj q hq)) fun e _ => h.key e

theorem clearChildren_spec {i : Nat}
    (ih : ∀ (t : Tree K V) (c : Shape), Sub t false l c → c.ptrs.Nodup → (∀ q ∈ c.ptrs, q ≠ 0) →
      ∃ t', clearNode r t c.ptr = some t' ∧ Within t t' c.ptrs)
    (hcs : ∀ c ∈ cs, Sub t false l c) (hne : ∀ c ∈ cs, ∀ q ∈ c.ptrs, q ≠ 0)
      (hnodup : (p :: cs.flatMap ptrs).Nodup)
    (hchild : Rep (fun j => (t.node p).children (i + j)) (cs.map ptr)) :
    ∃ t', clearChildren (clearNode r) p cs.length i t = some t' ∧
      Within t t' (p :: cs.flatMap ptrs) := by
  induction cs generalizing t i with
  | nil => exact ⟨t, rfl, Within.refl _ _⟩
  | cons c cs ihcs =>
    rw [List.flatMap_cons] at hnodup ⊢
    obtain ⟨hp, hnodup⟩ := List.nodup_cons.1 hnodup
    obtain ⟨hc, hrest, hdisj⟩ := List.nodup_append.1 hnodup
    obtain ⟨t₁, hrun₁, hw₁⟩ := ih t c (hcs c List.mem_cons_self) hc (hne c List.mem_cons_self)
    have hfirst : (t.node p).children (i + 0) = c.ptr := hchild.get (j := 0) rfl
    rw [Nat.add_zero] at hfirst
    have hpc : p ∉ c.ptrs := fun hmem => hp (List.mem_append_left _ hmem)
    have hpcs : p ∉ cs.flatMap ptrs := fun hmem => hp (List.mem_append_right _ hmem)
    have hnode : t₁.node p = t.node p := hw₁.node p hpc
    -- the node without this child
    obtain ⟨t₂, ht₂⟩ : ∃ t₂,
      t₂ = t₁.setNode p { t₁.node p with children := Function.update (t₁.node p).children i 0 } :=
      ⟨_, rfl⟩
    have hw₂ : Within t t₂ (p :: c.ptrs) := by
      rw [ht₂]
      exact hw₁.trans (within_setNode _ List.mem_cons_self) (List.subset_cons_self _ _)
    have hsub : ∀ d ∈ cs, Sub t₂ false l d := by
      intro d hd
      apply hw₂.sub (hcs d (List.mem_cons_of_mem _ hd))
      intro q hq hmem
      have hqcs : q ∈ cs.flatMap ptrs := List.mem_flatMap.2 ⟨d, hd, hq⟩
      rcases List.mem_cons.1 hmem with rfl | hmem
      · exact hpcs hqcs
      · exact hdisj q hmem q hqcs rfl
    have hchild₂ : Rep (fun j => (t₂.node p).children (i + 1 + j)) (cs.map ptr) := by
      refine hchild.tail.congr fun j hj => ?_
      rw [ht₂, setNode_self]
      dsimp only
      rw [Function.update_of_ne (by omega), hnode]
      exact congrArg _ (by omega)
    obtain ⟨t₃, hrun₃, hw₃⟩ := ihcs hsub (fun d hd => hne d (List.mem_cons_of_mem _ hd))
      (List.nodup_cons.2 ⟨hpcs, hrest⟩) hchild₂
    refine ⟨t₃, ?_, ?_⟩
    · rw [List.length_cons, clearChildren, hfirst, hrun₁]
      dsimp only [bind, Option.bind]
      rw [← ht₂]
      exact hrun₃
    · have hleft : p :: c.ptrs ⊆ p :: (c.ptrs ++ cs.flatMap ptrs) :=
        List.cons_subset_cons p (List.subset_append_left _ _)
      have hright : p :: cs.flatMap ptrs ⊆ p :: (c.ptrs ++ cs.flatMap ptrs) :=
        List.cons_subset_cons p (List.subset_append_right _ _)
      exact (hw₂.mono hleft).trans (hw₃.mono hright) (List.Subset.refl _)

/-- A tree is torn down without touching anything else. -/
theorem clearNode_spec (h : Sub t root l T) (hnodup : T.ptrs.Nodup) (hpos : ∀ q ∈ T.ptrs, q ≠ 0)
    (hr : l < r) :
    ∃ t', clearNode r t T.ptr = some t' ∧ Within t t' T.ptrs := by
  induction l generalizing t T root r with
  | zero =>
    obtain ⟨r, rfl⟩ := Nat.exists_eq_succ_of_ne_zero (Nat.ne_zero_of_lt hr)
    cases T with
    | node p cs => exact h.elim
    | leaf p es =>
      have hleaf : (t.node p).leaf = true := LeafOk.leaf h
      rw [ptr_leaf, clearNode, if_neg (hpos p (by simp))]
      dsimp only
      rw [if_pos hleaf]
      exact ⟨_, rfl, within_setNode _ (by simp)⟩
  | succ l ih =>
    obtain ⟨r, rfl⟩ := Nat.exists_eq_succ_of_ne_zero (Nat.ne_zero_of_lt hr)
    cases T with
    | leaf p es => exact h.elim
    | node p cs =>
      obtain ⟨hnode, hcs⟩ := h
      have hcount := hnode.count
      rw [List.length_map] at hcount
      have hchild : Rep (fun j => (t.node p).children (0 + j)) (cs.map ptr) := by
        have hrep := hnode.child
        rw [List.map_map] at hrep
        exact hrep.congr fun j _ => congrArg _ (Nat.zero_add j)
      rw [ptrs_node] at hnodup hpos ⊢
      have hne : ∀ c ∈ cs, ∀ q ∈ c.ptrs, q ≠ 0 := fun c hc q hq =>
        hpos q (List.mem_cons_of_mem _ (List.mem_flatMap.2 ⟨c, hc, hq⟩))
      rw [ptr_node, clearNode, if_neg (hpos p List.mem_cons_self)]
      dsimp only
      rw [hnode.leaf, if_neg Bool.false_ne_true, hcount]
      exact clearChildren_spec (fun t c hc hnodup hpos =>
        ih hc hnodup hpos (Nat.lt_of_succ_lt_succ hr)) hcs hne hnodup hchild

theorem clearChildren_mono {clear clear' : Tree K V → Ptr → Option (Tree K V)}
    (hclear : ∀ t p t', clear t p = some t' → clear' t p = some t') {n i : Nat}
    (h : clearChildren clear p n i t = some t') : clearChildren clear' p n i t = some t' := by
  induction n generalizing i t with
  | zero => exact h
  | succ n ih =>
    obtain ⟨t₁, hrun, hrest⟩ := Option.bind_eq_some_iff.1 h
    exact Option.bind_eq_some_iff.2 ⟨t₁, hclear _ _ _ hrun, ih hrest⟩

theorem clearNode_mono {s : Nat} (h : clearNode r t p = some t') (hr : r ≤ s) :
    clearNode s t p = some t' := by
  induction r generalizing t p t' s with
  | zero => cases h
  | succ r ih =>
    obtain ⟨s, rfl⟩ := Nat.exists_eq_succ_of_ne_zero (Nat.ne_zero_of_lt hr)
    rw [clearNode] at h ⊢
    dsimp only at h ⊢
    by_cases h0 : p = 0
    · rwa [if_pos h0] at h ⊢
    rw [if_neg h0] at h ⊢
    by_cases hleaf : (t.node p).leaf = true
    · rwa [if_pos hleaf] at h ⊢
    · rw [if_neg hleaf] at h ⊢
      exact clearChildren_mono (fun t p t' hrun => ih hrun (Nat.le_of_succ_le_succ hr)) h

end

/-! ## Bulk loads of any size -/

/-- Only new nodes are written. -/
structure OnlyNew (t t' : Tree K V) : Prop where
  entry : t'.entry = t.entry
  min : t'.min = t.min
  brk : t.brk ≤ t'.brk
  node : ∀ p < t.brk, t'.node p = t.node p

/-- A chain of new leaves, with entries of the array. -/
structure Loads (t t' : Tree K V) (e : Nat → Ptr) (ps : List Ptr) : Prop where
  entry : t'.entry = t.entry
  brk : t.brk ≤ t'.brk
  node : ∀ p < t.brk, t'.node p = t.node p
  fresh : ∀ p ∈ ps, t.brk ≤ p ∧ p < t'.brk
  chain : Chain (fun p => (t'.node p).next) t'.min ps 0
  held : ∀ p ∈ ps, ∀ x ∈ (t'.node p).held, ∃ j < 2 ^ 32, x = e j

section
variable {t t' t'' : Tree K V} {e : Nat → Ptr} {r : Nat}

theorem OnlyNew.refl (t : Tree K V) : OnlyNew t t := ⟨rfl, rfl, le_rfl, fun _ _ => rfl⟩

theorem OnlyNew.trans (h : OnlyNew t t') (h' : OnlyNew t' t'') : OnlyNew t t'' :=
  ⟨h'.entry.trans h.entry, h'.min.trans h.min, h.brk.trans h'.brk,
    fun p hp => (h'.node p (hp.trans_le h.brk)).trans (h.node p hp)⟩

/-- A new node, with anything in it. -/
theorem onlyNew_allocate (t : Tree K V) (leaf : Bool) (n : Node K) :
    OnlyNew t ((t.allocateNode leaf).2.setNode t.brk n) :=
  ⟨rfl, rfl, Nat.le_succ _,
    fun p hp => by rw [setNode_of_ne (ne_of_lt hp), allocateNode_of_ne (ne_of_lt hp)]⟩

theorem bulkParents_onlyNew (r i : Nat) (t : Tree K V) (leaf : Ptr) (leaves : Nat)
    (nl : Nat → Ptr × K) :
    OnlyNew t (bulkParents r i t leaf leaves nl).1 := by
  induction r generalizing i t leaf leaves nl with
  | zero => exact OnlyNew.refl t
  | succ r ih =>
    rw [bulkParents]
    dsimp only
    exact (onlyNew_allocate t false _).trans (ih _ _ _ _ _)

theorem bulkLevel_onlyNew (r i index : Nat) (t : Tree K V) (children : Nat) (nl : Nat → Ptr × K) :
    OnlyNew t (bulkLevel r i index t children nl).1 := by
  induction r generalizing i index t children nl with
  | zero => exact OnlyNew.refl t
  | succ r ih =>
    rw [bulkLevel]
    dsimp only
    exact (onlyNew_allocate t false _).trans (ih _ _ _ _ _)

theorem bulkLevels_onlyNew {parents : Nat} {nl : Nat → Ptr × K} {x : Tree K V × (Nat → Ptr × K)}
    (h : bulkLevels r parents t nl = some x) : OnlyNew t x.1 := by
  induction r generalizing parents t nl with
  | zero => cases h
  | succ r ih =>
    rw [bulkLevels] at h
    dsimp only at h
    split_ifs at h
    · rw [← Option.some.inj h]
      exact OnlyNew.refl t
    · exact (bulkLevel_onlyNew _ _ _ _ _ _).trans (ih h)

theorem mem_held_copy {n : Node K} {c index : Nat} {x : Ptr} (hcount : n.count = c)
    {dst : Nat → Ptr} (hentries : n.entries = copy (fun i => e (i % 2 ^ 32)) c index 0 dst)
    (hx : x ∈ n.held) : ∃ j < 2 ^ 32, x = e j := by
  unfold Node.held at hx
  obtain ⟨j, hj, rfl⟩ := List.mem_map.1 hx
  rw [hcount, List.mem_range] at hj
  rw [hentries, copy_apply, if_pos ⟨Nat.zero_le _, by omega⟩]
  exact ⟨_, Nat.mod_lt _ (by norm_num), rfl⟩

/-- The row of new leaves behind `node`, whatever their sizes. -/
theorem bulkLeaves_chain {node : Ptr} (hnode : node < t.brk) (r count index : Nat) :
    ∃ t', t' = (bulkLeaves e r t node count index).1 ∧ t'.entry = t.entry ∧ t'.brk = t.brk + r ∧
      t'.min = (if node = 0 ∧ r ≠ 0 then t.brk else t.min) ∧
      (∀ p < t.brk, (node ≠ 0 → p ≠ node) → t'.node p = t.node p) ∧
      (node ≠ 0 → t'.node node =
      { t.node node with next := if r = 0 then (t.node node).next else t.brk }) ∧
      Chain (fun p => (t'.node p).next) (if r = 0 then 0 else t.brk) (List.range' t.brk r) 0 ∧
      ∀ p ∈ List.range' t.brk r, ∀ x ∈ (t'.node p).held, ∃ j < 2 ^ 32, x = e j := by
  induction r generalizing t node count index with
  | zero =>
    refine ⟨t, rfl, rfl, rfl, ?_, fun _ _ _ => rfl, fun _ => rfl, rfl, fun p hp => (nomatch hp)⟩
    rw [if_neg (by simp)]
  | succ r ih =>
    rw [bulkLeaves_succ r hnode]
    generalize count / (r + 1) % 2 ^ 32 = c
    obtain ⟨t₁, ht₁⟩ : ∃ t₁, t₁ = oneLeaf e t node c index := ⟨_, rfl⟩
    obtain ⟨hmin, hentry, -, -, -, -, -, hbrk⟩ := @oneLeaf_rest _ _ e t node c index
    rw [← ht₁] at hmin hentry hbrk ⊢
    have hbrk0 : t.brk ≠ 0 := Nat.ne_of_gt (Nat.zero_lt_of_lt hnode)
    have hlt : t.brk < t₁.brk := by
      rw [hbrk]
      exact Nat.lt_succ_self _
    obtain ⟨t', ht', hentry', hbrk', hmin', hold, hlast, hchain, hheld⟩ :=
      @ih t₁ t.brk hlt (count - c) ((index + c) % 2 ^ 32)
    have hnew := hlast hbrk0
    rw [ht₁, oneLeaf_new, ← ht₁] at hnew
    refine ⟨t', ht', hentry'.trans hentry, ?_, ?_, fun p hp hne => ?_, fun h0 => ?_, ⟨rfl, ?_⟩,
      fun p hp x hx => ?_⟩
    · rw [hbrk', hbrk, Nat.add_assoc, Nat.add_comm 1 r]
    · rw [hmin', hmin, if_neg fun hand => hbrk0 hand.1]
      by_cases h0 : node = 0
      · rw [if_pos h0, if_pos ⟨h0, Nat.succ_ne_zero r⟩]
      · rw [if_neg h0, if_neg fun hand => h0 hand.1]
    · rw [hold p (hp.trans hlt) fun _ => ne_of_lt hp, ht₁, oneLeaf_old hp hne]
    · rw [hold node (hnode.trans hlt) fun _ => ne_of_lt hnode, ht₁, oneLeaf_last hnode h0,
        if_neg (Nat.succ_ne_zero r)]
    · rw [hbrk] at hchain
      beta_reduce
      rw [hnew, hbrk]
      exact hchain
    · rw [List.range'_succ, List.mem_cons] at hp
      rcases hp with rfl | hp
      · exact mem_held_copy (by rw [hnew]) (by rw [hnew]) hx
      · rw [hbrk] at hheld
        exact hheld p hp x hx

theorem ceilDiv_zero (b : Nat) : ceilDiv 0 b = 0 := by
  unfold ceilDiv
  rcases Nat.eq_zero_or_pos b with rfl | hb
  · rfl
  · exact Nat.div_eq_of_lt (by omega)

/-- The number of parents stays 0. -/
theorem bulkLevels_zero (r : Nat) (t : Tree K V) (nl : Nat → Ptr × K) :
    bulkLevels r 0 t nl = none := by
  induction r generalizing t nl with
  | zero => rfl
  | succ r ih =>
    rw [bulkLevels, if_neg (by norm_num)]
    dsimp only
    rw [ceilDiv_zero]
    exact ih t nl

/-- A bulk load of no entries does not return. -/
theorem bptreeBulkLoad_zero (r : Nat) (t : Tree K V) (e : Nat → Ptr) (nl : Nat → Ptr × K) :
    bptreeBulkLoad r t e 0 nl = none := by
  unfold bptreeBulkLoad
  dsimp only
  rw [ceilDiv_zero, Nat.zero_mod, bulkLeaves, if_neg (by simp), if_neg (by norm_num), ceilDiv_zero,
    bulkParents, bulkLevels_zero]
  rfl

/-- What a bulk load does that returns. -/
theorem loads_of_bulkLoad {count : Nat} {nl : Nat → Ptr × K} (hbrk : 0 < t.brk)
    (h : bptreeBulkLoad r t e count nl = some t') :
    ∃ ps, Loads t t' e ps := by
  unfold bptreeBulkLoad at h
  dsimp only at h
  generalize ceilDiv count (t.leafOrder - 1) % 2 ^ 32 = leaves at h
  have hmem : 0 < Tree.brk { t with count := BitVec.ofNat 64 count } := hbrk
  obtain ⟨t₁, ht₁, hentry, hbrk₁, hmin, hold, -, hchain, hheld⟩ :=
    bulkLeaves_chain (e := e) hmem leaves count 0
  rw [← ht₁] at h
  have hnew : leaves ≠ 0 ∧ ∃ t₂, OnlyNew t₁ t₂ ∧ t'.entry = t₂.entry ∧ t'.min = t₂.min ∧
    t'.brk = t₂.brk ∧ t'.node = t₂.node := by
    split_ifs at h with hrest hone
    · rw [hone, ← Option.some.inj h]
      exact ⟨one_ne_zero, t₁, OnlyNew.refl t₁, rfl, rfl, rfl, rfl⟩
    · obtain ⟨x, hx, h⟩ := Option.bind_eq_some_iff.1 h
      rw [← Option.some.inj h]
      refine ⟨?_, x.1, (bulkParents_onlyNew _ _ _ _ _ _).trans (bulkLevels_onlyNew hx), rfl,
        rfl, rfl, rfl⟩
      rintro rfl
      rw [ceilDiv_zero, bulkLevels_zero] at hx
      cases hx
  obtain ⟨h0, t₂, honly, hentry', hmin', hbrk', hnode'⟩ := hnew
  have hrow : ∀ p ∈ List.range' t.brk leaves, t.brk ≤ p ∧ p < t₁.brk := by
    intro p hp
    rw [hbrk₁]
    exact List.mem_range'_1.1 hp
  have hsame : ∀ p < t₁.brk, t'.node p = t₁.node p := by
    intro p hp
    rw [hnode']
    exact honly.node p hp
  have hle : t.brk ≤ t₁.brk := by
    rw [hbrk₁]
    exact Nat.le_add_right _ _
  refine ⟨List.range' t.brk leaves, (hentry'.trans honly.entry).trans hentry, ?_, fun p hp => ?_,
    fun p hp => ?_, ?_, fun p hp x hx => ?_⟩
  · rw [hbrk']
    exact hle.trans honly.brk
  · rw [hsame p (hp.trans_le hle)]
    exact hold p hp fun hno => absurd rfl hno
  · rw [hbrk']
    exact (hrow p hp).imp_right fun hlt => hlt.trans_le honly.brk
  · rw [hmin', honly.min, hmin, if_pos ⟨rfl, h0⟩]
    rw [if_neg h0] at hchain
    exact hchain.congr fun p hp => by rw [hsame p (hrow p hp).2]
  · rw [hsame p (hrow p hp).2] at hx
    exact hheld p hp x hx

end

/-! ## The queries -/

section
variable [DecidableEq K] [LinearOrder α] {type : KeyType K V} {rank : K → α} {t : Tree K V}
  {es : List Ptr}

omit [DecidableEq K] in
/-- The parts are a beginning and the rest. -/
theorem kept_append_moved (hasc : Ascending rank t es) (splitKey : Option K) :
    keptPart rank t es splitKey ++ movedPart rank t es splitKey = es := by
  cases splitKey with
  | none => exact List.take_append_drop _ _
  | some key =>
    show es.filter (fun e => rank (t.key e) < rank key) ++ es.filter
      (fun e => rank key ≤ rank (t.key e)) = es
    induction es with
    | nil => rfl
    | cons e es ih =>
      obtain ⟨hlt, hasc⟩ := List.pairwise_cons.1 hasc
      by_cases he : rank (t.key e) < rank key
      · rw [List.filter_cons_of_pos (by simpa using he),
          List.filter_cons_of_neg (by simpa using he), List.cons_append, ih hasc]
      · have hall : ∀ x ∈ e :: es, rank key ≤ rank (t.key x) := by
          intro x hx
          rcases List.mem_cons.1 hx with rfl | hx
          · exact not_lt.1 he
          · exact (not_lt.1 he).trans (hlt x hx).le
        rw [List.filter_eq_nil_iff.2 fun x hx => by simpa using hall x hx,
          List.filter_eq_self.2 fun x hx => by simpa using hall x hx]
        rfl

/-- The array after the first query. -/
def listed (es : List Ptr) (entries : Nat → Ptr) (i : Nat) : Ptr := (es[i]?).getD (entries i)

theorem Stands.query_all (ho : KeyOrder type rank) (h : Stands rank t es)
    (hcount : t.count.toNat = es.length) (entries : Nat → Ptr) :
    ∃ n, ∀ r ≥ n, bptreeQuery type t none t.count r none
      (some entries) none = some (t.count, some (listed es entries)) := by
  have hquery : QueryRight type rank t es none (some entries) t.count none none :=
    h.query_min ho none
  obtain ⟨n, hn⟩ := hquery
  refine ⟨n, fun r hr => ?_⟩
  obtain ⟨out, hrun, hwritten⟩ := hn r hr
  have hall : inRange rank t none none es = es := List.filter_eq_self.2 fun _ _ => rfl
  rw [hall, hcount, List.take_length] at hrun hwritten
  have hout : out = listed es entries := by
    funext i
    rw [hwritten i, if_pos (Nat.zero_le i), Nat.sub_zero]
    rfl
  have hnat : BitVec.ofNat 64 es.length = t.count := by
    rw [← hcount, BitVec.ofNat_toNat, BitVec.setWidth_eq]
  rw [hrun, hout, hnat]

theorem Stands.query_index (ho : KeyOrder type rank) (h : Stands rank t es)
    (hcount : t.count.toNat = es.length) (splitKey : Option K) :
    ∃ n, ∀ r ≥ n, splitIndex type r t splitKey =
      some (BitVec.ofNat 64 (keptPart rank t es splitKey).length) := by
  cases splitKey with
  | none =>
    refine ⟨0, fun r _ => ?_⟩
    rw [splitIndex, keptPart, List.length_take_of_le (Nat.div_le_self _ _)]
    refine congrArg some (BitVec.eq_of_toNat_eq ?_)
    have hlt := t.count.isLt
    rw [BitVec.toNat_ushiftRight, hcount, BitVec.toNat_ofNat, Nat.shiftRight_eq_div_pow, pow_one,
      Nat.mod_eq_of_lt (by omega)]
  | some key =>
    have hquery : QueryRight type rank t es none none 0 none (some key) := h.query_min ho none
    obtain ⟨n, hn⟩ := hquery
    refine ⟨n, fun r hr => ?_⟩
    have hrun : bptreeQuery type t (some key) 0 r none none none = _ := hn r hr
    have hkept : inRange rank t none (some key) es = keptPart rank t es (some key) :=
      List.filter_congr fun e _ => by simp
    rw [splitIndex, hrun, hkept]
    rfl

theorem bptreeSplit_eq (ho : KeyOrder type rank) (h : Stands rank t es)
    (hcount : t.count.toNat = es.length) (splitKey : Option K) (entries : Nat → Ptr)
    (nl nl' : Nat → Ptr × K) :
    ∃ n, ∀ r ≥ n, bptreeSplit type r t splitKey entries nl nl' =
      splitLoad r t (listed es entries)
        (BitVec.ofNat 64 (keptPart rank t es splitKey).length) nl nl' := by
  obtain ⟨n, hn⟩ := h.query_all ho hcount entries
  obtain ⟨n', hn'⟩ := h.query_index ho hcount splitKey
  refine ⟨max n n', fun r hr => ?_⟩
  unfold bptreeSplit
  rw [hn r (le_of_max_le_left hr)]
  dsimp only [bind, Option.bind]
  rw [if_neg (not_not.2 rfl), hn' r (le_of_max_le_right hr)]
  rfl

end

/-! ## The two trees -/

section
variable [LinearOrder α] {rank : K → α} {t s t' : Tree K V} {es : List Ptr} {L : Nat} {T : Shape}

omit [LinearOrder α] in
/-- A tree in a heap that has its nodes and entries. -/
theorem Built.withHeap (h : Built s L T) (hnode : ∀ p ∈ T.ptrs, t'.node p = s.node p)
    (hentry : t'.entry = s.entry) (hbrk : s.brk ≤ t'.brk) : Built (s.withHeap t') L T := by
  have hkey : ∀ e, (s.withHeap t').key e = s.key e := by
    intro e
    show (t'.entry e).key = (s.entry e).key
    rw [hentry]
  refine ⟨h.root, h.sub.congr hnode fun e _ => hkey e, h.nodup, fun p hp => ?_, ?_,
    h.innerOrder, h.leafOrder⟩
  · exact (h.bound p hp).imp_right fun hlt => hlt.trans_le hbrk
  · refine h.chain.congr fun p hp => ?_
    show (t'.node p).next = (s.node p).next
    rw [hnode p ((leaves_sublist T).subset hp)]

theorem Holds.withHeap (h : Holds rank s L T) (hnode : ∀ p ∈ T.ptrs, t'.node p = s.node p)
    (hentry : t'.entry = s.entry) (hbrk : s.brk ≤ t'.brk) : Holds rank (s.withHeap t') L T := by
  refine ⟨h.toBuilt.withHeap hnode hentry hbrk, fun e he => (h.stored e he).imp_right fun hlt =>
    hlt.trans_le hbrk, h.ascending.congr fun e _ => ?_⟩
  show (t'.entry e).key = (s.entry e).key
  rw [hentry]

omit [LinearOrder α] in
/-- The old nodes, in the heap with those of the new tree. -/
theorem Built.clear (h : Built t L T) (hentry : s.entry = t.entry)
    (hnode : ∀ p < t.brk, s.node p = t.node p) {r : Nat} (hr : L < r) :
    ∃ t', clearNode r (t.withHeap s) t.root = some t' ∧ Within (t.withHeap s) t' T.ptrs := by
  have hsub : Sub (t.withHeap s) true L T := by
    refine h.sub.congr (fun p hp => hnode p (h.bound p hp).2) fun e _ => ?_
    show (s.entry e).key = (t.entry e).key
    rw [hentry]
  rw [h.root]
  exact clearNode_spec hsub h.nodup (fun q hq => Nat.ne_of_gt (h.bound q hq).1) hr

/-- A bulk load of a list. -/
theorem load_list {e : Nat → Ptr} {A : List Ptr} (hio : t.innerOrder = 32) (hlo : t.leafOrder = 64)
    (hbrk : 0 < t.brk) (hA : A ≠ []) (hlen : A.length ≤ 2 ^ 32)
    (hstored : ∀ x ∈ A, 0 < x ∧ x < t.brk) (hasc : Ascending rank t A) (he : Rep e A)
    (nl : Nat → Ptr × K) :
    ∃ t' L T, (∀ r ≥ A.length, bptreeBulkLoad r t e A.length nl = some t') ∧
      t'.count = BitVec.ofNat 64 A.length ∧ Holds rank t' L T ∧ Changed t t' [] L T A := by
  have hread : readEntries e 0 A.length = A := by
    rw [readEntries_eq hlen]
    apply List.ext_getElem?
    intro i
    rw [List.getElem?_map]
    rcases Nat.lt_or_ge i A.length with hi | hi
    · rw [List.getElem?_range hi, he i hi]
      rfl
    · rw [List.getElem?_eq_none (by simpa using hi), List.getElem?_eq_none hi]
      rfl
  have hmem : ∀ i (hi : i < A.length), A[i] = e i :=
    fun i hi => Option.some.inj ((List.getElem?_eq_getElem hi).symm.trans (he i hi))
  obtain ⟨t', L, T, hrun, hcount, hchanged⟩ :=
    bptreeBulkLoad_spec e nl hio hlo hbrk (List.length_pos_of_ne_nil hA) (by omega) le_rfl
  refine ⟨t', L, T, fun r hr => bptreeBulkLoad_mono hrun hr, hcount,
    hchanged.load_holds hlen (fun i hi => ?_) fun i j hij hj => ?_, ?_⟩
  · rw [← hmem i hi]
    exact hstored _ (List.getElem_mem hi)
  · rw [← hmem i (hij.trans hj), ← hmem j hj]
    exact List.pairwise_iff_getElem.1 hasc i j (hij.trans hj) hj hij
  · rw [hread] at hchanged
    exact hchanged

theorem rep_listed (es : List Ptr) (entries : Nat → Ptr) : Rep (listed es entries) es := by
  intro j hj
  rw [listed, List.getElem?_eq_getElem hj, Option.getD_some]

/-- The number of entries of the second part. -/
theorem rest_count {A B : List Ptr} (hcount : t.count.toNat = (A ++ B).length) :
    (t.count - BitVec.ofNat 64 A.length).toNat = B.length := by
  have hlt := t.count.isLt
  rw [List.length_append] at hcount
  rw [BitVec.toNat_sub, BitVec.toNat_ofNat, hcount]
  omega

/-- **Both parts** have entries, and not too many. -/
theorem Holds.split {A B : List Ptr} (h : Holds rank t L T) (hes : T.elems = A ++ B)
    (hcount : t.count.toNat = (A ++ B).length) (hA : A ≠ []) (hB : B ≠ [])
    (hlenA : A.length ≤ 2 ^ 32) (hlenB : B.length ≤ 2 ^ 32) (entries : Nat → Ptr)
    (nl nl' : Nat → Ptr × K) :
    ∃ n t' s, (∀ r ≥ n, splitLoad r t (listed (A ++ B) entries) (BitVec.ofNat 64 A.length) nl nl' =
      some (t', s)) ∧ Stands rank t' A ∧ t'.entry = t.entry ∧ t'.count = BitVec.ofNat 64 A.length ∧
      Stands rank s B ∧ s.entry = t.entry ∧ s.count = BitVec.ofNat 64 B.length := by
  have hlist := rep_listed (A ++ B) entries
  have hasc := h.ascending
  have hstored := h.stored
  rw [hes] at hasc hstored
  obtain ⟨hascA, hascB, -⟩ := List.pairwise_append.1 hasc
  have hindex : (BitVec.ofNat 64 A.length).toNat = A.length := by
    rw [BitVec.toNat_ofNat]
    exact Nat.mod_eq_of_lt (by omega)
  have hbrk : 0 < t.brk := (h.bound _ (ptr_mem_ptrs T)).1.trans (h.bound _ (ptr_mem_ptrs T)).2
  -- the new tree
  have hnew : Ascending rank (bptreeCreate t) B := hascB
  obtain ⟨s, L₁, T₁, hrun₁, hcount₁, hholds₁, hchanged₁⟩ :=
    @load_list _ _ _ _ _ (bptreeCreate t) _ _ rfl rfl hbrk hB hlenB
      (fun x hx => hstored x (List.mem_append_right _ hx)) hnew hlist.right nl
  have hentry₁ : s.entry = t.entry := hchanged₁.entry
  have hbrk₁ : t.brk ≤ s.brk := hchanged₁.brk
  have hnode₁ : ∀ p < t.brk, s.node p = t.node p := fun p hp => hchanged₁.node p hp List.not_mem_nil
  -- the old nodes are gone
  obtain ⟨t₁, hclear, hwithin⟩ := h.toBuilt.clear hentry₁ hnode₁ (Nat.lt_succ_self L)
  have hheap := hwithin.eq
  have hentry : t₁.entry = t.entry := by
    rw [hheap]
    exact hentry₁
  have hbrk₂ : t₁.brk = s.brk := by
    rw [hheap]
    rfl
  have hio : t₁.innerOrder = 32 := by
    rw [hheap]
    exact h.innerOrder
  have hlo : t₁.leafOrder = 64 := by
    rw [hheap]
    exact h.leafOrder
  have hkey : ∀ x, t₁.key x = t.key x := by
    intro x
    show (t₁.entry x).key = (t.entry x).key
    rw [hentry]
  -- the first part
  obtain ⟨t', L₂, T₂, hrun₂, hcount₂, hholds₂, hchanged₂⟩ :=
    load_list hio hlo (hbrk.trans_le (hbrk₁.trans_eq hbrk₂.symm)) hA hlenA
      (fun x hx => (hstored x (List.mem_append_left _ hx)).imp_right fun hlt =>
      hlt.trans_le (hbrk₁.trans_eq hbrk₂.symm))
    (Ascending.congr hascA fun x _ => hkey x) hlist.left nl'
  have hentry₂ : t'.entry = t.entry := hchanged₂.entry.trans hentry
  have hkept : ∀ p ∈ T₁.ptrs, t'.node p = s.node p := by
    intro p hp
    have hlt : p < t₁.brk := (hholds₁.bound p hp).2.trans_eq hbrk₂.symm
    have hnew : p ∉ T.ptrs := by
      intro hmem
      rcases hchanged₁.fresh p hp with hno | hge
      · cases hno
      · exact absurd (h.bound p hmem).2 (not_lt.2 hge)
    exact (hchanged₂.node p hlt List.not_mem_nil).trans (hwithin.node p hnew)
  have hholds := hholds₁.withHeap hkept (hentry₂.trans hentry₁.symm)
    (hbrk₂.symm.trans_le hchanged₂.brk)
  refine ⟨(A ++ B).length + L + 1, t', s.withHeap t', fun r hr => ?_, ?_, hentry₂, hcount₂, ?_,
    hentry₂, hcount₁⟩
  · rw [List.length_append] at hr
    unfold splitLoad
    rw [hindex, rest_count hcount, hrun₁ r (by omega)]
    dsimp only [bind, Option.bind]
    rw [clearNode_mono hclear (by omega)]
    dsimp only
    rw [hrun₂ r (by omega)]
    rfl
  · rw [← hchanged₂.elems]
    exact .tree hholds₂
  · rw [← hchanged₁.elems]
    exact .tree hholds

/-! ## What goes wrong -/

/-- The steps of a split that returns. -/
theorem splitLoad_cases {r : Nat} {e : Nat → Ptr} {index : BitVec 64} {nl nl' : Nat → Ptr × K}
    {s' : Tree K V} (h : splitLoad r t e index nl nl' = some (t', s')) :
    ∃ s t₁, bptreeBulkLoad r (bptreeCreate t) (fun i => e (index.toNat + i))
      (t.count - index).toNat nl = some s ∧ clearNode r (t.withHeap s) t.root = some t₁ ∧
      bptreeBulkLoad r t₁ e index.toNat nl' = some t' ∧ s' = s.withHeap t' := by
  unfold splitLoad at h
  obtain ⟨s, hrun₁, h⟩ := Option.bind_eq_some_iff.1 h
  obtain ⟨t₁, hclear, h⟩ := Option.bind_eq_some_iff.1 h
  obtain ⟨t₂, hrun₂, h⟩ := Option.bind_eq_some_iff.1 h
  obtain ⟨rfl, rfl⟩ := Prod.mk.inj (Option.some.inj h)
  exact ⟨s, t₁, hrun₁, hclear, hrun₂, rfl⟩

/-- The entries of a loaded tree come from the first `2 ^ 32` of the array. -/
theorem Loads.reads {e : Nat → Ptr} {ps : List Ptr} (h : Loads t s e ps) (hbrk : 0 < t.brk)
    (hmin : t'.min = s.min) (hnode : ∀ p ∈ ps, t'.node p = s.node p) (hlists : Lists t' es) :
    ∀ x ∈ es, ∃ j < 2 ^ 32, x = e j := by
  have hpos : 0 ∉ ps := fun hmem => absurd (hbrk.trans_le (h.fresh 0 hmem).1) (Nat.lt_irrefl 0)
  have hchain : Chain (fun p => (t'.node p).next) t'.min ps 0 := by
    rw [hmin]
    exact h.chain.congr fun p hp => by rw [hnode p hp]
  intro x hx
  rw [hlists.unique ⟨ps, hpos, hchain, rfl⟩] at hx
  obtain ⟨p, hp, hx⟩ := List.mem_flatMap.1 hx
  rw [hnode p hp] at hx
  exact h.held p hp x hx

/-- So there are no more. -/
theorem Ascending.short {e : Nat → Ptr} (hasc : Ascending rank t es) (he : Rep e es)
    (hreads : ∀ x ∈ es, ∃ j < 2 ^ 32, x = e j) :
    es.length ≤ 2 ^ 32 := by
  by_contra hlong
  rw [not_le] at hlong
  obtain ⟨j, hj, hx⟩ := hreads es[2 ^ 32] (List.getElem_mem hlong)
  have hj' : j < es.length := hj.trans hlong
  have hread : es[j] = e j := Option.some.inj ((List.getElem?_eq_getElem hj').symm.trans (he j hj'))
  have hlt := List.pairwise_iff_getElem.1 hasc j (2 ^ 32) hj' hlong hj
  rw [hx, hread] at hlt
  exact lt_irrefl _ hlt

theorem Holds.split_short {A B : List Ptr} {r : Nat} {entries : Nat → Ptr} {nl nl' : Nat → Ptr × K}
    {s' : Tree K V} (h : Holds rank t L T) (hes : T.elems = A ++ B)
    (hcount : t.count.toNat = (A ++ B).length) (hr : L < r)
    (hrun : splitLoad r t (listed (A ++ B) entries) (BitVec.ofNat 64 A.length) nl nl' =
    some (t', s')) (hA : Lists t' A)
    (hB : Lists s' B) : A.length ≤ 2 ^ 32 ∧ B.length ≤ 2 ^ 32 := by
  have hlist := rep_listed (A ++ B) entries
  have hasc := h.ascending
  rw [hes] at hasc
  obtain ⟨hascA, hascB, -⟩ := List.pairwise_append.1 hasc
  have hindex : (BitVec.ofNat 64 A.length).toNat = A.length := by
    have hlt := t.count.isLt
    rw [List.length_append] at hcount
    rw [BitVec.toNat_ofNat]
    exact Nat.mod_eq_of_lt (by omega)
  have hbrk : 0 < t.brk := (h.bound _ (ptr_mem_ptrs T)).1.trans (h.bound _ (ptr_mem_ptrs T)).2
  obtain ⟨s, t₁, hrun₁, hclear, hrun₂, rfl⟩ := splitLoad_cases hrun
  rw [hindex] at hrun₁ hrun₂
  have hnew : 0 < (bptreeCreate t).brk := hbrk
  obtain ⟨ps, hloads₁⟩ := loads_of_bulkLoad hnew hrun₁
  obtain ⟨t₂, hclear', hwithin⟩ := h.toBuilt.clear hloads₁.entry hloads₁.node hr
  obtain rfl : t₂ = t₁ := Option.some.inj (hclear'.symm.trans hclear)
  have hbrk₂ : t₂.brk = s.brk := by
    rw [hwithin.eq]
    rfl
  have hpos : 0 < t₂.brk := hbrk.trans_le (hloads₁.brk.trans_eq hbrk₂.symm)
  obtain ⟨qs, hloads₂⟩ := loads_of_bulkLoad hpos hrun₂
  have hkept : ∀ p ∈ ps, t'.node p = s.node p := by
    intro p hp
    obtain ⟨hge, hlt⟩ := hloads₁.fresh p hp
    have hout : p ∉ T.ptrs := fun hmem => absurd (h.bound p hmem).2 (not_lt.2 hge)
    exact (hloads₂.node p (hlt.trans_eq hbrk₂.symm)).trans (hwithin.node p hout)
  have hmin : (s.withHeap t').min = s.min := rfl
  exact ⟨Ascending.short hascA hlist.left (hloads₂.reads hpos rfl (fun _ _ => rfl) hA),
    Ascending.short hascB hlist.right (hloads₁.reads hnew hmin hkept hB)⟩

theorem Stands.holds (h : Stands rank t es) (hne : es ≠ []) :
    ∃ L T, Holds rank t L T ∧ T.elems = es := by
  cases h with
  | empty => exact absurd rfl hne
  | tree h => exact ⟨_, _, h, rfl⟩

end

section
variable [DecidableEq K] [LinearOrder α] {type : KeyType K V} {rank : K → α} {t : Tree K V}
  {es : List Ptr}

/-- With nothing to keep, the second bulk load does not return. -/
theorem Stands.not_splitRight (ho : KeyOrder type rank) (h : Stands rank t es)
    (hcount : t.count.toNat = es.length) {splitKey : Option K}
    (hkept : keptPart rank t es splitKey = []) (entries : Nat → Ptr) (nl nl' : Nat → Ptr × K) :
    ¬ SplitRight type rank t es splitKey entries nl nl' := by
  obtain ⟨n, hn⟩ := bptreeSplit_eq ho h hcount splitKey entries nl nl'
  intro hright
  obtain ⟨n', t', s, hrun, -, -⟩ := hright
  have hload := (hn _ (le_max_left n n')).symm.trans (hrun _ (le_max_right n n'))
  obtain ⟨_, _, -, -, hzero, -⟩ := splitLoad_cases hload
  rw [hkept, List.length_nil, BitVec.toNat_ofNat, Nat.zero_mod, bptreeBulkLoad_zero] at hzero
  cases hzero

end

/-- **A split** is right exactly when both parts have entries, and at most `2 ^ 32` of them. -/
theorem split_right_iff [DecidableEq K] [LinearOrder α] (type : KeyType K V) (rank : K → α)
    (ho : KeyOrder type rank) (t : Tree K V) (es : List Ptr) (h : Stands rank t es)
    (hcount : t.count.toNat = es.length) (splitKey : Option K)
    (entries : Nat → Ptr) (nextlevel nextlevel' : Nat → Ptr × K) :
    SplitRight type rank t es splitKey entries nextlevel nextlevel' ↔
      keptPart rank t es splitKey ≠ [] ∧ movedPart rank t es splitKey ≠ [] ∧
        (keptPart rank t es splitKey).length ≤ 2 ^ 32 ∧
        (movedPart rank t es splitKey).length ≤ 2 ^ 32 := by
  obtain ⟨n, hn⟩ := bptreeSplit_eq ho h hcount splitKey entries nextlevel nextlevel'
  have hparts := kept_append_moved h.ascending splitKey
  have hnil := fun hnil : keptPart rank t es splitKey = [] =>
    h.not_splitRight ho hcount hnil entries nextlevel nextlevel'
  unfold SplitRight at hnil ⊢
  generalize keptPart rank t es splitKey = A at hn hparts hnil ⊢
  generalize movedPart rank t es splitKey = B at hparts hnil ⊢
  subst hparts
  constructor
  · rintro ⟨n', t', s, hrun, hkept, hmoved⟩
    have hload : ∀ r ≥ max n n', splitLoad r t (listed (A ++ B) entries) (BitVec.ofNat 64 A.length)
      nextlevel nextlevel' = some (t', s) :=
      fun r hr => (hn r (le_of_max_le_left hr)).symm.trans (hrun r (le_of_max_le_right hr))
    have hA : A ≠ [] := fun hA => hnil hA ⟨n', t', s, hrun, hkept, hmoved⟩
    have hB : B ≠ [] := by
      rintro rfl
      obtain ⟨_, _, hzero, -⟩ := splitLoad_cases (hload _ le_rfl)
      rw [rest_count hcount, List.length_nil, bptreeBulkLoad_zero] at hzero
      cases hzero
    obtain ⟨L, T, hholds, helems⟩ := h.holds fun hnil => hA (List.append_eq_nil_iff.1 hnil).1
    exact ⟨hA, hB, hholds.split_short helems hcount (lt_max_of_lt_right (Nat.lt_succ_self L))
      (hload (max (max n n') (L + 1)) (le_max_left _ _)) hkept.stands.lists hmoved.stands.lists⟩
  · rintro ⟨hA, hB, hlenA, hlenB⟩
    obtain ⟨L, T, hholds, helems⟩ := h.holds fun hnil => hA (List.append_eq_nil_iff.1 hnil).1
    obtain ⟨n', t', s, hrun, hkept, hentry, hnum, hmoved, hentry', hnum'⟩ :=
      hholds.split helems hcount hA hB hlenA hlenB entries nextlevel nextlevel'
    refine ⟨max n n', t', s, fun r hr => ?_, ⟨hkept, hkept.finds ho, hentry, hnum⟩, hmoved,
      hmoved.finds ho, hentry', hnum'⟩
    rw [hn r (le_of_max_le_left hr)]
    exact hrun r (le_of_max_le_right hr)

theorem hundred_split : ∃ t : Tree Nat Nat, Stands id t ((List.range 100).map Nat.succ) ∧
    t.count.toNat = 100 ∧ SplitRight numberKeys id t ((List.range 100).map Nat.succ) (some 50)
      (fun _ => 0) (fun _ => (0, 0)) (fun _ => (0, 0)) := by
  obtain ⟨t, hstands, hcount, hkey⟩ := numbers_stand (show 0 < 100 by norm_num) (by norm_num)
  refine ⟨t, hstands, hcount,
    (split_right_iff numberKeys id numberKeys_order t _ hstands (by simpa using hcount)
    (some 50) _ _ _).2 ?_⟩
  have hlen : ((List.range 100).map Nat.succ).length ≤ 2 ^ 32 := by simp
  refine ⟨List.ne_nil_of_mem (a := 1) ?_, List.ne_nil_of_mem (a := 100) ?_, ?_, ?_⟩
  · exact List.mem_filter.2 ⟨by simp, by simp [hkey]⟩
  · exact List.mem_filter.2 ⟨by simp, by simp [hkey]⟩
  · exact (List.length_filter_le _ _).trans hlen
  · exact (List.length_filter_le _ _).trans hlen

/-- Half of one entry is no entry. -/
theorem split_endless : ∃ t : Tree Nat Nat, Stands id t [1] ∧ t.count.toNat = 1 ∧
    ¬ SplitRight numberKeys id t [1] none (fun _ => 0) (fun _ => (0, 0)) (fun _ => (0, 0)) := by
  obtain ⟨t, hstands, hcount, -⟩ := numbers_stand (show 0 < 1 by norm_num) (by norm_num)
  exact ⟨t, hstands, hcount, hstands.not_splitRight numberKeys_order hcount rfl _ _ _⟩

end Bptree
