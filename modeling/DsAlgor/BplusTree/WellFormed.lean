import DsAlgor.BplusTree.Runs

/-!
# The structure of the tree in the heap

`WellFormed t height` says in terms of the heap alone what the shape of a non-empty tree is: the
nodes of each depth are found by following the child pointers from the root (`nodesAt`), and keys,
parent pointers, `next` chains and sizes agree with them. `TreeOk.wellFormed` derives it from the
representation, `reachable_wellFormed` states it for every reachable state.
-/

namespace BplusTree

open CArray Levels

/-- The children of an inner node, from left to right. -/
def Heap.children (h : Heap) (p : Ptr) : List Ptr :=
  segment (h.nonLeaf p).subPtr 0 (h.nonLeaf p).children

/-- The nodes at a depth below the root, from left to right. -/
def nodesAt (t : Tree) : Nat → List Ptr
  | 0 => [t.root]
  | d + 1 => (nodesAt t d).flatMap t.heap.children

/-- The keys of a leaf, from left to right. -/
def Heap.leafKeys (h : Heap) (p : Ptr) : List Int :=
  (List.range (h.leaf p).entries).map (h.leaf p).key

/-- `q` is stored under `p`. -/
inductive Under (h : Heap) (p : Ptr) : Ptr → Prop
  | refl : Under h p p
  | child {q c : Ptr} : Under h p q → h.type q = .nonLeaf → c ∈ h.children q → Under h p c

/-- The shape of a tree whose leaves are at depth `height` (module doc). -/
structure WellFormed (t : Tree) (height : Nat) : Prop where
  inner : ∀ d < height, ∀ p ∈ nodesAt t d, t.heap.type p = .nonLeaf
  leaf : ∀ p ∈ nodesAt t height, t.heap.type p = .leaf
  nonNull : ∀ d ≤ height, ∀ p ∈ nodesAt t d, p ≠ 0
  keys : ∀ d < height, ∀ p ∈ nodesAt t d, ∀ i j, i < j → j + 1 < (t.heap.nonLeaf p).children →
    (t.heap.nonLeaf p).key i < (t.heap.nonLeaf p).key j
  between : ∀ d < height, ∀ p ∈ nodesAt t d, ∀ i < (t.heap.nonLeaf p).children, ∀ q,
    Under t.heap ((t.heap.nonLeaf p).subPtr i) q → t.heap.type q = .leaf → ∀ k ∈ t.heap.leafKeys q,
      (0 < i → (t.heap.nonLeaf p).key (i - 1) ≤ k) ∧
        (i + 1 < (t.heap.nonLeaf p).children → k < (t.heap.nonLeaf p).key i)
  parents : ∀ d < height, ∀ p ∈ nodesAt t d, ∀ c ∈ t.heap.children p, t.heap.parent c = p
  rootParent : t.heap.parent t.root = 0
  chain : ∀ i ≤ height, Chain t.heap.next (t.head i) (nodesAt t (height - i)) 0
  headAbove : ∀ i, height < i → t.head i = 0
  ascending : ((nodesAt t height).flatMap t.heap.leafKeys).Pairwise (· < ·)
  leafSize : ∀ p ∈ nodesAt t height, p ≠ t.root →
    (t.entries + 1) / 2 ≤ (t.heap.leaf p).entries ∧ (t.heap.leaf p).entries ≤ t.entries
  innerSize : ∀ d < height, ∀ p ∈ nodesAt t d, p ≠ t.root →
    t.order / 2 ≤ (t.heap.nonLeaf p).children ∧ (t.heap.nonLeaf p).children ≤ t.order

/-! ## The levels of the heap -/

section
variable {t : Tree} {E : Nat → Ptr → Prop} {i : Nat} {items : List (Item Int Ptr)}
  {Gss : List (List (Group Int Ptr))}
variable {g : Group Int Ptr} {Gs : List (Group Int Ptr)} {L : List LeafNode}

theorem NodeOk.children_eq (h : NodeOk t g) : t.heap.children g.ptr = g.items.map Prod.snd := by
  rw [Heap.children, segment_eq h.body.sub (by rw [List.length_map, Nat.zero_add, h.body.children]),
    List.drop_zero]

theorem flatMap_children (h : ∀ g ∈ Gs, NodeOk t g) :
    (ptrs Gs).flatMap t.heap.children = (flat Gs).map Prod.snd := by
  induction Gs with
  | nil => rfl
  | cons g Gs ih =>
    rw [ptrs_cons, List.flatMap_cons, flat_cons, List.map_append,
      (h g List.mem_cons_self).children_eq, ih fun x hx => h x (List.mem_cons_of_mem _ hx)]

/-- The level below `Gss` is reached in as many steps as there are levels. -/
theorem Above.nodesAt_length : ∀ {Gss : List (List (Group Int Ptr))} {i : Nat}
    {items : List (Item Int Ptr)}, Above t E i items Gss → nodesAt t Gss.length = items.map Prod.snd
  | [], _, _, h => by
    obtain ⟨lo, rfl⟩ := h.tower
    rfl
  | Gs :: rest, _, _, h => by
    rw [List.length_cons, nodesAt, h.upper.nodesAt_length, map_snd_heads,
      flatMap_children h.levelOk.node, h.flat_eq]

/-! ## The keys under a node -/

theorem Under.head {h : Heap} {p q : Ptr} (hu : Under h p q) :
    q = p ∨ h.type p = .nonLeaf ∧ ∃ c ∈ h.children p, Under h c q := by
  induction hu with
  | refl => exact .inl rfl
  | @child q c _ hq hc ih =>
    rcases ih with rfl | ⟨hp, e, he, hu⟩
    · exact .inr ⟨hq, c, hc, .refl⟩
    · exact .inr ⟨hp, e, he, .child hu hq hc⟩

/-- `k` is a key of a leaf under `p`. -/
def KeyUnder (h : Heap) (p : Ptr) (k : Int) : Prop :=
  ∃ q, Under h p q ∧ h.type q = .leaf ∧ k ∈ h.leafKeys q

/-- The keys under the nodes of a level lie between its separators. -/
structure Spans (h : Heap) (items : List (Item Int Ptr)) : Prop where
  lower : ∀ c ∈ items, ∀ k, KeyUnder h c.2 k → c.1 ≤ (k : WithBot Int)
  upper : items.Pairwise fun a b => ∀ k, KeyUnder h a.2 k → (k : WithBot Int) < b.1

theorem NodeOk.keyUnder (h : NodeOk t g) {k : Int} (hk : KeyUnder t.heap g.ptr k) :
    ∃ c ∈ g.items, KeyUnder t.heap c.2 k := by
  obtain ⟨q, hu, hq, hk⟩ := hk
  rcases hu.head with rfl | ⟨-, c, hc, hu⟩
  · rw [h.type] at hq
    cases hq
  · rw [h.children_eq] at hc
    obtain ⟨e, he, rfl⟩ := List.mem_map.1 hc
    exact ⟨e, he, q, hu, hq, hk⟩

theorem Spans.heads (h : Spans t.heap (flat Gs)) (hs : Sorted (flat Gs))
    (hn : ∀ g ∈ Gs, NodeOk t g) : Spans t.heap (heads Gs) := by
  have hne : ∀ g ∈ Gs, g.items ≠ [] := fun g hg =>
    List.ne_nil_of_length_pos (Nat.lt_of_lt_of_le Nat.zero_lt_two (hn g hg).two)
  refine ⟨fun c hc k hk => ?_, List.pairwise_map.2 ?_⟩
  · obtain ⟨g, hg, rfl⟩ := List.mem_map.1 hc
    obtain ⟨e, he, hk⟩ := (hn g hg).keyUnder hk
    obtain ⟨f, I, hI⟩ := List.exists_cons_of_ne_nil (hne g hg)
    have hle : g.lo ≤ e.1 := by
      have hsg := sorted_items hs hg
      rw [lo_of_items hI]
      rw [hI] at he hsg
      rcases List.mem_cons.1 he with rfl | he
      · exact le_rfl
      · exact ((List.pairwise_cons.1 hsg).1 e he).le
    exact hle.trans (h.lower e (mem_flat.2 ⟨g, hg, he⟩) k hk)
  · refine List.Pairwise.imp_of_mem (fun {a b} ha hb hab k hk => ?_)
      (List.pairwise_flatMap.1 h.upper).2
    obtain ⟨e, he, hk⟩ := (hn a ha).keyUnder hk
    obtain ⟨f, I, hI⟩ := List.exists_cons_of_ne_nil (hne b hb)
    rw [Group.item_fst, lo_of_items hI]
    exact hab e he f (by simp [hI]) k hk

/-- The keys of a node bound the keys under its children. -/
theorem Spans.between (h : Spans t.heap g.items) (hn : NodeOk t g) {i : Nat}
    (hi : i < (t.heap.nonLeaf g.ptr).children) {k : Int}
    (hk : KeyUnder t.heap ((t.heap.nonLeaf g.ptr).subPtr i) k) :
    (0 < i → (t.heap.nonLeaf g.ptr).key (i - 1) ≤ k) ∧
      (i + 1 < (t.heap.nonLeaf g.ptr).children → k < (t.heap.nonLeaf g.ptr).key i) := by
  rw [hn.body.children] at hi ⊢
  have hc := List.getElem?_eq_getElem hi
  rw [hn.body.sub_at hc] at hk
  refine ⟨fun h0 => ?_, fun h1 => ?_⟩
  · have := h.lower _ (List.mem_of_getElem? hc) k hk
    rw [← hn.body.key_at (j := i - 1) (by rw [Nat.sub_add_cancel h0]; exact hc)] at this
    exact WithBot.coe_le_coe.1 this
  · have hd := List.getElem?_eq_getElem h1
    have := List.pairwise_iff_getElem.1 h.upper i (i + 1) hi h1 (Nat.lt_succ_self i) k hk
    rw [← hn.body.key_at hd] at this
    exact WithBot.coe_lt_coe.1 this

theorem LeafOk.leafKeys_eq {a : LeafNode} (h : LeafOk t a) :
    t.heap.leafKeys a.ptr = a.kvs.map Prod.fst := by
  have := h.body.key.segment (i := 0) (n := a.kvs.length) (by simp)
  rw [List.drop_zero, List.take_of_length_le (by simp)] at this
  simpa [Heap.leafKeys, h.body.entries] using this

theorem Leaves.spans {top : Bool} (h : Leaves t E L top) : Spans t.heap (leafItems L) := by
  have hkey : ∀ a ∈ L, ∀ k, KeyUnder t.heap a.ptr k → ∃ e ∈ a.kvs, e.1 = k := by
    rintro a ha k ⟨q, hu, -, hk⟩
    rcases hu.head with rfl | ⟨hp, -⟩
    · rw [(h.leaf a ha).leafKeys_eq] at hk
      exact List.mem_map.1 hk
    · rw [(h.leaf a ha).type] at hp
      cases hp
  refine ⟨fun c hc k hk => ?_, List.pairwise_map.2 ?_⟩
  · obtain ⟨a, ha, rfl⟩ := List.mem_map.1 hc
    obtain ⟨e, he, rfl⟩ := hkey a ha k hk
    exact (h.leaf a ha).lo e he
  · refine List.Pairwise.imp_of_mem (fun {a b} ha _ hab k hk => ?_) h.order
    obtain ⟨e, he, rfl⟩ := hkey a ha k hk
    exact hab e he

/-! ## Every level -/

/-- The level at depth `d` is one of `Gss`, on a level whose keys lie between its separators. -/
theorem Above.level_at :
    ∀ {Gss : List (List (Group Int Ptr))} {i : Nat} {items : List (Item Int Ptr)},
      Above t E i items Gss → Spans t.heap items → ∀ d < Gss.length,
    ∃ (k : Nat) (Gs : List (Group Int Ptr)) (rest : List (List (Group Int Ptr))),
      Above t E (i + k) (flat Gs) (Gs :: rest) ∧ Spans t.heap (flat Gs) ∧ rest.length = d ∧
      k + d + 1 = Gss.length ∧ nodesAt t d = ptrs Gs
  | [], _, _, _, _, d, hd => by simp at hd
  | Gs :: rest, i, items, h, hsp, d, hd => by
    have hfl := h.flat_eq
    subst hfl
    by_cases hlt : d < rest.length
    · obtain ⟨k, Gs', rest', hab, hsp', hlen, hk, hn⟩ :=
        h.upper.level_at (hsp.heads h.sorted h.levelOk.node) d hlt
      refine ⟨k + 1, Gs', rest', ?_, hsp', hlen, by simp only [List.length_cons]; omega, hn⟩
      rw [show i + (k + 1) = i + 1 + k by omega]
      exact hab
    · obtain rfl : d = rest.length := by simp only [List.length_cons] at hd; omega
      refine ⟨0, Gs, rest, h, hsp, rfl, by simp, ?_⟩
      rw [h.upper.nodesAt_length, map_snd_heads]

theorem Spans.of_mem (h : Spans t.heap (flat Gs)) (hg : g ∈ Gs) : Spans t.heap g.items :=
  ⟨fun c hc => h.lower c (mem_flat.2 ⟨g, hg, hc⟩), (List.pairwise_flatMap.1 h.upper).1 g hg⟩

/-- The node at depth `d`. -/
theorem TreeOk.node_at (h : TreeOk t E L Gss) {d : Nat} (hd : d < Gss.length) {p : Ptr}
    (hp : p ∈ nodesAt t d) : ∃ g, g.ptr = p ∧ NodeOk t g ∧
    Sorted g.items ∧ Spans t.heap g.items ∧ p ≠ 0 ∧
      (p ≠ t.root → t.order / 2 ≤ g.items.length) := by
  obtain ⟨k, Gs, rest, hab, hsp, hlen, hk, hn⟩ := h.above.level_at h.leaves.spans d hd
  rw [hn] at hp
  obtain ⟨g, hg, rfl⟩ := List.mem_map.1 hp
  refine ⟨g, rfl, hab.levelOk.node g hg, sorted_items hab.sorted hg, hsp.of_mem hg, ?_,
    fun hr => ?_⟩
  · refine (hab.bound g.ptr ?_).1.ne'
    rw [allPtrs_cons]
    exact List.mem_append_right _ (List.mem_append_left _ hp)
  · refine hab.levelOk.min ?_ g hg
    cases rest with
    | nil =>
      obtain ⟨g', rfl, hroot⟩ := hab.top
      rw [List.mem_singleton.1 hg] at hr
      exact absurd hroot hr
    | cons _ _ => rfl

/-- **The representation gives the shape of the heap.** -/
theorem TreeOk.wellFormed (h : TreeOk t (fun _ e => e = 0) L Gss) : WellFormed t Gss.length := by
  have hleaf : nodesAt t Gss.length = leafPtrs L := by
    rw [h.above.nodesAt_length, map_snd_leafItems]
  have hleafNode : ∀ p ∈ nodesAt t Gss.length, ∃ a ∈ L, a.ptr = p ∧ LeafOk t a := by
    intro p hp
    rw [hleaf] at hp
    obtain ⟨a, ha, rfl⟩ := List.mem_map.1 hp
    exact ⟨a, ha, rfl, h.leaves.leaf a ha⟩
  refine ⟨fun d hd p hp => ?_, fun p hp => ?_, fun d hd p hp => ?_, fun d hd p hp i j hij hj => ?_,
    fun d hd p hp i hi q hu hq k hk => ?_, fun d hd p hp c hc => ?_, h.above.rootParent,
    fun i hi => ?_,
    fun i hi => h.above.headAbove i (by omega), ?_, fun p hp hr => ?_, fun d hd p hp hr => ?_⟩
  · obtain ⟨g, rfl, hn, -⟩ := h.node_at hd hp
    exact hn.type
  · obtain ⟨a, -, rfl, ha⟩ := hleafNode p hp
    exact ha.type
  · rcases Nat.lt_or_eq_of_le hd with hd | rfl
    · obtain ⟨g, rfl, -, -, -, h0, -⟩ := h.node_at hd hp
      exact h0
    · obtain ⟨a, ha, rfl, -⟩ := hleafNode p hp
      refine (h.above.bound a.ptr (List.mem_append_left _ ?_)).1.ne'
      rw [map_snd_leafItems]
      exact List.mem_map_of_mem ha
  · obtain ⟨g, rfl, hn, hs, -⟩ := h.node_at hd hp
    exact hn.body.key_sorted hs i j hij (by omega)
  · obtain ⟨g, rfl, hn, -, hsp, -⟩ := h.node_at hd hp
    exact hsp.between hn hi ⟨q, hu, hq, hk⟩
  · obtain ⟨g, rfl, hn, -⟩ := h.node_at hd hp
    rw [hn.children_eq] at hc
    obtain ⟨e, he, rfl⟩ := List.mem_map.1 hc
    exact hn.parent e he
  · cases i with
    | zero =>
      obtain ⟨e, rfl, hc⟩ := h.leaves.chain
      rw [Nat.sub_zero, hleaf]
      exact hc
    | succ i =>
      obtain ⟨k, Gs, rest, hab, -, hlen, hk, hn⟩ :=
        h.above.level_at h.leaves.spans (Gss.length - (i + 1)) (by omega)
      obtain ⟨e, rfl, hc⟩ := hab.levelOk.chain
      rw [hn, show i + 1 = 1 + k by omega]
      exact hc
  · have hasc := h.leaves.ascending
    have heq : (nodesAt t Gss.length).flatMap t.heap.leafKeys = (pairs L).map Prod.fst := by
      rw [hleaf, leafPtrs, List.flatMap_map, pairs, List.map_flatMap]
      exact List.flatMap_congr fun a ha => (h.leaves.leaf a ha).leafKeys_eq
    rw [heq]
    exact List.pairwise_map.2 hasc
  · obtain ⟨a, ha, rfl, hok⟩ := hleafNode p hp
    rw [hok.body.entries]
    refine ⟨h.leaves.min ?_ a ha, hok.max⟩
    cases Gss with
    | nil =>
      obtain ⟨lo, hroot⟩ := h.above.tower
      have hm : a.item ∈ leafItems L := List.mem_map_of_mem ha
      rw [hroot] at hm
      exact absurd (congrArg Prod.snd (List.mem_singleton.1 hm)) hr
    | cons _ _ => rfl
  · obtain ⟨g, rfl, hn, -, -, -, hmin⟩ := h.node_at hd hp
    rw [hn.body.children]
    exact ⟨hmin hr, hn.max⟩

end

/-- The structure of any tree: nothing, or a well-formed one. -/
def Structured (t : Tree) : Prop :=
  (t.root = 0 ∧ ∀ i, t.head i = 0) ∨ ∃ height, WellFormed t height

/-- **Structural invariant**: every state reached from `bplus_tree_init` by puts none of which runs
into `Level exceeded` is well formed. -/
theorem reachable_wellFormed (level : Int) (order entries : Nat)
    (ho : 4 ≤ order ∧ order ≤ MAX_ORDER) (he : 1 ≤ entries ∧ entries ≤ MAX_ENTRIES) (t : Tree)
    (h : Reachable level order entries t)
    (hq : t.stderr = []) : Structured t := by
  obtain ⟨-, m, hM⟩ := h.models (by omega) (.inl ho.1) he.1
  obtain ⟨C, ⟨he, -⟩ | ⟨L, Gss, hT, -⟩, -⟩ :=
    (hM.weaken fun _ e h => h hq : Models t (fun _ e => e = 0) m).holds
  · exact .inl ⟨he.1, he.2.1⟩
  · exact .inr ⟨Gss.length, hT.wellFormed⟩

theorem reachable_wellFormed_sample :
    ∃ t, Reachable 2 4 2 t ∧ t.stderr = [] ∧ Structured t := by
  have hinit : ∃ t, bplusTreeInit 2 4 2 = .ok t := ⟨_, rfl⟩
  obtain ⟨t₀, hinit⟩ := hinit
  obtain ⟨rs, t, hrun, -, -⟩ := runOps_spec sampleOps
    (init_models (E := fun _ e => e = 0) hinit (by decide) (.inl le_rfl) (by decide)) fun _ => rfl
  have hq := sampleOps_quiet
  rw [hinit] at hq
  have hq' : t.stderr = [] := by simpa [Except.bind, hrun, Except.map, Except.toOption] using hq
  have ht := (Reachable.init hinit).runOps hrun
  exact ⟨t, ht, hq', reachable_wellFormed 2 4 2 (by decide) (by decide) t ht hq'⟩

end BplusTree
