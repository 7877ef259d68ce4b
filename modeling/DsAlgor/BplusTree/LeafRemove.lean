import DsAlgor.BplusTree.LeafInsert
import DsAlgor.BplusTree.Remove

/-!
# `leaf_remove`

`leafRemove_spec`: deleting a stored key fails no assertion, reads no key or sibling that is not
there, and takes exactly that entry out of the tree; the tree becomes empty with its last entry.
`LeafSiblings.borrow` and `LeafSiblings.merge` are the two ways a leaf with too few entries is
filled up.
-/

namespace BplusTree

open CArray Levels

/-- A tree without entries. -/
def EmptyTree (t : Tree) : Prop := t.root = 0 ∧ (∀ j, t.head j = 0) ∧ 0 < t.heap.brk

/-- The outcome of the deletion of the entry with key `key`. -/
structure LeafErased (t : Tree) (E : Nat → Ptr → Prop) (L : List LeafNode) (key : Int) (t' : Tree) :
    Prop where
  params : SameParams t t'
  stderr : t'.stderr = t.stderr
  spares : Spares t t' L
  tree : ∃ P d Q, pairs L = P ++ (key, d) :: Q ∧
    (EmptyTree t' ∧ P ++ Q = [] ∨ ∃ L' Gss', TreeOk t' E L' Gss' ∧ pairs L' = P ++ Q)

/-! ## Two neighbours below one parent -/

section
variable {t : Tree} {E : Nat → Ptr → Prop} {A B : List LeafNode} {x y : LeafNode}
  {A₁ B₁ : List (Group Int Ptr)} {g : Group Int Ptr} {rest : List (List (Group Int Ptr))} {Jl Jr :
  List (Item Int Ptr)}
  {X Y : List (Int × Int)}

/-- `x` and `y` are neighbours; their parent `g` has the children `Jl` before them and `Jr` after
them. -/
structure LeafSiblings (t : Tree) (E : Nat → Ptr → Prop) (A : List LeafNode) (x y : LeafNode)
    (B : List LeafNode) (A₁ : List (Group Int Ptr)) (g : Group Int Ptr) (B₁ : List (Group Int Ptr))
    (rest : List (List (Group Int Ptr))) (Jl Jr : List (Item Int Ptr)) : Prop where
  tree : TreeOk t E (A ++ x :: y :: B) ((A₁ ++ g :: B₁) :: rest)
  items : g.items = Jl ++ x.item :: y.item :: Jr
  left : leafItems A = flat A₁ ++ Jl
  right : leafItems B = Jr ++ flat B₁

namespace LeafSiblings

variable (h : LeafSiblings t E A x y B A₁ g B₁ rest Jl Jr)
include h

theorem leaf_x : LeafOk t x :=
  h.tree.leaves.leaf x (by simp)

theorem leaf_y : LeafOk t y :=
  h.tree.leaves.leaf y (by simp)

theorem min_x : (t.entries + 1) / 2 ≤ x.kvs.length := h.tree.leaves.min rfl x (by simp)

theorem min_y : (t.entries + 1) / 2 ≤ y.kvs.length := h.tree.leaves.min rfl y (by simp)

theorem above : Above t E 1 (flat (A₁ ++ g :: B₁)) ((A₁ ++ g :: B₁) :: rest) := by
  have := h.tree.above
  rwa [← this.flat_eq] at this

theorem ptr_nodup : (leafPtrs (A ++ x :: y :: B) ++ allPtrs ((A₁ ++ g :: B₁) :: rest)).Nodup := by
  rw [← map_snd_leafItems]
  exact h.tree.above.nodup

theorem ptr_bound {p : Ptr} (hp : p ∈ leafPtrs (A ++ x :: y :: B)) : 0 < p ∧ p < t.heap.brk := by
  refine h.tree.above.bound p (List.mem_append_left _ ?_)
  rw [map_snd_leafItems]
  exact hp

theorem x_ne_y : x.ptr ≠ y.ptr := by
  have := (List.nodup_append.1 h.ptr_nodup).1
  rw [leafPtrs_append, leafPtrs_cons, leafPtrs_cons] at this
  have := (List.nodup_append.1 this).2.1
  intro he
  exact (List.nodup_cons.1 this).1 (he ▸ List.mem_cons_self)

theorem leaf_notMem {p : Ptr} (hp : p ∈ allPtrs ((A₁ ++ g :: B₁) :: rest)) :
    p ∉ leafPtrs (A ++ x :: y :: B) :=
  fun hm => (List.nodup_append.1 h.ptr_nodup).2.2 p hm p hp rfl

theorem others : ∀ z ∈ A ++ B, z.ptr < t.heap.brk ∧ z.ptr ∉ [x.ptr, y.ptr, g.ptr] := by
  intro z hz
  have hz' : z ∈ A ++ x :: y :: B := by
    simp only [List.mem_append, List.mem_cons] at hz ⊢; grind
  have hzp : z.ptr ∈ leafPtrs (A ++ x :: y :: B) := List.mem_map_of_mem hz'
  refine ⟨(h.ptr_bound hzp).2, ?_⟩
  have hnd := (List.nodup_append.1 h.ptr_nodup).1
  have hnd' : (x.ptr :: y.ptr :: (leafPtrs A ++ leafPtrs B)).Nodup := by
    refine hnd.perm ?_
    rw [leafPtrs_append, leafPtrs_cons, leafPtrs_cons]
    exact List.perm_middle.trans ((List.perm_middle).cons _)
  have hzm : z.ptr ∈ leafPtrs A ++ leafPtrs B := by
    rw [← leafPtrs_append]; exact List.mem_map_of_mem hz
  obtain ⟨h1, h2⟩ := List.nodup_cons.1 hnd'
  simp only [List.mem_cons, List.not_mem_nil, or_false, not_or]
  refine ⟨?_, ?_, ?_⟩
  · intro he
    exact h1 (List.mem_cons_of_mem _ (he ▸ hzm))
  · intro he
    exact (List.nodup_cons.1 h2).1 (he ▸ hzm)
  · intro he
    exact h.leaf_notMem (p := g.ptr) (by simp) (he ▸ hzp)

theorem ascending : Ascending (x.kvs ++ y.kvs) := by
  have := h.tree.leaves.ascending
  rw [pairs_append, pairs_cons, pairs_cons, ← List.append_assoc x.kvs] at this
  exact (List.pairwise_append.1 (List.pairwise_append.1 this).2.1).1

theorem before_xy : Before x y :=
  (List.pairwise_cons.1 (List.pairwise_append.1 h.tree.leaves.order).2.1).1 y (by simp)

/-- The keys of both leaves lie between the separators around the pair. -/
theorem lo_le : ∀ e ∈ x.kvs ++ y.kvs, x.lo ≤ (e.1 : WithBot Int) := by
  intro e he
  rcases List.mem_append.1 he with he | he
  · exact h.leaf_x.lo e he
  · obtain ⟨f, F, hF⟩ := List.exists_cons_of_ne_nil h.leaf_x.ne_nil
    have hf : f ∈ x.kvs := by simp [hF]
    exact ((h.leaf_x.lo f hf).trans (h.before_xy f hf).le).trans (h.leaf_y.lo e he)

theorem lt_hi : ∀ e ∈ x.kvs ++ y.kvs, ∀ b ∈ B, (e.1 : WithBot Int) < b.lo := by
  intro e he b hb
  have ho := (List.pairwise_append.1 h.tree.leaves.order).2.1
  obtain ⟨ho1, ho2⟩ := List.pairwise_cons.1 ho
  rcases List.mem_append.1 he with he | he
  · exact ho1 b (by simp [hb]) e he
  · exact (List.pairwise_cons.1 ho2).1 b hb e he

theorem data_ne : ∀ e ∈ x.kvs ++ y.kvs, e.2 ≠ 0 := by
  intro e he
  rcases List.mem_append.1 he with he | he
  · exact h.leaf_x.data e he
  · exact h.leaf_y.data e he

theorem first {N : List LeafNode} : ∀ b ∈ (A ++ (⟨x.lo, x.ptr, X⟩ :: N ++ B)).head?, b.lo = ⊥ :=
  first_replaced h.tree.leaves.first rfl

/-! ### Borrowing -/

variable {h' : Heap}

omit h in
theorem borrowed_frame (hb : LeafBorrowed t.heap h' x.ptr y.ptr g.ptr X Y Jl.length) :
    Frame t { t with heap := h' } [x.ptr, y.ptr, g.ptr] [] := by
  refine ⟨rfl, rfl, rfl, hb.brk.ge, fun p _ _ => ?_, fun p _ _ => ?_, fun p _ hn => ?_,
    fun p _ hn => ?_, fun p _ _ => ?_⟩
  · show h'.type p = _
    rw [hb.type]
  · show h'.next p = _
    rw [hb.next]
  · simp only [List.mem_cons, List.not_mem_nil, or_false, not_or] at hn
    exact hb.nonLeaf p hn.2.2
  · simp only [List.mem_cons, List.not_mem_nil, or_false, not_or] at hn
    exact hb.leaf p hn.1 hn.2.1
  · show h'.parent p = _
    rw [hb.parent]

theorem leaves_borrowed {f : Int × Int} {F : List (Int × Int)}
    (hb : LeafBorrowed t.heap h' x.ptr y.ptr g.ptr X (f :: F) Jl.length)
    (hXY : (X ++ f :: F).Sublist (x.kvs ++ y.kvs)) (he : 1 ≤ t.entries)
    (hX : (t.entries + 1) / 2 ≤ X.length ∧ X.length ≤ t.entries)
    (hY : (t.entries + 1) / 2 ≤ (f :: F).length ∧ (f :: F).length ≤ t.entries) :
    Leaves { t with heap := h' } E (A ++ ⟨x.lo, x.ptr, X⟩ :: ⟨f.1, y.ptr, f :: F⟩ :: B) false := by
  have hasc : Ascending (X ++ f :: F) := h.ascending.sublist hXY
  obtain ⟨hasc1, hasc2, hasc3⟩ := List.pairwise_append.1 hasc
  have hmem : ∀ e ∈ X ++ f :: F, e ∈ x.kvs ++ y.kvs := fun e hm => hXY.subset hm
  have hmX : ∀ e ∈ X, e ∈ x.kvs ++ y.kvs := fun e hm => hmem e (List.mem_append_left _ hm)
  have hmY : ∀ e ∈ f :: F, e ∈ x.kvs ++ y.kvs := fun e hm => hmem e (List.mem_append_right _ hm)
  refine Leaves.replace (M := [x, y]) (N := [⟨x.lo, x.ptr, X⟩, ⟨f.1, y.ptr, f :: F⟩]) h.tree.leaves
    (borrowed_frame hb) h.others ?_ (fun _ => ⟨.inl rfl, ?_⟩) ?_ h.first fun e hc => ?_
  · intro z hz
    simp only [List.mem_cons, List.not_mem_nil, or_false] at hz
    rcases hz with rfl | rfl
    · refine ⟨?_, hb.left, hasc1, fun e hm => h.lo_le e (hmX e hm), fun e hm =>
        h.data_ne e (hmX e hm), by simp only; omega, hX.2⟩
      show h'.type x.ptr = _
      rw [hb.type]
      exact h.leaf_x.type
    · refine ⟨?_, hb.right, hasc2, fun e hm => ?_, fun e hm => h.data_ne e (hmY e hm),
        by simp only; omega, hY.2⟩
      · show h'.type y.ptr = _
        rw [hb.type]
        exact h.leaf_y.type
      · rcases List.mem_cons.1 hm with rfl | hm
        · exact le_rfl
        · exact WithBot.coe_le_coe.2 ((List.pairwise_cons.1 hasc2).1 e hm).le
  · intro z hz
    simp only [List.mem_cons, List.not_mem_nil, or_false] at hz
    rcases hz with rfl | rfl
    · exact hX.1
    · exact hY.1
  · refine order_replace (M := [x, y]) h.tree.leaves.order ?_ ?_ ?_
    · exact List.pairwise_pair.2 fun e hm => WithBot.coe_lt_coe.2 (hasc3 e hm f (by simp))
    · intro n hn
      simp only [List.mem_cons, List.not_mem_nil, or_false] at hn
      rcases hn with rfl | rfl
      · exact ⟨x, by simp, le_rfl⟩
      · exact ⟨x, by simp, h.lo_le f (hmY f (by simp))⟩
    · intro n hn b hbB e hm
      simp only [List.mem_cons, List.not_mem_nil, or_false] at hn
      rcases hn with rfl | rfl
      · exact h.lt_hi e (hmX e hm) b hbB
      · exact h.lt_hi e (hmY e hm) b hbB
  · show Chain h'.next (t.head 0) _ e
    rw [hb.next]
    simpa using hc

theorem borrowed_spares (hb : LeafBorrowed t.heap h' x.ptr y.ptr g.ptr X Y Jl.length) :
    Spares t { t with heap := h' } (A ++ x :: y :: B) := by
  refine (borrowed_frame hb).spares fun p hp => ?_
  simp only [List.mem_cons, List.not_mem_nil, or_false] at hp
  rcases hp with rfl | rfl | rfl
  · exact .inl (by simp)
  · exact .inl (by simp)
  · exact .inr (h.above.levelOk.node g (by simp)).type

/-- An entry moves over the border between `x` and `y`. -/
theorem borrow {f : Int × Int} {F : List (Int × Int)}
    (hb : LeafBorrowed t.heap h' x.ptr y.ptr g.ptr X (f :: F) Jl.length)
    (hXY : (X ++ f :: F).Sublist (x.kvs ++ y.kvs)) (he : 1 ≤ t.entries)
    (hX : (t.entries + 1) / 2 ≤ X.length ∧ X.length ≤ t.entries)
    (hY : (t.entries + 1) / 2 ≤ (f :: F).length ∧ (f :: F).length ≤ t.entries) :
    ∃ L' Gss', TreeOk { t with heap := h' } E L' Gss' ∧
      pairs L' = pairs A ++ (X ++ f :: F) ++ pairs B := by
  have hl := h.leaves_borrowed hb hXY he hX hY
  have hn := h.above.levelOk.node g (by simp)
  have hitems : leafItems (A ++ ⟨x.lo, x.ptr, X⟩ :: ⟨f.1, y.ptr, f :: F⟩ :: B) =
      flat A₁ ++ (Jl ++ x.item :: ((f.1 : WithBot Int), y.ptr) :: Jr ++ flat B₁) := by
    rw [leafItems_append, leafItems_cons, leafItems_cons, h.left, h.right]
    simp [LeafNode.item]
  have hs := hl.sorted
  rw [hitems] at hs
  have hptrs : (flat A₁ ++ (Jl ++ x.item :: ((f.1 : WithBot Int), y.ptr) :: Jr ++ flat B₁)).map
    Prod.snd = leafPtrs (A ++ x :: y :: B) := by
    rw [← hitems, map_snd_leafItems]
    simp
  refine ⟨_, (A₁ ++ ⟨g.ptr, Jl ++ x.item :: ((f.1 : WithBot Int), y.ptr) :: Jr⟩ :: B₁) :: rest,
    ⟨hl, ?_⟩, by simp⟩
  rw [hitems]
  refine h.above.set_node (borrowed_frame hb) rfl (fun _ _ => rfl) ?_ ⟨?_, ?_, fun c hc =>
    ?_, ?_, ?_⟩ ?_ (fun ht => ?_) (fun p hp hm => ?_) (by simp) hs ?_ fun c hc => ?_
  · show h'.next g.ptr = _
    rw [hb.next]
  · show h'.type g.ptr = _
    rw [hb.type]
    exact hn.type
  · obtain ⟨e, hef, hgk⟩ := hb.key
    obtain rfl : f = e := by simpa using hef
    have hbody : Body (t.heap.nonLeaf g.ptr) (Jl ++ [x.item] ++ y.item :: Jr) := by
      simpa [h.items] using hn.body
    have := hbody.set_key (by simp) f.1
    show Body (h'.nonLeaf g.ptr) _
    rw [hgk]
    simpa using this
  · show h'.parent c.2 = g.ptr
    rw [hb.parent]
    simp only [List.mem_append, List.mem_cons] at hc
    rcases hc with hc | rfl | rfl | hc
    · exact hn.parent c (by simp [h.items, hc])
    · exact hn.parent _ (by simp [h.items])
    · exact hn.parent y.item (by simp [h.items])
    · exact hn.parent c (by simp [h.items, hc])
  · have := hn.two
    rw [h.items] at this
    simpa using this
  · have := hn.max
    rw [h.items] at this
    simpa using this
  · rw [Group.lo, Group.lo, h.items]
    cases Jl <;> rfl
  · have := h.above.levelOk.min ht g (by simp)
    rw [h.items] at this
    simpa using this
  · have hnl := h.leaf_notMem hp
    simp only [List.mem_cons, List.not_mem_nil, or_false] at hm
    rcases hm with rfl | rfl | rfl
    · exact absurd (by simp) hnl
    · exact absurd (by simp) hnl
    · rfl
  · rw [hptrs]
    exact h.ptr_nodup
  · show 0 < c.2 ∧ c.2 < h'.brk
    rw [hb.brk]
    refine h.ptr_bound ?_
    rw [← hptrs]
    exact List.mem_map_of_mem (by simp only [List.mem_append] at hc ⊢; grind)

/-! ### Merging -/

omit h in
theorem merged_frame (hm : LeafMerged t.heap h' x.ptr y.ptr X) :
    Frame t { t with heap := h' } [x.ptr] [] := by
  refine ⟨rfl, rfl, rfl, hm.brk.ge, fun p _ _ => ?_, fun p _ hn => ?_, fun p _ _ => ?_,
    fun p _ hn => ?_, fun p _ _ => ?_⟩
  · show h'.type p = _
    rw [hm.type]
  · show h'.next p = _
    rw [hm.next, Function.update_of_ne (by simpa using hn)]
  · show h'.nonLeaf p = _
    rw [hm.nonLeaf]
  · exact hm.leaf p (by simpa using hn)
  · show h'.parent p = _
    rw [hm.parent]

theorem leaves_merged (hm : LeafMerged t.heap h' x.ptr y.ptr X)
    (hX : X.Sublist (x.kvs ++ y.kvs)) (he : 1 ≤ t.entries)
    (hlen : (t.entries + 1) / 2 ≤ X.length ∧ X.length ≤ t.entries) :
    Leaves { t with heap := h' } E (A ++ ⟨x.lo, x.ptr, X⟩ :: B) false := by
  refine Leaves.replace (M := [x, y]) (N := [⟨x.lo, x.ptr, X⟩]) h.tree.leaves (merged_frame hm)
    (fun z hz => ?_) ?_ (fun _ => ⟨.inl rfl, ?_⟩) ?_ h.first fun e hc => ?_
  · obtain ⟨h1, h2⟩ := h.others z hz
    exact ⟨h1, fun hmem => h2 (by rw [List.mem_singleton.1 hmem]; simp)⟩
  · intro z hz
    rw [List.mem_singleton.1 hz]
    refine ⟨?_, hm.body, h.ascending.sublist hX, fun e hmem => h.lo_le e (hX.subset hmem),
      fun e hmem => h.data_ne e (hX.subset hmem), by simp only; omega, hlen.2⟩
    show h'.type x.ptr = _
    rw [hm.type]
    exact h.leaf_x.type
  · intro z hz
    rw [List.mem_singleton.1 hz]
    exact hlen.1
  · refine order_replace (M := [x, y]) h.tree.leaves.order (by simp) ?_ ?_
    · intro n hn
      rw [List.mem_singleton.1 hn]
      exact ⟨x, by simp, le_rfl⟩
    · intro n hn b hb e hmem
      rw [List.mem_singleton.1 hn] at hmem
      exact h.lt_hi e (hX.subset hmem) b hb
  · have hpn := (List.nodup_append.1 h.ptr_nodup).1
    show Chain h'.next (t.head 0) _ e
    rw [hm.next]
    simp only [List.cons_append, List.nil_append, leafPtrs_append, leafPtrs_cons] at hc hpn ⊢
    exact hc.remove_after hpn (Function.update_self _ _ _) fun q _ hq =>
      Function.update_of_ne hq _ _

/-- `y` is merged into `x` and `non_leaf_remove` takes its item out of the parent. -/
theorem merge (hm : LeafMerged t.heap h' x.ptr y.ptr X) (hX : X.Sublist (x.kvs ++ y.kvs))
    (hp : Params t) (hlen : (t.entries + 1) / 2 ≤ X.length ∧ X.length ≤ t.entries) :
    ∃ t', nonLeafRemove MAX_LEVEL { t with heap := h' } g.ptr Jl.length 1 = .ok t' ∧
      SameParams t t' ∧ t'.stderr = t.stderr ∧ Spares t t' (A ++ x :: y :: B) ∧
      ∃ L' Gss', TreeOk t' E L' Gss' ∧ pairs L' = pairs A ++ X ++ pairs B := by
  have hl := h.leaves_merged hm hX hp.entries hlen
  have hitems : flat A₁ ++ (Jl ++ x.item :: Jr ++ flat B₁) = leafItems
    (A ++ ⟨x.lo, x.ptr, X⟩ :: B) := by
    rw [leafItems_append, leafItems_cons, h.left, h.right]
    simp [LeafNode.item]
  have hab : Above { t with heap := h' } E 1 (flat (A₁ ++ g :: B₁)) ((A₁ ++ g :: B₁) :: rest) := by
    refine h.above.frame (merged_frame hm) rfl (fun _ _ => rfl) (fun p hpm hmem => ?_) (by simp)
    refine h.leaf_notMem hpm ?_
    rw [List.mem_singleton.1 hmem]
    simp
  have hfuel := h.tree.above.fuel hp.level
  have hrest : rest.length < MAX_LEVEL := by
    simp only [List.length_cons] at hfuel
    omega
  obtain ⟨t', hrun, hf, hh, hst, Gss', hab', -⟩ := nonLeafRemove_spec hab h.items hrest hp.order
  rw [hitems] at hab'
  have hspares : Spares t t' (A ++ x :: y :: B) :=
    ((merged_frame hm).spares (by simp)).trans (hf.spares fun p hp => .inr (hab.type p hp))
  refine ⟨t', hrun, ⟨hf.order, hf.entries, hf.level⟩, hst, hspares, _, Gss',
    ⟨(hl.frame hf (hh 0 Nat.zero_lt_one) fun p hpm => ?_).weaken _, hab'⟩, by simp⟩
  have hp' : p ∈ leafPtrs (A ++ x :: y :: B) := by
    simp only [leafPtrs_append, leafPtrs_cons, List.mem_append, List.mem_cons] at hpm ⊢
    grind
  refine ⟨?_, fun hmem => h.leaf_notMem hmem hp'⟩
  show p < h'.brk
  rw [hm.brk]
  exact (h.ptr_bound hp').2

/-! ### The four blocks -/

section
variable {key d : Int} {K₁ K₂ : List (Int × Int)}

theorem remove_borrowLeft (he : 1 ≤ t.entries) (hy : y.kvs = K₁ ++ (key, d) :: K₂)
    (hs : (t.entries + 1) / 2 < x.kvs.length) : LeafErased t E (A ++ x :: y :: B) key
      { t with heap := borrowLeftLeaf t.heap g.ptr x.ptr y.ptr K₁.length Jl.length } := by
  obtain ⟨S, e, hx⟩ := List.eq_nil_or_concat' x.kvs |>.resolve_left h.leaf_x.ne_nil
  have hb := borrowLeftLeaf_spec g.ptr Jl.length h.leaf_y.body (hx ▸ h.leaf_x.body)
    (show K₁.length < y.kvs.length by rw [hy]; simp) h.x_ne_y.symm
  rw [hy, eraseIdx_length] at hb
  have hylen : y.kvs.length = (e :: (K₁ ++ K₂)).length := by
    rw [hy]
    simp only [List.length_append, List.length_cons]
    omega
  have hxlen : x.kvs.length = S.length + 1 := by rw [hx]; simp
  have hmx := h.leaf_x.max
  have hmy := h.leaf_y.max
  have hminy := h.min_y
  obtain ⟨L', Gss', hT, hpairs⟩ := h.borrow hb (by rw [hx, hy]; simp) he (by omega) (by omega)
  refine ⟨⟨rfl, rfl, rfl⟩, rfl, h.borrowed_spares hb, pairs A ++ x.kvs ++ K₁, d, K₂ ++ pairs B,
    by simp [hy], .inr
    ⟨L', Gss', hT, ?_⟩⟩
  rw [hpairs, hx]
  simp

theorem remove_borrowRight (he : 1 ≤ t.entries) (hx : x.kvs = K₁ ++ (key, d) :: K₂)
    (hs : (t.entries + 1) / 2 < y.kvs.length) : LeafErased t E (A ++ x :: y :: B) key
      { t with heap := borrowRightLeaf t.heap g.ptr y.ptr x.ptr K₁.length Jl.length } := by
  obtain ⟨e, f, F, hy⟩ : ∃ e f F, y.kvs = e :: f :: F := by
    match hy : y.kvs, (by omega : 2 ≤ y.kvs.length) with
    | e :: f :: F, _ => exact ⟨e, f, F, rfl⟩
  have hb := borrowRightLeaf_spec g.ptr Jl.length h.leaf_x.body (hy ▸ h.leaf_y.body) (by simp)
    (show K₁.length < x.kvs.length by rw [hx]; simp) h.x_ne_y
  rw [hx, eraseIdx_length] at hb
  have hxlen : x.kvs.length = (K₁ ++ K₂ ++ [e]).length := by
    rw [hx]
    simp only [List.length_append, List.length_cons, List.length_nil]
    omega
  have hylen : y.kvs.length = (f :: F).length + 1 := by rw [hy]; simp
  have hmx := h.leaf_x.max
  have hmy := h.leaf_y.max
  have hminx := h.min_x
  obtain ⟨L', Gss', hT, hpairs⟩ := h.borrow hb (by rw [hx, hy]; simp) he (by omega) (by omega)
  refine ⟨⟨rfl, rfl, rfl⟩, rfl, h.borrowed_spares hb, pairs A ++ K₁, d, K₂ ++ y.kvs ++ pairs B,
    by simp [hx], .inr
    ⟨L', Gss', hT, ?_⟩⟩
  rw [hpairs, hy]
  simp

theorem remove_mergeLeft (hp : Params t) (hy : y.kvs = K₁ ++ (key, d) :: K₂)
    (hlx : x.kvs.length ≤ (t.entries + 1) / 2) (hly : y.kvs.length ≤ (t.entries + 1) / 2) :
    ∃ t', nonLeafRemove MAX_LEVEL
      { t with heap := mergeLeftLeaf t.heap x.ptr y.ptr K₁.length } g.ptr Jl.length 1 = .ok t' ∧
          LeafErased t E (A ++ x :: y :: B) key t' := by
  have hm := mergeLeftLeaf_spec h.leaf_y.body h.leaf_x.body
    (show K₁.length < y.kvs.length by rw [hy]; simp)
  rw [hy, eraseIdx_length] at hm
  have hylen : y.kvs.length = (K₁ ++ K₂).length + 1 := by
    rw [hy]
    simp only [List.length_append, List.length_cons]
    omega
  have hminx := h.min_x
  obtain ⟨t', hrun, hpar, hst, hspares, L', Gss', hT, hpairs⟩ := h.merge hm (by rw [hy]; simp) hp
    (by rw [List.length_append]; omega)
  refine ⟨t', hrun, hpar, hst, hspares, pairs A ++ x.kvs ++ K₁, d, K₂ ++ pairs B, by simp [hy], .inr
    ⟨L', Gss', hT, ?_⟩⟩
  rw [hpairs]
  simp

theorem remove_mergeRight (hp : Params t) (hx : x.kvs = K₁ ++ (key, d) :: K₂)
    (hlx : x.kvs.length ≤ (t.entries + 1) / 2) (hly : y.kvs.length ≤ (t.entries + 1) / 2) :
    ∃ t', nonLeafRemove MAX_LEVEL
      { t with heap := mergeRightLeaf t.heap y.ptr x.ptr K₁.length } g.ptr Jl.length 1 = .ok t' ∧
          LeafErased t E (A ++ x :: y :: B) key t' := by
  have hm := mergeRightLeaf_spec h.leaf_x.body h.leaf_y.body
    (show K₁.length < x.kvs.length by rw [hx]; simp)
  rw [hx, eraseIdx_length] at hm
  have hxlen : x.kvs.length = (K₁ ++ K₂).length + 1 := by
    rw [hx]
    simp only [List.length_append, List.length_cons]
    omega
  have hminy := h.min_y
  obtain ⟨t', hrun, hpar, hst, hspares, L', Gss', hT, hpairs⟩ := h.merge hm (by rw [hx]; simp) hp
    (by rw [List.length_append]; omega)
  refine ⟨t', hrun, hpar, hst, hspares, pairs A ++ K₁, d, K₂ ++ y.kvs ++ pairs B, by simp [hx], .inr
    ⟨L', Gss', hT, ?_⟩⟩
  rw [hpairs]
  simp

end

end LeafSiblings

end

/-! ## Deletion in place -/

section
variable {t : Tree} {E : Nat → Ptr → Prop} {L₁ L₂ : List LeafNode}
  {Gss : List (List (Group Int Ptr))}
  {a : LeafNode} {key d : Int} {K₁ K₂ : List (Int × Int)}

theorem sublist_kvs : (K₁ ++ K₂).Sublist (K₁ ++ (key, d) :: K₂) :=
  (List.sublist_cons_self _ K₂).append_left K₁

/-- The leaf keeps an entry and is large enough. -/
theorem removeLeaf_tree (h : TreeOk t E (L₁ ++ a :: L₂) Gss) (hk : a.kvs = K₁ ++ (key, d) :: K₂)
    (h2 : 2 ≤ a.kvs.length)
    (hmin : Gss.isEmpty = false → (t.entries + 1) / 2 < a.kvs.length) :
    LeafErased t E (L₁ ++ a :: L₂) key
      { t with heap := t.heap.setLeaf a.ptr (removeLeaf (t.heap.leaf a.ptr) K₁.length) } := by
  have ha := h.leaves.leaf a (by simp)
  have hlen : a.kvs.length = (K₁ ++ K₂).length + 1 := by
    rw [hk]
    simp only [List.length_append, List.length_cons]
    omega
  have hsub : (K₁ ++ K₂).Sublist a.kvs := hk ▸ sublist_kvs
  let t' := { t with heap := t.heap.setLeaf a.ptr (removeLeaf (t.heap.leaf a.ptr) K₁.length) }
  have hf : Frame t t' [a.ptr] [] := by
    refine ⟨rfl, rfl, rfl, le_rfl, fun _ _ _ => rfl, fun _ _ _ => rfl, fun _ _ _ => rfl,
      fun p _ hp => ?_, fun _ _ _ => rfl⟩
    exact Function.update_of_ne (by simpa using hp) _ _
  have hnd := h.above.nodup
  rw [map_snd_leafItems] at hnd
  have hitems : leafItems (L₁ ++ ⟨a.lo, a.ptr, K₁ ++ K₂⟩ :: L₂) = leafItems (L₁ ++ a :: L₂) := by
    simp [LeafNode.item]
  refine ⟨⟨rfl, rfl, rfl⟩, rfl, hf.spares (by simp), pairs L₁ ++ K₁, d, K₂ ++ pairs L₂,
    by simp [hk], .inr ⟨L₁ ++ ⟨a.lo, a.ptr, K₁ ++ K₂⟩ :: L₂, Gss, ⟨?_, ?_⟩, by simp⟩⟩
  · refine Leaves.replace (M := [a]) (N := [⟨a.lo, a.ptr, K₁ ++ K₂⟩]) h.leaves hf
      (fun x hx => ⟨?_, fun hm => ?_⟩) ?_ (fun ht => ⟨.inl ht, ?_⟩) ?_ ?_ fun e hc => ?_
    · refine (h.above.bound x.ptr (List.mem_append_left _ ?_)).2
      rw [map_snd_leafItems]
      exact List.mem_map_of_mem (by simp only [List.mem_append, List.mem_cons] at hx ⊢; grind)
    · have hnd' := (List.nodup_append.1 hnd).1
      rw [leafPtrs_append, leafPtrs_cons, List.nodup_middle,
        List.nodup_cons, ← leafPtrs_append] at hnd'
      exact hnd'.1 (List.mem_singleton.1 hm ▸ List.mem_map_of_mem hx)
    · intro x hx
      rw [List.mem_singleton.1 hx]
      refine ⟨ha.type, ?_, ha.asc.sublist hsub, fun e he => ha.lo e (hsub.subset he),
        fun e he => ha.data e (hsub.subset he), by simp only; omega, ?_⟩
      · show LeafBody (Function.update t.heap.leaf a.ptr _ a.ptr) _
        rw [Function.update_self, ← eraseIdx_length K₁ (key, d) K₂, ← hk]
        exact ha.body.erase (by rw [hk]; simp)
      · have := ha.max
        show (K₁ ++ K₂).length ≤ t.entries
        omega
    · intro x hx
      rw [List.mem_singleton.1 hx]
      have := hmin ht
      simp only
      omega
    · refine order_replace (M := [a]) h.leaves.order (by simp) (by simp) fun n hn b hb e he => ?_
      rw [List.mem_singleton.1 hn] at he
      have ho := (List.pairwise_append.1 h.leaves.order).2.1
      exact (List.pairwise_cons.1 ho).1 b hb e (hsub.subset he)
    · exact first_replaced h.leaves.first rfl
    · show Chain t.heap.next (t.head 0) _ e
      simpa using hc
  · rw [hitems]
    refine h.above.frame hf rfl (fun _ _ => rfl) (fun p hp hm => ?_) (by simp)
    refine (List.nodup_append.1 hnd).2.2 a.ptr (by simp) p hp (List.mem_singleton.1 hm).symm

/-- The last entry of the tree. -/
theorem removeLast_tree (h : TreeOk t E (L₁ ++ a :: L₂) []) (hk : a.kvs = [(key, d)]) :
    LeafErased t E (L₁ ++ a :: L₂) key
      { t with root := 0, head := Function.update t.head 0 0 } := by
  obtain ⟨lo, hroot⟩ := h.above.tower
  obtain ⟨rfl, rfl⟩ : L₁ = [] ∧ L₂ = [] := by
    cases L₁ with
    | nil =>
      simp only [leafItems, List.nil_append, List.map_cons, List.cons.injEq,
        List.map_eq_nil_iff] at hroot
      exact ⟨rfl, hroot.2⟩
    | cons x L₁ => simp [leafItems] at hroot
  have ha := h.above.bound a.ptr (by simp)
  refine ⟨⟨rfl, rfl, rfl⟩, rfl, ⟨rfl, le_rfl, fun _ _ ht _ => ⟨ht, rfl, rfl⟩⟩, [], d, [],
    by simp [hk], .inl ⟨⟨rfl, fun j => ?_, ha.1.trans ha.2⟩, rfl⟩⟩
  show Function.update t.head 0 0 j = 0
  rw [Function.update_apply]
  split_ifs with hj
  · rfl
  · exact h.above.headAbove j (by simp; omega)

/-! ## `leaf_remove` -/

variable {rest : List (List (Group Int Ptr))}

/-- The search for the leaf's first key in the parent finds the leaf's own place. -/
theorem search_leaf {A B : List (Group Int Ptr)} {g : Group Int Ptr}
    {I₁ I₂ : List (Item Int Ptr)} (h : TreeOk t E (L₁ ++ a :: L₂) ((A ++ g :: B) :: rest))
    (hg : g.items = I₁ ++ a.item :: I₂) (hY : leafItems L₂ = I₂ ++ flat B) :
    (if keyBinarySearch (t.heap.nonLeaf g.ptr).key ((t.heap.nonLeaf g.ptr).children - 1)
          ((t.heap.leaf a.ptr).key 0) ≥ 0
      then (keyBinarySearch (t.heap.nonLeaf g.ptr).key ((t.heap.nonLeaf g.ptr).children - 1)
        ((t.heap.leaf a.ptr).key 0) + 1).toNat
      else (-keyBinarySearch (t.heap.nonLeaf g.ptr).key ((t.heap.nonLeaf g.ptr).children - 1)
        ((t.heap.leaf a.ptr).key 0) - 1).toNat) = I₁.length := by
  have ha := h.leaves.leaf a (by simp)
  obtain ⟨f, F, hF⟩ := List.exists_cons_of_ne_nil ha.ne_nil
  have hf : f ∈ a.kvs := by simp [hF]
  have hkey : (t.heap.leaf a.ptr).key 0 = f.1 := ha.body.key_at (by simp [hF])
  have hb := (h.above.levelOk.node g (by simp)).body
  have hs : Sorted g.items := sorted_items (by rw [h.above.flat_eq]; exact h.above.sorted)
    (by simp : g ∈ A ++ g :: B)
  rw [hg] at hb hs
  rw [hkey]
  refine hb.search hs ⟨fun c hc => ?_, ha.lo f hf, fun c hc => ?_⟩
  · exact ((List.pairwise_append.1 hs).2.2 c hc a.item (by simp)).le.trans (ha.lo f hf)
  · have hc' : c ∈ leafItems L₂ := by rw [hY]; simp [hc]
    obtain ⟨b, hb, rfl⟩ := List.mem_map.1 hc'
    have ho := (List.pairwise_append.1 h.leaves.order).2.1
    exact (List.pairwise_cons.1 ho).1 b hb f hf

theorem leaf_parent {Gs : List (Group Int Ptr)} (h : TreeOk t E (L₁ ++ a :: L₂) (Gs :: rest)) :
    ∃ A g B I₁ I₂, Gs = A ++ g :: B ∧ g.items = I₁ ++ a.item :: I₂ ∧ leafItems L₁ = flat A ++ I₁ ∧
      leafItems L₂ = I₂ ++ flat B ∧ t.heap.parent a.ptr = g.ptr ∧ g.ptr ≠ 0 := by
  have hab := h.above
  rw [leafItems_append, leafItems_cons] at hab
  obtain ⟨A, g, B, I₁, I₂, rfl, hg, hX, hY, hpar⟩ := hab.group
  exact ⟨A, g, B, I₁, I₂, rfl, hg, hX, hY, hpar, (hab.bound g.ptr (by simp)).1.ne'⟩

/-- A leaf that is not the root and has too few entries. -/
theorem leafRemove_small {Gs : List (Group Int Ptr)}
    (h : TreeOk t E (L₁ ++ a :: L₂) (Gs :: rest)) (hp : Params t)
    (hk : a.kvs = K₁ ++ (key, d) :: K₂) (hle : a.kvs.length ≤ (t.entries + 1) / 2) :
    ∃ t', leafRemove t a.ptr key = .ok (0, t') ∧ LeafErased t E (L₁ ++ a :: L₂) key t' := by
  have ha := h.leaves.leaf a (by simp)
  have hbody := ha.body
  have hasc := ha.asc
  rw [hk] at hbody hasc
  obtain ⟨A, g, B, I₁, I₂, rfl, hg, hX, hY, hpar, hne⟩ := leaf_parent h
  have hn := h.above.levelOk.node g (by simp)
  have hgb := hn.body
  rw [hg] at hgb
  have hsearch := search_leaf h hg hY
  simp only [leafRemove, hbody.search_found hasc]
  simp only [ha.body.entries]
  rw [if_neg (by omega), if_pos hle, hpar, if_pos hne]
  simp only [hsearch, Int.toNat_natCast]
  rcases chooseSibling_spec hgb (hg ▸ hn.two) (fun s => (t.heap.leaf s).entries) with
    ⟨J, l, rfl, hch⟩ | ⟨r, J, rfl, hch⟩
  · -- the left neighbour `x`
    obtain ⟨L₁', x, rfl, hL, hx⟩ : ∃ L' x, L₁ = L' ++ [x] ∧ leafItems L' = flat A ++ J ∧
      x.item = l := by
      obtain ⟨L', x, B', rfl, h1, h2, h3⟩ := leafItems_eq_mid (X := flat A ++ J) (c := l) (Y := [])
        (by rw [hX]; simp)
      obtain rfl : B' = [] := by simpa [leafItems] using h3
      exact ⟨L', x, rfl, h1, h2⟩
    subst hx
    have hsib : LeafSiblings t E L₁' x a L₂ A g B rest J I₂ :=
      ⟨by simpa using h, by simpa using hg, hL, hY⟩
    rw [hch]
    simp only [bind, Except.bind, pure, Except.pure, List.length_append, List.length_singleton,
      Nat.add_sub_cancel, LeafNode.item_snd, hsib.leaf_x.body.entries]
    by_cases hs : x.kvs.length > (t.entries + 1) / 2
    · rw [if_pos hs]
      exact ⟨_, rfl, by simpa using hsib.remove_borrowLeft hp.entries hk hs⟩
    · rw [if_neg hs]
      obtain ⟨t', hrun, her⟩ := hsib.remove_mergeLeft hp hk (not_lt.1 hs) hle
      exact ⟨t', by rw [hrun], by simpa using her⟩
  · -- the right neighbour `y`
    obtain ⟨y, L₂', rfl, hy, hL⟩ : ∃ y L', L₂ = y :: L' ∧ y.item = r ∧
      leafItems L' = J ++ flat B := by
      obtain ⟨A', y, L', rfl, h1, h2, h3⟩ := leafItems_eq_mid (X := []) (c := r) (Y := J ++ flat B)
        (by rw [hY]; simp)
      obtain rfl : A' = [] := by simpa [leafItems] using h1
      exact ⟨y, L', rfl, h2, h3⟩
    subst hy
    have hsib : LeafSiblings t E L₁ a y L₂' A g B rest I₁ J := ⟨h, hg, hX, hL⟩
    rw [hch]
    simp only [bind, Except.bind, pure, Except.pure, LeafNode.item_snd, hsib.leaf_y.body.entries]
    by_cases hs : y.kvs.length > (t.entries + 1) / 2
    · rw [if_pos hs]
      exact ⟨_, rfl, hsib.remove_borrowRight hp.entries hk hs⟩
    · rw [if_neg hs]
      obtain ⟨t', hrun, her⟩ := hsib.remove_mergeRight hp hk hle (not_lt.1 hs)
      exact ⟨t', by rw [hrun], her⟩

/-- **`leaf_remove`** of a stored key (module doc). -/
theorem leafRemove_spec (h : TreeOk t E (L₁ ++ a :: L₂) Gss) (hp : Params t)
    (hk : a.kvs = K₁ ++ (key, d) :: K₂) :
    ∃ t', leafRemove t a.ptr key = .ok (0, t') ∧ LeafErased t E (L₁ ++ a :: L₂) key t' := by
  have ha := h.leaves.leaf a (by simp)
  have hbody := ha.body
  have hasc := ha.asc
  have hone := ha.one
  have hent := hp.entries
  rw [hk] at hbody hasc
  have hlen : a.kvs.length = K₁.length + K₂.length + 1 := by
    rw [hk]
    simp only [List.length_append, List.length_cons]
    omega
  by_cases hle : a.kvs.length ≤ (t.entries + 1) / 2
  · cases Gss with
    | nil =>
      have hpar : t.heap.parent a.ptr = 0 := by
        obtain ⟨lo, hroot⟩ := h.above.tower
        have hm : a.ptr ∈ (leafItems (L₁ ++ a :: L₂)).map Prod.snd := by simp
        rw [hroot] at hm
        rw [show a.ptr = t.root by simpa using hm]
        exact h.above.rootParent
      simp only [leafRemove, hbody.search_found hasc]
      simp only [ha.body.entries]
      rw [if_neg (by omega), if_pos hle, hpar, if_neg (by simp)]
      by_cases h1 : a.kvs.length = 1
      · obtain ⟨rfl, rfl⟩ : K₁ = [] ∧ K₂ = [] :=
          ⟨List.eq_nil_of_length_eq_zero (by omega), List.eq_nil_of_length_eq_zero (by omega)⟩
        rw [if_pos h1, if_pos (hbody.key_at (e := (key, d)) rfl).symm]
        exact ⟨_, rfl, removeLast_tree h hk⟩
      · rw [if_neg h1]
        exact ⟨_, rfl, removeLeaf_tree h hk (by omega) (by simp)⟩
    | cons Gs rest => exact leafRemove_small h hp hk hle
  · simp only [leafRemove, hbody.search_found hasc]
    simp only [ha.body.entries]
    rw [if_neg (by omega), if_neg hle]
    exact ⟨_, rfl, removeLeaf_tree h hk (by omega) fun _ => by omega⟩

/-- `leaf_remove` of a key that is not in the leaf. -/
theorem leafRemove_absent (h : LeafOk t a) (hk : a.kvs = K₁ ++ K₂) (h1 : ∀ e ∈ K₁, e.1 < key)
    (h2 : ∀ e ∈ K₂, key < e.1) : leafRemove t a.ptr key = .ok (-1, t) := by
  have hb := h.body
  rw [hk] at hb
  simp only [leafRemove, hb.search_absent h1 h2]
  rw [if_pos (by omega)]

end

end BplusTree
