import DsAlgor.BplusTree.Above
import DsAlgor.BplusTree.Rebalance

/-!
# Deletion from the inner levels

`nonLeafRemove_spec`: `non_leaf_remove` called for the child `d` behind `c` fails no assertion,
reads no key or sibling that is not there, and takes the item `d` out of the level below. The sizes
of the nodes stay between `order / 2` and `order`: `Siblings.borrow` and `Siblings.merge` are the
two ways a node with too few children is filled up.
-/

namespace BplusTree

open CArray Levels

/-- What `non_leaf_remove` does on the levels `Gss` when it turns the level below into `items`. -/
def RemovePost (t : Tree) (E : Nat → Ptr → Prop) (i : Nat) (items : List (Item Int Ptr))
    (Gss : List (List (Group Int Ptr))) (r : Except Fault Tree) : Prop :=
  ∃ t', r = .ok t' ∧ Frame t t' (allPtrs Gss) (items.map Prod.snd ++ allPtrs Gss) ∧
    (∀ j < i, t'.head j = t.head j) ∧ t'.stderr = t.stderr ∧
    ∃ Gss', Above t' E i items Gss' ∧ ∀ p ∈ allPtrs Gss', p ∈ allPtrs Gss

/-! ## Deletion in place -/

section
variable {t : Tree} {E : Nat → Ptr → Prop} {i : Nat} {A B : List (Group Int Ptr)}
  {g : Group Int Ptr}
  {rest : List (List (Group Int Ptr))} {I₁ I₂ : List (Item Int Ptr)} {c d : Item Int Ptr}

/-- The items left are a sublist, so order, distinctness and bounds are inherited. -/
theorem Above.sublist_items {J : List (Item Int Ptr)}
    (h : Above t E i (flat (A ++ g :: B)) ((A ++ g :: B) :: rest)) (hJ : J.Sublist g.items) :
    Sorted (flat A ++ (J ++ flat B)) ∧
      ((flat A ++ (J ++ flat B)).map Prod.snd ++ (ptrs (A ++ g :: B) ++ allPtrs rest)).Nodup ∧
      ∀ e ∈ J, 0 < e.2 ∧ e.2 < t.heap.brk := by
  have hsub : (flat A ++ (J ++ flat B)).Sublist (flat (A ++ g :: B)) := by
    rw [flat_append, flat_cons]
    exact (hJ.append_right _).append_left _
  refine ⟨h.sorted.sublist hsub, h.nodup.sublist ((hsub.map _).append_right _), fun e he => ?_⟩
  exact h.bound e.2 (List.mem_append_left _ (List.mem_map_of_mem (hsub.subset (by simp [he]))))

theorem lo_append_cons {p : Ptr} {e : Item Int Ptr} {I J : List (Item Int Ptr)} :
    (⟨p, I ++ e :: J⟩ : Group Int Ptr).lo = (⟨p, I ++ [e]⟩ : Group Int Ptr).lo := by
  cases I <;> rfl

theorem simpleDeletion_spec (h : Above t E i (flat (A ++ g :: B)) ((A ++ g :: B) :: rest))
    (hg : g.items = I₁ ++ c :: d :: I₂) (h2 : 2 < g.items.length)
    (hmin : rest.isEmpty = false → t.order / 2 < g.items.length) :
    RemovePost t E i (flat A ++ (I₁ ++ c :: I₂ ++ flat B)) ((A ++ g :: B) :: rest)
      (simpleDeletion t g.ptr I₁.length) := by
  have hn := h.levelOk.node g (by simp)
  have hJ : (I₁ ++ c :: I₂).Sublist g.items := by
    rw [hg]
    exact (List.Sublist.cons_cons c (List.sublist_cons_self d I₂)).append_left I₁
  have hr : I₁.length + 1 < g.items.length := by rw [hg]; simp
  have herase : g.items.eraseIdx (I₁.length + 1) = I₁ ++ c :: I₂ := by rw [hg, eraseIdx_mid]
  have hlen : (I₁ ++ c :: I₂).length + 1 = g.items.length := by
    rw [hg]
    simp only [List.length_append, List.length_cons]
    omega
  let t' :=
    { t with heap := t.heap.setNonLeaf g.ptr (removeNonLeaf (t.heap.nonLeaf g.ptr) I₁.length) }
  have hrun : simpleDeletion t g.ptr I₁.length = .ok t' := by
    rw [simpleDeletion, if_pos (by rw [hn.body.children]; exact h2)]
  have hf : Frame t t' [g.ptr] [] := by
    refine ⟨rfl, rfl, rfl, le_rfl, fun _ _ _ => rfl, fun _ _ _ => rfl, fun p _ hp => ?_,
      fun _ _ _ => rfl, fun _ _ _ => rfl⟩
    exact Function.update_of_ne (by simpa using hp) _ _
  obtain ⟨hs, hnd, hb⟩ := h.sublist_items hJ
  refine ⟨t', hrun, hf.mono (by simp) (by simp), fun _ _ => rfl, rfl, _,
    h.set_node hf rfl (fun _ _ => rfl) rfl ⟨hn.type, ?_, fun e he => hn.parent e (hJ.subset he),
    ?_, ?_⟩
      ?_ (fun ht => ?_) (by simp) (by simp) hs hnd hb, by simp⟩
  · rw [← herase]
    show Body (Function.update t.heap.nonLeaf g.ptr _ g.ptr) _
    rw [Function.update_self]
    exact hn.body.erase hr
  · show 2 ≤ (I₁ ++ c :: I₂).length
    omega
  · have := hn.max
    show (I₁ ++ c :: I₂).length ≤ t.order
    omega
  · rw [lo_append_cons, Group.lo, Group.lo, hg]
    cases I₁ <;> rfl
  · have := hmin ht
    omega

/-- `node` is the root and keeps one child: the tree loses a level. -/
theorem collapse_spec (h : Above t E i (flat (A ++ g :: B)) [A ++ g :: B]) (hg : g.items = [c, d]) :
    RemovePost t E i [c] [A ++ g :: B]
      (.ok { t with
        heap := t.heap.setParent ((t.heap.nonLeaf g.ptr).subPtr 0) 0
        root := (t.heap.nonLeaf g.ptr).subPtr 0
        head := Function.update t.head i 0 }) := by
  obtain ⟨rfl, rfl, hroot⟩ := h.alone
  have hn := h.levelOk.node g (by simp)
  have hc : (t.heap.nonLeaf g.ptr).subPtr 0 = c.2 := hn.body.sub_at (by simp [hg])
  rw [hc]
  have hcb := h.bound c.2 (by simp [hg])
  refine ⟨_, rfl, ⟨rfl, rfl, rfl, le_rfl, fun _ _ _ => rfl, fun _ _ _ => rfl, fun _ _ _ => rfl,
    fun _ _ _ => rfl, fun p _ hp => Function.update_of_ne ?_ _ _⟩,
    fun j hj => Function.update_of_ne (by omega) _ _, rfl, [], ⟨⟨c.1, rfl⟩, by simp, fun p hp => ?_,
    by simp [Sorted], Function.update_self _ _ _, ?_, fun j hj => ?_⟩, by simp⟩
  · rintro rfl
    exact hp (by simp)
  · obtain rfl : p = c.2 := by simpa using hp
    exact hcb
  · have := h.height
    simp only [List.length_cons, List.length_nil] at this ⊢
    show ((i : Int) + _ ≤ max 2 t.level)
    push_cast at this ⊢
    omega
  · show Function.update t.head i 0 j = 0
    rw [Function.update_apply]
    split_ifs
    · rfl
    · refine h.headAbove j ?_
      simp only [List.length_cons, List.length_nil, Nat.add_zero] at hj ⊢
      omega

end

/-! ## Two neighbours below one parent -/

section
variable {t : Tree} {E : Nat → Ptr → Prop} {i : Nat} {A B A₁ B₁ : List (Group Int Ptr)}
  {x y g₁ : Group Int Ptr} {rest : List (List (Group Int Ptr))} {Jl Jr X Y : List (Item Int Ptr)}

/-- `x` and `y` are neighbours on level `i`; their parent `g₁` has the children `Jl` before them and
`Jr` after them. -/
structure Siblings (t : Tree) (E : Nat → Ptr → Prop) (i : Nat) (A : List (Group Int Ptr))
    (x y : Group Int Ptr) (B A₁ : List (Group Int Ptr)) (g₁ : Group Int Ptr)
    (B₁ : List (Group Int Ptr)) (rest : List (List (Group Int Ptr))) (Jl Jr : List (Item Int Ptr)) :
    Prop where
  above : Above t E i (flat (A ++ x :: y :: B)) ((A ++ x :: y :: B) :: (A₁ ++ g₁ :: B₁) :: rest)
  items : g₁.items = Jl ++ x.item :: y.item :: Jr
  left : heads A = flat A₁ ++ Jl
  right : heads B = Jr ++ flat B₁

namespace Siblings

variable (h : Siblings t E i A x y B A₁ g₁ B₁ rest Jl Jr)
include h

theorem node_x : NodeOk t x :=
  h.above.levelOk.node x (by simp)

theorem node_y : NodeOk t y :=
  h.above.levelOk.node y (by simp)

theorem min_x : t.order / 2 ≤ x.items.length :=
  h.above.levelOk.min rfl x (by simp)

theorem min_y : t.order / 2 ≤ y.items.length :=
  h.above.levelOk.min rfl y (by simp)

theorem node_parent : NodeOk t g₁ :=
  h.above.upper.levelOk.node g₁ (by simp)

theorem ptrs_nodup :
    (ptrs (A ++ x :: y :: B) ++ (ptrs (A₁ ++ g₁ :: B₁) ++ allPtrs rest)).Nodup := by
  simpa using (List.nodup_append.1 h.above.nodup).2.1

theorem x_ne_y : x.ptr ≠ y.ptr := by
  have := (List.nodup_append.1 h.ptrs_nodup).1
  rw [ptrs_append, ptrs_cons, ptrs_cons] at this
  have := (List.nodup_append.1 this).2.1
  intro he
  exact (List.nodup_cons.1 this).1 (he ▸ List.mem_cons_self)

/-- The level's addresses are not those of the levels above. -/
theorem ptr_ne_up {p q : Ptr} (hp : p ∈ ptrs (A ++ x :: y :: B))
    (hq : q ∈ ptrs (A₁ ++ g₁ :: B₁) ++ allPtrs rest) : p ≠ q :=
  (List.nodup_append.1 h.ptrs_nodup).2.2 p hp q hq

theorem child_notMem {p : Ptr}
    (hp : p ∈ ptrs (A ++ x :: y :: B) ++ (ptrs (A₁ ++ g₁ :: B₁) ++ allPtrs rest)) :
    p ∉ (flat (A ++ x :: y :: B)).map Prod.snd :=
  fun hm => (List.nodup_append.1 h.above.nodup).2.2 p hm p (by simpa using hp) rfl

theorem flat_nodup : ((flat A).map Prod.snd ++
    ((x.items ++ y.items).map Prod.snd ++ (flat B).map Prod.snd)).Nodup := by
  simpa using (List.nodup_append.1 h.above.nodup).1

theorem items_nodup : ((x.items ++ y.items).map Prod.snd).Nodup :=
  (List.nodup_append.1 (List.nodup_append.1 h.flat_nodup).2.1).1

/-- The parent's key between the two nodes. -/
theorem key : ∀ c ∈ y.items.head?, c.1 = ((t.heap.nonLeaf g₁.ptr).key Jl.length : WithBot Int) := by
  intro c hc
  have hb := h.node_parent.body
  rw [h.items] at hb
  rw [hb.key_at (c := y.item) (by simp)]
  obtain ⟨I, hI⟩ : ∃ I, y.items = c :: I := List.head?_eq_some_iff.1 hc
  exact (lo_of_items hI).symm

/-- The other nodes of the level have other children. -/
theorem others (hXY : X.Sublist (x.items ++ y.items)) :
    ∀ z ∈ A ++ B, z.ptr < t.heap.brk ∧ z.ptr ∉ [x.ptr, y.ptr, g₁.ptr] ∧
      ∀ c ∈ z.items, c.2 < t.heap.brk ∧ c.2 ∉ X.map Prod.snd := by
  intro z hz
  have hz' : z ∈ A ++ x :: y :: B := by
    simp only [List.mem_append, List.mem_cons] at hz ⊢; grind
  have hzp : z.ptr ∈ ptrs (A ++ x :: y :: B) := List.mem_map_of_mem hz'
  refine ⟨(h.above.bound _ (by simp only [allPtrs_cons, List.mem_append]; grind)).2, ?_,
    fun c hc => ⟨?_, fun hm => ?_⟩⟩
  · have hnd := (List.nodup_append.1 h.ptrs_nodup).1
    have hnd' : (x.ptr :: y.ptr :: (ptrs A ++ ptrs B)).Nodup := by
      refine hnd.perm ?_
      rw [ptrs_append, ptrs_cons, ptrs_cons]
      exact List.perm_middle.trans ((List.perm_middle).cons _)
    have hzm : z.ptr ∈ ptrs A ++ ptrs B := by rw [← ptrs_append]; exact List.mem_map_of_mem hz
    obtain ⟨h1, h2⟩ := List.nodup_cons.1 hnd'
    simp only [List.mem_cons, List.not_mem_nil, or_false, not_or]
    refine ⟨?_, ?_, h.ptr_ne_up hzp (by simp)⟩
    · intro he
      exact h1 (List.mem_cons_of_mem _ (he ▸ hzm))
    · intro he
      exact (List.nodup_cons.1 h2).1 (he ▸ hzm)
  · exact (h.above.bound _ (List.mem_append_left _
      (List.mem_map_of_mem (mem_flat.2 ⟨z, hz', hc⟩)))).2
  · have hm' := (hXY.map Prod.snd).subset hm
    obtain ⟨-, h2, h3⟩ := List.nodup_append.1 h.flat_nodup
    rcases List.mem_append.1 hz with hz | hz
    · exact h3 _ (List.mem_map_of_mem (mem_flat.2 ⟨z, hz, hc⟩)) _ (List.mem_append_left _ hm') rfl
    · exact (List.nodup_append.1 h2).2.2 _ hm' _ (List.mem_map_of_mem (mem_flat.2 ⟨z, hz, hc⟩)) rfl

/-- The items left are a sublist of those before. -/
theorem sublist (hXY : X.Sublist (x.items ++ y.items)) : Sorted (flat A ++ (X ++ flat B)) ∧
      ((flat A ++ (X ++ flat B)).map Prod.snd ++ (ptrs (A ++ x :: y :: B) ++
        (ptrs (A₁ ++ g₁ :: B₁) ++ allPtrs rest))).Nodup ∧
      ∀ p ∈ (flat A ++ (X ++ flat B)).map Prod.snd, 0 < p ∧ p < t.heap.brk := by
  have hsub : (flat A ++ (X ++ flat B)).Sublist (flat (A ++ x :: y :: B)) := by
    rw [flat_append, flat_cons, flat_cons, ← List.append_assoc x.items]
    exact (hXY.append_right _).append_left _
  refine ⟨h.above.sorted.sublist hsub, ?_, fun p hp =>
    h.above.bound p (List.mem_append_left _ ((hsub.map _).subset hp))⟩
  have := h.above.nodup
  rw [allPtrs_cons, allPtrs_cons] at this
  exact this.sublist ((hsub.map _).append_right _)

/-! ### Borrowing -/

variable {h' : Heap}

section
variable (hb : Borrowed t.heap h' x.ptr y.ptr g₁.ptr X Y Jl.length)
include hb

omit h in
theorem borrowed_frame :
    Frame t { t with heap := h' } [x.ptr, y.ptr, g₁.ptr] ((X ++ Y).map Prod.snd) := by
  refine ⟨rfl, rfl, rfl, hb.brk.ge, fun p _ _ => ?_, fun p _ _ => ?_, fun p _ hn => ?_,
    fun p _ _ => ?_, fun p _ hn => hb.parent p hn⟩
  · show h'.type p = _
    rw [hb.type]
  · show h'.next p = _
    rw [hb.next]
  · simp only [List.mem_cons, List.not_mem_nil, or_false, not_or] at hn
    exact hb.nonLeaf p hn.1 hn.2.1 hn.2.2
  · show h'.leaf p = _
    rw [hb.leaf]

theorem nodes_borrowed (hX : 2 ≤ X.length ∧ X.length ≤ t.order)
    (hY : 2 ≤ Y.length ∧ Y.length ≤ t.order) :
    NodeOk { t with heap := h' } ⟨x.ptr, X⟩ ∧ NodeOk { t with heap := h' } ⟨y.ptr, Y⟩ := by
  refine ⟨⟨?_, hb.left, hb.leftParent, hX.1, hX.2⟩, ⟨?_, hb.right, hb.rightParent, hY.1, hY.2⟩⟩
  · show h'.type x.ptr = _
    rw [hb.type]
    exact h.node_x.type
  · show h'.type y.ptr = _
    rw [hb.type]
    exact h.node_y.type

/-- The levels above get the new separator. -/
theorem above_borrowed (hXY : (X ++ Y).Sublist (x.items ++ y.items))
    (hlo : (⟨x.ptr, X⟩ : Group Int Ptr).lo = x.lo) (hX : X ≠ []) (hY : Y ≠ []) :
    Above { t with heap := h' } E (i + 1) (heads (A ++ ⟨x.ptr, X⟩ :: ⟨y.ptr, Y⟩ :: B))
      ((A₁ ++ ⟨g₁.ptr, Jl ++ x.item :: (⟨y.ptr, Y⟩ : Group Int Ptr).item :: Jr⟩ :: B₁) ::
      rest) := by
  obtain ⟨k, hk, hg⟩ := hb.key
  have hlok : (⟨y.ptr, Y⟩ : Group Int Ptr).lo = (k : WithBot Int) := by
    obtain ⟨c, Y', rfl⟩ := List.exists_cons_of_ne_nil hY
    exact hk c (by simp)
  have hitem : (⟨y.ptr, Y⟩ : Group Int Ptr).item = ((k : WithBot Int), y.ptr) := by
    rw [Group.item, hlok]
  have hheads : heads (A ++ ⟨x.ptr, X⟩ :: ⟨y.ptr, Y⟩ :: B) =
      flat A₁ ++ (Jl ++ x.item :: (⟨y.ptr, Y⟩ : Group Int Ptr).item :: Jr ++ flat B₁) := by
    rw [heads_append, heads_cons, heads_cons, h.left, h.right]
    simp [Group.item, hlo]
  have hup := h.above.upper
  have hflat : flat (A₁ ++ g₁ :: B₁) = heads (A ++ x :: y :: B) := hup.flat_eq
  have hsub : ∀ p ∈ (X ++ Y).map Prod.snd, p ∈ (flat (A ++ x :: y :: B)).map Prod.snd := by
    intro p hp
    have := (hXY.map Prod.snd).subset hp
    simp only [flat_append, flat_cons, List.map_append, List.mem_append] at this ⊢
    grind
  have hmap : (flat A₁ ++ (Jl ++ x.item :: (⟨y.ptr, Y⟩ : Group Int Ptr).item :: Jr ++ flat B₁)).map
      Prod.snd = (flat (A₁ ++ g₁ :: B₁)).map Prod.snd := by
    rw [flat_append, flat_cons, h.items]
    simp
  have hmem : ∀ p ∈ (flat (A₁ ++ g₁ :: B₁)).map Prod.snd, p ∉ (X ++ Y).map Prod.snd := by
    intro p hp hm
    rw [hflat, map_snd_heads] at hp
    exact h.child_notMem (List.mem_append_left _ hp) (hsub p hm)
  have hchild : ∀ c ∈ Jl ++ x.item :: (⟨y.ptr, Y⟩ : Group Int Ptr).item :: Jr,
      ∃ d ∈ g₁.items, d.2 = c.2 := by
    intro c hc
    rw [h.items]
    simp only [List.mem_append, List.mem_cons] at hc ⊢
    rcases hc with hc | rfl | rfl | hc
    · exact ⟨c, .inl hc, rfl⟩
    · exact ⟨_, .inr (.inl rfl), rfl⟩
    · exact ⟨y.item, .inr (.inr (.inl rfl)), rfl⟩
    · exact ⟨c, .inr (.inr (.inr hc)), rfl⟩
  have hn := h.node_parent
  rw [hheads]
  rw [← hflat] at hup
  refine hup.set_node (borrowed_frame hb) rfl (fun _ _ => rfl) ?_ ⟨?_, ?_, fun c hc =>
    ?_, ?_, ?_⟩ ?_ (fun ht => ?_) (fun p hp hm => ?_) (fun p hp => ?_) ?_ ?_ fun c hc => ?_
  · show h'.next g₁.ptr = _
    rw [hb.next]
  · show h'.type g₁.ptr = _
    rw [hb.type]
    exact hn.type
  · show Body (h'.nonLeaf g₁.ptr) _
    have hbody : Body (t.heap.nonLeaf g₁.ptr) (Jl ++ [x.item] ++ y.item :: Jr) := by
      simpa [h.items] using hn.body
    have := hbody.set_key (by simp) k
    rw [hg, hitem]
    simpa using this
  · obtain ⟨d, hd, hdc⟩ := hchild c hc
    show h'.parent c.2 = g₁.ptr
    rw [hb.parent, ← hdc]
    · exact hn.parent d hd
    · refine hmem _ ?_
      rw [← hdc]
      exact List.mem_map_of_mem (mem_flat.2 ⟨g₁, by simp, hd⟩)
  · have := hn.two
    rw [h.items] at this
    simpa using this
  · have := hn.max
    rw [h.items] at this
    simpa using this
  · rw [Group.lo, Group.lo, h.items]
    cases Jl <;> rfl
  · have := hup.levelOk.min ht g₁ (by simp)
    rw [h.items] at this
    simpa using this
  · simp only [List.mem_cons, List.not_mem_nil, or_false] at hm
    rw [allPtrs_cons] at hp
    rcases hm with rfl | rfl | rfl
    · exact absurd rfl (h.ptr_ne_up (by simp) hp)
    · exact absurd rfl (h.ptr_ne_up (by simp) hp)
    · rfl
  · rcases List.mem_append.1 hp with hp | hp
    · refine hmem p ?_
      simp only [flat_append, flat_cons, List.map_append, List.mem_append] at hp ⊢
      grind
    · rw [allPtrs_cons] at hp
      exact fun hm => h.child_notMem (List.mem_append_right _ hp) (hsub p hm)
  · rw [← hheads]
    refine sorted_heads (fun z hz => ?_) ?_
    · simp only [List.mem_append, List.mem_cons] at hz
      rcases hz with hz | rfl | rfl | hz
      · exact h.above.tower.2.1 z (by simp [hz])
      · exact hX
      · exact hY
      · exact h.above.tower.2.1 z (by simp [hz])
    · simpa using (h.sublist hXY).1
  · rw [hmap]
    simpa using hup.nodup
  · obtain ⟨d, hd, hdc⟩ := hchild c hc
    rw [← hdc]
    show 0 < d.2 ∧ d.2 < h'.brk
    rw [hb.brk]
    exact hup.bound _ (List.mem_append_left _ (List.mem_map_of_mem (mem_flat.2 ⟨g₁, by simp, hd⟩)))

/-- A child moves over the border between `x` and `y`. -/
theorem borrow (hXY : (X ++ Y).Sublist (x.items ++ y.items))
    (hlo : (⟨x.ptr, X⟩ : Group Int Ptr).lo = x.lo) (hX : 2 ≤ X.length ∧ X.length ≤ t.order)
    (hY : 2 ≤ Y.length ∧ Y.length ≤ t.order) (hXm : t.order / 2 ≤ X.length)
    (hYm : t.order / 2 ≤ Y.length) : RemovePost t E i (flat A ++ (X ++ Y ++ flat B))
      ((A ++ x :: y :: B) :: (A₁ ++ g₁ :: B₁) :: rest) (.ok { t with heap := h' }) := by
  have hf := borrowed_frame hb
  have hfl : flat (A ++ ⟨x.ptr, X⟩ :: ⟨y.ptr, Y⟩ :: B) = flat A ++ (X ++ Y ++ flat B) := by simp
  obtain ⟨hs, hnd, hbd⟩ := h.sublist hXY
  obtain ⟨hnx, hny⟩ := h.nodes_borrowed hb hX hY
  refine ⟨_, rfl, hf.mono ?_ ?_, fun _ _ => rfl, rfl, (A ++ ⟨x.ptr, X⟩ :: ⟨y.ptr, Y⟩ :: B) ::
    (A₁ ++ ⟨g₁.ptr, Jl ++ x.item :: (⟨y.ptr, Y⟩ : Group Int Ptr).item :: Jr⟩ :: B₁) :: rest,
    ?_, by simp⟩
  · intro p hp _
    simp only [List.mem_cons, List.not_mem_nil, or_false] at hp
    rcases hp with rfl | rfl | rfl <;> simp
  · intro p hp _
    rw [List.map_append, List.map_append]
    exact List.mem_append_left _ (List.mem_append_right _ (List.mem_append_left _ hp))
  rw [← hfl]
  refine (h.above_borrowed hb hXY hlo (List.ne_nil_of_length_pos (by omega))
    (List.ne_nil_of_length_pos (by omega))).push ?_ (hfl ▸ hs) ?_ ?_
  · refine LevelOk.replace (M := [x, y]) (N := [⟨x.ptr, X⟩, ⟨y.ptr, Y⟩]) h.above.levelOk hf
      (h.others hXY) ?_ ?_ ?_
    · intro z hz
      simp only [List.mem_cons, List.not_mem_nil, or_false] at hz
      rcases hz with rfl | rfl
      · exact hnx
      · exact hny
    · refine fun _ => ⟨.inl rfl, fun z hz => ?_⟩
      simp only [List.mem_cons, List.not_mem_nil, or_false] at hz
      rcases hz with rfl | rfl
      · exact hXm
      · exact hYm
    · intro e he
      show Chain h'.next (t.head i) _ e
      rw [hb.next]
      simpa using he
  · rw [hfl]
    simpa using hnd
  · intro p hp
    rw [hfl] at hp
    show 0 < p ∧ p < h'.brk
    rw [hb.brk]
    exact hbd p hp

/-! ### Merging -/

end

omit h in
theorem merged_frame (hm : Merged t.heap h' x.ptr y.ptr X) :
    Frame t { t with heap := h' } [x.ptr] (X.map Prod.snd) := by
  refine ⟨rfl, rfl, rfl, hm.brk.ge, fun p _ _ => ?_, fun p _ hn => ?_, fun p _ hn => ?_,
    fun p _ _ => ?_, fun p _ hn => hm.parent p hn⟩
  · show h'.type p = _
    rw [hm.type]
  · show h'.next p = _
    rw [hm.next, Function.update_of_ne (by simpa using hn)]
  · exact hm.nonLeaf p (by simpa using hn)
  · show h'.leaf p = _
    rw [hm.leaf]

/-- The levels above still have both nodes. -/
theorem above_merged (hm : Merged t.heap h' x.ptr y.ptr X) (hX : X.Sublist (x.items ++ y.items)) :
    Above { t with heap := h' } E (i + 1) (flat (A₁ ++ g₁ :: B₁)) ((A₁ ++ g₁ :: B₁) :: rest) := by
  have hup := h.above.upper
  rw [← hup.flat_eq] at hup
  refine hup.frame (merged_frame hm) rfl (fun _ _ => rfl) (fun p hp hmem => ?_)
    (fun p hp hmem => ?_)
  · rw [allPtrs_cons] at hp
    exact h.ptr_ne_up (p := x.ptr) (by simp) hp (List.mem_singleton.1 hmem).symm
  · have hp' : p ∈ ptrs (A ++ x :: y :: B) ++ (ptrs (A₁ ++ g₁ :: B₁) ++ allPtrs rest) := by
      rwa [h.above.upper.flat_eq, map_snd_heads, allPtrs_cons] at hp
    refine h.child_notMem hp' ?_
    have := (hX.map Prod.snd).subset hmem
    simp only [flat_append, flat_cons, List.map_append, List.mem_append] at this ⊢
    grind

/-- `y` is merged into `x`; `r` is the recursive call that takes the item of `y` out of the
parent. -/
theorem merge (hm : Merged t.heap h' x.ptr y.ptr X) (hX : X.Sublist (x.items ++ y.items))
    (hlo : (⟨x.ptr, X⟩ : Group Int Ptr).lo = x.lo) (hX2 : 2 ≤ X.length ∧ X.length ≤ t.order)
    (hXm : t.order / 2 ≤ X.length) {r : Except Fault Tree}
    (hr : RemovePost { t with heap := h' } E (i + 1) (flat A₁ ++ (Jl ++ x.item :: Jr ++ flat B₁))
      ((A₁ ++ g₁ :: B₁) :: rest) r) :
    RemovePost t E i (flat A ++ (X ++ flat B))
      ((A ++ x :: y :: B) :: (A₁ ++ g₁ :: B₁) :: rest) r := by
  obtain ⟨t', rfl, hf', hh, he, Gss', hab, hG⟩ := hr
  have hf := merged_frame hm
  have hfl : flat (A ++ ⟨x.ptr, X⟩ :: B) = flat A ++ (X ++ flat B) := by simp
  have hheads : flat A₁ ++ (Jl ++ x.item :: Jr ++ flat B₁) = heads (A ++ ⟨x.ptr, X⟩ :: B) := by
    rw [heads_append, heads_cons, h.left, h.right]
    simp [Group.item, hlo]
  obtain ⟨hs, hnd, hbd⟩ := h.sublist hX
  have hptrs : ∀ p ∈ ptrs (A ++ ⟨x.ptr, X⟩ :: B), p ∈ ptrs (A ++ x :: y :: B) := by
    intro p hp
    simp only [ptrs_append, ptrs_cons, List.mem_append, List.mem_cons] at hp ⊢
    grind
  have hflat : ∀ p ∈ (flat A ++ (X ++ flat B)).map Prod.snd,
    p ∈ (flat (A ++ x :: y :: B)).map Prod.snd := by
    intro p hp
    have := fun hmem => (hX.map Prod.snd).subset (a := p) hmem
    simp only [flat_append, flat_cons, List.map_append, List.mem_append] at this hp ⊢
    grind
  have hlev : ∀ top, LevelOk { t with heap := h' } E i top (A ++ ⟨x.ptr, X⟩ :: B) := by
    intro top
    refine LevelOk.replace (M := [x, y]) (N := [⟨x.ptr, X⟩]) h.above.levelOk hf ?_ ?_ ?_ ?_
    · intro z hz
      obtain ⟨h1, h2, h3⟩ := h.others hX z hz
      exact ⟨h1, fun hmem => h2 (by rw [List.mem_singleton.1 hmem]; simp), h3⟩
    · intro z hz
      rw [List.mem_singleton.1 hz]
      refine ⟨?_, hm.body, hm.children, hX2.1, hX2.2⟩
      show h'.type x.ptr = _
      rw [hm.type]
      exact h.node_x.type
    · refine fun _ => ⟨.inl rfl, fun z hz => ?_⟩
      rw [List.mem_singleton.1 hz]
      exact hXm
    · intro e hce
      have hpn := (List.nodup_append.1 h.ptrs_nodup).1
      show Chain h'.next (t.head i) _ e
      rw [hm.next]
      simp only [List.cons_append, List.nil_append, ptrs_append, ptrs_cons] at hce hpn ⊢
      exact hce.remove_after hpn (Function.update_self _ _ _) fun q _ hq =>
        Function.update_of_ne hq _ _
  have hbrk : ∀ p < t.heap.brk, p < h'.brk := fun p hp => by rw [hm.brk]; exact hp
  refine ⟨t', rfl, hf.trans hf' (fun p _ hn => ?_) (fun p _ hn => ?_), fun j hj =>
    hh j (by omega), he, (A ++ ⟨x.ptr, X⟩ :: B) :: Gss', ?_, ?_⟩
  · simp only [allPtrs_cons, ptrs_append, ptrs_cons, List.mem_append, List.mem_cons, not_or] at hn ⊢
    exact ⟨by simpa using hn.1.2.1, hn.2⟩
  · rw [hheads, map_snd_heads]
    refine ⟨fun hmem => hn ?_, fun hmem => hn ?_⟩
    · rw [List.map_append, List.map_append]
      exact List.mem_append_left _ (List.mem_append_right _ (List.mem_append_left _ hmem))
    · rcases List.mem_append.1 hmem with hmem | hmem
      · exact List.mem_append_right _ (List.mem_append_left _ (hptrs p hmem))
      · exact List.mem_append_right _ (List.mem_append_right _ hmem)
  · rw [← hfl]
    rw [hheads] at hab
    refine hab.push ((hlev _).frame hf' (hh i (Nat.lt_succ_self i)) (fun p hp => ?_) fun c hc => ?_)
      (hfl ▸ hs) ?_ ?_
    · refine ⟨hbrk p (h.above.bound p ?_).2, fun hmem => ?_⟩
      · rw [allPtrs_cons]
        exact List.mem_append_right _ (List.mem_append_left _ (hptrs p hp))
      · rw [allPtrs_cons] at hmem
        exact h.ptr_ne_up (hptrs p hp) hmem rfl
    · have hc' : c.2 ∈ (flat A ++ (X ++ flat B)).map Prod.snd := by
        rw [← hfl]
        exact List.mem_map_of_mem hc
      refine ⟨hbrk _ (hbd _ hc').2, fun hmem => ?_⟩
      rw [hheads, map_snd_heads, allPtrs_cons] at hmem
      refine h.child_notMem ?_ (hflat _ hc')
      rcases List.mem_append.1 hmem with hmem | hmem
      · exact List.mem_append_left _ (hptrs _ hmem)
      · exact List.mem_append_right _ hmem
    · rw [hfl]
      refine List.nodup_append.2 ⟨(List.nodup_append.1 hnd).1, ?_, ?_⟩
      · rw [← map_snd_heads]
        exact hab.nodup
      · rintro p hp q hq rfl
        refine (List.nodup_append.1 hnd).2.2 p hp p ?_ rfl
        rcases List.mem_append.1 hq with hq | hq
        · exact List.mem_append_left _ (hptrs p hq)
        · have := hG p hq
          rw [allPtrs_cons] at this
          exact List.mem_append_right _ this
    · intro p hp
      rw [hfl] at hp
      exact ⟨(hbd p hp).1, (hbrk p (hbd p hp).2).trans_le hf'.brk⟩
  · intro p hp
    rw [allPtrs_cons] at hp ⊢
    rcases List.mem_append.1 hp with hp | hp
    · exact List.mem_append_left _ (hptrs p hp)
    · exact List.mem_append_right _ (hG p hp)

/-! ### The four blocks -/

section
variable {I₁ I₂ : List (Item Int Ptr)} {c d : Item Int Ptr}

omit h in
theorem sublist_remove : (I₁ ++ c :: I₂).Sublist (I₁ ++ c :: d :: I₂) :=
  (List.Sublist.cons_cons c (List.sublist_cons_self d I₂)).append_left I₁

theorem x_ne_parent : x.ptr ≠ g₁.ptr :=
  h.ptr_ne_up (by simp) (by simp)

theorem y_ne_parent : y.ptr ≠ g₁.ptr :=
  h.ptr_ne_up (by simp) (by simp)

theorem remove_borrowLeft (ho : 3 ≤ t.order) (hy : y.items = I₁ ++ c :: d :: I₂)
    (hs : (t.order + 1) / 2 < x.items.length) :
    RemovePost t E i (flat (A ++ [x]) ++ (I₁ ++ c :: I₂ ++ flat B))
      ((A ++ x :: y :: B) :: (A₁ ++ g₁ :: B₁) :: rest)
      (.ok { t with heap := borrowLeft t.heap g₁.ptr x.ptr y.ptr I₁.length Jl.length }) := by
  obtain ⟨S, e, hx⟩ := List.eq_nil_or_concat' x.items |>.resolve_left
    (List.ne_nil_of_length_pos (by omega))
  have hylen : y.items.length = (I₁ ++ c :: I₂).length + 1 := by
    rw [hy]
    simp only [List.length_append, List.length_cons]
    omega
  have hS : S.length + 1 = x.items.length := by rw [hx]; simp
  have hSne : S ≠ [] := List.ne_nil_of_length_pos (by omega)
  have hb := borrowLeft_spec (i := Jl.length) h.node_y.body (hx ▸ h.node_x.body) hSne
    (show I₁.length + 1 < y.items.length by rw [hy]; simp) h.key
    h.x_ne_y.symm h.y_ne_parent h.x_ne_parent (by simpa [hx] using h.items_nodup) h.node_y.parent
    (fun a ha => h.node_x.parent a (by simp [hx, ha]))
  rw [hy, eraseIdx_mid] at hb
  have hmx := h.node_x.max
  have hmy := h.node_y.max
  have h2y := h.node_y.two
  have hminy := h.min_y
  have := h.borrow hb ?_ ?_ (by omega) (by simp only [List.length_cons]; omega) (by omega)
    (by simp only [List.length_cons]; omega)
  · simpa [hx] using this
  · rw [hx, hy]
    simp
  · obtain ⟨a, S', rfl⟩ := List.exists_cons_of_ne_nil hSne
    rw [Group.lo, Group.lo, hx]
    rfl

theorem remove_borrowRight (ho : 3 ≤ t.order) (hx : x.items = I₁ ++ c :: d :: I₂)
    (hs : (t.order + 1) / 2 < y.items.length) :
    RemovePost t E i (flat A ++ (I₁ ++ c :: I₂ ++ flat (y :: B)))
      ((A ++ x :: y :: B) :: (A₁ ++ g₁ :: B₁) :: rest)
      (.ok { t with heap := borrowRight t.heap g₁.ptr y.ptr x.ptr I₁.length Jl.length }) := by
  obtain ⟨e, S, hy⟩ := List.exists_cons_of_ne_nil
    (List.ne_nil_of_length_pos (by omega : 0 < y.items.length))
  have hxlen : x.items.length = (I₁ ++ c :: I₂).length + 1 := by
    rw [hx]
    simp only [List.length_append, List.length_cons]
    omega
  have hS : S.length + 1 = y.items.length := by rw [hy]; simp
  have hb := borrowRight_spec (i := Jl.length) h.node_x.body (hy ▸ h.node_y.body)
    (show I₁.length + 1 < x.items.length by rw [hx]; simp)
    (h.key e (by simp [hy])) h.x_ne_y h.x_ne_parent h.y_ne_parent
    (by simpa [hy] using h.items_nodup)
    h.node_x.parent (fun a ha => h.node_y.parent a (by simp [hy, ha]))
  rw [hx, eraseIdx_mid] at hb
  have hmx := h.node_x.max
  have hmy := h.node_y.max
  have h2x := h.node_x.two
  have hminx := h.min_x
  have := h.borrow hb ?_ ?_
    (by simp only [List.length_append, List.length_cons, List.length_nil] at *; omega) (by omega)
    (by simp only [List.length_append, List.length_cons, List.length_nil] at *; omega) (by omega)
  · simpa [hy] using this
  · rw [hx, hy]
    simp
  · rw [Group.lo, Group.lo, hx]
    cases I₁ <;> rfl

theorem remove_mergeLeft (hy : y.items = I₁ ++ c :: d :: I₂)
    (hlx : x.items.length ≤ (t.order + 1) / 2) (hly : y.items.length ≤ (t.order + 1) / 2)
    {r : Except Fault Tree}
    (hr : Above { t with heap := mergeLeft t.heap g₁.ptr x.ptr y.ptr I₁.length Jl.length } E (i + 1)
        (flat (A₁ ++ g₁ :: B₁)) ((A₁ ++ g₁ :: B₁) :: rest) →
      RemovePost { t with heap := mergeLeft t.heap g₁.ptr x.ptr y.ptr I₁.length Jl.length } E
        (i + 1)
        (flat A₁ ++ (Jl ++ x.item :: Jr ++ flat B₁)) ((A₁ ++ g₁ :: B₁) :: rest) r) :
    RemovePost t E i (flat (A ++ [x]) ++ (I₁ ++ c :: I₂ ++ flat B))
      ((A ++ x :: y :: B) :: (A₁ ++ g₁ :: B₁) :: rest) r := by
  have h2x := h.node_x.two
  have h2y := h.node_y.two
  have hxne : x.items ≠ [] := List.ne_nil_of_length_pos (by omega)
  have hylen : y.items.length = (I₁ ++ c :: I₂).length + 1 := by
    rw [hy]
    simp only [List.length_append, List.length_cons]
    omega
  have hm := mergeLeft_spec (i := Jl.length) h.node_y.body h.node_x.body hxne
    (show I₁.length + 1 < y.items.length by rw [hy]; simp) h.key
    h.node_x.parent
  rw [hy, eraseIdx_mid] at hm
  have hsub : (x.items ++ (I₁ ++ c :: I₂)).Sublist (x.items ++ y.items) := by
    rw [hy]
    exact sublist_remove.append_left _
  have hminx := h.min_x
  have := h.merge hm hsub ?_ (by rw [List.length_append]; omega) (by rw [List.length_append]; omega)
    (hr (h.above_merged hm hsub))
  · simpa using this
  · obtain ⟨a, X', hX'⟩ := List.exists_cons_of_ne_nil hxne
    rw [Group.lo, Group.lo, hX']
    rfl

theorem remove_mergeRight (hx : x.items = I₁ ++ c :: d :: I₂)
    (hlx : x.items.length ≤ (t.order + 1) / 2) (hly : y.items.length ≤ (t.order + 1) / 2)
    {r : Except Fault Tree}
    (hr : Above { t with heap := mergeRight t.heap g₁.ptr y.ptr x.ptr I₁.length Jl.length } E
      (i + 1)
        (flat (A₁ ++ g₁ :: B₁)) ((A₁ ++ g₁ :: B₁) :: rest) →
      RemovePost { t with heap := mergeRight t.heap g₁.ptr y.ptr x.ptr I₁.length Jl.length } E
        (i + 1)
        (flat A₁ ++ (Jl ++ x.item :: Jr ++ flat B₁)) ((A₁ ++ g₁ :: B₁) :: rest) r) :
    RemovePost t E i (flat A ++ (I₁ ++ c :: I₂ ++ flat (y :: B)))
      ((A ++ x :: y :: B) :: (A₁ ++ g₁ :: B₁) :: rest) r := by
  have h2x := h.node_x.two
  have h2y := h.node_y.two
  have hxlen : x.items.length = (I₁ ++ c :: I₂).length + 1 := by
    rw [hx]
    simp only [List.length_append, List.length_cons]
    omega
  have hm := mergeRight_spec (i := Jl.length) h.node_x.body h.node_y.body
    (List.ne_nil_of_length_pos (by omega)) (show I₁.length + 1 < x.items.length by rw [hx]; simp)
    h.key h.node_x.parent
  rw [hx, eraseIdx_mid] at hm
  have hsub : (I₁ ++ c :: I₂ ++ y.items).Sublist (x.items ++ y.items) := by
    rw [hx]
    exact sublist_remove.append_right _
  have hminy := h.min_y
  have := h.merge hm hsub ?_ (by rw [List.length_append]; omega) (by rw [List.length_append]; omega)
    (hr (h.above_merged hm hsub))
  · simpa using this
  · rw [Group.lo, Group.lo, hx]
    cases I₁ <;> rfl

end

end Siblings

end

/-! ## `non_leaf_remove` -/

theorem NonLeaf.subAt_eq {n : NonLeaf} {I : List (Item Int Ptr)} (hb : Body n I) {j : Nat}
    {c : Item Int Ptr} (hc : I[j]? = some c) : n.subAt j = .ok c.2 := by
  obtain ⟨hj, -⟩ := List.getElem?_eq_some_iff.1 hc
  rw [NonLeaf.subAt, if_pos (by rw [hb.children]; exact hj), hb.sub_at hc]

/-- The sibling chosen is a neighbour that exists. -/
theorem chooseSibling_spec {p : NonLeaf} {J₁ J₂ : List (Item Int Ptr)} {c : Item Int Ptr}
    (hb : Body p (J₁ ++ c :: J₂)) (h2 : 2 ≤ (J₁ ++ c :: J₂).length) (size : Ptr → Nat) :
    (∃ J l, J₁ = J ++ [l] ∧ chooseSibling size p J₁.length = .ok (l.2, .fromLeft)) ∨
      ∃ r J, J₂ = r :: J ∧ chooseSibling size p J₁.length = .ok (r.2, .fromRight) := by
  have hch := hb.children
  simp only [List.length_append, List.length_cons] at hch h2
  rcases List.eq_nil_or_concat' J₁ with rfl | ⟨J, l, rfl⟩
  · cases J₂ with
    | nil => simp at h2
    | cons r J =>
      refine .inr ⟨r, J, rfl, ?_⟩
      rw [chooseSibling, if_pos List.length_nil, NonLeaf.subAt_eq hb (c := r) (by simp)]
      rfl
  · have hl : p.subAt ((J ++ [l]).length - 1) = .ok l.2 := by
      refine NonLeaf.subAt_eq hb ?_
      simp
    cases J₂ with
    | nil =>
      refine .inl ⟨J, l, rfl, ?_⟩
      simp only [List.length_nil] at hch
      rw [chooseSibling, if_neg (by simp), if_pos (by rw [hch]; simp), hl]
      rfl
    | cons r J' =>
      have hr : p.subAt ((J ++ [l]).length + 1) = .ok r.2 := by
        refine NonLeaf.subAt_eq hb ?_
        rw [List.getElem?_append_right (Nat.le_succ _)]
        simp
      have hrun : chooseSibling size p (J ++ [l]).length =
          .ok (if size l.2 ≥ size r.2 then (l.2, .fromLeft) else (r.2, .fromRight)) := by
        simp only [List.length_cons] at hch
        rw [chooseSibling, if_neg (by simp), if_neg (by rw [hch]; simp), hl, hr]
        rfl
      rw [hrun]
      by_cases hsz : size l.2 ≥ size r.2
      · exact .inl ⟨J, l, rfl, by rw [if_pos hsz]⟩
      · exact .inr ⟨r, J', rfl, by rw [if_neg hsz]⟩

section
variable {t : Tree} {E : Nat → Ptr → Prop} {i : Nat} {A B A₁ B₁ : List (Group Int Ptr)}
  {g g₁ : Group Int Ptr} {rest : List (List (Group Int Ptr))} {J₁ J₂ : List (Item Int Ptr)}

/-- The search for the node's first key in the parent finds the node's own place. -/
theorem search_in_parent
    (h : Above t E i (flat (A ++ g :: B)) ((A ++ g :: B) :: (A₁ ++ g₁ :: B₁) :: rest))
    (hg₁ : g₁.items = J₁ ++ g.item :: J₂) (hA : heads A = flat A₁ ++ J₁)
    (hB : heads B = J₂ ++ flat B₁) :
    ∃ k, (t.heap.nonLeaf g.ptr).keyAt 0 = .ok k ∧
      keyBinarySearch (t.heap.nonLeaf g₁.ptr).key ((t.heap.nonLeaf g₁.ptr).children - 1) k =
        -J₁.length - 1 := by
  have hn := h.levelOk.node g (by simp)
  have h2 := hn.two
  obtain ⟨e₀, e, I, hI⟩ : ∃ e₀ e I, g.items = e₀ :: e :: I := by
    match hI : g.items, h2 with
    | e₀ :: e :: I, _ => exact ⟨e₀, e, I, rfl⟩
  have hk : ((t.heap.nonLeaf g.ptr).key 0 : WithBot Int) = e.1 := hn.body.key_at (by simp [hI])
  refine ⟨(t.heap.nonLeaf g.ptr).key 0, ?_, ?_⟩
  · rw [NonLeaf.keyAt, if_pos (by rw [hn.body.children]; omega)]
  have hs := h.sorted
  have hsh := h.upper.sorted
  rw [flat_append, flat_cons] at hs
  obtain ⟨-, hs2, -⟩ := List.pairwise_append.1 hs
  obtain ⟨hs3, -, hs4⟩ := List.pairwise_append.1 hs2
  rw [heads_append, heads_cons] at hsh
  have hlo : g.lo < e.1 := by
    rw [lo_of_items hI]
    rw [hI] at hs3
    exact (List.pairwise_cons.1 hs3).1 e (by simp)
  have hbefore : ∀ a ∈ J₁, a.1 < e.1 := fun a ha =>
    ((List.pairwise_append.1 hsh).2.2 a (by simp [hA, ha]) g.item (by simp)).trans hlo
  have hafter : ∀ b ∈ J₂, e.1 < b.1 := by
    intro b hb
    have hbB : b ∈ heads B := by simp [hB, hb]
    obtain ⟨z, hz, rfl⟩ := List.mem_map.1 hbB
    obtain ⟨c, hc, -, hcz⟩ := lo_mem_flat (fun z' hz' => h.tower.2.1 z' (by simp [hz'])) hz
    rw [Group.item_fst, ← hcz]
    exact hs4 e (by simp [hI]) c hc
  have hbody := (h.upper.levelOk.node g₁ (by simp)).body
  rw [hg₁] at hbody
  refine hbody.search_absent ⟨fun a ha => ?_, ?_, fun b hb => ?_⟩ fun d hd => ?_
  · rw [hk]; exact (hbefore a ha).le
  · rw [hk]; exact hlo.le
  · rw [hk]; exact hafter b hb
  · rw [hk]
    simp only [List.mem_append, List.mem_cons] at hd
    rcases hd with hd | rfl | hd
    · exact (hbefore d hd).ne
    · exact hlo.ne
    · exact (hafter d hd).ne'

end

/-- **`non_leaf_remove`** (module doc). -/
theorem nonLeafRemove_spec {E : Nat → Ptr → Prop} :
    ∀ {rest : List (List (Group Int Ptr))} {t : Tree}
    {i fuel : Nat} {A B : List (Group Int Ptr)} {g : Group Int Ptr} {I₁ I₂ : List (Item Int Ptr)}
    {c d : Item Int Ptr},
    Above t E i (flat (A ++ g :: B)) ((A ++ g :: B) :: rest) → g.items = I₁ ++ c :: d :: I₂ →
    rest.length < fuel → 3 ≤ t.order →
    RemovePost t E i (flat A ++ (I₁ ++ c :: I₂ ++ flat B)) ((A ++ g :: B) :: rest)
      (nonLeafRemove fuel t g.ptr I₁.length i) := by
  intro rest
  induction rest with
  | nil =>
    intro t i fuel A B g I₁ I₂ c d h hg hfuel ho
    obtain ⟨n, rfl⟩ := Nat.exists_eq_succ_of_ne_zero (by omega : fuel ≠ 0)
    have hn := h.levelOk.node g (by simp)
    have h2 := hn.two
    have hroot : t.heap.parent g.ptr = 0 := by
      rw [h.alone.2.2]
      exact h.rootParent
    simp only [nonLeafRemove, hroot, hn.body.children]
    by_cases hlen : g.items.length = 2
    · rw [if_pos (by omega), if_neg (by simp), if_pos hlen]
      obtain ⟨rfl, rfl⟩ : I₁ = [] ∧ I₂ = [] := by
        rw [hg] at hlen
        simp only [List.length_append, List.length_cons] at hlen
        exact ⟨List.eq_nil_of_length_eq_zero (by omega), List.eq_nil_of_length_eq_zero (by omega)⟩
      obtain ⟨rfl, rfl, -⟩ := h.alone
      rw [if_pos List.length_nil]
      simpa using collapse_spec h hg
    · have hdel := simpleDeletion_spec h hg (by omega) (by simp)
      by_cases hle : g.items.length ≤ (t.order + 1) / 2
      · rw [if_pos hle, if_neg (by simp), if_neg hlen]
        exact hdel
      · rw [if_neg hle]
        exact hdel
  | cons Gs₁ rest ih =>
    intro t i fuel A B g I₁ I₂ c d h hg hfuel ho
    obtain ⟨n, rfl⟩ := Nat.exists_eq_succ_of_ne_zero (by omega : fuel ≠ 0)
    have hn := h.levelOk.node g (by simp)
    have h2 := hn.two
    have hfuel' : rest.length < n := by simpa using hfuel
    have hup := h.upper
    rw [heads_append, heads_cons] at hup
    obtain ⟨A₁, g₁, B₁, J₁, J₂, rfl, hg₁, hA, hB, hpar⟩ := hup.group
    have hne : t.heap.parent g.ptr ≠ 0 := by
      rw [show t.heap.parent g.ptr = g₁.ptr from hpar]
      exact (hup.bound _ (by simp)).1.ne'
    by_cases hle : g.items.length ≤ (t.order + 1) / 2
    · obtain ⟨k, hk, hsearch⟩ := search_in_parent h hg₁ hA hB
      have hn₁ := h.upper.levelOk.node g₁ (by simp)
      have hb₁ := hn₁.body
      rw [hg₁] at hb₁
      have hi : (-(-(J₁.length : Int) - 1) - 1).toNat = J₁.length := by omega
      have hpar' : t.heap.parent g.ptr = g₁.ptr := hpar
      simp only [nonLeafRemove, hn.body.children]
      rw [if_pos hle, if_pos hne]
      simp only [hpar', hk, bind, Except.bind, hsearch, hi]
      rw [if_neg (by omega)]
      rcases chooseSibling_spec hb₁ (hg₁ ▸ hn₁.two) (fun s => (t.heap.nonLeaf s).children) with
        ⟨J, l, rfl, hch⟩ | ⟨r, J, rfl, hch⟩
      · -- the left neighbour `x`
        obtain ⟨A', x, rfl, hA', hx⟩ : ∃ A' x, A = A' ++ [x] ∧ heads A' = flat A₁ ++ J ∧
          x.item = l := by
          obtain ⟨A', x, B', rfl, h1, h2, h3⟩ := heads_eq_mid (X := flat A₁ ++ J) (c := l) (Y := [])
            (by rw [hA]; simp)
          obtain rfl : B' = [] := by simpa [heads] using h3
          exact ⟨A', x, rfl, h1, h2⟩
        subst hx
        have hsib : Siblings t E i A' x g B A₁ g₁ B₁ rest J J₂ :=
          ⟨by simpa using h, by simpa using hg₁, hA', hB⟩
        rw [hch]
        simp only [List.length_append, List.length_singleton, Nat.add_sub_cancel, Group.item_snd,
          hsib.node_x.body.children]
        by_cases hs : x.items.length > (t.order + 1) / 2
        · rw [if_pos hs]
          simpa [pure, Except.pure] using hsib.remove_borrowLeft ho hg hs
        · rw [if_neg hs]
          have := hsib.remove_mergeLeft hg (by omega) hle fun hab =>
            ih hab hsib.items hfuel' ho
          simpa using this
      · -- the right neighbour `y`
        obtain ⟨y, B', rfl, hy, hB'⟩ : ∃ y B', B = y :: B' ∧ y.item = r ∧
          heads B' = J ++ flat B₁ := by
          obtain ⟨A', y, B', rfl, h1, h2, h3⟩ := heads_eq_mid (X := []) (c := r) (Y := J ++ flat B₁)
            (by rw [hB]; simp)
          obtain rfl : A' = [] := by simpa [heads] using h1
          exact ⟨y, B', rfl, h2, h3⟩
        subst hy
        have hsib : Siblings t E i A g y B' A₁ g₁ B₁ rest J₁ J := ⟨h, hg₁, hA, hB'⟩
        simp only [hch, Group.item_snd, hsib.node_y.body.children]
        by_cases hs : y.items.length > (t.order + 1) / 2
        · rw [if_pos hs]
          exact hsib.remove_borrowRight ho hg hs
        · rw [if_neg hs]
          exact hsib.remove_mergeRight hg hle (by omega) fun hab => ih hab hsib.items hfuel' ho
    · simp only [nonLeafRemove, hn.body.children]
      rw [if_neg hle]
      refine simpleDeletion_spec h hg (by omega) fun _ => by omega

end BplusTree
