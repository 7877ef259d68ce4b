import DsAlgor.BplusTree.Split

/-!
# Insertion into the inner levels

`nonLeafInsert_spec`: `non_leaf_insert` called for a new node `sub` behind the child `c` never fails
its assertion and puts the item `(key, sub)` behind `c`, or, when every node from `c` up to the root
is full and the root may not get a parent (`FullUp`), takes the `Level exceeded` branch. In that
branch the tree keeps a proper prefix of the items: the division of the root is not undone, and the
half that was moved to the freed sibling is lost.
-/

namespace BplusTree

open CArray Levels

/-- All nodes from the parent of `c` up to the root are full and the root is at the last level. -/
def FullUp (order : Nat) (level : Int) : Nat → Ptr → List (List (Group Int Ptr)) → Prop
  | i, _, [] => level ≤ i
  | i, c, Gs :: rest =>
    ∃ g ∈ Gs, c ∈ g.items.map Prod.snd ∧ g.items.length = order ∧
      FullUp order level (i + 1) g.ptr rest

/-- The outcome of an insertion into the levels `Gss` that turns the level below into `items`. -/
structure Inserted (t : Tree) (E : Nat → Ptr → Prop) (i : Nat) (items : List (Item Int Ptr))
    (Gss : List (List (Group Int Ptr))) (t' : Tree) : Prop where
  stderr : t'.stderr = t.stderr
  above : ∃ Gss', Above t' E i items Gss' ∧ ∀ p ∈ allPtrs Gss', p ∈ allPtrs Gss ∨ t.heap.brk ≤ p

/-- The outcome in the `Level exceeded` branch. -/
structure Exceeded (t : Tree) (i : Nat) (items : List (Item Int Ptr))
    (Gss : List (List (Group Int Ptr))) (t' : Tree) : Prop where
  stderr : t'.stderr = levelExceeded :: t.stderr
  above : ∃ m Gss', 1 ≤ m ∧ m + t.order / 2 ≤ items.length ∧
    Above t' (fun _ _ => True) i (items.take m) Gss' ∧
    ∀ p ∈ allPtrs Gss', p ∈ allPtrs Gss ∨ t.heap.brk ≤ p

/-- What `non_leaf_insert` does (module doc). -/
def InsertPost (t : Tree) (E : Nat → Ptr → Prop) (i : Nat) (c : Ptr) (items : List (Item Int Ptr))
    (Gss : List (List (Group Int Ptr))) (r : Except Fault (Int × Tree)) : Prop :=
  ∃ ret t', r = .ok (ret, t') ∧
    Frame t t' (allPtrs Gss) (items.map Prod.snd ++ allPtrs Gss) ∧ (∀ j < i, t'.head j = t.head j) ∧
    (¬ FullUp t.order t.level i c Gss ∧ ret = 0 ∧ Inserted t E i items Gss t' ∨
      FullUp t.order t.level i c Gss ∧ ret = -1 ∧ Exceeded t i items Gss t')

/-! ## Counting -/

theorem heads_take (Gs : List (Group Int Ptr)) (m : Nat) :
    (heads Gs).take m = heads (Gs.take m) := by
  simp [heads, List.map_take]

theorem length_le_flat {Gs : List (Group Int Ptr)} (h : ∀ g ∈ Gs, g.items ≠ []) :
    Gs.length ≤ (flat Gs).length := by
  induction Gs with
  | nil => simp
  | cons g Gs ih =>
    have h1 := List.length_pos_of_ne_nil (h g List.mem_cons_self)
    have h2 := ih fun x hx => h x (List.mem_cons_of_mem _ hx)
    simp only [flat_cons, List.length_cons, List.length_append]
    omega

theorem flat_take_append_drop (Gs : List (Group Int Ptr)) (m : Nat) :
    flat (Gs.take m) ++ flat (Gs.drop m) = flat Gs := by
  rw [← flat_append, List.take_append_drop]

/-- The items of the first groups are the first items. -/
theorem flat_take (Gs : List (Group Int Ptr)) (m : Nat) :
    flat (Gs.take m) = (flat Gs).take (flat (Gs.take m)).length := by
  rw [← flat_take_append_drop Gs m, List.take_left']
  rfl

theorem flat_take_sublist (Gs : List (Group Int Ptr)) (m : Nat) :
    (flat (Gs.take m)).Sublist (flat Gs) := by
  rw [← flat_take_append_drop Gs m]
  exact List.sublist_append_left _ _

/-- Every group has an item, on both sides of number `m`. -/
theorem length_flat_take {Gs : List (Group Int Ptr)} {m : Nat} (h : ∀ g ∈ Gs, g.items ≠ [])
    (hm : m ≤ Gs.length) : m ≤ (flat (Gs.take m)).length ∧
    (flat (Gs.take m)).length + (Gs.length - m) ≤ (flat Gs).length := by
  have hlow : (Gs.take m).length ≤ (flat (Gs.take m)).length :=
    length_le_flat fun g hg => h g (List.mem_of_mem_take hg)
  have hhigh : (Gs.drop m).length ≤ (flat (Gs.drop m)).length :=
    length_le_flat fun g hg => h g (List.mem_of_mem_drop hg)
  have hall := congrArg List.length (flat_take_append_drop Gs m)
  rw [List.length_append] at hall
  rw [List.length_take] at hlow
  rw [List.length_drop] at hhigh
  omega

/-! ## The node that gets a child -/

section
variable {t : Tree} {E : Nat → Ptr → Prop} {i : Nat} {A B : List (Group Int Ptr)}
  {g : Group Int Ptr}
  {rest : List (List (Group Int Ptr))} {I₁ I₂ : List (Item Int Ptr)} {c : Item Int Ptr} {key : Int}
  {sub : Ptr}

/-- `non_leaf_insert` is called for the new node `sub`, which belongs behind the child `c` of
`g`. -/
structure InsertPre (t : Tree) (E : Nat → Ptr → Prop) (i : Nat) (A : List (Group Int Ptr))
    (g : Group Int Ptr) (B : List (Group Int Ptr)) (rest : List (List (Group Int Ptr)))
    (I₁ : List (Item Int Ptr)) (c : Item Int Ptr) (I₂ : List (Item Int Ptr)) (key : Int)
    (sub : Ptr) :
    Prop where
  above : Above t E i (flat (A ++ g :: B)) ((A ++ g :: B) :: rest)
  items : g.items = I₁ ++ c :: I₂
  subNew : sub ∉ (flat (A ++ g :: B)).map Prod.snd ++ allPtrs ((A ++ g :: B) :: rest)
  subBound : 0 < sub ∧ sub < t.heap.brk
  subParent : t.heap.parent sub = g.ptr
  lo : c.1 < (key : WithBot Int)
  hi : ∀ y ∈ I₂ ++ flat B, (key : WithBot Int) < y.1

namespace InsertPre

variable (h : InsertPre t E i A g B rest I₁ c I₂ key sub)
include h

theorem nodeOk : NodeOk t g :=
  h.above.levelOk.node g (by simp)

theorem length_items :
    (I₁ ++ c :: ((key : WithBot Int), sub) :: I₂).length = g.items.length + 1 := by
  rw [h.items]
  simp only [List.length_append, List.length_cons]
  rfl

theorem ptr_bound {x : Group Int Ptr} (hx : x ∈ A ++ g :: B) : 0 < x.ptr ∧ x.ptr < t.heap.brk :=
  h.above.bound _ (List.mem_append_right _ (List.mem_append_left _ (List.mem_map_of_mem hx)))

/-- The separators before the new one. -/
theorem before : ∀ a ∈ flat A ++ I₁, a.1 < (key : WithBot Int) := by
  have hs := h.above.sorted
  rw [flat_append, flat_cons, h.items, List.append_assoc, ← List.append_assoc] at hs
  intro a ha
  exact ((List.pairwise_append.1 hs).2.2 a ha c (by simp)).trans h.lo

theorem located : Located key I₁ c I₂ :=
  ⟨fun a ha => (h.before a (by simp [ha])).le, h.lo.le, fun b hb => h.hi b (by simp [hb])⟩

/-- `key` is not a key of the node. -/
theorem search :
    keyBinarySearch (t.heap.nonLeaf g.ptr).key ((t.heap.nonLeaf g.ptr).children - 1) key =
      -I₁.length - 1 := by
  have hb := h.nodeOk.body
  rw [h.items] at hb
  refine hb.search_absent h.located fun d hd => ?_
  rcases List.mem_append.1 hd with hd | hd
  · exact (h.before d (by simp [hd])).ne
  · rcases List.mem_cons.1 hd with rfl | hd
    · exact h.lo.ne
    · exact (h.hi d (by simp [hd])).ne'

theorem sorted : Sorted (flat A ++ (I₁ ++ c :: ((key : WithBot Int), sub) :: I₂ ++ flat B)) := by
  have hs := h.above.sorted
  rw [flat_append, flat_cons, h.items] at hs
  have hs' : Sorted ((flat A ++ I₁) ++ c :: (I₂ ++ flat B)) := by simpa using hs
  simpa using hs'.insert h.lo h.hi

theorem nodup : ((flat A ++ (I₁ ++ c :: ((key : WithBot Int), sub) :: I₂ ++ flat B)).map Prod.snd ++
      (ptrs (A ++ g :: B) ++ allPtrs rest)).Nodup := by
  have hp : (sub :: ((flat (A ++ g :: B)).map Prod.snd ++ allPtrs ((A ++ g :: B) :: rest))).Nodup :=
    List.nodup_cons.2 ⟨h.subNew, h.above.nodup⟩
  refine hp.perm ?_
  rw [flat_append, flat_cons, h.items, allPtrs_cons]
  simp only [List.map_append, List.map_cons]
  refine List.perm_iff_count.2 fun a => ?_
  simp only [List.count_append, List.count_cons]
  omega

theorem bound :
    ∀ p ∈ (flat A ++ (I₁ ++ c :: ((key : WithBot Int), sub) :: I₂ ++ flat B)).map Prod.snd,
      0 < p ∧ p < t.heap.brk := by
  intro p hp
  have hb := h.above.bound p
  rw [flat_append, flat_cons, h.items] at hb
  simp only [List.map_append, List.map_cons, List.mem_append, List.mem_cons] at hp hb
  rcases hp with hp | ((hp | hp | rfl | hp) | hp)
  · exact hb (by grind)
  · exact hb (by grind)
  · exact hb (by grind)
  · exact h.subBound
  · exact hb (by grind)
  · exact hb (by grind)

/-- The other nodes of the level have another address and other children. -/
theorem others : ∀ x ∈ A ++ B, x.ptr < t.heap.brk ∧ x.ptr ∉ [g.ptr] ∧
      ∀ d ∈ x.items, d.2 < t.heap.brk ∧
        d.2 ∉ (I₁ ++ c :: ((key : WithBot Int), sub) :: I₂).map Prod.snd := by
  intro x hx
  have hx' : x ∈ A ++ g :: B := by
    simp only [List.mem_append, List.mem_cons] at hx ⊢; grind
  have hnd := h.nodup
  obtain ⟨hnd1, hnd2, -⟩ := List.nodup_append.1 hnd
  refine ⟨(h.ptr_bound hx').2, ?_, fun d hd => ⟨?_, ?_⟩⟩
  · have hp := (List.nodup_append.1 hnd2).1
    rw [ptrs_append, ptrs_cons, List.nodup_middle, List.nodup_cons] at hp
    have hxp : x.ptr ∈ ptrs A ++ ptrs B := by rw [← ptrs_append]; exact List.mem_map_of_mem hx
    intro hm
    rw [List.mem_singleton.1 hm] at hxp
    exact hp.1 hxp
  · exact (h.above.bound _ (List.mem_append_left _
      (List.mem_map_of_mem (mem_flat.2 ⟨x, hx', hd⟩)))).2
  · rw [List.map_append, List.map_append] at hnd1
    obtain ⟨-, h2, h3⟩ := List.nodup_append.1 hnd1
    rcases List.mem_append.1 hx with hx | hx
    · exact fun hm => h3 _ (List.mem_map_of_mem (mem_flat.2 ⟨x, hx, hd⟩)) _
        (List.mem_append_left _ hm) rfl
    · exact fun hm => (List.nodup_append.1 h2).2.2 _ hm _
        (List.mem_map_of_mem (mem_flat.2 ⟨x, hx, hd⟩)) rfl

/-- A node's address is not a child of its level. -/
theorem ptr_notMem {p : Ptr} (hp : p ∈ ptrs (A ++ g :: B) ++ allPtrs rest) :
    p ∉ (flat A ++ (I₁ ++ c :: ((key : WithBot Int), sub) :: I₂ ++ flat B)).map Prod.snd :=
  fun hm => (List.nodup_append.1 h.nodup).2.2 p hm p hp rfl

/-- Only the group of `c` counts for `FullUp`. -/
theorem fullUp_iff {level : Int} {j : Nat} : FullUp t.order level j c.2 ((A ++ g :: B) :: rest) ↔
      g.items.length = t.order ∧ FullUp t.order level (j + 1) g.ptr rest := by
  constructor
  · rintro ⟨x, hx, hc, hf⟩
    have hxg : x = g := by
      by_contra hne
      have hx' : x ∈ A ++ B := by
        simp only [List.mem_append, List.mem_cons] at hx ⊢; grind
      obtain ⟨d, hd, hdc⟩ := List.mem_map.1 hc
      refine ((h.others x hx').2.2 d hd).2 ?_
      rw [hdc]
      simp
    subst hxg
    exact hf
  · rintro ⟨h1, h2⟩
    exact ⟨g, by simp, by rw [h.items]; simp, h1, h2⟩

/-- The items of the node after the insertion. -/
theorem insertIdx_eq : g.items.insertIdx (I₁.length + 1) ((key : WithBot Int), sub) =
      I₁ ++ c :: ((key : WithBot Int), sub) :: I₂ := by
  rw [h.items, insertIdx_mid]

theorem rest_notMem : ∀ p ∈ allPtrs rest, p ∉ ptrs (A ++ g :: B) := fun p hp hm =>
  (List.nodup_append.1 (List.nodup_append.1 h.nodup).2.1).2.2 p hm p hp rfl

/-! ### Simple insertion -/

theorem insertNonLeaf_spec (hlen : g.items.length ≠ t.order) :
    let t' := { t with heap := insertNonLeaf t.heap g.ptr sub key I₁.length }
    Frame t t' [g.ptr] [] ∧
      Above t' E i (flat A ++ (I₁ ++ c :: ((key : WithBot Int), sub) :: I₂ ++ flat B))
        ((A ++ ⟨g.ptr, I₁ ++ c :: ((key : WithBot Int), sub) :: I₂⟩ :: B) :: rest) := by
  intro t'
  have hn := h.nodeOk
  have hil : I₁.length < g.items.length := by rw [h.items]; simp
  have hf : Frame t t' [g.ptr] [] := by
    refine ⟨rfl, rfl, rfl, le_rfl, fun _ _ _ => rfl, fun _ _ _ => rfl, fun p _ hp => ?_,
      fun _ _ _ => rfl, fun _ _ _ => rfl⟩
    exact Function.update_of_ne (by simpa using hp) _ _
  refine ⟨hf, h.above.set_node hf rfl (fun _ _ => rfl) rfl ?_ ?_ (fun ht => ?_) (by simp) (by simp)
    h.sorted h.nodup fun d hd => ?_⟩
  · refine ⟨hn.type, ?_, fun d hd => ?_, ?_, ?_⟩
    · show Body (t'.heap.nonLeaf g.ptr) _
      rw [← h.insertIdx_eq]
      simp only [t', insertNonLeaf, Heap.setNonLeaf, Function.update_self]
      exact hn.body.insert hil
    · show t.heap.parent d.2 = g.ptr
      simp only [List.mem_append, List.mem_cons] at hd
      rcases hd with hd | rfl | rfl | hd
      · exact hn.parent d (by simp [h.items, hd])
      · exact hn.parent d (by simp [h.items])
      · exact h.subParent
      · exact hn.parent d (by simp [h.items, hd])
    · simp only [List.length_append, List.length_cons]; omega
    · have := hn.max
      rw [h.items] at this hlen
      simp only [List.length_append, List.length_cons] at this hlen ⊢
      show _ ≤ t.order
      omega
  · rw [Group.lo, Group.lo, h.items]
    cases I₁ <;> rfl
  · have := h.above.levelOk.min ht g (by simp)
    rw [h.items] at this
    simp only [List.length_append, List.length_cons] at this ⊢
    omega
  · exact h.bound d.2 (List.mem_map_of_mem (by simp only [List.mem_append] at hd ⊢; grind))

/-! ### Division of a full node -/

omit h in
theorem withSibling_next (hg : g.ptr < t.heap.brk) (p : Ptr) :
    (withSibling t.heap g.ptr).next p =
      if p = g.ptr then t.heap.brk else if p = t.heap.brk then t.heap.next g.ptr
        else t.heap.next p := by
  simp only [withSibling, nonLeafNew, Heap.setNext, Function.update_apply, hg.ne, if_false]
  split_ifs <;> rfl

theorem divided_frame {sk : Int} {h' : Heap} {s : Nat}
    (hd : Divided (withSibling t.heap g.ptr) h' g.ptr t.heap.brk sub
      (I₁ ++ c :: ((key : WithBot Int), sub) :: I₂) s sk) (q : Ptr) :
    Frame t { t with heap := h'.setParent t.heap.brk q } [g.ptr]
      ((I₁ ++ c :: ((key : WithBot Int), sub) :: I₂).map Prod.snd) := by
  have hg := (h.ptr_bound (x := g) (by simp)).2
  refine ⟨rfl, rfl, rfl, ?_, fun p hp hn => ?_, fun p hp hn => ?_, fun p hp hn => ?_,
    fun p hp hn => ?_, fun p hp hn => ?_⟩
  · show t.heap.brk ≤ h'.brk
    rw [hd.brk]
    exact Nat.le_succ _
  · show h'.type p = _
    rw [hd.type]
    exact Function.update_of_ne hp.ne _ _
  · show h'.next p = _
    rw [hd.next, withSibling_next hg, if_neg (by simpa using hn), if_neg hp.ne]
  · show h'.nonLeaf p = _
    rw [hd.nonLeaf p (by simpa using hn) hp.ne]
    exact Function.update_of_ne hp.ne _ _
  · show h'.leaf p = _
    rw [hd.leaf]
    rfl
  · show Function.update h'.parent t.heap.brk q p = _
    rw [Function.update_of_ne hp.ne, hd.parent, if_neg, if_neg]
    · exact Function.update_of_ne hp.ne _ _
    · rintro rfl
      exact hn (by simp)
    · intro hm
      rw [List.map_drop] at hm
      exact hn (List.mem_of_mem_drop hm)

/-- The two nodes after the division. -/
theorem divided_nodeOk (ho : 3 ≤ t.order) (hlen : g.items.length = t.order) {sk : Int}
    {h' : Heap} (hd : Divided (withSibling t.heap g.ptr) h' g.ptr t.heap.brk sub
      (I₁ ++ c :: ((key : WithBot Int), sub) :: I₂) ((t.order + 1) / 2) sk) (q : Ptr) :
    NodeOk { t with heap := h'.setParent t.heap.brk q }
        ⟨g.ptr, (I₁ ++ c :: ((key : WithBot Int), sub) :: I₂).take ((t.order + 1) / 2 + 1)⟩ ∧
      (4 ≤ t.order → NodeOk { t with heap := h'.setParent t.heap.brk q }
        ⟨t.heap.brk, (I₁ ++ c :: ((key : WithBot Int), sub) :: I₂).drop
          ((t.order + 1) / 2 + 1)⟩) := by
  have hg := (h.ptr_bound (x := g) (by simp)).2
  have hJ : (I₁ ++ c :: ((key : WithBot Int), sub) :: I₂).length = t.order + 1 := by
    rw [h.length_items, hlen]
  have hJb : ∀ d ∈ I₁ ++ c :: ((key : WithBot Int), sub) :: I₂, d.2 ≠ t.heap.brk := fun d hd =>
    (h.bound d.2 (List.mem_map_of_mem (by simp only [List.mem_append] at hd ⊢; grind))).2.ne
  have hJn : ((I₁ ++ c :: ((key : WithBot Int), sub) :: I₂).map Prod.snd).Nodup := by
    have := (List.nodup_append.1 h.nodup).1
    rw [List.map_append, List.map_append] at this
    exact (List.nodup_append.1 (List.nodup_append.1 this).2.1).1
  refine ⟨⟨?_, ?_, fun d hm => ?_, ?_, ?_⟩, fun h4 => ⟨?_, ?_, fun d hm => ?_, ?_, ?_⟩⟩
  · show h'.type g.ptr = _
    rw [hd.type]
    exact (Function.update_of_ne hg.ne _ _).trans h.nodeOk.type
  · exact hd.left
  · -- a child that stays is not moved, so it is the new one or keeps its parent
    have hm' := List.mem_of_mem_take hm
    show Function.update h'.parent t.heap.brk q d.2 = g.ptr
    rw [Function.update_of_ne (hJb d hm'), hd.parent, if_neg]
    · split_ifs with hs
      · rfl
      · show Function.update t.heap.parent t.heap.brk 0 d.2 = g.ptr
        rw [Function.update_of_ne (hJb d hm')]
        simp only [List.mem_append, List.mem_cons] at hm'
        rcases hm' with hm' | rfl | rfl | hm'
        · exact h.nodeOk.parent d (by simp [h.items, hm'])
        · exact h.nodeOk.parent d (by simp [h.items])
        · exact absurd rfl hs
        · exact h.nodeOk.parent d (by simp [h.items, hm'])
    · intro hm2
      rw [← List.take_append_drop ((t.order + 1) / 2 + 1)
        (I₁ ++ c :: ((key : WithBot Int), sub) :: I₂), List.map_append] at hJn
      exact (List.nodup_append.1 hJn).2.2 _ (List.mem_map_of_mem hm) _ hm2 rfl
  · simp only [List.length_take, hJ]; omega
  · show ((I₁ ++ c :: ((key : WithBot Int), sub) :: I₂).take _).length ≤ t.order
    rw [List.length_take, hJ]; omega
  · show h'.type t.heap.brk = _
    rw [hd.type]
    exact Function.update_self _ _ _
  · exact hd.right
  · show Function.update h'.parent t.heap.brk q d.2 = t.heap.brk
    rw [Function.update_of_ne (hJb d (List.mem_of_mem_drop hm)), hd.parent,
      if_pos (List.mem_map_of_mem hm)]
  · simp only [List.length_drop, hJ]; omega
  · show ((I₁ ++ c :: ((key : WithBot Int), sub) :: I₂).drop _).length ≤ t.order
    rw [List.length_drop, hJ]; omega

/-- The level after the division, in the tree that has the sibling linked and given a parent. -/
theorem divided_levelOk (ho : 4 ≤ t.order) (hlen : g.items.length = t.order) {sk : Int}
    {h' : Heap} (hd : Divided (withSibling t.heap g.ptr) h' g.ptr t.heap.brk sub
      (I₁ ++ c :: ((key : WithBot Int), sub) :: I₂) ((t.order + 1) / 2) sk) (q : Ptr)
    (top : Bool) (ht : top = false → rest.isEmpty = false ∨ A ++ B = []) :
    LevelOk { t with heap := h'.setParent t.heap.brk q } E i top
      (A ++ ⟨g.ptr, (I₁ ++ c :: ((key : WithBot Int), sub) :: I₂).take ((t.order + 1) / 2 + 1)⟩ ::
        ⟨t.heap.brk, (I₁ ++ c :: ((key : WithBot Int), sub) :: I₂).drop ((t.order + 1) / 2 + 1)⟩ ::
        B) := by
  have hg := (h.ptr_bound (x := g) (by simp)).2
  have hJ : (I₁ ++ c :: ((key : WithBot Int), sub) :: I₂).length = t.order + 1 := by
    rw [h.length_items, hlen]
  obtain ⟨hn1, hn2⟩ := h.divided_nodeOk (by omega) hlen hd q
  refine LevelOk.replace (M := [g]) (N := [_, _]) h.above.levelOk (h.divided_frame hd q)
    h.others ?_ ?_ ?_
  · intro x hx
    simp only [List.mem_cons, List.not_mem_nil, or_false] at hx
    rcases hx with rfl | rfl
    · exact hn1
    · exact hn2 ho
  · intro htop
    refine ⟨ht htop, fun x hx => ?_⟩
    simp only [List.mem_cons, List.not_mem_nil, or_false] at hx
    rcases hx with rfl | rfl
    · simp only [List.length_take, hJ]; omega
    · simp only [List.length_drop, hJ]; omega
  · intro e he
    have hnd := (List.nodup_append.1 (List.nodup_append.1 h.nodup).2.1).1
    simp only [List.cons_append, List.nil_append, ptrs_append, ptrs_cons] at he hnd ⊢
    show Chain h'.next (t.head i) _ e
    rw [hd.next]
    refine he.insert_after hnd ?_ ?_ fun p hp hne => ?_
    · rw [withSibling_next hg, if_neg hg.ne', if_pos rfl]
    · rw [withSibling_next hg, if_pos rfl]
    · have hp' : p < t.heap.brk := by
        refine (h.above.bound p (List.mem_append_right _ (List.mem_append_left _ ?_))).2
        simpa using hp
      rw [withSibling_next hg, if_neg hne, if_neg hp'.ne]

end InsertPre

end

/-! ## A new root -/

theorem newRoot_frame (t : Tree) (l r : Ptr) (key : Int) (i : Nat) :
    Frame t (newRoot t l r key i) [] [l, r] := by
  refine ⟨rfl, rfl, rfl, Nat.le_succ _, fun p hp _ => ?_, fun p hp _ => ?_, fun p hp _ => ?_,
    fun p hp _ => ?_, fun p hp hn => ?_⟩
  · simp [newRoot, nonLeafNew, Heap.setParent, Heap.setNonLeaf, Function.update_of_ne hp.ne]
  · simp [newRoot, nonLeafNew, Heap.setParent, Heap.setNonLeaf, Function.update_of_ne hp.ne]
  · simp [newRoot, nonLeafNew, Heap.setParent, Heap.setNonLeaf, Function.update_of_ne hp.ne]
  · rfl
  · simp only [List.mem_cons, List.not_mem_nil, or_false, not_or] at hn
    simp [newRoot, nonLeafNew, Heap.setParent, Heap.setNonLeaf, Function.update_of_ne hp.ne,
      Function.update_of_ne hn.1, Function.update_of_ne hn.2]

/-- The block `new parent`: a level with the root alone on the two nodes `l` and `r`. -/
theorem newRoot_above {t : Tree} {E : Nat → Ptr → Prop} (hE : ∀ i, E i 0) {i : Nat}
    {lo : WithBot Int} {l r : Ptr} {key : Int} (ho : 2 ≤ t.order) (hlr : l ≠ r)
    (hl : 0 < l ∧ l < t.heap.brk)
    (hr : 0 < r ∧ r < t.heap.brk) (hlo : lo < (key : WithBot Int))
    (hi : (i + 1 : Int) ≤ max 2 t.level) (hh : ∀ j ≥ i, t.head j = 0) :
    Above (newRoot t l r key i) E i [(lo, l), ((key : WithBot Int), r)]
      [[⟨t.heap.brk, [(lo, l), ((key : WithBot Int), r)]⟩]] := by
  have hpar : ∀ q, (newRoot t l r key i).heap.parent q =
      if q = r then t.heap.brk else if q = l then t.heap.brk else if q = t.heap.brk then 0
        else t.heap.parent q := by
    intro q
    simp [newRoot, nonLeafNew, Heap.setParent, Heap.setNonLeaf, Function.update_apply]
  have hhead : ∀ j, (newRoot t l r key i).head j = if j = i then t.heap.brk else t.head j := by
    intro j
    simp [newRoot, nonLeafNew, Function.update_apply]
  have hbrk : (newRoot t l r key i).heap.brk = t.heap.brk + 1 := rfl
  refine ⟨⟨by simp, by simp, ⟨?_, by simp, ?_⟩, ?_⟩, ?_, ?_, ?_, ?_, ?_, ?_⟩
  · simp only [List.mem_singleton, forall_eq]
    refine ⟨?_, ⟨?_, ?_, ?_⟩, ?_, le_rfl, ho⟩
    · simp [newRoot, nonLeafNew, Heap.setParent, Heap.setNonLeaf]
    · simp [newRoot, nonLeafNew, Heap.setParent, Heap.setNonLeaf]
    · refine Rep.cons ?_ (Rep.cons ?_ (Rep.nil _))
      · simp [newRoot, nonLeafNew, Heap.setParent, Heap.setNonLeaf]
      · simp [newRoot, nonLeafNew, Heap.setParent, Heap.setNonLeaf]
    · refine Rep.cons ?_ (Rep.nil _)
      simp [newRoot, nonLeafNew, Heap.setParent, Heap.setNonLeaf]
    · intro c hc
      simp only [List.mem_cons, List.not_mem_nil, or_false] at hc
      rcases hc with rfl | rfl
      · rw [hpar, if_neg hlr, if_pos rfl]
      · rw [hpar, if_pos rfl]
  · refine ⟨0, hE i, ?_, ?_⟩
    · simp [hhead]
    · simp [newRoot, nonLeafNew, Heap.setParent, Heap.setNonLeaf, Chain]
  · exact ⟨lo, by simp [heads, Group.item, newRoot, nonLeafNew]⟩
  · simp [hlr, hl.2.ne, hr.2.ne]
  · simp only [List.map_cons, List.map_nil, allPtrs_cons, ptrs_cons, ptrs_nil, allPtrs_nil,
      List.append_nil, List.cons_append, List.nil_append, List.mem_cons, List.not_mem_nil, or_false,
      forall_eq_or_imp, forall_eq, hbrk]
    exact ⟨⟨hl.1, Nat.lt_succ_of_lt hl.2⟩, ⟨hr.1, Nat.lt_succ_of_lt hr.2⟩, hl.1.trans hl.2,
      Nat.lt_succ_self _⟩
  · simpa [Sorted] using hlo
  · show (newRoot t l r key i).heap.parent t.heap.brk = 0
    rw [hpar, if_neg hr.2.ne', if_neg hl.2.ne', if_pos rfl]
  · exact_mod_cast hi
  · intro j hj
    simp only [List.length_singleton] at hj
    rw [hhead, if_neg (by omega)]
    exact hh j (by omega)

/-! ## `non_leaf_insert` -/

section
variable {t : Tree} {E : Nat → Ptr → Prop} {i : Nat} {A B : List (Group Int Ptr)}
  {g : Group Int Ptr}
  {rest : List (List (Group Int Ptr))} {I₁ I₂ : List (Item Int Ptr)} {c : Item Int Ptr} {key : Int}
  {sub : Ptr}

/-- The level after the division. -/
def dividedLevel (t : Tree) (A : List (Group Int Ptr)) (p : Ptr) (J : List (Item Int Ptr))
    (B : List (Group Int Ptr)) : List (Group Int Ptr) :=
  A ++ ⟨p, J.take ((t.order + 1) / 2 + 1)⟩ :: ⟨t.heap.brk, J.drop ((t.order + 1) / 2 + 1)⟩ :: B

theorem flat_dividedLevel (p : Ptr) (J : List (Item Int Ptr)) :
    flat (dividedLevel t A p J B) = flat A ++ (J ++ flat B) := by
  rw [dividedLevel, flat_append, flat_cons, flat_cons, ← List.append_assoc (List.take _ _)]
  simp only [List.take_append_drop]

theorem ptrs_dividedLevel (p : Ptr) (J : List (Item Int Ptr)) :
    ptrs (dividedLevel t A p J B) = ptrs A ++ p :: t.heap.brk :: ptrs B := by
  simp [dividedLevel]

variable {sk : Int} {h' : Heap}

theorem InsertPre.heads_divided (h : InsertPre t E i A g B rest I₁ c I₂ key sub)
    (hd : Divided (withSibling t.heap g.ptr) h' g.ptr t.heap.brk sub
      (I₁ ++ c :: ((key : WithBot Int), sub) :: I₂) ((t.order + 1) / 2) sk) :
    heads (dividedLevel t A g.ptr (I₁ ++ c :: ((key : WithBot Int), sub) :: I₂) B) =
      heads A ++ g.item :: ((sk : WithBot Int), t.heap.brk) :: heads B := by
  obtain ⟨d, hd1, hd2⟩ := hd.splitKey
  simp only [dividedLevel, heads_append, heads_cons]
  congr 2
  · rw [Group.item, Group.item, Group.lo, Group.lo, h.items]
    cases I₁ <;> rfl
  · rw [Group.item, Group.lo, List.head?_drop, hd1, ← hd2]
    rfl

theorem InsertPre.nodup_divided (h : InsertPre t E i A g B rest I₁ c I₂ key sub)
    {rest' : List (List (Group Int Ptr))}
    (hr : ∀ p ∈ allPtrs rest', p ∈ allPtrs rest ∨ t.heap.brk < p)
    (hr' : (ptrs (dividedLevel t A g.ptr (I₁ ++ c :: ((key : WithBot Int), sub) :: I₂) B) ++
      allPtrs rest').Nodup) :
    ((flat (dividedLevel t A g.ptr (I₁ ++ c :: ((key : WithBot Int), sub) :: I₂) B)).map Prod.snd ++
      (ptrs (dividedLevel t A g.ptr (I₁ ++ c :: ((key : WithBot Int), sub) :: I₂) B) ++
        allPtrs rest')).Nodup := by
  refine List.nodup_append.2 ⟨?_, hr', ?_⟩
  · rw [flat_dividedLevel]
    exact (List.nodup_append.1 h.nodup).1
  · rintro p hp q hq rfl
    rw [flat_dividedLevel] at hp
    have hb := (h.bound p hp).2
    rw [ptrs_dividedLevel] at hq
    simp only [List.mem_append, List.mem_cons] at hq
    rcases hq with (hq | rfl | rfl | hq) | hq
    · exact h.ptr_notMem (by simp [hq]) hp
    · exact h.ptr_notMem (by simp) hp
    · exact absurd hb (lt_irrefl _)
    · exact h.ptr_notMem (by simp [hq]) hp
    · rcases hr p hq with hq | hq
      · exact h.ptr_notMem (List.mem_append_right _ hq) hp
      · exact absurd (hb.trans hq) (lt_irrefl _)

theorem setParent_self (h : Heap) (p : Ptr) : h.setParent p (h.parent p) = h := by
  simp [Heap.setParent]

/-- The root may not get a parent: half of its children are lost. -/
theorem InsertPre.exceeded (h : InsertPre t E i A g B [] I₁ c I₂ key sub) (ho : 3 ≤ t.order)
    (hlen : g.items.length = t.order)
    (hd : Divided (withSibling t.heap g.ptr) h' g.ptr t.heap.brk sub
      (I₁ ++ c :: ((key : WithBot Int), sub) :: I₂) ((t.order + 1) / 2) sk) :
    Exceeded t i (flat A ++ (I₁ ++ c :: ((key : WithBot Int), sub) :: I₂ ++ flat B)) [A ++ g :: B]
      { t with
        heap := h'.setNext g.ptr (h'.next t.heap.brk), stderr := levelExceeded :: t.stderr } := by
  obtain ⟨rfl, rfl, hroot⟩ := h.above.alone
  have hn := (h.divided_nodeOk ho hlen hd (h'.parent t.heap.brk)).1
  have hf := h.divided_frame hd (h'.parent t.heap.brk)
  rw [setParent_self] at hn hf
  have hJ : (I₁ ++ c :: ((key : WithBot Int), sub) :: I₂).length = t.order + 1 := by
    rw [h.length_items, hlen]
  have hsub := h.sorted
  have hnd := h.nodup
  have hbd := h.bound
  simp only [flat_nil, List.nil_append, List.append_nil, allPtrs_nil, ptrs_cons, ptrs_nil] at *
  refine ⟨rfl, (t.order + 1) / 2 + 1,
    [[⟨g.ptr, (I₁ ++ c :: ((key : WithBot Int), sub) :: I₂).take ((t.order + 1) / 2 + 1)⟩]],
    by omega,
    by omega, ⟨⟨by simp, ?_, ⟨?_, by simp, ?_⟩, ?_⟩, ?_, ?_, ?_, ?_, ?_, ?_⟩, by simp⟩
  · simp only [List.mem_singleton, forall_eq]
    exact List.ne_nil_of_length_pos (Nat.lt_of_lt_of_le Nat.zero_lt_two hn.two)
  · simp only [List.mem_singleton, forall_eq]
    exact ⟨hn.type, hn.body, hn.parent, hn.two, hn.max⟩
  · obtain ⟨e, -, he, -⟩ := h.above.levelOk.chain
    exact ⟨_, trivial, he, rfl⟩
  · rw [← hroot]
    exact ⟨_, rfl⟩
  · refine List.Nodup.sublist ?_ hnd
    simp only [allPtrs_cons, ptrs_cons, ptrs_nil, allPtrs_nil, List.append_nil]
    exact List.Sublist.append_right ((List.take_sublist _ _).map _) _
  · intro p hp
    have hb : t.heap.brk ≤ h'.brk := hf.brk
    simp only [allPtrs_cons, ptrs_cons, ptrs_nil, allPtrs_nil, List.append_nil, List.mem_append,
      List.mem_singleton] at hp
    rcases hp with hp | rfl
    · have := hbd p (((List.take_sublist _ _).map _).subset hp)
      exact ⟨this.1, this.2.trans_le hb⟩
    · have := h.ptr_bound (x := g) (by simp)
      exact ⟨this.1, this.2.trans_le hb⟩
  · exact hsub.sublist (List.take_sublist _ _)
  · show h'.parent t.root = 0
    have hg := h.ptr_bound (x := g) (by simp)
    rw [← hroot]
    refine (hf.parent g.ptr hg.2 fun hm => ?_).trans (by rw [hroot]; exact h.above.rootParent)
    exact h.ptr_notMem (p := g.ptr) (by simp) (by simpa using hm)
  · exact h.above.height
  · exact h.above.headAbove

/-- The root gets a parent. -/
theorem InsertPre.rooted (h : InsertPre t E i A g B [] I₁ c I₂ key sub) (hE : ∀ i, E i 0)
    (ho : 4 ≤ t.order) (hlen : g.items.length = t.order)
    (hd : Divided (withSibling t.heap g.ptr) h' g.ptr t.heap.brk sub
      (I₁ ++ c :: ((key : WithBot Int), sub) :: I₂) ((t.order + 1) / 2) sk)
    (hlev : (i + 1 : Int) < t.level) :
    Frame t (newRoot { t with heap := h' } g.ptr t.heap.brk sk (i + 1)) [g.ptr]
        ((I₁ ++ c :: ((key : WithBot Int), sub) :: I₂).map Prod.snd ++ [g.ptr]) ∧
      Inserted t E i (flat A ++ (I₁ ++ c :: ((key : WithBot Int), sub) :: I₂ ++ flat B))
        [A ++ g :: B] (newRoot { t with heap := h' } g.ptr t.heap.brk sk (i + 1)) := by
  obtain ⟨rfl, rfl, hroot⟩ := h.above.alone
  have hl := h.divided_levelOk ho hlen hd (h'.parent t.heap.brk) false (by simp)
  have hf := h.divided_frame hd (h'.parent t.heap.brk)
  rw [setParent_self] at hl hf
  change LevelOk _ _ _ _ (dividedLevel t [] g.ptr _ []) at hl
  have hg := h.ptr_bound (x := g) (by simp)
  have hbrk : h'.brk = t.heap.brk + 1 := hd.brk
  have hheads := h.heads_divided hd
  have hslo : Sorted (heads
    (dividedLevel t [] g.ptr (I₁ ++ c :: ((key : WithBot Int), sub) :: I₂) [])) := by
    refine sorted_heads (fun x hx => List.ne_nil_of_length_pos ?_) ?_
    · have := (hl.node x hx).two; omega
    · rw [flat_dividedLevel]; exact h.sorted
  rw [hheads] at hslo
  have hlo : g.lo < (sk : WithBot Int) := by
    simpa [Sorted] using hslo
  have hab := newRoot_above (t := { t with heap := h' }) (i := i + 1) (l := g.ptr)
    (r := t.heap.brk) hE (by show 2 ≤ t.order; omega) hg.2.ne
    ⟨hg.1, by show g.ptr < h'.brk; rw [hbrk]; exact Nat.lt_succ_of_lt hg.2⟩
    ⟨hg.1.trans hg.2, by show t.heap.brk < h'.brk; rw [hbrk]; exact Nat.lt_succ_self _⟩ hlo
    (by show ((i + 1 : Nat) + 1 : Int) ≤ max 2 t.level; push_cast; omega)
    (fun j hj => h.above.headAbove j (by simpa using hj))
  have hfr := newRoot_frame { t with heap := h' } g.ptr t.heap.brk sk (i + 1)
  refine ⟨hf.trans hfr (fun p hp hn => ⟨hn, by simp⟩) (fun p hp hn => ?_), rfl, ?_⟩
  · simp only [List.mem_append, List.mem_singleton, not_or] at hn
    exact ⟨hn.1, by simp [hn.2, hp.ne]⟩
  refine ⟨dividedLevel t [] g.ptr (I₁ ++ c :: ((key : WithBot Int), sub) :: I₂) [] ::
    [[⟨h'.brk, [(g.lo, g.ptr), ((sk : WithBot Int), t.heap.brk)]⟩]], ?_, ?_⟩
  · rw [← flat_dividedLevel (t := t) g.ptr]
    refine Above.push ?_ (hl.frame hfr ?_ ?_ ?_) ?_ ?_ ?_
    · rw [hheads]; exact hab
    · exact Function.update_of_ne (by omega) _ _
    · intro p hp
      refine ⟨?_, by simp⟩
      rw [ptrs_dividedLevel] at hp
      simp only [ptrs_nil, List.nil_append, List.mem_cons, List.not_mem_nil, or_false] at hp
      show p < h'.brk
      rw [hbrk]
      rcases hp with rfl | rfl
      · exact Nat.lt_succ_of_lt hg.2
      · exact Nat.lt_succ_self _
    · intro d hdm
      have hdm' : d.2 ∈ (flat ([] : List (Group Int Ptr)) ++
          (I₁ ++ c :: ((key : WithBot Int), sub) :: I₂ ++ flat [])).map Prod.snd := by
        rw [← flat_dividedLevel (t := t) g.ptr]
        exact List.mem_map_of_mem hdm
      have hb := (h.bound d.2 hdm').2
      refine ⟨hb.trans_le hf.brk, ?_⟩
      simp only [List.mem_cons, List.not_mem_nil, or_false, not_or]
      refine ⟨?_, hb.ne⟩
      intro he
      exact h.ptr_notMem (p := g.ptr) (by simp) (he ▸ hdm')
    · rw [flat_dividedLevel]; exact h.sorted
    · have := hab.nodup
      refine h.nodup_divided (fun p hp => .inr ?_) ?_
      · simp only [allPtrs_cons, ptrs_cons, ptrs_nil, allPtrs_nil, List.append_nil,
          List.mem_singleton] at hp
        rw [hp, hbrk]
        exact Nat.lt_succ_self _
      · rw [ptrs_dividedLevel]; simpa using this
    · intro p hp
      rw [flat_dividedLevel] at hp
      have := h.bound p hp
      exact ⟨this.1, this.2.trans_le (hf.brk.trans hfr.brk)⟩
  · intro p hp
    rw [allPtrs_cons, ptrs_dividedLevel] at hp
    simp only [ptrs_nil, List.nil_append, allPtrs_cons, ptrs_cons, allPtrs_nil, List.append_nil,
      List.mem_append, List.mem_cons, List.not_mem_nil, or_false] at hp ⊢
    rcases hp with (rfl | rfl) | rfl
    · exact .inl rfl
    · exact .inr le_rfl
    · rw [hbrk]; exact .inr (Nat.le_succ _)

/-! ### The step to the next level -/

theorem LevelOk.take {i : Nat} {top : Bool} {Gs : List (Group Int Ptr)} (h : LevelOk t E i top Gs)
    (m : Nat) : LevelOk t (fun _ _ => True) i top (Gs.take m) where
  node g hg := h.node g (List.mem_of_mem_take hg)
  min ht g hg := h.min ht g (List.mem_of_mem_take hg)
  chain := by
    obtain ⟨e, -, he⟩ := h.chain
    rw [← List.take_append_drop m Gs, ptrs_append] at he
    obtain ⟨q, hq, -⟩ := Chain.append.1 he
    exact ⟨q, trivial, hq⟩

/-- What the recursive call changes does not concern the divided level. -/
theorem InsertPre.divided_frame_up (h : InsertPre t E i A g B rest I₁ c I₂ key sub)
    (ho : 4 ≤ t.order) (hlen : g.items.length = t.order)
    (hd : Divided (withSibling t.heap g.ptr) h' g.ptr t.heap.brk sub
      (I₁ ++ c :: ((key : WithBot Int), sub) :: I₂) ((t.order + 1) / 2) sk) (hrest :
      rest ≠ []) {q : Ptr} {t' : Tree}
    (hf : Frame { t with heap := h'.setParent t.heap.brk q } t' (allPtrs rest)
      ((heads (dividedLevel t A g.ptr (I₁ ++ c :: ((key : WithBot Int), sub) :: I₂) B)).map
      Prod.snd ++ allPtrs rest)) (hh : t'.head i = t.head i) (top : Bool) : LevelOk t' E i top
      (dividedLevel t A g.ptr (I₁ ++ c :: ((key : WithBot Int), sub) :: I₂) B) := by
  have hl := h.divided_levelOk ho hlen hd q top (fun _ => .inl (by simpa using hrest))
  change LevelOk _ _ _ _ (dividedLevel t A g.ptr _ B) at hl
  have hbrk : h'.brk = t.heap.brk + 1 := hd.brk
  refine hl.frame hf hh (fun p hp => ?_) (fun d hdm => ?_)
  · rw [ptrs_dividedLevel] at hp
    have hp' : p = t.heap.brk ∨ p ∈ ptrs (A ++ g :: B) := by
      simp only [ptrs_append, ptrs_cons, List.mem_append, List.mem_cons] at hp ⊢
      grind
    rcases hp' with rfl | hp'
    · refine ⟨by show t.heap.brk < h'.brk; rw [hbrk]; exact Nat.lt_succ_self _, fun hm => ?_⟩
      exact lt_irrefl _ (h.above.bound _ (List.mem_append_right _ (List.mem_append_right _ hm))).2
    · have hb := (h.above.bound p (List.mem_append_right _ (List.mem_append_left _ hp'))).2
      refine ⟨?_, fun hm => h.rest_notMem p hm hp'⟩
      show p < h'.brk
      rw [hbrk]
      exact Nat.lt_succ_of_lt hb
  · have hdm' : d.2 ∈ (flat A ++ (I₁ ++ c :: ((key : WithBot Int), sub) :: I₂ ++ flat B)).map
      Prod.snd := by
      rw [← flat_dividedLevel (t := t) g.ptr]
      exact List.mem_map_of_mem hdm
    have hb := (h.bound d.2 hdm').2
    refine ⟨by show d.2 < h'.brk; rw [hbrk]; exact Nat.lt_succ_of_lt hb, fun hm => ?_⟩
    rw [map_snd_heads, ptrs_dividedLevel] at hm
    simp only [List.mem_append, List.mem_cons] at hm
    rcases hm with (hm | hm | hm | hm) | hm
    · exact h.ptr_notMem (by simp [hm]) hdm'
    · exact h.ptr_notMem (by simp [hm]) hdm'
    · rw [hm] at hb; exact lt_irrefl _ hb
    · exact h.ptr_notMem (by simp [hm]) hdm'
    · exact h.ptr_notMem (by simp [hm]) hdm'

/-- A node of the levels after the division was there before, or it is new. -/
theorem mem_dividedLevel {J : List (Item Int Ptr)} {D : List (Group Int Ptr)}
    {Gss' : List (List (Group Int Ptr))} (hD : D.Sublist (dividedLevel t A g.ptr J B))
    (hnew : ∀ p ∈ allPtrs Gss', p ∈ allPtrs rest ∨ t.heap.brk < p) {p : Ptr}
    (hp : p ∈ allPtrs (D :: Gss')) :
    p ∈ allPtrs ((A ++ g :: B) :: rest) ∨ t.heap.brk ≤ p := by
  rw [allPtrs_cons] at hp
  simp only [allPtrs_cons, ptrs_append, ptrs_cons, List.mem_append, List.mem_cons]
  rcases List.mem_append.1 hp with hp | hp
  · have hp' := (hD.map _).subset hp
    rw [← ptrs, ptrs_dividedLevel] at hp'
    simp only [List.mem_append, List.mem_cons] at hp'
    rcases hp' with hp' | hp' | rfl | hp'
    · exact .inl (.inl (.inl hp'))
    · exact .inl (.inl (.inr (.inl hp')))
    · exact .inr le_rfl
    · exact .inl (.inl (.inr (.inr hp')))
  · exact (hnew p hp).imp .inr le_of_lt

/-- The outcome on the level above gives the outcome on this level. -/
theorem InsertPre.lift (h : InsertPre t E i A g B rest I₁ c I₂ key sub) (ho : 4 ≤ t.order)
    (hlen : g.items.length = t.order)
    (hd : Divided (withSibling t.heap g.ptr) h' g.ptr t.heap.brk sub
      (I₁ ++ c :: ((key : WithBot Int), sub) :: I₂) ((t.order + 1) / 2) sk) (hrest :
      rest ≠ []) {q : Ptr} {r : Except Fault (Int × Tree)}
    (hr : InsertPost { t with heap := h'.setParent t.heap.brk q } E (i + 1) g.ptr
      (heads (dividedLevel t A g.ptr (I₁ ++ c :: ((key : WithBot Int), sub) :: I₂) B)) rest r) :
    InsertPost t E i c.2 (flat A ++ (I₁ ++ c :: ((key : WithBot Int), sub) :: I₂ ++ flat B))
      ((A ++ g :: B) :: rest) r := by
  obtain ⟨ret, t', rfl, hf, hh, hcase⟩ := hr
  have hbrk : h'.brk = t.heap.brk + 1 := hd.brk
  have hfd := h.divided_frame hd q
  have hlev : ∀ top, LevelOk t' E i top
      (dividedLevel t A g.ptr (I₁ ++ c :: ((key : WithBot Int), sub) :: I₂) B) := fun top =>
    h.divided_frame_up ho hlen hd hrest hf (hh i (Nat.lt_succ_self i)) top
  have hnew : ∀ {Gss' : List (List (Group Int Ptr))},
      (∀ p ∈ allPtrs Gss', p ∈ allPtrs rest ∨ h'.brk ≤ p) →
      ∀ p ∈ allPtrs Gss', p ∈ allPtrs rest ∨ t.heap.brk < p := fun hG p hp =>
    (hG p hp).imp_right fun hle => by rwa [hbrk] at hle
  have hbound : ∀ p ∈ (flat (dividedLevel t A g.ptr
      (I₁ ++ c :: ((key : WithBot Int), sub) :: I₂) B)).map Prod.snd, 0 < p ∧ p < t'.heap.brk := by
    intro p hp
    rw [flat_dividedLevel] at hp
    have := h.bound p hp
    exact ⟨this.1, this.2.trans_le (hfd.brk.trans hf.brk)⟩
  have hsort : Sorted (flat (dividedLevel t A g.ptr
      (I₁ ++ c :: ((key : WithBot Int), sub) :: I₂) B)) := by
    rw [flat_dividedLevel]; exact h.sorted
  refine ⟨ret, t', rfl, hfd.trans hf (fun p hp hn => ?_) (fun p hp hn => ?_), fun j hj =>
    hh j (by omega), ?_⟩
  · simp only [allPtrs_cons, ptrs_append, ptrs_cons, List.mem_append, List.mem_cons, not_or] at hn
    exact ⟨by simpa using hn.1.2.1, hn.2⟩
  · rw [map_snd_heads, ptrs_dividedLevel]
    simp only [allPtrs_cons, ptrs_append, ptrs_cons, List.map_append, List.mem_append,
      List.mem_cons, not_or] at hn ⊢
    exact ⟨hn.1.2.1, ⟨hn.2.1.1, hn.2.1.2.1, hp.ne, hn.2.1.2.2⟩, hn.2.2⟩
  rw [h.fullUp_iff]
  rcases hcase with ⟨hnf, rfl, hins⟩ | ⟨hfu, rfl, hex⟩
  · refine .inl ⟨fun hc => hnf hc.2, rfl, hins.stderr, ?_⟩
    obtain ⟨Gss', hab, hG⟩ := hins.above
    refine ⟨dividedLevel t A g.ptr (I₁ ++ c :: ((key : WithBot Int), sub) :: I₂) B :: Gss', ?_, ?_⟩
    · rw [← flat_dividedLevel (t := t) g.ptr]
      refine hab.push (hlev _) hsort (h.nodup_divided (hnew hG) ?_) hbound
      rw [← map_snd_heads]
      exact hab.nodup
    · exact fun p hp => mem_dividedLevel (List.Sublist.refl _) (hnew hG) hp
  · -- the lost nodes of the level above take their children along
    refine .inr ⟨⟨hlen, hfu⟩, rfl, hex.stderr, ?_⟩
    obtain ⟨m, Gss', hm1, hm2, hab, hG⟩ := hex.above
    rw [← flat_dividedLevel (t := t) g.ptr]
    set D := dividedLevel t A g.ptr (I₁ ++ c :: ((key : WithBot Int), sub) :: I₂) B with hD
    have hne : ∀ x ∈ D, x.items ≠ [] := fun x hx =>
      List.ne_nil_of_length_pos (Nat.lt_of_lt_of_le Nat.zero_lt_two ((hlev true).node x hx).two)
    have hlenD : (heads D).length = D.length := by simp [heads]
    rw [hlenD] at hm2
    change m + t.order / 2 ≤ D.length at hm2
    obtain ⟨hlow, hhigh⟩ := length_flat_take hne (m := m) (by omega)
    have hsub := flat_take_sublist D m
    refine ⟨(flat (D.take m)).length, D.take m :: Gss', by omega, ?_, ?_,
      fun p hp => mem_dividedLevel (List.take_sublist m D) (hnew hG) hp⟩
    · show _ + t.order / 2 ≤ _
      omega
    · rw [← flat_take]
      rw [heads_take] at hab
      have hnd : (ptrs (D.take m) ++ allPtrs Gss').Nodup := by
        rw [← map_snd_heads]
        exact hab.nodup
      have hsubPtrs := hsub.map Prod.snd
      refine hab.push ((hlev _).take m) (hsort.sublist hsub) ?_
        fun p hp => hbound p (hsubPtrs.subset hp)
      refine List.nodup_append.2 ⟨hsubPtrs.nodup ?_, hnd, ?_⟩
      · rw [flat_dividedLevel]
        exact (List.nodup_append.1 h.nodup).1
      · rintro p hp q' hq rfl
        have hp' := hsubPtrs.subset hp
        rw [flat_dividedLevel] at hp'
        rcases mem_dividedLevel (List.take_sublist m D) (hnew hG)
          (by rw [allPtrs_cons]; exact hq) with hq' | hq'
        · exact h.ptr_notMem (by simpa using hq') hp'
        · exact absurd (h.bound p hp').2 (not_lt.2 hq')

/-- The call on the parent that follows a division. -/
theorem InsertPre.up {Gs₁ : List (Group Int Ptr)} {rest : List (List (Group Int Ptr))}
    (h : InsertPre t E i A g B (Gs₁ :: rest) I₁ c I₂ key sub) (ho : 4 ≤ t.order)
    (hlen : g.items.length = t.order)
    (hd : Divided (withSibling t.heap g.ptr) h' g.ptr t.heap.brk sub
      (I₁ ++ c :: ((key : WithBot Int), sub) :: I₂) ((t.order + 1) / 2) sk) :
    ∃ A₁ g₁ B₁ J₁ J₂, Gs₁ = A₁ ++ g₁ :: B₁ ∧ t.heap.parent g.ptr = g₁.ptr ∧
      heads (dividedLevel t A g.ptr (I₁ ++ c :: ((key : WithBot Int), sub) :: I₂) B) =
        flat A₁ ++ (J₁ ++ g.item :: ((sk : WithBot Int), t.heap.brk) :: J₂ ++ flat B₁) ∧
      InsertPre { t with heap := h'.setParent t.heap.brk g₁.ptr } E (i + 1) A₁ g₁ B₁ rest
        J₁ g.item J₂ sk t.heap.brk := by
  have hup := h.above.upper
  rw [heads_append, heads_cons] at hup
  obtain ⟨A₁, g₁, B₁, J₁, J₂, rfl, hg₁, hX, hY, hpar⟩ := hup.group
  have hbrk : h'.brk = t.heap.brk + 1 := hd.brk
  have hheads := h.heads_divided hd
  have hs : Sorted (heads A ++ g.item :: ((sk : WithBot Int), t.heap.brk) :: heads B) := by
    rw [← hheads]
    refine sorted_heads (fun x hx => List.ne_nil_of_length_pos ?_) ?_
    · have hl := h.divided_levelOk ho hlen hd 0 true (by simp)
      exact Nat.lt_of_lt_of_le Nat.zero_lt_two (hl.node x hx).two
    · rw [flat_dividedLevel]; exact h.sorted
  obtain ⟨-, hs1, -⟩ := List.pairwise_append.1 hs
  obtain ⟨hs2, hs3⟩ := List.pairwise_cons.1 hs1
  have hflat : heads A ++ g.item :: heads B = flat (A₁ ++ g₁ :: B₁) := hup.flat_eq.symm
  refine ⟨A₁, g₁, B₁, J₁, J₂, rfl, hpar, by rw [hheads, hX, hY]; simp, ?_, hg₁, ?_, ?_, ?_, ?_, ?_⟩
  · rw [← hflat]
    refine hup.frame (h.divided_frame hd g₁.ptr) rfl (fun _ _ => rfl) (fun p hp hm => ?_)
      (fun p hp hm => ?_)
    · exact h.rest_notMem p hp (by rw [List.mem_singleton.1 hm]; simp)
    · rw [← heads_cons, ← heads_append, map_snd_heads] at hp
      refine h.ptr_notMem hp ?_
      rw [List.map_append, List.map_append]
      exact List.mem_append_right _ (List.mem_append_left _ hm)
  · rw [← hflat]
    intro hm
    exact lt_irrefl _ (hup.bound _ hm).2
  · refine ⟨(h.ptr_bound (x := g) (by simp)).1.trans (h.ptr_bound (x := g) (by simp)).2, ?_⟩
    show t.heap.brk < h'.brk
    rw [hbrk]
    exact Nat.lt_succ_self _
  · exact Function.update_self _ _ _
  · exact hs2 _ List.mem_cons_self
  · intro y hy
    rw [← hY] at hy
    exact (List.pairwise_cons.1 hs3).1 y hy

section
variable (h : InsertPre t E i A g B rest I₁ c I₂ key sub)
include h

/-- `non_leaf_insert` on a node with room. -/
theorem InsertPre.run_room (hlen : g.items.length ≠ t.order) (n : Nat) :
    nonLeafInsert (n + 1) t g.ptr sub key i =
      .ok (0, { t with heap := insertNonLeaf t.heap g.ptr sub key I₁.length }) := by
  simp only [nonLeafInsert, h.search]
  rw [if_neg (by omega), if_neg (by rw [h.nodeOk.body.children]; exact hlen)]
  congr
  omega

theorem InsertPre.run_simple (hlen : g.items.length ≠ t.order) (n : Nat) :
    InsertPost t E i c.2 (flat A ++ (I₁ ++ c :: ((key : WithBot Int), sub) :: I₂ ++ flat B))
      ((A ++ g :: B) :: rest) (nonLeafInsert (n + 1) t g.ptr sub key i) := by
  obtain ⟨hf, hab⟩ := h.insertNonLeaf_spec hlen
  refine ⟨_, _, h.run_room hlen n, hf.mono ?_ (by simp), fun _ _ => rfl,
    .inl ⟨?_, rfl, rfl, _, hab, fun p hp => .inl ?_⟩⟩
  · intro p hp _
    rw [List.mem_singleton.1 hp]
    simp
  · rw [h.fullUp_iff]
    exact fun hc => hlen hc.1
  · simpa using hp

/-- `non_leaf_insert` on a full node, after the division. -/
theorem InsertPre.run_full (hlen : g.items.length = t.order) (ho : 3 ≤ t.order) (n : Nat) :
    ∃ sk h', Divided (withSibling t.heap g.ptr) h' g.ptr t.heap.brk sub
        (I₁ ++ c :: ((key : WithBot Int), sub) :: I₂) ((t.order + 1) / 2) sk ∧
      nonLeafInsert (n + 1) t g.ptr sub key i =
        if t.heap.parent g.ptr = 0 then
          if (i + 1 : Int) ≥ t.level then
            .ok (-1, { t with
              heap := h'.setNext g.ptr (h'.next t.heap.brk), stderr := levelExceeded :: t.stderr })
          else .ok (0, newRoot { t with heap := h' } g.ptr t.heap.brk sk (i + 1))
        else
          nonLeafInsert n { t with heap := h'.setParent t.heap.brk (t.heap.parent g.ptr) }
            (t.heap.parent g.ptr) t.heap.brk sk (i + 1) := by
  have hg := (h.ptr_bound (x := g) (by simp)).2
  have hsub : sub ∉ g.items.map Prod.snd := fun hm => h.subNew (by simp [hm])
  have hil : I₁.length < t.order := by
    rw [← hlen, h.items]; simp
  obtain ⟨sk, h', hrun, hd⟩ := splitNonLeaf_spec h.nodeOk.body hlen ho hil hg hsub
  rw [h.insertIdx_eq] at hd
  refine ⟨sk, h', hd, ?_⟩
  have hpar : h'.parent g.ptr = t.heap.parent g.ptr := by
    have hf := h.divided_frame hd (h'.parent t.heap.brk)
    rw [setParent_self] at hf
    refine hf.parent g.ptr hg fun hm => h.ptr_notMem (p := g.ptr) (by simp) ?_
    rw [List.map_append, List.map_append]
    exact List.mem_append_right _ (List.mem_append_left _ hm)
  simp only [nonLeafInsert, h.search]
  rw [if_neg (by omega), if_pos (by rw [h.nodeOk.body.children]; exact hlen),
    show (-(-(I₁.length : Int) - 1) - 1).toNat = I₁.length by omega, hrun]
  simp only [hpar]
  rw [if_neg (by omega)]

end

/-- **`non_leaf_insert`** (module doc). Order 3 is covered as long as no inner node but the root can
exist, since the division of a node of order 3 leaves the sibling a single child. -/
theorem nonLeafInsert_spec (hE : ∀ i, E i 0) :
    ∀ {rest : List (List (Group Int Ptr))} {t : Tree} {i fuel : Nat} {A B : List (Group Int Ptr)}
      {g : Group Int Ptr} {I₁ I₂ : List (Item Int Ptr)} {c : Item Int Ptr} {key : Int} {sub : Ptr},
    InsertPre t E i A g B rest I₁ c I₂ key sub → rest.length < fuel → 1 ≤ i → 3 ≤ t.order →
    (4 ≤ t.order ∨ t.level ≤ 2) →
    InsertPost t E i c.2 (flat A ++ (I₁ ++ c :: ((key : WithBot Int), sub) :: I₂ ++ flat B))
      ((A ++ g :: B) :: rest) (nonLeafInsert fuel t g.ptr sub key i) := by
  intro rest
  induction rest with
  | nil =>
    intro t i fuel A B g I₁ I₂ c key sub h hfuel hi ho ho4
    obtain ⟨n, rfl⟩ := Nat.exists_eq_succ_of_ne_zero (by omega : fuel ≠ 0)
    by_cases hlen : g.items.length = t.order
    · obtain ⟨sk, h', hd, hrun⟩ := h.run_full hlen ho n
      have hroot : t.heap.parent g.ptr = 0 := by
        rw [h.above.alone.2.2]
        exact h.above.rootParent
      rw [if_pos hroot] at hrun
      rw [hrun]
      have hfu : FullUp t.order t.level i c.2 [A ++ g :: B] ↔ t.level ≤ (i + 1 : Nat) := by
        rw [h.fullUp_iff]
        exact ⟨fun hc => hc.2, fun hc => ⟨hlen, hc⟩⟩
      by_cases hlev : (i + 1 : Int) ≥ t.level
      · rw [if_pos hlev]
        refine ⟨_, _, rfl, ?_, fun _ _ => rfl, .inr ⟨hfu.2 (by push_cast; exact hlev), rfl,
          h.exceeded ho hlen hd⟩⟩
        have hf := h.divided_frame hd (h'.parent t.heap.brk)
        rw [setParent_self] at hf
        have hf2 : Frame { t with heap := h' } { t with
            heap := h'.setNext g.ptr (h'.next t.heap.brk), stderr := levelExceeded :: t.stderr }
            [g.ptr] [] :=
          ⟨rfl, rfl, rfl, le_rfl, fun _ _ _ => rfl,
            fun p _ hp => Function.update_of_ne (by simpa using hp) _ _, fun _ _ _ => rfl,
            fun _ _ _ => rfl, fun _ _ _ => rfl⟩
        refine hf.trans hf2 (fun p _ hn => ?_) (fun p _ hn => ?_)
        · simp only [allPtrs_cons, ptrs_append, ptrs_cons, List.mem_append, List.mem_cons,
            not_or] at hn
          simp [hn.1.2.1]
        · simp only [List.map_append, List.mem_append, not_or] at hn
          refine ⟨?_, by simp⟩
          rw [List.map_append, List.mem_append, not_or]
          exact hn.1.2.1
      · rw [if_neg hlev]
        -- a third level exists, so the order is at least 4
        have ho4' : 4 ≤ t.order := by
          rcases ho4 with h4 | h4
          · exact h4
          · omega
        obtain ⟨hf, hins⟩ := h.rooted hE ho4' hlen hd (by omega)
        refine ⟨_, _, rfl, hf.mono ?_ ?_, fun j hj => ?_, .inl ⟨?_, rfl, hins⟩⟩
        · intro p hp _
          rw [List.mem_singleton.1 hp]
          simp
        · intro p hp _
          rcases List.mem_append.1 hp with hp | hp
          · rw [List.map_append, List.map_append]
            exact List.mem_append_left _ (List.mem_append_right _ (List.mem_append_left _ hp))
          · rw [List.mem_singleton.1 hp]
            simp
        · exact Function.update_of_ne (by omega) _ _
        · rw [hfu]; push_cast; omega
    · exact h.run_simple hlen n
  | cons Gs₁ rest ih =>
    intro t i fuel A B g I₁ I₂ c key sub h hfuel hi ho ho4
    obtain ⟨n, rfl⟩ := Nat.exists_eq_succ_of_ne_zero (by omega : fuel ≠ 0)
    by_cases hlen : g.items.length = t.order
    · have ho4' : 4 ≤ t.order := by
        rcases ho4 with h4 | h4
        · exact h4
        · have := h.above.height
          simp only [List.length_cons] at this
          push_cast at this
          omega
      obtain ⟨sk, h', hd, hrun⟩ := h.run_full hlen ho n
      obtain ⟨A₁, g₁, B₁, J₁, J₂, rfl, hpar, hheads, hpre⟩ := h.up ho4' hlen hd
      have hne : t.heap.parent g.ptr ≠ 0 := by
        rw [hpar]
        exact (hpre.ptr_bound (x := g₁) (by simp)).1.ne'
      rw [if_neg hne, hpar] at hrun
      rw [hrun]
      refine h.lift ho4' hlen hd (by simp) (q := g₁.ptr) ?_
      rw [hheads]
      exact ih hpre (by simpa using hfuel) (by omega) ho ho4
    · exact h.run_simple hlen n

end

end BplusTree
