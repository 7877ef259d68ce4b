import DsAlgor.BplusTree.Node
import DsAlgor.Lib.Chain

/-!
# The inner levels of a tree

`Above t E i items Gss`: in the heap of `t` the levels `i`, `i + 1`, … up to the root are `Gss` and
stand on the nodes `items` of level `i - 1`. It fixes the four views of the inner nodes: the arrays
(`NodeOk.body`), the parent pointers of the children (`NodeOk.parent`), the `next` chain of every
level from `head` on (`LevelOk.chain`, which ends at an address that `E` allows), and the order of
the separators.

`Frame t t' S Q`: from `t` to `t'` only nodes of `S` and new nodes change, and only nodes of `Q` and
new nodes get another parent.
-/

namespace BplusTree

open CArray Levels

/-- An inner node as the heap holds it. -/
structure NodeOk (t : Tree) (g : Group Int Ptr) : Prop where
  type : t.heap.type g.ptr = .nonLeaf
  body : Body (t.heap.nonLeaf g.ptr) g.items
  parent : ∀ c ∈ g.items, t.heap.parent c.2 = g.ptr
  two : 2 ≤ g.items.length
  max : g.items.length ≤ t.order

/-- A level of inner nodes; only the root may have fewer than `order / 2` children. -/
structure LevelOk (t : Tree) (E : Nat → Ptr → Prop) (i : Nat) (top : Bool)
    (Gs : List (Group Int Ptr)) :
    Prop where
  node : ∀ g ∈ Gs, NodeOk t g
  min : top = false → ∀ g ∈ Gs, t.order / 2 ≤ g.items.length
  chain : ∃ e, E i e ∧ Chain t.heap.next (t.head i) (ptrs Gs) e

/-- The inner levels from `i` on (module doc). -/
structure Above (t : Tree) (E : Nat → Ptr → Prop) (i : Nat) (items : List (Item Int Ptr))
    (Gss : List (List (Group Int Ptr))) : Prop where
  tower : Tower (LevelOk t E) t.root i items Gss
  nodup : (items.map Prod.snd ++ allPtrs Gss).Nodup
  bound : ∀ p ∈ items.map Prod.snd ++ allPtrs Gss, 0 < p ∧ p < t.heap.brk
  sorted : Sorted items
  rootParent : t.heap.parent t.root = 0
  height : (i + Gss.length : Int) ≤ max 2 t.level
  headAbove : ∀ j, i + Gss.length ≤ j → t.head j = 0

/-- What a step leaves alone (module doc). -/
structure Frame (t t' : Tree) (S Q : List Ptr) : Prop where
  order : t'.order = t.order
  entries : t'.entries = t.entries
  level : t'.level = t.level
  brk : t.heap.brk ≤ t'.heap.brk
  type : ∀ p < t.heap.brk, p ∉ S → t'.heap.type p = t.heap.type p
  next : ∀ p < t.heap.brk, p ∉ S → t'.heap.next p = t.heap.next p
  nonLeaf : ∀ p < t.heap.brk, p ∉ S → t'.heap.nonLeaf p = t.heap.nonLeaf p
  leaf : ∀ p < t.heap.brk, p ∉ S → t'.heap.leaf p = t.heap.leaf p
  parent : ∀ p < t.heap.brk, p ∉ Q → t'.heap.parent p = t.heap.parent p

variable {t t' t'' : Tree} {E E' : Nat → Ptr → Prop} {i : Nat} {S Q S' Q' : List Ptr}
  {items : List (Item Int Ptr)} {Gs : List (Group Int Ptr)} {Gss rest : List (List (Group Int Ptr))}
  {g : Group Int Ptr} {c : Item Int Ptr}

theorem Frame.trans {S'' Q'' : List Ptr} (h : Frame t t' S Q) (h' : Frame t' t'' S' Q')
    (hS : ∀ p < t.heap.brk, p ∉ S'' → p ∉ S ∧ p ∉ S')
    (hQ : ∀ p < t.heap.brk, p ∉ Q'' → p ∉ Q ∧ p ∉ Q') : Frame t t'' S'' Q'' where
  order := h'.order.trans h.order
  entries := h'.entries.trans h.entries
  level := h'.level.trans h.level
  brk := h.brk.trans h'.brk
  type p hp hn := (h'.type p (hp.trans_le h.brk) (hS p hp hn).2).trans (h.type p hp (hS p hp hn).1)
  next p hp hn := (h'.next p (hp.trans_le h.brk) (hS p hp hn).2).trans (h.next p hp (hS p hp hn).1)
  nonLeaf p hp hn :=
    (h'.nonLeaf p (hp.trans_le h.brk) (hS p hp hn).2).trans (h.nonLeaf p hp (hS p hp hn).1)
  leaf p hp hn := (h'.leaf p (hp.trans_le h.brk) (hS p hp hn).2).trans (h.leaf p hp (hS p hp hn).1)
  parent p hp hn :=
    (h'.parent p (hp.trans_le h.brk) (hQ p hp hn).2).trans (h.parent p hp (hQ p hp hn).1)

theorem Frame.mono (h : Frame t t' S Q) (hS : ∀ p ∈ S, p < t.heap.brk → p ∈ S')
    (hQ : ∀ p ∈ Q, p < t.heap.brk → p ∈ Q') : Frame t t' S' Q' where
  order := h.order
  entries := h.entries
  level := h.level
  brk := h.brk
  type p hp hn := h.type p hp fun hm => hn (hS p hm hp)
  next p hp hn := h.next p hp fun hm => hn (hS p hm hp)
  nonLeaf p hp hn := h.nonLeaf p hp fun hm => hn (hS p hm hp)
  leaf p hp hn := h.leaf p hp fun hm => hn (hS p hm hp)
  parent p hp hn := h.parent p hp fun hm => hn (hQ p hm hp)

/-! ## Frame rules -/

theorem NodeOk.frame (h : NodeOk t g) (hf : Frame t t' S Q) (hg : g.ptr < t.heap.brk)
    (hS : g.ptr ∉ S) (hQ : ∀ c ∈ g.items, c.2 < t.heap.brk ∧ c.2 ∉ Q) : NodeOk t' g where
  type := by rw [hf.type _ hg hS]; exact h.type
  body := by rw [hf.nonLeaf _ hg hS]; exact h.body
  parent c hc := by rw [hf.parent _ (hQ c hc).1 (hQ c hc).2]; exact h.parent c hc
  two := h.two
  max := by rw [hf.order]; exact h.max

theorem LevelOk.frame {top : Bool} (h : LevelOk t E i top Gs) (hf : Frame t t' S Q)
    (hhead : t'.head i = t.head i) (hS : ∀ p ∈ ptrs Gs, p < t.heap.brk ∧ p ∉ S)
    (hQ : ∀ c ∈ flat Gs, c.2 < t.heap.brk ∧ c.2 ∉ Q) : LevelOk t' E i top Gs where
  node g hg := by
    have hp := hS g.ptr (List.mem_map_of_mem hg)
    exact (h.node g hg).frame hf hp.1 hp.2 fun c hc => hQ c (mem_flat.2 ⟨g, hg, hc⟩)
  min ht := by rw [hf.order]; exact h.min ht
  chain := by
    obtain ⟨e, he, hc⟩ := h.chain
    rw [hhead]
    exact ⟨e, he, hc.congr fun q hq => hf.next q (hS q hq).1 (hS q hq).2⟩

theorem Above.flat_eq (h : Above t E i items (Gs :: rest)) : flat Gs = items := h.tower.1

theorem Above.levelOk (h : Above t E i items (Gs :: rest)) :
    LevelOk t E i rest.isEmpty Gs := h.tower.2.2.1

/-- The levels above the lowest one. -/
theorem Above.upper (h : Above t E i items (Gs :: rest)) : Above t E (i + 1) (heads Gs) rest where
  tower := h.tower.2.2.2
  nodup := by
    rw [map_snd_heads]
    exact h.nodup.sublist (List.sublist_append_right _ _)
  bound p hp := by
    rw [map_snd_heads] at hp
    exact h.bound p (List.mem_append_right _ hp)
  sorted := h.tower.sorted h.sorted
  rootParent := h.rootParent
  height := by
    have := h.height
    simp only [List.length_cons] at this
    push_cast at this ⊢
    omega
  headAbove j hj := h.headAbove j (by simp only [List.length_cons]; omega)

/-- A level below well-formed levels. -/
theorem Above.push (h : Above t E (i + 1) (heads Gs) rest) (hl : LevelOk t E i rest.isEmpty Gs)
    (hs : Sorted (flat Gs)) (hnd : ((flat Gs).map Prod.snd ++ (ptrs Gs ++ allPtrs rest)).Nodup)
    (hb : ∀ p ∈ (flat Gs).map Prod.snd, 0 < p ∧ p < t.heap.brk) :
    Above t E i (flat Gs) (Gs :: rest) where
  tower := ⟨rfl, fun g hg => List.ne_nil_of_length_pos (by have := (hl.node g hg).two; omega), hl,
    h.tower⟩
  nodup := hnd
  bound p hp := by
    rcases List.mem_append.1 hp with hp | hp
    · exact hb p hp
    · exact h.bound p (by rw [map_snd_heads]; exact hp)
  sorted := hs
  rootParent := h.rootParent
  height := by
    have := h.height
    simp only [List.length_cons]
    push_cast at this ⊢
    omega
  headAbove j hj := h.headAbove j (by simp only [List.length_cons] at hj; omega)

theorem Above.root_mem : ∀ {Gss : List (List (Group Int Ptr))} {i : Nat}
    {items : List (Item Int Ptr)}, Above t E i items Gss →
    t.root ∈ items.map Prod.snd ++ allPtrs Gss
  | [], _, _, h => by
    obtain ⟨lo, rfl⟩ := h.tower
    simp
  | Gs :: rest, _, _, h => by
    have := h.upper.root_mem
    rw [map_snd_heads] at this
    exact List.mem_append_right _ this

/-- A step that touches neither the nodes of the levels nor the parents of their children. -/
theorem Above.frame : ∀ {Gss : List (List (Group Int Ptr))} {i : Nat} {items : List (Item Int Ptr)},
    Above t E i items Gss → Frame t t' S Q → t'.root = t.root → (∀ j ≥ i, t'.head j = t.head j) →
    (∀ p ∈ allPtrs Gss, p ∉ S) → (∀ p ∈ items.map Prod.snd ++ allPtrs Gss, p ∉ Q) →
    Above t' E i items Gss
  | [], i, items, h, hf, hr, hh, _, hQ => by
    have hrm := h.root_mem
    refine ⟨?_, h.nodup, fun p hp => ⟨(h.bound p hp).1, (h.bound p hp).2.trans_le hf.brk⟩,
      h.sorted, ?_, by rw [hf.level]; exact h.height, fun j hj => ?_⟩
    · rw [hr]; exact h.tower
    · rw [hr, hf.parent _ (h.bound _ hrm).2 (hQ _ hrm)]
      exact h.rootParent
    · rw [hh j (by simp at hj; omega)]
      exact h.headAbove j hj
  | Gs :: rest, i, items, h, hf, hr, hh, hS, hQ => by
    have hfl := h.flat_eq
    subst hfl
    have hup := Above.frame h.upper hf hr (fun j hj => hh j (by omega))
      (fun p hp => hS p (by simp [hp]))
      (fun p hp => by
        rw [map_snd_heads] at hp
        exact hQ p (List.mem_append_right _ hp))
    refine hup.push (h.levelOk.frame hf (hh i le_rfl) (fun p hp => ?_) fun c hc => ?_) h.sorted
      h.nodup fun p hp => ?_
    · exact ⟨(h.bound p (by simp [hp])).2, hS p (by simp [hp])⟩
    · have hc' : c.2 ∈ (flat Gs).map Prod.snd := List.mem_map_of_mem hc
      exact ⟨(h.bound _ (List.mem_append_left _ hc')).2, hQ _ (List.mem_append_left _ hc')⟩
    · have := h.bound p (List.mem_append_left _ hp)
      exact ⟨this.1, this.2.trans_le hf.brk⟩

/-- The chains may end elsewhere. -/
theorem Above.weaken (h : Above t E i items Gss) (hE : ∀ j ≥ i, ∀ e, E j e → E' j e) :
    Above t E' i items Gss :=
  { h with
    tower := h.tower.mono fun j hj _ _ _ hl =>
      ⟨hl.node, hl.min, hl.chain.imp fun e he => ⟨hE j hj e he.1, he.2⟩⟩ }

/-- The nodes of the levels are inner nodes. -/
theorem Above.type : ∀ {Gss : List (List (Group Int Ptr))}
    {i : Nat} {items : List (Item Int Ptr)}, Above t E i items Gss →
    ∀ p ∈ allPtrs Gss, t.heap.type p = .nonLeaf
  | [], _, _, _, _, hp => nomatch hp
  | Gs :: rest, _, _, h, p, hp => by
    rw [allPtrs_cons, List.mem_append] at hp
    rcases hp with hp | hp
    · obtain ⟨g, hg, rfl⟩ := List.mem_map.1 hp
      exact (h.levelOk.node g hg).type
    · exact h.upper.type p hp

/-! ## Changing some nodes of a level -/

section
variable {α : Type} {A M B : List α} {x : α}

theorem mem_around (h : x ∈ A ++ B) : x ∈ A ++ (M ++ B) := by
  simp only [List.mem_append] at h ⊢
  exact h.imp_right .inr

theorem mem_around_or (h : x ∈ A ++ (M ++ B)) : x ∈ A ++ B ∨ x ∈ M := by
  simp only [List.mem_append] at h ⊢
  tauto

end

/-- The nodes `M` of a level are replaced by `N`. -/
theorem LevelOk.replace {top top' : Bool} {A M N B : List (Group Int Ptr)}
    (h : LevelOk t E i top (A ++ (M ++ B))) (hf : Frame t t' S Q)
    (hAB : ∀ x ∈ A ++ B, x.ptr < t.heap.brk ∧ x.ptr ∉ S ∧
      ∀ c ∈ x.items, c.2 < t.heap.brk ∧ c.2 ∉ Q) (hN : ∀ x ∈ N, NodeOk t' x)
    (hmin : top' = false → (top = false ∨ A ++ B = []) ∧ ∀ x ∈ N, t.order / 2 ≤ x.items.length)
    (hc : ∀ e, Chain t.heap.next (t.head i) (ptrs (A ++ (M ++ B))) e →
      Chain t'.heap.next (t'.head i) (ptrs (A ++ (N ++ B))) e) :
    LevelOk t' E i top' (A ++ (N ++ B)) := by
  refine ⟨fun x hx => ?_, fun ht x hx => ?_, ?_⟩
  · rcases mem_around_or hx with hx | hx
    · obtain ⟨h1, h2, h3⟩ := hAB x hx
      exact (h.node x (mem_around hx)).frame hf h1 h2 h3
    · exact hN x hx
  · rw [hf.order]
    obtain ⟨h1, h2⟩ := hmin ht
    rcases mem_around_or hx with hx | hx
    · rcases h1 with h1 | h1
      · exact h.min h1 x (mem_around hx)
      · rw [h1] at hx; simp at hx
    · exact h2 x hx
  · obtain ⟨e, he, hch⟩ := h.chain
    exact ⟨e, he, hc e hch⟩

/-- The children of `g` become `J`, in place. -/
theorem Above.set_node {A B : List (Group Int Ptr)} {J : List (Item Int Ptr)}
    (h : Above t E i (flat (A ++ g :: B)) ((A ++ g :: B) :: rest)) (hf : Frame t t' S Q)
    (hroot : t'.root = t.root) (hhead : ∀ j ≥ i, t'.head j = t.head j)
    (hnext : t'.heap.next g.ptr = t.heap.next g.ptr) (hn : NodeOk t' ⟨g.ptr, J⟩)
    (hlo : (⟨g.ptr, J⟩ : Group Int Ptr).lo = g.lo)
    (hmin : rest.isEmpty = false → t.order / 2 ≤ J.length)
    (hS : ∀ p ∈ allPtrs ((A ++ g :: B) :: rest), p ∈ S → p = g.ptr)
    (hQ : ∀ p ∈ (flat (A ++ B)).map Prod.snd ++ allPtrs ((A ++ g :: B) :: rest), p ∉ Q)
    (hs : Sorted (flat A ++ (J ++ flat B)))
    (hnd : ((flat A ++ (J ++ flat B)).map Prod.snd ++ (ptrs (A ++ g :: B) ++ allPtrs rest)).Nodup)
    (hb : ∀ c ∈ J, 0 < c.2 ∧ c.2 < t'.heap.brk) :
    Above t' E i (flat A ++ (J ++ flat B)) ((A ++ ⟨g.ptr, J⟩ :: B) :: rest) := by
  have hheads : heads (A ++ ⟨g.ptr, J⟩ :: B) = heads (A ++ g :: B) := by
    simp only [heads_append, heads_cons, Group.item, hlo]
  have hfl : flat (A ++ ⟨g.ptr, J⟩ :: B) = flat A ++ (J ++ flat B) := by rw [flat_append, flat_cons]
  have hptr : ptrs (A ++ ⟨g.ptr, J⟩ :: B) = ptrs (A ++ g :: B) := by simp
  have hgr := List.nodup_append.1 (List.nodup_append.1 h.nodup).2.1
  have hgAB : g.ptr ∉ ptrs (A ++ B) := by
    have := hgr.1
    rw [ptrs_append, ptrs_cons, List.nodup_middle, List.nodup_cons, ← ptrs_append] at this
    exact this.1
  have hAB : ∀ x ∈ A ++ B, x ∈ A ++ g :: B := by
    intro x hx
    simp only [List.mem_append, List.mem_cons] at hx ⊢
    grind
  have hbd : ∀ p ∈ allPtrs ((A ++ g :: B) :: rest), p < t.heap.brk := fun p hp =>
    (h.bound p (List.mem_append_right _ hp)).2
  have hxp : ∀ x ∈ A ++ g :: B, x.ptr ∈ allPtrs ((A ++ g :: B) :: rest) := fun x hx => by
    rw [allPtrs_cons]
    exact List.mem_append_left _ (List.mem_map_of_mem hx)
  have hcd : ∀ x ∈ A ++ B, ∀ c ∈ x.items, c.2 ∈ (flat (A ++ B)).map Prod.snd := fun x hx c hc =>
    List.mem_map_of_mem (mem_flat.2 ⟨x, hx, hc⟩)
  have hcb : ∀ x ∈ A ++ B, ∀ c ∈ x.items, 0 < c.2 ∧ c.2 < t.heap.brk := fun x hx c hc =>
    h.bound _ (List.mem_append_left _ (List.mem_map_of_mem (mem_flat.2 ⟨x, hAB x hx, hc⟩)))
  rw [← hfl]
  refine Above.push ?_ ?_ (hfl ▸ hs) ?_ ?_
  · rw [hheads]
    refine h.upper.frame hf hroot (fun j hj => hhead j (by omega)) (fun p hp hm => ?_)
      (fun p hp => ?_)
    · have hpg := hS p (by rw [allPtrs_cons]; exact List.mem_append_right _ hp) hm
      exact hgr.2.2 g.ptr (by simp) p hp hpg.symm
    · rw [map_snd_heads] at hp
      exact hQ p (List.mem_append_right _ hp)
  · refine LevelOk.replace (M := [g]) (N := [⟨g.ptr, J⟩]) h.levelOk hf (fun x hx => ?_) ?_ ?_ ?_
    · refine ⟨hbd _ (hxp x (hAB x hx)), fun hm => ?_, fun c hc => ⟨(hcb x hx c hc).2, ?_⟩⟩
      · exact hgAB (hS _ (hxp x (hAB x hx)) hm ▸ List.mem_map_of_mem hx)
      · exact hQ _ (List.mem_append_left _ (hcd x hx c hc))
    · intro x hx
      rw [List.mem_singleton.1 hx]
      exact hn
    · intro ht
      refine ⟨.inl ht, fun x hx => ?_⟩
      rw [List.mem_singleton.1 hx]
      exact hmin ht
    · intro e he
      rw [hhead i le_rfl]
      simp only [List.cons_append, List.nil_append] at he ⊢
      rw [hptr]
      refine he.congr fun p hp => ?_
      by_cases hpg : p = g.ptr
      · rw [hpg, hnext]
      · have hpa : p ∈ allPtrs ((A ++ g :: B) :: rest) := by
          rw [allPtrs_cons]
          exact List.mem_append_left _ hp
        exact hf.next p (hbd p hpa) fun hm => hpg (hS p hpa hm)
  · rw [hfl, hptr]
    exact hnd
  · intro p hp
    obtain ⟨c, hc, rfl⟩ := List.mem_map.1 hp
    obtain ⟨x, hx, hc⟩ := mem_flat.1 hc
    simp only [List.mem_append, List.mem_cons] at hx
    rcases hx with hx | rfl | hx
    · have := hcb x (by simp [hx]) c hc
      exact ⟨this.1, this.2.trans_le hf.brk⟩
    · exact hb c hc
    · have := hcb x (by simp [hx]) c hc
      exact ⟨this.1, this.2.trans_le hf.brk⟩

/-! ## The group of a node -/

/-- The inner node that holds the child `c`. -/
theorem Above.group {X Y : List (Item Int Ptr)} (h : Above t E i (X ++ c :: Y) (Gs :: rest)) :
    ∃ A g B I₁ I₂, Gs = A ++ g :: B ∧ g.items = I₁ ++ c :: I₂ ∧ X = flat A ++ I₁ ∧
      Y = I₂ ++ flat B ∧ t.heap.parent c.2 = g.ptr := by
  obtain ⟨A, g, B, I₁, I₂, rfl, hg, hX, hY⟩ := flat_eq_mid h.flat_eq
  refine ⟨A, g, B, I₁, I₂, rfl, hg, hX, hY, ?_⟩
  exact (h.levelOk.node g (by simp)).parent c (by simp [hg])

/-- The topmost level is the root alone. -/
theorem Above.top (h : Above t E i items [Gs]) : ∃ g, Gs = [g] ∧ g.ptr = t.root := by
  obtain ⟨lo, hlo⟩ := h.upper.tower
  obtain ⟨g, l, rfl, hg, hl⟩ := List.map_eq_cons_iff.1 hlo
  simp only [List.map_eq_nil_iff] at hl
  subst hl
  exact ⟨g, rfl, congrArg Prod.snd hg⟩

theorem Above.alone {A B : List (Group Int Ptr)} (h : Above t E i items [A ++ g :: B]) :
    A = [] ∧ B = [] ∧ g.ptr = t.root := by
  obtain ⟨g', hg', hroot⟩ := h.top
  cases A with
  | nil =>
    obtain ⟨rfl, rfl⟩ : g = g' ∧ B = [] := by simpa using hg'
    exact ⟨rfl, rfl, hroot⟩
  | cons a A => simp at hg'

end BplusTree
