import DsAlgor.Bptree.Node
import DsAlgor.Lib.Chain
import DsAlgor.Lib.PtrTree

/-!
# Trees in the heap

`Sub t root l T`: the heap of `t` holds the tree `T`, of level `l`, with all its nodes as full as
they have to be (`root` says whether `T` is the whole tree). The keys of an inner node are not part
of `T`: the key on the left of a child is the key of the first entry below it. `Around` is the same
for a place in a tree, and `Along` says that a path leads there.
-/

namespace Bptree

open CArray PtrTree

variable {K V : Type}

/-- Trees of node addresses; the leaves hold addresses of entries. -/
abbrev Shape := PtrTree Ptr Ptr

abbrev Place := List (Frame Ptr Ptr)

/-- The key of the first entry of a tree. -/
def minKey (t : Tree K V) (T : Shape) : K := t.key (T.elems.headD 0)

/-- A child with the key on its left. -/
def item (t : Tree K V) (T : Shape) : Ptr × K := (T.ptr, minKey t T)

def minEntries (root : Bool) : Nat := if root then 0 else 32

def minChildren (root : Bool) : Nat := if root then 2 else 16

theorem two_le_minChildren (root : Bool) : 2 ≤ minChildren root := by
  unfold minChildren
  split_ifs
  · exact le_rfl
  · decide

structure LeafOk (n : Node K) (root : Bool) (es : List Ptr) : Prop extends Entries n es where
  leaf : n.leaf = true
  level : n.level = 0
  least : minEntries root ≤ es.length
  most : es.length ≤ 63

structure InnerOk (n : Node K) (root : Bool) (l : Nat) (I : List (Ptr × K)) :
    Prop extends Body n I where
  leaf : n.leaf = false
  level : n.level = l
  least : minChildren root ≤ I.length
  most : I.length ≤ 32

def Sub (t : Tree K V) (root : Bool) : Nat → Shape → Prop
  | 0, .leaf p es => LeafOk (t.node p) root es
  | l + 1, .node p cs => InnerOk (t.node p) root (l + 1) (cs.map (item t)) ∧
      ∀ c ∈ cs, Sub t false l c
  | _, _ => False

/-- The key of the first entry of a frame with a tree in it whose first key is `k`. -/
def frameMin (t : Tree K V) (f : Frame Ptr Ptr) (k : K) : K :=
  match f.left with
  | [] => k
  | c :: _ => minKey t c

/-- The items of a frame with the item `i` in its place. -/
def frameItems (t : Tree K V) (f : Frame Ptr Ptr) (i : Ptr × K) : List (Ptr × K) :=
  f.left.map (item t) ++ i :: f.right.map (item t)

/-- The heap holds what is around a place of level `l`, where there is the node `p`, with the first
key `k` below it. -/
def Around (t : Tree K V) : Nat → Place → Ptr × K → Prop
  | _, [], _ => True
  | l, f :: fs, i =>
    InnerOk (t.node f.ptr) fs.isEmpty (l + 1) (frameItems t f i) ∧
      (∀ c ∈ f.left ++ f.right, Sub t false l c) ∧ Around t (l + 1) fs (f.ptr, frameMin t f i.2)

/-- The path leads to the place. -/
def Along (path : PathInfo) : Nat → Place → Prop
  | _, [] => True
  | l, f :: fs => path.n (l + 1) = f.ptr ∧ path.p (l + 1) = f.left.length ∧ Along path (l + 1) fs

/-- What holds of the nodes of a whole tree between two operations. -/
structure Built (t : Tree K V) (L : Nat) (T : Shape) : Prop where
  root : t.root = T.ptr
  sub : Sub t true L T
  nodup : T.ptrs.Nodup
  bound : ∀ p ∈ T.ptrs, 0 < p ∧ p < t.brk
  chain : Chain (fun p => (t.node p).next) t.min (T.leaves.map Prod.fst) 0
  innerOrder : t.innerOrder = 32
  leafOrder : t.leafOrder = 64

/-- A leaf of a tree, and the path that leads there. -/
structure Placed (t : Tree K V) (T : Shape) (path : PathInfo) (gs : Place) (p : Ptr)
    (es : List Ptr) : Prop where
  plugged : plug gs (.leaf p es) = T
  leaf : LeafOk (t.node p) gs.isEmpty es
  around : Around t 0 gs (item t (.leaf p es))
  along : Along path 0 gs
  here : path.n 0 = p

/-- The node `q` with the first key `k` at a place of level `l`, where the nodes `qs` are. -/
structure Site (t : Tree K V) (path : PathInfo) (l : Nat) (fs : Place) (q : Ptr) (k : K)
    (qs : List Ptr) : Prop where
  around : Around t l fs (q, k)
  along : Along path l fs
  here : path.n l = q
  own : q ∈ qs
  level : (t.node q).level = l
  nodup : (qs ++ framePtrs fs).Nodup
  bound : ∀ p ∈ qs ++ framePtrs fs, 0 < p ∧ p < t.brk
  root : t.root = (plug fs (.leaf q [])).ptr
  innerOrder : t.innerOrder = 32

/-! ## First keys -/

section
variable {t t' : Tree K V} {root : Bool} {l : Nat} {T : Shape} {fs : Place} {i : Ptr × K}

theorem Sub.elems_ne_nil (h : Sub t false l T) : T.elems ≠ [] := by
  induction l generalizing T with
  | zero =>
    cases T with
    | leaf p es =>
      have := LeafOk.least h
      rw [elems_leaf]
      intro hes
      rw [hes] at this
      cases this
    | node p cs => exact h.elim
  | succ l ih =>
    cases T with
    | leaf p es => exact h.elim
    | node p cs =>
      cases cs with
      | nil =>
        have := h.1.least
        cases this
      | cons c cs =>
        rw [elems_node, List.flatMap_cons]
        intro hnil
        exact ih (h.2 c List.mem_cons_self) (List.append_eq_nil_iff.1 hnil).1

theorem minKey_node {p : Ptr} {c : Shape} {cs : List Shape} (hc : c.elems ≠ []) :
    minKey t (.node p (c :: cs)) = minKey t c := by
  unfold minKey
  rw [elems_node, List.flatMap_cons]
  cases he : c.elems with
  | nil => exact absurd he hc
  | cons e es => rfl

/-- The first key of a node comes from its first child. -/
theorem minKey_fill {f : Frame Ptr Ptr} (hT : T.elems ≠ []) (hf : ∀ c ∈ f.left, c.elems ≠ []) :
    minKey t (f.fill T) = frameMin t f (minKey t T) := by
  unfold Frame.fill frameMin
  cases hleft : f.left with
  | nil => exact minKey_node hT
  | cons c cs =>
    rw [hleft] at hf
    exact minKey_node (hf c List.mem_cons_self)

theorem item_fill {f : Frame Ptr Ptr} (hT : T.elems ≠ []) (hf : ∀ c ∈ f.left, c.elems ≠ []) :
    item t (f.fill T) = (f.ptr, frameMin t f (minKey t T)) := by
  unfold item
  rw [minKey_fill hT hf]
  rfl

/-! ## The parts of the heap that matter -/

theorem minKey_congr (hkey : ∀ e ∈ T.elems, t'.key e = t.key e) (hT : T.elems ≠ []) :
    minKey t' T = minKey t T := by
  unfold minKey
  apply hkey
  cases he : T.elems with
  | nil => exact absurd he hT
  | cons e es => exact List.mem_cons_self

theorem item_congr (hkey : ∀ e ∈ T.elems, t'.key e = t.key e) (hT : T.elems ≠ []) :
    item t' T = item t T := by
  unfold item
  rw [minKey_congr hkey hT]

theorem map_item_congr {cs : List Shape} (hkey : ∀ c ∈ cs, ∀ e ∈ c.elems, t'.key e = t.key e)
    (hne : ∀ c ∈ cs, c.elems ≠ []) : cs.map (item t') = cs.map (item t) :=
  List.map_congr_left fun c hc => item_congr (hkey c hc) (hne c hc)

theorem Sub.congr (h : Sub t root l T) (hnode : ∀ p ∈ T.ptrs, t'.node p = t.node p)
    (hkey : ∀ e ∈ T.elems, t'.key e = t.key e) : Sub t' root l T := by
  induction l generalizing T root with
  | zero =>
    cases T with
    | leaf p es =>
      show LeafOk _ _ _
      rw [hnode p (by simp)]
      exact h
    | node p cs => exact h.elim
  | succ l ih =>
    cases T with
    | leaf p es => exact h.elim
    | node p cs =>
      rw [ptrs_node] at hnode
      rw [elems_node] at hkey
      have hkeys : ∀ c ∈ cs, ∀ e ∈ c.elems, t'.key e = t.key e := fun c hc e he =>
        hkey e (List.mem_flatMap.2 ⟨c, hc, he⟩)
      refine ⟨?_, fun c hc => ih (h.2 c hc) (fun q hq => ?_) (hkeys c hc)⟩
      · rw [hnode p List.mem_cons_self, map_item_congr hkeys fun c hc => (h.2 c hc).elems_ne_nil]
        exact h.1
      · exact hnode q (List.mem_cons_of_mem _ (List.mem_flatMap.2 ⟨c, hc, hq⟩))

/-- The entries around a place. -/
def frameElems (fs : Place) : List Ptr := (before fs ++ after fs).flatMap Prod.snd

theorem mem_frameElems_cons {f : Frame Ptr Ptr} {e : Ptr} :
    e ∈ frameElems (f :: fs) ↔ (∃ c ∈ f.left ++ f.right, e ∈ c.elems) ∨ e ∈ frameElems fs := by
  unfold frameElems elems
  simp only [before, after, List.mem_flatMap, List.mem_append]
  constructor
  · rintro ⟨x, ((hx | ⟨c, hc, hx⟩) | (⟨c, hc, hx⟩ | hx)), he⟩
    · exact .inr ⟨x, .inl hx, he⟩
    · exact .inl ⟨c, .inl hc, x, hx, he⟩
    · exact .inl ⟨c, .inr hc, x, hx, he⟩
    · exact .inr ⟨x, .inr hx, he⟩
  · rintro (⟨c, hc | hc, x, hx, he⟩ | ⟨x, hx | hx, he⟩)
    · exact ⟨x, .inl (.inr ⟨c, hc, hx⟩), he⟩
    · exact ⟨x, .inr (.inl ⟨c, hc, hx⟩), he⟩
    · exact ⟨x, .inl (.inl hx), he⟩
    · exact ⟨x, .inr (.inr hx), he⟩

theorem frameMin_congr {f : Frame Ptr Ptr} {k : K}
    (hkey : ∀ c ∈ f.left, ∀ e ∈ c.elems, t'.key e = t.key e) (hne : ∀ c ∈ f.left, c.elems ≠ []) :
    frameMin t' f k = frameMin t f k := by
  unfold frameMin
  cases hleft : f.left with
  | nil => rfl
  | cons c cs =>
    have hc : c ∈ f.left := by
      rw [hleft]
      exact List.mem_cons_self
    exact minKey_congr (hkey c hc) (hne c hc)

theorem Around.congr (h : Around t l fs i) (hnode : ∀ p ∈ framePtrs fs, t'.node p = t.node p)
    (hkey : ∀ e ∈ frameElems fs, t'.key e = t.key e) : Around t' l fs i := by
  induction fs generalizing l i with
  | nil => trivial
  | cons f fs ih =>
    obtain ⟨hf, hsub, haround⟩ := h
    have hkeys : ∀ c ∈ f.left ++ f.right, ∀ e ∈ c.elems, t'.key e = t.key e := fun c hc e he =>
      hkey e (mem_frameElems_cons.2 (.inl ⟨c, hc, he⟩))
    have hne : ∀ c ∈ f.left ++ f.right, c.elems ≠ [] := fun c hc => (hsub c hc).elems_ne_nil
    have hleft : ∀ c ∈ f.left, c ∈ f.left ++ f.right := fun c hc => List.mem_append_left _ hc
    have hright : ∀ c ∈ f.right, c ∈ f.left ++ f.right := fun c hc => List.mem_append_right _ hc
    refine ⟨?_, fun c hc => (hsub c hc).congr (fun q hq => hnode q ?_) (hkeys c hc), ?_⟩
    · rw [hnode f.ptr List.mem_cons_self]
      unfold frameItems
      rw [map_item_congr (fun c hc => hkeys c (hleft c hc)) fun c hc => hne c (hleft c hc),
        map_item_congr (fun c hc => hkeys c (hright c hc)) fun c hc => hne c (hright c hc)]
      exact hf
    · exact List.mem_cons_of_mem _ (List.mem_append_left _ (List.mem_flatMap.2 ⟨c, hc, hq⟩))
    · rw [frameMin_congr (fun c hc => hkeys c (hleft c hc)) fun c hc => hne c (hleft c hc)]
      refine ih haround (fun q hq => hnode q ?_) fun e he =>
        hkey e (mem_frameElems_cons.2 (.inr he))
      exact List.mem_cons_of_mem _ (List.mem_append_right _ hq)

/-- A path only depends on the levels above the place. -/
theorem Along.congr {path path' : PathInfo} (h : Along path l fs)
    (hp : ∀ j, l < j → path'.n j = path.n j ∧ path'.p j = path.p j) : Along path' l fs := by
  induction fs generalizing l with
  | nil => trivial
  | cons f fs ih =>
    obtain ⟨hn, hpos⟩ := hp (l + 1) (Nat.lt_succ_self l)
    exact ⟨hn.trans h.1, hpos.trans h.2.1, ih h.2.2 fun j hj => hp j (by omega)⟩

/-- A tree in its place. -/
theorem Around.plugged (h : Around t l fs (item t T)) (hT : Sub t fs.isEmpty l T)
    (hne : fs ≠ [] → T.elems ≠ []) :
    Sub t true (l + fs.length) (plug fs T) := by
  induction fs generalizing l T with
  | nil => exact hT
  | cons f fs ih =>
    obtain ⟨hf, hsub, haround⟩ := h
    have hTne := hne (List.cons_ne_nil _ _)
    have hleft : ∀ c ∈ f.left, c.elems ≠ [] :=
      fun c hc => (hsub c (List.mem_append_left _ hc)).elems_ne_nil
    have hfill : Sub t fs.isEmpty (l + 1) (f.fill T) := by
      refine ⟨?_, fun c hc => ?_⟩
      · rw [List.map_append, List.map_cons]
        exact hf
      · rw [List.mem_append, List.mem_cons] at hc
        rcases hc with hc | rfl | hc
        · exact hsub c (List.mem_append_left _ hc)
        · exact hT
        · exact hsub c (List.mem_append_right _ hc)
    rw [plug, List.length_cons, show l + (fs.length + 1) = l + 1 + fs.length by omega]
    refine ih ?_ hfill fun _ => ?_
    · rw [item_fill hTne hleft]
      exact haround
    · unfold Frame.fill
      rw [elems_node, List.flatMap_append, List.flatMap_cons]
      intro hnil
      exact hTne (List.append_eq_nil_iff.1 (List.append_eq_nil_iff.1 hnil).2).1

end

end Bptree
