import DsAlgor.BplusTree.Above
import DsAlgor.BplusTree.Leaf

/-!
# The representation of a non-empty tree

`TreeOk t E L Gss`: the leaves of `t` are `L` from left to right and the inner levels above them are
`Gss`. A leaf carries the separator on its left (`LeafNode.lo`), which is at most its smallest key:
a deletion may leave it strictly smaller. `findLeaf_spec` is the descent to the leaf a key belongs
to, `mem_pairs_located` says that this leaf alone decides whether the key is stored.
-/

namespace BplusTree

open CArray Levels

/-- A leaf: the separator on its left, its address and its entries. -/
structure LeafNode where
  lo : WithBot Int
  ptr : Ptr
  kvs : List (Int × Int)

def LeafNode.item (a : LeafNode) : Item Int Ptr := (a.lo, a.ptr)

/-- All entries, from left to right. -/
def pairs (L : List LeafNode) : List (Int × Int) := L.flatMap LeafNode.kvs

/-- The items and the addresses of the leaf level. -/
def leafItems (L : List LeafNode) : List (Item Int Ptr) := L.map LeafNode.item

def leafPtrs (L : List LeafNode) : List Ptr := L.map LeafNode.ptr

/-- A leaf as the heap holds it. -/
structure LeafOk (t : Tree) (a : LeafNode) : Prop where
  type : t.heap.type a.ptr = .leaf
  body : LeafBody (t.heap.leaf a.ptr) a.kvs
  asc : Ascending a.kvs
  lo : ∀ e ∈ a.kvs, a.lo ≤ (e.1 : WithBot Int)
  data : ∀ e ∈ a.kvs, e.2 ≠ 0
  one : 1 ≤ a.kvs.length
  max : a.kvs.length ≤ t.entries

/-- The keys of `a` lie before the separator of `b`. -/
def Before (a b : LeafNode) : Prop := ∀ e ∈ a.kvs, (e.1 : WithBot Int) < b.lo

/-- The leaf level; only a leaf that is the root may have fewer than `(entries + 1) / 2` entries. -/
structure Leaves (t : Tree) (E : Nat → Ptr → Prop) (L : List LeafNode) (top : Bool) : Prop where
  leaf : ∀ a ∈ L, LeafOk t a
  min : top = false → ∀ a ∈ L, (t.entries + 1) / 2 ≤ a.kvs.length
  order : L.Pairwise Before
  first : ∀ a ∈ L.head?, a.lo = ⊥
  chain : ∃ e, E 0 e ∧ Chain t.heap.next (t.head 0) (leafPtrs L) e

/-- A non-empty tree (module doc). -/
structure TreeOk (t : Tree) (E : Nat → Ptr → Prop) (L : List LeafNode)
    (Gss : List (List (Group Int Ptr))) :
    Prop where
  leaves : Leaves t E L Gss.isEmpty
  above : Above t E 1 (leafItems L) Gss

@[simp] theorem LeafNode.item_fst (a : LeafNode) : a.item.1 = a.lo := rfl

@[simp] theorem LeafNode.item_snd (a : LeafNode) : a.item.2 = a.ptr := rfl

@[simp] theorem leafItems_append (A B : List LeafNode) :
    leafItems (A ++ B) = leafItems A ++ leafItems B := List.map_append

@[simp] theorem leafItems_cons (a : LeafNode) (L : List LeafNode) :
    leafItems (a :: L) = a.item :: leafItems L := rfl

@[simp] theorem leafItems_nil : leafItems [] = [] := rfl

@[simp] theorem leafPtrs_append (A B : List LeafNode) :
    leafPtrs (A ++ B) = leafPtrs A ++ leafPtrs B :=
  List.map_append

@[simp] theorem leafPtrs_cons (a : LeafNode) (L : List LeafNode) :
    leafPtrs (a :: L) = a.ptr :: leafPtrs L := rfl

@[simp] theorem leafPtrs_nil : leafPtrs [] = [] := rfl

theorem map_snd_leafItems (L : List LeafNode) : (leafItems L).map Prod.snd = leafPtrs L := by
  simp [leafItems, leafPtrs, Function.comp_def]

@[simp] theorem pairs_append (A B : List LeafNode) : pairs (A ++ B) = pairs A ++ pairs B := by
  simp [pairs]

@[simp] theorem pairs_cons (a : LeafNode) (L : List LeafNode) :
    pairs (a :: L) = a.kvs ++ pairs L := rfl

@[simp] theorem pairs_nil : pairs [] = [] := rfl

theorem mem_pairs {L : List LeafNode} {e : Int × Int} : e ∈ pairs L ↔ ∃ a ∈ L, e ∈ a.kvs := by
  simp [pairs]

/-- The leaf an item belongs to. -/
theorem leafItems_eq_mid {L : List LeafNode} {X Y : List (Item Int Ptr)} {c : Item Int Ptr}
    (h : leafItems L = X ++ c :: Y) :
    ∃ L₁ a L₂, L = L₁ ++ a :: L₂ ∧ leafItems L₁ = X ∧ a.item = c ∧ leafItems L₂ = Y := by
  obtain ⟨L₁, L', rfl, h1, h2⟩ := List.map_eq_append_iff.1 h
  obtain ⟨a, L₂, rfl, h3, h4⟩ := List.map_eq_cons_iff.1 h2
  exact ⟨L₁, a, L₂, rfl, h1, h3, h4⟩

/-! ## Frame rules -/

section
variable {t t' : Tree} {E : Nat → Ptr → Prop} {S Q : List Ptr} {top : Bool} {L : List LeafNode}

theorem LeafOk.frame {a : LeafNode} (h : LeafOk t a) (hf : Frame t t' S Q) (ha : a.ptr < t.heap.brk)
    (hS : a.ptr ∉ S) : LeafOk t' a where
  type := by rw [hf.type _ ha hS]; exact h.type
  body := by rw [hf.leaf _ ha hS]; exact h.body
  asc := h.asc
  lo := h.lo
  data := h.data
  one := h.one
  max := by rw [hf.entries]; exact h.max

/-- From `t` to `t'` the leaves outside of `L` stay as they are. -/
structure Spares (t t' : Tree) (L : List LeafNode) : Prop where
  entries : t'.entries = t.entries
  brk : t.heap.brk ≤ t'.heap.brk
  stays : ∀ p < t.heap.brk, t.heap.type p = .leaf → p ∉ leafPtrs L →
    t'.heap.type p = .leaf ∧ t'.heap.next p = t.heap.next p ∧ t'.heap.leaf p = t.heap.leaf p

theorem Frame.spares (hf : Frame t t' S Q)
    (hS : ∀ p ∈ S, p ∈ leafPtrs L ∨ t.heap.type p = .nonLeaf) :
    Spares t t' L := by
  refine ⟨hf.entries, hf.brk, fun p hp ht hL => ?_⟩
  have hpS : p ∉ S := by
    intro hmem
    rcases hS p hmem with hmem | hno
    · exact hL hmem
    · rw [ht] at hno
      cases hno
  exact ⟨(hf.type p hp hpS).trans ht, hf.next p hp hpS, hf.leaf p hp hpS⟩

theorem Spares.trans {t'' : Tree} (h : Spares t t' L) (h' : Spares t' t'' []) : Spares t t'' L := by
  refine ⟨h'.entries.trans h.entries, h.brk.trans h'.brk, fun p hp ht hL => ?_⟩
  obtain ⟨ht', hnext, hleaf⟩ := h.stays p hp ht hL
  obtain ⟨ht'', hnext', hleaf'⟩ := h'.stays p (hp.trans_le h.brk) ht' List.not_mem_nil
  exact ⟨ht'', hnext'.trans hnext, hleaf'.trans hleaf⟩

/-- Leaves that are not in the tree any more. -/
structure Detached (t : Tree) (D : List LeafNode) : Prop where
  leaf : ∀ d ∈ D, LeafOk t d
  bound : ∀ d ∈ D, 0 < d.ptr ∧ d.ptr < t.heap.brk

theorem Detached.nil (t : Tree) : Detached t [] := ⟨fun _ h => (nomatch h), fun _ h => (nomatch h)⟩

theorem Leaves.frame (h : Leaves t E L top) (hf : Frame t t' S Q) (hh : t'.head 0 = t.head 0)
    (hS : ∀ p ∈ leafPtrs L, p < t.heap.brk ∧ p ∉ S) : Leaves t' E L top where
  leaf a ha := by
    have := hS a.ptr (List.mem_map_of_mem ha)
    exact (h.leaf a ha).frame hf this.1 this.2
  min ht := by rw [hf.entries]; exact h.min ht
  order := h.order
  first := h.first
  chain := by
    obtain ⟨e, he, hc⟩ := h.chain
    rw [hh]
    exact ⟨e, he, hc.congr fun q hq => hf.next q (hS q hq).1 (hS q hq).2⟩

/-- A leaf in the place of one with the same separator. -/
theorem first_replaced {A L M : List LeafNode} {a b : LeafNode}
    (hfirst : ∀ x ∈ (A ++ a :: L).head?, x.lo = ⊥) (hlo : b.lo = a.lo) :
    ∀ x ∈ (A ++ b :: M).head?, x.lo = ⊥ := by
  intro x hx
  cases A with
  | nil =>
    have hb : b = x := by simpa using hx
    rw [← hb, hlo]
    exact hfirst a (by simp)
  | cons y A => exact hfirst x (by simpa using hx)

theorem Leaves.weaken (h : Leaves t E L false) (top : Bool) : Leaves t E L top :=
  { h with min := fun _ => h.min rfl }

theorem Leaves.take (h : Leaves t E L top) (m : Nat) :
    Leaves t (fun _ _ => True) (L.take m) top where
  leaf a ha := h.leaf a (List.mem_of_mem_take ha)
  min ht a ha := h.min ht a (List.mem_of_mem_take ha)
  order := h.order.sublist (List.take_sublist _ _)
  first a ha := by
    refine h.first a ?_
    cases L with
    | nil => simp at ha
    | cons b L =>
      cases m with
      | zero => simp at ha
      | succ m => simpa using ha
  chain := by
    obtain ⟨e, -, hc⟩ := h.chain
    rw [← List.take_append_drop m L, leafPtrs_append] at hc
    obtain ⟨q, hq, -⟩ := Chain.append.1 hc
    exact ⟨q, trivial, hq⟩

/-- The leaves `M` are replaced by `N`. -/
theorem Leaves.replace {top' : Bool} {A M N B : List LeafNode} (h : Leaves t E (A ++ (M ++ B)) top)
    (hf : Frame t t' S Q) (hAB : ∀ x ∈ A ++ B, x.ptr < t.heap.brk ∧ x.ptr ∉ S)
    (hN : ∀ x ∈ N, LeafOk t' x)
    (hmin : top' = false → (top = false ∨ A ++ B = []) ∧
      ∀ x ∈ N, (t.entries + 1) / 2 ≤ x.kvs.length)
    (hord : (A ++ (N ++ B)).Pairwise Before) (hfirst : ∀ a ∈ (A ++ (N ++ B)).head?, a.lo = ⊥)
    (hc : ∀ e, Chain t.heap.next (t.head 0) (leafPtrs (A ++ (M ++ B))) e →
      Chain t'.heap.next (t'.head 0) (leafPtrs (A ++ (N ++ B))) e) :
    Leaves t' E (A ++ (N ++ B)) top' := by
  refine ⟨fun x hx => ?_, fun ht x hx => ?_, hord, hfirst, ?_⟩
  · rcases mem_around_or hx with hx | hx
    · exact (h.leaf x (mem_around hx)).frame hf (hAB x hx).1 (hAB x hx).2
    · exact hN x hx
  · rw [hf.entries]
    obtain ⟨h1, h2⟩ := hmin ht
    rcases mem_around_or hx with hx | hx
    · rcases h1 with h1 | h1
      · exact h.min h1 x (mem_around hx)
      · rw [h1] at hx; simp at hx
    · exact h2 x hx
  · obtain ⟨e, he, hch⟩ := h.chain
    exact ⟨e, he, hc e hch⟩

/-- The order of the leaves when `M` becomes `N`: the separators of `N` are not before those of `M`,
and its keys stay before the leaves on the right. -/
theorem order_replace {A M N B : List LeafNode} (h : (A ++ (M ++ B)).Pairwise Before)
    (hN : N.Pairwise Before) (hlo : ∀ n ∈ N, ∃ m ∈ M, m.lo ≤ n.lo)
    (hhi : ∀ n ∈ N, ∀ b ∈ B, Before n b) : (A ++ (N ++ B)).Pairwise Before := by
  obtain ⟨hA, hMB, hAMB⟩ := List.pairwise_append.1 h
  obtain ⟨-, hB, -⟩ := List.pairwise_append.1 hMB
  refine List.pairwise_append.2 ⟨hA, List.pairwise_append.2 ⟨hN, hB, hhi⟩, fun a ha x hx => ?_⟩
  rcases List.mem_append.1 hx with hx | hx
  · obtain ⟨m, hm, hle⟩ := hlo x hx
    exact fun e he => (hAMB a ha m (by simp [hm]) e he).trans_le hle
  · exact hAMB a ha x (by simp [hx])

/-- The separators ascend since they lie between the keys. -/
theorem sorted_of_order (hl : ∀ a ∈ L, (∀ e ∈ a.kvs, a.lo ≤ (e.1 : WithBot Int)) ∧ a.kvs ≠ [])
    (ho : L.Pairwise Before) : Sorted (leafItems L) := by
  refine List.pairwise_map.2 (List.Pairwise.imp_of_mem (fun {a b} ha _ hab => ?_) ho)
  obtain ⟨h1, h2⟩ := hl a ha
  obtain ⟨e, K, hK⟩ := List.exists_cons_of_ne_nil h2
  have he : e ∈ a.kvs := by simp [hK]
  exact (h1 e he).trans_lt (hab e he)

theorem LeafOk.ne_nil {a : LeafNode} (h : LeafOk t a) : a.kvs ≠ [] :=
  List.ne_nil_of_length_pos h.one

theorem Leaves.sorted (h : Leaves t E L top) : Sorted (leafItems L) :=
  sorted_of_order (fun a ha => ⟨(h.leaf a ha).lo, (h.leaf a ha).ne_nil⟩) h.order

/-- The stored keys ascend from leaf to leaf. -/
theorem Leaves.ascending (h : Leaves t E L top) : Ascending (pairs L) := by
  refine List.pairwise_flatMap.2 ⟨fun a ha => (h.leaf a ha).asc, ?_⟩
  refine List.Pairwise.imp_of_mem (fun {a b} _ hb hab x hx y hy => ?_) h.order
  exact WithBot.coe_lt_coe.1 ((hab x hx).trans_le ((h.leaf b hb).lo y hy))

end

/-! ## The leaf of a key -/

section
variable {t : Tree} {E : Nat → Ptr → Prop} {L L₁ L₂ : List LeafNode}
  {Gss : List (List (Group Int Ptr))}
  {a : LeafNode} {k : Int}

/-- `a` is the leaf the key `k` belongs to. -/
def LeafLocated (k : Int) (L₁ : List LeafNode) (a : LeafNode) (L₂ : List LeafNode) : Prop :=
  Located k (leafItems L₁) a.item (leafItems L₂)

/-- Only the leaf a key belongs to can hold it. -/
theorem mem_pairs_located {top : Bool} (h : Leaves t E (L₁ ++ a :: L₂) top)
    (hl : LeafLocated k L₁ a L₂) {d : Int} : (k, d) ∈ pairs (L₁ ++ a :: L₂) ↔ (k, d) ∈ a.kvs := by
  refine ⟨fun hm => ?_, fun hm => mem_pairs.2 ⟨a, by simp, hm⟩⟩
  obtain ⟨b, hb, he⟩ := mem_pairs.1 hm
  rcases List.mem_append.1 hb with hb | hb
  · have := (List.pairwise_append.1 h.order).2.2 b hb a (by simp) (k, d) he
    exact absurd hl.here (not_le.2 this)
  · rcases List.mem_cons.1 hb with rfl | hb
    · exact he
    · have h1 := hl.after b.item (List.mem_map_of_mem hb)
      exact absurd ((h.leaf b (by simp [hb])).lo (k, d) he) (not_le.2 h1)

theorem Above.childFor_located {i : Nat} {items : List (Item Int Ptr)} (h : Above t E i items Gss) :
    ∀ Gs ∈ Gss, ∀ g ∈ Gs, ∀ I₁ c I₂, g.items = I₁ ++ c :: I₂ → Sorted g.items →
      Located k I₁ c I₂ → childFor t.heap k g.ptr = c.2 := by
  induction Gss generalizing i items with
  | nil => simp
  | cons Gs rest ih =>
    intro Gs' hGs' g hg I₁ c I₂ hI hs hl
    rcases List.mem_cons.1 hGs' with rfl | hGs'
    · have hb := (h.levelOk.node g hg).body
      rw [hI] at hb hs
      exact childFor_eq hb hs hl
    · exact ih h.upper Gs' hGs' g hg I₁ c I₂ hI hs hl

/-- The nodes on the way down are inner nodes. -/
theorem Above.inner {i : Nat} {items : List (Item Int Ptr)} (h : Above t E i items Gss)
    (hk : ∀ c I, items = c :: I → c.1 = ⊥) :
    ∀ m < Gss.length, (childFor t.heap k)^[m] t.root ≠ 0 ∧
      t.heap.type ((childFor t.heap k)^[m] t.root) = .nonLeaf := by
  induction Gss generalizing i items with
  | nil => simp
  | cons Gs rest ih =>
    have hne := h.tower.2.1
    have hk' : ∀ c I, heads Gs = c :: I → c.1 = ⊥ := by
      intro c I hc
      obtain ⟨g, Gs', rfl, rfl, -⟩ := List.map_eq_cons_iff.1 hc
      obtain ⟨d, J, hJ⟩ := List.exists_cons_of_ne_nil (hne g List.mem_cons_self)
      have := hk d (J ++ flat Gs') (by rw [← h.flat_eq]; simp [hJ])
      rwa [← lo_of_items hJ] at this
    intro m hm
    by_cases hlt : m < rest.length
    · exact ih h.upper hk' m hlt
    · obtain rfl : m = rest.length := by simp only [List.length_cons] at hm; omega
      obtain ⟨X, c, Y, hX, -, hit⟩ := h.upper.tower.descend (k := k)
        h.upper.sorted (fun c I hc => by rw [hk' c I hc]; exact bot_le) h.upper.childFor_located
      obtain ⟨A, g, B, rfl, -, rfl, -⟩ := heads_eq_mid hX
      rw [hit]
      refine ⟨(h.bound g.ptr (by simp)).1.ne', ?_⟩
      exact (h.levelOk.node g (by simp)).type

theorem Leaves.lo_first {top : Bool} (h : Leaves t E L top) : ∀ c I, leafItems L = c :: I →
    c.1 = ⊥ := by
  intro c I hc
  obtain ⟨a, L', rfl, rfl, -⟩ := List.map_eq_cons_iff.1 hc
  exact h.first a (by simp)

/-- **The descent** ends in the leaf the key belongs to. -/
theorem findLeaf_spec (h : TreeOk t E L Gss) (hfuel : Gss.length < MAX_LEVEL) (k : Int) :
    ∃ L₁ a L₂, L = L₁ ++ a :: L₂ ∧ LeafLocated k L₁ a L₂ ∧
      findLeaf t.heap k MAX_LEVEL t.root = .ok a.ptr ∧ a.ptr ≠ 0 := by
  obtain ⟨X, c, Y, hX, hl, hit⟩ := h.above.tower.descend (k := k)
    h.above.sorted (fun c I hc => by rw [h.leaves.lo_first c I hc]; exact bot_le)
    h.above.childFor_located
  obtain ⟨L₁, a, L₂, rfl, rfl, rfl, rfl⟩ := leafItems_eq_mid hX
  have h0 : a.ptr ≠ 0 := (h.above.bound a.ptr (by simp)).1.ne'
  refine ⟨L₁, a, L₂, rfl, hl, ?_, h0⟩
  rw [findLeaf_iterate hfuel (h.above.inner h.leaves.lo_first) (by rw [hit]; exact h0), hit]
  · rfl
  · rw [hit]
    exact (h.leaves.leaf a (by simp)).type

end

end BplusTree
