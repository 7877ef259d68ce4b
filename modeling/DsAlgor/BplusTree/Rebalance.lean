import DsAlgor.BplusTree.Split

/-!
# Borrowing and merging inner nodes

The four blocks of `non_leaf_remove` that use a sibling, read as changes of two neighbours `x`, `y`
below one parent: `Borrowed` moves one child over the border between them and writes the parent's
key between them, `Merged` gives all children to `x`. In both the child that is removed is already
gone from the item lists.
-/

namespace BplusTree

open CArray Levels

/-- The children `X` of `x` and `Y` of `y` after one child moved over the border; key `i` of the
parent is the separator left of `Y`. -/
structure Borrowed (h h' : Heap) (x y parent : Ptr) (X Y : List (Item Int Ptr)) (i : Nat) :
    Prop where
  left : Body (h'.nonLeaf x) X
  right : Body (h'.nonLeaf y) Y
  key : ∃ k : Int, (∀ c ∈ Y.head?, c.1 = (k : WithBot Int)) ∧
    h'.nonLeaf parent =
      { h.nonLeaf parent with key := Function.update (h.nonLeaf parent).key i k }
  nonLeaf : ∀ p, p ≠ x → p ≠ y → p ≠ parent → h'.nonLeaf p = h.nonLeaf p
  leftParent : ∀ c ∈ X, h'.parent c.2 = x
  rightParent : ∀ c ∈ Y, h'.parent c.2 = y
  parent : ∀ p, p ∉ (X ++ Y).map Prod.snd → h'.parent p = h.parent p
  leaf : h'.leaf = h.leaf
  type : h'.type = h.type
  next : h'.next = h.next
  brk : h'.brk = h.brk

/-- The children `X` of `x` after `y` was merged into it. -/
structure Merged (h h' : Heap) (x y : Ptr) (X : List (Item Int Ptr)) : Prop where
  body : Body (h'.nonLeaf x) X
  nonLeaf : ∀ p, p ≠ x → h'.nonLeaf p = h.nonLeaf p
  children : ∀ c ∈ X, h'.parent c.2 = x
  parent : ∀ p, p ∉ X.map Prod.snd → h'.parent p = h.parent p
  leaf : h'.leaf = h.leaf
  type : h'.type = h.type
  next : h'.next = Function.update h.next x (h.next y)
  brk : h'.brk = h.brk

section
variable {h : Heap} {node sibling parent : Ptr} {I S : List (Item Int Ptr)} {e : Item Int Ptr}
  {remove i : Nat}

variable (hn : Body (h.nonLeaf node) I)
include hn

theorem borrowLeft_spec (hs : Body (h.nonLeaf sibling) (S ++ [e])) (hS : S ≠ [])
    (hr : remove + 1 < I.length)
    (hk : ∀ c ∈ I.head?, c.1 = ((h.nonLeaf parent).key i : WithBot Int)) (hns : node ≠ sibling)
    (hnp : node ≠ parent) (hsp : sibling ≠ parent) (hnd : ((S ++ e :: I).map Prod.snd).Nodup)
    (hnc : ∀ c ∈ I, h.parent c.2 = node) (hsc : ∀ c ∈ S, h.parent c.2 = sibling) :
    Borrowed h (borrowLeft h parent sibling node remove i) sibling node parent S
      (e :: I.eraseIdx (remove + 1)) i := by
  have hlast : (h.nonLeaf sibling).subPtr ((h.nonLeaf sibling).children - 1) = e.2 := by
    refine hs.sub_at ?_
    rw [hs.children]
    simp
  have hlastKey : ((h.nonLeaf sibling).key ((h.nonLeaf sibling).children - 2) : WithBot Int) =
    e.1 := by
    refine hs.key_at ?_
    have := List.length_pos_of_ne_nil hS
    rw [hs.children, List.length_append, List.length_singleton,
      show S.length + 1 - 2 + 1 = S.length by omega]
    simp
  have hnd' := List.nodup_append.1 (by simpa using hnd :
    (S.map Prod.snd ++ e.2 :: I.map Prod.snd).Nodup)
  have heI : e.2 ∉ I.map Prod.snd := (List.nodup_cons.1 hnd'.2.1).1
  have heS : e.2 ∉ S.map Prod.snd := fun hm => hnd'.2.2 _ hm _ List.mem_cons_self rfl
  refine ⟨?_, ?_, ⟨(h.nonLeaf sibling).key ((h.nonLeaf sibling).children - 2), ?_, ?_⟩,
    fun p h1 h2 h3 => ?_, fun c hc => ?_, fun c hc => ?_, fun p hp => ?_, rfl, rfl, rfl, rfl⟩
  · simpa [borrowLeft, Heap.setNonLeaf, Heap.setParent] using hs.dropLast
  · have := hn.borrow_left hr (d := e) hk
    simpa [borrowLeft, Heap.setNonLeaf, Heap.setParent, hns, hnp, hlast] using this
  · intro c hc
    obtain rfl : e = c := by simpa using hc
    exact hlastKey.symm
  · simp [borrowLeft, Heap.setNonLeaf, Heap.setParent, hsp.symm]
  · simp [borrowLeft, Heap.setNonLeaf, Heap.setParent, h1, h2, h3]
  · have hce : c.2 ≠ e.2 := fun he => heS (he ▸ List.mem_map_of_mem hc)
    simp [borrowLeft, Heap.setNonLeaf, Heap.setParent, hlast, hce, hsc c hc]
  · rcases List.mem_cons.1 hc with rfl | hc
    · simp [borrowLeft, Heap.setNonLeaf, Heap.setParent, hlast]
    · have hc' := List.mem_of_mem_eraseIdx hc
      have hce : c.2 ≠ e.2 := fun he => heI (he ▸ List.mem_map_of_mem hc')
      simp [borrowLeft, Heap.setNonLeaf, Heap.setParent, hlast, hce, hnc c hc']
  · have hpe : p ≠ e.2 := by
      rintro rfl
      exact hp (by simp)
    simp [borrowLeft, Heap.setNonLeaf, Heap.setParent, hlast, hpe]

theorem borrowRight_spec (hs : Body (h.nonLeaf sibling) (e :: S)) (hr : remove + 1 < I.length)
    (hk : e.1 = ((h.nonLeaf parent).key i : WithBot Int)) (hns : node ≠ sibling)
    (hnp : node ≠ parent) (hsp : sibling ≠ parent) (hnd : ((I ++ e :: S).map Prod.snd).Nodup)
    (hnc : ∀ c ∈ I, h.parent c.2 = node) (hsc : ∀ c ∈ S, h.parent c.2 = sibling) :
    Borrowed h (borrowRight h parent sibling node remove i) node sibling parent
      (I.eraseIdx (remove + 1) ++ [e]) S i := by
  have hfirst : (h.nonLeaf sibling).subPtr 0 = e.2 := hs.sub_at (by simp)
  have hne : I.eraseIdx (remove + 1) ≠ [] := by
    apply List.ne_nil_of_length_pos
    rw [List.length_eraseIdx_of_lt hr]
    omega
  have hnd' := List.nodup_append.1 (by simpa using hnd :
    (I.map Prod.snd ++ e.2 :: S.map Prod.snd).Nodup)
  have heS : e.2 ∉ S.map Prod.snd := (List.nodup_cons.1 hnd'.2.1).1
  have heI : e.2 ∉ I.map Prod.snd := fun hm => hnd'.2.2 _ hm _ List.mem_cons_self rfl
  refine ⟨?_, ?_, ⟨(h.nonLeaf sibling).key 0, ?_, ?_⟩, fun p h1 h2 h3 => ?_, fun c hc => ?_,
    fun c hc => ?_, fun p hp => ?_, rfl, rfl, rfl, rfl⟩
  · have := (hn.erase hr).snoc hne e.2 ((h.nonLeaf parent).key i)
    rw [← hk] at this
    simpa [borrowRight, Heap.setNonLeaf, Heap.setParent, hns, hnp, hfirst] using this
  · simpa [borrowRight, Heap.setNonLeaf, Heap.setParent] using hs.tail
  · intro c hc
    refine (hs.key_at ?_).symm
    simpa [List.head?_eq_getElem?] using hc
  · simp [borrowRight, Heap.setNonLeaf, Heap.setParent, hsp.symm]
  · simp [borrowRight, Heap.setNonLeaf, Heap.setParent, h1, h2, h3]
  · rcases List.mem_append.1 hc with hc | hc
    · have hc' := List.mem_of_mem_eraseIdx hc
      have hce : c.2 ≠ e.2 := fun he => heI (he ▸ List.mem_map_of_mem hc')
      simp [borrowRight, Heap.setNonLeaf, Heap.setParent, hfirst, hce, hnc c hc']
    · rw [List.mem_singleton.1 hc]
      simp [borrowRight, Heap.setNonLeaf, Heap.setParent, hfirst]
  · have hce : c.2 ≠ e.2 := fun he => heS (he ▸ List.mem_map_of_mem hc)
    simp [borrowRight, Heap.setNonLeaf, Heap.setParent, hfirst, hce, hsc c hc]
  · have hpe : p ≠ e.2 := by
      rintro rfl
      exact hp (by simp)
    simp [borrowRight, Heap.setNonLeaf, Heap.setParent, hfirst, hpe]

theorem mergeLeft_spec (hs : Body (h.nonLeaf sibling) S) (hS : S ≠ [])
    (hr : remove + 1 < I.length)
    (hk : ∀ c ∈ I.head?, c.1 = ((h.nonLeaf parent).key i : WithBot Int))
    (hsc : ∀ c ∈ S, h.parent c.2 = sibling) :
    Merged h (mergeLeft h parent sibling node remove i) sibling node
      (S ++ I.eraseIdx (remove + 1)) := by
  have hseg : (segment (h.nonLeaf node).subPtr 0 (h.nonLeaf node).children).eraseIdx (remove + 1) =
      (I.eraseIdx (remove + 1)).map Prod.snd := by
    rw [segment_eq hn.sub (by simp [hn.children]), List.drop_zero, List.eraseIdx_map]
  refine ⟨?_, fun p hp => ?_, fun c hc => ?_, fun p hp => ?_, ?_, ?_, ?_, ?_⟩
  · have := hs.append_skip hn hS hr hk
    simpa [mergeLeft, Heap.setNonLeaf, Heap.setNext] using this
  · simp [mergeLeft, Heap.setNonLeaf, Heap.setNext, hp]
  · simp only [mergeLeft, Heap.setNext, reparent_parent, hseg]
    split_ifs with hm
    · rfl
    · rcases List.mem_append.1 hc with hc | hc
      · exact hsc c hc
      · exact absurd (List.mem_map_of_mem hc) hm
  · simp only [mergeLeft, Heap.setNext, reparent_parent, hseg]
    rw [if_neg fun hm => hp (by rw [List.map_append]; exact List.mem_append_right _ hm)]
    rfl
  · simp [mergeLeft, Heap.setNonLeaf, Heap.setNext]
  · simp [mergeLeft, Heap.setNonLeaf, Heap.setNext]
  · simp [mergeLeft, Heap.setNonLeaf, Heap.setNext]
  · simp [mergeLeft, Heap.setNonLeaf, Heap.setNext]

theorem mergeRight_spec (hs : Body (h.nonLeaf sibling) S) (hS : S ≠ [])
    (hr : remove + 1 < I.length)
    (hk : ∀ c ∈ S.head?, c.1 = ((h.nonLeaf parent).key i : WithBot Int))
    (hnc : ∀ c ∈ I, h.parent c.2 = node) :
    Merged h (mergeRight h parent sibling node remove i) node sibling
      (I.eraseIdx (remove + 1) ++ S) := by
  have hseg : segment (h.nonLeaf sibling).subPtr 0 (h.nonLeaf sibling).children =
    S.map Prod.snd := by
    rw [segment_eq hs.sub (by simp [hs.children]), List.drop_zero]
  have hne : I.eraseIdx (remove + 1) ≠ [] := by
    apply List.ne_nil_of_length_pos
    rw [List.length_eraseIdx_of_lt hr]
    omega
  refine ⟨?_, fun p hp => ?_, fun c hc => ?_, fun p hp => ?_, ?_, ?_, ?_, ?_⟩
  · have := (hn.erase hr).append hs hne hS hk
    simpa [mergeRight, Heap.setNonLeaf, Heap.setNext] using this
  · simp [mergeRight, Heap.setNonLeaf, Heap.setNext, hp]
  · simp only [mergeRight, Heap.setNext, reparent_parent, hseg]
    split_ifs with hm
    · rfl
    · rcases List.mem_append.1 hc with hc | hc
      · exact hnc c (List.mem_of_mem_eraseIdx hc)
      · exact absurd (List.mem_map_of_mem hc) hm
  · simp only [mergeRight, Heap.setNext, reparent_parent, hseg]
    rw [if_neg fun hm => hp (by rw [List.map_append]; exact List.mem_append_right _ hm)]
    rfl
  · simp [mergeRight, Heap.setNonLeaf, Heap.setNext]
  · simp [mergeRight, Heap.setNonLeaf, Heap.setNext]
  · simp [mergeRight, Heap.setNonLeaf, Heap.setNext]
  · simp [mergeRight, Heap.setNonLeaf, Heap.setNext]

end

end BplusTree
