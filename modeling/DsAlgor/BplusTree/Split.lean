import DsAlgor.BplusTree.Above

/-!
# Dividing a full inner node

`splitNonLeaf_spec`: the block `node full` of `non_leaf_insert` never fails its assertion and leaves
the items after the insertion divided between the node and its new sibling, with every moved child
pointing to the sibling.
-/

namespace BplusTree

open CArray Levels

/-! ## Heap writes -/

section
variable (h : Heap) (p : Ptr) (cs : List Ptr)

@[simp] theorem reparent_type : (h.reparent p cs).type = h.type := by
  induction cs generalizing h with
  | nil => rfl
  | cons c cs ih => exact (ih _).trans rfl

@[simp] theorem reparent_next : (h.reparent p cs).next = h.next := by
  induction cs generalizing h with
  | nil => rfl
  | cons c cs ih => exact (ih _).trans rfl

@[simp] theorem reparent_nonLeaf : (h.reparent p cs).nonLeaf = h.nonLeaf := by
  induction cs generalizing h with
  | nil => rfl
  | cons c cs ih => exact (ih _).trans rfl

@[simp] theorem reparent_leaf : (h.reparent p cs).leaf = h.leaf := by
  induction cs generalizing h with
  | nil => rfl
  | cons c cs ih => exact (ih _).trans rfl

@[simp] theorem reparent_brk : (h.reparent p cs).brk = h.brk := by
  induction cs generalizing h with
  | nil => rfl
  | cons c cs ih => exact (ih _).trans rfl

theorem reparent_parent (q : Ptr) :
    (h.reparent p cs).parent q = if q ∈ cs then p else h.parent q := by
  induction cs generalizing h with
  | nil => simp [Heap.reparent]
  | cons c cs ih =>
    rw [show h.reparent p (c :: cs) = (h.setParent c p).reparent p cs from rfl, ih]
    by_cases hq : q ∈ cs
    · simp [hq]
    · rw [if_neg hq]
      simp only [Heap.setParent, Function.update_apply, List.mem_cons, hq, or_false]

end

theorem segment_eq {a : Nat → Ptr} {l : List Ptr} (h : Rep a l) {i n : Nat}
    (hn : i + n = l.length) :
    segment a i n = l.drop i := by
  rw [segment, h.segment (by omega), List.take_of_length_le (by simp; omega)]

/-! ## Items after the division -/

theorem drop_insertIdx_of_lt {α : Type*} {l : List α} {i m : Nat} {x : α} (hi : i < m)
    (hl : i ≤ l.length) : (l.insertIdx i x).drop m = l.drop (m - 1) := by
  apply List.ext_getElem?
  intro j
  rw [List.getElem?_drop, List.getElem?_drop, getElem?_insertIdx_lt hl, if_neg (by omega),
    if_neg (by omega), show m + j - 1 = m - 1 + j by omega]

theorem mem_drop_insertIdx {α : Type*} {l : List α} {i m : Nat} {x y : α} (hi : m ≤ i)
    (hl : i ≤ l.length) : y ∈ (l.insertIdx i x).drop m ↔ y = x ∨ y ∈ l.drop m := by
  have : (l.insertIdx i x).drop m = (l.drop m).insertIdx (i - m) x := by
    apply List.ext_getElem?
    intro j
    rw [List.getElem?_drop, getElem?_insertIdx_lt hl, getElem?_insertIdx_lt (by simp; omega),
      List.getElem?_drop, List.getElem?_drop]
    split_ifs <;> first | rfl | omega | (congr 1; omega)
  rw [this, List.mem_insertIdx (by simp; omega)]

/-! ## The three cases -/

section
variable {order : Nat} {h : Heap} {node sibling sub : Ptr} {key : Int} {ins s : Nat}
  {I : List (Item Int Ptr)}

/-- What a division leaves in the heap: `J` are the items after the insertion, of which the first
`s + 1` stay. -/
structure Divided (h h' : Heap) (node sibling sub : Ptr) (J : List (Item Int Ptr)) (s : Nat)
    (splitKey : Int) : Prop where
  left : Body (h'.nonLeaf node) (J.take (s + 1))
  right : Body (h'.nonLeaf sibling) (J.drop (s + 1))
  splitKey : ∃ c, J[s + 1]? = some c ∧ c.1 = (splitKey : WithBot Int)
  nonLeaf : ∀ p, p ≠ node → p ≠ sibling → h'.nonLeaf p = h.nonLeaf p
  parent : ∀ p, h'.parent p =
    if p ∈ (J.drop (s + 1)).map Prod.snd then sibling else if p = sub then node else h.parent p
  leaf : h'.leaf = h.leaf
  type : h'.type = h.type
  next : h'.next = h.next
  brk : h'.brk = h.brk

theorem splitBefore_spec (hb : Body (h.nonLeaf node) I) (hI : I.length = order) (hs : s + 1 ≤ order)
    (hins : ins < s) (hns : node ≠ sibling) (hsub : sub ∉ I.map Prod.snd) :
    Divided h (splitBefore order h node sibling sub key ins s).2 node sibling sub
      (I.insertIdx (ins + 1) ((key : WithBot Int), sub)) s
      (splitBefore order h node sibling sub key ins s).1 := by
  have hne : I ≠ [] := by rintro rfl; simp at hI; omega
  have hJ : (I.insertIdx (ins + 1) ((key : WithBot Int), sub)).drop (s + 1) = I.drop s := by
    rw [drop_insertIdx_of_lt (by omega) (by omega), Nat.add_sub_cancel]
  have hseg : segment (h.nonLeaf node).subPtr s (order - 1 - s + 1) = (I.drop s).map Prod.snd := by
    rw [segment_eq hb.sub (by rw [List.length_map]; omega), List.map_drop]
  constructor
  case left =>
    simp only [splitBefore, Heap.setParent, Heap.setNonLeaf, Function.update_self]
    exact hb.split_insert (by omega) hins
  case right =>
    simp only [splitBefore, Heap.setParent, Heap.setNonLeaf, reparent_nonLeaf,
      Function.update_of_ne hns.symm, Function.update_self]
    refine hb.split_moved hne (by omega) (by simp only; omega) (fun j hj => ?_) fun j hj => ?_
    · rw [if_neg (by omega), if_neg (by omega)]
      simp only [copy_apply, Function.update_apply]
      split_ifs with h1 h2
      · congr 1; omega
      · congr 1; omega
      · omega
    · rw [if_neg (by omega), if_neg (by omega)]
      simp only [copy_apply]
      rw [if_pos (by omega)]
      congr 1; omega
  case splitKey =>
    refine hb.split_key (by omega) (by omega) ?_
    simp only [splitBefore]
    rw [if_neg (by omega), if_neg (by omega)]
  case nonLeaf =>
    intro p h1 h2
    simp only [splitBefore, Heap.setParent, Heap.setNonLeaf, reparent_nonLeaf]
    rw [Function.update_of_ne h1, Function.update_of_ne h2]
  case parent =>
    intro p
    simp only [splitBefore, Heap.setParent, Heap.setNonLeaf, Function.update_apply, reparent_parent]
    rw [hJ, hseg]
    by_cases hp : p = sub
    · subst hp
      have hd : p ∉ (I.drop s).map Prod.snd := fun hm =>
        hsub (by rw [List.map_drop] at hm; exact List.mem_of_mem_drop hm)
      rw [if_pos rfl, if_neg hd, if_pos rfl]
    · rw [if_neg hp, if_neg hp]
  all_goals simp [splitBefore, Heap.setParent, Heap.setNonLeaf]

theorem splitAt_spec (hb : Body (h.nonLeaf node) I) (hI : I.length = order) (hs : s + 1 ≤ order)
    (hns : node ≠ sibling) :
    Divided h (splitAt order h node sibling sub key s).2 node sibling sub
      (I.insertIdx (s + 1) ((key : WithBot Int), sub)) s
      (splitAt order h node sibling sub key s).1 := by
  have hne : I ≠ [] := by rintro rfl; simp at hI; omega
  have hseg : segment (h.nonLeaf node).subPtr (s + 1) (order - 1 - s) =
      (I.map Prod.snd).drop (s + 1) := segment_eq hb.sub (by rw [List.length_map]; omega)
  constructor
  case left =>
    simp only [splitAt, Heap.setNonLeaf, Function.update_self]
    exact hb.split_keep (by omega) le_rfl (by omega)
  case right =>
    simp only [splitAt, Heap.setNonLeaf, Heap.setParent, reparent_nonLeaf,
      Function.update_of_ne hns.symm, Function.update_self]
    refine hb.split_moved hne (by omega) (by simp only; omega) (fun j hj => ?_) fun j hj => ?_
    · rw [if_neg (by omega)]
      simp only [copy_apply, Function.update_apply]
      split_ifs with h1 h2 <;> first | omega | rfl | (congr 1; omega)
    · rw [if_neg (by omega), if_neg (by omega)]
      simp only [copy_apply]
      rw [if_pos (by omega)]
      congr 1; omega
  case splitKey =>
    refine hb.split_key (by omega) (by omega) ?_
    simp only [splitAt]
    rw [if_neg (by omega), if_pos trivial]
  case nonLeaf =>
    intro p h1 h2
    simp only [splitAt, Heap.setNonLeaf, Heap.setParent, reparent_nonLeaf]
    rw [Function.update_of_ne h1, Function.update_of_ne h2]
  case parent =>
    intro p
    simp only [splitAt, Heap.setNonLeaf, Heap.setParent, reparent_parent, Function.update_apply]
    rw [hseg, List.map_drop, subs_insert]
    simp only [mem_drop_insertIdx (le_refl (s + 1))
      (show s + 1 ≤ (I.map Prod.snd).length by rw [List.length_map]; omega)]
    by_cases hp : p = sub
    · simp [hp]
    · simp [hp]
  all_goals simp [splitAt, Heap.setParent, Heap.setNonLeaf]

theorem splitAfter_spec (hb : Body (h.nonLeaf node) I) (hI : I.length = order) (hs : s + 1 ≤ order)
    (hins : s < ins) (hil : ins < order) (hns : node ≠ sibling) :
    ∃ r, splitAfter order h node sibling sub key ins s = .ok r ∧
      Divided h r.2 node sibling sub (I.insertIdx (ins + 1) ((key : WithBot Int), sub)) s r.1 := by
  have hne : I ≠ [] := by rintro rfl; simp at hI; omega
  have hseg : segment (h.nonLeaf node).subPtr (s + 1) (order - 1 - s) =
      (I.map Prod.snd).drop (s + 1) := segment_eq hb.sub (by rw [List.length_map]; omega)
  obtain ⟨hj, hk⟩ := copyHole_apply (h.nonLeaf node).key 0 (order - 1) (ins - s - 1)
    (order - 1 - (s + 1) + 1) (s + 1) 0 (h.nonLeaf sibling).key (by omega) (by omega)
  obtain ⟨-, hc⟩ := copyHole_apply (h.nonLeaf node).subPtr 1 (order - 1) (ins - s - 1)
    (order - 1 - (s + 1) + 1) (s + 1) 0
    (Function.update (h.nonLeaf sibling).subPtr 0 ((h.nonLeaf node).subPtr (s + 1)))
    (by omega) (by omega)
  refine ⟨_, by
    simp only [splitAfter]
    rw [if_pos (by rw [hj]; split_ifs <;> omega)], ?_⟩
  constructor
  case left =>
    simp only [Heap.setNonLeaf, Heap.setParent, Function.update_of_ne hns, Function.update_self]
    exact hb.split_keep (by omega) hins.le (by omega)
  case right =>
    simp only [Heap.setNonLeaf, Heap.setParent, Function.update_self]
    refine hb.split_moved hne (by omega) ?_ (fun j hj => ?_) fun j hj => ?_
    · simp only [hj]
      split_ifs <;> omega
    · simp only [Function.update_apply, hc]
      split_ifs <;> first | omega | rfl | (congr 1; omega)
    · simp only [Function.update_apply, hk]
      split_ifs <;> first | omega | rfl
  case splitKey =>
    refine hb.split_key (by omega) (by omega) ?_
    rw [if_pos hins]
  case nonLeaf =>
    intro p h1 h2
    simp only [Heap.setNonLeaf, Heap.setParent, reparent_nonLeaf]
    rw [Function.update_of_ne h2, Function.update_of_ne h1]
  case parent =>
    intro p
    simp only [Heap.setNonLeaf, Heap.setParent, reparent_parent, Function.update_apply]
    rw [hseg, List.map_drop, subs_insert]
    simp only [mem_drop_insertIdx (show s + 1 ≤ ins + 1 by omega)
      (show ins + 1 ≤ (I.map Prod.snd).length by rw [List.length_map]; omega)]
    by_cases hp : p = sub
    · simp [hp]
    · simp [hp]
  all_goals simp [Heap.setParent, Heap.setNonLeaf]

/-- The heap with a new sibling linked behind `node`. -/
def withSibling (h : Heap) (node : Ptr) : Heap :=
  ((nonLeafNew h).2.setNext h.brk ((nonLeafNew h).2.next node)).setNext node h.brk

/-- **The block `node full`**: the items after the insertion are divided at `(order + 1) / 2 +
1`. -/
theorem splitNonLeaf_spec (hb : Body (h.nonLeaf node) I) (hI : I.length = order) (ho : 3 ≤ order)
    (hins : ins < order) (hn : node < h.brk) (hsub : sub ∉ I.map Prod.snd) :
    ∃ sk h', splitNonLeaf order h node sub key ins = .ok (h.brk, sk, h') ∧
      Divided (withSibling h node) h' node h.brk sub
        (I.insertIdx (ins + 1) ((key : WithBot Int), sub)) ((order + 1) / 2) sk := by
  have hb' : Body ((withSibling h node).nonLeaf node) I := by
    simpa [withSibling, nonLeafNew, Heap.setNext, Function.update_of_ne hn.ne] using hb
  have hsplit : splitNonLeaf order h node sub key ins =
      if ins < (order + 1) / 2 then
        .ok (h.brk, splitBefore order (withSibling h node) node h.brk sub key ins ((order + 1) / 2))
      else if ins = (order + 1) / 2 then
        .ok (h.brk, splitAt order (withSibling h node) node h.brk sub key ((order + 1) / 2))
      else (splitAfter order (withSibling h node) node h.brk sub key ins ((order + 1) / 2)).map
        (h.brk, ·) := rfl
  rw [hsplit]
  split_ifs with h1 h2
  · exact ⟨_, _, rfl, splitBefore_spec hb' hI (by omega) h1 hn.ne hsub⟩
  · subst h2
    exact ⟨_, _, rfl, splitAt_spec hb' hI (by omega) hn.ne⟩
  · obtain ⟨⟨sk, h'⟩, hr, hd⟩ := splitAfter_spec hb' hI
      (s := (order + 1) / 2) (by omega) (by omega) hins hn.ne
    exact ⟨sk, h', by rw [hr]; rfl, hd⟩

end

end BplusTree
