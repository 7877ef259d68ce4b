import DsAlgor.Bptree.Defs

/-!
# What the moves do to a node

The items of an inner node are its children, each with the key on its left; the first child has no
key there, and the key of the first item is free. `Body` says that the arrays of a node hold a list
of items, `Entries` that the array of a leaf holds a list of entries. Each block of `memmove` calls
of the source is an operation on such a list.
-/

namespace Bptree

open CArray

variable {K : Type} {n nn ln rn : Node K} {p half : Nat} {c lc rc e x : Ptr} {k newk : K}

structure Body (n : Node K) (I : List (Ptr × K)) : Prop where
  count : n.count + 1 = I.length
  child : Rep n.children (I.map Prod.fst)
  key : Rep n.keys (I.tail.map Prod.snd)

structure Entries (n : Node K) (es : List Ptr) : Prop where
  count : n.count = es.length
  entry : Rep n.entries es

/-! ## Insertion -/

section
variable {I : List (Ptr × K)} {es : List Ptr}

theorem Body.ne_nil (h : Body n I) : I ≠ [] := by
  intro hI
  have := h.count
  rw [hI] at this
  cases this

theorem Body.insertChild (h : Body n I) (hp : p < I.length) (c : Ptr) (k : K) :
    Body (n.insertChild p c k) (I.insertIdx (p + 1) (c, k)) := by
  have hcount := h.count
  unfold Node.insertChild
  refine ⟨?_, ?_, ?_⟩
  · simp only [List.length_insertIdx]
    rw [if_pos (by omega)]
    omega
  · rw [List.map_insertIdx]
    refine h.child.insert_of (by simp; omega) fun j hj => ?_
    simp only [List.length_map] at hj
    simp only [Function.update_apply, memmove]
    split_ifs <;> first | rfl | omega | (congr 1; omega)
  · rw [tail_insertIdx h.ne_nil, List.map_insertIdx]
    refine h.key.insert_of (by simp; omega) fun j hj => ?_
    simp only [List.length_map, List.length_tail] at hj
    simp only [Function.update_apply, memmove]
    split_ifs <;> first | rfl | omega | (congr 1; omega)

/-- What the two nodes of a division hold, index by index, whichever branch of
`_insertSplitInnerNode` is taken. -/
structure Divided (n : Node K) (half p : Nat) (rc : Ptr) (newk : K) (r : Node K × Node K × K) :
    Prop where
  count : r.1.count = half
  count' : r.2.1.count = n.count - half
  child : ∀ j < half + 1, r.1.children j =
    if j < p + 1 then n.children j else if j = p + 1 then rc else n.children (j - 1)
  key : ∀ j < half, r.1.keys j = if j < p then n.keys j else if j = p then newk else n.keys (j - 1)
  child' : ∀ j, half + 1 + j ≤ n.count + 1 → r.2.1.children j =
    if half + 1 + j < p + 1 then n.children (half + 1 + j)
    else if half + 1 + j = p + 1 then rc else n.children (half + 1 + j - 1)
  key' : ∀ j, half + 1 + j ≤ n.count → r.2.1.keys j =
    if half + 1 + j < p then n.keys (half + 1 + j)
    else if half + 1 + j = p then newk else n.keys (half + 1 + j - 1)
  mid : r.2.2 = if half < p then n.keys half else if half = p then newk else n.keys (half - 1)

theorem divided_splitInnerNode (hn : n.count = 2 * half + 1) (hp : p ≤ n.count) (nn : Node K)
    (rc : Ptr) (newk : K) :
    Divided n half p rc newk (splitInnerNode n nn half p (n.children p) rc newk) := by
  unfold splitInnerNode
  split_ifs with h1 h2
  · refine ⟨rfl, rfl, fun j hj => ?_, fun j hj => ?_, fun j hj => ?_, fun j hj => ?_, ?_⟩
    all_goals simp only [Function.update_apply, memmove]
    all_goals split_ifs <;> first | rfl | omega | (congr 1; omega)
  · refine ⟨rfl, rfl, fun j hj => ?_, fun j hj => ?_, fun j hj => ?_, fun j hj => ?_, ?_⟩
    all_goals simp only [Function.update_apply, memmove]
    all_goals split_ifs <;> first | rfl | omega | (congr 1; omega)
  · refine ⟨rfl, rfl, fun j hj => ?_, fun j hj => ?_, fun j hj => ?_, fun j hj => ?_, ?_⟩
    all_goals simp only [Function.update_apply, memmove]
    all_goals split_ifs <;> first | rfl | omega | (congr 1; omega)

theorem splitInnerNode_kind (n nn : Node K) (half p : Nat) (lc rc : Ptr) (newk : K) :
    ((splitInnerNode n nn half p lc rc newk).1.leaf = n.leaf ∧
    (splitInnerNode n nn half p lc rc newk).1.level = n.level) ∧
    (splitInnerNode n nn half p lc rc newk).2.1.leaf = nn.leaf ∧
    (splitInnerNode n nn half p lc rc newk).2.1.level = nn.level := by
  unfold splitInnerNode
  split_ifs
  · exact ⟨⟨rfl, rfl⟩, rfl, rfl⟩
  · exact ⟨⟨rfl, rfl⟩, rfl, rfl⟩
  · exact ⟨⟨rfl, rfl⟩, rfl, rfl⟩

/-- The items after the insertion, divided. -/
theorem Body.divide {r : Node K × Node K × K} (h : Body n I) (hr : Divided n half p rc newk r)
    (hlen : I.length = 2 * half + 2) (hp : p < I.length) :
    Body r.1 ((I.insertIdx (p + 1) (rc, newk)).take (half + 1)) ∧
      Body r.2.1 ((I.insertIdx (p + 1) (rc, newk)).drop (half + 1)) ∧
      ((I.insertIdx (p + 1) (rc, newk)).map Prod.snd)[half + 1]? = some r.2.2 := by
  have hcount := h.count
  have hJ : (I.insertIdx (p + 1) (rc, newk)).length = 2 * half + 3 := by
    rw [List.length_insertIdx, if_pos (by omega)]
    omega
  have hmid : ((I.insertIdx (p + 1) (rc, newk)).map Prod.snd)[half + 1]? =
      ((I.tail.map Prod.snd).insertIdx p newk)[half]? := by
    rw [← List.getElem?_tail, ← List.map_tail, tail_insertIdx h.ne_nil, List.map_insertIdx]
  refine ⟨⟨?_, ?_, ?_⟩, ⟨?_, ?_, ?_⟩, ?_⟩
  · rw [hr.count, List.length_take, hJ]
    omega
  · rw [List.map_take, List.map_insertIdx]
    exact h.child.insert_take (by simp; omega) hr.child
  · rw [tail_take, List.map_take, tail_insertIdx h.ne_nil, List.map_insertIdx]
    exact h.key.insert_take (by simp; omega) hr.key
  · rw [hr.count', List.length_drop, hJ]
    omega
  · rw [List.map_drop, List.map_insertIdx]
    refine h.child.insert_drop (by simp; omega) fun j hj => hr.child' j ?_
    rw [List.length_map] at hj
    omega
  · rw [tail_drop, List.map_drop, tail_insertIdx h.ne_nil, List.map_insertIdx]
    refine h.key.insert_drop (by simp; omega) fun j hj => hr.key' j ?_
    rw [List.length_map, List.length_tail] at hj
    omega
  · rw [hmid, getElem?_insertIdx_lt (by simp; omega), hr.mid]
    split_ifs with h1 h2
    · exact h.key half (by simp; omega)
    · rfl
    · exact h.key (half - 1) (by simp; omega)

theorem body_rootNode (n : Node K) (l : Nat) (lc rc : Ptr) (k nk : K) :
    Body (rootNode n l lc rc nk) [(lc, k), (rc, nk)] := by
  unfold rootNode
  refine ⟨rfl, ?_, ?_⟩
  · refine Rep.cons ?_ (Rep.cons ?_ (Rep.nil _))
    · simp
    · simp
  · refine Rep.cons ?_ (Rep.nil _)
    simp

theorem Entries.insertEntry (h : Entries n es) (hp : p ≤ es.length) (e : Ptr) :
    Entries (n.insertEntry p e) (es.insertIdx p e) := by
  have hcount := h.count
  unfold Node.insertEntry
  refine ⟨?_, ?_⟩
  · simp only [List.length_insertIdx]
    rw [if_pos hp, hcount]
  · refine h.entry.insert_of hp fun j hj => ?_
    simp only [Function.update_apply, memmove]
    split_ifs <;> first | rfl | omega | (congr 1; omega)

theorem Entries.spiltLeafNode (h : Entries n es) (hlen : es.length + 1 = 2 * half)
    (hp : p ≤ es.length) (nn : Node K) (e : Ptr) :
    Entries (spiltLeafNode n nn (2 * half) half p e).1 ((es.insertIdx p e).take half) ∧
      Entries (spiltLeafNode n nn (2 * half) half p e).2 ((es.insertIdx p e).drop half) := by
  have hcount := h.count
  have hJ : (es.insertIdx p e).length = 2 * half := by
    rw [List.length_insertIdx, if_pos hp, hlen]
  unfold Bptree.spiltLeafNode
  split_ifs with h1
  · refine ⟨⟨?_, ?_⟩, ⟨?_, ?_⟩⟩
    · rw [List.length_take, hJ]
      dsimp only
      omega
    · refine h.entry.insert_take hp fun j hj => ?_
      simp only [Function.update_apply, memmove]
      split_ifs <;> first | rfl | omega | (congr 1; omega)
    · rw [List.length_drop, hJ]
    · refine h.entry.insert_drop hp fun j hj => ?_
      simp only [memmove]
      split_ifs <;> first | rfl | omega | (congr 1; omega)
  · refine ⟨⟨?_, ?_⟩, ⟨?_, ?_⟩⟩
    · rw [List.length_take, hJ]
      dsimp only
      omega
    · refine h.entry.insert_take hp fun j hj => ?_
      rw [if_pos (by omega)]
    · rw [List.length_drop, hJ]
    · refine h.entry.insert_drop hp fun j hj => ?_
      simp only [Function.update_apply, memmove]
      split_ifs <;> first | rfl | omega | (congr 1; omega)

end

/-! ## Removal -/

section
variable {i y : Ptr × K} {I L R : List (Ptr × K)} {es ls rs : List Ptr}

theorem Body.eraseChild (h : Body n I) (hp : p + 1 < I.length) :
    Body (n.eraseChild p) (I.eraseIdx (p + 1)) := by
  have hcount := h.count
  unfold Node.eraseChild
  refine ⟨?_, ?_, ?_⟩
  · rw [List.length_eraseIdx, if_pos hp]
    dsimp only
    omega
  · rw [← List.eraseIdx_map]
    refine h.child.erase_of (by simpa using hp) fun j hj => ?_
    rw [List.length_map] at hj
    simp only [memmove]
    split_ifs <;> first | rfl | omega | (congr 1; omega)
  · rw [tail_eraseIdx, ← List.eraseIdx_map]
    refine h.key.erase_of (by simp; omega) fun j hj => ?_
    rw [List.length_map, List.length_tail] at hj
    simp only [memmove]
    split_ifs <;> first | rfl | omega | (congr 1; omega)

/-- The key on the left of a child is set. -/
theorem Body.setKey (I₁ : List (Ptr × K)) {I₂ : List (Ptr × K)} {x : Ptr × K}
    (h : Body n (I₁ ++ x :: I₂)) (hI : I₁ ≠ []) (k : K) :
    Body { n with keys := Function.update n.keys (I₁.length - 1) k } (I₁ ++ (x.1, k) :: I₂) := by
  refine ⟨?_, ?_, ?_⟩
  · have hcount := h.count
    rw [List.length_append, List.length_cons] at hcount ⊢
    exact hcount
  · have hchild := h.child
    rw [List.map_append, List.map_cons] at hchild ⊢
    exact hchild
  · have hkey := h.key
    rw [List.tail_append_of_ne_nil hI, List.map_append, List.map_cons] at hkey ⊢
    have hlen : (I₁.tail.map Prod.snd).length = I₁.length - 1 := by
      rw [List.length_map, List.length_tail]
    rw [← hlen]
    exact hkey.update_same k

/-- The last child is given away. -/
theorem Body.dropLast (h : Body ln (L ++ [y])) (hL : L ≠ []) :
    Body { ln with count := ln.count - 1 } L := by
  have hcount := h.count
  have hlen := List.length_pos_of_ne_nil hL
  rw [List.length_append, List.length_singleton] at hcount
  refine ⟨?_, ?_, ?_⟩
  · dsimp only
    omega
  · have := h.child
    rw [List.map_append] at this
    exact this.left
  · have := h.key
    rw [List.tail_append_of_ne_nil hL, List.map_append] at this
    exact this.left

theorem Body.last (h : Body ln (L ++ [y])) : ln.children ln.count = y.1 := by
  have hcount := h.count
  rw [List.length_append, List.length_singleton, Nat.add_right_cancel_iff] at hcount
  refine h.child.get ?_
  rw [hcount]
  simp

theorem Body.first (h : Body rn (y :: R)) : rn.children 0 = y.1 := h.child.get (by simp)

/-- The first child is given away. -/
theorem Body.dropFirst (h : Body rn (y :: R)) (hR : R ≠ []) : Body rn.dropFirst R := by
  have hcount := h.count
  have hlen := List.length_pos_of_ne_nil hR
  rw [List.length_cons, Nat.add_right_cancel_iff] at hcount
  unfold Node.dropFirst
  refine ⟨?_, ?_, ?_⟩
  · dsimp only
    omega
  · have := h.child
    rw [List.map_cons] at this
    refine this.tail.congr fun j hj => ?_
    rw [List.length_map] at hj
    simp only [memmove]
    split_ifs <;> first | rfl | omega | (congr 1; omega)
  · have := h.key.drop 1
    rw [← List.map_drop, List.tail_cons, List.drop_one] at this
    refine this.congr fun j hj => ?_
    rw [List.length_map, List.length_tail] at hj
    simp only [memmove]
    split_ifs <;> first | rfl | omega

/-- Removal of a child that leaves the arrays as they are. -/
private theorem Body.erased (h : Body n (i :: I)) (hp : p < I.length) :
    Rep (fun j => if j < p + 1 then n.children j else n.children (j + 1))
    ((i :: I.eraseIdx p).map Prod.fst) ∧ Rep (fun j => if j < p then n.keys j else n.keys (j + 1))
    ((I.eraseIdx p).map Prod.snd) := by
  constructor
  · have : (i :: I.eraseIdx p).map Prod.fst = ((i :: I).map Prod.fst).eraseIdx (p + 1) := by
      rw [List.eraseIdx_map, List.eraseIdx_cons_succ]
    rw [this]
    exact h.child.erase_of (by simpa using hp) fun j _ => rfl
  · rw [← List.eraseIdx_map]
    exact h.key.erase_of (by simpa using hp) fun j _ => rfl

theorem Body.fromLeft (h : Body n (i :: I)) (hl : Body ln (L ++ [y]))
    (hp : p < I.length) (k k' : K) :
    Body { innerFromLeft n ln p with keys := Function.update (innerFromLeft n ln p).keys 0 k }
      ((y.1, k') :: (i.1, k) :: I.eraseIdx p) := by
  have hcount := h.count
  rw [List.length_cons] at hcount
  obtain ⟨hchild, hkey⟩ := h.erased hp
  have hlen : (I.eraseIdx p).length = I.length - 1 := by rw [List.length_eraseIdx, if_pos hp]
  unfold innerFromLeft
  refine ⟨?_, ?_, ?_⟩
  · simp only [List.length_cons, hlen]
    omega
  · simp only [List.map_cons] at hchild ⊢
    refine Rep.cons ?_ (hchild.congr fun j hj => ?_)
    · rw [Function.update_self, hl.last]
    · simp only [List.length_cons, List.length_map, hlen] at hj
      rw [Function.update_of_ne (Nat.succ_ne_zero j), memmove]
      split_ifs <;> first | rfl | omega | (congr 1; omega)
  · simp only [List.tail_cons, List.map_cons]
    refine Rep.cons ?_ (hkey.congr fun j hj => ?_)
    · rw [Function.update_self]
    · rw [List.length_map, hlen] at hj
      rw [Function.update_of_ne (Nat.succ_ne_zero j), memmove]
      split_ifs <;> first | rfl | omega | (congr 1; omega)

theorem Body.fromRight (h : Body n (i :: I)) (hr : Body rn (y :: R)) (hp : p < I.length) (k : K) :
    Body { innerFromRight n rn p with
        keys := Function.update (innerFromRight n rn p).keys ((innerFromRight n rn p).count - 1) k }
      (i :: I.eraseIdx p ++ [(y.1, k)]) := by
  have hcount := h.count
  rw [List.length_cons] at hcount
  obtain ⟨hchild, hkey⟩ := h.erased hp
  have hlen : (I.eraseIdx p).length = I.length - 1 := by rw [List.length_eraseIdx, if_pos hp]
  unfold innerFromRight
  refine ⟨?_, ?_, ?_⟩
  · simp only [List.length_append, List.length_cons, List.length_nil, hlen]
    omega
  · rw [List.map_append]
    refine hchild.append_of (b := fun _ => y.1) (Rep.cons rfl (Rep.nil _)) (fun j hj => ?_)
      fun j hj => ?_
    · simp only [List.length_map, List.length_cons, hlen] at hj
      simp only [Function.update_apply, memmove]
      split_ifs <;> first | rfl | omega | (congr 1; omega)
    · simp only [List.length_map, List.length_cons, List.length_nil, hlen] at hj ⊢
      simp only [Function.update_apply]
      rw [if_pos (by omega), hr.first]
  · rw [List.tail_append_of_ne_nil (List.cons_ne_nil _ _), List.tail_cons, List.map_append]
    refine hkey.append_of (b := fun _ => k) (Rep.cons rfl (Rep.nil _)) (fun j hj => ?_) fun j hj =>
      ?_
    · rw [List.length_map, hlen] at hj
      simp only [Function.update_apply, memmove]
      split_ifs <;> first | rfl | omega | (congr 1; omega)
    · simp only [List.length_map, hlen, List.length_cons, List.length_nil] at hj ⊢
      simp only [Function.update_apply]
      rw [if_pos (by omega)]

theorem Body.intoLeft (h : Body n (i :: I)) (hl : Body ln L) (hp : p < I.length) (k : K) :
    Body (innerIntoLeft n ln p k) (L ++ (i.1, k) :: I.eraseIdx p) := by
  have hcount := h.count
  have hcountl := hl.count
  rw [List.length_cons] at hcount
  obtain ⟨hchild, hkey⟩ := h.erased hp
  have hlen : (I.eraseIdx p).length = I.length - 1 := by rw [List.length_eraseIdx, if_pos hp]
  unfold innerIntoLeft
  refine ⟨?_, ?_, ?_⟩
  · simp only [List.length_append, List.length_cons, hlen]
    omega
  · rw [List.map_append]
    rw [List.map_cons] at hchild ⊢
    refine hl.child.append_of hchild (fun j hj => ?_) fun j hj => ?_
    · rw [List.length_map] at hj
      simp only [memmove]
      split_ifs <;> first | rfl | omega
    · simp only [List.length_map, List.length_cons, hlen] at hj ⊢
      simp only [memmove]
      split_ifs <;> first | rfl | omega | (congr 1; omega)
  · rw [List.tail_append_of_ne_nil hl.ne_nil, List.map_append, List.map_cons]
    refine hl.key.append_of
      (Rep.cons (a := fun j => if j = 0 then k else if j - 1 < p then n.keys (j - 1) else
      n.keys (j - 1 + 1)) rfl hkey) (fun j hj => ?_) fun j hj => ?_
    · rw [List.length_map, List.length_tail] at hj
      simp only [Function.update_apply, memmove]
      split_ifs <;> first | rfl | omega
    · simp only [List.length_map, List.length_tail, List.length_cons, hlen] at hj ⊢
      simp only [Function.update_apply, memmove]
      split_ifs <;> first | rfl | omega | (congr 1; omega)

theorem Body.intoRight (h : Body n (i :: I)) (hr : Body rn (y :: R)) (hp : p < I.length) (k : K) :
    Body (innerIntoRight n rn p k) (i :: I.eraseIdx p ++ (y.1, k) :: R) := by
  have hcount := h.count
  have hcountr := hr.count
  rw [List.length_cons] at hcount hcountr
  obtain ⟨hchild, hkey⟩ := h.erased hp
  have hlen : (I.eraseIdx p).length = I.length - 1 := by rw [List.length_eraseIdx, if_pos hp]
  have hchildr := hr.child
  have hkeyr := hr.key
  unfold innerIntoRight
  refine ⟨?_, ?_, ?_⟩
  · simp only [List.length_append, List.length_cons, hlen]
    omega
  · rw [List.map_append]
    rw [List.map_cons] at hchildr
    refine hchild.append_of hchildr (fun j hj => ?_) fun j hj => ?_
    · simp only [List.length_map, List.length_cons, hlen] at hj
      simp only [memmove]
      split_ifs <;> first | rfl | omega | (congr 1; omega)
    · simp only [List.length_map, List.length_cons, hlen] at hj ⊢
      simp only [memmove]
      split_ifs <;> first | rfl | omega | (congr 1; omega)
  · rw [List.tail_append_of_ne_nil (List.cons_ne_nil _ _), List.tail_cons, List.map_append,
      List.map_cons]
    rw [List.tail_cons] at hkeyr
    refine hkey.append_of (Rep.cons (a := fun j => if j = 0 then k else rn.keys (j - 1)) rfl hkeyr)
      (fun j hj => ?_) fun j hj => ?_
    · rw [List.length_map, hlen] at hj
      simp only [Function.update_apply, memmove]
      split_ifs <;> first | rfl | omega | (congr 1; omega)
    · simp only [List.length_map, List.length_cons, hlen] at hj ⊢
      simp only [Function.update_apply, memmove]
      split_ifs <;> first | rfl | omega | (congr 1; omega)

theorem Entries.eraseEntry (h : Entries n es) (hp : p < es.length) :
    Entries (n.eraseEntry p) (es.eraseIdx p) := by
  have hcount := h.count
  unfold Node.eraseEntry
  refine ⟨?_, h.entry.erase_of hp fun j hj => ?_⟩
  · rw [List.length_eraseIdx, if_pos hp, ← hcount]
  · simp only [memmove]
    split_ifs <;> first | rfl | omega | (congr 1; omega)

theorem Entries.dropLast (h : Entries ln (ls ++ [x])) :
    Entries { ln with count := ln.count - 1 } ls := by
  refine ⟨?_, h.entry.left⟩
  rw [h.count, List.length_append]
  rfl

theorem Entries.dropFirstEntry (h : Entries rn (x :: rs)) : Entries rn.dropFirstEntry rs := by
  have hcount := h.count
  rw [List.length_cons] at hcount
  unfold Node.dropFirstEntry
  refine ⟨?_, h.entry.tail.congr fun j hj => ?_⟩
  · dsimp only
    omega
  · simp only [memmove]
    split_ifs <;> first | rfl | omega | (congr 1; omega)

theorem Entries.fromLeft (h : Entries n es) (hl : Entries ln (ls ++ [x])) (hp : p < es.length) :
    Entries (leafFromLeft n ln p) (x :: es.eraseIdx p) := by
  have hcount := h.count
  have hlen : (es.eraseIdx p).length = es.length - 1 := by rw [List.length_eraseIdx, if_pos hp]
  have hlast : ln.entries (ln.count - 1) = x := by
    refine hl.entry.get ?_
    rw [hl.count, List.length_append]
    simp
  unfold leafFromLeft
  refine ⟨?_, Rep.cons ?_ (h.entry.erase_of hp fun j hj => ?_)⟩
  · simp only [List.length_cons, hlen]
    omega
  · dsimp only
    rw [Function.update_self, hlast]
  · dsimp only
    rw [Function.update_of_ne (Nat.succ_ne_zero j), memmove]
    split_ifs <;> first | rfl | omega | (congr 1; omega)

theorem Entries.fromRight (h : Entries n es) (hr : Entries rn (x :: rs)) (hp : p < es.length) :
    Entries (leafFromRight n rn p) (es.eraseIdx p ++ [x]) := by
  have hcount := h.count
  have hlen : (es.eraseIdx p).length = es.length - 1 := by rw [List.length_eraseIdx, if_pos hp]
  have hfirst : rn.entries 0 = x := hr.entry.get (by simp)
  unfold leafFromRight
  refine ⟨?_, (h.entry.erase_of hp fun j _ => rfl).append_of (b := fun _ => x)
    (Rep.cons rfl (Rep.nil _)) (fun j hj => ?_) fun j hj => ?_⟩
  · simp only [List.length_append, List.length_cons, List.length_nil, hlen]
    omega
  · rw [hlen] at hj
    simp only [Function.update_apply, memmove]
    split_ifs <;> first | rfl | omega | (congr 1; omega)
  · simp only [List.length_cons, List.length_nil, hlen] at hj ⊢
    simp only [Function.update_apply]
    rw [if_pos (by omega), hfirst]

theorem Entries.intoLeft (h : Entries n es) (hl : Entries ln ls) (hp : p < es.length) :
    Entries (leafIntoLeft n ln p) (ls ++ es.eraseIdx p) := by
  have hcount := h.count
  have hcountl := hl.count
  have hlen : (es.eraseIdx p).length = es.length - 1 := by rw [List.length_eraseIdx, if_pos hp]
  unfold leafIntoLeft
  refine ⟨?_, hl.entry.append_of (h.entry.erase_of hp fun j _ => rfl) (fun j hj => ?_)
    fun j hj => ?_⟩
  · simp only [List.length_append, hlen]
    omega
  · simp only [memmove]
    split_ifs <;> first | rfl | omega
  · rw [hlen] at hj
    simp only [memmove]
    split_ifs <;> first | rfl | omega | (congr 1; omega)

theorem Entries.intoRight (h : Entries n es) (hr : Entries rn rs) (hp : p < es.length)
    (hrs : rs ≠ []) :
    Entries (leafIntoRight n rn p) (es.eraseIdx p ++ rs) := by
  have hcount := h.count
  have hcountr := hr.count
  have hpos := List.length_pos_of_ne_nil hrs
  have hlen : (es.eraseIdx p).length = es.length - 1 := by rw [List.length_eraseIdx, if_pos hp]
  unfold leafIntoRight
  refine ⟨?_, (h.entry.erase_of hp fun j _ => rfl).append_of hr.entry (fun j hj => ?_)
    fun j hj => ?_⟩
  · simp only [List.length_append, hlen]
    omega
  · rw [hlen] at hj
    simp only [memmove]
    split_ifs <;> first | rfl | omega | (congr 1; omega)
  · rw [hlen]
    simp only [memmove]
    split_ifs <;> first | rfl | omega | (congr 1; omega)

end

end Bptree
