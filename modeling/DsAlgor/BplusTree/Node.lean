import DsAlgor.BplusTree.Search

/-!
# What the array loops do to an inner node

Each block of `non_leaf_insert` and `non_leaf_remove` that moves keys and children, as an operation
on the items the node's arrays hold (`Body`). The new child goes behind `c`, so a full node `I` is
divided as `J.take (split + 1)` and `J.drop (split + 1)` with `J` the items after the insertion,
whichever of the three cases applies.
-/

namespace BplusTree

open CArray Levels

/-! ## Insertion -/

section
variable {n : NonLeaf} {I : List (Item Int Ptr)} {key : Int} {sub : Ptr} {ins : Nat}

/-- The keys after the insertion of a child. -/
theorem keys_insert (hI : I ≠ []) :
    (I.insertIdx (ins + 1) ((key : WithBot Int), sub)).tail.map Prod.fst =
      (I.tail.map Prod.fst).insertIdx ins (key : WithBot Int) := by
  rw [tail_insertIdx hI, List.map_insertIdx]

theorem subs_insert :
    (I.insertIdx (ins + 1) ((key : WithBot Int), sub)).map Prod.snd =
      (I.map Prod.snd).insertIdx (ins + 1) sub := by
  rw [List.map_insertIdx]

/-- The block `simple insertion`. -/
theorem Body.insert (h : Body n I) (hins : ins < I.length) :
    Body
      { children := n.children + 1
        key := Function.update (shiftUp ins (n.children - 1) n.key) ins key
        subPtr := Function.update (shiftUp (ins + 1) n.children n.subPtr) (ins + 1) sub }
      (I.insertIdx (ins + 1) ((key : WithBot Int), sub)) := by
  have hI : I ≠ [] := by rintro rfl; simp at hins
  refine ⟨?_, ?_, ?_⟩
  · simp only [h.children, List.length_insertIdx]; rw [if_pos (by omega)]
  · rw [subs_insert]
    have := h.sub.insert (i := ins + 1) sub (by simp; omega)
    rwa [List.length_map, ← h.children] at this
  · rw [keys_insert hI]
    have := h.key.insert (i := ins) (key : WithBot Int) (by simp; omega)
    refine this.congr fun j _ => ?_
    simp only [Function.update_apply, shiftUp_apply, List.length_map, List.length_tail, h.children]
    split_ifs <;> rfl

variable {order : Nat} {ka : Nat → Int} {sa : Nat → Ptr}

/-- The part of a full node that stays, insertion into the moved part: the arrays are kept. -/
theorem Body.split_keep (h : Body n I) {s : Nat} (hs : s + 1 ≤ I.length) (hins : s ≤ ins)
    (hil : ins < I.length) :
    Body { n with children := s + 1 }
      ((I.insertIdx (ins + 1) ((key : WithBot Int), sub)).take (s + 1)) := by
  have hI : I ≠ [] := by rintro rfl; simp at hil
  refine ⟨?_, ?_, ?_⟩
  · simp only [List.length_take, List.length_insertIdx]; rw [if_pos (by omega)]; omega
  · rw [List.map_take, subs_insert]
    refine h.sub.insert_take (by simp; omega) fun j hj => ?_
    rw [if_pos (by omega)]
  · rw [tail_take, List.map_take, keys_insert hI]
    refine h.key.insert_take (by simp; omega) fun j hj => ?_
    rw [if_pos (by omega)]

/-- The part of a full node that stays, insertion into it. -/
theorem Body.split_insert (h : Body n I) {s : Nat} (hs : s + 1 ≤ I.length) (hins : ins < s) :
    Body
      { children := s + 1
        key := Function.update (shiftUp ins (s - 1) n.key) ins key
        subPtr := Function.update (shiftUp (ins + 1) s n.subPtr) (ins + 1) sub }
      ((I.insertIdx (ins + 1) ((key : WithBot Int), sub)).take (s + 1)) := by
  have hI : I ≠ [] := by rintro rfl; simp at hs
  refine ⟨?_, ?_, ?_⟩
  · simp only [List.length_take, List.length_insertIdx]; rw [if_pos (by omega)]; omega
  · rw [List.map_take, subs_insert]
    exact h.sub.insert_shiftUp _ _ sub (by simp; omega)
  · rw [tail_take, List.map_take, keys_insert hI]
    have := h.key.insert_shiftUp ins (s - 1) (key : WithBot Int) (by simp; omega)
    rw [show s - 1 + 1 = s by omega] at this
    refine this.congr fun j _ => ?_
    simp only [Function.update_apply, shiftUp_apply]
    split_ifs <;> rfl

/-- The moved part, given what its arrays hold. -/
theorem Body.split_moved (h : Body n I) (hI : I ≠ []) {s : Nat} (hins : ins < I.length)
    {m : NonLeaf} (hm : m.children = I.length - s)
    (hsub : ∀ j, s + 1 + j ≤ I.length → m.subPtr j =
      if s + 1 + j < ins + 1 then n.subPtr (s + 1 + j) else if s + 1 + j = ins + 1 then sub
        else n.subPtr (s + 1 + j - 1))
    (hkey : ∀ j, s + 1 + j ≤ I.length - 1 → m.key j =
      if s + 1 + j < ins then n.key (s + 1 + j) else if s + 1 + j = ins then key
        else n.key (s + 1 + j - 1)) :
    Body m ((I.insertIdx (ins + 1) ((key : WithBot Int), sub)).drop (s + 1)) := by
  refine ⟨?_, ?_, ?_⟩
  · rw [hm, List.length_drop, List.length_insertIdx, if_pos (by omega)]; omega
  · rw [List.map_drop, subs_insert]
    refine h.sub.insert_drop (by simp; omega) fun j hj => ?_
    exact hsub j (by simpa using hj)
  · rw [tail_drop, List.map_drop, keys_insert hI]
    refine h.key.insert_drop (by simp; omega) fun j hj => ?_
    rw [hkey j (by simpa using hj)]
    split_ifs <;> rfl

/-- `split_key` is the separator on the left of the moved part. -/
theorem Body.split_key (h : Body n I) {s : Nat} (hs : s + 1 ≤ I.length)
    (hins : ins < I.length) {sk : Int}
    (hk : sk = if s < ins then n.key s else if s = ins then key else n.key (s - 1)) :
    ∃ c, (I.insertIdx (ins + 1) ((key : WithBot Int), sub))[s + 1]? = some c ∧
      c.1 = (sk : WithBot Int) := by
  have hJ : s + 1 < (I.insertIdx (ins + 1) ((key : WithBot Int), sub)).length := by
    rw [List.length_insertIdx, if_pos (by omega)]; omega
  refine ⟨_, List.getElem?_eq_getElem hJ, ?_⟩
  have h1 := List.getElem?_eq_getElem hJ
  rw [getElem?_insertIdx_lt (by omega)] at h1
  subst hk
  split at h1
  · rw [← h.key_at h1, if_pos (by omega)]
  · split at h1
    · obtain rfl : s = ins := by omega
      rw [if_neg (by omega), if_pos rfl, ← Option.some.inj h1]
    · rw [if_neg (by omega), if_neg (by omega),
        ← h.key_at (j := s - 1) (by rw [show s - 1 + 1 = s + 1 - 1 by omega]; exact h1)]

end

/-! ## Deletion -/

variable {n m : NonLeaf} {I J I₁ I₂ : List (Item Int Ptr)} {remove s : Nat} {c d : Item Int Ptr}
  {pk : Int}

/-- The loop that removes `key[remove]` and `sub_ptr[remove + 1]`. -/
theorem Body.erase (h : Body n I) (hr : remove + 1 < I.length) :
    Body (removeNonLeaf n remove) (I.eraseIdx (remove + 1)) := by
  refine ⟨?_, ?_, ?_⟩
  · simp only [removeNonLeaf, h.children, List.length_eraseIdx]; rw [if_pos hr]
  · rw [← List.eraseIdx_map]
    have := h.sub.erase (i := remove + 1) (by simpa using hr)
    refine this.congr fun j _ => ?_
    simp only [removeNonLeaf, h.children, List.length_map]
    rw [show I.length - 1 - (remove + 1) = I.length - 2 - remove by omega]
  · rw [tail_eraseIdx, ← List.eraseIdx_map]
    have := h.key.erase (i := remove) (by simp; omega)
    refine this.congr fun j _ => ?_
    simp only [removeNonLeaf, h.children, List.length_map, List.length_tail, shiftDown_apply]
    rw [show I.length - 1 - 1 - remove = I.length - 2 - remove by omega]
    split_ifs <;> rfl

/-- `node->key[i] = lo`, the separator on the left of child `i + 1`. -/
theorem Body.set_key (h : Body n (I₁ ++ c :: I₂)) (hI : I₁ ≠ []) (lo : Int) :
    Body { n with key := Function.update n.key (I₁.length - 1) lo }
      (I₁ ++ ((lo : WithBot Int), c.2) :: I₂) := by
  obtain ⟨d, I₁, rfl⟩ := List.exists_cons_of_ne_nil hI
  refine ⟨by simpa using h.children, by simpa using h.sub, ?_⟩
  have hk := h.key
  simp only [List.cons_append, List.tail_cons, List.map_append, List.map_cons] at hk ⊢
  refine (hk.update_same (lo : WithBot Int)).congr fun j _ => ?_
  simp only [Function.update_apply, List.length_cons, Nat.add_sub_cancel, List.length_map]
  split_ifs <;> rfl

/-- The right shift of `borrow_left` with the borrowed child in front. -/
theorem Body.borrow_left (h : Body n I) (hr : remove + 1 < I.length)
    (hpk : ∀ c ∈ I.head?, c.1 = (pk : WithBot Int)) : Body
      { n with
        key := Function.update (shiftUp 0 remove n.key) 0 pk
        subPtr := Function.update (shiftUp 0 (remove + 1) n.subPtr) 0 d.2 }
      (d :: I.eraseIdx (remove + 1)) := by
  have hI : I ≠ [] := by rintro rfl; simp at hr
  refine ⟨?_, ?_, ?_⟩
  · simp only [List.length_cons, List.length_eraseIdx, h.children]; rw [if_pos hr]; omega
  · rw [List.map_cons, ← List.eraseIdx_map]
    refine Rep.cons (by simp) fun j hj => ?_
    rw [List.length_eraseIdx, if_pos (by simpa using hr), List.length_map] at hj
    dsimp only
    rw [List.getElem?_eraseIdx, Function.update_of_ne (by omega), shiftUp_apply]
    split
    · rw [if_pos (by omega)]
      exact h.sub j (by simp; omega)
    · rw [if_neg (by omega)]
      exact h.sub (j + 1) (by simp; omega)
  · rw [List.tail_cons]
    obtain ⟨c, I', rfl⟩ := List.exists_cons_of_ne_nil hI
    have hc := hpk c (by simp)
    simp only [List.eraseIdx_cons_succ, List.map_cons]
    refine Rep.cons (by simp [hc]) fun j hj => ?_
    simp only [List.length_cons] at hr
    rw [← List.eraseIdx_map] at hj ⊢
    rw [List.length_eraseIdx, if_pos (by simp; omega), List.length_map] at hj
    have hk := h.key
    rw [List.tail_cons] at hk
    dsimp only
    rw [List.getElem?_eraseIdx, Function.update_of_ne (by omega), shiftUp_apply]
    split
    · rw [if_pos (by omega)]
      exact hk j (by simp; omega)
    · rw [if_neg (by omega)]
      exact hk (j + 1) (by simp; omega)

/-- Dropping the last child. -/
theorem Body.dropLast (h : Body n (I ++ [d])) : Body { n with children := n.children - 1 } I := by
  refine ⟨by simp [h.children], ?_, ?_⟩
  · have := h.sub; rw [List.map_append] at this; exact this.left
  · have := h.key
    cases I with
    | nil => exact Rep.nil _
    | cons c I =>
      simp only [List.cons_append, List.tail_cons, List.map_append] at this
      exact this.left

/-- The left shift that drops the first child. -/
theorem Body.tail (h : Body n (d :: I)) : Body
      { children := n.children - 1
        key := shiftDown (n.children - 2) 0 n.key
        subPtr := shiftDown (n.children - 1) 0 n.subPtr } I := by
  have hc := h.children
  simp only [List.length_cons] at hc
  refine ⟨by simp [hc], ?_, ?_⟩
  · have := h.sub
    rw [List.map_cons] at this
    refine this.tail.congr fun j hj => ?_
    rw [List.length_map] at hj
    simp only [shiftDown_apply]
    rw [if_pos (by omega)]
  · have := h.key
    rw [List.tail_cons] at this
    cases I with
    | nil => exact Rep.nil _
    | cons c I =>
      rw [List.map_cons] at this
      refine this.tail.congr fun j hj => ?_
      rw [List.length_map] at hj
      simp only [List.length_cons] at hc
      simp only [shiftDown_apply]
      rw [if_pos (by omega)]

/-- Appending one child with its separator. -/
theorem Body.snoc (h : Body n I) (hI : I ≠ []) (p : Ptr) (pk : Int) : Body
      { children := n.children + 1
        key := Function.update n.key (n.children - 1) pk
        subPtr := Function.update n.subPtr n.children p }
      (I ++ [((pk : WithBot Int), p)]) := by
  refine ⟨by simp [h.children], ?_, ?_⟩
  · rw [List.map_append]
    have := h.sub.snoc p
    rwa [List.length_map, ← h.children] at this
  · obtain ⟨c, I, rfl⟩ := List.exists_cons_of_ne_nil hI
    have hc := h.children
    simp only [List.length_cons] at hc
    have := h.key.snoc (pk : WithBot Int)
    simp only [List.tail_cons, List.length_map] at this
    simp only [List.cons_append, List.tail_cons, List.map_append, List.map_cons, List.map_nil]
    refine this.congr fun j _ => ?_
    simp only [Function.update_apply, hc, Nat.add_sub_cancel]
    split_ifs <;> rfl

/-- Merging the right sibling into a node. -/
theorem Body.append {s : NonLeaf} (hn : Body n I) (hs : Body s J) (hI : I ≠ []) (hJ : J ≠ [])
    (hpk : ∀ c ∈ J.head?, c.1 = (pk : WithBot Int)) : Body
      { children := n.children + s.children
        key := copy s.key (s.children - 1) 0 n.children (Function.update n.key (n.children - 1) pk)
        subPtr := copy s.subPtr s.children 0 n.children n.subPtr } (I ++ J) := by
  refine ⟨by simp [hn.children, hs.children], ?_, ?_⟩
  · rw [List.map_append]
    have := hn.sub.append_copy hs.sub
    rwa [List.length_map, List.length_map, ← hn.children, ← hs.children] at this
  · obtain ⟨c, I, rfl⟩ := List.exists_cons_of_ne_nil hI
    obtain ⟨d, J, rfl⟩ := List.exists_cons_of_ne_nil hJ
    have hc := hn.children
    have hd := hs.children
    simp only [List.length_cons] at hc hd
    have hk : Rep (fun j => ((Function.update n.key (n.children - 1) pk j : Int) : WithBot Int))
        (I.map Prod.fst ++ [d.1]) := by
      have := hn.key.snoc (pk : WithBot Int)
      rw [hpk d (by simp)]
      refine this.congr fun j _ => ?_
      simp only [Function.update_apply, List.tail_cons, List.length_map, hc, Nat.add_sub_cancel]
      split_ifs <;> rfl
    have := hk.append_copy hs.key
    simp only [List.tail_cons, List.length_map, List.length_append, List.length_singleton,
      List.append_assoc, List.singleton_append] at this
    simp only [List.cons_append, List.tail_cons, List.map_append, List.map_cons]
    refine this.congr fun j _ => ?_
    simp only [copy_apply, hc, hd, Nat.add_sub_cancel]
    split_ifs <;> rfl

/-- Merging a node into the left sibling, leaving one child out. -/
theorem Body.append_skip {s : NonLeaf} (hs : Body s J) (hn : Body n I) (hJ : J ≠ [])
    (hr : remove + 1 < I.length) (hpk : ∀ c ∈ I.head?, c.1 = (pk : WithBot Int)) : Body
      { children := (copySkip n.subPtr (remove + 1) n.children 0 s.children s.subPtr).2
        key := (copySkip n.key remove (n.children - 1) 0 s.children
          (Function.update s.key (s.children - 1) pk)).1
        subPtr := (copySkip n.subPtr (remove + 1) n.children 0 s.children s.subPtr).1 }
      (J ++ I.eraseIdx (remove + 1)) := by
  have hI : I ≠ [] := by rintro rfl; simp at hr
  refine ⟨?_, ?_, ?_⟩
  · simp only
    rw [(copySkip_apply n.subPtr (remove + 1) n.children 0 s.children s.subPtr (by omega)
      (by rw [hn.children]; omega)).1]
    simp only [hn.children, hs.children, List.length_append, List.length_eraseIdx]
    rw [if_pos hr]; omega
  · rw [List.map_append, ← List.eraseIdx_map]
    have := hs.sub.append_copySkip hn.sub (i := remove + 1) (by simpa using hr)
    rwa [List.length_map, List.length_map, ← hn.children, ← hs.children] at this
  · obtain ⟨c, I, rfl⟩ := List.exists_cons_of_ne_nil hI
    obtain ⟨d, J, rfl⟩ := List.exists_cons_of_ne_nil hJ
    have hc := hn.children
    have hd := hs.children
    simp only [List.length_cons] at hc hd hr
    have hk : Rep (fun j => ((Function.update s.key (s.children - 1) pk j : Int) : WithBot Int))
        (J.map Prod.fst ++ [c.1]) := by
      have := hs.key.snoc (pk : WithBot Int)
      rw [hpk c (by simp)]
      refine this.congr fun j _ => ?_
      simp only [Function.update_apply, List.tail_cons, List.length_map, hd, Nat.add_sub_cancel]
      split_ifs <;> rfl
    have := hk.append_copySkip hn.key (i := remove) (by simp; omega)
    simp only [List.tail_cons, List.length_map, List.length_append, List.length_singleton,
      List.append_assoc, List.singleton_append, List.eraseIdx_map] at this
    simp only [List.cons_append, List.tail_cons, List.map_append, List.eraseIdx_cons_succ,
      List.map_cons]
    refine this.congr fun j _ => ?_
    simp only [hc, hd, Nat.add_sub_cancel]
    rw [(copySkip_apply _ remove I.length 0 (J.length + 1) _ (by omega) (by omega)).2,
      (copySkip_apply _ remove I.length 0 (J.length + 1) _ (by omega) (by omega)).2]
    split_ifs <;> rfl

end BplusTree
