import DsAlgor.BplusTree.Split

/-!
# The arrays of a leaf

`LeafBody l kvs`: the entries of the leaf `l` are `kvs`. As for inner nodes (`Node.lean`), each
array write of `leaf_insert` and `leaf_remove` is an operation on that list: `LeafDivided` is the
outcome of a split, `LeafBorrowed` and `LeafMerged` those of a deletion that uses a sibling.
-/

namespace BplusTree

open CArray Levels

/-- The entries of a leaf. -/
structure LeafBody (l : Leaf) (kvs : List (Int × Int)) : Prop where
  entries : l.entries = kvs.length
  key : Rep l.key (kvs.map Prod.fst)
  data : Rep l.data (kvs.map Prod.snd)

/-- The keys of a leaf ascend. -/
def Ascending (kvs : List (Int × Int)) : Prop := kvs.Pairwise fun a b => a.1 < b.1

theorem insertIdx_length {α : Type*} (K₁ : List α) (x : α) (K₂ : List α) :
    (K₁ ++ K₂).insertIdx K₁.length x = K₁ ++ x :: K₂ := by
  induction K₁ with
  | nil => simp
  | cons a K₁ ih => simpa using ih

theorem eraseIdx_length {α : Type*} (K₁ : List α) (x : α) (K₂ : List α) :
    (K₁ ++ x :: K₂).eraseIdx K₁.length = K₁ ++ K₂ := by
  induction K₁ with
  | nil => simp
  | cons a K₁ ih => simpa using ih

/-! ## Search -/

/-- A key is in the list, or has a place between two neighbours. -/
theorem Ascending.place {kvs : List (Int × Int)} (h : Ascending kvs) (k : Int) :
    (∃ K₁ d K₂, kvs = K₁ ++ (k, d) :: K₂) ∨
      ∃ K₁ K₂, kvs = K₁ ++ K₂ ∧ (∀ a ∈ K₁, a.1 < k) ∧ ∀ b ∈ K₂, k < b.1 := by
  induction kvs with
  | nil => exact .inr ⟨[], [], rfl, by simp, by simp⟩
  | cons a kvs ih =>
    obtain ⟨h1, h2⟩ := List.pairwise_cons.1 h
    rcases lt_trichotomy a.1 k with hak | hak | hak
    · rcases ih h2 with ⟨K₁, d, K₂, rfl⟩ | ⟨K₁, K₂, rfl, h3, h4⟩
      · exact .inl ⟨a :: K₁, d, K₂, rfl⟩
      · exact .inr ⟨a :: K₁, K₂, rfl, by simpa [hak] using h3, h4⟩
    · exact .inl ⟨[], a.2, kvs, by rw [← hak]; rfl⟩
    · refine .inr ⟨[], a :: kvs, rfl, by simp, fun b hb => ?_⟩
      rcases List.mem_cons.1 hb with rfl | hb
      · exact hak
      · exact hak.trans (h1 b hb)

section
variable {l : Leaf} {kvs K₁ K₂ : List (Int × Int)} {k d : Int}

theorem LeafBody.key_at (h : LeafBody l kvs) {j : Nat} {e : Int × Int} (he : kvs[j]? = some e) :
    l.key j = e.1 :=
  h.key.get (by rw [List.getElem?_map, he, Option.map_some])

theorem LeafBody.data_at (h : LeafBody l kvs) {j : Nat} {e : Int × Int} (he : kvs[j]? = some e) :
    l.data j = e.2 :=
  h.data.get (by rw [List.getElem?_map, he, Option.map_some])

/-- The keys below `k` are those before its place. -/
theorem LeafBody.key_lt_iff (h : LeafBody l (K₁ ++ K₂)) (h1 : ∀ a ∈ K₁, a.1 < k)
    (h2 : ∀ b ∈ K₂, k ≤ b.1) (m : Nat) (hm : m < l.entries) : l.key m < k ↔ m < K₁.length := by
  rw [h.entries] at hm
  have he := List.getElem?_eq_getElem hm
  rw [h.key_at he]
  by_cases hK : m < K₁.length
  · rw [List.getElem?_append_left hK] at he
    exact iff_of_true (h1 _ (List.mem_of_getElem? he)) hK
  · rw [List.getElem?_append_right (by omega)] at he
    exact iff_of_false (not_lt.2 (h2 _ (List.mem_of_getElem? he))) hK

theorem LeafBody.search_found (h : LeafBody l (K₁ ++ (k, d) :: K₂))
    (hs : Ascending (K₁ ++ (k, d) :: K₂)) : keyBinarySearch l.key l.entries k = K₁.length := by
  obtain ⟨-, h2, h3⟩ := List.pairwise_append.1 hs
  have hlt := h.key_lt_iff (fun a ha => h3 a ha (k, d) (by simp)) (k := k) fun b hb => by
    rcases List.mem_cons.1 hb with rfl | hb
    · exact le_rfl
    · exact ((List.pairwise_cons.1 h2).1 b hb).le
  have hlen : K₁.length < l.entries := by rw [h.entries]; simp
  rw [keyBinarySearch_eq hlen.le hlt, if_pos ⟨hlen, h.key_at (e := (k, d)) (by simp)⟩]

theorem LeafBody.search_absent (h : LeafBody l (K₁ ++ K₂)) (h1 : ∀ a ∈ K₁, a.1 < k)
    (h2 : ∀ b ∈ K₂, k < b.1) : keyBinarySearch l.key l.entries k = -K₁.length - 1 := by
  refine keyBinarySearch_absent (by rw [h.entries]; simp) (h.key_lt_iff h1 fun b hb =>
    (h2 b hb).le) ?_
  intro m hm he
  rw [h.entries] at hm
  have hm' := List.getElem?_eq_getElem hm
  rw [h.key_at hm'] at he
  rcases List.mem_append.1 (List.mem_of_getElem? hm') with hx | hx
  · exact (h1 _ hx).ne he
  · exact (h2 _ hx).ne' he

end

/-! ## Insertion -/

section
variable {l : Leaf} {kvs : List (Int × Int)} {key data : Int} {ins : Nat}

/-- The block `simple insertion` of `leaf_insert`. -/
theorem LeafBody.insert (h : LeafBody l kvs) (hins : ins ≤ kvs.length) :
    LeafBody
      { entries := l.entries + 1
        key := Function.update (shiftUp ins l.entries l.key) ins key
        data := Function.update (shiftUp ins l.entries l.data) ins data }
      (kvs.insertIdx ins (key, data)) := by
  refine ⟨by rw [List.length_insertIdx, if_pos hins, h.entries], ?_, ?_⟩
  · rw [List.map_insertIdx, h.entries, ← List.length_map (f := Prod.fst)]
    exact h.key.insert key (by simpa using hins)
  · rw [List.map_insertIdx, h.entries, ← List.length_map (f := Prod.snd)]
    exact h.data.insert data (by simpa using hins)

/-- The leaf and its new sibling after the entries `K` were divided at `s`. -/
structure LeafDivided (h h' : Heap) (leaf sibling : Ptr) (K : List (Int × Int)) (s : Nat) :
    Prop where
  left : LeafBody (h'.leaf leaf) (K.take s)
  right : LeafBody (h'.leaf sibling) (K.drop s)
  leaf : ∀ p, p ≠ leaf → p ≠ sibling → h'.leaf p = h.leaf p
  nonLeaf : h'.nonLeaf = h.nonLeaf
  parent : h'.parent = h.parent
  type : h'.type = h.type
  next : h'.next = h.next
  brk : h'.brk = h.brk

variable {h : Heap} {leaf sibling : Ptr} {entries s : Nat}

theorem splitLeafBefore_spec (hb : LeafBody (h.leaf leaf) kvs) (hk : kvs.length = entries)
    (hs : s ≤ entries) (hins : ins < s) (hls : leaf ≠ sibling) :
    LeafDivided h (splitLeafBefore entries h leaf sibling key data ins s) leaf sibling
      (kvs.insertIdx ins (key, data)) s := by
  have hlen : (kvs.insertIdx ins (key, data)).length = entries + 1 := by
    rw [List.length_insertIdx, if_pos (by omega), hk]
  refine ⟨⟨?_, ?_, ?_⟩, ⟨?_, ?_, ?_⟩, fun p h1 h2 => ?_, rfl, rfl, rfl, rfl, rfl⟩
  · simp only [splitLeafBefore, Heap.setLeaf, Function.update_self, List.length_take, hlen]
    omega
  · have := hb.key.insert_shiftUp ins (s - 1) key (by simp; omega)
    rw [List.map_take, List.map_insertIdx]
    rw [Nat.sub_add_cancel (by omega)] at this
    simpa [splitLeafBefore, Heap.setLeaf] using this
  · have := hb.data.insert_shiftUp ins (s - 1) data (by simp; omega)
    rw [List.map_take, List.map_insertIdx]
    rw [Nat.sub_add_cancel (by omega)] at this
    simpa [splitLeafBefore, Heap.setLeaf] using this
  · simp only [splitLeafBefore, Heap.setLeaf, Function.update_of_ne hls.symm, Function.update_self,
      List.length_drop, hlen]
    omega
  · rw [List.map_drop, List.map_insertIdx]
    refine hb.key.insert_drop (by simp; omega) fun j hj => ?_
    rw [List.length_map] at hj
    simp only [splitLeafBefore, Heap.setLeaf, Function.update_of_ne hls.symm, Function.update_self]
    rw [copy_apply, if_pos (by omega), if_neg (by omega), if_neg (by omega),
      show s - 1 + (j - 0) = s + j - 1 by omega]
  · rw [List.map_drop, List.map_insertIdx]
    refine hb.data.insert_drop (by simp; omega) fun j hj => ?_
    rw [List.length_map] at hj
    simp only [splitLeafBefore, Heap.setLeaf, Function.update_of_ne hls.symm, Function.update_self]
    rw [copy_apply, if_pos (by omega), if_neg (by omega), if_neg (by omega),
      show s - 1 + (j - 0) = s + j - 1 by omega]
  · simp [splitLeafBefore, Heap.setLeaf, h1, h2]

/-- The array of the sibling when the new entry goes there. -/
theorem copyHole_insert {α : Type*} {a dst : Nat → α} {L : List α} (ha : Rep a L)
    (hk : L.length = entries) (hs : s ≤ ins) (hins : ins ≤ entries) (x : α) :
    Rep (Function.update (copyHole a 0 entries (ins - s) (entries - s + 1) s 0 dst).1 (ins - s) x)
      ((L.insertIdx ins x).drop s) := by
  have hc := (copyHole_apply a 0 entries (ins - s) (entries - s + 1) s 0 dst (by omega)
    (by omega)).2
  refine ha.insert_drop (by omega) fun j hj => ?_
  rw [Function.update_apply, hc]
  by_cases h1 : j = ins - s
  · rw [if_pos h1, if_neg (by omega), if_pos (by omega)]
  · rw [if_neg h1]
    by_cases h2 : j < ins - s
    · rw [if_pos (by omega), if_pos (by omega), Nat.sub_zero]
    · rw [if_neg (by omega), if_pos (by omega), if_neg (by omega), if_neg (by omega), Nat.sub_zero]

theorem splitLeafAfter_spec (hb : LeafBody (h.leaf leaf) kvs) (hk : kvs.length = entries)
    (hs : s ≤ ins) (hins : ins ≤ entries) (hls : leaf ≠ sibling) :
    ∃ h', splitLeafAfter entries h leaf sibling key data ins s = .ok h' ∧
      LeafDivided h h' leaf sibling (kvs.insertIdx ins (key, data)) s := by
  have hlen : (kvs.insertIdx ins (key, data)).length = entries + 1 := by
    rw [List.length_insertIdx, if_pos (by omega), hk]
  have hj := (copyHole_apply (h.leaf leaf).key 0 entries (ins - s) (entries - s + 1) s 0
    (h.leaf sibling).key (by omega) (by omega)).1
  have hcond : (copyHole (h.leaf leaf).key 0 entries (ins - s) (entries - s + 1) s 0
      (h.leaf sibling).key).2 > ins - s ∨ (copyHole (h.leaf leaf).key 0 entries (ins - s)
      (entries - s + 1) s 0 (h.leaf sibling).key).2 = ins - s := by
    rw [hj]
    split_ifs <;> omega
  refine ⟨_, if_pos hcond, ?_⟩
  refine ⟨⟨?_, ?_, ?_⟩, ⟨?_, ?_, ?_⟩, fun p h1 h2 => ?_, rfl, rfl, rfl, rfl, rfl⟩
  · simp only [Heap.setLeaf, Function.update_of_ne hls, Function.update_self,
      List.length_take, hlen]
    omega
  · rw [List.map_take, List.map_insertIdx]
    refine hb.key.insert_take (by simp; omega) fun j hj => ?_
    simp only [Heap.setLeaf, Function.update_of_ne hls, Function.update_self]
    rw [if_pos (by omega)]
  · rw [List.map_take, List.map_insertIdx]
    refine hb.data.insert_take (by simp; omega) fun j hj => ?_
    simp only [Heap.setLeaf, Function.update_of_ne hls, Function.update_self]
    rw [if_pos (by omega)]
  · simp only [Heap.setLeaf, Function.update_self, List.length_drop, hlen, hj]
    split_ifs <;> omega
  · rw [List.map_drop, List.map_insertIdx]
    simp only [Heap.setLeaf, Function.update_self]
    exact copyHole_insert hb.key (by simpa using hk) hs hins key
  · rw [List.map_drop, List.map_insertIdx]
    simp only [Heap.setLeaf, Function.update_self]
    exact copyHole_insert hb.data (by simpa using hk) hs hins data
  · simp [Heap.setLeaf, h1, h2]

/-- The heap in which the entries of a full leaf are divided: the sibling is allocated and
linked. -/
def withLeaf (h : Heap) (leaf : Ptr) : Heap :=
  (((leafNew h).2.setNext h.brk ((leafNew h).2.next leaf)).setNext leaf h.brk)

variable (key data ins) in
/-- The block `node full` of `leaf_insert`. -/
theorem splitLeaf_spec (hb : LeafBody (h.leaf leaf) kvs) (hk : kvs.length = entries)
    (he : 1 ≤ entries) (hins : ins ≤ entries) (hl : leaf < h.brk) :
    ∃ h', splitLeaf entries h leaf key data ins = .ok (h.brk, h') ∧
      LeafDivided (withLeaf h leaf) h' leaf h.brk (kvs.insertIdx ins (key, data))
        ((entries + 1) / 2) := by
  have hb' : LeafBody ((withLeaf h leaf).leaf leaf) kvs := by
    simpa [withLeaf, leafNew, Heap.setNext, Function.update_of_ne hl.ne] using hb
  have hsplit : splitLeaf entries h leaf key data ins =
      if ins < (entries + 1) / 2 then
        .ok (h.brk, splitLeafBefore entries (withLeaf h leaf) leaf h.brk key data ins
          ((entries + 1) / 2))
      else (splitLeafAfter entries (withLeaf h leaf) leaf h.brk key data ins
        ((entries + 1) / 2)).map (h.brk, ·) := rfl
  rw [hsplit]
  by_cases hi : ins < (entries + 1) / 2
  · rw [if_pos hi]
    exact ⟨_, rfl, splitLeafBefore_spec hb' hk (by omega) hi hl.ne⟩
  · rw [if_neg hi]
    obtain ⟨h', hrun, hd⟩ := splitLeafAfter_spec hb' hk (not_lt.1 hi) hins hl.ne
    exact ⟨h', by rw [hrun]; rfl, hd⟩

end

/-! ## Deletion -/

theorem LeafBody.erase {l : Leaf} {kvs : List (Int × Int)} (h : LeafBody l kvs) {remove : Nat}
    (hr : remove < kvs.length) : LeafBody (removeLeaf l remove) (kvs.eraseIdx remove) := by
  refine ⟨by rw [List.length_eraseIdx, if_pos hr, ← h.entries]; rfl, ?_, ?_⟩
  · rw [← List.eraseIdx_map]
    have := h.key.erase (i := remove) (by simpa using hr)
    simpa [removeLeaf, h.entries] using this
  · rw [← List.eraseIdx_map]
    have := h.data.erase (i := remove) (by simpa using hr)
    simpa [removeLeaf, h.entries] using this

/-- The entries `X` of `x` and `Y` of `y` after one entry moved over the border; key `i` of the
parent is the first key of `Y`. -/
structure LeafBorrowed (h h' : Heap) (x y parent : Ptr) (X Y : List (Int × Int)) (i : Nat) :
    Prop where
  left : LeafBody (h'.leaf x) X
  right : LeafBody (h'.leaf y) Y
  key : ∃ e ∈ Y.head?, h'.nonLeaf parent =
    { h.nonLeaf parent with key := Function.update (h.nonLeaf parent).key i e.1 }
  leaf : ∀ p, p ≠ x → p ≠ y → h'.leaf p = h.leaf p
  nonLeaf : ∀ p, p ≠ parent → h'.nonLeaf p = h.nonLeaf p
  parent : h'.parent = h.parent
  type : h'.type = h.type
  next : h'.next = h.next
  brk : h'.brk = h.brk

/-- The entries `X` of `x` after `y` was merged into it. -/
structure LeafMerged (h h' : Heap) (x y : Ptr) (X : List (Int × Int)) : Prop where
  body : LeafBody (h'.leaf x) X
  leaf : ∀ p, p ≠ x → h'.leaf p = h.leaf p
  nonLeaf : h'.nonLeaf = h.nonLeaf
  parent : h'.parent = h.parent
  type : h'.type = h.type
  next : h'.next = Function.update h.next x (h.next y)
  brk : h'.brk = h.brk

/-- The shift that makes room for the borrowed entry overwrites the removed one. -/
theorem shift_borrow {α : Type*} {a : Nat → α} {L : List α} (h : Rep a L) {remove : Nat}
    (hr : remove < L.length) (x : α) :
    Rep (Function.update (shiftUp 0 remove a) 0 x) (x :: L.eraseIdx remove) := by
  refine Rep.cons (by simp) fun j hj => ?_
  rw [List.length_eraseIdx, if_pos hr] at hj
  show (L.eraseIdx remove)[j]? = some (Function.update (shiftUp 0 remove a) 0 x (j + 1))
  rw [Function.update_of_ne (by omega), shiftUp_apply, List.getElem?_eraseIdx]
  by_cases hjr : j < remove
  · rw [if_pos hjr, if_pos (by omega), Nat.add_sub_cancel]
    exact h j (by omega)
  · rw [if_neg hjr, if_neg (by omega)]
    exact h (j + 1) (by omega)

theorem shift_front {α : Type*} {a : Nat → α} {L : List α} {x : α} (h : Rep a (x :: L)) :
    Rep (shiftDown L.length 0 a) L := by
  have := h.erase (i := 0) (by simp)
  simpa using this

section
variable {h : Heap} {leaf sibling parent : Ptr} {K S : List (Int × Int)} {e : Int × Int}
  {remove i : Nat}

variable (parent i) in
theorem borrowLeftLeaf_spec (hl : LeafBody (h.leaf leaf) K)
    (hs : LeafBody (h.leaf sibling) (S ++ [e])) (hr : remove < K.length) (hls : leaf ≠ sibling) :
    LeafBorrowed h (borrowLeftLeaf h parent sibling leaf remove i) sibling leaf parent S
      (e :: K.eraseIdx remove) i := by
  have hidx : (S ++ [e])[(h.leaf sibling).entries - 1]? = some e := by
    rw [hs.entries]
    simp
  refine ⟨⟨?_, ?_, ?_⟩, ⟨?_, ?_, ?_⟩, ⟨e, by simp, ?_⟩, fun p h1 h2 => ?_, fun p hp => ?_,
    rfl, rfl, rfl, rfl⟩
  · simp [borrowLeftLeaf, Heap.setLeaf, Heap.setNonLeaf, hs.entries]
  · have := hs.key
    rw [List.map_append] at this
    simpa [borrowLeftLeaf, Heap.setLeaf, Heap.setNonLeaf] using this.left
  · have := hs.data
    rw [List.map_append] at this
    simpa [borrowLeftLeaf, Heap.setLeaf, Heap.setNonLeaf] using this.left
  · have := List.length_eraseIdx_of_lt hr
    simp only [borrowLeftLeaf, Heap.setLeaf, Heap.setNonLeaf, Function.update_of_ne hls,
      Function.update_self, hl.entries, List.length_cons, this]
    omega
  · have := shift_borrow hl.key (by simpa using hr) e.1
    rw [List.map_cons, ← List.eraseIdx_map]
    simpa [borrowLeftLeaf, Heap.setLeaf, Heap.setNonLeaf, hls, hs.key_at hidx] using this
  · have := shift_borrow hl.data (by simpa using hr) e.2
    rw [List.map_cons, ← List.eraseIdx_map]
    simpa [borrowLeftLeaf, Heap.setLeaf, Heap.setNonLeaf, hls, hs.data_at hidx] using this
  · simp [borrowLeftLeaf, Heap.setLeaf, Heap.setNonLeaf, hls, hs.key_at hidx]
  · simp [borrowLeftLeaf, Heap.setLeaf, Heap.setNonLeaf, h1, h2]
  · simp [borrowLeftLeaf, Heap.setLeaf, Heap.setNonLeaf, hp]

variable (parent i) in
theorem borrowRightLeaf_spec (hl : LeafBody (h.leaf leaf) K)
    (hs : LeafBody (h.leaf sibling) (e :: S)) (hS : S ≠ []) (hr : remove < K.length)
    (hls : leaf ≠ sibling) :
    LeafBorrowed h (borrowRightLeaf h parent sibling leaf remove i) leaf sibling parent
      (K.eraseIdx remove ++ [e]) S i := by
  have hE := hl.erase hr
  have h0 : (e :: S)[0]? = some e := rfl
  obtain ⟨f, S', rfl⟩ := List.exists_cons_of_ne_nil hS
  have hfk : (h.leaf sibling).key 1 = f.1 := hs.key_at rfl
  have hent : (h.leaf sibling).entries - 1 = (f :: S').length := by rw [hs.entries]; simp
  refine ⟨⟨?_, ?_, ?_⟩, ⟨?_, ?_, ?_⟩, ⟨f, by simp, ?_⟩, fun p h1 h2 => ?_, fun p hp => ?_,
    rfl, rfl, rfl, rfl⟩
  · simp [borrowRightLeaf, Heap.setLeaf, Heap.setNonLeaf, hls, hE.entries]
  · have := hE.key.snoc e.1
    rw [List.length_map, ← hE.entries] at this
    simpa [borrowRightLeaf, Heap.setLeaf, Heap.setNonLeaf, hls, hs.key_at h0] using this
  · have := hE.data.snoc e.2
    rw [List.length_map, ← hE.entries] at this
    simpa [borrowRightLeaf, Heap.setLeaf, Heap.setNonLeaf, hls, hs.data_at h0] using this
  · simpa [borrowRightLeaf, Heap.setLeaf, Heap.setNonLeaf] using hent
  · have := shift_front hs.key
    rw [List.length_map, ← hent] at this
    simpa [borrowRightLeaf, Heap.setLeaf, Heap.setNonLeaf] using this
  · have := shift_front hs.data
    rw [List.length_map, ← hent] at this
    simpa [borrowRightLeaf, Heap.setLeaf, Heap.setNonLeaf] using this
  · have : shiftDown ((h.leaf sibling).entries - 1) 0 (h.leaf sibling).key 0 = f.1 := by
      rw [shiftDown_apply, if_pos (by rw [hent]; simp), hfk]
    simp [borrowRightLeaf, Heap.setLeaf, Heap.setNonLeaf, this]
  · simp [borrowRightLeaf, Heap.setLeaf, Heap.setNonLeaf, h1, h2]
  · simp [borrowRightLeaf, Heap.setLeaf, Heap.setNonLeaf, hp]

theorem mergeLeftLeaf_spec (hl : LeafBody (h.leaf leaf) K) (hs : LeafBody (h.leaf sibling) S)
    (hr : remove < K.length) :
    LeafMerged h (mergeLeftLeaf h sibling leaf remove) sibling leaf (S ++ K.eraseIdx remove) := by
  have hj := (copySkip_apply (h.leaf leaf).key remove K.length 0 S.length (h.leaf sibling).key
    (Nat.zero_le _) (by omega)).1
  refine ⟨⟨?_, ?_, ?_⟩, fun p hp => ?_, rfl, rfl, rfl, rfl, rfl⟩
  · have := List.length_eraseIdx_of_lt hr
    simp only [mergeLeftLeaf, Heap.setLeaf, Heap.setNext, Function.update_self, hl.entries,
      hs.entries, hj, List.length_append, this]
    omega
  · have := hs.key.append_copySkip hl.key (i := remove) (by simpa using hr)
    rw [List.map_append, ← List.eraseIdx_map]
    simpa [mergeLeftLeaf, Heap.setLeaf, Heap.setNext, hl.entries, hs.entries] using this
  · have := hs.data.append_copySkip hl.data (i := remove) (by simpa using hr)
    rw [List.map_append, ← List.eraseIdx_map]
    simpa [mergeLeftLeaf, Heap.setLeaf, Heap.setNext, hl.entries, hs.entries] using this
  · simp [mergeLeftLeaf, Heap.setLeaf, Heap.setNext, hp]

theorem mergeRightLeaf_spec (hl : LeafBody (h.leaf leaf) K) (hs : LeafBody (h.leaf sibling) S)
    (hr : remove < K.length) :
    LeafMerged h (mergeRightLeaf h sibling leaf remove) leaf sibling (K.eraseIdx remove ++ S) := by
  have hE := hl.erase hr
  refine ⟨⟨?_, ?_, ?_⟩, fun p hp => ?_, rfl, rfl, rfl, rfl, rfl⟩
  · simp [mergeRightLeaf, Heap.setLeaf, Heap.setNext, hE.entries, hs.entries]
  · have := hE.key.append_copy hs.key
    rw [List.length_map, List.length_map, ← hE.entries, ← hs.entries] at this
    simpa [mergeRightLeaf, Heap.setLeaf, Heap.setNext] using this
  · have := hE.data.append_copy hs.data
    rw [List.length_map, List.length_map, ← hE.entries, ← hs.entries] at this
    simpa [mergeRightLeaf, Heap.setLeaf, Heap.setNext] using this
  · simp [mergeRightLeaf, Heap.setLeaf, Heap.setNext, hp]

end

end BplusTree
