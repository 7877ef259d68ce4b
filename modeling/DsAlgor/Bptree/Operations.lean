import DsAlgor.Bptree.RemoveKey

/-!
# The operations on the entries

Between two operations the tree is empty or it holds its entries in ascending order (`Stands`).
Search finds the entry of a key, an insertion puts one entry between two others, a deletion takes
one entry away.
-/

namespace Bptree

open CArray PtrTree

variable {K V α : Type} [LinearOrder α]

/-- The tree with its entries. -/
inductive Stands (rank : K → α) (t : Tree K V) : List Ptr → Prop
  | empty (root : t.root = 0) (min : t.min = 0) (innerOrder : t.innerOrder = 32)
      (leafOrder : t.leafOrder = 64) (brk : 0 < t.brk) : Stands rank t []
  | tree {L : Nat} {T : Shape} (h : Holds rank t L T) : Stands rank t T.elems

section
variable {type : KeyType K V} {rank : K → α} {t : Tree K V} {path path' : PathInfo}
  {es gs : List Ptr} {e : Ptr} {key : K}

theorem Ascending.insert {X Y : List Ptr} (h : Ascending rank t (X ++ Y))
    (hX : ∀ x ∈ X, rank (t.key x) < rank (t.key e))
    (hY : ∀ y ∈ Y, rank (t.key e) < rank (t.key y)) :
    Ascending rank t (X ++ e :: Y) := by
  obtain ⟨h1, h2, h3⟩ := List.pairwise_append.1 h
  refine List.pairwise_append.2 ⟨h1, List.pairwise_cons.2 ⟨hY, h2⟩, fun x hx y hy => ?_⟩
  rcases List.mem_cons.1 hy with rfl | hy
  · exact hX x hx
  · exact h3 x hx y hy

theorem Ascending.erase {X Y : List Ptr} (h : Ascending rank t (X ++ e :: Y)) :
    Ascending rank t (X ++ Y) :=
  h.sublist ((List.sublist_cons_self e Y).append_left X)

variable {t' : Tree K V} {T : Shape} {f : Ptr → Entry K V}

theorem Ascending.congr (h : Ascending rank t es) (hkey : ∀ e ∈ es, t'.key e = t.key e) :
    Ascending rank t' es := by
  refine h.imp_of_mem fun {a b} ha hb hab => ?_
  rw [hkey a ha, hkey b hb]
  exact hab

/-! ## Entries -/

/-- A change of the entries that keeps their keys. -/
theorem Holds.entries {L : Nat} (h : Holds rank t L T) {b : Ptr} (hb : t.brk ≤ b)
    (hkey : ∀ x < t.brk, (f x).key = t.key x) : Holds rank { t with entry := f, brk := b } L T := by
  have hkeys : ∀ e ∈ T.elems, Tree.key { t with entry := f, brk := b } e = t.key e :=
    fun e he => hkey e (h.stored e he).2
  exact ⟨⟨h.root, h.sub.congr (fun _ _ => rfl) hkeys, h.nodup, fun p hp =>
    (h.bound p hp).imp_right fun hlt => hlt.trans_le hb, h.chain, h.innerOrder, h.leafOrder⟩,
      fun e he => (h.stored e he).imp_right fun hlt => hlt.trans_le hb,
    h.ascending.congr hkeys⟩

section
variable (h : Stands rank t es)
include h

theorem Stands.entries {b : Ptr} (hb : t.brk ≤ b) (hkey : ∀ x < t.brk, (f x).key = t.key x) :
    Stands rank { t with entry := f, brk := b } es := by
  cases h with
  | empty root min io lo brk => exact .empty root min io lo (brk.trans_le hb)
  | tree h => exact .tree (h.entries hb hkey)

theorem Stands.setVal (e : Ptr) (val : V) : Stands rank (t.setVal type e val) es := by
  refine h.entries (f := (t.setVal type e val).entry) le_rfl fun x _ => ?_
  unfold Tree.setVal Tree.setEntry Tree.key
  dsimp only
  by_cases hx : x = e
  · rw [hx, Function.update_self]
  · rw [Function.update_of_ne hx]

theorem Stands.ascending : Ascending rank t es := by
  cases h with
  | empty => exact List.Pairwise.nil
  | tree h => exact h.ascending

theorem Stands.stored : ∀ e ∈ es, 0 < e ∧ e < t.brk := by
  cases h with
  | empty => exact fun e he => (nomatch he)
  | tree h => exact h.stored

theorem Stands.brk_pos : 0 < t.brk := by
  cases h with
  | empty _ _ _ _ brk => exact brk
  | tree h => exact (h.bound _ (ptr_mem_ptrs _)).1.trans (h.bound _ (ptr_mem_ptrs _)).2

/-! ## Leaves -/

end

theorem Placed.mem_frameElems {gs : Place} {p : Ptr} (h : Placed t T path gs p es) {x : Ptr}
    (hx : x ∈ frameElems gs) : x ∈ T.elems := by
  rw [h.elems]
  unfold frameElems at hx
  rw [List.flatMap_append, List.mem_append] at hx
  rcases hx with hx | hx
  · exact List.mem_append_left _ (List.mem_append_left _ hx)
  · exact List.mem_append_right _ hx

theorem Placed.mem_elems {gs : Place} {p : Ptr} (h : Placed t T path gs p es) {x : Ptr}
    (hx : x ∈ es) : x ∈ T.elems := by
  rw [h.elems]
  exact List.mem_append_left _ (List.mem_append_right _ hx)

/-- A place only depends on the keys of the entries in the tree. -/
theorem Placed.congr {gs : Place} {p : Ptr} (h : Placed t T path gs p es)
    (hkey : ∀ x ∈ T.elems, t'.key x = t.key x) (hnode : t'.node = t.node) :
    Placed t' T path gs p es := by
  refine ⟨h.plugged, ?_, ?_, h.along, h.here⟩
  · rw [hnode]
    exact h.leaf
  · cases gs with
    | nil => trivial
    | cons f fs =>
      have hne : (PtrTree.leaf p es : Shape).elems ≠ [] := by
        intro hnil
        have hleast := h.leaf.least
        rw [elems_leaf] at hnil
        rw [hnil] at hleast
        cases hleast
      rw [item_congr (fun x hx => hkey x (h.mem_elems (by rwa [elems_leaf] at hx))) hne]
      exact h.around.congr (fun q _ => by rw [hnode]) fun x hx => hkey x (h.mem_frameElems hx)

/-- The keys above the leaf, with a new entry in it. -/
theorem Reached.around_insert {gs : Place} {p : Ptr} {es : List Ptr} {i : Nat} (e : Ptr)
    (h : Reached rank t key T path gs p es) (hpos : Position rank t key es 0 i)
    (hentry : ∀ x ∈ T.elems, t'.key x = t.key x) (hnode : t'.node = t.node) :
    Around t' 0 gs (item t' (.leaf p (es.insertIdx i e))) := by
  have haround : Around t' 0 gs (item t (.leaf p es)) :=
    h.around.congr (fun q _ => by rw [hnode]) fun x hx => hentry x (h.mem_frameElems hx)
  by_cases hex : ∃ f ∈ gs, f.left ≠ []
  · -- the first entry of the leaf stays the first
    have hlow := h.low hex
    have hgs : gs ≠ [] := by
      obtain ⟨f, hf, -⟩ := hex
      exact List.ne_nil_of_mem hf
    have hleast := h.leaf.least
    rw [List.isEmpty_eq_false_iff.2 hgs] at hleast
    cases es with
    | nil => cases hleast
    | cons x xs =>
      cases i with
      | zero =>
        have hx := hpos.absent rfl x (by simp)
        exact absurd hlow (not_le.2 hx)
      | succ i =>
        have hitem : item t' (.leaf p ((x :: xs).insertIdx (i + 1) e)) = item t
          (.leaf p (x :: xs)) := by
          unfold item minKey
          rw [elems_leaf, elems_leaf]
          exact congrArg (Prod.mk p) (hentry x (h.mem_elems List.mem_cons_self))
        rw [hitem]
        exact haround
  · refine Around.first haround (fun f hf => ?_) _
    by_contra hne
    exact hex ⟨f, hf, hne⟩

variable [DecidableEq K]

omit [DecidableEq K] in
theorem Changed.stands {ps : List Ptr} {L : Nat} (h : Changed t t' ps L T es)
    (hstored : ∀ e ∈ es, 0 < e ∧ e < t'.brk) (hasc : Ascending rank t' es) : Stands rank t' es := by
  rw [← h.elems] at hstored hasc ⊢
  exact .tree ⟨h.toBuilt, hstored, hasc⟩

/-! ## Search -/

/-- **Search** finds the entry of the key. -/
theorem Stands.find (ho : KeyOrder type rank) (h : Stands rank t es) (key : K) (path : PathInfo) :
    ∃ e path', bptreeFindEntry type t key path = some (e, path') ∧
      (e ≠ 0 → e ∈ es ∧ rank (t.key e) = rank key) ∧
      (e = 0 → ∀ x ∈ es, rank (t.key x) ≠ rank key) := by
  cases h with
  | empty root =>
    have hrun : bptreeFindEntry type t key path = some (0, _) := if_pos root
    exact ⟨0, _, hrun, fun h0 => absurd rfl h0, fun _ x hx => (nomatch hx)⟩
  | @tree L T h =>
    obtain ⟨gs, p, es, path', e, i, hrun, hreached, -, hpos⟩ := bptreeFindEntry_spec ho h key path
    have helems := hreached.elems
    refine ⟨e, path', hrun, fun he => ?_, fun he x hx => ?_⟩
    · obtain ⟨hget, hrank⟩ := hpos.found he
      refine ⟨?_, hrank⟩
      rw [helems]
      have hmem := List.mem_of_getElem? hget
      simp [hmem]
    · rw [helems, ← List.take_append_drop i es] at hx
      simp only [List.mem_append] at hx
      rcases hx with (hx | hx | hx) | hx
      · exact ne_of_lt (hreached.between.left x hx)
      · exact ne_of_lt (hpos.left x hx)
      · exact ne_of_gt (hpos.absent he x hx)
      · exact ne_of_gt (hreached.between.right x hx)

/-! ## Insertion -/

/-- **Insertion** of a new entry whose key is not there. -/
theorem Stands.insert (ho : KeyOrder type rank) (h : Stands rank t es)
    (hfind : bptreeFindEntry type t key path = some (0, path'))
    (hf : ∀ x ≠ t.brk, f x = t.entry x) (hkey : rank (f t.brk).key = rank key) :
    ∃ t' X Y, insertIntoLeafNode { t with entry := f, brk := t.brk + 1 } path' t.brk = some t' ∧
      es = X ++ Y ∧ Stands rank t' (X ++ t.brk :: Y) ∧ t'.entry = f ∧ t'.count = t.count + 1 ∧
        t'.path = t.path := by
  have hbrk := h.brk_pos
  cases h with
  | empty root min io lo brk =>
    have hpath : path'.p 0 = 0 := by
      unfold bptreeFindEntry at hfind
      rw [if_pos root] at hfind
      have heq := (Prod.ext_iff.1 (Option.some.inj hfind)).2
      dsimp only at heq
      rw [← heq]
      exact Function.update_self 0 0 path.p
    have hroot' : Tree.root { t with entry := f, brk := t.brk + 1 } = 0 := root
    obtain ⟨t', L', T', hrun, hcount, hchanged⟩ :=
      insertIntoLeafNode_empty t.brk hroot' (Nat.succ_pos _) io lo hpath
    refine ⟨t', [], [], hrun, rfl, ?_, hchanged.entry, hcount, hchanged.path⟩
    refine hchanged.stands ?_ ?_
    · intro e he
      rw [List.mem_singleton] at he
      rw [he]
      exact ⟨hbrk, (Nat.lt_succ_self _).trans_le hchanged.brk⟩
    · exact List.pairwise_singleton _ _
  | @tree L T h =>
    obtain ⟨gs, p, es, path'', e, i, hrun, hreached, hi, hpos⟩ := bptreeFindEntry_spec ho h key path
    rw [hfind] at hrun
    obtain ⟨rfl, rfl⟩ := Prod.ext_iff.1 (Option.some.inj hrun)
    have hkeys : ∀ x < t.brk, (f x).key = t.key x := by
      intro x hx
      unfold Tree.key
      rw [hf x (ne_of_lt hx)]
    have hh := h.entries (b := t.brk + 1) (Nat.le_succ _) hkeys
    have hstored : ∀ x ∈ T.elems, Tree.key { t with entry := f, brk := t.brk + 1 } x = t.key x :=
      fun x hx =>
      hkeys x (h.stored x hx).2
    have haround := hreached.around_insert t.brk hpos hstored rfl
    obtain ⟨t', L', T', hrun, hcount, hchanged⟩ := insertIntoLeafNode_spec (e := t.brk)
      (hreached.toPlaced.congr hstored rfl) hh.toBuilt hi hpos.le haround
    have hnew : (before gs).flatMap Prod.snd ++ es.insertIdx i t.brk ++
      (after gs).flatMap Prod.snd = ((before gs).flatMap Prod.snd ++ es.take i) ++ t.brk ::
      (es.drop i ++ (after gs).flatMap Prod.snd) := by
      rw [insertIdx_eq_append hpos.le]
      simp
    have hold : T.elems = ((before gs).flatMap Prod.snd ++ es.take i) ++
      (es.drop i ++ (after gs).flatMap Prod.snd) := by
      rw [hreached.elems, List.append_assoc, List.append_assoc, ← List.append_assoc (es.take i),
        List.take_append_drop]
    rw [hnew] at hchanged
    have hentry : t'.entry = f := hchanged.entry
    refine ⟨t', _, _, hrun, hold, ?_, hentry, hcount, hchanged.path⟩
    have hkey' : ∀ x ∈ T.elems, t'.key x = t.key x := by
      intro x hx
      unfold Tree.key
      rw [hentry]
      exact hkeys x (h.stored x hx).2
    have hrank : rank (t'.key t.brk) = rank key := by
      unfold Tree.key
      rw [hentry]
      exact hkey
    refine hchanged.stands ?_ ?_
    · intro x hx
      rw [List.mem_append, List.mem_cons] at hx
      have hlt : t.brk < t'.brk := (Nat.lt_succ_self _).trans_le hchanged.brk
      rcases hx with hx | rfl | hx
      · exact (h.stored x (by rw [hold]; exact List.mem_append_left _ hx)).imp_right fun hxb =>
          hxb.trans hlt
      · exact ⟨hbrk, hlt⟩
      · exact (h.stored x (by rw [hold]; exact List.mem_append_right _ hx)).imp_right fun hxb =>
          hxb.trans hlt
    · have hasc := h.ascending
      rw [hold] at hasc hkey'
      refine Ascending.insert (hasc.congr hkey') (fun x hx => ?_) fun y hy => ?_
      · rw [hkey' x (List.mem_append_left _ hx), hrank]
        rcases List.mem_append.1 hx with hx | hx
        · exact hreached.between.left x hx
        · exact hpos.left x hx
      · rw [hkey' y (List.mem_append_right _ hy), hrank]
        rcases List.mem_append.1 hy with hy | hy
        · exact hpos.absent rfl y hy
        · exact hreached.between.right y hy

/-! ## Deletion -/

/-- **Deletion** of the entry of a key. -/
theorem Stands.delete (ho : KeyOrder type rank) (h : Stands rank t es)
    (hfind : bptreeFindEntry type t key path = some (e, path')) (he : e ≠ 0) :
    ∃ t' X Y, deleteFromLeafNode type t path' key = some t' ∧ es = X ++ e :: Y ∧
      Stands rank t' (X ++ Y) ∧ t'.entry = t.entry ∧ t'.count = t.count - 1 ∧ t'.path = t.path := by
  cases h with
  | empty root =>
    unfold bptreeFindEntry at hfind
    rw [if_pos root] at hfind
    have heq := (Prod.ext_iff.1 (Option.some.inj hfind)).1
    exact absurd heq.symm he
  | @tree L T h =>
    obtain ⟨gs, p, es, path'', e', i, hrun, hreached, hi, hpos⟩ :=
      bptreeFindEntry_spec ho h key path
    rw [hfind] at hrun
    obtain ⟨rfl, rfl⟩ := Prod.ext_iff.1 (Option.some.inj hrun)
    dsimp only at hreached hi hpos
    obtain ⟨hget, hrank⟩ := hpos.found he
    obtain ⟨hlt, hge⟩ := List.getElem?_eq_some_iff.1 hget
    have hdel : type.compareKeys key (t.key es[i]) = 0 := by
      rw [hge]
      exact (ho.eq _ _).2 hrank.symm
    obtain ⟨t', L', T', hrun', hcount, hchanged⟩ :=
      deleteFromLeafNode_spec hreached.toPlaced h.toBuilt hi hlt hdel
    have hold : T.elems = ((before gs).flatMap Prod.snd ++ es.take i) ++
        e :: (es.drop (i + 1) ++ (after gs).flatMap Prod.snd) := by
      have hes : es = es.take i ++ e :: es.drop (i + 1) := by
        rw [← hge, ← List.drop_eq_getElem_cons hlt, List.take_append_drop]
      rw [hreached.elems]
      nth_rewrite 1 [hes]
      simp
    have hnew : (before gs).flatMap Prod.snd ++ es.eraseIdx i ++ (after gs).flatMap Prod.snd =
        ((before gs).flatMap Prod.snd ++ es.take i) ++
        (es.drop (i + 1) ++ (after gs).flatMap Prod.snd) := by
      rw [List.eraseIdx_eq_take_drop_succ]
      simp
    rw [hnew] at hchanged
    refine ⟨t', _, _, hrun', hold, ?_, hchanged.entry, hcount, hchanged.path⟩
    refine hchanged.stands ?_ ?_
    · intro x hx
      refine (h.stored x ?_).imp_right fun hxb => hxb.trans_le hchanged.brk
      rw [hold]
      rcases List.mem_append.1 hx with hx | hx
      · exact List.mem_append_left _ hx
      · exact List.mem_append_right _ (List.mem_cons_of_mem _ hx)
    · have hasc := h.ascending
      rw [hold] at hasc
      refine (Ascending.erase hasc).congr fun x _ => ?_
      unfold Tree.key
      rw [hchanged.entry]

end

end Bptree
