import DsAlgor.Bptree.Insert

/-!
# Search

What holds of a whole tree between two operations is `Holds`. `_bptreeFindEntry` records the way to
the leaf in which the key belongs: everything before the recorded position is smaller than the key,
everything behind it larger (`bptreeFindEntry_spec`).
-/

namespace Bptree

open CArray PtrTree

variable {K V α : Type} [DecidableEq K] [LinearOrder α]

/-- `keyCompare` is the total order of the ranks of the keys, and copies have the rank of the
original. -/
structure KeyOrder (type : KeyType K V) (rank : K → α) : Prop where
  lt : ∀ a b, type.compareKeys a b < 0 ↔ rank a < rank b
  eq : ∀ a b, type.compareKeys a b = 0 ↔ rank a = rank b
  dup : ∀ brk key, rank (type.setKey brk key) = rank key

/-- The entries are in strictly ascending order of their keys. -/
def Ascending (rank : K → α) (t : Tree K V) (es : List Ptr) : Prop :=
  es.Pairwise fun a b => rank (t.key a) < rank (t.key b)

structure Holds (rank : K → α) (t : Tree K V) (L : Nat) (T : Shape) : Prop extends Built t L T where
  stored : ∀ e ∈ T.elems, 0 < e ∧ e < t.brk
  ascending : Ascending rank t T.elems

/-- Every entry before the place is smaller than the key, every entry behind it larger. -/
structure Between (rank : K → α) (t : Tree K V) (fs : Place) (key : K) : Prop where
  left : ∀ e ∈ (before fs).flatMap Prod.snd, rank (t.key e) < rank key
  right : ∀ e ∈ (after fs).flatMap Prod.snd, rank key < rank (t.key e)

/-! ## One node -/

section
variable {type : KeyType K V} {rank : K → α} {t : Tree K V} {key : K}

theorem childPos_spec (ho : KeyOrder type rank) (keys : Nat → K) (r i : Nat) :
    i ≤ childPos type key keys r i ∧ childPos type key keys r i ≤ i + r ∧
      (∀ j, i ≤ j → j < childPos type key keys r i → rank (keys j) ≤ rank key) ∧
      (childPos type key keys r i < i + r →
      rank key < rank (keys (childPos type key keys r i))) := by
  induction r generalizing i with
  | zero =>
    unfold childPos
    exact ⟨le_rfl, le_rfl, fun j h1 h2 => by omega, fun h => by omega⟩
  | succ r ih =>
    unfold childPos
    have hlt := ho.lt key (keys i)
    split_ifs with h
    · exact ⟨le_rfl, by omega, fun j h1 h2 => by omega, fun _ => hlt.1 h⟩
    · obtain ⟨h1, h2, h3, h4⟩ := ih (i + 1)
      refine ⟨by omega, by omega, fun j hj hj' => ?_, fun hj => h4 (by omega)⟩
      by_cases hji : j = i
      · rw [hji]
        exact not_lt.1 fun hn => h (hlt.2 hn)
      · exact h3 j (by omega) hj'

/-- The position of a key among entries: the entry with this key, or the place where it belongs. -/
structure Position (rank : K → α) (t : Tree K V) (key : K) (es : List Ptr) (e : Ptr) (i : Nat) :
    Prop where
  le : i ≤ es.length
  left : ∀ x ∈ es.take i, rank (t.key x) < rank key
  found : e ≠ 0 → es[i]? = some e ∧ rank (t.key e) = rank key
  absent : e = 0 → ∀ x ∈ es.drop i, rank key < rank (t.key x)

theorem entryPos_spec (ho : KeyOrder type rank) {entries : Nat → Ptr} {es ls : List Ptr}
    (hrep : Rep entries (ls ++ es)) (hpos : ∀ x ∈ es, x ≠ 0) (hasc : Ascending rank t es)
    (hls : ∀ x ∈ ls, rank (t.key x) < rank key) :
    Position rank t key (ls ++ es) (entryPos type t key entries es.length ls.length).1
      (entryPos type t key entries es.length ls.length).2 := by
  induction es generalizing ls with
  | nil =>
    unfold entryPos
    refine ⟨by simp, ?_, fun h => absurd rfl h, fun _ x hx => ?_⟩
    · simpa using hls
    · simp at hx
  | cons x es ih =>
    have hx : entries ls.length = x := hrep.get (by simp)
    have hlt := ho.lt key (t.key x)
    have heq := ho.eq key (t.key x)
    unfold entryPos
    rw [List.length_cons]
    dsimp only
    rw [hx]
    split_ifs with h1 h2
    · refine ⟨by simp, ?_, fun h => absurd rfl h, fun _ y hy => ?_⟩
      · simpa using hls
      · rw [List.drop_left, List.mem_cons] at hy
        rcases hy with rfl | hy
        · exact hlt.1 h1
        · exact (hlt.1 h1).trans ((List.pairwise_cons.1 hasc).1 y hy)
    · refine ⟨by simp, ?_, fun _ => ⟨by simp, (heq.1 h2).symm⟩,
        fun h => absurd h (hpos x List.mem_cons_self)⟩
      simpa using hls
    · have hgt : rank (t.key x) < rank key := by
        refine lt_of_le_of_ne (not_lt.1 fun hn => h1 (hlt.2 hn)) fun hn => h2 (heq.2 hn.symm)
      have hrep' : Rep entries ((ls ++ [x]) ++ es) := by simpa using hrep
      have := ih hrep' (fun y hy => hpos y (List.mem_cons_of_mem _ hy))
        (List.pairwise_cons.1 hasc).2 (by
          intro y hy
          rw [List.mem_append, List.mem_singleton] at hy
          rcases hy with hy | rfl
          · exact hls y hy
          · exact hgt)
      rwa [List.append_assoc, List.singleton_append, List.length_append,
        List.length_singleton] at this

end

/-! ## The way down -/

/-- The leaf in which a key belongs, and the way there. -/
structure Reached (rank : K → α) (t : Tree K V) (key : K) (T : Shape) (path : PathInfo)
    (gs : Place) (p : Ptr) (es : List Ptr) : Prop extends Placed t T path gs p es where
  between : Between rank t gs key
  low : (∃ f ∈ gs, f.left ≠ []) → rank (minKey t (.leaf p es)) ≤ rank key

section
variable {type : KeyType K V} {rank : K → α} {t : Tree K V} {key : K} {l r : Nat} {T : Shape}
  {fs gs : Place} {path : PathInfo}

omit [DecidableEq K] in
/-- What a child of an inner node has around it, when the scan of the keys stops there. -/
theorem Between.descend {p : Ptr} {c : Shape} {L R : List Shape} (hbetween : Between rank t fs key)
    (hasc : Ascending rank t (node p (L ++ c :: R) : Shape).elems) (hc : c.elems ≠ [])
    (hR : ∀ d ∈ R, d.elems ≠ [])
    (hleft : L ≠ [] → rank (minKey t c) ≤ rank key)
    (hright : ∀ d ∈ R.head?, rank key < rank (minKey t d)) :
    Between rank t (⟨p, L, R⟩ :: fs) key := by
  rw [elems_node, List.flatMap_append, List.flatMap_cons] at hasc
  obtain ⟨-, hasc', hcross⟩ := List.pairwise_append.1 hasc
  obtain ⟨-, hascR, -⟩ := List.pairwise_append.1 hasc'
  constructor
  · intro e he
    simp only [before, List.flatMap_append, List.mem_append] at he
    rcases he with he | he
    · exact hbetween.left e he
    · have heL : e ∈ L.flatMap elems := by
        rw [List.flatMap_assoc] at he
        exact he
      have hL : L ≠ [] := by
        intro hnil
        rw [hnil] at heL
        cases heL
      refine (hcross e heL (c.elems.headD 0) ?_).trans_le (hleft hL)
      refine List.mem_append_left _ ?_
      cases hce : c.elems with
      | nil => exact absurd hce hc
      | cons x xs => exact List.mem_cons_self
  · intro e he
    simp only [after, List.flatMap_append, List.mem_append] at he
    rcases he with he | he
    · have heR : e ∈ R.flatMap elems := by
        rw [List.flatMap_assoc] at he
        exact he
      cases R with
      | nil => cases heR
      | cons d R =>
        have hd := hright d rfl
        have hdne := hR d List.mem_cons_self
        unfold minKey at hd
        rw [List.flatMap_cons] at heR hascR
        cases hde : d.elems with
        | nil => exact absurd hde hdne
        | cons x xs =>
          rw [hde] at hd heR hascR
          rw [List.cons_append, List.mem_cons] at heR
          rcases heR with rfl | heR
          · exact hd
          · exact hd.trans ((List.pairwise_cons.1 hascR).1 e heR)
    · exact hbetween.right e he

variable {cs : List Shape}

omit [DecidableEq K] [LinearOrder α] in
theorem InnerOk.child_ptr {root : Bool} {p : Ptr} {i : Nat}
    (h : InnerOk (t.node p) root l (cs.map (item t))) (hi : i < cs.length) :
    (t.node p).children i = cs[i].ptr := by
  refine h.child.get ?_
  rw [List.map_map, List.getElem?_map, List.getElem?_eq_getElem hi]
  rfl

theorem take_cons_drop {i : Nat} (hi : i < cs.length) :
    cs = cs.take i ++ cs[i] :: cs.drop (i + 1) := by
  rw [← List.drop_eq_getElem_cons hi, List.take_append_drop]

omit [DecidableEq K] [LinearOrder α] in
/-- What is around a child of an inner node. -/
theorem Around.descend {p : Ptr} {i : Nat} (h : Around t (l + 1) fs (item t (.node p cs)))
    (hnode : InnerOk (t.node p) fs.isEmpty (l + 1) (cs.map (item t)))
    (hcs : ∀ c ∈ cs, Sub t false l c) (hi : i < cs.length) :
    Around t l (⟨p, cs.take i, cs.drop (i + 1)⟩ :: fs) (item t cs[i]) := by
  have hsplit := take_cons_drop hi
  have hne : ∀ d ∈ cs, d.elems ≠ [] := fun d hd => (hcs d hd).elems_ne_nil
  refine ⟨?_, ?_, ?_⟩
  · unfold frameItems
    rw [← List.map_cons, ← List.map_append, ← hsplit]
    exact hnode
  · intro c hc
    rw [List.mem_append] at hc
    exact hcs c (hc.elim List.mem_of_mem_take List.mem_of_mem_drop)
  · have hfill := item_fill (t := t) (f := ⟨p, cs.take i, cs.drop (i + 1)⟩)
      (hne _ (List.getElem_mem hi)) fun c hc => hne c (List.mem_of_mem_take hc)
    unfold Frame.fill at hfill
    dsimp only at hfill
    rw [← hsplit] at hfill
    rw [hfill] at h
    exact h

/-- The path to a child of an inner node. -/
theorem Along.descend (h : Along path (l + 1) fs) (p : Ptr) {i : Nat} (hi : i < cs.length) :
    Along { n := Function.update path.n (l + 1) p, p := Function.update path.p (l + 1) i } l
      (⟨p, cs.take i, cs.drop (i + 1)⟩ :: fs) := by
  refine ⟨Function.update_self _ _ _, ?_, h.congr fun j hj => ⟨?_, ?_⟩⟩
  · rw [List.length_take_of_le hi.le]
    exact Function.update_self _ _ _
  · exact Function.update_of_ne (by omega) _ _
  · exact Function.update_of_ne (by omega) _ _

theorem plug_descend (fs : Place) (p : Ptr) {i : Nat} (hi : i < cs.length) :
    plug (⟨p, cs.take i, cs.drop (i + 1)⟩ :: fs) cs[i] = plug fs (.node p cs) := by
  rw [plug, Frame.fill, ← take_cons_drop hi]

theorem findLeafLoop_spec (ho : KeyOrder type rank) (hsub : Sub t fs.isEmpty l T)
    (haround : Around t l fs (item t T)) (halong : Along path l fs)
    (hasc : Ascending rank t T.elems) (hbetween : Between rank t fs key)
    (hlow : (∃ f ∈ fs, f.left ≠ []) → rank (minKey t T) ≤ rank key) (hr : l < r) :
    ∃ gs p es path', findLeafLoop type t key r T.ptr path = some path' ∧
      Reached rank t key (plug fs T) path' gs p es := by
  -- down along the levels, with the frames of the way so far
  induction l generalizing T fs path r with
  | zero =>
    obtain ⟨r, rfl⟩ := Nat.exists_eq_add_of_lt hr
    cases T with
    | node p cs => exact hsub.elim
    | leaf p es =>
      have hleaf : (t.node p).leaf = true := LeafOk.leaf hsub
      refine ⟨fs, p, es, { path with n := Function.update path.n 0 p }, ?_,
        ⟨rfl, hsub, haround, ?_, ?_⟩, hbetween, hlow⟩
      · unfold findLeafLoop
        dsimp only
        rw [ptr_leaf, if_pos hleaf]
      · refine halong.congr fun j hj => ⟨?_, rfl⟩
        exact Function.update_of_ne (by omega) _ _
      · exact Function.update_self 0 p path.n
  | succ l ih =>
    obtain ⟨r, rfl⟩ := Nat.exists_eq_succ_of_ne_zero (Nat.ne_zero_of_lt hr)
    cases T with
    | leaf p es => exact hsub.elim
    | node p cs =>
      obtain ⟨hnode, hcs⟩ := hsub
      have hcount := hnode.count
      rw [List.length_map] at hcount
      obtain ⟨i, hpos⟩ : ∃ i, i = childPos type key (t.node p).keys (t.node p).count 0 := ⟨_, rfl⟩
      obtain ⟨-, hle, hleft, hright⟩ :=
        @childPos_spec _ _ _ _ _ _ _ key ho (t.node p).keys (t.node p).count 0
      rw [← hpos, Nat.zero_add] at hle hright
      rw [← hpos] at hleft
      have hi : i < cs.length := by omega
      have hsplit := take_cons_drop hi
      have hne : ∀ d ∈ cs, d.elems ≠ [] := fun d hd => (hcs d hd).elems_ne_nil
      -- the key on the left of a child
      have hkey : ∀ j (hj : j + 1 < cs.length), (t.node p).keys j = minKey t cs[j + 1] := by
        intro j hj
        refine hnode.key.get ?_
        rw [← List.map_tail, List.map_map, List.getElem?_map, List.getElem?_tail,
          List.getElem?_eq_getElem hj]
        rfl
      have hsep : cs.take i ≠ [] → rank (minKey t cs[i]) ≤ rank key := by
        intro hL
        have hi0 : i ≠ 0 := by
          intro h0
          rw [h0] at hL
          exact hL rfl
        have := hleft (i - 1) (Nat.zero_le _) (by omega)
        rw [hkey (i - 1) (by omega)] at this
        simpa only [Nat.sub_add_cancel (Nat.pos_of_ne_zero hi0)] using this
      have hlow' : (∃ f ∈ (⟨p, cs.take i, cs.drop (i + 1)⟩ :: fs : Place), f.left ≠ []) →
          rank (minKey t cs[i]) ≤ rank key := by
        intro hex
        by_cases hL : cs.take i = []
        · -- the first child has the first key of the node
          obtain ⟨f, hf, hfl⟩ := hex
          rcases List.mem_cons.1 hf with rfl | hf
          · exact absurd hL hfl
          · have hle := hlow ⟨f, hf, hfl⟩
            rw [hL, List.nil_append] at hsplit
            rw [hsplit, minKey_node (hne _ (List.getElem_mem hi))] at hle
            exact hle
        · exact hsep hL
      have hbet : Between rank t (⟨p, cs.take i, cs.drop (i + 1)⟩ :: fs) key := by
        rw [hsplit] at hasc
        refine hbetween.descend hasc (hne _ (List.getElem_mem hi))
          (fun d hd => hne d (List.mem_of_mem_drop hd)) hsep ?_
        · intro d hd
          rw [List.head?_drop] at hd
          obtain ⟨hi', hd'⟩ := List.getElem?_eq_some_iff.1 (Option.mem_def.1 hd)
          have := hright (by omega)
          rwa [hkey i hi', hd'] at this
      have hascc : Ascending rank t cs[i].elems := by
        rw [elems_node, hsplit, List.flatMap_append, List.flatMap_cons] at hasc
        exact (List.pairwise_append.1 (List.pairwise_append.1 hasc).2.1).1
      have hchildSub : Sub t (List.isEmpty (Frame.mk p (cs.take i) (cs.drop (i + 1)) :: fs)) l
        cs[i] :=
        hcs _ (List.getElem_mem hi)
      obtain ⟨gs, q, es, path', hrun, hreached⟩ :=
        ih hchildSub (haround.descend hnode hcs hi) (halong.descend p hi) hascc hbet hlow'
          (Nat.lt_of_succ_lt_succ hr)
      refine ⟨gs, q, es, path', ?_, ?_⟩
      · unfold findLeafLoop
        dsimp only
        rw [ptr_node, hnode.leaf, if_neg (by simp), hnode.level, ← hpos, hnode.child_ptr hi]
        exact hrun
      · rw [← plug_descend fs p hi]
        exact hreached

/-- **Search.** The path leads to the leaf in which the key belongs, and to the position there. -/
theorem bptreeFindEntry_spec {L : Nat} (ho : KeyOrder type rank) (h : Holds rank t L T) (key : K)
    (path : PathInfo) :
    ∃ gs p es path' e i, bptreeFindEntry type t key path = some (e, path') ∧
      Reached rank t key T path' gs p es ∧ path'.p 0 = i ∧ Position rank t key es e i := by
  have hroot : t.root ≠ 0 := by
    rw [h.root]
    exact Nat.ne_of_gt (h.bound _ (ptr_mem_ptrs T)).1
  have hheight : t.height = L + 1 := by
    unfold Tree.height
    rw [h.root, h.sub.level]
  have hloop : ∃ gs p es path', findLeafLoop type t key (L + 1) T.ptr path = some path' ∧
      Reached rank t key (plug [] T) path' gs p es :=
    findLeafLoop_spec ho h.sub trivial trivial h.ascending
      ⟨fun e he => (nomatch he), fun e he => (nomatch he)⟩
      (fun hex => by simp at hex) (Nat.lt_succ_self L)
  obtain ⟨gs, p, es, path', hrun, hreached⟩ := hloop
  have helems := hreached.plugged
  have hmem : ∀ x ∈ es, x ∈ T.elems := by
    intro x hx
    rw [← show plug [] T = T from rfl, ← helems, elems_plug, elems_leaf]
    simp [hx]
  have hasc : Ascending rank t es := by
    have hall := h.ascending
    rw [← show plug [] T = T from rfl, ← helems, elems_plug, elems_leaf] at hall
    exact (List.pairwise_append.1 (List.pairwise_append.1 hall).1).2.1
  have hpos : Position rank t key es (entryPos type t key (t.node p).entries es.length 0).1
      (entryPos type t key (t.node p).entries es.length 0).2 :=
    entryPos_spec ho (show Rep _ ([] ++ es) from hreached.leaf.entry)
      (fun x hx => Nat.ne_of_gt (h.stored x (hmem x hx)).1) hasc (fun x hx => (nomatch hx))
  refine ⟨gs, p, es, { path' with p := Function.update path'.p 0 _ }, _, _, ?_,
    ⟨⟨helems, hreached.leaf, hreached.around, ?_, hreached.here⟩, hreached.between, hreached.low⟩,
    Function.update_self 0 _ path'.p, hpos⟩
  · unfold bptreeFindEntry
    rw [if_neg hroot, hheight, h.root, hrun]
    dsimp only [bind, Option.bind]
    rw [hreached.here, hreached.leaf.count]
    rfl
  · refine hreached.along.congr fun j hj => ⟨rfl, ?_⟩
    exact Function.update_of_ne (Nat.ne_of_gt hj) _ _

end

end Bptree
