import DsAlgor.Bptree.DeleteLeaf
import DsAlgor.Bptree.Find

/-!
# The key of a deleted entry

The first entry of a leaf is the key of at most one inner node: the one where the way to the leaf
last turned to the right. `_removeKeyInPath` finds it and puts the key of the next entry there
(`removeKeyInPath_spec`).
-/

namespace Bptree

open CArray PtrTree

variable {K V α : Type} [DecidableEq K] [LinearOrder α]

section
variable {type : KeyType K V} {rank : K → α} {t : Tree K V} {path : PathInfo} {l L i : Nat}
  {T : Shape} {fs gs : Place} {p q : Ptr} {k k' delkey : K} {es : List Ptr}

omit [DecidableEq K] in
theorem Body.headKey {n : Node K} {R : List (Ptr × K)} (h : Body n ((q, k) :: R)) (k' : K) :
    Body n ((q, k') :: R) :=
  ⟨h.count, h.child, h.key⟩

omit [DecidableEq K] in
/-- The first key of the tree is nowhere in an inner node. -/
theorem Around.first (h : Around t l fs (q, k)) (hleft : ∀ f ∈ fs, f.left = []) (k' : K) :
    Around t l fs (q, k') := by
  induction fs generalizing l q k with
  | nil => trivial
  | cons f fs ih =>
    obtain ⟨hf, hsub, haround⟩ := h
    have hfl := hleft f List.mem_cons_self
    unfold frameItems at hf
    unfold frameMin at haround
    rw [hfl] at hf haround
    refine ⟨?_, hsub, ?_⟩
    · unfold frameItems
      rw [hfl]
      exact { hf with toBody := hf.toBody.headKey k' }
    · unfold frameMin
      rw [hfl]
      exact ih haround fun g hg => hleft g (List.mem_cons_of_mem _ hg)

/-- Only keys have changed. -/
structure Rekeyed (t t' : Tree K V) (S : List Ptr) : Prop extends Kept t t' S where
  root : t'.root = t.root
  next : ∀ p, (t'.node p).next = (t.node p).next

theorem removeKeyLoop_spec (k' : K) (h : Around t l fs (q, k)) (halong : Along path l fs)
    (hnodup : (framePtrs fs).Nodup) (hbound : ∀ p ∈ framePtrs fs, p < t.brk)
    (hdel : type.compareKeys delkey k = 0) :
    Around (removeKeyLoop type path delkey k' fs.length (l + 1) t) l fs (q, k') ∧
      Rekeyed t (removeKeyLoop type path delkey k' fs.length (l + 1) t) (fs.map Frame.ptr) := by
  -- up along the frames, as long as they have nothing on the left
  induction fs generalizing l q with
  | nil =>
    exact ⟨trivial, ⟨rfl, rfl, rfl, rfl, rfl, rfl, le_rfl, fun _ _ _ => rfl⟩, rfl, fun _ => rfl⟩
  | cons f fs ih =>
    obtain ⟨hf, hsub, haround⟩ := h
    obtain ⟨hfn, hfp, halong⟩ := halong
    rw [framePtrs, List.nodup_cons, List.mem_append, not_or] at hnodup
    obtain ⟨⟨hfsub, hffs⟩, hrest⟩ := hnodup
    have hlt : ∀ p ∈ framePtrs fs, p < t.brk := fun p hp =>
      hbound p (List.mem_cons_of_mem _ (List.mem_append_right _ hp))
    have hltc : ∀ c ∈ f.left ++ f.right, ∀ p ∈ c.ptrs, p < t.brk := fun c hc p hp =>
      hbound p (List.mem_cons_of_mem _ (List.mem_append_left _ (List.mem_flatMap.2 ⟨c, hc, hp⟩)))
    rw [List.length_cons, removeKeyLoop, hfn, hfp]
    cases hleft : f.left with
    | nil =>
      rw [List.length_nil, if_pos rfl]
      unfold frameItems at hf
      unfold frameMin at haround
      rw [hleft] at hf haround
      obtain ⟨har, hkeep⟩ := ih haround halong (List.nodup_append.1 hrest).2.1 hlt
      have hframe : ∀ p ∈ fs.map Frame.ptr, p ∈ framePtrs fs := by
        intro p hp
        have hcount := count_framePtrs fs p
        have hpos := List.count_pos_iff.2 hp
        exact List.count_pos_iff.1 (by omega)
      refine ⟨⟨?_, ?_, ?_⟩, hkeep.toKept.mono (List.subset_cons_self _ _), hkeep.root, hkeep.next⟩
      · unfold frameItems
        rw [hleft, hkeep.node f.ptr (hbound _ List.mem_cons_self) (fun hm => hffs (hframe _ hm)),
          item_of_entry hkeep.entry]
        exact { hf with toBody := hf.toBody.headKey k' }
      · intro c hc
        refine (hsub c hc).kept hkeep.toKept fun p hp => ⟨hltc c hc p hp, fun hm => ?_⟩
        exact (List.nodup_append.1 hrest).2.2 p (List.mem_flatMap.2 ⟨c, hc, hp⟩) p (hframe p hm) rfl
      · unfold frameMin
        rw [hleft]
        exact har
    | cons c cs =>
      -- here the key is
      have hkey : (t.node f.ptr).keys (f.left.length - 1) = k := by
        refine hf.key.get ?_
        unfold frameItems
        rw [hleft]
        simp
      have hne : f.left.map (item t) ≠ [] := by
        rw [hleft]
        exact List.cons_ne_nil _ _
      have hbody := Body.setKey (f.left.map (item t)) hf.toBody hne k'
      rw [List.length_map] at hbody
      rw [List.length_cons, if_neg (Nat.succ_ne_zero _), ← List.length_cons (a := c), ← hleft,
        hkey, if_pos hdel]
      have hkept := kept_setNode t f.ptr
        { t.node f.ptr with keys := Function.update (t.node f.ptr).keys (f.left.length - 1) k' }
      refine ⟨⟨?_, ?_, ?_⟩, hkept.mono (by simp), rfl, ?_⟩
      · rw [setNode_self, frameItems_of_entry hkept.entry]
        have hlen : (frameItems t f (q, k')).length = (frameItems t f (q, k)).length := by
          unfold frameItems
          rw [List.length_append, List.length_append]
          rfl
        refine ⟨hbody, hf.leaf, hf.level, ?_, ?_⟩
        · rw [hlen]
          exact hf.least
        · rw [hlen]
          exact hf.most
      · intro d hd
        refine (hsub d hd).kept hkept fun p hp => ⟨hltc d hd p hp, ?_⟩
        rw [List.mem_singleton]
        intro heq
        exact hfsub (List.mem_flatMap.2 ⟨d, hd, heq ▸ hp⟩)
      · rw [frameMin_of_entry hkept.entry]
        have hmin : frameMin t f k' = frameMin t f k := by
          unfold frameMin
          rw [hleft]
        rw [hmin]
        refine haround.kept hkept fun p hp => ⟨hlt p hp, ?_⟩
        rw [List.mem_singleton]
        intro heq
        exact hffs (heq ▸ hp)
      · intro p
        by_cases hp : p = f.ptr
        · rw [hp, setNode_self]
        · rw [setNode_of_ne hp]

omit [DecidableEq K] in
/-- The leaf whose entry goes, with the right keys above it. -/
theorem Placed.leaving {t' : Tree K V} (h : Placed t T path gs p es) (hb : Built t L T)
    (hpos : path.p 0 = i) (hi : i < es.length) (hre : Rekeyed t t' (gs.map Frame.ptr))
    (haround : Around t' 0 gs (p, minKey t (.leaf p (es.eraseIdx i)))) :
    Leaving t' path gs p es i := by
  have hnode : t'.node p = t.node p := by
    refine hre.node p (hb.bound p h.mem).2 fun hm => ?_
    have hcount := count_framePtrs gs p
    have hone := List.nodup_iff_count_le_one.1 (h.nodup hb) p
    have hpos := List.count_pos_iff.2 hm
    rw [List.count_cons_self] at hone
    omega
  refine ⟨⟨?_, h.along, h.here, List.mem_singleton_self p, ?_, h.nodup hb, ?_, ?_, ?_⟩, ?_,
    hpos, hi, ?_, ?_⟩
  · rw [minKey_of_entry hre.entry]
    exact haround
  · rw [hnode]
    exact h.leaf.level
  · intro q hq
    exact (hb.bound q (h.perm.mem_iff.2 hq)).imp_right fun hlt => hlt.trans_le hre.brk
  · rw [hre.root]
    exact h.root hb []
  · rw [hre.innerOrder]
    exact hb.innerOrder
  · rw [hnode]
    exact h.leaf
  · rw [hre.min]
    exact (h.chain hb).congr fun q _ => hre.next q
  · rw [hre.leafOrder]
    exact hb.leafOrder

theorem removeKeyInPath_spec (h : Placed t T path gs p es) (hb : Built t L T) (hpos : path.p 0 = i)
    (hi : i < es.length) (hdel : type.compareKeys delkey (t.key es[i]) = 0) :
    Leaving (removeKeyInPath type t path delkey) path gs p es i ∧
      Rekeyed t (removeKeyInPath type t path delkey) (gs.map Frame.ptr) := by
  have hsame : Rekeyed t t (gs.map Frame.ptr) :=
    ⟨⟨rfl, rfl, rfl, rfl, rfl, rfl, le_rfl, fun _ _ _ => rfl⟩, rfl, fun _ => rfl⟩
  have hrounds : (t.node t.root).level = gs.length := by
    rw [hb.root, ← h.plugged, ← Nat.zero_add gs.length]
    exact h.around.level (T := .leaf p es) h.leaf.level
  unfold removeKeyInPath
  dsimp only
  rw [hpos, h.here, hrounds, h.leaf.count]
  by_cases hi0 : i = 0
  · subst hi0
    rw [if_pos rfl]
    cases gs with
    | nil =>
      -- no inner nodes
      have hleaving : Leaving t path [] p es 0 := h.leaving hb hpos hi hsame trivial
      split
      · exact ⟨hleaving, hsame⟩
      · exact ⟨hleaving, hsame⟩
    | cons f fs =>
      have hleast : 32 ≤ es.length := h.leaf.least
      obtain ⟨e, e', es', rfl⟩ : ∃ e e' es', es = e :: e' :: es' := by
        match es, hleast with
        | e :: e' :: es', _ => exact ⟨e, e', es', rfl⟩
        | [_], hlt => simp at hlt
        | [], hlt => simp at hlt
      have hnext : (t.node p).entries (0 + 1) = e' := h.leaf.entry.get rfl
      rw [if_pos (by simp), hnext]
      dsimp only
      have hbound : ∀ q ∈ framePtrs (f :: fs), q < t.brk := fun q hq => (h.frame_bound hb hq).1
      obtain ⟨haround, hre⟩ := removeKeyLoop_spec (t.key e') h.around h.along
        (List.nodup_cons.1 (h.nodup hb)).2 hbound hdel
      exact ⟨h.leaving hb hpos hi hre haround, hre⟩
  · rw [if_neg hi0]
    refine ⟨h.leaving hb hpos hi hsame ?_, hsame⟩
    have hitem : (p, minKey t (.leaf p (es.eraseIdx i))) = item t (.leaf p es) := by
      obtain ⟨j, rfl⟩ := Nat.exists_eq_succ_of_ne_zero hi0
      unfold item minKey
      rw [elems_leaf, elems_leaf, ptr_leaf]
      cases es with
      | nil => rfl
      | cons e es => rfl
    rw [hitem]
    exact h.around

/-- **Deletion of an entry.** -/
theorem deleteFromLeafNode_spec (h : Placed t T path gs p es) (hb : Built t L T)
    (hpos : path.p 0 = i) (hi : i < es.length) (hdel : type.compareKeys delkey (t.key es[i]) = 0) :
    ∃ t' L' T', deleteFromLeafNode type t path delkey = some t' ∧ t'.count = t.count - 1 ∧
      Changed t t' T.ptrs L' T'
        ((before gs).flatMap Prod.snd ++ es.eraseIdx i ++ (after gs).flatMap Prod.snd) := by
  obtain ⟨hleaving, hre⟩ := removeKeyInPath_spec h hb hpos hi hdel
  obtain ⟨t', L', T', hrun, hcount, hchanged⟩ := hleaving.delete
  refine ⟨{ t' with count := t'.count - 1 }, L', T', ?_, ?_, ?_⟩
  · unfold deleteFromLeafNode
    dsimp only
    split_ifs at hrun ⊢ with hc
    · rw [hrun]
      rfl
    · rw [hrun]
      rfl
  · rw [hcount, hre.count]
  · have hc := (hchanged.count (t'.count - 1)).perm h.perm.symm
    refine ⟨hc.toBuilt, hc.elems, hc.entry.trans hre.entry, hc.path.trans hre.path,
      hre.brk.trans hc.brk, ?_, ?_⟩
    · intro q hlt hq
      rw [hc.node q (hlt.trans_le hre.brk) hq]
      refine hre.node q hlt fun hm => hq (h.perm.mem_iff.2 (List.mem_cons_of_mem _ ?_))
      have hcount := count_framePtrs gs q
      have hpos := List.count_pos_iff.2 hm
      exact List.count_pos_iff.1 (by omega)
    · intro q hq
      exact (hc.fresh q hq).imp_right hre.brk.trans

end

end Bptree
