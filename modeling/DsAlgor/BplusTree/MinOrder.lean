import DsAlgor.BplusTree.Atomic

/-!
# The smallest order

`MIN_ORDER` is 3, but the division of a node of order 3 gives the sibling a single child, and a
later deletion there reads `key[0]` of a node without keys. `safe_iff`: the trees of a given order
and level are safe in every reachable state if and only if the order is at least 4 or the tree can
have at most one inner node (`level ≤ 2`).
-/

namespace BplusTree

open CArray Levels

/-- Every inner node has at least two children, and no put reads a key or a sibling that is not
there. -/
def Safe (t : Tree) : Prop :=
  (t.root ≠ 0 → ∀ p, Under t.heap t.root p → t.heap.type p = .nonLeaf →
    2 ≤ (t.heap.nonLeaf p).children) ∧
  ∀ key data, bplusTreePut t key data ≠ .error .staleRead

/-! ## Order 4 and more -/

section
variable {t : Tree} {E : Nat → Ptr → Prop}

/-- An inner node of the tree and its children. -/
theorem Above.mem_allPtrs :
    ∀ {Gss : List (List (Group Int Ptr))} {i : Nat} {items : List (Item Int Ptr)},
      Above t E i items Gss → ∀ p ∈ allPtrs Gss, ∃ g, g.ptr = p ∧ NodeOk t g ∧
      ∀ c ∈ g.items, c.2 ∈ items.map Prod.snd ++ allPtrs Gss
  | [], _, _, _, p, hp => by simp at hp
  | Gs :: rest, _, _, h, p, hp => by
    rw [allPtrs_cons] at hp
    rcases List.mem_append.1 hp with hp | hp
    · obtain ⟨g, hg, rfl⟩ := List.mem_map.1 hp
      refine ⟨g, rfl, h.levelOk.node g hg, fun c hc => List.mem_append_left _ ?_⟩
      rw [← h.flat_eq]
      exact List.mem_map_of_mem (mem_flat.2 ⟨g, hg, hc⟩)
    · obtain ⟨g, rfl, hn, hc⟩ := h.upper.mem_allPtrs p hp
      refine ⟨g, rfl, hn, fun c hcm => List.mem_append_right _ ?_⟩
      have := hc c hcm
      rwa [map_snd_heads, ← allPtrs_cons] at this

theorem TreeOk.mem_of_under {L : List LeafNode} {Gss : List (List (Group Int Ptr))}
    (h : TreeOk t E L Gss) {p : Ptr} (hu : Under t.heap t.root p) :
    p ∈ leafPtrs L ++ allPtrs Gss := by
  induction hu with
  | refl =>
    rw [← map_snd_leafItems]
    exact h.above.root_mem
  | @child q c _ hq hc ih =>
    rcases List.mem_append.1 ih with ih | ih
    · obtain ⟨a, ha, rfl⟩ := List.mem_map.1 ih
      rw [(h.leaves.leaf a ha).type] at hq
      cases hq
    · obtain ⟨g, rfl, hn, hg⟩ := h.above.mem_allPtrs q ih
      rw [hn.children_eq] at hc
      obtain ⟨e, he, rfl⟩ := List.mem_map.1 hc
      rw [← map_snd_leafItems]
      exact hg e he

theorem Models.safe {m : Map} (h : Models t E m) (hE : ∀ i, E i 0) : Safe t := by
  refine ⟨fun hr p hu hp => ?_, fun key data hc => ?_⟩
  · obtain ⟨C, ⟨he, -⟩ | ⟨L, Gss, hT, -⟩, -⟩ := h.holds
    · exact absurd he.1 hr
    · rcases List.mem_append.1 (hT.mem_of_under hu) with hm | hm
      · obtain ⟨a, ha, rfl⟩ := List.mem_map.1 hm
        rw [(hT.leaves.leaf a ha).type] at hp
        cases hp
      · obtain ⟨g, rfl, hn, -⟩ := hT.above.mem_allPtrs p hm
        rw [hn.body.children]
        exact hn.two
  · obtain ⟨r, t', hrun, -⟩ := bplusTreePut_spec h hE key data
    rw [hrun] at hc
    cases hc

end

/-! ## Order 3 with a third level

Ascending keys fill a root with three leaves; the next division of a leaf divides the root. -/

section
variable {t : Tree} {E : Nat → Ptr → Prop} {L₁ L₂ : List LeafNode}
  {Gss : List (List (Group Int Ptr))}
  {a : LeafNode} {key data : Int} {K₁ K₂ : List (Int × Int)}

/-- An inner node with less than two children. -/
def Lonely (t : Tree) : Prop :=
  t.root ≠ 0 ∧ ∃ p, Under t.heap t.root p ∧ t.heap.type p = .nonLeaf ∧
    (t.heap.nonLeaf p).children < 2

theorem Above.items_ne_nil :
    ∀ {Gss : List (List (Group Int Ptr))} {i : Nat} {items : List (Item Int Ptr)},
      Above t E i items Gss → items ≠ []
  | [], _, _, h => by
    obtain ⟨lo, rfl⟩ := h.tower
    simp
  | Gs :: rest, _, _, h => by
    have hne := h.upper.items_ne_nil
    obtain ⟨g, Gs', rfl⟩ := List.exists_cons_of_ne_nil (by rintro rfl; exact hne rfl : Gs ≠ [])
    rw [← h.flat_eq, flat_cons]
    exact List.append_ne_nil_of_left_ne_nil (h.tower.2.1 g List.mem_cons_self) _

/-- The height of the tree shows in `head`. -/
theorem TreeOk.length_le {L : List LeafNode} (h : TreeOk t E L Gss) {n : Nat}
    (hn : t.head (n + 1) = 0) :
    Gss.length ≤ n := by
  by_contra hc
  obtain ⟨k, Gs, rest, hab, -, hlen, hk, -⟩ :=
    h.above.level_at h.leaves.spans (Gss.length - 1 - n) (by omega)
  obtain ⟨e, -, hch⟩ := hab.levelOk.chain
  have hne := hab.upper.items_ne_nil
  obtain ⟨g, Gs', rfl⟩ := List.exists_cons_of_ne_nil (by rintro rfl; exact hne rfl : Gs ≠ [])
  rw [show 1 + k = n + 1 by omega, hn, ptrs_cons] at hch
  exact (hab.bound g.ptr (by simp)).1.ne hch.1

/-- The division of a root of order 3 leaves a node with one child. -/
theorem lonely_newRoot {T : Tree} {l r : Ptr} {sk : Int} {i : Nat} {J : List (Item Int Ptr)}
    (hr : r < T.heap.brk) (htype : T.heap.type r = .nonLeaf) (hbody : Body (T.heap.nonLeaf r) J)
    (hJ : J.length < 2) : Lonely (newRoot T l r sk i) := by
  have hf := newRoot_frame T l r sk i
  have hroot : (newRoot T l r sk i).root = T.heap.brk := rfl
  refine ⟨by rw [hroot]; exact (Nat.zero_lt_of_lt hr).ne', r, ?_, ?_, ?_⟩
  · refine Under.child .refl ?_ ?_
    · simp [newRoot, nonLeafNew, Heap.setParent, Heap.setNonLeaf]
    · simp [Heap.children, segment, newRoot, nonLeafNew, Heap.setParent, Heap.setNonLeaf,
        List.range_succ]
  · rw [hf.type r hr (by simp)]
    exact htype
  · rw [hf.nonLeaf r hr (by simp), hbody.children]
    exact hJ

/-- One insertion into a tree of order 3 with at most two levels. -/
theorem LeafInsertPre.order_three (h : LeafInsertPre t E L₁ a L₂ Gss key data K₁ K₂)
    (hE : ∀ i, E i 0)
    (ho : t.order = 3) (he : 1 ≤ t.entries) (hl : 3 ≤ t.level) (hh : t.head 2 = 0) :
    ∃ t', leafInsert t a.ptr key data = .ok (0, t') ∧ SameParams t t' ∧ t'.stderr = t.stderr ∧
      (Lonely t' ∨ t'.head 2 = 0 ∧ LeafInserted t E (L₁ ++ a :: L₂) key data t') := by
  by_cases hlen : a.kvs.length = t.entries
  · cases hG : Gss with
    | nil =>
      subst hG
      obtain ⟨t', hrun, hf, hhead, hins⟩ := h.run_root hE (by omega) he hlen
      exact ⟨t', hrun, ⟨hf.order, hf.entries, hf.level⟩, hins.stderr,
        .inr ⟨(hhead 2 le_rfl).trans hh, hins⟩⟩
    | cons Gs rest =>
      subst hG
      obtain rfl : rest = [] := by
        have := h.tree.length_le (n := 1) hh
        simp only [List.length_cons] at this
        exact List.eq_nil_of_length_eq_zero (by omega)
      obtain ⟨h', f, F, hd, hf, hrun⟩ := h.run_full he hlen
      obtain ⟨A, g, B, I₁, I₂, rfl, hpar, hitems, hpre⟩ := h.up he hlen hd hf
      have hg : g ∈ A ++ g :: B := by simp
      rw [hpar, if_neg (hpre.ptr_bound hg).1.ne', show MAX_LEVEL = 9 + 1 from rfl] at hrun
      by_cases hgl : g.items.length = t.order
      · -- the root is full
        obtain ⟨sk, h'', hd', hrun'⟩ := hpre.run_full hgl (by show 3 ≤ t.order; omega) 9
        have hroot : (h'.setParent t.heap.brk g.ptr).parent g.ptr = 0 :=
          hpre.above.upper.parent_root (c := g.item) (List.mem_map_of_mem hg)
        rw [if_pos hroot, if_neg (by push_cast; show ¬ (1 + 1 : Int) ≥ t.level; omega)] at hrun'
        refine ⟨_, hrun.trans hrun', ⟨rfl, rfl, rfl⟩, rfl, .inl (lonely_newRoot ?_ ?_ hd'.right ?_)⟩
        · show h'.brk < h''.brk
          rw [hd'.brk]
          exact Nat.lt_succ_self _
        · show h''.type h'.brk = _
          rw [hd'.type]
          exact Function.update_self _ _ _
        · have : (I₁ ++ a.item :: ((f.1 : WithBot Int), t.heap.brk) :: I₂).length = 4 := by
            rw [hpre.items, ho] at hgl
            simp only [List.length_append, List.length_cons] at hgl ⊢
            omega
          show (List.drop ((t.order + 1) / 2 + 1) _).length < 2
          rw [List.length_drop, this, ho]
          decide
      · have hpost := hpre.run_simple hgl 9
        rw [← hitems] at hpost
        obtain ⟨ret, t', hr, hp, hcase⟩ := h.finish he hlen hd hf hpost
        have hrr := hr.symm.trans (hpre.run_room hgl 9)
        simp only [Except.ok.injEq, Prod.mk.injEq] at hrr
        rcases hcase with ⟨-, rfl, hins⟩ | ⟨-, hret, -⟩
        · exact ⟨t', hrun.trans hr, hp, hins.stderr, .inr ⟨by rw [hrr.2]; exact hh, hins⟩⟩
        · rw [hrr.1] at hret
          exact absurd hret (by decide)
  · obtain ⟨t', hrun, hf, hhead, hins⟩ := h.run_simple hlen
    exact ⟨t', hrun, ⟨hf.order, hf.entries, hf.level⟩, hins.stderr,
      .inr ⟨by rw [hhead]; exact hh, hins⟩⟩

/-- At most three leaves hold at most `3 * entries` entries. -/
theorem TreeOk.capacity {L : List LeafNode} (h : TreeOk t E L Gss) (ho : t.order = 3)
    (hh : t.head 2 = 0) :
    (pairs L).length ≤ 3 * t.entries := by
  have hlen : L.length ≤ 3 := by
    have hG := h.length_le (n := 1) hh
    have hL : (leafItems L).length = L.length := by simp [leafItems]
    cases Gss with
    | nil =>
      obtain ⟨lo, hroot⟩ := h.above.tower
      rw [← hL, hroot]
      simp
    | cons Gs Gss =>
      obtain rfl : Gss = [] := List.length_eq_zero_iff.1 (Nat.le_zero.1 (Nat.le_of_succ_le_succ hG))
      obtain ⟨g, rfl, -⟩ := h.above.top
      have hmax := (h.above.levelOk.node g (by simp)).max
      rw [← hL, ← h.above.flat_eq]
      simpa [ho] using hmax
  have hle : ∀ (M : List LeafNode), (∀ b ∈ M, b ∈ L) → (pairs M).length ≤ M.length * t.entries := by
    intro M hM
    induction M with
    | nil => simp
    | cons b M ih =>
      have h1 := (h.leaves.leaf b (hM b List.mem_cons_self)).max
      have h2 := ih fun c hc => hM c (List.mem_cons_of_mem _ hc)
      rw [pairs_cons, List.length_append, List.length_cons, Nat.succ_mul]
      omega
  exact (hle L fun _ hb => hb).trans (Nat.mul_le_mul_right _ hlen)

/-- One more put of an absent key. -/
theorem TreeOk.put_order_three {L : List LeafNode} (h : TreeOk t E L Gss) (hE : ∀ i, E i 0)
    (ho : t.order = 3) (he : 1 ≤ t.entries) (hl : 3 ≤ t.level) (hh : t.head 2 = 0) (hd : data ≠ 0)
    (hkey : ∀ e ∈ pairs L, e.1 ≠ key) :
    ∃ t', bplusTreePut t key data = .ok (0, t') ∧ SameParams t t' ∧ t'.stderr = t.stderr ∧
      (Lonely t' ∨ t'.head 2 = 0 ∧ LeafInserted t E L key data t') := by
  have hfuel : Gss.length < MAX_LEVEL := lt_of_le_of_lt (h.length_le (n := 1) hh) (by decide)
  obtain ⟨L₁, a, L₂, rfl, hloc, hfind, h0⟩ := findLeaf_spec h hfuel key
  have hput : bplusTreePut t key data = leafInsert t a.ptr key data := by
    simp only [bplusTreePut, bplusTreeInsert, hfind, bind, Except.bind]
    rw [if_pos hd, if_neg h0]
  rw [hput]
  rcases (h.leaves.leaf a (by simp)).asc.place key with ⟨K₁, d, K₂, hk⟩ | ⟨K₁, K₂, hk, h1, h2⟩
  · have hmem : (key, d) ∈ a.kvs := by simp [hk]
    exact absurd rfl (hkey _ ((mem_pairs_located h.leaves hloc).2 hmem))
  · have hpre : LeafInsertPre t E L₁ a L₂ Gss key data K₁ K₂ := ⟨h, hloc, hk, h1, h2, hd⟩
    exact hpre.order_three hE ho he hl hh

end

section
variable {level : Int} {entries : Nat}

/-- A tree of order 3 with at most two levels that holds the keys `0, …, n`. -/
structure Ascended (level : Int) (entries n : Nat) (t : Tree) : Prop where
  order : t.order = 3
  entries : t.entries = entries
  level : t.level = level
  head : t.head 2 = 0
  tree : ∃ L Gss, TreeOk t (fun _ e => e = 0) L Gss ∧ ∀ e, e ∈ pairs L ↔ ∃ k : Nat, k ≤ n ∧
    e = ((k : Int), 1)

/-- Ascending keys lead to a node with one child, or all of them are in at most three leaves. -/
theorem ascending_run (he : 1 ≤ entries ∧ entries ≤ MAX_ENTRIES)
    (hl : 3 ≤ level ∧ level ≤ MAX_LEVEL) :
    ∀ n : Nat, ∃ t, Reachable level 3 entries t ∧ t.stderr = [] ∧
      (Lonely t ∨ Ascended level entries n t)
  | 0 => by
    obtain ⟨t₀, hinit, hp, hst₀, hemp⟩ : ∃ t₀, bplusTreeInit level 3 entries = .ok t₀ ∧
        (t₀.order = 3 ∧ t₀.entries = entries ∧ t₀.level = level) ∧ t₀.stderr = [] ∧ EmptyTree t₀ :=
      ⟨_, if_pos ⟨hl.2, by decide, he.2⟩, ⟨rfl, rfl, rfl⟩, rfl, rfl, fun _ => rfl, Nat.zero_lt_one⟩
    obtain ⟨t, hrun, hpar, hst, hT⟩ := insert_first (E := fun _ e => e = 0) hemp (hp.2.1 ▸ he.1)
      (fun _ => rfl) 0
      one_ne_zero
    have hput : bplusTreePut t₀ 0 1 = .ok (0, t) := by
      rw [bplusTreePut, if_pos one_ne_zero]
      exact hrun
    refine ⟨t, .put (.init hinit) hput, hst.trans hst₀,
      .inr ⟨hpar.1.trans hp.1, hpar.2.1.trans hp.2.1, hpar.2.2.trans hp.2.2,
      hT.above.headAbove 2 (by simp), _, _, hT, fun e => ?_⟩⟩
    simp [pairs]
  | n + 1 => by
    obtain ⟨t, hR, hq, hlone | ⟨ho, hent, hlev, hh, L, Gss, hT, hpairs⟩⟩ := ascending_run he hl n
    · exact ⟨t, hR, hq, .inl hlone⟩
    · have hkey : ∀ e ∈ pairs L, e.1 ≠ ((n + 1 : Nat) : Int) := by
        intro e hm hc
        obtain ⟨k, hk, rfl⟩ := (hpairs e).1 hm
        have : (k : Int) = ((n + 1 : Nat) : Int) := hc
        omega
      obtain ⟨t', hrun, hpar, hst, hlone | ⟨hh', -, -, L', Gss', hT', hpairs'⟩⟩ :=
        hT.put_order_three (fun _ => rfl) ho (hent ▸ he.1) (hlev ▸ hl.1) hh one_ne_zero hkey
      · exact ⟨t', .put hR hrun, hst.trans hq, .inl hlone⟩
      · refine ⟨t', .put hR hrun, hst.trans hq, .inr ⟨hpar.1.trans ho, hpar.2.1.trans hent,
          hpar.2.2.trans hlev, hh', L', Gss', hT', fun e => ?_⟩⟩
        rw [hpairs', hpairs]
        constructor
        · rintro (⟨k, hk, rfl⟩ | rfl)
          · exact ⟨k, by omega, rfl⟩
          · exact ⟨n + 1, le_rfl, rfl⟩
        · rintro ⟨k, hk, rfl⟩
          rcases Nat.lt_or_ge k (n + 1) with hk' | hk'
          · exact .inl ⟨k, by omega, rfl⟩
          · exact .inr (by rw [show k = n + 1 by omega])

/-- Three leaves do not hold `3 * entries + 1` keys. -/
theorem not_ascended {t : Tree} : ¬ Ascended level entries (3 * entries) t := by
  rintro ⟨ho, hent, -, hh, L, Gss, hT, hpairs⟩
  have hcap := hT.capacity ho hh
  have hsub : (List.range (3 * entries + 1)).map (fun k : Nat => ((k : Int), (1 : Int))) ⊆
    pairs L := by
    intro e hm
    obtain ⟨k, hk, rfl⟩ := List.mem_map.1 hm
    exact (hpairs _).2 ⟨k, Nat.lt_succ_iff.1 (List.mem_range.1 hk), rfl⟩
  have hnd : ((List.range (3 * entries + 1)).map (fun k : Nat => ((k : Int), (1 : Int)))).Nodup :=
    List.nodup_range.map fun a b h => by simpa using h
  have := (List.subperm_of_subset hnd hsub).length_le
  simp only [List.length_map, List.length_range] at this
  omega

end

/-! ## The orders that are safe -/

theorem Lonely.not_safe {t : Tree} (h : Lonely t) : ¬ Safe t := by
  obtain ⟨hr, p, hu, hp, hc⟩ := h
  intro hs
  have := hs.1 hr p hu hp
  omega

/-- **Which parameters are safe**: without `Level exceeded`, every inner node keeps two children and
no put reads a key or a sibling that is not there, if and only if the order is not 3 or the tree has
at most two levels. -/
theorem safe_iff (level : Int) (order entries : Nat) (ho : MIN_ORDER ≤ order ∧ order ≤ MAX_ORDER)
    (he : 1 ≤ entries ∧ entries ≤ MAX_ENTRIES) (hl : level ≤ MAX_LEVEL) :
    (∀ t, Reachable level order entries t → t.stderr = [] → Safe t) ↔ 4 ≤ order ∨ level ≤ 2 := by
  have h3 : 3 ≤ order := ho.1
  constructor
  · intro h
    by_contra hc
    obtain rfl : order = 3 := by omega
    obtain ⟨t, hR, hq, hlone | hasc⟩ := ascending_run he ⟨by omega, hl⟩ (3 * entries)
    · exact hlone.not_safe (h t hR hq)
    · exact not_ascended hasc
  · intro hol t hR hq
    obtain ⟨-, m, hM⟩ := hR.models h3 hol he.1
    exact hM.safe fun _ _ => rfl

theorem safe_iff_samples : (∀ t, Reachable 5 4 2 t → t.stderr = [] → Safe t) ∧
    ¬ ∀ t, Reachable 5 3 2 t → t.stderr = [] → Safe t :=
  ⟨(safe_iff 5 4 2 (by decide) (by decide) (by decide)).2 (by decide),
    fun h => absurd ((safe_iff 5 3 2 (by decide) (by decide) (by decide)).1 h) (by decide)⟩

/-- Puts that divide a root of order 3; the right half has one child. -/
def lonelyOps : List Op := [.put 1 1, .put 2 1, .put 3 1, .put 4 1]

/-- The deletion of key 4 then looks for a sibling of the only child. -/
theorem not_safe_three : ¬ ∀ t, Reachable 3 3 1 t → t.stderr = [] → Safe t := by
  have hrun : ((bplusTreeInit 3 3 1).bind fun t => (runOps t lonelyOps).bind fun r =>
      .ok (r.2.stderr, match bplusTreePut r.2 4 0 with
        | .error .staleRead => true
        | _ => false)).toOption = some ([], true) := by
    decide +kernel
  obtain ⟨t₀, hinit, hrun⟩ := toOption_bind hrun
  obtain ⟨⟨rs, t⟩, hops, hrun⟩ := toOption_bind hrun
  obtain ⟨hq, hstale⟩ : t.stderr = [] ∧ (match bplusTreePut t 4 0 with
      | .error .staleRead => true
      | _ => false) = true := by simpa [Except.toOption] using hrun
  intro h
  have hput := (h t ((Reachable.init hinit).runOps hops) hq).2 4 0
  split at hstale
  · next he => exact hput he
  · cases hstale

end BplusTree
