import DsAlgor.BplusTree.WellFormed

/-!
# Failure atomicity of `bplus_tree_put`

A put that returns `-1` leaves the stored entries as they were exactly when it is not the insertion
that runs into `Level exceeded` (`put_atomic_iff`): that branch comes after the nodes below the root
were divided and drops what was moved to the root's sibling.
-/

namespace BplusTree

open CArray Levels

/-- The entries of a leaf. -/
def Heap.leafPairs (h : Heap) (p : Ptr) : List (Int × Int) :=
  (List.range (h.leaf p).entries).map fun j => ((h.leaf p).key j, (h.leaf p).data j)

/-- The leaves under a node, from left to right. -/
def leavesUnder (h : Heap) : Nat → Ptr → List Ptr
  | 0, _ => []
  | fuel + 1, p =>
    match h.type p with
    | .leaf => [p]
    | .nonLeaf => (h.children p).flatMap (leavesUnder h fuel)

/-- The stored entries: those of the leaves under the root. -/
def stored (t : Tree) : List (Int × Int) :=
  if t.root = 0 then [] else (leavesUnder t.heap MAX_LEVEL t.root).flatMap t.heap.leafPairs

/-- The entries and the answer of every get are the same. -/
def SameContents (t t' : Tree) : Prop :=
  (∀ e, e ∈ stored t' ↔ e ∈ stored t) ∧ ∀ k, bplusTreeGet t' k = bplusTreeGet t k

section
variable {t : Tree} {E : Nat → Ptr → Prop} {m : Map}

theorem flatMap_leavesUnder {Gs : List (Group Int Ptr)} (h : ∀ g ∈ Gs, NodeOk t g) (n : Nat) :
    (ptrs Gs).flatMap (leavesUnder t.heap (n + 1)) =
      ((flat Gs).map Prod.snd).flatMap (leavesUnder t.heap n) := by
  induction Gs with
  | nil => rfl
  | cons g Gs ih =>
    have hg := h g List.mem_cons_self
    rw [ptrs_cons, List.flatMap_cons, flat_cons, List.map_append, List.flatMap_append,
      ih fun x hx => h x (List.mem_cons_of_mem _ hx), leavesUnder, hg.type, ← hg.children_eq]

theorem Above.leavesUnder_root : ∀ {Gss : List (List (Group Int Ptr))} {i : Nat}
    {items : List (Item Int Ptr)}, Above t E i items Gss → ∀ n,
    leavesUnder t.heap (n + Gss.length) t.root = (items.map Prod.snd).flatMap (leavesUnder t.heap n)
  | [], _, _, h, n => by
    obtain ⟨lo, rfl⟩ := h.tower
    simp
  | Gs :: rest, _, _, h, n => by
    have := h.upper.leavesUnder_root (n + 1)
    rw [map_snd_heads, flatMap_leavesUnder h.levelOk.node, h.flat_eq] at this
    rw [List.length_cons, ← this]
    congr 1
    omega

theorem LeafOk.leafPairs_eq {a : LeafNode} (h : LeafOk t a) : t.heap.leafPairs a.ptr = a.kvs := by
  rw [Heap.leafPairs, h.body.entries]
  refine List.ext_getElem (by simp) fun j h1 h2 => ?_
  have hj := List.getElem?_eq_getElem h2
  simp only [List.getElem_map, List.getElem_range, h.body.key_at hj, h.body.data_at hj]

variable {L : List LeafNode} {Gss : List (List (Group Int Ptr))}

theorem flatMap_leafPairs (h : ∀ a ∈ L, LeafOk t a) :
    (leafPtrs L).flatMap t.heap.leafPairs = pairs L := by
  rw [leafPtrs, List.flatMap_map, pairs]
  exact List.flatMap_congr fun a ha => (h a ha).leafPairs_eq

theorem TreeOk.leavesUnder_eq (h : TreeOk t E L Gss) (hfuel : Gss.length < MAX_LEVEL) :
    leavesUnder t.heap MAX_LEVEL t.root = leafPtrs L := by
  have hleaf : ∀ p ∈ leafPtrs L, leavesUnder t.heap (MAX_LEVEL - Gss.length) p = [p] := by
    intro p hp
    obtain ⟨a, ha, rfl⟩ := List.mem_map.1 hp
    rw [show MAX_LEVEL - Gss.length = MAX_LEVEL - Gss.length - 1 + 1 by omega, leavesUnder,
      (h.leaves.leaf a ha).type]
  have hu := h.above.leavesUnder_root (MAX_LEVEL - Gss.length)
  rw [Nat.sub_add_cancel hfuel.le, map_snd_leafItems, List.flatMap_congr hleaf,
    List.flatMap_singleton'] at hu
  exact hu

theorem TreeOk.stored_eq (h : TreeOk t E L Gss) (hfuel : Gss.length < MAX_LEVEL) :
    stored t = pairs L := by
  have hroot : t.root ≠ 0 := (h.above.bound _ h.above.root_mem).1.ne'
  rw [stored, if_neg hroot, h.leavesUnder_eq hfuel, flatMap_leafPairs h.leaves.leaf]

theorem Models.mem_stored (h : Models t E m) {k d : Int} : (k, d) ∈ stored t ↔ m k = some d := by
  obtain ⟨C, ⟨⟨hr, -⟩, rfl⟩ | ⟨L, Gss, hT, rfl, -⟩, hm⟩ := h.holds
  · rw [stored, if_pos hr, hm]
  · rw [hT.stored_eq (hT.above.fuel h.params.level), hm]

theorem Map.put_fail {key data : Int} (h : (m.put key data).1 = -1) : (m.put key data).2 = m := by
  rw [Map.put] at h ⊢
  split at h
  · split at h
    · simp at h
    · simp [*]
  · split at h
    · simp [*]
    · simp at h

end

/-! ## Leaves without capacity

With `entries = 0` a leaf takes any number of entries, and the root is always a leaf. -/

/-- The root is `NULL` or a leaf. -/
def RootLeaf (t : Tree) : Prop :=
  t.entries = 0 ∧ (t.root = 0 ∨ t.heap.type t.root = .leaf ∧ t.heap.parent t.root = 0)

theorem RootLeaf.findLeaf {t : Tree} (h : RootLeaf t) (key : Int) :
    BplusTree.findLeaf t.heap key MAX_LEVEL t.root = .ok t.root := by
  rw [show MAX_LEVEL = 9 + 1 from rfl, BplusTree.findLeaf]
  rcases h.2 with h0 | ⟨ht, -⟩
  · rw [if_pos h0, h0]
  · split_ifs with h0
    · rw [h0]
    · rw [ht]

theorem splitLeaf_frame {n : Nat} {h h' : Heap} {leaf s : Ptr} {key data : Int} {ins : Nat}
    (hrun : splitLeaf n h leaf key data ins = .ok (s, h')) :
    h'.type = Function.update h.type h.brk .leaf ∧
      h'.parent = Function.update h.parent h.brk 0 := by
  simp only [splitLeaf] at hrun
  split at hrun
  · cases hrun
    exact ⟨rfl, rfl⟩
  · simp only [splitLeafAfter] at hrun
    split at hrun
    · cases hrun
      exact ⟨rfl, rfl⟩
    · cases hrun

theorem RootLeaf.leafInsert {t t' : Tree} (h : RootLeaf t) (hr : t.root ≠ 0) {key data r : Int}
    (hrun : BplusTree.leafInsert t t.root key data = .ok (r, t')) :
    RootLeaf t' ∧ (r = -1 → t' = t) := by
  obtain ⟨he, h0 | ⟨ht, hp⟩⟩ := h
  · exact absurd h0 hr
  simp only [BplusTree.leafInsert, he] at hrun
  split at hrun
  · cases hrun
    exact ⟨⟨he, .inr ⟨ht, hp⟩⟩, fun _ => rfl⟩
  · split at hrun
    · split at hrun
      · cases hrun
      · next s h' hs =>
        obtain ⟨h1, h2⟩ := splitLeaf_frame hs
        cases hrun
        refine ⟨⟨rfl, .inr ⟨?_, ?_⟩⟩, by simp⟩
        · show h'.type t.root = _
          rw [h1, Function.update_apply, ht, ite_self]
        · show h'.parent t.root = _
          rw [h2, Function.update_apply, hp, ite_self]
    · cases hrun
      exact ⟨⟨rfl, .inr ⟨ht, hp⟩⟩, by simp⟩

theorem RootLeaf.leafRemove {t t' : Tree} (h : RootLeaf t) (hr : t.root ≠ 0) {key r : Int}
    (hrun : BplusTree.leafRemove t t.root key = .ok (r, t')) : RootLeaf t' ∧ (r = -1 → t' = t) := by
  obtain ⟨he, h0 | ⟨ht, hp⟩⟩ := h
  · exact absurd h0 hr
  simp only [BplusTree.leafRemove, hp] at hrun
  split at hrun
  · cases hrun
    exact ⟨⟨he, .inr ⟨ht, hp⟩⟩, fun _ => rfl⟩
  · split at hrun
    · rw [if_neg (by simp)] at hrun
      split at hrun
      · split at hrun
        · cases hrun
          exact ⟨⟨he, .inl rfl⟩, by simp⟩
        · cases hrun
      · cases hrun
        exact ⟨⟨he, .inr ⟨ht, hp⟩⟩, by simp⟩
    · cases hrun
      exact ⟨⟨he, .inr ⟨ht, hp⟩⟩, by simp⟩

theorem RootLeaf.put {t t' : Tree} (h : RootLeaf t) {key data r : Int}
    (hrun : bplusTreePut t key data = .ok (r, t')) : RootLeaf t' ∧ (r = -1 → t' = t) := by
  simp only [bplusTreePut, bplusTreeInsert, bplusTreeDelete, h.findLeaf, bind, Except.bind] at hrun
  split at hrun
  · split at hrun
    · cases hrun
      refine ⟨⟨h.1, .inr ⟨?_, ?_⟩⟩, by simp⟩
      · simp [leafNew, Heap.setLeaf]
      · simp [leafNew, Heap.setLeaf]
    · next h0 => exact h.leafInsert h0 hrun
  · split at hrun
    · cases hrun
      exact ⟨h, fun _ => rfl⟩
    · next h0 => exact h.leafRemove h0 hrun

theorem RootLeaf.not_overflows {t : Tree} (h : RootLeaf t) (key data : Int) :
    overflows t key data = false := by
  rw [overflows, h.findLeaf]
  rcases h.2 with h0 | ⟨-, hp⟩
  · simp [h0]
  · simp [hp]

theorem Reachable.rootLeaf {level : Int} {order : Nat} {t : Tree} (h : Reachable level order 0 t) :
    RootLeaf t := by
  induction h with
  | init h =>
    rw [bplusTreeInit] at h
    split at h
    · cases h
      exact ⟨rfl, .inl rfl⟩
    · cases h
  | put _ hput ih => exact (ih.put hput).1

/-! ## The exact condition -/

/-- **Failure atomicity**: a put that returns `-1` leaves the contents alone if and only if it does
not run into `Level exceeded`, which `overflows` tells from the tree before the call. -/
theorem put_atomic_iff (level : Int) (order entries : Nat) (ho : 4 ≤ order ∧ order ≤ MAX_ORDER)
    (t : Tree) (h : Reachable level order entries t) (key data : Int) :
    (∀ t', bplusTreePut t key data = .ok (-1, t') → SameContents t t') ↔
      overflows t key data = false := by
  rcases Nat.eq_zero_or_pos entries with rfl | he
  · refine iff_of_true (fun t' hput => ?_) (h.rootLeaf.not_overflows key data)
    rw [(h.rootLeaf.put hput).2 rfl]
    exact ⟨fun _ => Iff.rfl, fun _ => rfl⟩
  obtain ⟨hord, m, hM⟩ := h.models (by omega) (.inl ho.1) he
  obtain ⟨r, t₁, hrun, -, hcase⟩ := bplusTreePut_spec hM (fun _ _ => rfl) key data
  rcases hcase with ⟨hov, hr, -, hM'⟩ | ⟨hov, hr, -, m', hM', hlost⟩
  · refine iff_of_true (fun t' hput => ?_) hov
    rw [hrun] at hput
    obtain ⟨hr1, rfl⟩ : r = -1 ∧ t₁ = t' := by simpa using hput
    rw [Map.put_fail (hr.symm.trans hr1)] at hM'
    refine ⟨fun e => ?_, fun k => ?_⟩
    · rw [← Prod.mk.eta (p := e), hM'.mem_stored, hM.mem_stored]
    · rw [bplusTreeGet_spec hM', bplusTreeGet_spec hM]
  · refine iff_of_false (fun hc => ?_) (by simp [hov])
    obtain ⟨k, d, h1, h2⟩ := hlost (hord ▸ ho.1)
    have := (hc t₁ (by rw [hrun, hr])).1 (k, d)
    rw [hM'.mem_stored, hM.mem_stored] at this
    exact h2 (this.2 h1)

/-- A full root with four leaves of one entry each. -/
def fullOps : List Op := [.put 1 1, .put 2 1, .put 3 1, .put 4 1]

/-- With a full root: the put of a new key is not atomic, that of a key which is there is. -/
theorem put_atomic_iff_full : ∃ t, Reachable 2 4 1 t ∧
    ¬ (∀ t', bplusTreePut t 5 1 = .ok (-1, t') → SameContents t t') ∧
    ∀ t', bplusTreePut t 4 1 = .ok (-1, t') → SameContents t t' := by
  have hrun : ((bplusTreeInit 2 4 1).bind fun t => ((runOps t fullOps).map Prod.snd).map fun t =>
      (overflows t 5 1, overflows t 4 1)).toOption = some (true, false) := by
    decide +kernel
  obtain ⟨t, ht, hfull⟩ := Reachable.exists_of_run hrun
  obtain ⟨h5, h4⟩ := Prod.mk.inj hfull
  refine ⟨t, ht, fun hsame => ?_, (put_atomic_iff 2 4 1 (by decide) t ht 4 1).2 h4⟩
  rw [(put_atomic_iff 2 4 1 (by decide) t ht 5 1).1 hsame] at h5
  cases h5

/-- The failed put of key 5 loses key 4. -/
theorem put_not_atomic : ¬ ∀ t, Reachable 2 4 1 t → ∀ key data t',
    bplusTreePut t key data = .ok (-1, t') → SameContents t t' := by
  have hrun : ((bplusTreeInit 2 4 1).bind fun t => (runOps t fullOps).bind fun r =>
      (bplusTreeGet r.2 4).bind fun g => (bplusTreePut r.2 5 1).bind fun q =>
      (bplusTreeGet q.2 4).bind fun g' => .ok (g, q.1, g')).toOption = some (1, -1, -1) := by
    decide +kernel
  obtain ⟨t₀, hinit, hrun⟩ := toOption_bind hrun
  obtain ⟨⟨rs, t⟩, hops, hrun⟩ := toOption_bind hrun
  obtain ⟨g, hg, hrun⟩ := toOption_bind hrun
  obtain ⟨⟨r, t'⟩, hput, hrun⟩ := toOption_bind hrun
  obtain ⟨g', hg', hrun⟩ := toOption_bind hrun
  obtain ⟨rfl, rfl, rfl⟩ : g = 1 ∧ r = -1 ∧ g' = -1 := by simpa [Except.toOption] using hrun
  intro h
  have := (h t ((Reachable.init hinit).runOps hops) 5 1 t' hput).2 4
  simp only at hg hg'
  rw [hg, hg'] at this
  simp at this

end BplusTree
