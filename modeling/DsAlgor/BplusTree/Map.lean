import DsAlgor.BplusTree.LeafRemove

/-!
# The tree as a map

`Models t E m`: the tree `t` holds the map `m` from keys to data. Every call is answered as the map
answers it (`bplusTreeGet_spec`, `bplusTreePut_spec`), unless an insertion runs into `Level
exceeded`; whether it does is decided before the call by `overflows`. A whole run from
`bplus_tree_init` is followed in `runOps_spec`.
-/

namespace BplusTree

open CArray Levels

/-! ## The abstract map -/

abbrev Map := Int → Option Int

/-- `put(key, data)` on the map: the return value and the new map. -/
def Map.put (m : Map) (key data : Int) : Int × Map :=
  if data ≠ 0 then
    match m key with
    | none => (0, Function.update m key (some data))
    | some _ => (-1, m)
  else
    match m key with
    | none => (-1, m)
    | some _ => (0, Function.update m key none)

def Map.get (m : Map) (key : Int) : Int := (m key).getD (-1)

/-! ## When an insertion exceeds the level -/

/-- `node` and all its ancestors are full and the root is at the last level. -/
def pathFull (t : Tree) : Nat → Ptr → Nat → Bool
  | 0, _, _ => false
  | fuel + 1, node, level =>
    (t.heap.nonLeaf node).children = t.order &&
      if t.heap.parent node = 0 then (level + 1 : Int) ≥ t.level
      else pathFull t fuel (t.heap.parent node) (level + 1)

/-- `put(key, data)` divides every node on the way from the leaf of `key` up to the root, and the
root may not get a parent. -/
def overflows (t : Tree) (key data : Int) : Bool :=
  data ≠ 0 &&
    match findLeaf t.heap key MAX_LEVEL t.root with
    | .error _ => false
    | .ok ln =>
      ln ≠ 0 && keyBinarySearch (t.heap.leaf ln).key (t.heap.leaf ln).entries key < 0 &&
        (t.heap.leaf ln).entries = t.entries && t.heap.parent ln ≠ 0 &&
        pathFull t MAX_LEVEL (t.heap.parent ln) 1

theorem Above.parent_root {t : Tree} {E : Nat → Ptr → Prop} {i : Nat} {items : List (Item Int Ptr)}
    (h : Above t E i items []) {c : Item Int Ptr} (hc : c ∈ items) : t.heap.parent c.2 = 0 := by
  obtain ⟨lo, hroot⟩ := h.tower
  rw [hroot] at hc
  rw [List.mem_singleton.1 hc]
  exact h.rootParent

/-- Only the group of `c` counts for `FullUp`. -/
theorem Above.fullUp_iff {t : Tree} {E : Nat → Ptr → Prop} {i : Nat} {items : List (Item Int Ptr)}
    {Gs : List (Group Int Ptr)} {rest : List (List (Group Int Ptr))}
    (h : Above t E i items (Gs :: rest)) {g : Group Int Ptr} (hg : g ∈ Gs) {c : Item Int Ptr}
    (hc : c ∈ g.items) {order : Nat} {level : Int} {j : Nat} :
    FullUp order level j c.2 (Gs :: rest) ↔
      g.items.length = order ∧ FullUp order level (j + 1) g.ptr rest := by
  refine ⟨fun ⟨x, hx, hcx, hf⟩ => ?_, fun hf => ⟨g, hg, List.mem_map_of_mem hc, hf⟩⟩
  -- two nodes with a common child are one, since each is the child's parent
  have hxg : x.ptr = g.ptr := by
    obtain ⟨e, he, hec⟩ := List.mem_map.1 hcx
    rw [← (h.levelOk.node x hx).parent e he, hec]
    exact (h.levelOk.node g hg).parent c hc
  have hnd := (List.nodup_append.1 (List.nodup_append.1 h.nodup).2.1).1
  rwa [List.inj_on_of_nodup_map hnd hx hg hxg] at hf

theorem pathFull_iff {t : Tree} {E : Nat → Ptr → Prop} :
    ∀ {rest : List (List (Group Int Ptr))} {i fuel : Nat} {items : List (Item Int Ptr)}
      {Gs : List (Group Int Ptr)} {g : Group Int Ptr},
    Above t E i items (Gs :: rest) → g ∈ Gs → rest.length < fuel →
    (pathFull t fuel g.ptr i = true ↔
      g.items.length = t.order ∧ FullUp t.order t.level (i + 1) g.ptr rest)
  | rest, i, 0, items, Gs, g, _, _, hf => by omega
  | [], i, fuel + 1, items, Gs, g, h, hg, _ => by
    have hpar : t.heap.parent g.ptr = 0 :=
      h.upper.parent_root (c := g.item) (List.mem_map_of_mem hg)
    rw [pathFull, if_pos hpar, (h.levelOk.node g hg).body.children]
    simp [FullUp]
  | Gs₁ :: rest, i, fuel + 1, items, Gs, g, h, hg, hf => by
    have hgm : g.item ∈ flat Gs₁ := by
      rw [h.upper.flat_eq]
      exact List.mem_map_of_mem hg
    obtain ⟨g₁, hg₁, hm⟩ := mem_flat.1 hgm
    have hpar : t.heap.parent g.ptr = g₁.ptr := (h.upper.levelOk.node g₁ hg₁).parent g.item hm
    have hne : g₁.ptr ≠ 0 := by
      refine (h.upper.bound g₁.ptr ?_).1.ne'
      rw [allPtrs_cons]
      exact List.mem_append_right _ (List.mem_append_left _ (List.mem_map_of_mem hg₁))
    rw [pathFull, hpar, if_neg hne, (h.levelOk.node g hg).body.children, Bool.and_eq_true,
      decide_eq_true_eq, pathFull_iff h.upper hg₁ (by simpa using hf),
      ← h.upper.fullUp_iff (c := g.item) hg₁ hm, Group.item_snd]

/-! ## Behind the last leaf

After `Level exceeded` the chain of leaves goes on into leaves that are not in the tree any more.
No operation touches them. -/

/-- The chain of leaves is `L`, then `D`. -/
structure Trail (t : Tree) (L D : List LeafNode) : Prop extends Detached t D where
  chain : Chain t.heap.next (t.head 0) (leafPtrs (L ++ D)) 0

/-- The chain of leaves ends at `e₀`, or at `NULL`. -/
def LevelEnds (E : Nat → Ptr → Prop) (e₀ : Ptr) (i : Nat) (e : Ptr) : Prop :=
  E i e ∧ (i = 0 → e = 0 ∨ e = e₀)

section
variable {t t' : Tree} {E : Nat → Ptr → Prop} {L D M N : List LeafNode} {e₀ : Ptr}
  {Gss : List (List (Group Int Ptr))}

theorem Trail.ends (h : Trail t L D) (hT : TreeOk t E L Gss) :
    ∃ e₀, TreeOk t (LevelEnds E e₀) L Gss ∧ Chain t.heap.next e₀ (leafPtrs D) 0 := by
  have hchain := h.chain
  rw [leafPtrs_append] at hchain
  obtain ⟨e₀, hL, hD⟩ := Chain.append.1 hchain
  obtain ⟨e, he, hc⟩ := hT.leaves.chain
  refine ⟨e₀, ⟨{ hT.leaves with chain := ⟨e₀, ⟨hc.end_unique hL ▸ he, fun _ => .inr rfl⟩, hL⟩ },
    hT.above.weaken fun j hj e he => ⟨he, fun h0 => absurd h0 (by omega)⟩⟩, hD⟩

theorem TreeOk.weaken {E' : Nat → Ptr → Prop} (h : TreeOk t E L Gss)
    (hE : ∀ i e, E i e → E' i e) : TreeOk t E' L Gss :=
  ⟨{ h.leaves with chain := h.leaves.chain.imp fun e he => ⟨hE 0 e he.1, he.2⟩ },
    h.above.weaken fun j _ => hE j⟩

theorem Trail.zero_notMem (h : Trail t L D) (hT : TreeOk t E L Gss) : 0 ∉ leafPtrs (L ++ D) := by
  rw [leafPtrs_append, List.mem_append]
  rintro (h0 | h0)
  · rw [← map_snd_leafItems] at h0
    exact lt_irrefl 0 (hT.above.bound 0 (List.mem_append_left _ h0)).1
  · obtain ⟨d, hd, hp⟩ := List.mem_map.1 h0
    exact (h.bound d hd).1.ne' hp

/-- The tree's leaves are not among them. -/
theorem Trail.notMem (h : Trail t L D) (hT : TreeOk t E L Gss) : ∀ d ∈ D, d.ptr ∉ leafPtrs L := by
  have hnd := h.chain.nodup (h.zero_notMem hT)
  rw [leafPtrs_append] at hnd
  exact fun d hd hm => (List.nodup_append.1 hnd).2.2 _ hm _ (List.mem_map_of_mem hd) rfl

/-- What an operation makes of the chain. -/
theorem Trail.step (h : Trail t L D) (hT : TreeOk t E L Gss)
    (hD : Chain t.heap.next e₀ (leafPtrs D) 0) (hs : Spares t t' L) (hN : Detached t' N)
    (hc : ∃ e, LevelEnds E e₀ 0 e ∧ Chain t'.heap.next (t'.head 0) (leafPtrs (M ++ N)) e) :
    ∃ D', Trail t' M D' := by
  obtain ⟨e, ⟨-, he⟩, hc⟩ := hc
  rcases he rfl with rfl | rfl
  · exact ⟨N, hN, hc⟩
  have hstays : ∀ d ∈ D, t'.heap.type d.ptr = .leaf ∧ t'.heap.next d.ptr = t.heap.next d.ptr ∧
      t'.heap.leaf d.ptr = t.heap.leaf d.ptr := fun d hd =>
    hs.stays d.ptr (h.bound d hd).2 (h.leaf d hd).type (h.notMem hT d hd)
  refine ⟨N ++ D, ⟨fun d hd => ?_, fun d hd => ?_⟩, ?_⟩
  · rcases List.mem_append.1 hd with hd | hd
    · exact hN.leaf d hd
    · have hd' := h.leaf d hd
      obtain ⟨htype, -, hleaf⟩ := hstays d hd
      exact { hd' with type := htype, body := hleaf ▸ hd'.body, max := hs.entries ▸ hd'.max }
  · rcases List.mem_append.1 hd with hd | hd
    · exact hN.bound d hd
    · exact (h.bound d hd).imp_right fun hlt => hlt.trans_le hs.brk
  · rw [← List.append_assoc, leafPtrs_append]
    refine Chain.append.2 ⟨e, hc, hD.congr fun q hq => ?_⟩
    obtain ⟨d, hd, rfl⟩ := List.mem_map.1 hq
    exact (hstays d hd).2.1

end

/-! ## The tree holds a map -/

/-- The entries of a tree, from left to right. -/
def Holds (t : Tree) (E : Nat → Ptr → Prop) (C : List (Int × Int)) : Prop :=
  EmptyTree t ∧ C = [] ∨ ∃ L Gss, TreeOk t E L Gss ∧ C = pairs L ∧ ∃ D, Trail t L D

/-- The tree holds the map `m`; the chains of its levels end at addresses that `E` allows. -/
structure Models (t : Tree) (E : Nat → Ptr → Prop) (m : Map) : Prop where
  params : Params t
  holds : ∃ C, Holds t E C ∧ ∀ k d, m k = some d ↔ (k, d) ∈ C

/-! ### Ascending lists as maps -/

theorem Ascending.lookup_iff {C : List (Int × Int)} (h : Ascending C) {k d : Int} :
    C.lookup k = some d ↔ (k, d) ∈ C := by
  induction C with
  | nil => simp
  | cons e C ih =>
    obtain ⟨h1, h2⟩ := List.pairwise_cons.1 h
    rw [List.lookup_cons]
    by_cases hk : k = e.1
    · subst hk
      have hC : (e.1, d) ∉ C := fun hm => lt_irrefl e.1 (h1 (e.1, d) hm)
      simp [hC, Prod.ext_iff, eq_comm]
    · have hne : (k, d) ≠ e := fun hc => hk (congrArg Prod.fst hc)
      simp [beq_false_of_ne hk, ih h2, hne]

/-- The entry with key `key` is the only one that goes. -/
theorem Ascending.mem_erase {P Q : List (Int × Int)} {key d : Int}
    (h : Ascending (P ++ (key, d) :: Q)) {e : Int × Int} : e ∈ P ++ Q ↔ e ∈ P ++ (key, d) :: Q ∧
    e.1 ≠ key := by
  obtain ⟨-, h2, h3⟩ := List.pairwise_append.1 h
  constructor
  · intro he
    refine ⟨sublist_kvs.subset he, ?_⟩
    rcases List.mem_append.1 he with he | he
    · exact (h3 e he (key, d) (by simp)).ne
    · exact ((List.pairwise_cons.1 h2).1 e he).ne'
  · rintro ⟨he, hne⟩
    simp only [List.mem_append, List.mem_cons] at he ⊢
    rcases he with he | rfl | he
    · exact .inl he
    · exact absurd rfl hne
    · exact .inr he

/-! ### Search -/

section
variable {t : Tree} {E : Nat → Ptr → Prop} {m : Map}

/-- What the leaf a key belongs to says about the map. -/
theorem Models.cases (h : Models t E m) (key : Int) :
    (EmptyTree t ∧ m = fun _ => none) ∨
      ∃ L₁ a L₂ Gss, TreeOk t E (L₁ ++ a :: L₂) Gss ∧ (∃ D, Trail t (L₁ ++ a :: L₂) D) ∧
        LeafLocated key L₁ a L₂ ∧
        findLeaf t.heap key MAX_LEVEL t.root = .ok a.ptr ∧ a.ptr ≠ 0 ∧
        (∀ k d, m k = some d ↔ (k, d) ∈ pairs (L₁ ++ a :: L₂)) ∧
        ((∃ K₁ d K₂, a.kvs = K₁ ++ (key, d) :: K₂ ∧ m key = some d ∧ d ≠ 0) ∨
          ∃ K₁ K₂, a.kvs = K₁ ++ K₂ ∧ (∀ e ∈ K₁, e.1 < key) ∧ (∀ e ∈ K₂, key < e.1) ∧
            m key = none) := by
  obtain ⟨C, ⟨he, rfl⟩ | ⟨L, Gss, hT, rfl, hD⟩, hm⟩ := h.holds
  · refine .inl ⟨he, funext fun k => ?_⟩
    cases hk : m k with
    | none => rfl
    | some d => simpa using (hm k d).1 hk
  · obtain ⟨L₁, a, L₂, rfl, hl, hfind, h0⟩ := findLeaf_spec hT (hT.above.fuel h.params.level) key
    refine .inr ⟨L₁, a, L₂, Gss, hT, hD, hl, hfind, h0, hm, ?_⟩
    have ha := hT.leaves.leaf a (by simp)
    rcases ha.asc.place key with ⟨K₁, d, K₂, hk⟩ | ⟨K₁, K₂, hk, h1, h2⟩
    · have hmem : (key, d) ∈ a.kvs := by simp [hk]
      exact .inl ⟨K₁, d, K₂, hk, (hm key d).2 ((mem_pairs_located hT.leaves hl).2 hmem),
        ha.data _ hmem⟩
    · refine .inr ⟨K₁, K₂, hk, h1, h2, ?_⟩
      cases hv : m key with
      | none => rfl
      | some d =>
        have := (mem_pairs_located hT.leaves hl).1 ((hm key d).1 hv)
        rw [hk] at this
        rcases List.mem_append.1 this with hx | hx
        · exact absurd (h1 _ hx) (lt_irrefl _)
        · exact absurd (h2 _ hx) (lt_irrefl _)

theorem findLeaf_empty {h : Heap} {key : Int} : findLeaf h key MAX_LEVEL 0 = .ok 0 := rfl

theorem bplusTreeSearch_spec (h : Models t E m) (key : Int) :
    bplusTreeSearch t key = .ok ((m key).getD 0) := by
  rcases h.cases key with ⟨⟨hr, -, -⟩, rfl⟩ | ⟨L₁, a, L₂, Gss, hT, hD, hl, hfind, h0, hm, hcase⟩
  · rw [bplusTreeSearch, hr, findLeaf_empty]
    rfl
  · have hb := (hT.leaves.leaf a (by simp)).body
    have hasc := (hT.leaves.leaf a (by simp)).asc
    simp only [bplusTreeSearch, hfind, bind, Except.bind, pure, Except.pure]
    rw [if_neg h0]
    rcases hcase with ⟨K₁, d, K₂, hk, hmk, -⟩ | ⟨K₁, K₂, hk, h1, h2, hmk⟩
    · rw [hk] at hb hasc
      rw [hb.search_found hasc, if_pos (by omega), Int.toNat_natCast,
        hb.data_at (j := K₁.length) (e := (key, d)) (by simp), hmk]
      rfl
    · rw [hk] at hb
      rw [hb.search_absent h1 h2, if_neg (by omega), hmk]
      rfl

/-- Stored data are not `0`. -/
theorem Models.ne_zero (h : Models t E m) {key d : Int} (hk : m key = some d) : d ≠ 0 := by
  obtain ⟨C, ⟨-, rfl⟩ | ⟨L, Gss, hT, rfl, -⟩, hm⟩ := h.holds
  · simpa using (hm key d).1 hk
  · obtain ⟨a, ha, hmem⟩ := mem_pairs.1 ((hm key d).1 hk)
    exact (hT.leaves.leaf a ha).data _ hmem

/-- **`bplus_tree_get`**. -/
theorem bplusTreeGet_spec (h : Models t E m) (key : Int) :
    bplusTreeGet t key = .ok (m.get key) := by
  simp only [bplusTreeGet, bplusTreeSearch_spec h key, bind, Except.bind, pure,
    Except.pure, Map.get]
  cases hk : m key with
  | none => rfl
  | some d => exact congrArg _ (if_pos (h.ne_zero hk))

/-! ## Insertion -/

theorem Params.of_eq {t' : Tree} (hp : Params t)
    (h : SameParams t t') : Params t' := by
  obtain ⟨h1, h2, h3⟩ := h
  exact ⟨h2 ▸ hp.entries, h1 ▸ hp.order, by rw [h1, h3]; exact hp.orderLevel, h3 ▸ hp.level⟩

/-- The first entry of a tree. -/
theorem insert_first (h : EmptyTree t) (he : 1 ≤ t.entries) (hE : ∀ i, E i 0) (key : Int)
    {data : Int}
    (hd : data ≠ 0) :
    ∃ t', bplusTreeInsert t key data = .ok (0, t') ∧ SameParams t t' ∧ t'.stderr = t.stderr ∧
      TreeOk t' E [⟨⊥, t.heap.brk, [(key, data)]⟩] [] := by
  obtain ⟨hr, hh, hb⟩ := h
  let l : Leaf :=
    ⟨1, Function.update (fun _ => 0) 0 key, Function.update (fun _ => 0) 0 data⟩
  let t' : Tree :=
    { t with
      heap := (leafNew t.heap).2.setLeaf t.heap.brk l
      head := Function.update t.head 0 t.heap.brk
      root := t.heap.brk }
  have hrun : bplusTreeInsert t key data = .ok (0, t') := by
    simp only [bplusTreeInsert, hr, findLeaf_empty, bind, Except.bind, pure, Except.pure, if_true]
    simp [t', l, leafNew]
  have hbody : LeafBody (t'.heap.leaf t.heap.brk) [(key, data)] := by
    simp only [t', Heap.setLeaf, Function.update_self]
    exact ⟨rfl, Rep.cons (by simp [l]) (Rep.nil _), Rep.cons (by simp [l]) (Rep.nil _)⟩
  have hleaf : LeafOk t' ⟨⊥, t.heap.brk, [(key, data)]⟩ := by
    refine ⟨?_, hbody, by simp [Ascending], by simp, by simpa using hd, le_rfl, he⟩
    simp [t', Heap.setLeaf, leafNew]
  refine ⟨t', hrun, ⟨rfl, rfl, rfl⟩, rfl,
    ⟨by simpa using hleaf, by simp, by simp, by simp, 0, hE 0, ?_⟩, ⟨⊥, rfl⟩, by
      simp [leafItems], ?_, by simp [leafItems, Sorted], ?_, ?_, fun j hj => ?_⟩
  · refine ⟨?_, ?_⟩
    · simp [t']
    · simp [t', Heap.setLeaf, leafNew, Chain]
  · intro p hp'
    obtain rfl : p = t.heap.brk := by simpa [leafItems, LeafNode.item] using hp'
    exact ⟨hb, Nat.lt_succ_self _⟩
  · simp [t', Heap.setLeaf, leafNew]
  · simp only [List.length_nil]
    push_cast
    omega
  · show Function.update t.head 0 t.heap.brk j = 0
    rw [Function.update_of_ne (by simp at hj; omega)]
    exact hh j

theorem insert_empty (h : EmptyTree t) (hp : Params t) (hE : ∀ i, E i 0) (key : Int) {data : Int}
    (hd : data ≠ 0) :
    ∃ t', bplusTreeInsert t key data = .ok (0, t') ∧ SameParams t t' ∧ t'.stderr = t.stderr ∧
      Models t' E (Function.update (fun _ => none) key (some data)) := by
  obtain ⟨t', hrun, hpar, hst, hT⟩ := insert_first (E := fun i e => E i e ∧ e = 0) h hp.entries
    (fun i => ⟨hE i, rfl⟩) key hd
  obtain ⟨e, ⟨-, rfl⟩, hc⟩ := hT.leaves.chain
  refine ⟨t', hrun, hpar, hst, hp.of_eq hpar, [(key, data)], .inr ⟨_, _,
    hT.weaken fun _ _ he => he.1, rfl, [], ⟨.nil t', hc⟩⟩, fun k d => ?_⟩
  by_cases hk : k = key
  · subst hk
    simp [eq_comm]
  · simp [hk]

theorem overflows_iff {L₁ L₂ : List LeafNode} {a : LeafNode} {Gss : List (List (Group Int Ptr))}
    (hT : TreeOk t E (L₁ ++ a :: L₂) Gss) (hp : Params t) {key data : Int} (hd : data ≠ 0)
    (hfind : findLeaf t.heap key MAX_LEVEL t.root = .ok a.ptr) (h0 : a.ptr ≠ 0)
    (habs : keyBinarySearch (t.heap.leaf a.ptr).key (t.heap.leaf a.ptr).entries key < 0) :
    overflows t key data = true ↔ Overflows t a Gss := by
  have hb := (hT.leaves.leaf a (by simp)).body
  have ha : a.item ∈ leafItems (L₁ ++ a :: L₂) := List.mem_map_of_mem (by simp)
  simp only [overflows, hfind, habs, h0, hd, ne_eq, not_false_eq_true, decide_true, Bool.true_and,
    Bool.and_eq_true, decide_eq_true_eq, Overflows, and_assoc]
  rw [hb.entries]
  refine and_congr_right fun _ => ?_
  cases Gss with
  | nil =>
    refine iff_of_false (fun hc => hc.1 ?_) fun hc => hc.1 rfl
    exact hT.above.parent_root ha
  | cons Gs rest =>
    obtain ⟨g, hg, hm⟩ := mem_flat.1 (hT.above.flat_eq.symm ▸ ha)
    have hpar : t.heap.parent a.ptr = g.ptr := (hT.above.levelOk.node g hg).parent a.item hm
    have hne : g.ptr ≠ 0 := by
      refine (hT.above.bound g.ptr ?_).1.ne'
      rw [allPtrs_cons]
      exact List.mem_append_right _ (List.mem_append_left _ (List.mem_map_of_mem hg))
    have hfuel := hT.above.fuel hp.level
    rw [hpar, pathFull_iff hT.above hg (by simp only [List.length_cons] at hfuel; omega),
      ← hT.above.fullUp_iff (c := a.item) hg hm, LeafNode.item_snd]
    simp [hne]

/-- The outcome of a put that runs into `Level exceeded`. -/
def Exceeds (t : Tree) (m : Map) (r : Int) (t' : Tree) : Prop :=
  r = -1 ∧ t'.stderr = levelExceeded :: t.stderr ∧
    ∃ m', Models t' (fun _ _ => True) m' ∧ (4 ≤ t.order → ∃ k d, m k = some d ∧ m' k ≠ some d)

theorem bplusTreeInsert_spec (h : Models t E m) (hE : ∀ i, E i 0) {key data : Int} (hd : data ≠ 0) :
    ∃ r t', bplusTreeInsert t key data = .ok (r, t') ∧ SameParams t t' ∧
      (overflows t key data = false ∧ r = (m.put key data).1 ∧ t'.stderr = t.stderr ∧
          Models t' E (m.put key data).2 ∨
        overflows t key data = true ∧ Exceeds t m r t') := by
  rcases h.cases key with ⟨hemp, rfl⟩ | ⟨L₁, a, L₂, Gss, hT, hD, hl, hfind, h0, hm, hcase⟩
  · obtain ⟨t', hrun, hpar, hst, hM⟩ := insert_empty hemp h.params hE key hd
    refine ⟨0, t', hrun, hpar, .inl ⟨?_, ?_, hst, ?_⟩⟩
    · simp [overflows, hemp.1, findLeaf_empty]
    · simp [Map.put, hd]
    · simpa [Map.put, hd] using hM
  · have hins : bplusTreeInsert t key data = leafInsert t a.ptr key data := by
      simp only [bplusTreeInsert, hfind, bind, Except.bind]
      rw [if_neg h0]
    have ha := hT.leaves.leaf a (by simp)
    rw [hins]
    rcases hcase with ⟨K₁, d, K₂, hk, hmk, -⟩ | ⟨K₁, K₂, hk, h1, h2, hmk⟩
    · refine ⟨-1, t, leafInsert_present ha hk, ⟨rfl, rfl, rfl⟩,
        .inl ⟨?_, by simp [Map.put, hd, hmk], rfl, ?_⟩⟩
      · have hb := ha.body
        have hasc := ha.asc
        rw [hk] at hb hasc
        have hs := hb.search_found hasc
        have : ¬ ((K₁.length : Int) < 0) := by omega
        simp only [overflows, hfind, hs, this, decide_false, Bool.and_false, Bool.false_and]
      · simpa [Map.put, hd, hmk] using h
    · obtain ⟨D, hD⟩ := hD
      obtain ⟨e₀, hTe, hchain⟩ := hD.ends hT
      have hpre : LeafInsertPre t (LevelEnds E e₀) L₁ a L₂ Gss key data K₁ K₂ :=
        ⟨hTe, hl, hk, h1, h2, hd⟩
      have hover := overflows_iff hT h.params hd hfind h0 (by rw [hpre.search]; omega)
      obtain ⟨r, t', hrun, hpar, hcase⟩ := leafInsert_spec hpre
        (fun i => ⟨hE i, fun _ => .inl rfl⟩) h.params
      refine ⟨r, t', hrun, hpar, ?_⟩
      rcases hcase with ⟨hno, hr, hst, hs, L', Gss', hT', hpairs⟩ |
        ⟨hov, hr, hst, hs, L', N, Gss', hT', hN, hc, hlost⟩
      · refine .inl ⟨Bool.eq_false_iff.2 fun hc =>
          hno (hover.1 hc), by
            simp [Map.put, hd, hmk, hr], hst, h.params.of_eq hpar, pairs L',
            .inr ⟨L', Gss', hT'.weaken fun _ _ he => he.1, rfl, hD.step hT hchain hs
              (.nil t') (by rw [List.append_nil]; exact hT'.leaves.chain)⟩, fun k d => ?_⟩
        rw [hpairs, ← hm]
        by_cases hkk : k = key
        · subst hkk
          simp [Map.put, hd, hmk, eq_comm]
        · simp [Map.put, hd, hmk, hkk]
      · refine .inr ⟨hover.2 hov, hr, hst, ?_⟩
        have hmem : ∀ k d, (pairs L').lookup k = some d ↔ (k, d) ∈ pairs L' := fun k d =>
          hT'.leaves.ascending.lookup_iff
        refine ⟨fun k => (pairs L').lookup k,
          ⟨h.params.of_eq hpar, pairs L', .inr ⟨L', Gss', hT', rfl, hD.step hT hchain hs hN hc⟩,
            hmem⟩, fun ho => ?_⟩
        obtain ⟨⟨k, d⟩, he, hne⟩ := hlost ho
        exact ⟨k, d, (hm k d).2 he, fun hc => hne ((hmem k d).1 hc)⟩

/-! ## Deletion -/

theorem bplusTreeDelete_spec (h : Models t E m) (key : Int) :
    ∃ r t', bplusTreeDelete t key = .ok (r, t') ∧ SameParams t t' ∧ r = (m.put key 0).1 ∧
      t'.stderr = t.stderr ∧ Models t' E (m.put key 0).2 := by
  rcases h.cases key with ⟨hemp, rfl⟩ | ⟨L₁, a, L₂, Gss, hT, hD, hl, hfind, h0, hm, hcase⟩
  · refine ⟨-1, t, ?_, ⟨rfl, rfl, rfl⟩, by simp [Map.put], rfl, by simpa [Map.put] using h⟩
    simp only [bplusTreeDelete, hemp.1, findLeaf_empty, bind, Except.bind, pure,
      Except.pure, if_true]
  · have hdel : bplusTreeDelete t key = leafRemove t a.ptr key := by
      simp only [bplusTreeDelete, hfind, bind, Except.bind]
      rw [if_neg h0]
    have ha := hT.leaves.leaf a (by simp)
    rw [hdel]
    rcases hcase with ⟨K₁, d, K₂, hk, hmk, -⟩ | ⟨K₁, K₂, hk, h1, h2, hmk⟩
    · obtain ⟨D, hD⟩ := hD
      obtain ⟨e₀, hTe, hchain⟩ := hD.ends hT
      obtain ⟨t', hrun, hpar, hst, hs, P, d', Q, hpairs, hcase⟩ := leafRemove_spec hTe h.params hk
      refine ⟨0, t', hrun,
        hpar, by simp [Map.put, hmk], hst, h.params.of_eq hpar, P ++ Q, ?_, fun k v => ?_⟩
      · rcases hcase with ⟨he, hnil⟩ | ⟨L', Gss', hT', hL'⟩
        · exact .inl ⟨he, hnil⟩
        · exact .inr ⟨L', Gss', hT'.weaken fun _ _ he => he.1, hL'.symm, hD.step hT hchain hs
            (.nil t') (by rw [List.append_nil]; exact hT'.leaves.chain)⟩
      · have hasc := hT.leaves.ascending
        rw [hpairs] at hasc
        rw [hasc.mem_erase, ← hpairs, ← hm]
        by_cases hkk : k = key
        · simp [Map.put, hmk, hkk]
        · simp [Map.put, hmk, hkk]
    · exact ⟨-1, t, leafRemove_absent ha hk h1 h2, ⟨rfl, rfl, rfl⟩, by simp [Map.put, hmk], rfl,
        by simpa [Map.put, hmk] using h⟩

/-- **`bplus_tree_put`**: the map's answer, or `Level exceeded`, as `overflows` tells. -/
theorem bplusTreePut_spec (h : Models t E m) (hE : ∀ i, E i 0) (key data : Int) :
    ∃ r t', bplusTreePut t key data = .ok (r, t') ∧ SameParams t t' ∧
      (overflows t key data = false ∧ r = (m.put key data).1 ∧ t'.stderr = t.stderr ∧
          Models t' E (m.put key data).2 ∨
        overflows t key data = true ∧ Exceeds t m r t') := by
  by_cases hd : data = 0
  · subst hd
    obtain ⟨r, t', hrun, hpar, hr, hst, hM⟩ := bplusTreeDelete_spec h key
    exact ⟨r, t', hrun, hpar, .inl ⟨by simp [overflows], hr, hst, hM⟩⟩
  · rw [bplusTreePut, if_pos hd]
    exact bplusTreeInsert_spec h hE hd

end

end BplusTree
