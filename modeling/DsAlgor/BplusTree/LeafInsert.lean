import DsAlgor.BplusTree.Insert
import DsAlgor.BplusTree.Stored

/-!
# `leaf_insert`

`leafInsert_spec`: inserting an absent key fails no assertion and adds exactly the new entry to the
tree, or, when the leaf and all its ancestors are full and the root is at the last level
(`Overflows`), takes the `Level exceeded` branch; in that branch an entry stored before is lost.
-/

namespace BplusTree

open CArray Levels

/-- The parameters a tree is made with. Order 3 is fine as long as the tree has at most two
levels. -/
structure Params (t : Tree) : Prop where
  entries : 1 ≤ t.entries
  order : 3 ≤ t.order
  orderLevel : 4 ≤ t.order ∨ t.level ≤ 2
  level : t.level ≤ MAX_LEVEL

/-- The parameters do not change. -/
def SameParams (t t' : Tree) : Prop :=
  t'.order = t.order ∧ t'.entries = t.entries ∧ t'.level = t.level

theorem Above.fuel {t : Tree} {E : Nat → Ptr → Prop} {items : List (Item Int Ptr)}
    {Gss : List (List (Group Int Ptr))} (h : Above t E 1 items Gss) (hp : t.level ≤ MAX_LEVEL) :
    Gss.length < MAX_LEVEL := by
  have := h.height
  simp only [MAX_LEVEL] at hp ⊢
  push_cast at this hp
  omega

/-- The insertion divides every node from the leaf up to the root, and the root may not get a
parent. -/
def Overflows (t : Tree) (a : LeafNode) (Gss : List (List (Group Int Ptr))) : Prop :=
  a.kvs.length = t.entries ∧ Gss ≠ [] ∧ FullUp t.order t.level 1 a.ptr Gss

/-- The new entry is in the tree. -/
structure LeafInserted (t : Tree) (E : Nat → Ptr → Prop) (L : List LeafNode) (key data : Int)
    (t' : Tree) :
    Prop where
  stderr : t'.stderr = t.stderr
  spares : Spares t t' L
  tree : ∃ L' Gss', TreeOk t' E L' Gss' ∧ ∀ e, e ∈ pairs L' ↔ e ∈ pairs L ∨ e = (key, data)

/-- The outcome of the `Level exceeded` branch: the leaves `D` are not in the tree any more. -/
structure LeafExceeded (t : Tree) (E : Nat → Ptr → Prop) (L : List LeafNode) (t' : Tree) :
    Prop where
  stderr : t'.stderr = levelExceeded :: t.stderr
  spares : Spares t t' L
  tree : ∃ L' D Gss', TreeOk t' (fun _ _ => True) L' Gss' ∧ Detached t' D ∧
    (∃ e, E 0 e ∧ Chain t'.heap.next (t'.head 0) (leafPtrs (L' ++ D)) e) ∧
    (4 ≤ t.order → ∃ e ∈ pairs L, e ∉ pairs L')

/-! ## Room in the leaf -/

section
variable {t : Tree} {E : Nat → Ptr → Prop} {L₁ L₂ : List LeafNode}
  {Gss : List (List (Group Int Ptr))}
  {a : LeafNode} {key data : Int} {K₁ K₂ : List (Int × Int)}

/-- `key` belongs into the leaf `a`, between `K₁` and `K₂`. -/
structure LeafInsertPre (t : Tree) (E : Nat → Ptr → Prop) (L₁ : List LeafNode) (a : LeafNode)
    (L₂ : List LeafNode) (Gss : List (List (Group Int Ptr))) (key data : Int)
    (K₁ K₂ : List (Int × Int)) : Prop where
  tree : TreeOk t E (L₁ ++ a :: L₂) Gss
  located : LeafLocated key L₁ a L₂
  kvs : a.kvs = K₁ ++ K₂
  before : ∀ e ∈ K₁, e.1 < key
  after : ∀ e ∈ K₂, key < e.1
  data : data ≠ 0

namespace LeafInsertPre

variable (h : LeafInsertPre t E L₁ a L₂ Gss key data K₁ K₂)
include h

theorem leafOk : LeafOk t a :=
  h.tree.leaves.leaf a (by simp)

theorem length_kvs : (K₁ ++ (key, data) :: K₂).length = a.kvs.length + 1 := by
  rw [h.kvs, List.length_append, List.length_append, List.length_cons]
  rfl

theorem ascending : Ascending (K₁ ++ (key, data) :: K₂) := by
  have hs := h.leafOk.asc
  rw [h.kvs] at hs
  obtain ⟨h1, h2, h3⟩ := List.pairwise_append.1 hs
  refine List.pairwise_append.2 ⟨h1, List.pairwise_cons.2 ⟨h.after, h2⟩, fun x hx y hy => ?_⟩
  rcases List.mem_cons.1 hy with rfl | hy
  · exact h.before x hx
  · exact h3 x hx y hy

theorem mem_kvs {e : Int × Int} : e ∈ K₁ ++ (key, data) :: K₂ ↔ e ∈ a.kvs ∨ e = (key, data) := by
  rw [h.kvs]
  simp only [List.mem_append, List.mem_cons]
  grind

/-- The keys lie between the separators around the leaf. -/
theorem lo_le : ∀ e ∈ K₁ ++ (key, data) :: K₂, a.lo ≤ (e.1 : WithBot Int) := by
  intro e he
  rcases h.mem_kvs.1 he with he | rfl
  · exact h.leafOk.lo e he
  · exact h.located.here

theorem lt_hi : ∀ e ∈ K₁ ++ (key, data) :: K₂, ∀ b ∈ L₂, (e.1 : WithBot Int) < b.lo := by
  intro e he b hb
  rcases h.mem_kvs.1 he with he | rfl
  · have := (List.pairwise_append.1 h.tree.leaves.order).2.1
    exact (List.pairwise_cons.1 this).1 b hb e he
  · exact h.located.after b.item (List.mem_map_of_mem hb)

theorem data_ne : ∀ e ∈ K₁ ++ (key, data) :: K₂, e.2 ≠ 0 := by
  intro e he
  rcases h.mem_kvs.1 he with he | rfl
  · exact h.leafOk.data e he
  · exact h.data

theorem search :
    keyBinarySearch (t.heap.leaf a.ptr).key (t.heap.leaf a.ptr).entries key = -K₁.length - 1 := by
  have hb := h.leafOk.body
  rw [h.kvs] at hb
  exact hb.search_absent h.before h.after

theorem ptr_bound {x : LeafNode} (hx : x ∈ L₁ ++ a :: L₂) : 0 < x.ptr ∧ x.ptr < t.heap.brk := by
  refine h.tree.above.bound x.ptr (List.mem_append_left _ ?_)
  rw [map_snd_leafItems]
  exact List.mem_map_of_mem hx

theorem others : ∀ x ∈ L₁ ++ L₂, x.ptr < t.heap.brk ∧ x.ptr ∉ [a.ptr] := by
  intro x hx
  refine ⟨(h.ptr_bound (by simp only [List.mem_append, List.mem_cons] at hx ⊢; grind)).2,
    fun hm => ?_⟩
  have hnd := (List.nodup_append.1 h.tree.above.nodup).1
  rw [map_snd_leafItems, leafPtrs_append, leafPtrs_cons, List.nodup_middle, List.nodup_cons,
    ← leafPtrs_append] at hnd
  exact hnd.1 (List.mem_singleton.1 hm ▸ List.mem_map_of_mem hx)

/-- Leaves are not inner nodes. -/
theorem leaf_notMem : ∀ p ∈ allPtrs Gss, p ∉ leafPtrs (L₁ ++ a :: L₂) := by
  intro p hp hm
  rw [← map_snd_leafItems] at hm
  exact (List.nodup_append.1 h.tree.above.nodup).2.2 p hm p hp rfl

theorem run_simple (hlen : a.kvs.length ≠ t.entries) :
    ∃ t', leafInsert t a.ptr key data = .ok (0, t') ∧ Frame t t' [a.ptr] [] ∧ t'.head = t.head ∧
      LeafInserted t E (L₁ ++ a :: L₂) key data t' := by
  let t' := { t with heap := insertLeaf t.heap a.ptr key data K₁.length }
  have hrun : leafInsert t a.ptr key data = .ok (0, t') := by
    simp only [leafInsert, h.search]
    rw [if_neg (by omega), if_neg (by rw [h.leafOk.body.entries]; exact hlen)]
    simp only [t']
    congr
    omega
  have hf : Frame t t' [a.ptr] [] := by
    refine ⟨rfl, rfl, rfl, le_rfl, fun _ _ _ => rfl, fun _ _ _ => rfl, fun _ _ _ => rfl,
      fun p _ hp => ?_, fun _ _ _ => rfl⟩
    exact Function.update_of_ne (by simpa using hp) _ _
  have hitems : leafItems (L₁ ++ ⟨a.lo, a.ptr, K₁ ++ (key, data) :: K₂⟩ :: L₂) =
      leafItems (L₁ ++ a :: L₂) := by
    simp [LeafNode.item]
  have hlenK := h.length_kvs
  refine ⟨t', hrun, hf, rfl, rfl, hf.spares (by simp),
    L₁ ++ ⟨a.lo, a.ptr, K₁ ++ (key, data) :: K₂⟩ :: L₂, Gss, ⟨?_, ?_⟩, fun e => ?_⟩
  · refine Leaves.replace (M := [a]) (N := [⟨a.lo, a.ptr, K₁ ++ (key, data) :: K₂⟩])
      h.tree.leaves hf h.others ?_ (fun ht => ⟨.inl ht, ?_⟩) ?_ ?_ fun e he => ?_
    · intro x hx
      rw [List.mem_singleton.1 hx]
      refine ⟨h.leafOk.type, ?_, h.ascending, h.lo_le, h.data_ne, by rw [hlenK]; omega, ?_⟩
      · show LeafBody (Function.update t.heap.leaf a.ptr _ a.ptr) _
        rw [Function.update_self, ← insertIdx_length, ← h.kvs]
        exact h.leafOk.body.insert (by rw [h.kvs]; simp)
      · have := h.leafOk.max
        show (K₁ ++ (key, data) :: K₂).length ≤ t.entries
        omega
    · intro x hx
      rw [List.mem_singleton.1 hx]
      have := h.tree.leaves.min ht a (by simp)
      simp only
      omega
    · refine order_replace (M := [a]) h.tree.leaves.order (by simp) (by simp)
        fun n hn b hb e he => ?_
      rw [List.mem_singleton.1 hn] at he
      exact h.lt_hi e he b hb
    · exact first_replaced h.tree.leaves.first rfl
    · show Chain t.heap.next (t.head 0) _ e
      simpa using he
  · rw [hitems]
    refine h.tree.above.frame hf rfl (fun _ _ => rfl) (fun p hp hm => ?_) (by simp)
    refine h.leaf_notMem p hp ?_
    rw [List.mem_singleton.1 hm]
    simp
  · have := h.mem_kvs (e := e)
    simp only [pairs_append, pairs_cons, List.mem_append] at this ⊢
    grind

/-! ## Division of a full leaf -/

omit h in
theorem withLeaf_next (ha : a.ptr < t.heap.brk) (p : Ptr) :
    (withLeaf t.heap a.ptr).next p =
      if p = a.ptr then t.heap.brk else if p = t.heap.brk then t.heap.next a.ptr
        else t.heap.next p := by
  simp only [withLeaf, leafNew, Heap.setNext, Function.update_apply, ha.ne, if_false]
  split_ifs <;> rfl

theorem divided_frame {h' : Heap} {K : List (Int × Int)} {s : Nat}
    (hd : LeafDivided (withLeaf t.heap a.ptr) h' a.ptr t.heap.brk K s) (q : Ptr) :
    Frame t { t with heap := h'.setParent t.heap.brk q } [a.ptr] [] := by
  have ha := (h.ptr_bound (x := a) (by simp)).2
  refine ⟨rfl, rfl, rfl, ?_, fun p hp hn => ?_, fun p hp hn => ?_, fun p hp hn => ?_,
    fun p hp hn => ?_, fun p hp hn => ?_⟩
  · show t.heap.brk ≤ h'.brk
    rw [hd.brk]
    exact Nat.le_succ _
  · show h'.type p = _
    rw [hd.type]
    exact Function.update_of_ne hp.ne _ _
  · show h'.next p = _
    rw [hd.next, withLeaf_next ha, if_neg (by simpa using hn), if_neg hp.ne]
  · show h'.nonLeaf p = _
    rw [hd.nonLeaf]
    rfl
  · show h'.leaf p = _
    rw [hd.leaf p (by simpa using hn) hp.ne]
    exact Function.update_of_ne hp.ne _ _
  · show Function.update h'.parent t.heap.brk q p = _
    rw [Function.update_of_ne hp.ne, hd.parent]
    exact Function.update_of_ne hp.ne _ _

variable {F : List (Int × Int)}

/-- The two leaves that hold the entries `K` after the division, `f` being the first entry moved. -/
theorem divided_leaves (he : 1 ≤ t.entries) (hlen : a.kvs.length = t.entries) {h' : Heap}
    (hd : LeafDivided (withLeaf t.heap a.ptr) h' a.ptr t.heap.brk (K₁ ++ (key, data) :: K₂)
      ((t.entries + 1) / 2)) (q : Ptr) {f : Int × Int}
    (hf : (K₁ ++ (key, data) :: K₂).drop ((t.entries + 1) / 2) = f :: F)
    (htop : Gss ≠ [] ∨ L₁ ++ L₂ = []) : Leaves { t with heap := h'.setParent t.heap.brk q } E
      (L₁ ++ ⟨a.lo, a.ptr, (K₁ ++ (key, data) :: K₂).take ((t.entries + 1) / 2)⟩ ::
        ⟨f.1, t.heap.brk, f :: F⟩ :: L₂) false := by
  have ha := (h.ptr_bound (x := a) (by simp)).2
  have hK : (K₁ ++ (key, data) :: K₂).length = t.entries + 1 := by rw [h.length_kvs, hlen]
  have hlenF : (f :: F).length = t.entries + 1 - (t.entries + 1) / 2 := by
    rw [← hf, List.length_drop, hK]
  have hlenT : ((K₁ ++ (key, data) :: K₂).take ((t.entries + 1) / 2)).length =
    (t.entries + 1) / 2 := by
    rw [List.length_take, hK]
    omega
  have hasc := h.ascending
  rw [← List.take_append_drop ((t.entries + 1) / 2) (K₁ ++ (key, data) :: K₂), hf] at hasc
  obtain ⟨hasc1, hasc2, hasc3⟩ := List.pairwise_append.1 hasc
  have hmemF : ∀ e ∈ f :: F, e ∈ K₁ ++ (key, data) :: K₂ := fun e hm =>
    List.mem_of_mem_drop (hf ▸ hm)
  have hmemT : ∀ e ∈ (K₁ ++ (key, data) :: K₂).take ((t.entries + 1) / 2),
    e ∈ K₁ ++ (key, data) :: K₂ :=
    fun e hm => List.mem_of_mem_take hm
  have hright := hd.right
  rw [hf] at hright
  refine Leaves.replace (M := [a])
    (N := [⟨a.lo, a.ptr, (K₁ ++ (key, data) :: K₂).take ((t.entries + 1) / 2)⟩,
      ⟨f.1, t.heap.brk, f :: F⟩]) h.tree.leaves (h.divided_frame hd q) h.others ?_ ?_ ?_ ?_ ?_
  · intro x hx
    simp only [List.mem_cons, List.not_mem_nil, or_false] at hx
    rcases hx with rfl | rfl
    · refine ⟨?_, hd.left, hasc1, fun e hm => h.lo_le e (hmemT e hm), fun e hm =>
        h.data_ne e (hmemT e hm), ?_, ?_⟩
      · show h'.type a.ptr = _
        rw [hd.type]
        exact (Function.update_of_ne ha.ne _ _).trans h.leafOk.type
      · simp only [hlenT]; omega
      · show List.length _ ≤ t.entries
        simp only [hlenT]; omega
    · refine ⟨?_, hright, hasc2, fun e hm => ?_, fun e hm => h.data_ne e (hmemF e hm), ?_, ?_⟩
      · show h'.type t.heap.brk = _
        rw [hd.type]
        exact Function.update_self _ _ _
      · rcases List.mem_cons.1 hm with rfl | hm
        · exact le_rfl
        · exact WithBot.coe_le_coe.2 ((List.pairwise_cons.1 hasc2).1 e hm).le
      · simp only [hlenF]; omega
      · show List.length _ ≤ t.entries
        simp only [hlenF]; omega
  · refine fun _ => ⟨?_, fun x hx => ?_⟩
    · rcases htop with htop | htop
      · exact .inl (by simpa using htop)
      · exact .inr htop
    · simp only [List.mem_cons, List.not_mem_nil, or_false] at hx
      rcases hx with rfl | rfl
      · simp only [hlenT]; omega
      · simp only [hlenF]; omega
  · refine order_replace (M := [a]) h.tree.leaves.order ?_ ?_ ?_
    · refine List.pairwise_pair.2 fun e hm => ?_
      exact WithBot.coe_lt_coe.2 (hasc3 e hm f (by simp))
    · intro n hn
      simp only [List.mem_cons, List.not_mem_nil, or_false] at hn
      rcases hn with rfl | rfl
      · exact ⟨a, by simp, le_rfl⟩
      · exact ⟨a, by simp, h.lo_le f (hmemF f (by simp))⟩
    · intro n hn b hb e hm
      simp only [List.mem_cons, List.not_mem_nil, or_false] at hn
      rcases hn with rfl | rfl
      · exact h.lt_hi e (hmemT e hm) b hb
      · exact h.lt_hi e (hmemF e hm) b hb
  · exact first_replaced h.tree.leaves.first rfl
  · intro e hc
    have hnd := (List.nodup_append.1 h.tree.above.nodup).1
    rw [map_snd_leafItems] at hnd
    simp only [List.cons_append, List.nil_append, leafPtrs_append, leafPtrs_cons] at hc hnd ⊢
    show Chain h'.next (t.head 0) _ e
    rw [hd.next]
    refine hc.insert_after hnd ?_ ?_ fun p hp hne => ?_
    · rw [withLeaf_next ha, if_neg ha.ne', if_pos rfl]
    · rw [withLeaf_next ha, if_pos rfl]
    · have hp' : p < t.heap.brk := by
        refine (h.tree.above.bound p (List.mem_append_left _ ?_)).2
        rw [map_snd_leafItems]
        simpa using hp
      rw [withLeaf_next ha, if_neg hne, if_neg hp'.ne]

theorem run_full (he : 1 ≤ t.entries) (hlen : a.kvs.length = t.entries) :
    ∃ h' f F, LeafDivided (withLeaf t.heap a.ptr) h' a.ptr t.heap.brk (K₁ ++ (key, data) :: K₂)
        ((t.entries + 1) / 2) ∧
      (K₁ ++ (key, data) :: K₂).drop ((t.entries + 1) / 2) = f :: F ∧
      leafInsert t a.ptr key data =
        if t.heap.parent a.ptr = 0 then .ok
          (0, newRoot { t with heap := h' } a.ptr t.heap.brk f.1 1)
        else nonLeafInsert MAX_LEVEL
          { t with heap := h'.setParent t.heap.brk (t.heap.parent a.ptr) }
              (t.heap.parent a.ptr) t.heap.brk f.1 1 := by
  have ha := (h.ptr_bound (x := a) (by simp)).2
  have hK : (K₁ ++ (key, data) :: K₂).length = t.entries + 1 := by rw [h.length_kvs, hlen]
  obtain ⟨h', hrun, hd⟩ := splitLeaf_spec key data K₁.length
    h.leafOk.body hlen he (by rw [← hlen, h.kvs]; simp) ha
  rw [h.kvs, insertIdx_length] at hd
  have hmoved : 0 < ((K₁ ++ (key, data) :: K₂).drop ((t.entries + 1) / 2)).length := by
    rw [List.length_drop, hK]
    omega
  obtain ⟨f, F, hf⟩ := List.exists_cons_of_ne_nil (List.ne_nil_of_length_pos hmoved)
  refine ⟨h', f, F, hd, hf, ?_⟩
  have hpar : h'.parent a.ptr = t.heap.parent a.ptr := by
    rw [hd.parent]
    exact Function.update_of_ne ha.ne _ _
  have hkey : (h'.leaf t.heap.brk).key 0 = f.1 := by
    have := hd.right
    rw [hf] at this
    exact this.key_at rfl
  simp only [leafInsert, h.search]
  rw [if_neg (by omega), if_pos (by rw [h.leafOk.body.entries]; exact hlen),
    show (-(-(K₁.length : Int) - 1) - 1).toNat = K₁.length by omega, hrun]
  simp only [hpar, hkey]
  rw [if_neg (by omega)]

/-- The entries after the division. -/
theorem mem_pairs_divided {f : Int × Int} {s : Nat}
    (hf : (K₁ ++ (key, data) :: K₂).drop s = f :: F) (e : Int × Int) :
    e ∈ pairs (L₁ ++ ⟨a.lo, a.ptr, (K₁ ++ (key, data) :: K₂).take s⟩ :: ⟨f.1, t.heap.brk,
      f :: F⟩ :: L₂) ↔ e ∈ pairs (L₁ ++ a :: L₂) ∨ e = (key, data) := by
  have h1 := h.mem_kvs (e := e)
  rw [← List.take_append_drop s (K₁ ++ (key, data) :: K₂), hf, List.mem_append] at h1
  simp only [pairs_append, pairs_cons, List.mem_append]
  grind

omit h in
/-- The leaf is the root: it gets a parent. -/
theorem run_root (h : LeafInsertPre t E L₁ a L₂ [] key data K₁ K₂) (hE : ∀ i, E i 0)
    (ho : 2 ≤ t.order)
    (he : 1 ≤ t.entries) (hlen : a.kvs.length = t.entries) :
    ∃ t', leafInsert t a.ptr key data = .ok (0, t') ∧ Frame t t' [a.ptr] [a.ptr] ∧
      (∀ j ≥ 2, t'.head j = t.head j) ∧ LeafInserted t E (L₁ ++ a :: L₂) key data t' := by
  obtain ⟨h', f, F, hd, hf, hrun⟩ := h.run_full he hlen
  have ha := h.ptr_bound (x := a) (by simp)
  obtain ⟨lo, hroot⟩ := h.tree.above.tower
  obtain ⟨rfl, rfl, hap⟩ : L₁ = [] ∧ L₂ = [] ∧ a.ptr = t.root := by
    cases L₁ with
    | nil =>
      simp only [leafItems, LeafNode.item, List.nil_append, List.map_cons, List.cons.injEq,
        Prod.mk.injEq, List.map_eq_nil_iff] at hroot
      exact ⟨rfl, hroot.2, hroot.1.2⟩
    | cons x L₁ => simp [leafItems] at hroot
  rw [if_pos (by rw [hap]; exact h.tree.above.rootParent)] at hrun
  have hl := h.divided_leaves he hlen hd (h'.parent t.heap.brk) hf (.inr rfl)
  have hfr := h.divided_frame hd (h'.parent t.heap.brk)
  rw [setParent_self] at hl hfr
  have hnr := newRoot_frame { t with heap := h' } a.ptr t.heap.brk f.1 1
  have hbrk : h'.brk = t.heap.brk + 1 := hd.brk
  have hlo : a.lo < (f.1 : WithBot Int) := by
    have := hl.sorted
    simpa [Sorted, leafItems, LeafNode.item] using this
  have hab := newRoot_above (t := { t with heap := h' }) (E := E) (i := 1) (l := a.ptr)
    (r := t.heap.brk) hE ho ha.2.ne
    ⟨ha.1, by show a.ptr < h'.brk; rw [hbrk]; exact Nat.lt_succ_of_lt ha.2⟩
    ⟨ha.1.trans ha.2, by show t.heap.brk < h'.brk; rw [hbrk]; exact Nat.lt_succ_self _⟩ hlo
    (by show ((1 : Nat) + 1 : Int) ≤ max 2 t.level; push_cast; omega)
    (fun j hj => h.tree.above.headAbove j (by simpa using hj))
  refine ⟨_, hrun, hfr.trans hnr (fun p _ hn => ⟨hn, by simp⟩) (fun p hp hn => ⟨by simp, ?_⟩),
    fun j hj => ?_, rfl, (hfr.spares (by simp)).trans (hnr.spares (by simp)), _, _,
    ⟨(hl.weaken _).frame hnr ?_ ?_, hab⟩, h.mem_pairs_divided hf⟩
  · simp only [List.mem_cons, List.not_mem_nil, or_false] at hn ⊢
    exact fun hc => hc.elim hn hp.ne
  · show Function.update t.head 1 h'.brk j = t.head j
    exact Function.update_of_ne (by omega) _ _
  · show Function.update t.head 1 h'.brk 0 = t.head 0
    exact Function.update_of_ne Nat.zero_ne_one _ _
  · intro p hp
    refine ⟨?_, by simp⟩
    simp only [List.nil_append, leafPtrs_cons, leafPtrs_nil, List.mem_cons, List.not_mem_nil,
      or_false] at hp
    show p < h'.brk
    rw [hbrk]
    rcases hp with rfl | rfl
    · exact Nat.lt_succ_of_lt ha.2
    · exact Nat.lt_succ_self _

omit h in
/-- The call of `non_leaf_insert`. -/
theorem up {Gs : List (Group Int Ptr)} {rest : List (List (Group Int Ptr))}
    (h : LeafInsertPre t E L₁ a L₂ (Gs :: rest) key data K₁ K₂) (he : 1 ≤ t.entries)
    (hlen : a.kvs.length = t.entries) {h' : Heap}
    (hd : LeafDivided (withLeaf t.heap a.ptr) h' a.ptr t.heap.brk (K₁ ++ (key, data) :: K₂)
      ((t.entries + 1) / 2)) {f : Int × Int}
    (hf : (K₁ ++ (key, data) :: K₂).drop ((t.entries + 1) / 2) = f :: F) :
    ∃ A g B I₁ I₂, Gs = A ++ g :: B ∧ t.heap.parent a.ptr = g.ptr ∧
      leafItems L₁ ++ a.item :: ((f.1 : WithBot Int), t.heap.brk) :: leafItems L₂ =
        flat A ++ (I₁ ++ a.item :: ((f.1 : WithBot Int), t.heap.brk) :: I₂ ++ flat B) ∧
      InsertPre { t with heap := h'.setParent t.heap.brk g.ptr } E 1 A g B rest I₁ a.item I₂ f.1
        t.heap.brk := by
  have hab := h.tree.above
  rw [leafItems_append, leafItems_cons] at hab
  obtain ⟨A, g, B, I₁, I₂, rfl, hg, hX, hY, hpar⟩ := hab.group
  have ha := h.ptr_bound (x := a) (by simp)
  have hbrk : h'.brk = t.heap.brk + 1 := hd.brk
  have hs := (h.divided_leaves he hlen hd g.ptr hf (.inl (by simp))).sorted
  rw [leafItems_append, leafItems_cons, leafItems_cons] at hs
  obtain ⟨-, hs1, -⟩ := List.pairwise_append.1 hs
  obtain ⟨hs2, hs3⟩ := List.pairwise_cons.1 hs1
  have hflat : leafItems L₁ ++ a.item :: leafItems L₂ = flat (A ++ g :: B) := hab.flat_eq.symm
  refine ⟨A, g, B, I₁, I₂, rfl, hpar, by rw [hX, hY]; simp, ?_, hg, ?_, ?_, ?_, ?_, ?_⟩
  · rw [← hflat]
    refine hab.frame (h.divided_frame hd g.ptr) rfl (fun _ _ => rfl) (fun p hp hm => ?_) (by simp)
    refine h.leaf_notMem p hp ?_
    rw [List.mem_singleton.1 hm]
    simp
  · rw [← hflat]
    intro hm
    exact lt_irrefl _ (hab.bound _ hm).2
  · refine ⟨ha.1.trans ha.2, ?_⟩
    show t.heap.brk < h'.brk
    rw [hbrk]
    exact Nat.lt_succ_self _
  · exact Function.update_self _ _ _
  · exact hs2 _ List.mem_cons_self
  · intro y hy
    rw [← hY] at hy
    exact (List.pairwise_cons.1 hs3).1 y hy

end LeafInsertPre

/-! ## Lost entries -/

/-- When at least two leaves are cut off, an entry other than the new one is lost. -/
theorem exists_lost {top : Bool} {N : List LeafNode} {m : Nat} (h : Leaves t E N top)
    (hm : m + 2 ≤ N.length) (x : Int × Int) : ∃ e ∈ pairs N, e ≠ x ∧ e ∉ pairs (N.take m) := by
  have hkeep : ∀ b ∈ N.drop m, ∀ e ∈ b.kvs, e ∉ pairs (N.take m) := by
    intro b hb e he hmem
    obtain ⟨c, hc, hec⟩ := mem_pairs.1 hmem
    have ho := h.order
    rw [← List.take_append_drop m N] at ho
    have := (List.pairwise_append.1 ho).2.2 c hc b hb e hec
    exact absurd ((h.leaf b (List.mem_of_mem_drop hb)).lo e he) (not_le.2 this)
  obtain ⟨b, c, R, hR⟩ : ∃ b c R, N.drop m = b :: c :: R := by
    match hR : N.drop m, (by rw [List.length_drop]; omega : 2 ≤ (N.drop m).length) with
    | b :: c :: R, _ => exact ⟨b, c, R, rfl⟩
  have hbc : Before b c := by
    have ho := h.order.sublist (List.drop_sublist m N)
    rw [hR] at ho
    exact (List.pairwise_cons.1 ho).1 c (by simp)
  have hbN : b ∈ N.drop m := by simp [hR]
  have hcN : c ∈ N.drop m := by simp [hR]
  have hb := h.leaf b (List.mem_of_mem_drop hbN)
  have hc := h.leaf c (List.mem_of_mem_drop hcN)
  obtain ⟨e₁, T₁, h₁⟩ := List.exists_cons_of_ne_nil hb.ne_nil
  obtain ⟨e₂, T₂, h₂⟩ := List.exists_cons_of_ne_nil hc.ne_nil
  have he₁ : e₁ ∈ b.kvs := by simp [h₁]
  have he₂ : e₂ ∈ c.kvs := by simp [h₂]
  by_cases hx : e₁ = x
  · refine ⟨e₂, mem_pairs.2 ⟨c, List.mem_of_mem_drop hcN, he₂⟩, ?_, hkeep c hcN e₂ he₂⟩
    rintro rfl
    have := (hbc e₁ he₁).trans_le (hc.lo e₂ he₂)
    rw [hx] at this
    exact lt_irrefl _ this
  · exact ⟨e₁, mem_pairs.2 ⟨b, List.mem_of_mem_drop hbN, he₁⟩, hx, hkeep b hbN e₁ he₁⟩

/-! ## `leaf_insert` -/

variable {rest : List (List (Group Int Ptr))}

/-- What `non_leaf_insert` does with the new leaf is what `leaf_insert` does. -/
theorem LeafInsertPre.finish {Gs : List (Group Int Ptr)}
    (h : LeafInsertPre t E L₁ a L₂ (Gs :: rest) key data K₁ K₂) (he : 1 ≤ t.entries)
    (hlen : a.kvs.length = t.entries) {h' : Heap}
    (hd : LeafDivided (withLeaf t.heap a.ptr) h' a.ptr t.heap.brk (K₁ ++ (key, data) :: K₂)
      ((t.entries + 1) / 2)) {f : Int × Int} {F : List (Int × Int)}
    (hf : (K₁ ++ (key, data) :: K₂).drop ((t.entries + 1) / 2) = f :: F) {q : Ptr}
    {r : Except Fault (Int × Tree)}
    (hr : InsertPost { t with heap := h'.setParent t.heap.brk q } E 1 a.ptr
      (leafItems L₁ ++ a.item :: ((f.1 : WithBot Int), t.heap.brk) :: leafItems L₂)
      (Gs :: rest) r) : ∃ ret t', r = .ok (ret, t') ∧ SameParams t t' ∧
      (¬ Overflows t a (Gs :: rest) ∧ ret = 0 ∧ LeafInserted t E (L₁ ++ a :: L₂) key data t' ∨
        Overflows t a (Gs :: rest) ∧ ret = -1 ∧ LeafExceeded t E (L₁ ++ a :: L₂) t') := by
  obtain ⟨ret, t', rfl, hfr, hh, hcase⟩ := hr
  have hl := h.divided_leaves he hlen hd q hf (.inl (by simp))
  set N := L₁ ++ ⟨a.lo, a.ptr, (K₁ ++ (key, data) :: K₂).take ((t.entries + 1) / 2)⟩ ::
    ⟨f.1, t.heap.brk, f :: F⟩ :: L₂ with hN
  have hNitems : leafItems L₁ ++ a.item :: ((f.1 : WithBot Int), t.heap.brk) :: leafItems L₂ =
      leafItems N := by
    rw [hN, leafItems_append, leafItems_cons, leafItems_cons]
    rfl
  rw [hNitems] at hcase
  have hbrk : h'.brk = t.heap.brk + 1 := hd.brk
  have hNptr : ∀ p ∈ leafPtrs N, (0 < p ∧ p < h'.brk) ∧ p ∉ allPtrs (Gs :: rest) := by
    intro p hpm
    have hp' : p = t.heap.brk ∨ p ∈ leafPtrs (L₁ ++ a :: L₂) := by
      simp only [hN, leafPtrs_append, leafPtrs_cons, List.mem_append, List.mem_cons] at hpm ⊢
      grind
    rw [hbrk]
    rcases hp' with rfl | hp'
    · refine ⟨⟨Nat.zero_lt_of_lt (h.ptr_bound (x := a) (by simp)).2, Nat.lt_succ_self _⟩,
        fun hm => ?_⟩
      exact lt_irrefl _ (h.tree.above.bound _ (List.mem_append_right _ hm)).2
    · obtain ⟨x, hx, rfl⟩ := List.mem_map.1 hp'
      exact ⟨(h.ptr_bound hx).imp_right Nat.lt_succ_of_lt, fun hm => h.leaf_notMem _ hm hp'⟩
  have hl' : Leaves t' E N false :=
    hl.frame hfr (hh 0 Nat.zero_lt_one) fun p hp => (hNptr p hp).imp_left And.right
  have hspares : Spares t t' (L₁ ++ a :: L₂) := by
    have hdf := h.divided_frame hd q
    refine (hdf.spares (by simp)).trans (hfr.spares fun p hp => .inr ?_)
    have hpa : p ∉ [a.ptr] := by
      intro hm
      exact h.leaf_notMem p hp (by rw [List.mem_singleton.1 hm]; simp)
    rw [hdf.type p (h.tree.above.bound p (List.mem_append_right _ hp)).2 hpa]
    exact h.tree.above.type p hp
  have hover : Overflows t a (Gs :: rest) ↔ FullUp t.order t.level 1 a.ptr (Gs :: rest) :=
    ⟨fun hc => hc.2.2, fun hc => ⟨hlen, by simp, hc⟩⟩
  refine ⟨ret, t', rfl, ⟨hfr.order, hfr.entries, hfr.level⟩, ?_⟩
  rw [hover]
  rcases hcase with ⟨hnf, hret, hst, Gss', hab, -⟩ | ⟨hfu, hret, hst, m, Gss', hm1, hm2, hab, -⟩
  · exact .inl ⟨hnf, hret, hst, hspares, N, Gss', ⟨hl'.weaken _, hab⟩, h.mem_pairs_divided hf⟩
  · refine .inr ⟨hfu, hret, hst, hspares, N.take m, N.drop m, Gss',
      ⟨(hl'.weaken _).take m, ?_⟩, ⟨fun d hd' => hl'.leaf d (List.mem_of_mem_drop hd'),
        fun d hd' => ?_⟩, by rw [List.take_append_drop]; exact hl'.chain, fun ho => ?_⟩
    · rw [leafItems, List.map_take]
      exact hab
    · have hbound := (hNptr d.ptr (List.mem_map_of_mem (List.mem_of_mem_drop hd'))).1
      exact hbound.imp_right fun hlt => hlt.trans_le hfr.brk
    · have hlenN : (leafItems N).length = N.length := by simp [leafItems]
      rw [hlenN] at hm2
      change m + t.order / 2 ≤ N.length at hm2
      obtain ⟨e, he, hne, hlost⟩ := exists_lost hl' (m := m) (by omega) (key, data)
      exact ⟨e, ((h.mem_pairs_divided hf e).1 he).resolve_right hne, hlost⟩

/-- The leaf is not the root: `non_leaf_insert` puts the new leaf behind the divided one. -/
theorem LeafInsertPre.run_inner {Gs : List (Group Int Ptr)}
    (h : LeafInsertPre t E L₁ a L₂ (Gs :: rest) key data K₁ K₂) (hE : ∀ i, E i 0)
    (hp : Params t) (hlen : a.kvs.length = t.entries) :
    ∃ ret t', leafInsert t a.ptr key data = .ok (ret, t') ∧
      SameParams t t' ∧
      (¬ Overflows t a (Gs :: rest) ∧ ret = 0 ∧ LeafInserted t E (L₁ ++ a :: L₂) key data t' ∨
        Overflows t a (Gs :: rest) ∧ ret = -1 ∧ LeafExceeded t E (L₁ ++ a :: L₂) t') := by
  obtain ⟨h', f, F, hd, hf, hrun⟩ := h.run_full hp.entries hlen
  obtain ⟨A, g, B, I₁, I₂, rfl, hpar, hitems, hpre⟩ := h.up hp.entries hlen hd hf
  have hgpos : g.ptr ≠ 0 := (hpre.ptr_bound (x := g) (by simp)).1.ne'
  rw [hpar, if_neg hgpos] at hrun
  have hfuel := h.tree.above.fuel hp.level
  have hrest : rest.length < MAX_LEVEL := by
    simp only [List.length_cons] at hfuel
    omega
  have hpost := nonLeafInsert_spec hE hpre hrest le_rfl hp.order hp.orderLevel
  rw [← hitems] at hpost
  rw [hrun]
  exact h.finish hp.entries hlen hd hf hpost

/-- **`leaf_insert`** of an absent key (module doc). -/
theorem leafInsert_spec (h : LeafInsertPre t E L₁ a L₂ Gss key data K₁ K₂) (hE : ∀ i, E i 0)
    (hp : Params t) :
    ∃ ret t', leafInsert t a.ptr key data = .ok (ret, t') ∧
      SameParams t t' ∧
      (¬ Overflows t a Gss ∧ ret = 0 ∧ LeafInserted t E (L₁ ++ a :: L₂) key data t' ∨
        Overflows t a Gss ∧ ret = -1 ∧ LeafExceeded t E (L₁ ++ a :: L₂) t') := by
  by_cases hlen : a.kvs.length = t.entries
  · cases Gss with
    | nil =>
      obtain ⟨t', hrun, hf, -, hins⟩ := h.run_root hE (by have := hp.order; omega) hp.entries hlen
      exact ⟨0, t', hrun, ⟨hf.order, hf.entries, hf.level⟩, .inl ⟨fun hc => hc.2.1 rfl, rfl, hins⟩⟩
    | cons Gs rest => exact h.run_inner hE hp hlen
  · obtain ⟨t', hrun, hf, -, hins⟩ := h.run_simple hlen
    exact ⟨0, t', hrun, ⟨hf.order, hf.entries, hf.level⟩, .inl ⟨fun hc => hlen hc.1, rfl, hins⟩⟩

/-- `leaf_insert` of a key that is in the leaf. -/
theorem leafInsert_present {d : Int} (h : LeafOk t a) (hk : a.kvs = K₁ ++ (key, d) :: K₂) :
    leafInsert t a.ptr key data = .ok (-1, t) := by
  have hb := h.body
  have hs := h.asc
  rw [hk] at hb hs
  simp only [leafInsert, hb.search_found hs]
  rw [if_pos (by omega)]

end

end BplusTree
