import DsAlgor.BplusTree.Atomic

/-!
# Range queries

`bplus_tree_get_range` looks up the smaller key, and walks along the leaves from there until a key
is larger than the other one. Where all keys of the leaf it arrives at are smaller, it goes on to
the next leaf, but keeps the index: the walk begins behind the entries of this leaf, at what is in
its arrays there (`Enters`). At the other end it goes on behind the last leaf of the tree, into
leaves that `Level exceeded` has left in the chain (`GoodEnd`). `range_right_iff` says for which
trees and keys the result is right nevertheless.
-/

namespace BplusTree

open CArray Levels

/-- `ln->key[i]`, which must be in the array; behind the entries it is what is in memory. -/
def Leaf.keyAt (l : Leaf) (i : Nat) : Except Fault Int :=
  if i < MAX_ENTRIES then .ok (l.key i) else .error .staleRead

/-- `while (ln != NULL && ln->key[i] <= max)`, with a number of rounds. -/
def rangeLoop (h : Heap) (max : Int) : Nat → Ptr → Nat → Int → Except Fault Int
  | 0, _, _, _ => .error .outOfFuel
  | fuel + 1, ln, i, data =>
    if ln = 0 then .ok data
    else do
      let l := h.leaf ln
      if (← l.keyAt i) ≤ max then
        if i + 1 ≥ l.entries then rangeLoop h max fuel (h.next ln) 0 (l.data i)
        else rangeLoop h max fuel ln (i + 1) (l.data i)
      else .ok data

def bplusTreeGetRange (fuel : Nat) (t : Tree) (key1 key2 : Int) : Except Fault Int := do
  let min := if key1 ≤ key2 then key1 else key2
  let max := if min = key1 then key2 else key1
  let ln ← findLeaf t.heap min MAX_LEVEL t.root
  if ln = 0 then return 0
  let l := t.heap.leaf ln
  let i := keyBinarySearch l.key l.entries min
  if i < 0 then
    let i := (-i - 1).toNat
    rangeLoop t.heap max fuel (if i ≥ l.entries then t.heap.next ln else ln) i 0
  else rangeLoop t.heap max fuel ln i.toNat 0

/-! ## What a range query should return -/

/-- The tree has the key `k` with the data `d`. -/
def Stored (t : Tree) (k d : Int) : Prop := bplusTreeSearch t k = .ok d ∧ d ≠ 0

/-- The data of the largest key from `lo` to `hi`, or `0`. -/
def RangeAnswer (t : Tree) (lo hi d : Int) : Prop :=
  (∃ k, Stored t k d ∧ lo ≤ k ∧ k ≤ hi ∧ ∀ k' d', Stored t k' d' → k' ≤ hi → k' ≤ k) ∨
    d = 0 ∧ ∀ k d', Stored t k d' → lo ≤ k → hi < k

/-- With enough rounds the result is `d`. -/
def Settles (f : Nat → Except Fault Int) (d : Int) : Prop := ∃ n, ∀ fuel ≥ n, f fuel = .ok d

def RangeRight (t : Tree) (key1 key2 : Int) : Prop :=
  ∃ d, Settles (fun fuel => bplusTreeGetRange fuel t key1 key2) d ∧
    RangeAnswer t (min key1 key2) (max key1 key2) d

/-- The data of the last of the entries up to `hi`, where their keys ascend. -/
def lastUpTo (hi : Int) : List (Int × Int) → Int → Int
  | [], d => d
  | e :: es, d => if e.1 ≤ hi then lastUpTo hi es e.2 else d

/-- The nodes of a chain, at most `fuel` of them. -/
def chainFrom (h : Heap) : Nat → Ptr → List Ptr
  | 0, _ => []
  | fuel + 1, p => if p = 0 then [] else p :: chainFrom h fuel (h.next p)

def Tree.leaves (t : Tree) : List Ptr := leavesUnder t.heap MAX_LEVEL t.root

/-- The entries of the leaves in the chain that are not in the tree. -/
def leftOver (t : Tree) : List (Int × Int) :=
  ((chainFrom t.heap t.heap.brk (t.head 0)).filter (· ∉ t.leaves)).flatMap t.heap.leafPairs

/-- If the walk comes to the largest stored key, then nothing behind it changes the data. -/
def GoodEnd (t : Tree) (hi : Int) : Prop :=
  ∀ e ∈ (stored t).getLast?, e.1 ≤ hi → lastUpTo hi (leftOver t) e.2 = e.2

/-- The walk may begin at the index `n` of the leaf `p`, although all entries of `p` and those
behind them are in question. `b` is this leaf, `c` the next one. -/
def Enters (t : Tree) (hi : Int) (p : Ptr) (n : Nat) : Prop :=
  let b := t.heap.leaf p
  let next := t.heap.next p
  let c := t.heap.leaf next
  n < MAX_ENTRIES ∧
    if p ∈ t.leaves then
      -- nothing is in the range, or the entries that are passed over are followed by others
      hi < b.key n ∧ hi < b.key 0 ∨ b.key n ≤ hi ∧
        if n < b.entries ∨ next ∈ t.leaves ∧ c.key 0 ≤ hi then GoodEnd t hi
        else lastUpTo hi (if next ∈ t.leaves then [] else leftOver t) (b.data n) =
          lastUpTo hi (t.heap.leafPairs p) 0
    else hi < b.key n ∨ b.entries ≤ n ∧ b.data n = 0 ∧ (next = 0 ∨ hi < c.key 0)

/-- Where the walk begins and ends, given the leaf `ln` of `lo`. -/
def GoodWalk (t : Tree) (lo hi : Int) : Prop :=
  ∀ ln, findLeaf t.heap lo MAX_LEVEL t.root = .ok ln → ln ≠ 0 →
    let a := t.heap.leaf ln
    if ∃ j < a.entries, lo ≤ a.key j then GoodEnd t hi
    else t.heap.next ln = 0 ∨ Enters t hi (t.heap.next ln) a.entries

instance (t : Tree) (hi : Int) : Decidable (GoodEnd t hi) :=
  inferInstanceAs (Decidable (∀ e ∈ (stored t).getLast?, _ → _))

instance (t : Tree) (hi : Int) (p : Ptr) (n : Nat) : Decidable (Enters t hi p n) :=
  inferInstanceAs (Decidable (_ ∧ ite _ _ _))

instance (t : Tree) (lo hi : Int) : Decidable (GoodWalk t lo hi) :=
  match h : findLeaf t.heap lo MAX_LEVEL t.root with
  | .error _ => .isTrue fun _ hln => nomatch h.symm.trans hln
  | .ok ln => decidable_of_iff (ln ≠ 0 →
      if ∃ j < (t.heap.leaf ln).entries, lo ≤ (t.heap.leaf ln).key j then GoodEnd t hi
      else t.heap.next ln = 0 ∨ Enters t hi (t.heap.next ln) (t.heap.leaf ln).entries)
    ⟨fun hgood _ hln => Except.ok.inj (h.symm.trans hln) ▸ hgood, fun hgood => hgood ln h⟩

/-! ## The walk -/

section
variable {hi : Int} {es fs : List (Int × Int)} {e : Int × Int} {d d' : Int}

theorem lastUpTo_append (h : ∀ x ∈ es, x.1 ≤ hi) (he : e.1 ≤ hi) :
    lastUpTo hi (es ++ e :: fs) d = lastUpTo hi fs e.2 := by
  induction es generalizing d with
  | nil => exact if_pos he
  | cons x es ih =>
    rw [List.cons_append, lastUpTo, if_pos (h x List.mem_cons_self)]
    exact ih fun y hy => h y (List.mem_cons_of_mem _ hy)

/-- Behind an entry that is too large nothing counts. -/
theorem lastUpTo_stop (h : ∀ x ∈ fs.head?, hi < x.1) :
    lastUpTo hi (es ++ fs) d = lastUpTo hi es d := by
  induction es generalizing d with
  | nil =>
    cases fs with
    | nil => rfl
    | cons x fs => exact if_neg (not_le.2 (h x rfl))
  | cons x es ih =>
    rw [List.cons_append, lastUpTo, lastUpTo, ih]

/-- What comes behind ascending entries counts if they are all in the range. -/
theorem lastUpTo_append_iff (hasc : Ascending (es ++ [e])) :
    lastUpTo hi (es ++ [e] ++ fs) d = lastUpTo hi (es ++ [e]) d ↔
      (e.1 ≤ hi → lastUpTo hi fs e.2 = e.2) := by
  rw [List.append_assoc, List.singleton_append]
  by_cases he : e.1 ≤ hi
  · have hle : ∀ x ∈ es, x.1 ≤ hi := fun x hx =>
      ((List.pairwise_append.1 hasc).2.2 x hx e (by simp)).le.trans he
    rw [lastUpTo_append hle he, lastUpTo_append hle he, lastUpTo, imp_iff_right he]
  · have hstop : ∀ gs, lastUpTo hi (es ++ e :: gs) d = lastUpTo hi es d := fun gs =>
      lastUpTo_stop fun x hx => Option.some.inj hx ▸ not_le.1 he
    rw [hstop, hstop]
    exact iff_of_true rfl fun hno => absurd hno he

theorem lastUpTo_ne_zero (hd : d ≠ 0) (hes : ∀ x ∈ es, x.2 ≠ 0) : lastUpTo hi es d ≠ 0 := by
  induction es generalizing d with
  | nil => exact hd
  | cons x es ih =>
    rw [lastUpTo]
    split_ifs
    · exact ih (hes x List.mem_cons_self) fun y hy => hes y (List.mem_cons_of_mem _ hy)
    · exact hd

theorem lastUpTo_eq_zero (hd : ∀ x ∈ e :: es, x.2 ≠ 0) : lastUpTo hi (e :: es) 0 = 0 ↔
    hi < e.1 := by
  rw [lastUpTo]
  by_cases he : e.1 ≤ hi
  · rw [if_pos he]
    exact iff_of_false (lastUpTo_ne_zero (hd e List.mem_cons_self) fun y hy =>
      hd y (List.mem_cons_of_mem _ hy)) (not_lt.2 he)
  · rw [if_neg he]
    exact iff_of_true rfl (not_le.1 he)

/-- An entry in the range makes up for those before it. -/
theorem lastUpTo_drop {n : Nat} (hasc : Ascending es) (hn : n < es.length) (hle : es[n].1 ≤ hi) :
    lastUpTo hi (es.drop n ++ fs) d = lastUpTo hi (es ++ fs) d' := by
  have hsplit : es = es.take n ++ es[n] :: es.drop (n + 1) := by
    rw [← List.drop_eq_getElem_cons hn, List.take_append_drop]
  have hbefore : ∀ x ∈ es.take n, x.1 ≤ hi := by
    intro x hx
    have hsorted := hasc
    rw [hsplit] at hsorted
    exact ((List.pairwise_append.1 hsorted).2.2 x hx _ List.mem_cons_self).le.trans hle
  rw [List.drop_eq_getElem_cons hn, List.cons_append, lastUpTo, if_pos hle]
  conv_rhs => rw [hsplit, List.append_assoc, List.cons_append]
  exact (lastUpTo_append hbefore hle).symm

/-- The entry whose data is returned. -/
theorem lastUpTo_spec (hasc : Ascending es) :
    (∃ x ∈ es, lastUpTo hi es d = x.2 ∧ x.1 ≤ hi ∧ ∀ y ∈ es, y.1 ≤ hi → y.1 ≤ x.1) ∨
      lastUpTo hi es d = d ∧ ∀ y ∈ es, hi < y.1 := by
  induction es generalizing d with
  | nil => exact .inr ⟨rfl, fun y hy => (nomatch hy)⟩
  | cons e es ih =>
    obtain ⟨hlt, hasc⟩ := List.pairwise_cons.1 hasc
    rw [lastUpTo]
    by_cases he : e.1 ≤ hi
    · rw [if_pos he]
      rcases @ih e.2 hasc with ⟨x, hx, hval, hle, hmax⟩ | ⟨hval, hall⟩
      · refine .inl ⟨x, List.mem_cons_of_mem _ hx, hval, hle, fun y hy hyhi => ?_⟩
        rcases List.mem_cons.1 hy with rfl | hy
        · exact (hlt x hx).le
        · exact hmax y hy hyhi
      · refine .inl ⟨e, List.mem_cons_self, hval, he, fun y hy hyhi => ?_⟩
        rcases List.mem_cons.1 hy with rfl | hy
        · exact le_rfl
        · exact absurd hyhi (not_le.2 (hall y hy))
    · rw [if_neg he]
      refine .inr ⟨rfl, fun y hy => ?_⟩
      rcases List.mem_cons.1 hy with rfl | hy
      · exact not_le.1 he
      · exact (not_le.1 he).trans (hlt y hy)

end

section
variable {t : Tree} {M : List LeafNode} {a : LeafNode} {K₁ K₂ : List (Int × Int)} {hi d : Int}
  {fuel : Nat} {p : Ptr}

/-- The walk through the rest of a leaf, when the walk from the next leaf on is known. -/
theorem rangeLoop_leaf (ha : LeafOk t a) (h0 : a.ptr ≠ 0) (hmax : t.entries ≤ MAX_ENTRIES)
    (hkvs : a.kvs = K₁ ++ K₂) (hne : K₂ ≠ []) (hnext : ∀ d fuel, (pairs M).length < fuel →
      rangeLoop t.heap hi fuel (t.heap.next a.ptr) 0 d = .ok (lastUpTo hi (pairs M) d))
    (hf : (K₂ ++ pairs M).length < fuel) :
    rangeLoop t.heap hi fuel a.ptr K₁.length d = .ok (lastUpTo hi (K₂ ++ pairs M) d) := by
  induction K₂ generalizing K₁ d fuel with
  | nil => exact absurd rfl hne
  | cons e K₂ ih =>
    obtain ⟨fuel, rfl⟩ := Nat.exists_eq_succ_of_ne_zero (Nat.ne_zero_of_lt hf)
    have hlen : a.kvs.length = K₁.length + (K₂.length + 1) := by
      rw [hkvs, List.length_append, List.length_cons]
    have hget : a.kvs[K₁.length]? = some e := by rw [hkvs]; simp
    have hlt : K₁.length < MAX_ENTRIES := by
      have := ha.max
      omega
    rw [List.cons_append, List.length_cons] at hf
    rw [rangeLoop, if_neg h0]
    dsimp only [bind, Except.bind]
    rw [Leaf.keyAt, if_pos hlt, ha.body.key_at hget, ha.body.data_at hget, ha.body.entries,
      List.cons_append, lastUpTo]
    dsimp only
    split_ifs with hle hend
    · -- the last entry of the leaf
      have hK : K₂ = [] := by
        rw [← List.length_eq_zero_iff]
        omega
      rw [hK, List.nil_append] at hf ⊢
      exact hnext e.2 fuel (Nat.lt_of_succ_lt_succ hf)
    · have hK : K₂ ≠ [] := by
        rintro rfl
        rw [List.length_nil] at hlen
        omega
      have hstep := @ih (K₁ ++ [e]) e.2 fuel (by rw [hkvs]; simp) hK (Nat.lt_of_succ_lt_succ hf)
      rw [List.length_append, List.length_singleton] at hstep
      exact hstep
    · rfl

theorem rangeLoop_chain (hM : ∀ a ∈ M, LeafOk t a) (hpos : ∀ a ∈ M, a.ptr ≠ 0)
    (hmax : t.entries ≤ MAX_ENTRIES) (hchain : Chain t.heap.next p (leafPtrs M) 0)
    (hf : (pairs M).length < fuel) :
    rangeLoop t.heap hi fuel p 0 d = .ok (lastUpTo hi (pairs M) d) := by
  induction M generalizing p d fuel with
  | nil =>
    obtain ⟨fuel, rfl⟩ := Nat.exists_eq_succ_of_ne_zero (Nat.ne_zero_of_lt hf)
    have hp : p = 0 := hchain
    rw [rangeLoop, if_pos hp]
    rfl
  | cons a M ih =>
    obtain ⟨rfl, hchain⟩ := hchain
    have ha := hM a List.mem_cons_self
    have hne : a.kvs ≠ [] := List.ne_nil_of_length_pos ha.one
    have hkvs : a.kvs = [] ++ a.kvs := rfl
    apply rangeLoop_leaf ha (hpos a List.mem_cons_self) hmax hkvs hne _ hf
    intro d fuel hf
    exact ih (fun x hx => hM x (List.mem_cons_of_mem _ hx))
      (fun x hx => hpos x (List.mem_cons_of_mem _ hx)) hchain hf

/-- The walk begins at the first entry that is not smaller, or behind the entries of the next
leaf. -/
theorem bplusTreeGetRange_eq {key1 key2 : Int} (ha : LeafOk t a) (h0 : a.ptr ≠ 0)
    (hfind : findLeaf t.heap (min key1 key2) MAX_LEVEL t.root = .ok a.ptr) (hkvs : a.kvs = K₁ ++ K₂)
    (h1 : ∀ e ∈ K₁, e.1 < min key1 key2) (h2 : ∀ e ∈ K₂, min key1 key2 ≤ e.1) :
    bplusTreeGetRange fuel t key1 key2 =
      rangeLoop t.heap (max key1 key2) fuel
        (if K₂ = [] then t.heap.next a.ptr else a.ptr) K₁.length 0 := by
  have hmin : (if key1 ≤ key2 then key1 else key2) = min key1 key2 := (min_def key1 key2).symm
  have hmax : (if min key1 key2 = key1 then key2 else key1) = max key1 key2 := by
    rcases le_total key1 key2 with h | h
    · rw [min_eq_left h, max_eq_right h, if_pos rfl]
    · rw [min_eq_right h, max_eq_left h]
      split_ifs with heq
      · exact heq
      · rfl
  have hbody := ha.body
  have hasc := ha.asc
  rw [hkvs] at hbody hasc
  simp only [bplusTreeGetRange, hmin, hmax, hfind, bind, Except.bind, pure, Except.pure]
  rw [if_neg h0]
  by_cases hfound : ∃ d K, K₂ = (min key1 key2, d) :: K
  · obtain ⟨d, K, rfl⟩ := hfound
    rw [hbody.search_found hasc, if_neg (not_lt.2 (Int.natCast_nonneg _)), Int.toNat_natCast,
      if_neg (List.cons_ne_nil _ _)]
  · have hlt : ∀ e ∈ K₂, min key1 key2 < e.1 := by
      intro e he
      refine lt_of_le_of_ne (h2 e he) fun heq => hfound ?_
      cases K₂ with
      | nil => cases he
      | cons x K =>
        have hx := h2 x List.mem_cons_self
        have hxe : x.1 ≤ e.1 := by
          rcases List.mem_cons.1 he with rfl | he
          · exact le_rfl
          · exact ((List.pairwise_cons.1 (List.pairwise_append.1 hasc).2.1).1 e he).le
        refine ⟨x.2, K, ?_⟩
        rw [le_antisymm hx (hxe.trans heq.ge)]
    rw [hbody.search_absent h1 hlt, if_pos (by omega), show (-(-(K₁.length : Int) - 1) - 1).toNat =
      K₁.length by omega, hbody.entries, List.length_append]
    have hiff : K₁.length ≥ K₁.length + K₂.length ↔ K₂ = [] := by
      rw [← List.length_eq_zero_iff]
      omega
    simp only [hiff]

end

/-! ## The answer -/

section
variable {t : Tree} {E : Nat → Ptr → Prop} {m : Map} {P Q : List (Int × Int)} {lo hi d : Int}

theorem Models.stored_iff (h : Models t E m) {k d : Int} : Stored t k d ↔ m k = some d := by
  unfold Stored
  rw [bplusTreeSearch_spec h, Except.ok.injEq]
  cases hk : m k with
  | none => simp [eq_comm]
  | some x =>
    have hx := h.ne_zero hk
    simp only [Option.getD_some, Option.some.injEq]
    constructor
    · exact fun hx => hx.1
    · rintro rfl
      exact ⟨rfl, hx⟩

/-- The answer is the data of the last entry up to `hi` among those that are not smaller than
`lo`. -/
theorem rangeAnswer_iff (hstored : ∀ k d, Stored t k d ↔ (k, d) ∈ P ++ Q)
    (hasc : Ascending (P ++ Q)) (hP : ∀ e ∈ P, e.1 < lo) (hQ : ∀ e ∈ Q, lo ≤ e.1) :
    RangeAnswer t lo hi d ↔ d = lastUpTo hi Q 0 := by
  have hmem : ∀ k d, Stored t k d → lo ≤ k → (k, d) ∈ Q := by
    intro k d hk hlo
    rcases List.mem_append.1 ((hstored k d).1 hk) with hx | hx
    · exact absurd (hP _ hx) (not_lt.2 hlo)
    · exact hx
  have hput : ∀ e ∈ Q, Stored t e.1 e.2 :=
    fun e he => (hstored e.1 e.2).2 (List.mem_append_right _ he)
  rcases @lastUpTo_spec hi Q 0 (List.pairwise_append.1 hasc).2.1 with ⟨x, hx, hval, hxhi,
    hmax⟩ | ⟨hval, hall⟩
  · rw [hval]
    constructor
    · rintro (⟨k, hk, hlo, hhi, hkmax⟩ | ⟨-, hnone⟩)
      · have hle : k ≤ x.1 := hmax (k, d) (hmem k d hk hlo) hhi
        have heq : k = x.1 := le_antisymm hle (hkmax x.1 x.2 (hput x hx) hxhi)
        rw [heq] at hk
        exact Except.ok.inj (hk.1.symm.trans (hput x hx).1)
      · exact absurd hxhi (not_le.2 (hnone x.1 x.2 (hput x hx) (hQ x hx)))
    · rintro rfl
      refine .inl ⟨x.1, hput x hx, hQ x hx, hxhi, fun k d hk hhi => ?_⟩
      by_cases hlo : lo ≤ k
      · exact hmax (k, d) (hmem k d hk hlo) hhi
      · exact (not_le.1 hlo).le.trans (hQ x hx)
  · rw [hval]
    constructor
    · rintro (⟨k, hk, hlo, hhi, -⟩ | ⟨hd, -⟩)
      · exact absurd hhi (not_le.2 (hall (k, d) (hmem k d hk hlo)))
      · exact hd
    · intro hd
      exact .inr ⟨hd, fun k d' hk hlo => hall (k, d') (hmem k d' hk hlo)⟩

end

/-! ## The beginning of the walk -/

theorem Settles.unique {f : Nat → Except Fault Int} {d d' : Int} (h : Settles f d)
    (h' : Settles f d') : d = d' := by
  obtain ⟨n, h⟩ := h
  obtain ⟨n', h'⟩ := h'
  exact Except.ok.inj ((h (max n n') (le_max_left _ _)).symm.trans
    (h' (max n n') (le_max_right _ _)))

theorem Settles.exists_iff {f : Nat → Except Fault Int} {d₀ : Int} {A : Int → Prop}
    (h : Settles f d₀) :
    (∃ d, Settles f d ∧ A d) ↔ A d₀ := by
  constructor
  · rintro ⟨d, hd, hA⟩
    rw [h.unique hd]
    exact hA
  · exact fun hA => ⟨d₀, h, hA⟩

section
variable {t : Tree} {b : LeafNode} {M : List LeafNode} {hi : Int} {n : Nat}

/-- What is known about a leaf `b` and the leaves `M` behind it. -/
structure Walk (t : Tree) (b : LeafNode) (M : List LeafNode) : Prop where
  leaf : LeafOk t b
  ne : b.ptr ≠ 0
  rest : ∀ a ∈ M, LeafOk t a
  rest_ne : ∀ a ∈ M, a.ptr ≠ 0
  entries : t.entries ≤ MAX_ENTRIES
  chain : Chain t.heap.next (t.heap.next b.ptr) (leafPtrs M) 0

theorem Walk.next (h : Walk t b M) {d : Int} {fuel : Nat} (hf : (pairs M).length < fuel) :
    rangeLoop t.heap hi fuel (t.heap.next b.ptr) 0 d = .ok (lastUpTo hi (pairs M) d) :=
  rangeLoop_chain h.rest h.rest_ne h.entries h.chain hf

theorem Walk.tail {c : LeafNode} (h : Walk t c (b :: M)) : Walk t b M :=
  ⟨h.rest b List.mem_cons_self, h.rest_ne b List.mem_cons_self,
    fun x hx => h.rest x (List.mem_cons_of_mem _ hx),
    fun x hx => h.rest_ne x (List.mem_cons_of_mem _ hx), h.entries, h.chain.2⟩

/-- From an entry of the leaf on. -/
theorem Walk.inside (h : Walk t b M) {K₁ K₂ : List (Int × Int)} (hkvs : b.kvs = K₁ ++ K₂)
    (hne : K₂ ≠ []) :
    Settles (fun fuel => rangeLoop t.heap hi fuel b.ptr K₁.length 0)
      (lastUpTo hi (K₂ ++ pairs M) 0) := by
  refine ⟨(K₂ ++ pairs M).length + 1, fun fuel hf => ?_⟩
  apply rangeLoop_leaf h.leaf h.ne h.entries hkvs hne _ hf
  intro d fuel hf
  exact h.next hf

/-- From a place behind the entries on. -/
theorem Walk.behind (h : Walk t b M) (hn : n < MAX_ENTRIES) (hle : (t.heap.leaf b.ptr).key n ≤ hi)
    (hin : b.kvs.length ≤ n) :
    Settles (fun fuel => rangeLoop t.heap hi fuel b.ptr n 0)
      (lastUpTo hi (pairs M) ((t.heap.leaf b.ptr).data n)) := by
  refine ⟨(pairs M).length + 2, fun fuel hf => ?_⟩
  obtain ⟨fuel, rfl⟩ := Nat.exists_eq_succ_of_ne_zero (Nat.ne_zero_of_lt hf)
  dsimp only
  rw [rangeLoop, if_neg h.ne]
  dsimp only [bind, Except.bind]
  rw [Leaf.keyAt, if_pos hn]
  dsimp only
  rw [if_pos hle, h.leaf.body.entries, if_pos (by omega)]
  exact h.next (by omega)

theorem Walk.stops (h : Walk t b M) (hn : n < MAX_ENTRIES) (hle : hi < (t.heap.leaf b.ptr).key n) :
    Settles (fun fuel => rangeLoop t.heap hi fuel b.ptr n 0) 0 := by
  refine ⟨1, fun fuel hf => ?_⟩
  obtain ⟨fuel, rfl⟩ := Nat.exists_eq_succ_of_ne_zero (Nat.ne_zero_of_lt hf)
  dsimp only
  rw [rangeLoop, if_neg h.ne]
  dsimp only [bind, Except.bind]
  rw [Leaf.keyAt, if_pos hn]
  dsimp only
  rw [if_neg (not_le.2 hle)]

theorem Walk.not_settles (h : Walk t b M) (hn : ¬ n < MAX_ENTRIES) :
    ¬ ∃ d, Settles (fun fuel => rangeLoop t.heap hi fuel b.ptr n 0) d := by
  rintro ⟨d, N, hN⟩
  have hrun := hN (N + 1) (Nat.le_succ N)
  dsimp only at hrun
  rw [rangeLoop, if_neg h.ne] at hrun
  dsimp only [bind, Except.bind] at hrun
  rw [Leaf.keyAt, if_neg hn] at hrun
  cases hrun

theorem pairs_ne_zero (h : ∀ a ∈ M, LeafOk t a) : ∀ x ∈ pairs M, x.2 ≠ 0 := by
  intro x hx
  obtain ⟨a, ha, hx⟩ := mem_pairs.1 hx
  exact (h a ha).data x hx

/-- The first entry of a leaf. -/
theorem LeafOk.exists_first (h : LeafOk t b) :
    ∃ K, b.kvs = ((t.heap.leaf b.ptr).key 0, (t.heap.leaf b.ptr).data 0) :: K := by
  obtain ⟨e, K, hkvs⟩ := List.exists_cons_of_length_pos h.one
  have hget : b.kvs[0]? = some e := by rw [hkvs]; rfl
  rw [h.body.key_at hget, h.body.data_at hget]
  exact ⟨K, hkvs⟩

theorem LeafOk.first_le (h : LeafOk t b) (hn : n < b.kvs.length) :
    (t.heap.leaf b.ptr).key 0 ≤ (t.heap.leaf b.ptr).key n := by
  have h0 : 0 < b.kvs.length := Nat.zero_lt_of_lt hn
  rw [h.body.key_at (List.getElem?_eq_getElem hn), h.body.key_at (List.getElem?_eq_getElem h0)]
  rcases Nat.eq_zero_or_pos n with rfl | hpos
  · exact le_rfl
  · exact (List.pairwise_iff_getElem.1 h.asc 0 n h0 hn hpos).le

/-- Nothing is in the range exactly if the first key is too large. -/
theorem pairs_eq_zero_iff (h : ∀ a ∈ b :: M, LeafOk t a) : lastUpTo hi (pairs (b :: M)) 0 = 0 ↔
    hi < (t.heap.leaf b.ptr).key 0 := by
  obtain ⟨K, hkvs⟩ := (h b List.mem_cons_self).exists_first
  have hdata := pairs_ne_zero h
  rw [pairs_cons, hkvs, List.cons_append] at hdata ⊢
  exact lastUpTo_eq_zero hdata

/-- The walk from the index `n` of a leaf. -/
theorem Walk.drop (h : Walk t b M) (hn : n < b.kvs.length)
    (hle : (t.heap.leaf b.ptr).key n ≤ hi) :
    Settles (fun fuel => rangeLoop t.heap hi fuel b.ptr n 0) (lastUpTo hi (pairs (b :: M)) 0) := by
  have hwalk : Settles (fun fuel => rangeLoop t.heap hi fuel b.ptr (b.kvs.take n).length 0)
      (lastUpTo hi (b.kvs.drop n ++ pairs M) 0) :=
    h.inside (List.take_append_drop n b.kvs).symm
      (List.ne_nil_of_length_pos (by rw [List.length_drop]; omega))
  rw [List.length_take_of_le hn.le] at hwalk
  rw [h.leaf.body.key_at (List.getElem?_eq_getElem hn)] at hle
  rw [pairs_cons, ← lastUpTo_drop h.leaf.asc hn hle (d := 0)]
  exact hwalk

end

/-! ## The chain of leaves -/

section
variable {t : Tree} {E : Nat → Ptr → Prop} {L D : List LeafNode}
  {Gss : List (List (Group Int Ptr))}

theorem chainFrom_eq {h : Heap} {ps : List Ptr} {p : Ptr} {fuel : Nat}
    (hc : Chain h.next p ps 0) (h0 : 0 ∉ ps) (hf : ps.length ≤ fuel) :
    chainFrom h fuel p = ps := by
  induction ps generalizing p fuel with
  | nil =>
    obtain rfl : p = 0 := hc
    cases fuel with
    | zero => rfl
    | succ fuel => exact if_pos rfl
  | cons q ps ih =>
    obtain ⟨rfl, hc⟩ := hc
    obtain ⟨fuel, rfl⟩ := Nat.exists_eq_succ_of_ne_zero (Nat.ne_zero_of_lt hf)
    rw [chainFrom, if_neg (List.ne_of_not_mem_cons h0).symm,
      ih hc (fun hm => h0 (List.mem_cons_of_mem _ hm)) (Nat.le_of_succ_le_succ hf)]

theorem Trail.leftOver_eq (h : Trail t L D) (hT : TreeOk t E L Gss)
    (hfuel : Gss.length < MAX_LEVEL) : leftOver t = pairs D := by
  have hzero := h.zero_notMem hT
  have hsub : leafPtrs (L ++ D) ⊆ List.range t.heap.brk := by
    intro p hp
    rw [leafPtrs_append, List.mem_append, ← map_snd_leafItems] at hp
    rw [List.mem_range]
    rcases hp with hp | hp
    · exact (hT.above.bound p (List.mem_append_left _ hp)).2
    · obtain ⟨d, hd, rfl⟩ := List.mem_map.1 hp
      exact (h.bound d hd).2
  have hlen := (List.subperm_of_subset (h.chain.nodup hzero) hsub).length_le
  rw [List.length_range] at hlen
  rw [leftOver, chainFrom_eq h.chain hzero hlen, Tree.leaves, hT.leavesUnder_eq hfuel,
    leafPtrs_append, List.filter_append, List.filter_eq_nil_iff.2 (by simp), List.nil_append,
    List.filter_eq_self.2, flatMap_leafPairs h.leaf]
  intro p hp
  obtain ⟨d, hd, rfl⟩ := List.mem_map.1 hp
  exact decide_eq_true (h.notMem hT d hd)

end

/-! ## Reachable trees -/

section
variable {t : Tree} {E : Nat → Ptr → Prop} {m : Map} {key1 key2 lo hi : Int}
  {P K₁ K₂ : List (Int × Int)} {a b : LeafNode} {M D : List LeafNode}

/-- The place of a key: the entries `P` and `K₁` are smaller, `K₂` and those of the leaves `M` are
not. The leaves `D` are not in the tree. -/
structure LowerBound (t : Tree) (lo : Int) (P : List (Int × Int)) (a : LeafNode)
    (K₁ K₂ : List (Int × Int)) (M D : List LeafNode) : Prop extends Walk t a (M ++ D) where
  find : findLeaf t.heap lo MAX_LEVEL t.root = .ok a.ptr
  kvs : a.kvs = K₁ ++ K₂
  stored : BplusTree.stored t = (P ++ K₁) ++ (K₂ ++ pairs M)
  ascending : Ascending ((P ++ K₁) ++ (K₂ ++ pairs M))
  before : ∀ e ∈ P ++ K₁, e.1 < lo
  after : ∀ e ∈ K₂ ++ pairs M, lo ≤ e.1
  inTree : ∀ b ∈ M, b.ptr ∈ t.leaves
  leftOver : BplusTree.leftOver t = pairs D
  outside : ∀ d ∈ D, d.ptr ∉ t.leaves
  null : 0 ∉ t.leaves

theorem Models.lowerBound (h : Models t E m) (hmax : t.entries ≤ MAX_ENTRIES) (lo : Int) :
    (t.root = 0 ∧ ∀ k d, ¬ Stored t k d) ∨ ∃ P a K₁ K₂ M D, LowerBound t lo P a K₁ K₂ M D := by
  rcases h.cases lo with ⟨hemp, rfl⟩ | ⟨L₁, a, L₂, Gss, hT, ⟨D, hD⟩, hl, hfind, h0, hm, hcase⟩
  · refine .inl ⟨hemp.1, fun k d hk => ?_⟩
    cases h.stored_iff.1 hk
  · have ha := hT.leaves.leaf a (by simp)
    obtain ⟨K₁, K₂, hkvs, h1, h2⟩ : ∃ K₁ K₂, a.kvs = K₁ ++ K₂ ∧ (∀ e ∈ K₁, e.1 < lo) ∧
      ∀ e ∈ K₂, lo ≤ e.1 := by
      have hasc := ha.asc
      rcases hcase with ⟨K₁, d, K₂, hk, -, -⟩ | ⟨K₁, K₂, hk, h1, h2, -⟩
      · rw [hk] at hasc
        obtain ⟨-, hasc, hcross⟩ := List.pairwise_append.1 hasc
        refine ⟨K₁, (lo, d) :: K₂, hk, fun e he => hcross e he _ List.mem_cons_self, fun e he => ?_⟩
        rcases List.mem_cons.1 he with rfl | he
        · exact le_rfl
        · exact ((List.pairwise_cons.1 hasc).1 e he).le
      · exact ⟨K₁, K₂, hk, h1, fun e he => (h2 e he).le⟩
    have hpairs : pairs (L₁ ++ a :: L₂) = (pairs L₁ ++ K₁) ++ (K₂ ++ pairs L₂) := by
      rw [pairs_append, pairs_cons, hkvs]
      simp only [List.append_assoc]
    have hfuel := hT.above.fuel h.params.level
    have hleaves : t.leaves = leafPtrs (L₁ ++ a :: L₂) := hT.leavesUnder_eq hfuel
    have hchain := hD.chain
    rw [List.append_assoc, leafPtrs_append, List.cons_append, leafPtrs_cons] at hchain
    obtain ⟨q, -, -, hchain⟩ := Chain.append.1 hchain
    have hzero := hD.zero_notMem hT
    have hall : ∀ b ∈ L₂ ++ D, LeafOk t b := by
      intro b hb
      rcases List.mem_append.1 hb with hb | hb
      · exact hT.leaves.leaf b (by simp [hb])
      · exact hD.leaf b hb
    refine .inr ⟨pairs L₁, a, K₁, K₂, L₂, D, ⟨⟨ha, h0, hall, fun b hb hb0 => ?_, hmax, hchain⟩,
      hfind, hkvs, ?_, ?_, fun x hx => ?_, fun x hx => ?_, fun b hb => ?_, hD.leftOver_eq hT hfuel,
      ?_, ?_⟩⟩
    · refine hzero (hb0 ▸ List.mem_map_of_mem ?_)
      rw [List.append_assoc, List.cons_append]
      exact List.mem_append_right _ (List.mem_cons_of_mem _ hb)
    · rw [hT.stored_eq hfuel, hpairs]
    · rw [← hpairs]
      exact hT.leaves.ascending
    · rcases List.mem_append.1 hx with hx | hx
      · obtain ⟨b, hb, hx⟩ := mem_pairs.1 hx
        have hlt := (List.pairwise_append.1 hT.leaves.order).2.2 b hb a List.mem_cons_self x hx
        exact WithBot.coe_lt_coe.1 (hlt.trans_le hl.here)
      · exact h1 x hx
    · rcases List.mem_append.1 hx with hx | hx
      · exact h2 x hx
      · obtain ⟨b, hb, hx⟩ := mem_pairs.1 hx
        have hlo := (hT.leaves.leaf b (by simp [hb])).lo x hx
        exact (WithBot.coe_lt_coe.1 ((hl.after b.item (List.mem_map_of_mem hb)).trans_le hlo)).le
    · rw [hleaves]
      exact List.mem_map_of_mem (by simp [hb])
    · rw [hleaves]
      exact hD.notMem hT
    · rw [hleaves]
      rw [leafPtrs_append] at hzero
      exact fun hm => hzero (List.mem_append_left _ hm)

namespace LowerBound

/-- The leaf of `lo` holds a key that is not smaller. -/
theorem here_iff (h : LowerBound t lo P a K₁ K₂ M D) :
    (∃ j < (t.heap.leaf a.ptr).entries, lo ≤ (t.heap.leaf a.ptr).key j) ↔ K₂ ≠ [] := by
  rw [h.leaf.body.entries]
  constructor
  · rintro ⟨j, hj, hlo⟩ rfl
    rw [h.leaf.body.key_at (List.getElem?_eq_getElem hj)] at hlo
    have hmem : a.kvs[j] ∈ K₁ := (h.kvs.trans (List.append_nil K₁)) ▸ List.getElem_mem hj
    exact absurd hlo (not_le.2 (h.before _ (List.mem_append_right _ hmem)))
  · intro hne
    obtain ⟨e, K, rfl⟩ := List.exists_cons_of_ne_nil hne
    have hget : a.kvs[K₁.length]? = some e := by rw [h.kvs]; simp
    refine ⟨K₁.length, by rw [h.kvs]; simp, ?_⟩
    rw [h.leaf.body.key_at hget]
    exact h.after e (by simp)

/-- What is left over does not count. -/
theorem goodEnd_iff (h : LowerBound t lo P a K₁ K₂ M D) {d : Int} (hne : K₂ ++ pairs M ≠ []) :
    lastUpTo hi (K₂ ++ pairs M ++ pairs D) d = lastUpTo hi (K₂ ++ pairs M) d ↔ GoodEnd t hi := by
  have hasc := (List.pairwise_append.1 h.ascending).2.1
  rw [GoodEnd, h.stored, h.leftOver]
  obtain ⟨es, e, heq⟩ := (List.eq_nil_or_concat' _).resolve_left hne
  rw [heq] at hasc ⊢
  rw [lastUpTo_append_iff hasc, ← List.append_assoc, List.getLast?_concat]
  constructor
  · intro hend x hx
    rw [← Option.some.inj hx]
    exact hend
  · exact fun hend => hend e rfl

/-- The walk goes on to the next leaf, which is in the tree. -/
theorem enters_iff {n : Nat} (h : LowerBound t lo P a K₁ [] (b :: M) D) :
    (∃ d, Settles (fun fuel => rangeLoop t.heap hi fuel b.ptr n 0) d ∧
      d = lastUpTo hi (pairs (b :: M)) 0) ↔ Enters t hi b.ptr n := by
  have hw : Walk t b (M ++ D) := h.toWalk.tail
  unfold Enters
  dsimp only
  by_cases hn : n < MAX_ENTRIES
  swap
  · exact iff_of_false (fun ⟨d, hd, _⟩ => hw.not_settles hn ⟨d, hd⟩) fun hno => hn hno.1
  rw [and_iff_right hn, if_pos (h.inTree b List.mem_cons_self), hw.leaf.body.entries,
    hw.leaf.leafPairs_eq]
  by_cases hle : (t.heap.leaf b.ptr).key n ≤ hi
  · rw [or_iff_right fun hno => absurd hle (not_le.2 hno.1), and_iff_right hle]
    have hend : lastUpTo hi (pairs (b :: (M ++ D))) 0 = lastUpTo hi (pairs (b :: M)) 0 ↔
        GoodEnd t hi := by
      have hne : [] ++ pairs (b :: M) ≠ [] := by
        obtain ⟨K, hK⟩ := hw.leaf.exists_first
        simp [pairs_cons, hK]
      rw [← h.goodEnd_iff hne, ← List.cons_append, pairs_append, List.nil_append]
    by_cases hin : n < b.kvs.length
    · rw [(hw.drop hin hle).exists_iff, if_pos (.inl hin)]
      exact hend
    rw [(hw.behind hn hle (not_lt.1 hin)).exists_iff]
    cases M with
    | nil =>
      have hnext : t.heap.next b.ptr ∉ t.leaves := by
        have hchain := hw.chain
        cases D with
        | nil =>
          have hnull : t.heap.next b.ptr = 0 := hchain
          exact hnull ▸ h.null
        | cons c D => exact hchain.1 ▸ h.outside c List.mem_cons_self
      rw [if_neg (fun hno => hno.elim hin fun hno => hnext hno.1), if_neg hnext, h.leftOver,
        List.nil_append, pairs_cons, pairs_nil, List.append_nil]
    | cons c M =>
      rw [show t.heap.next b.ptr = c.ptr from hw.chain.1]
      have hc := h.inTree c (by simp)
      obtain ⟨K, hK⟩ := (hw.rest c (by simp)).exists_first
      have hpairs : ∀ N, pairs (c :: N) = ((t.heap.leaf c.ptr).key 0, (t.heap.leaf c.ptr).data 0) ::
          (K ++ pairs N) := fun N => by rw [pairs_cons, hK, List.cons_append]
      by_cases hhi : (t.heap.leaf c.ptr).key 0 ≤ hi
      · -- the cell that was read does not count
        have hasc := (List.pairwise_append.1 h.ascending).2.1
        rw [List.nil_append, pairs_cons, hpairs] at hasc
        have hbefore : ∀ x ∈ b.kvs, x.1 ≤ hi := fun x hx =>
          ((List.pairwise_append.1 hasc).2.2 x hx _ List.mem_cons_self).le.trans hhi
        rw [if_pos (.inr ⟨hc, hhi⟩), ← hend, pairs_cons b (c :: M ++ D), List.cons_append, hpairs,
          lastUpTo_append hbefore hhi, lastUpTo, if_pos hhi]
      · rw [if_neg (fun hno => hno.elim hin fun hno => hhi hno.2), if_pos hc, pairs_cons b,
          List.cons_append, hpairs, hpairs, lastUpTo, lastUpTo, if_neg hhi, lastUpTo_stop]
        exact fun x hx => Option.some.inj hx ▸ not_le.1 hhi
  · rw [(hw.stops hn (not_le.1 hle)).exists_iff, or_iff_left fun hno => hle hno.1,
      and_iff_right (not_le.1 hle), eq_comm]
    refine pairs_eq_zero_iff fun x hx => ?_
    rcases List.mem_cons.1 hx with rfl | hx
    · exact hw.leaf
    · exact hw.rest x (List.mem_append_left _ hx)

/-- The walk goes on to the next leaf, which is not in the tree. -/
theorem enters_leftOver_iff {n : Nat} (h : LowerBound t lo P a K₁ [] [] (b :: D)) :
    (∃ d, Settles (fun fuel => rangeLoop t.heap hi fuel b.ptr n 0) d ∧ d = 0) ↔
      Enters t hi b.ptr n := by
  have hw : Walk t b D := Walk.tail h.toWalk
  unfold Enters
  dsimp only
  by_cases hn : n < MAX_ENTRIES
  swap
  · exact iff_of_false (fun ⟨d, hd, _⟩ => hw.not_settles hn ⟨d, hd⟩) fun hno => hn hno.1
  rw [and_iff_right hn, if_neg (h.outside b List.mem_cons_self), hw.leaf.body.entries]
  by_cases hle : (t.heap.leaf b.ptr).key n ≤ hi
  · rw [or_iff_right (not_lt.2 hle)]
    by_cases hin : n < b.kvs.length
    · rw [(hw.drop hin hle).exists_iff, pairs_eq_zero_iff
        (List.forall_mem_cons.2 ⟨hw.leaf, hw.rest⟩)]
      exact iff_of_false (not_lt.2 ((hw.leaf.first_le hin).trans hle)) fun hno =>
        absurd hno.1 (not_le.2 hin)
    rw [(hw.behind hn hle (not_lt.1 hin)).exists_iff, and_iff_right (not_lt.1 hin)]
    cases D with
    | nil =>
      have hnull : t.heap.next b.ptr = 0 := hw.chain
      rw [and_iff_left (.inl hnull)]
      rfl
    | cons c D =>
      rw [show t.heap.next b.ptr = c.ptr from hw.chain.1,
        or_iff_right (hw.rest_ne c List.mem_cons_self)]
      by_cases hd : (t.heap.leaf b.ptr).data n = 0
      · rw [hd, pairs_eq_zero_iff hw.rest, and_iff_right rfl]
      · exact iff_of_false (lastUpTo_ne_zero hd (pairs_ne_zero hw.rest)) fun hno => hd hno.1
  · rw [(hw.stops hn (not_le.1 hle)).exists_iff]
    exact iff_of_true rfl (.inl (not_le.1 hle))

theorem walks_iff (h : LowerBound t lo P a K₁ K₂ M D) :
    (∃ d, Settles (fun fuel => rangeLoop t.heap hi fuel
      (if K₂ = [] then t.heap.next a.ptr else a.ptr) K₁.length 0) d ∧
        d = lastUpTo hi (K₂ ++ pairs M) 0) ↔ GoodWalk t lo hi := by
  have hgood : GoodWalk t lo hi ↔
      if K₂ ≠ [] then GoodEnd t hi
      else t.heap.next a.ptr = 0 ∨ Enters t hi (t.heap.next a.ptr) a.kvs.length := by
    have hhere := h.here_iff
    rw [h.leaf.body.entries] at hhere
    simp only [GoodWalk, h.find, Except.ok.injEq, forall_eq', h.leaf.body.entries, hhere]
    exact imp_iff_right h.ne
  rw [hgood]
  by_cases hne : K₂ = []
  · subst hne
    rw [if_pos rfl, if_neg (not_not.2 rfl), h.kvs, List.append_nil, List.nil_append]
    have hchain := h.chain
    cases M with
    | cons b M =>
      have hb : t.heap.next a.ptr = b.ptr := hchain.1
      rw [hb, or_iff_right (h.rest_ne b (by simp))]
      exact h.enters_iff
    | nil =>
      cases D with
      | cons b D =>
        have hb : t.heap.next a.ptr = b.ptr := hchain.1
        rw [hb, or_iff_right (h.rest_ne b (by simp))]
        exact h.enters_leftOver_iff
      | nil =>
        have hnull : t.heap.next a.ptr = 0 := hchain
        refine iff_of_true ⟨0, ⟨1, fun fuel hf => ?_⟩, rfl⟩ (.inl hnull)
        obtain ⟨fuel, rfl⟩ := Nat.exists_eq_succ_of_ne_zero (Nat.ne_zero_of_lt hf)
        dsimp only
        rw [hnull, rangeLoop, if_pos rfl]
  · have hwalk : Settles (fun fuel => rangeLoop t.heap hi fuel a.ptr K₁.length 0)
        (lastUpTo hi (K₂ ++ pairs (M ++ D)) 0) := h.inside h.kvs hne
    rw [pairs_append, ← List.append_assoc] at hwalk
    rw [if_neg hne, if_pos hne, hwalk.exists_iff]
    exact h.goodEnd_iff (List.append_ne_nil_of_left_ne_nil hne _)

end LowerBound

theorem Models.range_iff (h : Models t E m) (hmax : t.entries ≤ MAX_ENTRIES) :
    RangeRight t key1 key2 ↔ GoodWalk t (min key1 key2) (max key1 key2) := by
  rcases h.lowerBound hmax (min key1 key2) with ⟨hroot, hnone⟩ | ⟨P, a, K₁, K₂, M, D, hb⟩
  · -- the empty tree
    refine iff_of_true ⟨0, ⟨0, fun fuel _ => ?_⟩, .inr ⟨rfl, fun k d hk => absurd hk (hnone k d)⟩⟩
      fun ln hln h0 => ?_
    · simp only [bplusTreeGetRange, hroot, findLeaf_empty, bind, Except.bind, pure,
        Except.pure, if_true]
    · rw [hroot, findLeaf_empty] at hln
      exact absurd (Except.ok.inj hln).symm h0
  · have hrun : ∀ fuel, bplusTreeGetRange fuel t key1 key2 =
        rangeLoop t.heap (max key1 key2) fuel (if K₂ = [] then t.heap.next a.ptr else a.ptr)
        K₁.length 0 := fun fuel =>
      bplusTreeGetRange_eq hb.leaf hb.ne hb.find hb.kvs
        (fun e he => hb.before e (List.mem_append_right _ he))
        (fun e he => hb.after e (List.mem_append_left _ he))
    have hstored : ∀ k d, Stored t k d ↔ (k, d) ∈ P ++ K₁ ++ (K₂ ++ pairs M) := by
      intro k d
      rw [h.stored_iff, ← h.mem_stored, hb.stored]
    unfold RangeRight
    simp only [hrun, rangeAnswer_iff hstored hb.ascending hb.before hb.after]
    exact hb.walks_iff

end

theorem Reachable.entries {level : Int} {order entries : Nat} {t : Tree}
    (h : Reachable level order entries t) (ho : 3 ≤ order) (hol : 4 ≤ order ∨ level ≤ 2)
    (he : 1 ≤ entries) : t.entries = entries := by
  induction h with
  | init h =>
    rw [bplusTreeInit] at h
    split at h
    · cases h
      rfl
    · cases h
  | @put t t' key data r ht hput ih =>
    obtain ⟨-, m, hM⟩ := ht.models ho hol he
    obtain ⟨r', t'', hrun, hpar, -⟩ := bplusTreePut_spec hM (fun _ _ => rfl) key data
    rw [hput] at hrun
    obtain ⟨rfl, rfl⟩ : r = r' ∧ t' = t'' := by simpa using hrun
    exact hpar.2.1.trans ih

theorem Reachable.range_iff {level : Int} {order entries : Nat} {t : Tree}
    (h : Reachable level order entries t) (ho : 4 ≤ order)
    (he : 1 ≤ entries ∧ entries ≤ MAX_ENTRIES) (key1 key2 : Int) :
    RangeRight t key1 key2 ↔ GoodWalk t (min key1 key2) (max key1 key2) := by
  obtain ⟨-, m, hM⟩ := h.models (by omega) (.inl ho) he.1
  refine hM.range_iff ?_
  rw [h.entries (by omega) (.inl ho) he.1]
  exact he.2

/-- **Range queries** on every tree that puts lead to, also after `Level exceeded`. -/
theorem range_right_iff (level : Int) (order entries : Nat) (ho : 4 ≤ order ∧ order ≤ MAX_ORDER)
    (he : 1 ≤ entries ∧ entries ≤ MAX_ENTRIES) (t : Tree) (h : Reachable level order entries t)
    (key1 key2 : Int) : RangeRight t key1 key2 ↔ GoodWalk t (min key1 key2) (max key1 key2) :=
  h.range_iff ho.1 he key1 key2

/-- The fifth key does not fit in, and the leaves of the keys 4 and 5 are left in the chain. -/
def exceedOps : List Op := [.put 1 11, .put 2 12, .put 3 13, .put 4 14, .put 5 15]

/-- After `Level exceeded`, with the keys 1, 2 and 3: what is left over shows in the range from 3
to 5. -/
theorem range_right_exceeded : ∃ t, Reachable 2 4 1 t ∧ t.stderr ≠ [] ∧ RangeRight t 1 3 ∧
    RangeRight t 4 4 ∧ ¬ RangeRight t 3 5 := by
  have hrun : ((bplusTreeInit 2 4 1).bind fun t => ((runOps t exceedOps).map Prod.snd).map fun t =>
      (t.stderr.length, decide (GoodWalk t 1 3), decide (GoodWalk t 4 4),
        decide (GoodWalk t 3 5))).toOption = some (1, true, true, false) := by
    decide +kernel
  obtain ⟨t, ht, hv⟩ := Reachable.exists_of_run hrun
  simp only [Prod.mk.injEq, decide_eq_true_eq, decide_eq_false_iff_not] at hv
  obtain ⟨hlen, h13, h44, h35⟩ := hv
  have hiff := range_right_iff 2 4 1 (by decide) (by decide) t ht
  refine ⟨t, ht, ?_, (hiff 1 3).2 h13, (hiff 4 4).2 h44, fun hright => h35 ((hiff 3 5).1 hright)⟩
  intro hq
  rw [hq] at hlen
  cases hlen

/-- Two leaves, with the keys 10, and 20 and 30. -/
def rangeOps : List Op := [.put 10 1, .put 20 2, .put 30 3]

/-- The key 20 lies between 15 and 25, and is passed over. -/
theorem range_skips_twenty : ∃ t, Reachable 2 4 2 t ∧ t.stderr = [] ∧ ¬ RangeRight t 15 25 := by
  have hrun : ((bplusTreeInit 2 4 2).bind fun t => ((runOps t rangeOps).map Prod.snd).map fun t =>
      (t.stderr, decide (GoodWalk t 15 25))).toOption = some ([], false) := by
    decide +kernel
  obtain ⟨t, ht, hv⟩ := Reachable.exists_of_run hrun
  obtain ⟨hq, hbad⟩ := Prod.mk.inj hv
  refine ⟨t, ht, hq, fun hright => ?_⟩
  exact of_decide_eq_false hbad ((ht.range_iff le_rfl (by decide) 15 25).1 hright)

end BplusTree
