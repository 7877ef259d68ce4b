import DsAlgor.SkipRank.Rows
import DsAlgor.Lib.Rounds

/-!
# `skiplist_insert`

`skiplistInsert_spec`: the new node comes before the first node whose key is not smaller, on as many
levels as were drawn, and spans that were right stay right.
-/

namespace SkipRank

open Circular

/-- The links of level `i` are the same. -/
structure AgreeAt (i : Nat) (m m' : Mem) : Prop where
  next : ∀ p, m'.next ⟨p, i⟩ = m.next ⟨p, i⟩
  prev : ∀ p, m'.prev ⟨p, i⟩ = m.prev ⟨p, i⟩
  span : ∀ p, m'.span ⟨p, i⟩ = m.span ⟨p, i⟩
  key : m'.key = m.key
  brk : m'.brk = m.brk

theorem AgreeAt.refl (i : Nat) (m : Mem) : AgreeAt i m m :=
  ⟨fun _ => rfl, fun _ => rfl, fun _ => rfl, rfl, rfl⟩

theorem AgreeAt.trans {i : Nat} {m m' m'' : Mem} (h : AgreeAt i m m') (h' : AgreeAt i m' m'') :
    AgreeAt i m m'' :=
  ⟨fun p => (h'.next p).trans (h.next p), fun p => (h'.prev p).trans (h.prev p),
    fun p => (h'.span p).trans (h.span p), h'.key.trans h.key, h'.brk.trans h.brk⟩

theorem AgreeAt.circular {i : Nat} {m m' : Mem} (h : AgreeAt i m m') {S : List Node}
    (hc : Circular m.next m.prev ⟨0, i⟩ (row S i)) : Circular m'.next m'.prev ⟨0, i⟩ (row S i) := by
  have hidx : ∀ q ∈ (⟨0, i⟩ : Link) :: row S i, q = ⟨q.node, i⟩ := by
    intro q hq
    rcases List.mem_cons.1 hq with rfl | hq
    · rfl
    · rw [← (mem_row.1 hq).1]
  refine hc.congr (fun q hq => ?_) fun q hq => ?_
  · rw [hidx q hq]
    exact h.next _
  · rw [hidx q hq]
    exact h.prev _

/-! ## The search -/

section
variable {l : Skiplist} {A B : List Node} {key : Int}

theorem insertWalk_spec (h : Linked l (A ++ B)) (hA : ∀ n ∈ A, n.key < key)
    (hB : ∀ n ∈ B, key ≤ n.key) {i j : Nat} (hij : i ≤ j) (r : BitVec 32) :
    ∃ A₁ A₂, A = A₁ ++ A₂ ∧ rankAt A₁ i = rankAt A j ∧
      insertWalk l.mem key (l.mem.next ⟨lastNode A j, i⟩) ⟨firstNode B j, i⟩ r =
        some (⟨firstNode B i, i⟩, (row A₂ i).foldl (fun r q => r + l.mem.span q) r) := by
  obtain ⟨A₁, A₂, hA₁₂, hr, -, hrun⟩ := scan_row (insertBody l.mem key)
    (f := fun r q => r + l.mem.span q) (g := fun q r => (q, r)) (s := r) (h.circular i) h.nodup
    (fun n hn => (h.bound n hn).1) h.length_lt hij
    (fun A₁ C n D hA₁ _ _ => by
      rw [insertBody, h.key n (by simp [hA₁]), if_neg (not_le.2 (hA n (by simp [hA₁])))])
    fun _ _ B₁ n B₂ _ _ hB₁ _ _ => by
      rw [insertBody, h.key n (by simp [hB₁]), if_pos (hB n (by simp [hB₁]))]
  refine ⟨A₁, A₂, hA₁₂, hr, ?_⟩
  rw [insertWalk, hrun]
  by_cases hend : firstNode B i = firstNode B j
  · rw [if_pos hend, hend]
    rfl
  · rw [if_neg hend]
    rfl

theorem rankAt_top (h : ∀ n ∈ A, n.height ≤ l.level) : rankAt A l.level = 0 := by
  have := gap_append_low (A := []) (C := A) (i := l.level) h
  rw [List.nil_append, gap_nil] at this
  rw [rankAt, this]
  omega

/-- Level `i - 1` is entered below the neighbours of level `i`. -/
theorem insertSearch_spec (h : Linked l (A ++ B)) (hA : ∀ n ∈ A, n.key < key)
    (hB : ∀ n ∈ B, key ≤ n.key) : ∀ (i : Nat) (rank : Nat → BitVec 32) (update : Nat → Link),
    i ≤ l.level →
    (Spans l.mem (A ++ B) → i < l.level → rank i = BitVec.ofNat 32 (rankAt A i)) →
    ∃ rank' update',
      insertSearch l key i ⟨lastNode A i, i - 1⟩ ⟨firstNode B i, i - 1⟩ rank update =
        some (rank', update') ∧ (∀ k < i, update' k = ⟨firstNode B k, k⟩) ∧
        (∀ k ≥ i, update' k = update k ∧ rank' k = rank k) ∧
        (Spans l.mem (A ++ B) → ∀ k < i, rank' k = BitVec.ofNat 32 (rankAt A k))
  | 0, rank, update, _, _ => ⟨rank, update, rfl, by simp, fun _ _ => ⟨rfl, rfl⟩, by simp⟩
  | i + 1, rank, update, hi, hrank => by
    obtain ⟨A₁, A₂, hA₁₂, hr, hwalk⟩ := insertWalk_spec h hA hB (Nat.le_succ i)
      (if i = l.level - 1 then 0 else rank (i + 1))
    have hspan : Spans l.mem (A ++ B) →
        (row A₂ i).foldl (fun r q => r + l.mem.span q)
        (if i = l.level - 1 then 0 else rank (i + 1)) = BitVec.ofNat 32 (rankAt A i) := by
      intro hS
      have hin : (if i = l.level - 1 then 0 else rank (i + 1)) = BitVec.ofNat 32 (rankAt A₁ i) := by
        rw [hr]
        by_cases htop : i = l.level - 1
        · rw [if_pos htop, show i.succ = l.level by omega,
            rankAt_top fun n hn => (h.height n (by simp [hn])).2]
          rfl
        · rw [if_neg htop]
          exact hrank hS (by omega)
      rw [hin, hS.sum (by rw [hA₁₂]), ← hA₁₂]
    have hprev : l.mem.prev ⟨firstNode B i, i⟩ = ⟨lastNode A i, i⟩ := by
      rw [← headOr_row, ← lastOr_row]
      have hc : Circular l.mem.next l.mem.prev ⟨0, i⟩ (row A i ++ row B i) := by
        simpa using h.circular i
      exact hc.prev_eq
    obtain ⟨rank', update', hrun, h1, h2, h3⟩ := insertSearch_spec h hA hB i
      (Function.update rank i ((row A₂ i).foldl (fun r q => r + l.mem.span q)
        (if i = l.level - 1 then 0 else rank (i + 1))))
      (Function.update update i ⟨firstNode B i, i⟩) (by omega)
      (fun hS _ => by rw [Function.update_self, hspan hS])
    refine ⟨rank', update', ?_, fun k hk => ?_, fun k hk => ?_, fun hS k hk => ?_⟩
    · simp only [insertSearch, Nat.add_sub_cancel, hwalk, hprev]
      exact hrun
    · rcases Nat.lt_or_eq_of_le (Nat.le_of_lt_succ hk) with hk | rfl
      · exact h1 k hk
      · rw [(h2 k le_rfl).1, Function.update_self]
    · rw [(h2 k (by omega)).1, (h2 k (by omega)).2, Function.update_of_ne (by omega),
        Function.update_of_ne (by omega)]
      exact ⟨rfl, rfl⟩
    · rcases Nat.lt_or_eq_of_le (Nat.le_of_lt_succ hk) with hk | rfl
      · exact h3 hS k hk
      · rw [(h2 k le_rfl).2, Function.update_self, hspan hS]

end

/-! ## Linking the node -/

section
variable {m : Mem} {link nx q : Link}

theorem listAdd_next : (listAdd m link nx).next q =
    if q = m.prev nx then link else if q = link then nx else m.next q := by
  simp [listAdd, Mem.setNext, Mem.setPrev, Function.update_apply]

theorem listAdd_prev : (listAdd m link nx).prev q =
    if q = nx then link else if q = link then m.prev nx else m.prev q := by
  simp [listAdd, Mem.setNext, Mem.setPrev, Function.update_apply]

@[simp] theorem listAdd_span : (listAdd m link nx).span = m.span := rfl

end

/-- Level `i` after the node `N` has been linked. -/
structure InsertedAt (m₀ : Mem) (A B : List Node) (N : Node) (rank : Nat → BitVec 32)
    (i : Nat) (m : Mem) :
    Prop where
  circular : Circular m.next m.prev ⟨0, i⟩ (row (A ++ N :: B) i)
  new : i < N.height → m.span ⟨N.ptr, i⟩ = rank 0 - rank i + 1
  first : m.span ⟨firstNode B i, i⟩ = if i < N.height then m₀.span ⟨firstNode B i, i⟩ -
    (rank 0 - rank i) else m₀.span ⟨firstNode B i, i⟩ + 1
  other : ∀ p, p ≠ N.ptr → p ≠ firstNode B i → m.span ⟨p, i⟩ = m₀.span ⟨p, i⟩
  key : m.key = m₀.key
  brk : m.brk = m₀.brk

section
variable {m₀ : Mem} {A B : List Node} {N : Node} {rank : Nat → BitVec 32} {i : Nat} {m : Mem}
  {update : Nat → Link}

theorem InsertedAt.agree {m' : Mem} (hm : AgreeAt i m m') (h : InsertedAt m₀ A B N rank i m) :
    InsertedAt m₀ A B N rank i m' where
  circular := hm.circular h.circular
  new hi := (hm.span _).trans (h.new hi)
  first := (hm.span _).trans h.first
  other p h1 h2 := (hm.span p).trans (h.other p h1 h2)
  key := hm.key.trans h.key
  brk := hm.brk.trans h.brk

theorem insertStep_spec (hc : Circular m₀.next m₀.prev ⟨0, i⟩ (row (A ++ B) i))
    (hnd : (⟨0, i⟩ :: row (A ++ B) i).Nodup) (hN : ⟨N.ptr, i⟩ ∉ (⟨0, i⟩ : Link) :: row (A ++ B) i)
    (hu : update i = ⟨firstNode B i, i⟩) (hm : AgreeAt i m₀ m) :
    InsertedAt m₀ A B N rank i (insertStep N.ptr N.height rank update m i) ∧
      ∀ k ≠ i, AgreeAt k m (insertStep N.ptr N.height rank update m i) := by
  have hc' := hm.circular hc
  rw [row_append] at hc' hnd hN
  have hfirst : firstNode B i ≠ N.ptr := by
    intro he
    refine hN ?_
    rw [← he, ← headOr_row]
    exact List.cons_subset_cons _ (List.subset_append_right _ _) headOr_mem
  have hprev : m.prev ⟨firstNode B i, i⟩ = ⟨lastNode A i, i⟩ := by
    rw [← headOr_row, ← lastOr_row]
    exact hc'.prev_eq
  by_cases hi : i < N.height
  · have hlast : lastNode A i ≠ N.ptr := by
      intro he
      refine hN ?_
      rw [← he, ← lastOr_row]
      exact List.cons_subset_cons _ (List.subset_append_left _ _) lastOr_mem
    rw [insertStep, if_pos hi, hu]
    refine ⟨⟨?_, fun _ => ?_, ?_, fun p h1 h2 => ?_, hm.key, hm.brk⟩, fun k hk =>
      ⟨fun p => ?_, fun p => ?_, fun p => ?_, rfl, rfl⟩⟩
    · rw [row_append, row_cons, if_pos hi]
      refine hc'.insert hnd hN ?_ ?_ ?_ ?_ (fun q h1 h2 => ?_) fun q h1 h2 => ?_
      · show (listAdd _ _ _).next _ = _
        rw [listAdd_next, hprev, if_neg (by simpa using hlast.symm), if_pos rfl, headOr_row]
      · show (listAdd _ _ _).prev _ = _
        rw [listAdd_prev, if_neg (by simpa using hfirst.symm), if_pos rfl, hprev, lastOr_row]
      · show (listAdd _ _ _).next _ = _
        rw [listAdd_next, hprev, lastOr_row, if_pos rfl]
      · show (listAdd _ _ _).prev _ = _
        rw [listAdd_prev, headOr_row, if_pos rfl]
      · show (listAdd _ _ _).next _ = _
        rw [lastOr_row] at h2
        rw [listAdd_next, hprev, if_neg h2, if_neg h1]
      · show (listAdd _ _ _).prev _ = _
        rw [headOr_row] at h2
        rw [listAdd_prev, if_neg h2, if_neg h1]
    · simp [Mem.setSpan, hfirst.symm]
    · rw [if_pos hi, ← hm.span]
      have hne : (⟨firstNode B i, i⟩ : Link) ≠ ⟨N.ptr, i⟩ := by simpa using hfirst
      simp only [Mem.setSpan, Function.update_self, Function.update_of_ne hne]
      rw [BitVec.add_sub_cancel]
      rfl
    · simp [Mem.setSpan, h1, h2, hm.span]
    · show (listAdd _ _ _).next _ = _
      rw [listAdd_next, hprev, if_neg (by simp [hk]), if_neg (by simp [hk])]
    · show (listAdd _ _ _).prev _ = _
      rw [listAdd_prev, if_neg (by simp [hk]), if_neg (by simp [hk])]
    · simp [Mem.setSpan, hk]
  · rw [insertStep, if_neg hi, hu]
    refine ⟨⟨?_, fun h => absurd h hi, ?_, fun p _ h2 => ?_, hm.key, hm.brk⟩, fun k hk =>
      ⟨fun p => rfl, fun p => rfl, fun p => ?_, rfl, rfl⟩⟩
    · rw [row_append, row_cons, if_neg hi]
      exact hc'
    · rw [if_neg hi, ← hm.span]
      simp [Mem.setSpan]
    · simp [Mem.setSpan, h2, hm.span]
    · simp [Mem.setSpan, hk]

/-- The whole second loop of `skiplist_insert`. -/
theorem insertLoop_spec {n : Nat} (hc : ∀ i, Circular m₀.next m₀.prev ⟨0, i⟩ (row (A ++ B) i))
    (hnd : ∀ i, (⟨0, i⟩ :: row (A ++ B) i).Nodup)
    (hN : ∀ i, ⟨N.ptr, i⟩ ∉ (⟨0, i⟩ : Link) :: row (A ++ B) i)
    (hu : ∀ i < n, update i = ⟨firstNode B i, i⟩) :
    (∀ i < n, InsertedAt m₀ A B N rank i
        ((List.range n).foldl (insertStep N.ptr N.height rank update) m₀)) ∧
      ∀ i ≥ n, AgreeAt i m₀ ((List.range n).foldl (insertStep N.ptr N.height rank update) m₀) :=
  foldl_rounds AgreeAt.refl (fun _ _ _ _ => AgreeAt.trans) (fun _ _ _ => InsertedAt.agree)
    fun i hi _ hm => insertStep_spec (hc i) (hnd i) (hN i) (hu i hi) hm

end

/-! ## The spans -/

theorem ofNat_sub_ofNat {a g : Nat} (h : g ≤ a) :
    BitVec.ofNat 32 a - BitVec.ofNat 32 (a - g) = BitVec.ofNat 32 g := by
  obtain ⟨b, rfl⟩ := Nat.exists_eq_add_of_le h
  rw [Nat.add_sub_cancel_left, BitVec.ofNat_add, BitVec.add_sub_cancel]

theorem ofNat_succ (k : Nat) : BitVec.ofNat 32 (k + 1) = BitVec.ofNat 32 k + 1 :=
  BitVec.ofNat_add _ _

section
variable {m₀ m : Mem} {A B : List Node} {N : Node} {rank : Nat → BitVec 32} {n : Nat}

theorem rankAt_zero (h : ∀ a ∈ A, 1 ≤ a.height) : rankAt A 0 = A.length := by
  rw [rankAt]
  cases A using List.reverseRecOn with
  | nil => rfl
  | append_singleton A a _ =>
    have := h a (by simp)
    rw [gap_concat, if_neg (by omega), Nat.sub_zero]

/-- Right spans stay right. -/
theorem Spans.insert (h : Spans m₀ (A ++ B)) (hnd : ((A ++ N :: B).map Node.ptr).Nodup)
    (h0 : ∀ a ∈ A ++ B, 0 < a.ptr) (h1 : ∀ a ∈ A, 1 ≤ a.height)
    (hn : ∀ a ∈ A ++ N :: B, a.height ≤ n) (hr : ∀ i < n, rank i = BitVec.ofNat 32 (rankAt A i))
    (hi : ∀ i < n, InsertedAt m₀ A B N rank i m) : Spans m (A ++ N :: B) := by
  intro C c D hC i hic
  have hin : i < n := hic.trans_le (hn c (by rw [hC]; simp))
  have hd : rank 0 - rank i = BitVec.ofNat 32 (gap A i) := by
    rw [hr 0 (by omega), hr i hin, rankAt_zero h1]
    exact ofNat_sub_ofNat gap_le_length
  rcases append_cons_cases hC with ⟨A₂, rfl, rfl⟩ | ⟨rfl, rfl, rfl⟩ | ⟨B₁, rfl, rfl⟩
  · -- a node before the new one
    rw [(hi i hin).other c.ptr ?_ ?_]
    · exact h C c (A₂ ++ B) (by simp) i hic
    · exact ptr_ne (X := C) (Y := A₂) (Z := B) (by simpa using hnd)
    · intro hc
      rcases firstNode_mem (B := B) (i := i) with hz | ⟨b, hb, -, hbp⟩
      · exact (h0 c (by simp)).ne' (hc.trans hz)
      · obtain ⟨B₁, B₂, rfl⟩ := List.append_of_mem hb
        exact ptr_ne (X := C) (Y := A₂ ++ N :: B₁) (Z := B₂) (by simpa using hnd)
          (hc.trans hbp.symm)
  · rw [(hi i hin).new hic, hd, ofNat_succ]
  · -- a node behind the new one
    have hold := h (A ++ B₁) c D (by simp) i hic
    rcases split_first (B := B₁) (i := i) with hlow | ⟨X, x, Y, rfl, hX, hx⟩
    · have hf : firstNode (B₁ ++ c :: D) i = c.ptr := firstNode_append_cons hlow hic
      have hspan := (hi i hin).first
      rw [hf, hold, gap_append_low hlow, hd] at hspan
      rw [hspan]
      by_cases hN : i < N.height
      · rw [if_pos hN, gap_cons_low hlow hN,
          show gap A i + B₁.length + 1 = B₁.length + 1 + gap A i by omega, BitVec.ofNat_add,
          BitVec.add_sub_cancel]
      · rw [if_neg hN, show A ++ N :: B₁ = A ++ [N] ++ B₁ by simp, gap_append_low hlow, gap_concat,
          if_pos (by omega), show gap A i + 1 + B₁.length + 1 =
            gap A i + B₁.length + 1 + 1 by omega,
          ofNat_succ (gap A i + B₁.length + 1)]
    · -- another node of the level is between them
      have hf : firstNode (X ++ x :: Y ++ c :: D) i = x.ptr := by
        rw [List.append_assoc, List.cons_append]
        exact firstNode_append_cons hX hx
      have hhigh : ∃ y ∈ X ++ x :: Y, i < y.height := ⟨x, by simp, hx⟩
      rw [(hi i hin).other c.ptr ?_ ?_, hold, gap_append_high hhigh,
        show A ++ N :: (X ++ x :: Y) = A ++ [N] ++ (X ++ x :: Y) by simp, gap_append_high hhigh]
      · exact (ptr_ne (X := A) (Y := X ++ x :: Y) (Z := D) (by simpa using hnd)).symm
      · rw [hf]
        exact (ptr_ne (X := A ++ N :: X) (Y := Y) (Z := D) (by simpa using hnd)).symm

end

/-! ## `skiplist_insert` -/

section
variable {l : Skiplist} {S : List Node}

theorem Linked.raise (h : Linked l S) {n : Nat} (hn : l.level ≤ n) (hmax : n ≤ MAX_LEVEL) :
    Linked { l with level := n } S :=
  { h with
    height := fun a ha => ⟨(h.height a ha).1, (h.height a ha).2.trans hn⟩
    level := ⟨h.level.1.trans hn, hmax⟩ }

theorem Linked.alloc (h : Linked l S) (key value : Int) :
    Linked { l with mem := (skipnodeNew l.mem key value).2 } S :=
  { h with
    bound := fun a ha => ⟨(h.bound a ha).1, Nat.lt_succ_of_lt (h.bound a ha).2⟩
    key := fun a ha => by
      rw [← h.key a ha]
      exact Function.update_of_ne (h.bound a ha).2.ne _ _
    brk := Nat.succ_pos _ }

theorem Linked.brk_notMem (h : Linked l S) (i : Nat) :
    ⟨l.mem.brk, i⟩ ∉ (⟨0, i⟩ : Link) :: row S i := by
  intro hm
  rcases List.mem_cons.1 hm with he | hm
  · exact h.brk.ne' (congrArg Link.node he)
  · obtain ⟨-, n, hn, -, hp⟩ := mem_row.1 hm
    exact (h.bound n hn).2.ne hp

/-- The new node is linked on all levels. -/
theorem Linked.inserted {l' : Skiplist} {A B : List Node} {N : Node} {rank : Nat → BitVec 32}
    {m₀ : Mem} (h : Linked { l' with mem := m₀, count := l'.count - 1 } (A ++ B))
    (hptr : 0 < N.ptr ∧ N.ptr < m₀.brk)
    (hnew : N.ptr ∉ (A ++ B).map Node.ptr) (hkey : m₀.key N.ptr = N.key)
    (hA : ∀ n ∈ A, n.key < N.key) (hB : ∀ n ∈ B, N.key ≤ n.key)
    (hN : 1 ≤ N.height ∧ N.height ≤ l'.level)
    (hi : ∀ i < l'.level, InsertedAt m₀ A B N rank i l'.mem)
    (hge : ∀ i ≥ l'.level, AgreeAt i m₀ l'.mem)
    (hmax : l'.count ≤ INT_MAX) : Linked l' (A ++ N :: B) := by
  have hmem : ∀ {P : Node → Prop}, P N → (∀ n ∈ A ++ B, P n) → ∀ n ∈ A ++ N :: B, P n := by
    intro P hPN hP n hn
    simp only [List.mem_append, List.mem_cons] at hn hP
    rcases hn with hn | rfl | hn
    · exact hP n (.inl hn)
    · exact hPN
    · exact hP n (.inr hn)
  have h0 := hge l'.level le_rfl
  refine ⟨fun i => ?_, ?_, hmem ?_ fun n hn => ?_, hmem ?_ fun n hn => ?_, ?_,
    hmem hN h.height, h.level, ?_, hmax, ?_⟩
  · rcases Nat.lt_or_ge i l'.level with hil | hil
    · exact (hi i hil).circular
    · rw [row_append, row_cons, if_neg (by omega), ← row_append]
      exact (hge i hil).circular (h.circular i)
  · rw [List.map_append, List.map_cons, List.nodup_middle, ← List.map_append]
    exact List.nodup_cons.2 ⟨hnew, h.nodup⟩
  · rw [h0.brk]
    exact hptr
  · rw [h0.brk]
    exact h.bound n hn
  · rw [h0.key]
    exact hkey
  · rw [h0.key]
    exact h.key n hn
  · obtain ⟨h1, h2, h3⟩ := List.pairwise_append.1 h.sorted
    refine List.pairwise_append.2 ⟨h1, List.pairwise_cons.2 ⟨hB, h2⟩, fun a ha b hb => ?_⟩
    rcases List.mem_cons.1 hb with rfl | hb
    · exact (hA a ha).le
    · exact h3 a ha b hb
  · have := h.count
    simp only [List.length_append, List.length_cons] at this ⊢
    push_cast at this ⊢
    omega
  · rw [h0.brk]
    exact h.brk

/-- **`skiplist_insert`**: nothing happens to the nodes without memory; otherwise the node comes
before the first one whose key is not smaller. -/
theorem skiplistInsert_spec (h : Linked l S) (key value : Int) {level : Nat}
    (hlevel : 1 ≤ level ∧ level ≤ MAX_LEVEL) :
    (∃ l', skiplistInsert l key value level false = .ok (0, l') ∧ l'.mem = l.mem ∧ Linked l' S ∧
        l'.level = max l.level level) ∧
      (l.count = INT_MAX → skiplistInsert l key value level true = .error .overflow) ∧
      (l.count ≠ INT_MAX → ∃ A B l', S = A ++ B ∧ (∀ n ∈ A, n.key < key) ∧ (∀ n ∈ B, key ≤ n.key) ∧
        skiplistInsert l key value level true = .ok (l.mem.brk, l') ∧
        Linked l' (A ++ ⟨l.mem.brk, key, level⟩ :: B) ∧
        (Spans l.mem S → Spans l'.mem (A ++ ⟨l.mem.brk, key, level⟩ :: B)) ∧
        l'.level = max l.level level ∧ l'.mem.brk = l.mem.brk + 1) := by
  obtain ⟨l₁, hl₁, hmem, hcount, hmax, h₁⟩ : ∃ l₁,
    l₁ = (if level > l.level then { l with level := level } else l) ∧ l₁.mem = l.mem ∧
    l₁.count = l.count ∧ l₁.level = max l.level level ∧ Linked l₁ S := by
    refine ⟨_, rfl, ?_⟩
    by_cases hlt : level > l.level
    · rw [if_pos hlt]
      exact ⟨rfl, rfl, (max_eq_right hlt.le).symm, h.raise hlt.le hlevel.2⟩
    · rw [if_neg hlt]
      exact ⟨rfl, rfl, (max_eq_left (not_lt.1 hlt)).symm, h⟩
  have hle : level ≤ l₁.level := hmax ▸ le_max_right _ _
  obtain ⟨A, B, rfl, hA, hB⟩ := sorted_split (p := (· < key)) (fun _ _ => lt_of_le_of_lt) h.sorted
  replace hB : ∀ n ∈ B, key ≤ n.key := fun n hn => not_lt.1 (hB n hn)
  have h₂ := h₁.alloc key value
  have htop : ∀ n ∈ A ++ B, n.height ≤ l₁.level := fun n hn => (h₁.height n hn).2
  obtain ⟨rank, update, hsearch, hu, -, hrank⟩ := insertSearch_spec h₂ hA hB l₁.level (fun _ => 0)
    (fun _ => ⟨0, l₁.level - 1⟩) le_rfl (fun _ hlt => absurd hlt (lt_irrefl _))
  rw [lastNode_high fun n hn => htop n (by simp [hn]),
    firstNode_high fun n hn => htop n (by simp [hn])] at hsearch
  have hrun : skiplistInsert l key value level true =
      if l.count = INT_MAX then .error .overflow
      else .ok (l.mem.brk,
        { l₁ with
          mem := (List.range l₁.level).foldl (insertStep l.mem.brk level rank update)
            (skipnodeNew l₁.mem key value).2
          count := l.count + 1 }) := by
    simp only [skiplistInsert, if_true, ← hl₁]
    rw [hsearch, ← hmem, ← hcount]
    rfl
  refine ⟨⟨l₁, ?_, hmem, h₁, hmax⟩, fun hc => by rw [hrun, if_pos hc], fun hc => ?_⟩
  · simp only [skiplistInsert, Bool.false_eq_true, if_false, ← hl₁]
  · have hfresh : ∀ i, ⟨l.mem.brk, i⟩ ∉ (⟨0, i⟩ : Link) :: row (A ++ B) i := fun i => h.brk_notMem i
    obtain ⟨hin, hge⟩ := @insertLoop_spec _ _ _ ⟨l.mem.brk, key, level⟩ rank _ _ h₂.circular
      h₂.row_nodup hfresh hu
    have hnew : l.mem.brk ∉ (A ++ B).map Node.ptr := by
      intro hm
      obtain ⟨n, hn, hp⟩ := List.mem_map.1 hm
      exact (h.bound n hn).2.ne hp
    have hL : Linked { l₁ with
        mem := (List.range l₁.level).foldl (insertStep l.mem.brk level rank update)
          (skipnodeNew l₁.mem key value).2
        count := l.count + 1 } (A ++ ⟨l.mem.brk, key, level⟩ :: B) := by
      refine @Linked.inserted _ A B ⟨l.mem.brk, key, level⟩ rank (skipnodeNew l₁.mem key value).2
        ?_ ?_ hnew ?_ hA hB ⟨hlevel.1, hle⟩ hin hge
        (show l.count + 1 ≤ INT_MAX by have := h.countMax; omega)
      · have : l₁.count = l.count + 1 - 1 := by omega
        simpa [← this] using h₂
      · rw [← hmem]
        exact ⟨h₁.brk, Nat.lt_succ_self _⟩
      · rw [← hmem]
        exact Function.update_self _ _ _
    refine ⟨A, B, _, rfl, hA, hB, by rw [hrun, if_neg hc], hL, fun hS => ?_, hmax,
      (hge l₁.level le_rfl).brk.trans (by rw [← hmem]; rfl)⟩
    have hS₂ : Spans (skipnodeNew l₁.mem key value).2 (A ++ B) := by
      rw [hmem]
      exact hS
    exact hS₂.insert hL.nodup (fun a ha => (h.bound a ha).1)
      (fun a ha => (h.height a (by simp [ha])).1) (fun a ha => (hL.height a ha).2) (hrank hS₂) hin

end

end SkipRank
