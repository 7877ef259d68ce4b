import DsAlgor.SkipRank.Remove

/-!
# Are the spans right?

`SpansRight l`: on every level, the span of a node is the number of level-0 steps from its
predecessor of this level. A removal keeps it only at a tight place (`RemoveSafe`), and whole runs
keep it if and only if all their removals are at such places (`spans_right_iff`).
-/

namespace SkipRank

open Circular

/-- The node `p` is linked on level `i`. -/
def OnLevel (l : Skiplist) (i : Nat) (p : Ptr) : Prop := p ≠ 0 ∧ ∃ k, l.mem.next^[k] ⟨0, i⟩ = ⟨p, i⟩

/-- The number of steps from one link to another. -/
def Steps (m : Mem) (a b : Link) (n : Nat) : Prop := m.next^[n] a = b ∧ ∀ k < n, m.next^[k] a ≠ b

/-- Every span is the number of level-0 steps from the predecessor on its level. -/
def SpansRight (l : Skiplist) : Prop :=
  ∀ i p, OnLevel l i p → Steps l.mem ⟨(l.mem.prev ⟨p, i⟩).node, 0⟩ ⟨p, 0⟩ (l.mem.span ⟨p, i⟩).toNat

/-- The node a removal of `key` takes out (the first one with the key on the highest level that has
one) is on each of its levels the last node, or comes directly behind its level-0 predecessor. -/
def RemoveSafe (l : Skiplist) (key : Int) : Prop :=
  ∀ i v, OnLevel l i v → l.mem.key v = key →
    ((l.mem.prev ⟨v, i⟩).node = 0 ∨ l.mem.key (l.mem.prev ⟨v, i⟩).node < key) →
    (∀ w, OnLevel l (i + 1) w → l.mem.key w ≠ key) →
    ∀ j ≤ i, l.mem.next ⟨v, j⟩ = ⟨0, j⟩ ∨ (l.mem.prev ⟨v, j⟩).node = (l.mem.prev ⟨v, 0⟩).node

/-! ## The state and its nodes -/

section
variable {l : Skiplist} {S A B : List Node} {n v : Node} {i : Nat} {key : Int}

theorem Linked.onLevel_iff (h : Linked l S) {p : Ptr} :
    OnLevel l i p ↔ ∃ n ∈ S, n.ptr = p ∧ i < n.height :=
  onRow_iff (h.circular i) h.nodup fun n hn => (h.bound n hn).1

theorem Linked.prev_eq (h : Linked l (A ++ n :: B)) (hi : i < n.height) :
    l.mem.prev ⟨n.ptr, i⟩ = ⟨lastNode A i, i⟩ := by
  have hc := h.circular i
  rw [row_append, row_cons, if_pos hi] at hc
  rw [hc.prev_mid, lastOr_row]

theorem Linked.next_eq (h : Linked l (A ++ n :: B)) (hi : i < n.height) :
    l.mem.next ⟨n.ptr, i⟩ = ⟨firstNode B i, i⟩ := by
  have hc := h.circular i
  rw [row_append, row_cons, if_pos hi] at hc
  rw [hc.next_mid, headOr_row]

/-- The distance on level 0 from the predecessor on level `i`. -/
theorem Linked.steps_iff (h : Linked l (A ++ n :: B)) (k : Nat) :
    Steps l.mem ⟨lastNode A i, 0⟩ ⟨n.ptr, 0⟩ k ↔ k = gap A i + 1 := by
  obtain ⟨A₁, A₂, rfl, h2, hl, h1⟩ := split_last (A := A) (i := i)
  have hlast : lastNode (A₁ ++ A₂) i = lastNode A₁ 0 := by
    rcases h1 with rfl | ⟨A₀, m, rfl, hm⟩
    · simp [lastNode, ptrs_eq_nil h2]
    · simp [lastNode, ptrs_eq_nil h2, ptrs_cons, hm, show 0 < m.height by omega]
  have hlen : (row A₂ 0).length = A₂.length := by
    rw [row, ptrs, List.length_map, List.length_map, List.filter_eq_self.2]
    intro a ha
    have := (h.height a (by simp [ha])).1
    simp only [decide_eq_true_eq]
    omega
  have hc := h.circular 0
  have hnd := h.row_nodup 0
  have hpos : 0 < n.height := (h.height n (by simp)).1
  rw [row_append, row_append, row_cons, if_pos hpos] at hc hnd
  have := iterate_eq_iff hc hnd k
  rw [lastOr_row, hlen, hl] at this
  rw [hlast]
  exact this

theorem Linked.spansRight_iff (h : Linked l S) : SpansRight l ↔ Spans l.mem S := by
  have hsmall : ∀ {A B : List Node} {n : Node} (i : Nat), S = A ++ n :: B →
    gap A i + 1 < 2 ^ 32 := by
    intro A B n i hS
    have h1 := h.count
    have h2 := h.countMax
    have h3 := gap_le_length (A := A) (i := i)
    rw [hS, List.length_append, List.length_cons] at h1
    rw [INT_MAX] at h2
    push_cast at h1
    omega
  constructor
  · rintro hr A n B rfl i hi
    have := hr i n.ptr (h.onLevel_iff.2 ⟨n, by simp, rfl, hi⟩)
    rw [h.prev_eq hi, h.steps_iff] at this
    rw [← this, BitVec.ofNat_toNat, BitVec.setWidth_eq]
  · intro hS i p hp
    obtain ⟨n, hn, rfl, hi⟩ := h.onLevel_iff.1 hp
    obtain ⟨A, B, rfl⟩ := List.append_of_mem hn
    rw [h.prev_eq hi, h.steps_iff, hS A n B rfl i hi, BitVec.toNat_ofNat,
      Nat.mod_eq_of_lt (hsmall i rfl)]

/-! ## Safe removals -/

theorem removeSafe_absent (h : Linked l S) (hkey : ∀ n ∈ S, n.key ≠ key) : RemoveSafe l key := by
  intro i v hv hk
  obtain ⟨n, hn, rfl, -⟩ := h.onLevel_iff.1 hv
  rw [h.key n hn] at hk
  exact absurd hk (hkey n hn)

/-- The level-0 predecessor is on level `i`. -/
theorem Linked.lastNode_eq_iff (h : Linked l (A ++ B)) : lastNode A i = lastNode A 0 ↔
    gap A i = 0 := by
  cases A using List.reverseRecOn with
  | nil => simp [lastNode]
  | append_singleton A a _ =>
    have ha := h.height a (by simp)
    have h0 : lastNode (A ++ [a]) 0 = a.ptr := by
      simp [lastNode, ptrs_cons, show 0 < a.height by omega]
    rw [gap_concat, h0]
    by_cases hi : a.height ≤ i
    · rw [if_pos hi]
      refine iff_of_false (fun hc => ?_) (by omega)
      have hlow : lastNode (A ++ [a]) i = lastNode A i := by
        simp [lastNode, ptrs_cons, show ¬ i < a.height by omega]
      rw [hlow] at hc
      rcases lastNode_mem (A := A) (i := i) with hz | ⟨b, hb, -, hbp⟩
      · exact (h.bound a (by simp)).1.ne (hz.symm.trans hc)
      · obtain ⟨X, Y, rfl⟩ := List.append_of_mem hb
        exact ptr_ne (X := X) (Y := Y) (Z := B) (by simpa using h.nodup) (hbp.trans hc)
    · rw [if_neg hi]
      refine iff_of_true ?_ rfl
      simp [lastNode, ptrs_cons, show i < a.height by omega]

theorem Linked.firstNode_eq_zero_iff (h : Linked l (A ++ n :: B)) :
    firstNode B i = 0 ↔ ¬ ∃ b ∈ B, i < b.height := by
  rcases split_first (B := B) (i := i) with hlow | ⟨X, x, Y, rfl, hX, hx⟩
  · refine iff_of_true ?_ fun ⟨b, hb, hlt⟩ => absurd (hlow b hb) (not_le.2 hlt)
    rw [firstNode, ptrs_eq_nil hlow]
    rfl
  · refine iff_of_false ?_ fun hc => hc ⟨x, by simp, hx⟩
    rw [firstNode_append_cons hX hx]
    exact (h.bound x (by simp)).1.ne'

/-- The removed node is the only one `RemoveSafe` speaks about. -/
theorem Victim.unique (hv : Victim key A B v) (h : Linked l (A ++ v :: B)) (hn : n ∈ A ++ v :: B)
    (hi : i < n.height) (hk : n.key = key)
    (hprev : (l.mem.prev ⟨n.ptr, i⟩).node = 0 ∨ l.mem.key (l.mem.prev ⟨n.ptr, i⟩).node < key)
    (habove : ∀ w, OnLevel l (i + 1) w → l.mem.key w ≠ key) : n = v ∧ v.height = i + 1 := by
  have hlow : ∀ m ∈ A ++ v :: B, m.key = key → m.height ≤ i + 1 := by
    intro m hm hmk
    by_contra hlt
    exact habove m.ptr (h.onLevel_iff.2 ⟨m, hm, rfl, not_le.1 hlt⟩) (by rw [h.key m hm, hmk])
  have hvlow := hlow v (by simp) hv.hasKey
  rcases List.mem_append.1 hn with hA | hvB
  · have := hv.first n hA hk
    omega
  · rcases List.mem_cons.1 hvB with rfl | hB
    · exact ⟨rfl, by omega⟩
    · -- a node behind `v` has `v` or another node with the key before it
      exfalso
      obtain ⟨X, Y, rfl⟩ := List.append_of_mem hB
      have hvi : i < v.height := hi.trans_le (hv.highest n (by simp) hk)
      have hsplit : A ++ v :: (X ++ n :: Y) = (A ++ v :: X) ++ n :: Y := by simp
      have hlast : ∃ a ∈ v :: X, a.ptr = lastNode (A ++ v :: X) i := by
        have hp : lastNode (A ++ v :: X) i = lastOr v.ptr (ptrs X i) := by
          simp [lastNode, ptrs_cons, hvi]
        rcases List.mem_cons.1 (lastOr_mem : lastOr v.ptr (ptrs X i) ∈
          v.ptr :: ptrs X i) with he | hm
        · exact ⟨v, by simp, by rw [hp, he]⟩
        · obtain ⟨a, ha, -, hap⟩ := mem_ptrs.1 hm
          exact ⟨a, by simp [ha], by rw [hp, hap]⟩
      obtain ⟨a, ha, hap⟩ := hlast
      have hmem : a ∈ A ++ v :: (X ++ n :: Y) := by
        rcases List.mem_cons.1 ha with rfl | ha
        · simp
        · simp [ha]
      have hge : key ≤ a.key := by
        rw [← hv.hasKey]
        rcases List.mem_cons.1 ha with rfl | ha
        · exact le_rfl
        · exact (List.pairwise_cons.1 (List.pairwise_append.1 h.sorted).2.1).1 a (by simp [ha])
      have hpe := h
      rw [hsplit] at hpe
      rw [hpe.prev_eq hi, ← hap, h.key a hmem] at hprev
      rcases hprev with h0 | hlt
      · exact (h.bound a hmem).1.ne' h0
      · omega

theorem Victim.removeSafe_iff (hv : Victim key A B v) (h : Linked l (A ++ v :: B)) :
    RemoveSafe l key ↔ Tight A B v := by
  have hpos := (h.height v (by simp)).1
  -- what is asked for on one level
  have hlevel : ∀ j < v.height, (l.mem.next ⟨v.ptr, j⟩ = ⟨0, j⟩ ∨
      (l.mem.prev ⟨v.ptr, j⟩).node = (l.mem.prev ⟨v.ptr, 0⟩).node) ↔
      ((∃ b ∈ B, j < b.height) → gap A j = 0) := by
    intro j hj
    rw [h.next_eq hj, h.prev_eq hj, h.prev_eq (by omega : 0 < v.height), h.lastNode_eq_iff]
    simp only [Link.mk.injEq, and_true]
    rw [h.firstNode_eq_zero_iff, imp_iff_not_or]
  constructor
  · intro hs i hi
    refine (hlevel i hi).1
      (hs (v.height - 1) v.ptr (h.onLevel_iff.2 ⟨v, by simp, rfl, by omega⟩) ?_ ?_ ?_ i (by omega))
    · rw [h.key v (by simp), hv.hasKey]
    · rw [h.prev_eq (by omega)]
      rcases lastNode_mem (A := A) (i := v.height - 1) with hz | ⟨a, ha, hia, hap⟩
      · exact .inl hz
      · refine .inr ?_
        show l.mem.key (lastNode A (v.height - 1)) < key
        rw [← hap, h.key a (by simp [ha])]
        have hle : a.key ≤ v.key := (List.pairwise_append.1 h.sorted).2.2 a ha v (by simp)
        rw [hv.hasKey] at hle
        refine lt_of_le_of_ne hle fun he => ?_
        have := hv.first a ha he
        omega
    · intro w hw
      obtain ⟨n, hn, rfl, hlt⟩ := h.onLevel_iff.1 hw
      rw [h.key n hn]
      intro hk
      rcases List.mem_append.1 hn with hA | hvB
      · have := hv.highest n (by simp [hA]) hk
        omega
      · rcases List.mem_cons.1 hvB with rfl | hB
        · omega
        · have := hv.highest n (by simp [hB]) hk
          omega
  · intro hT i p hp hk hprev habove j hj
    obtain ⟨n, hn, rfl, hi⟩ := h.onLevel_iff.1 hp
    rw [h.key n hn] at hk
    obtain ⟨rfl, hvi⟩ := hv.unique h hn hi hk hprev habove
    exact (hlevel j (by omega)).2 (hT j (by omega))

end

/-! ## Runs -/

theorem skiplistNew_linked : Linked skiplistNew [] where
  circular _ := Circular.nil rfl rfl
  nodup := by simp
  bound := by simp
  key := by simp
  sorted := by simp
  height := by simp
  level := by decide
  count := rfl
  countMax := by decide
  brk := Nat.zero_lt_one

theorem runOps_concat (l : Skiplist) (ops : List Op) (op : Op) :
    runOps l (ops ++ [op]) = (runOps l ops).bind fun l' => op.run l' := by
  induction ops generalizing l with
  | nil =>
    simp only [List.nil_append, runOps, bind, Except.bind]
    cases op.run l <;> rfl
  | cons o ops ih =>
    simp only [List.cons_append, runOps, bind]
    cases o.run l with
    | error e => rfl
    | ok l' => exact ih l'

/-- One call: the nodes stay linked, and what happens to the spans. -/
theorem Op.run_spec {l : Skiplist} {S : List Node} (h : Linked l S) (op : Op) :
    (l.count ≠ INT_MAX → ∃ l', op.run l = .ok l') ∧
      ∀ l', op.run l = .ok l' → ∃ S', Linked l' S' ∧ l'.count ≤ l.count + 1 ∧
        (Spans l.mem S → (Spans l'.mem S' ↔ ∀ key, op = .remove key → RemoveSafe l key)) := by
  cases op with
  | insert key value level alloc =>
    obtain ⟨hfail, hover, hok⟩ := skiplistInsert_spec h key value level.2
    cases alloc with
    | false =>
      obtain ⟨l₁, hrun, hmem, h₁, -⟩ := hfail
      have hop : (Op.insert key value level false).run l = .ok l₁ := by
        rw [Op.run, hrun]
        rfl
      refine ⟨fun _ => ⟨l₁, hop⟩, fun l' hl' => ?_⟩
      obtain rfl : l₁ = l' := by simpa [hop] using hl'
      refine ⟨S, h₁, ?_, fun hS => iff_of_true (hmem ▸ hS) (by simp)⟩
      rw [h₁.count, h.count]
      omega
    | true =>
      by_cases hc : l.count = INT_MAX
      · refine ⟨fun hne => absurd hc hne, fun l' hl' => ?_⟩
        rw [Op.run, hover hc] at hl'
        cases hl'
      · obtain ⟨A, B, l₁, rfl, -, -, hrun, h₁, hS₁, -⟩ := hok hc
        have hop : (Op.insert key value level true).run l = .ok l₁ := by
          rw [Op.run, hrun]
          rfl
        refine ⟨fun _ => ⟨l₁, hop⟩, fun l' hl' => ?_⟩
        obtain rfl : l₁ = l' := by simpa [hop] using hl'
        refine ⟨_, h₁, ?_, fun hS => iff_of_true (hS₁ hS) (by simp)⟩
        rw [h₁.count, h.count]
        simp only [List.length_append, List.length_cons]
        push_cast
        omega
  | remove key =>
    rcases skiplistRemove_spec h key with ⟨habs, hrun⟩ | ⟨A, v, B, l₁, rfl, hv, hrun, h₁, hS₁⟩
    · refine ⟨fun _ => ⟨l, hrun⟩, fun l' hl' => ?_⟩
      obtain rfl : l = l' := by simpa [Op.run, hrun] using hl'
      refine ⟨S, h, by omega, fun hS => iff_of_true hS ?_⟩
      intro k hk
      cases hk
      exact removeSafe_absent h habs
    · refine ⟨fun _ => ⟨l₁, hrun⟩, fun l' hl' => ?_⟩
      obtain rfl : l₁ = l' := by simpa [Op.run, hrun] using hl'
      refine ⟨A ++ B, h₁, ?_, fun hS => ?_⟩
      · rw [h₁.count, h.count]
        simp only [List.length_append, List.length_cons]
        push_cast
        omega
      · rw [hS₁ hS, ← hv.removeSafe_iff h]
        exact ⟨fun hs k hk => by cases hk; exact hs, fun hs => hs key rfl⟩

/-- The states of a run. -/
theorem runOps_linked {ops : List Op} {l : Skiplist} (h : runOps skiplistNew ops = .ok l) :
    ∃ S, Linked l S := by
  induction ops using List.reverseRecOn generalizing l with
  | nil =>
    cases h
    exact ⟨[], skiplistNew_linked⟩
  | append_singleton ops op ih =>
    rw [runOps_concat] at h
    cases hrun : runOps skiplistNew ops with
    | error e =>
      rw [hrun] at h
      cases h
    | ok l₁ =>
      rw [hrun] at h
      obtain ⟨S, hS⟩ := ih hrun
      obtain ⟨S', hS', -⟩ := (op.run_spec hS).2 l h
      exact ⟨S', hS'⟩

/-- A run goes on to its end as long as `count` does not overflow. -/
theorem runOps_ok (ops : List Op) (hlen : (ops.length : Int) ≤ INT_MAX) :
    ∃ l, runOps skiplistNew ops = .ok l ∧ l.count ≤ ops.length := by
  induction ops using List.reverseRecOn with
  | nil => exact ⟨skiplistNew, rfl, le_rfl⟩
  | append_singleton ops op ih =>
    rw [List.length_append, List.length_singleton] at hlen ⊢
    push_cast at hlen ⊢
    obtain ⟨l, hl, hcount⟩ := ih (by omega)
    obtain ⟨S, hS⟩ := runOps_linked hl
    obtain ⟨l', hl'⟩ := (op.run_spec hS).1 (by omega)
    obtain ⟨-, -, hc, -⟩ := (op.run_spec hS).2 l' hl'
    refine ⟨l', ?_, by omega⟩
    rw [runOps_concat, hl]
    exact hl'

/-- **When the spans are right**: the calls of a run all return, and the spans are right in all its
states if and only if all its removals are safe in the state they are made in. -/
theorem spans_right_iff (ops : List Op) :
    ((ops.length : Int) ≤ INT_MAX → ∃ l, runOps skiplistNew ops = .ok l) ∧
      ((∀ pre, pre <+: ops → ∀ l, runOps skiplistNew pre = .ok l → SpansRight l) ↔
        ∀ pre key, pre ++ [.remove key] <+: ops → ∀ l, runOps skiplistNew pre = .ok l →
          RemoveSafe l key) := by
  refine ⟨fun hlen => (runOps_ok ops hlen).imp fun _ => And.left, fun h pre key hpre l hl => ?_,
    fun h pre => ?_⟩
  · have hpre' : pre <+: ops := (List.prefix_append _ _).trans hpre
    obtain ⟨S, hS⟩ := runOps_linked hl
    have hright := hS.spansRight_iff.1 (h pre hpre' l hl)
    rcases skiplistRemove_spec hS key with ⟨habs, -⟩ | ⟨A, v, B, l', rfl, hv, hrun, hl', hiff⟩
    · exact removeSafe_absent hS habs
    · have hrun' : runOps skiplistNew (pre ++ [.remove key]) = .ok l' := by
        rw [runOps_concat, hl]
        exact hrun
      have hright' := hl'.spansRight_iff.1 (h _ hpre l' hrun')
      exact (hv.removeSafe_iff hS).2 ((hiff hright).1 hright')
  · -- forwards through the run
    induction pre using List.reverseRecOn with
    | nil =>
      intro _ l hl
      cases hl
      exact skiplistNew_linked.spansRight_iff.2 (by rintro (_ | ⟨a, A⟩) n B hC <;> cases hC)
    | append_singleton pre op ih =>
      intro hpre l hl
      have hpre' : pre <+: ops := (List.prefix_append _ _).trans hpre
      rw [runOps_concat] at hl
      cases hrun : runOps skiplistNew pre with
      | error e =>
        rw [hrun] at hl
        cases hl
      | ok l₁ =>
        rw [hrun] at hl
        obtain ⟨S, hS⟩ := runOps_linked hrun
        obtain ⟨S', hS', -, hiff⟩ := (op.run_spec hS).2 l hl
        refine hS'.spansRight_iff.2 ((hiff (hS.spansRight_iff.1 (ih hpre' l₁ hrun))).2 ?_)
        rintro key rfl
        exact h pre key hpre l₁ hrun

/-- The keys 1, 2 and 3 on one, two and two levels; then 2 is removed. -/
def looseOps : List Op :=
  [.insert 1 0 ⟨1, drawn_one⟩ true, .insert 2 0 ⟨2, drawn_two⟩ true,
    .insert 3 0 ⟨2, drawn_two⟩ true, .remove 2]

/-- On level 1 the span of the node with key 3 stays 1, though key 1 is now between it and the
head. -/
theorem spans_not_right : ¬ ∀ ops l, runOps skiplistNew ops = .ok l → SpansRight l := by
  have hrun : ((runOps skiplistNew looseOps).map fun l =>
    (l.mem.next ⟨0, 1⟩, (l.mem.prev ⟨3, 1⟩).node, (l.mem.span ⟨3, 1⟩).toNat,
      l.mem.next ⟨0, 0⟩)).toOption = some (⟨3, 1⟩, 0, 1, ⟨1, 0⟩) := by
    decide +kernel
  intro h
  cases hl : runOps skiplistNew looseOps with
  | error e =>
    rw [hl] at hrun
    cases hrun
  | ok l =>
    rw [hl] at hrun
    obtain ⟨h1, h2, h3, h4⟩ : l.mem.next ⟨0, 1⟩ = ⟨3, 1⟩ ∧ (l.mem.prev ⟨3, 1⟩).node = 0 ∧
        (l.mem.span ⟨3, 1⟩).toNat = 1 ∧ l.mem.next ⟨0, 0⟩ = ⟨1, 0⟩ := by
      simpa [Except.map, Except.toOption] using hrun
    have hs := (h looseOps l hl 1 3 ⟨by decide, 1, h1⟩).1
    rw [h2, h3, Function.iterate_one, h4] at hs
    cases hs

end SkipRank
