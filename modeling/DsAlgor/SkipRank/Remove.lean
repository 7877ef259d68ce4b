import DsAlgor.SkipRank.Insert

/-!
# `skiplist_remove`

`skiplistRemove_spec`: a removal takes out the first node with the key on the highest level that has
one. `__remove` reads `node->link[i].next` after `list_del` has made the link its own neighbour, so
on the levels of the node the successor keeps its span; `Spans.remove_iff` says when it is right all
the same.
-/

namespace SkipRank

open Circular

/-! ## The search -/

section
variable {l : Skiplist} {A M B : List Node} {key : Int} {i j : Nat}

theorem firstNode_append_low (h : ∀ n ∈ M, n.height ≤ i) :
    firstNode (M ++ B) i = firstNode B i := by
  rw [firstNode, ptrs_append, ptrs_eq_nil h, List.nil_append, ← firstNode]

/-- The walk stops at the first node with the key, or behind all of them. -/
theorem removeWalk_spec (h : Linked l (A ++ (M ++ B))) (hA : ∀ n ∈ A, n.key < key)
    (hM : ∀ n ∈ M, n.key = key) (hB : ∀ n ∈ B, key < n.key) (hij : i ≤ j)
    (hj : ∀ n ∈ M, n.height ≤ j) :
    ((∀ n ∈ M, n.height ≤ i) ∧ removeWalk l.mem key (l.mem.next ⟨lastNode A j, i⟩)
    ⟨firstNode B j, i⟩ =
        some (.greater ⟨firstNode B i, i⟩)) ∨
      ∃ (M₁ : List Node) (v : Node) (M₂ : List Node), M = M₁ ++ v :: M₂ ∧ (∀ n ∈ M₁, n.height ≤ i) ∧
        i < v.height ∧ removeWalk l.mem key (l.mem.next ⟨lastNode A j, i⟩) ⟨firstNode B j, i⟩ =
          some (.found v.ptr) := by
  have hbody : ∀ n ∈ A, i < n.height → ∀ s, removeBody l.mem key ⟨n.ptr, i⟩ s = .inr () := by
    intro n hn _ s
    have := hA n hn
    rw [removeBody, h.key n (by simp [hn]), if_neg (by omega), if_neg (by omega)]
  obtain ⟨A₁, A₂, fuel, -, -, hfuel, hrun⟩ := h.walk hij (s := ()) (f := fun _ _ => ()) hbody
  rw [firstNode_append_low hj] at hrun
  rw [removeWalk, hrun]
  rcases split_first (B := M) (i := i) with hlow | ⟨M₁, v, M₂, rfl, h1, hv⟩
  · refine .inl ⟨hlow, ?_⟩
    rw [firstNode_append_low hlow]
    by_cases hend : firstNode B i = firstNode B j
    · rw [hend, foreach_end hfuel]
      rfl
    · rcases split_first (B := B) (i := i) with hB' | ⟨B₁, n, B₂, rfl, h1, hn⟩
      · exact absurd (firstNode_ne hB' hij).symm hend
      · rw [firstNode_append_cons h1 hn] at hend ⊢
        have hstop : removeBody l.mem key ⟨n.ptr, i⟩ () = .inl (.greater ⟨n.ptr, i⟩) := by
          rw [removeBody, h.key n (by simp), if_pos (hB n (by simp))]
        rw [foreach_break hfuel (by simpa using hend) hstop]
        rfl
  · refine .inr ⟨M₁, v, M₂, rfl, h1, hv, ?_⟩
    rw [List.append_assoc, List.cons_append, firstNode_append_cons h1 hv]
    have hstop : removeBody l.mem key ⟨v.ptr, i⟩ () = .inl (.found v.ptr) := by
      have := hM v (by simp)
      rw [removeBody, h.key v (by simp), if_neg (by omega), if_pos this]
    have hne : v.ptr ≠ firstNode B j := by
      rcases firstNode_mem (B := B) (i := j) with hz | ⟨b, hb, -, hbp⟩
      · rw [hz]
        exact (h.bound v (by simp)).1.ne'
      · obtain ⟨B₁, B₂, rfl⟩ := List.append_of_mem hb
        rw [← hbp]
        exact ptr_ne (X := A ++ M₁) (Y := M₂ ++ B₁) (Z := B₂) (by simpa using h.nodup)
    rw [foreach_break hfuel (by simpa using hne) hstop]
    rfl

theorem removeSearch_spec (h : Linked l (A ++ (M ++ B))) (hA : ∀ n ∈ A, n.key < key)
    (hM : ∀ n ∈ M, n.key = key) (hB : ∀ n ∈ B, key < n.key) : ∀ (i : Nat) (update : Nat → Link),
    i ≤ l.level → (∀ n ∈ M, n.height ≤ i) →
      (∀ k, i ≤ k → k < l.level → update k = ⟨firstNode B k, k⟩) →
    (M = [] ∧ removeSearch l key i ⟨lastNode A i, i - 1⟩ ⟨firstNode B i, i - 1⟩ update = .ok l) ∨
      ∃ (M₁ : List Node) (v : Node) (M₂ : List Node) (update' : Nat → Link), M = M₁ ++ v :: M₂ ∧
        (∀ n ∈ M, n.height ≤ v.height) ∧ (∀ n ∈ M₁, n.height < v.height) ∧
        (∀ k, v.height ≤ k → k < l.level → update' k = ⟨firstNode B k, k⟩) ∧
        removeSearch l key i ⟨lastNode A i, i - 1⟩ ⟨firstNode B i, i - 1⟩ update =
          .ok (remove l v.ptr v.height update')
  | 0, update, _, hlow, _ => by
    refine .inl ⟨List.eq_nil_iff_forall_not_mem.2 fun n hn => ?_, rfl⟩
    have h1 := hlow n hn
    have h2 := (h.height n (by simp [hn])).1
    omega
  | i + 1, update, hi, hlow, hu => by
    have hprev : l.mem.prev ⟨firstNode (M ++ B) i, i⟩ = ⟨lastNode A i, i⟩ := by
      rw [← headOr_row, ← lastOr_row]
      have hc : Circular l.mem.next l.mem.prev ⟨0, i⟩ (row A i ++ row (M ++ B) i) := by
        rw [← row_append]
        exact h.circular i
      exact hc.prev_eq
    rcases removeWalk_spec h hA hM hB (Nat.le_add_right i 1) hlow with
      ⟨hlow', hwalk⟩ | ⟨M₁, v, M₂, rfl, h1, hv, hwalk⟩
    · rw [firstNode_append_low hlow'] at hprev
      have ih := removeSearch_spec h hA hM hB i (Function.update update i ⟨firstNode B i, i⟩)
        (by omega) hlow' fun k hk hkl => by
          by_cases hki : k = i
          · subst hki
            exact Function.update_self _ _ _
          · rw [Function.update_of_ne hki]
            exact hu k (by omega) hkl
      simp only [removeSearch, Nat.add_sub_cancel, hwalk, hprev]
      exact ih
    · have hvi : v.height = i + 1 := by
        have := hlow v (by simp)
        omega
      refine .inr ⟨M₁, v, M₂, update, rfl, fun n hn => hvi ▸ hlow n hn, fun n hn => ?_, ?_, ?_⟩
      · have := h1 n hn
        omega
      · rw [hvi]
        exact hu
      · simp only [removeSearch, Nat.add_sub_cancel, hwalk, hvi]

end

/-! ## Taking the node out -/

section
variable {m : Mem} {link q : Link}

theorem listDel_next : (listDel m link).next q =
    if q = link then link else if q = m.prev link then m.next link else m.next q := by
  simp [listDel, listInit, Mem.setNext, Mem.setPrev, Function.update_apply]

theorem listDel_prev : (listDel m link).prev q =
    if q = link then link else if q = m.next link then m.prev link else m.prev q := by
  simp [listDel, listInit, Mem.setNext, Mem.setPrev, Function.update_apply]

@[simp] theorem listDel_span : (listDel m link).span = m.span := rfl

end

/-- Level `i` after the node `v` between `A` and `B` has been taken out. -/
structure RemovedAt (m₀ : Mem) (A B : List Node) (v : Node) (i : Nat) (m : Mem) : Prop where
  circular : Circular m.next m.prev ⟨0, i⟩ (row (A ++ B) i)
  low : i < v.height → ∀ p ≠ v.ptr, m.span ⟨p, i⟩ = m₀.span ⟨p, i⟩
  first : v.height ≤ i → m.span ⟨firstNode B i, i⟩ = m₀.span ⟨firstNode B i, i⟩ - 1
  other : v.height ≤ i → ∀ p ≠ firstNode B i, m.span ⟨p, i⟩ = m₀.span ⟨p, i⟩
  key : m.key = m₀.key
  brk : m.brk = m₀.brk

/-- Level `i` and the place of it are the same. -/
def RoundAgree (i : Nat) (s s' : Removing) : Prop :=
  AgreeAt i s.mem s'.mem ∧ s'.update i = s.update i

section
variable {m₀ : Mem} {A B : List Node} {v : Node} {i L : Nat} {s : Removing} {update : Nat → Link}

theorem RemovedAt.agree {m m' : Mem} (hm : AgreeAt i m m') (h : RemovedAt m₀ A B v i m) :
    RemovedAt m₀ A B v i m' where
  circular := hm.circular h.circular
  low hi p hp := (hm.span p).trans (h.low hi p hp)
  first hi := (hm.span _).trans (h.first hi)
  other hi p hp := (hm.span p).trans (h.other hi p hp)
  key := hm.key.trans h.key
  brk := hm.brk.trans h.brk

/-- Only the node itself and the first node behind it get other spans. -/
theorem RemovedAt.span_eq {m : Mem} (h : RemovedAt m₀ A B v i m) {p : Ptr} (hv : p ≠ v.ptr)
    (hf : p ≠ firstNode B i) : m.span ⟨p, i⟩ = m₀.span ⟨p, i⟩ := by
  rcases Nat.lt_or_ge i v.height with hi | hi
  · exact h.low hi p hv
  · exact h.other hi p hf

/-- The links and `update` after a round. -/
theorem removeStep_low (hi : i < v.height) :
    (removeStep L v.ptr v.height s i).mem =
        (listDel s.mem ⟨v.ptr, i⟩).setSpan ⟨v.ptr, i⟩
          (s.mem.span ⟨v.ptr, i⟩ + (s.mem.span ⟨v.ptr, i⟩ - 1)) ∧
      (removeStep L v.ptr v.height s i).update = Function.update s.update i ⟨v.ptr, i⟩ := by
  have hself : (listDel s.mem ⟨v.ptr, i⟩).next ⟨v.ptr, i⟩ = ⟨v.ptr, i⟩ := by
    rw [listDel_next, if_pos rfl]
  simp only [removeStep, if_pos hi, hself, Function.update_self, listDel_span]
  constructor <;> split <;> rfl

theorem removeStep_high (hi : v.height ≤ i) :
    (removeStep L v.ptr v.height s i).mem =
        s.mem.setSpan (s.update i) (s.mem.span (s.update i) - 1) ∧
      (removeStep L v.ptr v.height s i).update = s.update := by
  simp only [removeStep, if_neg (not_lt.2 hi)]
  constructor <;> split <;> rfl

theorem removeStep_spec (hc : Circular m₀.next m₀.prev ⟨0, i⟩ (row (A ++ v :: B) i))
    (hnd : (⟨0, i⟩ :: row (A ++ v :: B) i).Nodup)
    (hu : v.height ≤ i → update i = ⟨firstNode B i, i⟩)
    (hm : RoundAgree i ⟨m₀, update, L⟩ s) :
    RemovedAt m₀ A B v i (removeStep L v.ptr v.height s i).mem ∧
      ∀ k ≠ i, RoundAgree k s (removeStep L v.ptr v.height s i) := by
  obtain ⟨hm, hus⟩ := hm
  have hc' := hm.circular hc
  rw [row_append, row_cons] at hc' hnd
  by_cases hi : i < v.height
  · rw [if_pos hi] at hc' hnd
    obtain ⟨hmem, hupd⟩ := removeStep_low (s := s) (L := L) hi
    have hv : (⟨v.ptr, i⟩ : Link) ∉ ⟨0, i⟩ :: (row A i ++ row B i) := by
      have := List.nodup_middle.1 (by simpa using hnd :
        (((⟨0, i⟩ : Link) :: row A i) ++ ⟨v.ptr, i⟩ :: row B i).Nodup)
      simpa using (List.nodup_cons.1 this).1
    have hlast : lastOr ⟨0, i⟩ (row A i) ≠ ⟨v.ptr, i⟩ := fun he =>
      hv (he ▸ List.cons_subset_cons _ (List.subset_append_left _ _) lastOr_mem)
    have hhead : headOr ⟨0, i⟩ (row B i) ≠ ⟨v.ptr, i⟩ := fun he =>
      hv (he ▸ List.cons_subset_cons _ (List.subset_append_right _ _) headOr_mem)
    rw [hmem]
    refine ⟨⟨?_, fun _ p hp => ?_, fun h => by omega, fun h => by omega, hm.key, hm.brk⟩,
      fun k hk => ⟨⟨fun p =>
      ?_, fun p => ?_, fun p => ?_, ?_, ?_⟩, ?_⟩⟩
    · rw [row_append]
      refine hc'.remove hnd ?_ ?_ (fun q h1 h2 => ?_) fun q h1 h2 => ?_
      · show (listDel _ _).next _ = _
        rw [listDel_next, if_neg hlast, hc'.prev_mid, if_pos rfl, hc'.next_mid]
      · show (listDel _ _).prev _ = _
        rw [listDel_prev, if_neg hhead, hc'.next_mid, if_pos rfl, hc'.prev_mid]
      · show (listDel _ _).next _ = _
        rw [listDel_next, if_neg h1, hc'.prev_mid, if_neg h2]
      · show (listDel _ _).prev _ = _
        rw [listDel_prev, if_neg h1, hc'.next_mid, if_neg h2]
    · simp [Mem.setSpan, hp, hm.span]
    · rw [hmem]
      show (listDel _ _).next _ = _
      rw [listDel_next, hc'.prev_mid, lastOr_row, if_neg (by simp [hk]), if_neg (by simp [hk])]
    · rw [hmem]
      show (listDel _ _).prev _ = _
      rw [listDel_prev, hc'.next_mid, headOr_row, if_neg (by simp [hk]), if_neg (by simp [hk])]
    · rw [hmem]
      simp [Mem.setSpan, hk]
    · rw [hmem]
      rfl
    · rw [hmem]
      rfl
    · rw [hupd, Function.update_of_ne hk]
  · rw [if_neg hi] at hc' hnd
    obtain ⟨hmem, hupd⟩ := removeStep_high (s := s) (L := L) (not_lt.1 hi)
    rw [show s.update i = ⟨firstNode B i, i⟩ from hus.trans (hu (not_lt.1 hi))] at hmem
    rw [hmem]
    refine ⟨⟨?_, fun h => absurd h hi, fun _ => ?_, fun _ p hp => ?_, hm.key, hm.brk⟩, fun k hk =>
      ⟨⟨fun p => ?_, fun p => ?_, fun p => ?_, ?_, ?_⟩, ?_⟩⟩
    · rw [row_append]
      exact hc'
    · simp [Mem.setSpan, hm.span]
    · simp [Mem.setSpan, hp, hm.span]
    · rw [hmem]
      rfl
    · rw [hmem]
      rfl
    · rw [hmem]
      simp [Mem.setSpan, hk]
    · rw [hmem]
      rfl
    · rw [hmem]
      rfl
    · rw [hupd]

/-- The loop of `__remove`. -/
theorem removeLoop_spec {n : Nat} (hc : ∀ i, Circular m₀.next m₀.prev ⟨0, i⟩ (row (A ++ v :: B) i))
    (hnd : ∀ i, (⟨0, i⟩ :: row (A ++ v :: B) i).Nodup)
    (hu : ∀ i, v.height ≤ i → i < n → update i = ⟨firstNode B i, i⟩) :
    (∀ i < n, RemovedAt m₀ A B v i
        ((List.range n).foldl (removeStep L v.ptr v.height) ⟨m₀, update, L⟩).mem) ∧
      ∀ i ≥ n, RoundAgree i ⟨m₀, update, L⟩
        ((List.range n).foldl (removeStep L v.ptr v.height) ⟨m₀, update, L⟩) :=
  foldl_rounds (P := fun i s => RemovedAt m₀ A B v i s.mem) (fun _ _ => ⟨AgreeAt.refl _ _, rfl⟩)
    (fun _ _ _ _ h h' => ⟨h.1.trans h'.1, h'.2.trans h.2⟩) (fun _ _ _ h hd => hd.agree h.1)
    fun i hi _ hm => removeStep_spec (hc i) (hnd i) (fun hv => hu i hv hi) hm

theorem removeStep_remain : (removeStep L v.ptr v.height s i).remainLevel =
    if listEmpty (removeStep L v.ptr v.height s i).mem ⟨0, i⟩ ∧ s.remainLevel = L then i + 1
    else s.remainLevel := by
  unfold removeStep
  by_cases hi : i < v.height
  · simp only [if_pos hi]
    split <;> simp_all
  · simp only [if_neg hi]
    split <;> simp_all

/-- `list_empty` tells whether a level has nodes. -/
theorem RemovedAt.listEmpty_iff {m : Mem} (h : RemovedAt m₀ A B v i m)
    (h0 : ∀ n ∈ A ++ B, 0 < n.ptr) :
    listEmpty m ⟨0, i⟩ = true ↔ ∀ n ∈ A ++ B, n.height ≤ i := by
  have hnext : m.next ⟨0, i⟩ = ⟨firstNode (A ++ B) i, i⟩ := by
    rw [h.circular.next_head, headOr_row]
  rw [listEmpty, decide_eq_true_eq, hnext]
  constructor
  · intro he n hn
    by_contra hlt
    rcases split_first (B := A ++ B) (i := i) with hlow | ⟨X, x, Y, hX, h1, hx⟩
    · exact hlt (hlow n hn)
    · rw [hX, firstNode_append_cons h1 hx] at he
      exact (h0 x (by rw [hX]; simp)).ne' (congrArg Link.node he)
  · intro hlow
    rw [firstNode, ptrs_eq_nil hlow]
    rfl

/-- The level that remains is high enough for the nodes that remain. -/
theorem removeLoop_remain (hc : ∀ i, Circular m₀.next m₀.prev ⟨0, i⟩ (row (A ++ v :: B) i))
    (hnd : ∀ i, (⟨0, i⟩ :: row (A ++ v :: B) i).Nodup) (h0 : ∀ n ∈ A ++ B, 0 < n.ptr)
    (hL : 1 ≤ L) (hh : ∀ n ∈ A ++ B, n.height ≤ L) : ∀ n ≤ L,
    (∀ i, v.height ≤ i → i < n → update i = ⟨firstNode B i, i⟩) →
    let s := (List.range n).foldl (removeStep L v.ptr v.height) ⟨m₀, update, L⟩
    1 ≤ s.remainLevel ∧ s.remainLevel ≤ L ∧ ∀ a ∈ A ++ B, a.height ≤ s.remainLevel
  | 0, _, _ => ⟨hL, le_rfl, hh⟩
  | n + 1, hn, hu => by
    obtain ⟨ih₁, ih₂, ih₃⟩ := removeLoop_remain hc hnd h0 hL hh n (by omega) fun i h1 h2 =>
      hu i h1 (by omega)
    have hrem := (removeLoop_spec (L := L) hc hnd hu).1 n (by omega)
    rw [List.range_succ, List.foldl_append] at hrem ⊢
    simp only [List.foldl_cons, List.foldl_nil] at hrem ⊢
    rw [removeStep_remain]
    by_cases hempty : listEmpty (removeStep L v.ptr v.height
        ((List.range n).foldl (removeStep L v.ptr v.height) ⟨m₀, update, L⟩) n).mem ⟨0, n⟩ = true ∧
        ((List.range n).foldl (removeStep L v.ptr v.height) ⟨m₀, update, L⟩).remainLevel = L
    · rw [if_pos hempty]
      have hlow := (hrem.listEmpty_iff h0).1 hempty.1
      exact ⟨by omega, hn, fun a ha => (hlow a ha).trans (Nat.le_succ n)⟩
    · rw [if_neg hempty]
      exact ⟨ih₁, ih₂, ih₃⟩

end

/-! ## The spans -/

section
variable {m₀ m : Mem} {A B : List Node} {v : Node} {n : Nat}

/-- On every level of `v`, the level-0 predecessor of `v` is its predecessor or there is no
successor. -/
def Tight (A B : List Node) (v : Node) : Prop :=
  ∀ i < v.height, (∃ b ∈ B, i < b.height) → gap A i = 0

/-- Right spans stay right if and only if the node is at a tight place. -/
theorem Spans.remove_iff (h : Spans m₀ (A ++ v :: B)) (hnd : ((A ++ v :: B).map Node.ptr).Nodup)
    (h0 : ∀ a ∈ A ++ v :: B, 0 < a.ptr) (hn : ∀ a ∈ A ++ v :: B, a.height ≤ n)
    (hlen : (A ++ v :: B).length < 2 ^ 32) (hi : ∀ i < n, RemovedAt m₀ A B v i m) :
    Spans m (A ++ B) ↔ Tight A B v := by
  -- the first node behind `v` on a level of `v` keeps its span
  have hfirst : ∀ {X Y : List Node} {b : Node} {i : Nat}, B = X ++ b :: Y →
    (∀ x ∈ X, x.height ≤ i) → i < b.height → i < v.height →
    m.span ⟨b.ptr, i⟩ = BitVec.ofNat 32 (X.length + 1) := by
    intro X Y b i hB hX hb hv
    have hin : i < n := hb.trans_le (hn b (by simp [hB]))
    have hne : b.ptr ≠ v.ptr :=
      (ptr_ne (X := A) (Y := X) (Z := Y) (by rw [hB] at hnd; simpa using hnd)).symm
    rw [(hi i hin).low hv _ hne, h (A ++ v :: X) b Y (by simp [hB]) i hb, gap_cons_low hX hv]
  constructor
  · intro hS i hv ⟨b, hb, hib⟩
    rcases split_first (B := B) (i := i) with hlow | ⟨X, x, Y, hB, hX, hx⟩
    · have := hlow b hb
      omega
    · have h1 := hfirst hB hX hx hv
      rw [hS (A ++ X) x Y (by simp [hB]) i hx, gap_append_low hX] at h1
      have h2 := congrArg BitVec.toNat h1
      have h3 := gap_le_length (A := A) (i := i)
      rw [hB] at hlen
      simp only [List.length_append, List.length_cons] at hlen
      rw [BitVec.toNat_ofNat, BitVec.toNat_ofNat, Nat.mod_eq_of_lt (by omega),
        Nat.mod_eq_of_lt (by omega)] at h2
      omega
  · intro hT C c D hC i hic
    have hmem : c ∈ A ++ v :: B := by
      have : c ∈ A ++ B := by rw [hC]; simp
      rcases List.mem_append.1 this with h | h <;> simp [h]
    have hin : i < n := hic.trans_le (hn c hmem)
    rcases append_eq_cases hC with ⟨A₂, rfl, rfl⟩ | ⟨B₁, rfl, rfl⟩
    · rw [(hi i hin).span_eq (ptr_ne (X := C) (Y := A₂) (Z := B) (by simpa using hnd)) fun hc => ?_]
      · exact h C c (A₂ ++ v :: B) (by simp) i hic
      · rcases firstNode_mem (B := B) (i := i) with hz | ⟨b, hb, -, hbp⟩
        · exact (h0 c hmem).ne' (hc.trans hz)
        · obtain ⟨B₁, B₂, rfl⟩ := List.append_of_mem hb
          exact ptr_ne (X := C) (Y := A₂ ++ v :: B₁) (Z := B₂) (by simpa using hnd)
            (hc.trans hbp.symm)
    · have hold := h (A ++ v :: B₁) c D (by simp) i hic
      rcases split_first (B := B₁) (i := i) with hlow | ⟨X, x, Y, rfl, hX, hx⟩
      · rw [gap_append_low hlow]
        rcases Nat.lt_or_ge i v.height with hv | hv
        · rw [hfirst rfl hlow hic hv, hT i hv ⟨c, by simp, hic⟩, Nat.zero_add]
        · have hspan := (hi i hin).first hv
          rw [firstNode_append_cons hlow hic, hold, show A ++ v :: B₁ = A ++ [v] ++ B₁ by simp,
            gap_append_low hlow, gap_concat, if_pos hv] at hspan
          rw [hspan, ofNat_succ (gap A i + 1 + B₁.length), show gap A i + 1 + B₁.length =
            gap A i + B₁.length + 1 by omega]
          exact BitVec.add_sub_cancel _ _
      · have hhigh : ∃ y ∈ X ++ x :: Y, i < y.height := ⟨x, by simp, hx⟩
        rw [(hi i hin).span_eq ?_ ?_, hold, gap_append_high hhigh,
          show A ++ v :: (X ++ x :: Y) = A ++ [v] ++ (X ++ x :: Y) by simp, gap_append_high hhigh]
        · exact (ptr_ne (X := A) (Y := X ++ x :: Y) (Z := D) (by simpa using hnd)).symm
        · rw [List.append_assoc, List.cons_append, firstNode_append_cons hX hx]
          exact (ptr_ne (X := A ++ v :: X) (Y := Y) (Z := D) (by simpa using hnd)).symm

end

/-! ## `skiplist_remove` -/

section
variable {l : Skiplist} {S A B : List Node} {v : Node} {update : Nat → Link}

/-- `__remove` of a node of the list. -/
theorem remove_spec (h : Linked l (A ++ v :: B))
    (hu : ∀ k, v.height ≤ k → k < l.level → update k = ⟨firstNode B k, k⟩) :
    Linked (remove l v.ptr v.height update) (A ++ B) ∧
      (Spans l.mem (A ++ v :: B) → (Spans (remove l v.ptr v.height update).mem (A ++ B) ↔
      Tight A B v)) := by
  have hsub : (A ++ B).Sublist (A ++ v :: B) := by simp
  obtain ⟨hin, hge⟩ := removeLoop_spec (L := l.level) h.circular h.row_nodup hu
  obtain ⟨hr1, hr2, hr3⟩ := removeLoop_remain h.circular h.row_nodup
    (fun n hn => (h.bound n (hsub.subset hn)).1) h.level.1
    (fun n hn => (h.height n (hsub.subset hn)).2)
    l.level le_rfl hu
  have h0 := (hge l.level le_rfl).1
  refine ⟨⟨fun i => ?_, h.nodup.sublist (hsub.map _), fun n hn => ?_, fun n hn => ?_,
    h.sorted.sublist hsub, fun n hn => ⟨(h.height n (hsub.subset hn)).1, hr3 n hn⟩,
    ⟨hr1, hr2.trans h.level.2⟩, ?_, ?_, ?_⟩,
    fun hS => hS.remove_iff h.nodup (fun n hn => (h.bound n hn).1)
    (fun n hn => (h.height n hn).2) ?_ hin⟩
  · rcases Nat.lt_or_ge i l.level with hi | hi
    · exact (hin i hi).circular
    · have hc := (hge i hi).1.circular (h.circular i)
      rwa [row_append, row_cons,
        if_neg (not_lt.2 ((h.height v (by simp)).2.trans hi)), ← row_append] at hc
  · rw [show (remove l v.ptr v.height update).mem.brk = l.mem.brk from h0.brk]
    exact h.bound n (hsub.subset hn)
  · rw [show (remove l v.ptr v.height update).mem.key = l.mem.key from h0.key]
    exact h.key n (hsub.subset hn)
  · have := h.count
    show l.count - 1 = _
    simp only [List.length_append, List.length_cons] at this ⊢
    push_cast at this ⊢
    omega
  · have := h.countMax
    show l.count - 1 ≤ _
    omega
  · rw [show (remove l v.ptr v.height update).mem.brk = l.mem.brk from h0.brk]
    exact h.brk
  · have h1 := h.count
    have h2 := h.countMax
    rw [INT_MAX] at h2
    omega

/-- `v` is the first node with the key on the highest level that has one. -/
structure Victim (key : Int) (A B : List Node) (v : Node) : Prop where
  hasKey : v.key = key
  highest : ∀ n ∈ A ++ B, n.key = key → n.height ≤ v.height
  first : ∀ n ∈ A, n.key = key → n.height < v.height

/-- **`skiplist_remove`**. -/
theorem skiplistRemove_spec (h : Linked l S) (key : Int) :
    ((∀ n ∈ S, n.key ≠ key) ∧ skiplistRemove l key = .ok l) ∨
      ∃ A v B l', S = A ++ v :: B ∧ Victim key A B v ∧ skiplistRemove l key = .ok l' ∧
        Linked l' (A ++ B) ∧ (Spans l.mem S → (Spans l'.mem (A ++ B) ↔ Tight A B v)) := by
  obtain ⟨A, M, B, rfl, hA, hM, hB⟩ := sorted_split_key key h.sorted
  have htop : ∀ n ∈ A ++ (M ++ B), n.height ≤ l.level := fun n hn => (h.height n hn).2
  have hsearch := removeSearch_spec h hA hM hB l.level (fun _ => ⟨0, l.level - 1⟩) le_rfl
    (fun n hn => htop n (by simp [hn])) (fun k hk hkl => by omega)
  rw [lastNode_high fun n hn => htop n (by simp [hn]), firstNode_high fun n hn =>
    htop n (by simp [hn])] at hsearch
  rcases hsearch with ⟨rfl, hrun⟩ | ⟨M₁, v, M₂, update, rfl, hhigh, hlow, hu, hrun⟩
  · refine .inl ⟨fun n hn => ?_, hrun⟩
    rcases List.mem_append.1 hn with hn | hn
    · exact (hA n hn).ne
    · exact (hB n (by simpa using hn)).ne'
  · have hS : A ++ (M₁ ++ v :: M₂ ++ B) = (A ++ M₁) ++ v :: (M₂ ++ B) := by simp
    rw [hS] at h ⊢
    have hspec := @remove_spec _ _ _ _ update h fun k hk hkl => by
      rw [hu k hk hkl, firstNode_append_low fun n hn => (hhigh n (by simp [hn])).trans hk]
    refine .inr ⟨A ++ M₁, v, M₂ ++ B, _, rfl,
      ⟨hM v (by simp), fun n hn hk => ?_, fun n hn hk => ?_⟩, hrun, hspec⟩
    · simp only [List.mem_append] at hn
      rcases hn with (hn | hn) | hn | hn
      · exact absurd hk (hA n hn).ne
      · exact hhigh n (by simp [hn])
      · exact hhigh n (by simp [hn])
      · exact absurd hk (hB n hn).ne'
    · rcases List.mem_append.1 hn with hn | hn
      · exact absurd hk (hA n hn).ne
      · exact hlow n hn

end

end SkipRank
