import DsAlgor.SkipList.Linked

/-!
# `skiplist_insert`

`skiplistInsert_spec`: the new node comes before the first node whose key is not smaller, on as many
levels as were drawn.
-/

namespace SkipList

open SkipRank (Ptr Link Node MAX_LEVEL INT_MAX row firstNode lastNode row_append row_cons
    headOr_row lastOr_row)
open Circular

section
variable {m : Mem} {A B : List Node} {N : Node} {key : Int} {i j : Nat}

/-- What the search knows of the nodes: it does not change while they are linked. -/
structure Searchable (m : Mem) (A B : List Node) (N : Node) (key : Int) : Prop where
  nodup : ((A ++ B).map Node.ptr).Nodup
  positive : ∀ n ∈ A ++ B, 0 < n.ptr
  fuel : (A ++ B).length < m.brk
  nodeKey : ∀ n ∈ A ++ B, m.key n.ptr = n.key
  below : ∀ n ∈ A, n.key < key
  above : ∀ n ∈ B, key ≤ n.key
  fresh : 0 < N.ptr ∧ ∀ n ∈ A ++ B, n.ptr ≠ N.ptr

theorem Searchable.congr {m' : Mem} (h : Searchable m A B N key) (hs : SameNodes m m') :
    Searchable m' A B N key :=
  { h with
    fuel := hs.brk ▸ h.fuel
    nodeKey := fun n hn => hs.key ▸ h.nodeKey n hn }

theorem Searchable.notMem (h : Searchable m A B N key) (i : Nat) :
    ⟨N.ptr, i⟩ ∉ (⟨0, i⟩ : Link) :: row (A ++ B) i := by
  intro hm
  cases List.mem_cons.1 hm with
  | inl he => exact h.fresh.1.ne' (congrArg Link.node he)
  | inr hm =>
    obtain ⟨-, n, hn, -, hp⟩ := SkipRank.mem_row.1 hm
    exact h.fresh.2 n hn hp

/-- The loop over level `i` ends at the first node behind the place. -/
theorem insertWalk_spec (h : Searchable m A B N key)
    (hc : Circular m.next m.prev ⟨0, i⟩ (row (A ++ B) i)) (hij : i ≤ j) :
    insertWalk m key (m.next ⟨lastNode A j, i⟩) ⟨firstNode B j, i⟩ = some ⟨firstNode B i, i⟩ := by
  obtain ⟨A₁, A₂, -, -, -, hrun⟩ := SkipRank.scan_row (insertBody m key) (f := fun _ _ => ())
    (g := fun q _ => q) (s := ()) hc h.nodup h.positive h.fuel hij
    (fun A₁ C n D hA₁ _ _ => by
      unfold insertBody
      rw [h.nodeKey n (by simp [hA₁]), if_neg (not_le.2 (h.below n (by simp [hA₁])))])
    fun _ _ B₁ n B₂ _ _ hB₁ _ _ => by
      unfold insertBody
      rw [h.nodeKey n (by simp [hB₁]), if_pos (h.above n (by simp [hB₁]))]
  unfold insertWalk
  rw [hrun]
  by_cases hend : firstNode B i = firstNode B j
  · rw [if_pos hend, hend]
    rfl
  · rw [if_neg hend]
    rfl

/-- One level: the new node is in the row if it is high enough. -/
theorem insertLevel_spec (h : Searchable m A B N key)
    (hc : Circular m.next m.prev ⟨0, i⟩ (row (A ++ B) i)) :
    let m' := if i < N.height then listAdd m ⟨N.ptr, i⟩ ⟨lastNode A i, i⟩ ⟨firstNode B i, i⟩ else m
    Circular m'.next m'.prev ⟨0, i⟩ (row (A ++ N :: B) i) ∧ (∀ k ≠ i, AgreeAt k m m') ∧
      SameNodes m m' := by
  intro m'
  by_cases hi : i < N.height
  · have hm' : m' = listAdd m ⟨N.ptr, i⟩ ⟨lastNode A i, i⟩ ⟨firstNode B i, i⟩ := if_pos hi
    obtain ⟨hcirc, hagree⟩ := listAdd_spec hc (SkipRank.row_nodup h.nodup h.positive i)
      (h.notMem i) hi
    rw [hm']
    exact ⟨hcirc, hagree, rfl, rfl, rfl, rfl⟩
  · have hm' : m' = m := if_neg hi
    have hrow : row (A ++ N :: B) i = row (A ++ B) i := by
      rw [row_append, row_append, row_cons, if_neg hi]
    rw [hm', hrow]
    exact ⟨hc, fun k _ => AgreeAt.refl k m, SameNodes.refl m⟩

/-- The levels below `i`: each is entered below the neighbours of the place on the level above. -/
theorem insertLevels_spec : ∀ (i : Nat) {m : Mem}, Searchable m A B N key →
    (∀ k < i, Circular m.next m.prev ⟨0, k⟩ (row (A ++ B) k)) →
    ∃ m', insertLevels key N.ptr N.height i m ⟨lastNode A i, i - 1⟩ ⟨firstNode B i, i - 1⟩ =
      some m' ∧ (∀ k < i, Circular m'.next m'.prev ⟨0, k⟩ (row (A ++ N :: B) k)) ∧
        (∀ k ≥ i, AgreeAt k m m') ∧
      SameNodes m m'
  | 0, m, _, _ => ⟨m, rfl, nofun, fun k _ => AgreeAt.refl k m, SameNodes.refl m⟩
  | i + 1, m, h, hc => by
    have hci := hc i (Nat.lt_succ_self i)
    have hwalk := insertWalk_spec h hci (Nat.le_succ i)
    have hprev : m.prev ⟨firstNode B i, i⟩ = ⟨lastNode A i, i⟩ := by
      rw [row_append] at hci
      rw [← headOr_row, ← lastOr_row]
      exact hci.prev_eq
    obtain ⟨hrow, hagree, hsame⟩ := insertLevel_spec h hci
    obtain ⟨m', hrun, hrows, hagree', hsame'⟩ := insertLevels_spec i (h.congr hsame) fun k hk =>
      (hagree k (Nat.ne_of_lt hk)).circular (hc k (Nat.lt_succ_of_lt hk))
    refine ⟨m', ?_, fun k hk => ?_, fun k hk => ?_, hsame.trans hsame'⟩
    · simp only [insertLevels, Nat.add_sub_cancel, hwalk, hprev]
      exact hrun
    · cases Nat.lt_or_eq_of_le (Nat.le_of_lt_succ hk) with
      | inl hlt => exact hrows k hlt
      | inr heq =>
        subst heq
        exact (hagree' k le_rfl).circular hrow
    · exact (hagree k (by omega)).trans (hagree' k (by omega))

end

/-! ## `skiplist_insert` -/

section
variable {l : Skiplist} {S A B : List Node} {key : Int}

theorem Linked.raise (h : Linked l S) {n : Nat} (hn : l.level ≤ n) (hmax : n ≤ MAX_LEVEL) :
    Linked { l with level := n } S :=
  { h with
    height := fun a ha => ⟨(h.height a ha).1, (h.height a ha).2.trans hn⟩
    level := hmax }

theorem Linked.searchable (h : Linked l (A ++ B)) (hA : ∀ n ∈ A, n.key < key)
    (hB : ∀ n ∈ B, key ≤ n.key) (value : Int) (level : Nat) :
    Searchable (skipnodeNew l.mem key value).2 A B ⟨l.mem.brk, key, level⟩ key where
  nodup := h.nodup
  positive n hn := (h.bound n hn).1
  fuel := Nat.lt_succ_of_lt h.length_lt
  nodeKey n hn := by
    show Function.update l.mem.key l.mem.brk key n.ptr = n.key
    rw [Function.update_of_ne (h.bound n hn).2.ne, h.key n hn]
  below := hA
  above := hB
  fresh := ⟨h.brk, fun n hn => (h.bound n hn).2.ne⟩

/-- The list with the new node. -/
theorem Linked.inserted (h : Linked l (A ++ B)) (hA : ∀ n ∈ A, n.key < key)
    (hB : ∀ n ∈ B, key ≤ n.key) (value : Int) {level : Nat} (hlevel : 1 ≤ level ∧ level ≤ l.level) :
    ∃ m', insertLevels key l.mem.brk level l.level (skipnodeNew l.mem key value).2 ⟨0, l.level - 1⟩
        ⟨0, l.level - 1⟩ = some m' ∧
      (l.count ≠ INT_MAX →
        Linked { l with mem := m', count := l.count + 1 } (A ++ ⟨l.mem.brk, key, level⟩ :: B)) ∧
      m'.value = Function.update l.mem.value l.mem.brk value ∧ m'.brk = l.mem.brk + 1 := by
  have htop : ∀ n ∈ A ++ B, n.height ≤ l.level := fun n hn => (h.height n hn).2
  have hlast : lastNode A l.level = 0 := by
    unfold lastNode
    rw [SkipRank.ptrs_eq_nil fun n hn => htop n (List.mem_append_left _ hn)]
    rfl
  have hfirst : firstNode B l.level = 0 := by
    unfold firstNode
    rw [SkipRank.ptrs_eq_nil fun n hn => htop n (List.mem_append_right _ hn)]
    rfl
  obtain ⟨m', hrun, hrows, hagree, hsame⟩ :=
    insertLevels_spec l.level (h.searchable hA hB value level) fun k _ => h.circular k
  rw [hlast, hfirst] at hrun
  have hbrk : m'.brk = l.mem.brk + 1 := hsame.brk
  have hmem : ∀ {n : Node}, n ∈ A ++ ⟨l.mem.brk, key, level⟩ :: B → n = ⟨l.mem.brk, key, level⟩ ∨
    n ∈ A ++ B := by
    intro n hn
    simp only [List.mem_append, List.mem_cons] at hn ⊢
    exact or_left_comm.1 hn
  refine ⟨m', hrun, fun hcount => ⟨fun i => ?_, ?_, fun n hn => ?_, fun n hn => ?_, ?_, fun n hn =>
    ?_, h.level, ?_, ?_, ?_, ?_, ?_⟩, hsame.value, hbrk⟩
  · by_cases hi : i < l.level
    · exact hrows i hi
    · have hrow : row (A ++ ⟨l.mem.brk, key, level⟩ :: B) i = row (A ++ B) i := by
        rw [row_append, row_append, row_cons, if_neg fun hlt => hi (hlt.trans_le hlevel.2)]
      rw [hrow]
      exact (hagree i (not_lt.1 hi)).circular (h.circular i)
  · have hnd := h.nodup
    rw [List.map_append] at hnd ⊢
    refine List.nodup_middle.2 (List.nodup_cons.2 ⟨fun hm => ?_, hnd⟩)
    rw [← List.map_append] at hm
    obtain ⟨n, hn, hp⟩ := List.mem_map.1 hm
    exact (h.bound n hn).2.ne hp
  · show 0 < n.ptr ∧ n.ptr < m'.brk
    rw [hbrk]
    cases hmem hn with
    | inl he =>
      rw [he]
      exact ⟨h.brk, Nat.lt_succ_self _⟩
    | inr hn => exact ⟨(h.bound n hn).1, Nat.lt_succ_of_lt (h.bound n hn).2⟩
  · show m'.key n.ptr = n.key
    rw [hsame.key]
    cases hmem hn with
    | inl he =>
      rw [he]
      exact Function.update_self _ _ _
    | inr hn => exact (h.searchable hA hB value level).nodeKey n hn
  · obtain ⟨hAs, hBs, hAB⟩ := List.pairwise_append.1 h.sorted
    refine List.pairwise_append.2 ⟨hAs, List.pairwise_cons.2 ⟨hB, hBs⟩, fun a ha b hb => ?_⟩
    cases List.mem_cons.1 hb with
    | inl he =>
      rw [he]
      exact le_of_lt (hA a ha)
    | inr hb => exact hAB a ha b hb
  · cases hmem hn with
    | inl he =>
      rw [he]
      exact hlevel
    | inr hn => exact h.height n hn
  · show l.count + 1 = _
    rw [h.count]
    simp only [List.length_append, List.length_cons]
    push_cast
    omega
  · exact Int.add_one_le_of_lt (lt_of_le_of_ne h.countMax hcount)
  · show 0 < m'.brk
    rw [hbrk]
    exact Nat.succ_pos _
  · show m'.freed.Nodup
    rw [hsame.freed]
    exact h.freed.1
  · intro p
    show p ∈ m'.freed ↔ 0 < p ∧ p < m'.brk ∧ _
    rw [hsame.freed, hbrk]
    refine (h.freed.2 p).trans ⟨?_, ?_⟩
    · rintro ⟨hpos, hlt, hne⟩
      refine ⟨hpos, Nat.lt_succ_of_lt hlt, fun n hn => ?_⟩
      cases hmem hn with
      | inl he =>
        rw [he]
        exact hlt.ne'
      | inr hn => exact hne n hn
    · rintro ⟨hpos, hlt, hne⟩
      have hnew : l.mem.brk ≠ p := hne ⟨l.mem.brk, key, level⟩ (by simp)
      refine ⟨hpos, lt_of_le_of_ne (Nat.le_of_lt_succ hlt) hnew.symm, fun n hn => hne n ?_⟩
      simp only [List.mem_append, List.mem_cons] at hn ⊢
      exact or_left_comm.2 (.inr hn)

/-- The level of the list after `random_level`. -/
theorem Linked.drawn (h : Linked l S) {level : Nat} (hlevel : level ≤ MAX_LEVEL) :
    ∃ n, (if level > l.level then { l with level := level } else l) = { l with level := n } ∧
      n = max l.level level ∧ Linked { l with level := n } S := by
  by_cases hgt : level > l.level
  · exact ⟨level, if_pos hgt, (max_eq_right hgt.le).symm, h.raise (le_of_lt hgt) hlevel⟩
  · exact ⟨l.level, if_neg hgt, (max_eq_left (not_lt.1 hgt)).symm, h⟩

/-- **`skiplist_insert`**. -/
theorem skiplistInsert_spec (h : Linked l S) (key value : Int) {level : Nat}
    (hlevel : 1 ≤ level ∧ level ≤ MAX_LEVEL) :
    (∃ l', skiplistInsert l key value level false = .ok (0, l') ∧ Linked l' S ∧
        l'.mem = l.mem ∧ l'.level = max l.level level) ∧
      (l.count = INT_MAX → skiplistInsert l key value level true = .error .overflow) ∧
      (l.count ≠ INT_MAX → ∃ A B l', S = A ++ B ∧ (∀ n ∈ A, n.key < key) ∧ (∀ n ∈ B, key ≤ n.key) ∧
        skiplistInsert l key value level true = .ok (l.mem.brk, l') ∧
        Linked l' (A ++ ⟨l.mem.brk, key, level⟩ :: B) ∧
        l'.mem.value = Function.update l.mem.value l.mem.brk value ∧
          l'.mem.brk = l.mem.brk + 1 ∧ l'.level = max l.level level) := by
  obtain ⟨n, hl, hmax, h₁⟩ := h.drawn hlevel.2
  have hn : level ≤ n := hmax ▸ le_max_right _ _
  obtain ⟨A, B, rfl, hA, hB⟩ :=
    SkipRank.sorted_split (p := (· < key)) (fun _ _ => lt_of_le_of_lt) h.sorted
  have hB : ∀ n ∈ B, key ≤ n.key := fun n hn => not_lt.1 (hB n hn)
  obtain ⟨m', hrun, hlinked, hvalue, hbrk⟩ := h₁.inserted hA hB value ⟨hlevel.1, hn⟩
  have hlevels : insertLevels key (skipnodeNew l.mem key value).1 level n
      (skipnodeNew l.mem key value).2 ⟨0, n - 1⟩ ⟨0, n - 1⟩ = some m' := hrun
  have hinsert : skiplistInsert l key value level true =
      if l.count = INT_MAX then .error .overflow
      else .ok (l.mem.brk, { level := n, mem := m', count := l.count + 1 }) := by
    unfold skiplistInsert
    rw [hl]
    dsimp only
    rw [hlevels]
    rfl
  refine ⟨⟨{ l with level := n }, ?_, h₁, rfl, hmax⟩, fun hc => ?_, fun hc => ?_⟩
  · unfold skiplistInsert
    rw [hl]
    rfl
  · rw [hinsert, if_pos hc]
  · exact ⟨A, B, _, rfl, hA, hB, by rw [hinsert, if_neg hc], hlinked hc, hvalue, hbrk, hmax⟩

end

end SkipList
