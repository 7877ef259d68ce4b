import DsAlgor.Rocksdb.Search

/-!
# Insertion

Between two insertions `prev_[0]` is the node inserted last, and `prev_[i]` its predecessor on the
levels above (`Cached`). So the fast path for sequential insertion gives what `FindLessThan` would
give (`sequentialPrev_spec`), and every insertion puts its node at its place on all levels
(`insert_spec`).
-/

namespace Rocksdb

section
variable {Key : Type} {cmp : Comparator Key} {l : SkipList Key} {S A B : List (Node Key)}
  {n : Node Key} {i j : Nat} {key : Key}

/-- What `prev_` and `prev_height_` hold between insertions. -/
def Cached (l : SkipList Key) (S : List (Node Key)) : Prop :=
  (S = [] ∧ l.prev 0 = 0 ∧ l.prevHeight = 1 ∧ l.maxHeight = 1) ∨
    ∃ A z B, S = A ++ z :: B ∧ l.prev 0 = z.ptr ∧ l.prevHeight = z.height ∧
      ∀ i, 1 ≤ i → i < l.maxHeight → l.prev i = lastAt A i

theorem fill_eq (prev : Nat → Ptr) (start stop : Nat) (value : Ptr) (i : Nat) :
    fill prev start stop value i = if start ≤ i ∧ i < stop then value else prev i := by
  have hcount : ∀ k, (List.range' start k).foldl
      (fun prev i => Function.update prev i value) prev i =
      if start ≤ i ∧ i < start + k then value else prev i := by
    intro k
    induction k with
    | zero => rw [if_neg (by omega)]; rfl
    | succ k ih =>
      rw [List.range'_concat, List.foldl_append, List.foldl_cons, List.foldl_nil,
        Function.update_apply, ih]
      split_ifs <;> first | rfl | omega
  unfold fill
  rw [hcount]
  split_ifs <;> first | rfl | omega

/-! ## The fast path -/

/-- The predecessors of the key on all levels. -/
def Predecessors (l : SkipList Key) (A : List (Node Key)) (prev : Nat → Ptr) : Prop :=
  ∀ i < l.maxHeight, prev i = lastAt A i

/-- A key has one place. -/
theorem Between.unique {A' B' : List (Node Key)} (h : Between cmp key A B)
    (h' : Between cmp key A' B') (heq : A ++ B = A' ++ B') : A = A' ∧ B = B' := by
  cases List.append_eq_append_iff.1 heq with
  | inl hsplit =>
    obtain ⟨C, hA', hB⟩ := hsplit
    cases C with
    | nil => exact ⟨by simpa using hA'.symm, by simpa using hB⟩
    | cons c C => exact absurd (h'.before c (by simp [hA'])) (h.behind c (by simp [hB]))
  | inr hsplit =>
    obtain ⟨C, hA, hB'⟩ := hsplit
    cases C with
    | nil => exact ⟨by simpa using hA, by simpa using hB'.symm⟩
    | cons c C => exact absurd (h.before c (by simp [hA])) (h'.behind c (by simp [hB']))

/-- The place of the key when the test of the fast path succeeds. -/
theorem Linked.between_of_sequential {z : Node Key} (h : Linked cmp l (A ++ z :: B))
    (hz : l.prev 0 = z.ptr) (hseq : sequential cmp l key = true) :
    Between cmp key (A ++ [z]) B := by
  have hmem : z ∈ A ++ z :: B := List.mem_append_right _ List.mem_cons_self
  have hsplit : A ++ z :: B = (A ++ [z]) ++ B := by rw [List.append_assoc, List.singleton_append]
  have hnext : l.next z.ptr 0 = firstAt B 0 := by
    have hn := h.next 0 (A ++ [z]) B hsplit
    rwa [lastAt_concat (h.height z hmem).1] at hn
  unfold sequential at hseq
  rw [hz, hnext, Bool.and_eq_true, Bool.or_eq_true, decide_eq_true_eq, h.keyIsAfterNode hmem,
    decide_eq_true_eq] at hseq
  have hzkey : cmp.compare z.key key < 0 := hseq.2.resolve_left (h.bound z hmem).1.ne'
  have hsorted := List.pairwise_append.1 h.sorted
  constructor
  · intro n hn
    cases List.mem_append.1 hn with
    | inl hn => exact cmp.compare_trans _ _ _ (hsorted.2.2 n hn z List.mem_cons_self) hzkey
    | inr hn =>
      rw [List.mem_singleton.1 hn]
      exact hzkey
  · cases B with
    | nil => exact nofun
    | cons b B =>
      have hb : b ∈ A ++ z :: b :: B := by simp
      have hbkey : ¬ cmp.compare b.key key < 0 := by
        have hnot := hseq.1
        rw [firstAt_cons (h.height b hb).1, h.keyIsAfterNode hb] at hnot
        simpa using hnot
      intro n hn hlt
      cases List.mem_cons.1 hn with
      | inl he =>
        rw [he] at hlt
        exact hbkey hlt
      | inr hn =>
        have hbn := (List.pairwise_cons.1 (List.pairwise_cons.1 hsorted.2.1).2).1 n hn
        exact hbkey (cmp.compare_trans _ _ _ hbn hlt)

/-- **The fast path** finds the predecessors, and its assert holds. -/
theorem sequentialPrev_spec (hkey : Between cmp key A B) (h : Linked cmp l (A ++ B))
    (hcached : Cached l (A ++ B)) (hseq : sequential cmp l key = true) :
    Predecessors l A (sequentialPrev l) ∧ (l.prev 0 ≠ 0 ∨ l.prevHeight = 1 ∧ l.maxHeight = 1) := by
  cases hcached with
  | inl hempty =>
    obtain ⟨hnil, hprev, hheight, hmax⟩ := hempty
    refine ⟨fun i hi => ?_, .inr ⟨hheight, hmax⟩⟩
    have hi : i = 0 := by omega
    rw [(List.append_eq_nil_iff.1 hnil).1, lastAt_nil, hi]
    unfold sequentialPrev
    rw [fill_eq, if_neg (by omega), hprev]
  | inr hlast =>
    obtain ⟨A₀, z, B₀, hS, hprev, hheight, habove⟩ := hlast
    rw [hS] at h
    have hz := h.height z (by simp)
    have hplace := h.between_of_sequential hprev hseq
    obtain ⟨hA, -⟩ := hkey.unique hplace (hS.trans (by simp))
    refine ⟨fun i hi => ?_, .inl ?_⟩
    · rw [hA]
      unfold sequentialPrev
      rw [fill_eq, hheight, hprev]
      by_cases hlow : i < z.height
      · rw [lastAt_concat hlow]
        split_ifs with h1
        · rfl
        · have hi : i = 0 := by omega
          rw [hi, hprev]
      · rw [lastAt_low (by simpa using hlow), if_neg (by omega)]
        exact habove i (by omega) hi
    · rw [hprev]
      exact (h.bound z (by simp)).1.ne'

/-- Whichever path is taken. -/
theorem findPrev_spec (hkey : Between cmp key A B) (h : Linked cmp l (A ++ B))
    (hcached : Cached l (A ++ B)) :
    ∃ prev, findPrev cmp l key = .ok prev ∧ Predecessors l A prev := by
  unfold findPrev
  by_cases hseq : sequential cmp l key = true
  · obtain ⟨hprev, hassert⟩ := sequentialPrev_spec hkey h hcached hseq
    refine ⟨sequentialPrev l, ?_, hprev⟩
    have hcheck : (decide (l.prev 0 ≠ 0) ||
      (decide (l.prevHeight = 1) && decide (l.maxHeight = 1))) = true := by
      simpa using hassert
    rw [if_pos hseq, check, if_pos hcheck]
    rfl
  · obtain ⟨prev, hrun, hprev, -⟩ := findLessThan_spec hkey h l.prev
    refine ⟨prev, ?_, hprev⟩
    rw [if_neg hseq, hrun]
    rfl

/-! ## Linking the node -/

theorem link_eq {prev : Nat → Ptr} {x : Ptr} (hx : prev i ≠ x) (next : Ptr → Nat → Option Ptr)
    (p : Ptr) (k : Nat) :
    link prev x next i p k =
      if k = i then if p = prev i then some x else if p = x then next
        (prev i) i else next p i else next p k := by
  unfold link
  by_cases hk : k = i
  · subst hk
    rw [if_pos rfl]
    by_cases hp : p = prev k
    · simp [hp]
    · by_cases hpx : p = x
      · subst hpx
        simp [hp]
      · simp [hp, hpx]
  · rw [if_neg hk]
    by_cases hp : p = prev i
    · subst hp
      simp [hk, hx]
    · by_cases hpx : p = x
      · subst hpx
        simp [hp, hk]
      · simp [hp, hpx]

/-- The links after the loop. -/
theorem linkLoop_eq {prev : Nat → Ptr} {x : Ptr} (next : Ptr → Nat → Option Ptr)
    (p : Ptr) (k : Nat) :
    ∀ height, (∀ i < height, prev i ≠ x) → (List.range height).foldl (link prev x) next p k =
      if k < height then if p = prev k then some x else if p = x then next
        (prev k) k else next p k else next p k
  | 0, _ => rfl
  | height + 1, hx => by
    have ih := fun p k => linkLoop_eq next p k height fun i hi => hx i (Nat.lt_succ_of_lt hi)
    rw [List.range_succ, List.foldl_append, List.foldl_cons, List.foldl_nil,
      link_eq (hx height (Nat.lt_succ_self _))]
    by_cases hk : k = height
    · subst hk
      rw [if_pos rfl, if_pos (Nat.lt_succ_self k), ih, ih, if_neg (lt_irrefl k),
        if_neg (lt_irrefl k)]
    · rw [if_neg hk, ih]
      by_cases hlt : k < height
      · rw [if_pos hlt, if_pos (Nat.lt_succ_of_lt hlt)]
      · rw [if_neg hlt, if_neg (by omega)]

theorem lastAt_mem : lastAt A i = 0 ∨ ∃ n ∈ A, n.ptr = lastAt A i := by
  cases List.mem_cons.1 (Circular.lastOr_mem : lastAt A i ∈ 0 :: ptrs A i) with
  | inl h => exact .inl h
  | inr h =>
    obtain ⟨n, hn, -, hp⟩ := mem_ptrs.1 h
    exact .inr ⟨n, hn, hp⟩

theorem lastAt_high_eq {C C' E : List (Node Key)} (h : ∃ n ∈ E, i < n.height) :
    lastAt (C ++ E) i = lastAt (C' ++ E) i := by
  obtain ⟨n, hn, hi⟩ := h
  unfold lastAt
  have hne : ptrs E i ≠ [] := List.ne_nil_of_mem (mem_ptrs.2 ⟨n, hn, hi, rfl⟩)
  obtain ⟨X, e, hX⟩ := List.eq_nil_or_concat (ptrs E i) |>.resolve_left hne
  rw [ptrs_append, ptrs_append, hX, List.concat_eq_append, ← List.append_assoc, ← List.append_assoc,
    Circular.lastOr_concat, Circular.lastOr_concat]

theorem firstAt_high_eq {D D' E : List (Node Key)} (h : ∃ n ∈ E, i < n.height) :
    firstAt (E ++ D) i = firstAt (E ++ D') i := by
  obtain ⟨n, hn, hi⟩ := h
  cases split_first E i with
  | inl hlow => exact absurd hi (not_lt.2 (hlow n hn))
  | inr hsplit =>
    obtain ⟨X, e, Y, rfl, hX, he⟩ := hsplit
    rw [List.append_assoc, List.append_assoc, firstAt_low hX, firstAt_low hX, List.cons_append,
      List.cons_append, firstAt_cons he, firstAt_cons he]

/-- The last node of a level is in the last part that has one. -/
theorem lastAt_high {C E : List (Node Key)} (h : ∃ n ∈ E, i < n.height) :
    ∃ e ∈ E, lastAt (C ++ E) i = e.ptr := by
  induction E using List.reverseRecOn with
  | nil =>
    obtain ⟨n, hn, -⟩ := h
    cases hn
  | append_singleton E e ih =>
    by_cases he : i < e.height
    · refine ⟨e, by simp, ?_⟩
      rw [← List.append_assoc, lastAt_concat he]
    · obtain ⟨n, hn, hni⟩ := h
      have hnE : n ∈ E := by
        cases List.mem_append.1 hn with
        | inl hn => exact hn
        | inr hn => exact absurd (List.mem_singleton.1 hn ▸ hni) he
      obtain ⟨e', he', hlast⟩ := ih ⟨n, hnE, hni⟩
      refine ⟨e', List.mem_append_left _ he', ?_⟩
      rw [← List.append_assoc, lastAt_low (by simpa using he), hlast]

/-- The last node of a level before a place is not the one before a later place. -/
theorem Linked.lastAt_ne {C E : List (Node Key)} (h : Linked cmp l (C ++ E ++ B))
    (hE : ∃ n ∈ E, i < n.height) :
    lastAt C i ≠ lastAt (C ++ E) i := by
  obtain ⟨e, he, hlast⟩ := lastAt_high (C := C) hE
  rw [hlast]
  intro heq
  cases lastAt_mem (A := C) (i := i) with
  | inl h0 => exact (h.bound e (by simp [he])).1.ne (h0.symm.trans heq)
  | inr hmem =>
    obtain ⟨c, hc, hp⟩ := hmem
    have hnd := h.nodup
    rw [List.append_assoc, List.map_append, List.map_append] at hnd
    exact (List.nodup_append.1 hnd).2.2 c.ptr (List.mem_map_of_mem hc) e.ptr
      (List.mem_append_left _ (List.mem_map_of_mem he)) (hp.trans heq)

theorem Linked.lastAt_lt (h : Linked cmp l (A ++ B)) : lastAt A i < l.brk := by
  cases lastAt_mem (A := A) (i := i) with
  | inl h0 =>
    rw [h0]
    exact Nat.lt_of_le_of_lt (Nat.zero_le _) h.length
  | inr hmem =>
    obtain ⟨n, hn, hp⟩ := hmem
    rw [← hp]
    exact (h.bound n (List.mem_append_left B hn)).2

/-- A node that is not on the level. -/
theorem ptrs_skip {N : Node Key} (h : ¬ i < N.height) : ptrs (A ++ N :: B) i = ptrs (A ++ B) i := by
  rw [ptrs_append, ptrs_append, ptrs_cons, if_neg h]

section
variable {N : Node Key} {prev : Nat → Ptr}

/-- The new links before the new node. -/
theorem Linked.next_before {C E : List (Node Key)} (h : Linked cmp l (C ++ E ++ B))
    (hN : N.ptr = l.brk) (hprev : ∀ i < N.height, prev i = lastAt (C ++ E) i) :
    (if i < N.height then if lastAt C i = prev i then some N.ptr else if lastAt C i =
    N.ptr then l.next (prev i) i else l.next (lastAt C i) i else l.next (lastAt C i) i) = firstAt
      (E ++ N :: B) i := by
  have hnext := h.next i C (E ++ B) (List.append_assoc _ _ _)
  by_cases hi : i < N.height
  · rw [if_pos hi, hprev i hi]
    by_cases hE : ∃ n ∈ E, i < n.height
    · have hlt : lastAt C i < l.brk := by
        rw [List.append_assoc] at h
        exact h.lastAt_lt
      rw [if_neg (h.lastAt_ne hE), if_neg (hN ▸ hlt.ne), hnext]
      exact firstAt_high_eq hE
    · have hlow : ∀ n ∈ E, n.height ≤ i := fun n hn => not_lt.1 fun hlt => hE ⟨n, hn, hlt⟩
      rw [if_pos (lastAt_low hlow).symm, firstAt_low hlow, firstAt_cons hi]
  · rw [if_neg hi, hnext]
    unfold firstAt
    rw [ptrs_skip hi]

/-- The new links at the new node and behind it. -/
theorem Linked.next_behind {E D : List (Node Key)} (h : Linked cmp l (A ++ E ++ D))
    (hN : N.ptr = l.brk) (hprev : ∀ i < N.height, prev i = lastAt A i) :
    (if i < N.height then if lastAt (A ++ N :: E) i = prev i then some N.ptr
      else if lastAt (A ++ N :: E) i = N.ptr then l.next (prev i) i else l.next
        (lastAt (A ++ N :: E) i) i
      else l.next (lastAt (A ++ N :: E) i) i) = firstAt D i := by
  have hnext := h.next i (A ++ E) D rfl
  by_cases hi : i < N.height
  · rw [if_pos hi, hprev i hi]
    by_cases hE : ∃ n ∈ E, i < n.height
    · have hlast : lastAt (A ++ N :: E) i = lastAt (A ++ E) i := by
        have happend : A ++ N :: E = (A ++ [N]) ++ E := by
          rw [List.append_assoc, List.singleton_append]
        rw [happend]
        exact lastAt_high_eq hE
      rw [hlast, if_neg (h.lastAt_ne hE).symm, if_neg (hN ▸ h.lastAt_lt.ne), hnext]
    · have hlow : ∀ n ∈ E, n.height ≤ i := fun n hn => not_lt.1 fun hlt => hE ⟨n, hn, hlt⟩
      have hlast : lastAt (A ++ N :: E) i = N.ptr := by
        have happend : A ++ N :: E = (A ++ [N]) ++ E := by
          rw [List.append_assoc, List.singleton_append]
        rw [happend, lastAt_low hlow, lastAt_concat hi]
      have hlt : lastAt A i < l.brk := by
        rw [List.append_assoc] at h
        exact h.lastAt_lt
      rw [hlast, if_neg (hN ▸ hlt.ne'), if_pos rfl, h.next i A (E ++ D) (List.append_assoc _ _ _),
        firstAt_low hlow]
  · have hlast : lastAt (A ++ N :: E) i = lastAt (A ++ E) i := by
      unfold lastAt
      rw [ptrs_skip hi]
    rw [if_neg hi, hlast, hnext]

/-- The links of the list with the new node. -/
theorem Linked.next_insert (h : Linked cmp l (A ++ B)) (hN : N.ptr = l.brk)
    (hprev : ∀ i < N.height, prev i = lastAt A i) (i : Nat) (C D : List (Node Key))
    (hCD : A ++ N :: B = C ++ D) :
    (List.range N.height).foldl (link prev N.ptr) l.next (lastAt C i) i = firstAt D i := by
  have hx : ∀ i < N.height, prev i ≠ N.ptr := by
    intro i hi
    rw [hprev i hi, hN]
    exact h.lastAt_lt.ne
  rw [linkLoop_eq l.next _ _ _ hx]
  cases List.append_eq_append_iff.1 hCD with
  | inl hsplit =>
    obtain ⟨E, hC, hE⟩ := hsplit
    cases E with
    | nil =>
      rw [List.append_nil] at hC
      rw [List.nil_append] at hE
      rw [hC, ← hE]
      exact Linked.next_before (E := []) (by simpa using h) hN (by simpa using hprev)
    | cons e E =>
      obtain ⟨rfl, hB⟩ := List.cons.inj hE
      have hB : B = E ++ D := hB
      rw [hC]
      rw [hB, ← List.append_assoc] at h
      exact h.next_behind hN hprev
  | inr hsplit =>
    obtain ⟨E, rfl, rfl⟩ := hsplit
    exact h.next_before hN hprev

end

/-! ## `Insert` -/

/-- The predecessors on the levels that are new, too. -/
theorem Predecessors.raise (h : Linked cmp l (A ++ B)) {prev : Nat → Ptr}
    (hprev : Predecessors l A prev) (height : Nat) :
    ∀ i, i < height ∨ i < l.maxHeight →
      (if height > l.maxHeight then fill prev l.maxHeight height 0 else prev) i = lastAt A i := by
  intro i hi
  by_cases hlt : i < l.maxHeight
  · have hold := hprev i hlt
    split_ifs
    · rw [fill_eq, if_neg (by omega), hold]
    · exact hold
  · have hih : i < height := hi.resolve_right hlt
    have hlast : lastAt A i = 0 := by
      unfold lastAt
      rw [ptrs_eq_nil]
      · rfl
      · intro n hn
        have hheight := (h.height n (List.mem_append_left B hn)).2
        omega
    rw [if_pos (by omega), fill_eq, if_pos (by omega), hlast]

/-- The assert that the key is new. -/
theorem Linked.notDuplicate (h : Linked cmp l (A ++ B)) (hfresh : ∀ n ∈ A ++ B, n.key ≠ key) :
    notDuplicate cmp l key (firstAt B 0) = true := by
  cases hf : firstAt B 0 with
  | none => rfl
  | some p =>
    obtain ⟨n, hn, hp⟩ := firstAt_mem hf
    have hn : n ∈ A ++ B := List.mem_append_right A hn
    rw [Rocksdb.notDuplicate, ← hp, h.key n hn, equal, Bool.not_eq_true', decide_eq_false_iff_not,
      cmp.compare_eq]
    exact (hfresh n hn).symm

/-- **`Insert`**. -/
theorem insert_spec (hkey : Between cmp key A B) (h : Linked cmp l (A ++ B))
    (hcached : Cached l (A ++ B)) (hfresh : ∀ n ∈ A ++ B, n.key ≠ key) {height : Nat}
    (hheight : 1 ≤ height) :
    ∃ l', insert cmp l key height = .ok l' ∧ Linked cmp l' (A ++ ⟨l.brk, key, height⟩ :: B) ∧
      Cached l' (A ++ ⟨l.brk, key, height⟩ :: B) ∧ l'.brk = l.brk + 1 ∧
        l'.maxHeight = max l.maxHeight height := by
  obtain ⟨prev, hrun, hprev⟩ := findPrev_spec hkey h hcached
  have hraise := hprev.raise h height
  have hnext : l.next (prev 0) 0 = firstAt B 0 := by
    rw [hprev 0 h.level]
    exact h.next 0 A B rfl
  have hmax : (if height > l.maxHeight then height else l.maxHeight) = max l.maxHeight height := by
    split_ifs <;> omega
  have hmem : ∀ {n : Node Key}, n ∈ A ++ ⟨l.brk, key, height⟩ :: B → n = ⟨l.brk, key, height⟩ ∨
    n ∈ A ++ B := by
    intro n hn
    simp only [List.mem_append, List.mem_cons] at hn ⊢
    exact or_left_comm.1 hn
  have hinsert : insert cmp l key height = .ok
      { maxHeight := if height > l.maxHeight then height else l.maxHeight
        prev := Function.update (if height > l.maxHeight then fill prev l.maxHeight height 0 else
          prev) 0 l.brk
        prevHeight := height
        next := (List.range height).foldl
          (link (if height > l.maxHeight then fill prev l.maxHeight height 0 else prev) l.brk)
          l.next
        key := Function.update l.key l.brk key
        brk := l.brk + 1 } := by
    unfold insert
    rw [hrun]
    simp only [bind, Except.bind, hnext, h.notDuplicate hfresh, check, if_true]
    rfl
  refine ⟨_, hinsert, ?_, ?_, rfl, hmax⟩
  · refine ⟨fun i C D hCD => ?_, ?_, fun n hn => ?_, fun n hn => ?_, ?_, fun n hn => ?_, ?_, ?_⟩
    · exact h.next_insert (N := ⟨l.brk, key, height⟩) rfl (fun i hi => hraise i (.inl hi)) i C D hCD
    · have hnd := h.nodup
      rw [List.map_append] at hnd ⊢
      refine List.nodup_middle.2 (List.nodup_cons.2 ⟨fun hm => ?_, hnd⟩)
      rw [← List.map_append] at hm
      obtain ⟨n, hn, hp⟩ := List.mem_map.1 hm
      exact (h.bound n hn).2.ne hp
    · cases hmem hn with
      | inl he =>
        rw [he]
        exact ⟨Nat.lt_of_le_of_lt (Nat.zero_le _) h.length, Nat.lt_succ_self _⟩
      | inr hn => exact ⟨(h.bound n hn).1, Nat.lt_succ_of_lt (h.bound n hn).2⟩
    · show Function.update l.key l.brk key n.ptr = n.key
      cases hmem hn with
      | inl he =>
        rw [he]
        exact Function.update_self _ _ _
      | inr hn => rw [Function.update_of_ne (h.bound n hn).2.ne, h.key n hn]
    · obtain ⟨hAs, hBs, hAB⟩ := List.pairwise_append.1 h.sorted
      refine List.pairwise_append.2 ⟨hAs, List.pairwise_cons.2 ⟨fun n hn => ?_, hBs⟩,
        fun a ha b hb => ?_⟩
      · -- not before the key, and not the key
        have hne : cmp.compare n.key key ≠ 0 := fun h0 =>
          hfresh n (List.mem_append_right A hn) ((cmp.compare_eq _ _).1 h0)
        have hpos : 0 < cmp.compare n.key key :=
          lt_of_le_of_ne (not_lt.1 (hkey.behind n hn)) hne.symm
        exact (cmp.compare_pos _ _).1 hpos
      · cases List.mem_cons.1 hb with
        | inl he =>
          rw [he]
          exact hkey.before a ha
        | inr hb => exact hAB a ha b hb
    · show 1 ≤ n.height ∧ n.height ≤ if height > l.maxHeight then height else l.maxHeight
      rw [hmax]
      cases hmem hn with
      | inl he =>
        rw [he]
        exact ⟨hheight, le_max_right _ _⟩
      | inr hn => exact ⟨(h.height n hn).1, (h.height n hn).2.trans (le_max_left _ _)⟩
    · show 1 ≤ if height > l.maxHeight then height else l.maxHeight
      rw [hmax]
      exact h.level.trans (le_max_left _ _)
    · have hlen := h.length
      simp only [List.length_append, List.length_cons] at hlen ⊢
      omega
  · refine .inr ⟨A, _, B, rfl, ?_, rfl, fun i hi hlt => ?_⟩
    · dsimp only
      rw [Function.update_self]
    · have hlt : i < if height > l.maxHeight then height else l.maxHeight := hlt
      rw [hmax, lt_max_iff] at hlt
      dsimp only
      rw [Function.update_of_ne (Nat.one_le_iff_ne_zero.1 hi)]
      exact hraise i hlt.symm

end

/-! ## Runs -/

section
variable {Key : Type} {cmp : Comparator Key} {l : SkipList Key} {S A B : List (Node Key)} {i : Nat}

/-- The nodes that a sequence of insertions makes. -/
def inserted (ops : List (Key × Nat)) : List (Node Key) :=
  ops.zipIdx.map fun p => ⟨p.2 + 1, p.1.1, p.1.2⟩

theorem inserted_concat (ops : List (Key × Nat)) (op : Key × Nat) :
    inserted (ops ++ [op]) = inserted ops ++ [⟨ops.length + 1, op.1, op.2⟩] := by
  unfold inserted
  rw [List.zipIdx_append, List.map_append]
  simp

theorem inserted_keys (ops : List (Key × Nat)) :
    (inserted ops).map Node.key = ops.map Prod.fst := by
  induction ops using List.reverseRecOn with
  | nil => rfl
  | append_singleton ops op ih =>
    rw [inserted_concat, List.map_append, List.map_append, ih]
    rfl

/-- The nodes met on level `i` from `p` on. -/
def Follows (l : SkipList Key) (i : Nat) (p : Option Ptr) : List Ptr → Prop
  | [] => p = none
  | q :: ps => p = some q ∧ Follows l i (l.next q i) ps

theorem Linked.follows (h : Linked cmp l (A ++ B)) : Follows l i (l.next (lastAt A i) i)
    (ptrs B i) := by
  induction B generalizing A with
  | nil => exact h.next i A [] rfl
  | cons n B ih =>
    have hsplit : A ++ n :: B = (A ++ [n]) ++ B := by rw [List.append_assoc, List.singleton_append]
    have hrest := ih (A := A ++ [n]) (hsplit ▸ h)
    rw [ptrs_cons]
    by_cases hi : i < n.height
    · rw [if_pos hi]
      rw [lastAt_concat hi] at hrest
      refine ⟨?_, hrest⟩
      rw [h.next i A (n :: B) rfl, firstAt_cons hi]
    · rw [if_neg hi]
      rw [lastAt_low (by simpa using hi)] at hrest
      exact hrest

theorem run_concat (l : SkipList Key) (ops : List (Key × Nat)) (op : Key × Nat) :
    run cmp l (ops ++ [op]) = (do insert cmp (← run cmp l ops) op.1 op.2) := by
  unfold run
  rw [List.foldlM_append]
  refine congrArg _ (funext fun l' => ?_)
  rw [List.foldlM_cons]
  exact bind_pure _

theorem new_linked (any : Key) : Linked cmp (.new any) [] where
  next i A B hAB := by
    obtain ⟨rfl, rfl⟩ := List.append_eq_nil_iff.1 hAB.symm
    rfl
  nodup := List.nodup_nil
  bound := nofun
  key := nofun
  sorted := List.Pairwise.nil
  height := nofun
  level := le_refl 1
  length := Nat.zero_lt_one

/-- **All insertions** of different keys succeed. -/
theorem run_spec (any : Key) {kMaxHeight : Nat} (hmax : 1 ≤ kMaxHeight) (ops : List (Key × Nat))
    (hkeys : (ops.map Prod.fst).Nodup) (hheights : ∀ op ∈ ops, 1 ≤ op.2 ∧ op.2 ≤ kMaxHeight) :
    ∃ l S, run cmp (.new any) ops = .ok l ∧ S.Perm (inserted ops) ∧ Linked cmp l S ∧ Cached l S ∧
      l.brk = ops.length + 1 ∧ l.maxHeight ≤ kMaxHeight := by
  induction ops using List.reverseRecOn with
  | nil => exact ⟨_, [], rfl, List.Perm.nil, new_linked any, .inl ⟨rfl, rfl, rfl, rfl⟩, rfl, hmax⟩
  | append_singleton ops op ih =>
    rw [List.map_append, List.nodup_append] at hkeys
    obtain ⟨l, S, hrun, hperm, hlinked, hcached, hbrk, hlevel⟩ := ih hkeys.1 fun op hop =>
      hheights op (List.mem_append_left _ hop)
    have hop := hheights op (List.mem_append_right _ (List.mem_singleton_self op))
    have hfresh : ∀ n ∈ S, n.key ≠ op.1 := by
      intro n hn he
      have hmem : n.key ∈ (inserted ops).map Node.key := List.mem_map_of_mem (hperm.subset hn)
      rw [inserted_keys] at hmem
      exact hkeys.2.2 _ hmem _ (List.mem_singleton_self _) he
    obtain ⟨A, B, rfl, hplace⟩ := hlinked.between op.1
    obtain ⟨l', hins, hlinked', hcached', hbrk', hmax'⟩ :=
      insert_spec hplace hlinked hcached hfresh hop.1
    refine ⟨l', _, ?_, ?_, hlinked', hcached', ?_, ?_⟩
    · rw [run_concat, hrun]
      exact hins
    · rw [inserted_concat, hbrk]
      exact List.perm_middle.trans
        ((List.Perm.cons _ hperm).trans (List.perm_append_singleton _ _).symm)
    · rw [hbrk', hbrk, List.length_append, List.length_singleton]
    · rw [hmax']
      exact max_le hlevel hop.2

end

/-- **Sequential insertion**: after every sequence of insertions of different keys, the fast path
gives the predecessors that `FindLessThan` would give for every next key, each level links the
inserted nodes that are high enough in ascending order, and `Contains` finds exactly the inserted
keys. -/
theorem sequential_insertion {Key : Type} (cmp : Comparator Key) (any : Key) (kMaxHeight : Nat)
    (hmax : 1 ≤ kMaxHeight) (ops : List (Key × Nat)) (hkeys : (ops.map Prod.fst).Nodup)
    (hheights : ∀ op ∈ ops, 1 ≤ op.2 ∧ op.2 ≤ kMaxHeight) :
    ∃ (l : SkipList Key) (S : List (Node Key)), run cmp (.new any) ops = .ok l ∧
      l.maxHeight ≤ kMaxHeight ∧ (∀ key, sequential cmp l key = true →
        ∃ x prev, findLessThan cmp l key l.prev = .ok (x, prev) ∧
        ∀ i < l.maxHeight, sequentialPrev l i = prev i) ∧
      S.Perm (inserted ops) ∧ (S.Pairwise fun a b => cmp.compare a.key b.key < 0) ∧
      (∀ n ∈ S, l.key n.ptr = n.key) ∧
      (∀ i, Follows l i (l.next 0 i) ((S.filter (i < ·.height)).map Node.ptr)) ∧
      ∀ key, ∃ b, contains cmp l key = .ok b ∧ (b = true ↔ key ∈ ops.map Prod.fst) := by
  obtain ⟨l, S, hrun, hperm, hlinked, hcached, -, hlevel⟩ := run_spec any hmax ops hkeys hheights
  refine ⟨l, S, hrun, hlevel, fun key hseq => ?_, hperm, hlinked.sorted, hlinked.key, fun i => ?_,
    fun key => ?_⟩
  · obtain ⟨A, B, rfl, hplace⟩ := hlinked.between key
    obtain ⟨hprev, -⟩ := sequentialPrev_spec hplace hlinked hcached hseq
    obtain ⟨prev, hfind, hprev', -⟩ := findLessThan_spec hplace hlinked l.prev
    exact ⟨_, prev, hfind, fun i hi => (hprev i hi).trans (hprev' i hi).symm⟩
  · exact Linked.follows (A := []) hlinked
  · obtain ⟨b, hb, hiff⟩ := contains_spec hlinked key
    refine ⟨b, hb, hiff.trans ?_⟩
    rw [← inserted_keys, ← (hperm.map Node.key).mem_iff, List.mem_map]

/-- Integers in their order. -/
def intComparator : Comparator Int where
  compare a b := a - b
  compare_eq _ _ := Int.sub_eq_zero
  compare_pos _ _ := by omega
  compare_trans _ _ _ _ _ := by omega

/-- The third key goes the fast way, the fourth does not. -/
theorem sequential_insertion_sample :
    ∃ (l : SkipList Int) (S : List (Node Int)),
      run intComparator (.new 0) [(1, 1), (5, 3), (7, 2), (4, 1)] = .ok l ∧ l.maxHeight ≤ 12 ∧
      (∀ key, sequential intComparator l key = true →
        ∃ x prev, findLessThan intComparator l key l.prev = .ok (x, prev) ∧
          ∀ i < l.maxHeight, sequentialPrev l i = prev i) ∧
      S.Perm (inserted [(1, 1), (5, 3), (7, 2), (4, 1)]) ∧
      (S.Pairwise fun a b => intComparator.compare a.key b.key < 0) ∧
      (∀ n ∈ S, l.key n.ptr = n.key) ∧
      (∀ i, Follows l i (l.next 0 i) ((S.filter (i < ·.height)).map Node.ptr)) ∧
      ∀ key, ∃ b, contains intComparator l key = .ok b ∧
        (b = true ↔ key ∈ [(1, 1), (5, 3), (7, 2), (4, 1)].map Prod.fst) :=
  sequential_insertion intComparator 0 12 (by decide) [(1, 1), (5, 3), (7, 2), (4, 1)]
    (by decide) (by decide)

end Rocksdb
