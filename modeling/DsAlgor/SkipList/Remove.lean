import DsAlgor.SkipList.Linked
import DsAlgor.Lib.Rounds

/-!
# `skiplist_remove`

On each level the loop starts behind the last node of the level above, and takes out what it meets
of the key: `sweep` does this on the list of nodes (`skiplistRemove_spec`). All nodes with the key
are met if and only if none of them has a higher node with a greater key in the list
(`Reaches.sweep_eq`, `reaches_of_sweep`).
-/

namespace SkipList

open SkipRank (Ptr Link Node MAX_LEVEL INT_MAX row firstNode lastNode row_append row_cons
    headOr_row lastOr_row)
open Circular

/-! ## `__remove` -/

/-- The height of the highest node. -/
def top (S : List Node) : Nat := (S.map Node.height).foldr max 0

section
variable {l : Skiplist} {S A B : List Node} {v : Node} {i : Nat}

theorem top_le_iff : top S ≤ i ↔ ∀ n ∈ S, n.height ≤ i := by
  unfold top
  induction S with
  | nil => simp
  | cons n S ih =>
    rw [List.map_cons, List.foldr_cons, max_le_iff, ih, List.forall_mem_cons]

/-- `list_empty` tells whether a level has nodes. -/
theorem listEmpty_iff {m : Mem} (hc : Circular m.next m.prev ⟨0, i⟩ (row S i))
    (h0 : ∀ n ∈ S, 0 < n.ptr) :
    listEmpty m ⟨0, i⟩ = true ↔ top S ≤ i := by
  have hnext : m.next ⟨0, i⟩ = ⟨firstNode S i, i⟩ := by
    rw [hc.next_head, headOr_row]
  unfold listEmpty
  rw [decide_eq_true_eq, hnext, top_le_iff]
  constructor
  · intro he n hn
    by_contra hlt
    cases SkipRank.split_first (B := S) (i := i) with
    | inl hlow => exact hlt (hlow n hn)
    | inr hsplit =>
      obtain ⟨X, x, Y, hX, h1, hx⟩ := hsplit
      rw [hX, SkipRank.firstNode_append_cons h1 hx] at he
      exact (h0 x (by rw [hX]; simp)).ne' (congrArg Link.node he)
  · intro hlow
    unfold firstNode
    rw [SkipRank.ptrs_eq_nil hlow]
    rfl

theorem removeStep_mem : (removeStep v.ptr l i).mem = listDel l.mem ⟨v.ptr, i⟩ := by
  unfold removeStep
  dsimp only
  split <;> rfl

/-- The rows after the loop of `__remove`. -/
theorem removeLoop_rows {n : Nat}
    (hc : ∀ i, Circular l.mem.next l.mem.prev ⟨0, i⟩ (row (A ++ v :: B) i))
    (hnd : ∀ i, (⟨0, i⟩ :: row (A ++ v :: B) i).Nodup) (hn : n ≤ v.height) :
    let l' := (List.range n).foldl (removeStep v.ptr) l
    (∀ i < n, Circular l'.mem.next l'.mem.prev ⟨0, i⟩ (row (A ++ B) i)) ∧
    ∀ i ≥ n, AgreeAt i l.mem l'.mem :=
  @foldl_rounds Skiplist (fun i s s' => AgreeAt i s.mem s'.mem) (removeStep v.ptr)
    (fun i s => Circular s.mem.next s.mem.prev ⟨0, i⟩ (row (A ++ B) i))
    (fun i s => AgreeAt.refl i s.mem)
    (fun _ _ _ _ h h' => h.trans h') (fun _ _ _ h hcirc => h.circular hcirc) l n fun i hi s hs => by
      obtain ⟨hdel, hagree⟩ := listDel_spec (hs.circular (hc i)) (hnd i) (hi.trans_le hn)
      rw [removeStep_mem]
      exact ⟨hdel, hagree⟩

/-- What the loop leaves as it is, and the level of the list after it. -/
theorem removeLoop_level {n : Nat}
    (hc : ∀ i, Circular l.mem.next l.mem.prev ⟨0, i⟩ (row (A ++ v :: B) i))
    (hnd : ∀ i, (⟨0, i⟩ :: row (A ++ v :: B) i).Nodup) (h0 : ∀ n ∈ A ++ B, 0 < n.ptr)
    (hn : n ≤ v.height) :
    let l' := (List.range n).foldl (removeStep v.ptr) l
    l'.level = l.level - (n - top (A ++ B)) ∧ l'.count = l.count ∧ SameNodes l.mem l'.mem := by
  induction n with
  | zero =>
    refine ⟨?_, rfl, SameNodes.refl _⟩
    rw [Nat.zero_sub]
    rfl
  | succ n ih =>
    obtain ⟨hlevel, hcount, hsame⟩ := ih (Nat.le_of_succ_le hn)
    obtain ⟨hrows, -⟩ := removeLoop_rows hc hnd hn
    have hrow := hrows n (Nat.lt_succ_self n)
    rw [List.range_succ, List.foldl_append] at hrow ⊢
    simp only [List.foldl_cons, List.foldl_nil] at hrow ⊢
    generalize (List.range n).foldl (removeStep v.ptr) l = l₁ at hlevel hcount hsame hrow ⊢
    have hempty := listEmpty_iff hrow h0
    rw [removeStep_mem] at hempty
    have hsame' : SameNodes l₁.mem (removeStep v.ptr l₁ n).mem := by
      rw [removeStep_mem]
      exact ⟨rfl, rfl, rfl, rfl⟩
    refine ⟨?_, ?_, hsame.trans hsame'⟩
    · unfold removeStep
      dsimp only
      by_cases htop : top (A ++ B) ≤ n
      · rw [if_pos (hempty.2 htop)]
        show l₁.level - 1 = _
        omega
      · rw [if_neg fun he => htop (hempty.1 he)]
        show l₁.level = _
        omega
    · unfold removeStep
      dsimp only
      split <;> exact hcount

/-- **`__remove`** of a node of the list. -/
theorem remove_spec (h : Linked l (A ++ v :: B)) :
    Linked (remove l v.ptr v.height) (A ++ B) ∧ (remove l v.ptr v.height).mem.key = l.mem.key ∧
      (remove l v.ptr v.height).mem.value = l.mem.value ∧ (remove l v.ptr v.height).mem.brk =
      l.mem.brk := by
  have hsub : (A ++ B).Sublist (A ++ v :: B) :=
    List.Sublist.append (List.Sublist.refl A) (List.sublist_cons_self v B)
  have hv : v ∈ A ++ v :: B := List.mem_append_right _ List.mem_cons_self
  have hmem : ∀ {n : Node}, n ∈ A ++ v :: B → n = v ∨ n ∈ A ++ B := by
    intro n hn
    simp only [List.mem_append, List.mem_cons] at hn ⊢
    exact or_left_comm.1 hn
  have hne : ∀ n ∈ A ++ B, n.ptr ≠ v.ptr := by
    intro n hn he
    have hnd := h.nodup
    rw [List.map_append, List.map_cons] at hnd
    have hnot := (List.nodup_cons.1 (List.nodup_middle.1 hnd)).1
    rw [← List.map_append] at hnot
    exact hnot (he ▸ List.mem_map_of_mem hn)
  have h0 : ∀ n ∈ A ++ B, 0 < n.ptr := fun n hn => (h.bound n (hsub.subset hn)).1
  obtain ⟨hrows, hagree⟩ := removeLoop_rows (n := v.height) h.circular h.row_nodup le_rfl
  obtain ⟨hlevel, hcount, hsame⟩ :=
    removeLoop_level (n := v.height) h.circular h.row_nodup h0 le_rfl
  have htop : top (A ++ B) ≤ l.level := top_le_iff.2 fun n hn => (h.height n (hsub.subset hn)).2
  have hvl := (h.height v hv).2
  unfold remove
  generalize (List.range v.height).foldl (removeStep v.ptr) l =
    l' at hrows hagree hlevel hcount hsame ⊢
  refine ⟨⟨fun i => ?_, h.nodup.sublist (hsub.map _), fun n hn => ?_, fun n hn => ?_,
    h.sorted.sublist hsub, fun n hn => ⟨(h.height n (hsub.subset hn)).1, ?_⟩, ?_, ?_, ?_, ?_, ?_,
    ?_⟩, hsame.key, hsame.value, hsame.brk⟩
  · by_cases hi : i < v.height
    · exact hrows i hi
    · have hrow : row (A ++ B) i = row (A ++ v :: B) i := by
        rw [row_append, row_append, row_cons, if_neg hi]
      rw [hrow]
      exact (hagree i (not_lt.1 hi)).circular (h.circular i)
  · show 0 < n.ptr ∧ n.ptr < l'.mem.brk
    rw [hsame.brk]
    exact h.bound n (hsub.subset hn)
  · show l'.mem.key n.ptr = n.key
    rw [hsame.key]
    exact h.key n (hsub.subset hn)
  · show n.height ≤ l'.level
    have hle := top_le_iff.1 le_rfl n hn
    omega
  · show l'.level ≤ MAX_LEVEL
    have := h.level
    omega
  · show l'.count - 1 = _
    rw [hcount, h.count]
    simp only [List.length_append, List.length_cons]
    push_cast
    omega
  · show l'.count - 1 ≤ _
    have := h.countMax
    omega
  · show 0 < l'.mem.brk
    rw [hsame.brk]
    exact h.brk
  · show (v.ptr :: l'.mem.freed).Nodup
    rw [hsame.freed]
    refine List.nodup_cons.2 ⟨fun hm => ?_, h.freed.1⟩
    exact ((h.freed.2 v.ptr).1 hm).2.2 v hv rfl
  · intro p
    show p ∈ v.ptr :: l'.mem.freed ↔ 0 < p ∧ p < l'.mem.brk ∧ _
    rw [hsame.freed, hsame.brk, List.mem_cons, h.freed.2]
    constructor
    · intro hp
      cases hp with
      | inl hp =>
        rw [hp]
        exact ⟨(h.bound v hv).1, (h.bound v hv).2, hne⟩
      | inr hp => exact ⟨hp.1, hp.2.1, fun n hn => hp.2.2 n (hsub.subset hn)⟩
    · intro hp
      by_cases he : p = v.ptr
      · exact .inl he
      · refine .inr ⟨hp.1, hp.2.1, fun n hn => ?_⟩
        cases hmem hn with
        | inl hn =>
          rw [hn]
          exact Ne.symm he
        | inr hn => exact hp.2.2 n hn

end

/-! ## The loops -/

/-- The nodes that a loop over level `i` leaves of the nodes it goes over. -/
def purge (key : Int) (i : Nat) (R : List Node) : List Node :=
  R.filter fun n => ¬ (i < n.height ∧ n.key = key)

/-- The nodes up to the last one that is also on the level above `i`. -/
def upTo (i : Nat) (S : List Node) : List Node := S.rdropWhile (·.height ≤ i + 1)

/-- The nodes behind it. -/
def behind (i : Nat) (S : List Node) : List Node := S.rtakeWhile (·.height ≤ i + 1)

/-- The nodes that the loops over the levels below `i` leave: each level is entered behind the last
node of the level above. -/
def sweep (key : Int) : Nat → List Node → List Node
  | 0, S => S
  | i + 1, S => sweep key i (upTo i S ++ purge key i (behind i S))

section
variable {l : Skiplist} {S A R : List Node} {key : Int} {i : Nat}

/-- A change of the list that only takes out nodes. -/
structure Shrunk (l l' : Skiplist) : Prop where
  key : l'.mem.key = l.mem.key
  value : l'.mem.value = l.mem.value
  brk : l'.mem.brk = l.mem.brk

theorem Shrunk.refl (l : Skiplist) : Shrunk l l := ⟨rfl, rfl, rfl⟩

theorem Shrunk.trans {l' l'' : Skiplist} (h : Shrunk l l') (h' : Shrunk l' l'') : Shrunk l l'' :=
  ⟨h'.key.trans h.key, h'.value.trans h.value, h'.brk.trans h.brk⟩

/-- The loop over level `i`, from its first node in `R` on. -/
theorem removeLevel_spec : ∀ (R : List Node) {A : List Node} {l : Skiplist} {fuel : Nat},
    Linked l (A ++ R) → (∀ n ∈ R, n.height ≤ i + 1) → R.length < fuel →
    ∃ l', removeLevel key i fuel l ⟨firstNode R i, i⟩
      (l.mem.next ⟨firstNode R i, i⟩) ⟨0, i⟩ = some l' ∧ Linked l' (A ++ purge key i R) ∧
      Shrunk l l'
  | [], A, l, fuel + 1, h, _, _ => ⟨l, if_pos rfl, h, Shrunk.refl l⟩
  | r :: R, A, l, fuel + 1, h, hlow, hfuel => by
    have hr : r ∈ A ++ r :: R := List.mem_append_right _ List.mem_cons_self
    have hlow' : ∀ n ∈ R, n.height ≤ i + 1 := fun n hn => hlow n (List.mem_cons_of_mem _ hn)
    have hsplit : A ++ r :: R = (A ++ [r]) ++ R := by rw [List.append_assoc, List.singleton_append]
    have hfuel' : R.length < fuel := Nat.lt_of_succ_lt_succ hfuel
    by_cases hi : i < r.height
    · -- the loop is at `r`
      have hfirst : firstNode (r :: R) i = r.ptr :=
        SkipRank.firstNode_append_cons (A := []) nofun hi
      have hnext : l.mem.next ⟨r.ptr, i⟩ = ⟨firstNode R i, i⟩ := by
        have hc := h.circular i
        rw [row_append, row_cons, if_pos hi] at hc
        rw [hc.next_mid, headOr_row]
      have hend : (⟨r.ptr, i⟩ : Link) ≠ ⟨0, i⟩ :=
        fun he => (h.bound r hr).1.ne' (congrArg Link.node he)
      have hheight : r.height = i + 1 := le_antisymm (hlow r List.mem_cons_self) hi
      rw [hfirst, hnext]
      by_cases hkey : r.key = key
      · have hpurge : purge key i (r :: R) = purge key i R :=
          List.filter_cons_of_neg (by simp [hi, hkey])
        obtain ⟨hl₁, hk₁, hv₁, hb₁⟩ := remove_spec h
        obtain ⟨l', hrun, hl', hshrunk⟩ := removeLevel_spec R hl₁ hlow' hfuel'
        refine ⟨l', ?_, hpurge ▸ hl', Shrunk.trans ⟨hk₁, hv₁, hb₁⟩ hshrunk⟩
        unfold removeLevel
        rw [if_neg hend]
        simp only [h.key r hr, hkey, if_true]
        rw [hheight] at hrun
        exact hrun
      · have hpurge : purge key i (r :: R) = r :: purge key i R :=
          List.filter_cons_of_pos (by simp [hkey])
        rw [hsplit] at h
        obtain ⟨l', hrun, hl', hshrunk⟩ := removeLevel_spec R h hlow' hfuel'
        refine ⟨l', ?_, ?_, hshrunk⟩
        · unfold removeLevel
          rw [if_neg hend]
          rw [hsplit] at hr
          simp only [h.key r hr, hkey, if_false]
          exact hrun
        · rw [hpurge]
          simpa using hl'
    · -- `r` is not on the level
      have hfirst : firstNode (r :: R) i = firstNode R i := by
        unfold firstNode
        rw [SkipRank.ptrs_cons, if_neg hi]
      have hpurge : purge key i (r :: R) = r :: purge key i R :=
        List.filter_cons_of_pos (by simp [hi])
      rw [hsplit] at h
      obtain ⟨l', hrun, hl', hshrunk⟩ := removeLevel_spec R h hlow' (Nat.lt_succ_of_lt hfuel')
      rw [hfirst, hpurge]
      refine ⟨l', hrun, ?_, hshrunk⟩
      simpa using hl'

theorem upTo_append_behind : upTo i S ++ behind i S = S := List.rdropWhile_append_rtakeWhile

theorem sweep_sublist : ∀ (i : Nat) (S : List Node), (sweep key i S).Sublist S
  | 0, S => List.Sublist.refl S
  | i + 1, S => by
    have hlevel : (upTo i S ++ purge key i (behind i S)).Sublist S := by
      conv_rhs => rw [← upTo_append_behind (i := i) (S := S)]
      exact List.Sublist.append_left List.filter_sublist _
    exact (sweep_sublist i _).trans hlevel

theorem behind_low {n : Node} (h : n ∈ behind i S) : n.height ≤ i + 1 := by
  have hn := List.mem_rtakeWhile_imp h
  exact of_decide_eq_true hn

theorem upTo_concat (n : Node) : upTo i (S ++ [n]) = if n.height ≤ i + 1 then upTo i S else S ++
    [n] := by
  unfold upTo
  rw [List.rdropWhile_concat]
  simp only [decide_eq_true_eq]

/-- The last node of `upTo i S` is on the level above. -/
theorem upTo_cases : upTo i S = [] ∨ ∃ X z, upTo i S = X ++ [z] ∧ i + 1 < z.height := by
  induction S using List.reverseRecOn with
  | nil => exact .inl rfl
  | append_singleton S n ih =>
    rw [upTo_concat]
    by_cases hn : n.height ≤ i + 1
    · rw [if_pos hn]
      exact ih
    · rw [if_neg hn]
      exact .inr ⟨S, n, rfl, not_le.1 hn⟩

/-- Where level `i` is entered from the level above it. -/
theorem lastNode_upTo : lastNode S (i + 1) = lastNode (upTo i S) i := by
  have hlow : lastNode S (i + 1) = lastNode (upTo i S) (i + 1) := by
    conv_lhs => rw [← upTo_append_behind (i := i) (S := S)]
    unfold lastNode
    rw [SkipRank.ptrs_append, SkipRank.ptrs_eq_nil fun n hn => behind_low hn, List.append_nil]
  rw [hlow]
  cases upTo_cases (i := i) (S := S) with
  | inl hnil =>
    rw [hnil]
    rfl
  | inr hlast =>
    obtain ⟨X, z, hX, hz⟩ := hlast
    rw [hX]
    unfold lastNode
    rw [SkipRank.ptrs_append, SkipRank.ptrs_append, SkipRank.ptrs_cons,
      SkipRank.ptrs_cons, if_pos hz, if_pos (Nat.lt_of_succ_lt hz), SkipRank.ptrs_nil,
      SkipRank.ptrs_nil, lastOr_concat, lastOr_concat]

theorem removeLevels_spec : ∀ (i : Nat) {l : Skiplist} {S : List Node}, Linked l S →
    ∃ l', removeLevels key i l ⟨lastNode S i, i - 1⟩ ⟨0, i - 1⟩ = .ok l' ∧ Linked l'
      (sweep key i S) ∧ Shrunk l l'
  | 0, l, S, h => ⟨l, rfl, h, Shrunk.refl l⟩
  | i + 1, l, S, h => by
    have hpos : l.mem.next ⟨lastNode S (i + 1), i⟩ = ⟨firstNode (behind i S) i, i⟩ := by
      have hc := h.circular i
      rw [← upTo_append_behind (i := i) (S := S), row_append] at hc
      rw [lastNode_upTo, ← lastOr_row, hc.next_eq, headOr_row]
    have hfuel : (behind i S).length < l.mem.brk :=
      lt_of_le_of_lt (List.rtakeWhile_suffix _ _).length_le h.length_lt
    have hsplit : Linked l (upTo i S ++ behind i S) := by
      rw [upTo_append_behind]
      exact h
    obtain ⟨l₁, hrun₁, h₁, hshrunk₁⟩ :=
      removeLevel_spec (behind i S) hsplit (fun n hn => behind_low hn) hfuel
    obtain ⟨l', hrun, h', hshrunk⟩ := removeLevels_spec i h₁
    refine ⟨l', ?_, h', hshrunk₁.trans hshrunk⟩
    have hprev : l₁.mem.prev ⟨0, i⟩ = ⟨lastNode (upTo i S ++ purge key i (behind i S)) i, i⟩ := by
      have hc := h₁.circular i
      rw [← List.append_nil (row _ i)] at hc
      exact hc.prev_eq.trans lastOr_row
    simp only [removeLevels, Nat.add_sub_cancel, hpos, hrun₁, hprev]
    exact hrun

/-- **`skiplist_remove`** on the list of nodes. -/
theorem skiplistRemove_spec (h : Linked l S) (key : Int) :
    ∃ l', skiplistRemove l key = .ok l' ∧ Linked l' (sweep key l.level S) ∧ Shrunk l l' := by
  have hlast : lastNode S l.level = 0 := by
    unfold lastNode
    rw [SkipRank.ptrs_eq_nil fun n hn => (h.height n hn).2]
    rfl
  have hspec := @removeLevels_spec key l.level l S h
  rw [hlast] at hspec
  exact hspec

/-! ## Which nodes are met -/

/-- No node with a greater key is higher than a node with the key. -/
def Reaches (S : List Node) (key : Int) : Prop :=
  ∀ x ∈ S, ∀ y ∈ S, x.key = key → key < y.key → y.height ≤ x.height

theorem mem_purge {n : Node} : n ∈ purge key i S ↔ n ∈ S ∧ (n.key = key → n.height ≤ i) := by
  unfold purge
  rw [List.mem_filter, decide_eq_true_eq]
  refine and_congr_right fun _ => ⟨fun h hk => ?_, fun h hn => ?_⟩
  · exact not_lt.1 fun hlt => h ⟨hlt, hk⟩
  · exact absurd hn.1 (not_lt.2 (h hn.2))

theorem purge_append (X Y : List Node) : purge key i (X ++ Y) = purge key i X ++ purge key i Y :=
  List.filter_append X Y

theorem purge_eq_self (h : ∀ n ∈ S, n.key = key → n.height ≤ i) : purge key i S = S := by
  unfold purge
  refine List.filter_eq_self.2 fun n hn => decide_eq_true fun hc => ?_
  exact absurd hc.1 (not_lt.2 (h n hn hc.2))

theorem purge_zero (h : ∀ n ∈ S, 1 ≤ n.height) : purge key 0 S = S.filter (·.key ≠ key) := by
  unfold purge
  refine List.filter_congr fun n hn => ?_
  have hpos : 0 < n.height := h n hn
  simp [hpos]

theorem purge_purge : purge key i (purge key (i + 1) S) = purge key i S := by
  unfold purge
  rw [List.filter_filter]
  refine List.filter_congr fun n _ => ?_
  rw [← Bool.decide_and, decide_eq_decide]
  refine ⟨fun h => h.1, fun h => ⟨h, fun hc => h ⟨Nat.lt_of_succ_lt hc.1, hc.2⟩⟩⟩

/-- Behind a node with the key that is on level `i` there is no node on the level above, when all
higher ones with the key are gone. -/
theorem Reaches.upTo (h : Reaches S key) (hsorted : S.Pairwise (·.key ≤ ·.key)) :
    purge key i (upTo i (purge key (i + 1) S)) = SkipList.upTo i (purge key (i + 1) S) := by
  cases upTo_cases (i := i) (S := purge key (i + 1) S) with
  | inl hnil =>
    rw [hnil]
    rfl
  | inr hlast =>
    obtain ⟨X, z, hX, hz⟩ := hlast
    have hpre : (X ++ [z]).Sublist (purge key (i + 1) S) :=
      hX ▸ (List.rdropWhile_prefix _ _).sublist
    have hzmem := mem_purge.1 (hpre.subset (List.mem_append_right X (List.mem_singleton_self z)))
    have hzkey : z.key ≠ key := fun hk => absurd (hzmem.2 hk) (not_le.2 hz)
    rw [hX]
    refine purge_eq_self fun n hn hk => ?_
    cases List.mem_append.1 hn with
    | inl hn =>
      have hnmem := mem_purge.1 (hpre.subset (List.mem_append_left [z] hn))
      have hle : n.key ≤ z.key := by
        have hs := (hsorted.filter _).sublist hpre
        exact (List.pairwise_append.1 hs).2.2 n hn z (List.mem_singleton_self z)
      have hlt : key < z.key := lt_of_le_of_ne (hk ▸ hle) hzkey.symm
      have hheight := h n hnmem.1 z hzmem.1 hk hlt
      have hnle := hnmem.2 hk
      omega
    | inr hn => exact absurd (List.mem_singleton.1 hn ▸ hk) hzkey

/-- The loop over level `i` takes out all nodes with the key of this height. -/
theorem Reaches.level (h : Reaches S key) (hsorted : S.Pairwise (·.key ≤ ·.key)) :
    SkipList.upTo i (purge key (i + 1) S) ++ purge key i (behind i (purge key (i + 1) S)) =
      purge key i S := by
  calc SkipList.upTo i (purge key (i + 1) S) ++ purge key i (behind i (purge key (i + 1) S))
      = purge key i (SkipList.upTo i (purge key (i + 1) S)) ++ purge key i
          (behind i (purge key (i + 1) S)) := by
        rw [h.upTo hsorted]
    _ = purge key i (purge key (i + 1) S) := by rw [← purge_append, upTo_append_behind]
    _ = purge key i S := purge_purge

theorem Reaches.sweep (h : Reaches S key) (hsorted : S.Pairwise (·.key ≤ ·.key)) :
    ∀ i, SkipList.sweep key i (purge key i S) = purge key 0 S
  | 0 => rfl
  | i + 1 => by
    unfold SkipList.sweep
    rw [h.level hsorted]
    exact h.sweep hsorted i

/-- A node with the key stays when a higher one with another key is behind it. -/
theorem sublist_sweep {x y : Node} (hy : y.key ≠ key) (hxy : x.height < y.height) :
    ∀ (i : Nat) {S : List Node}, [x, y].Sublist S → [x, y].Sublist (sweep key i S)
  | 0, S, h => h
  | i + 1, S, h => by
    refine sublist_sweep hy hxy i ?_
    by_cases hlow : y.height ≤ i + 1
    · -- neither of them is taken out
      have hself : purge key i [x, y] = [x, y] := by
        refine purge_eq_self fun n hn hk => ?_
        cases List.mem_cons.1 hn with
        | inl he =>
          rw [he]
          omega
        | inr hn => exact absurd (List.mem_singleton.1 hn ▸ hk) hy
      have hpurge : (purge key i [x, y]).Sublist (purge key i S) := h.filter _
      rw [hself, ← upTo_append_behind (i := i) (S := S), purge_append] at hpurge
      exact hpurge.trans (List.Sublist.append_right List.filter_sublist _)
    · -- the loop starts behind `y`
      rw [← upTo_append_behind (i := i) (S := S)] at h
      obtain ⟨X, Y, hXY, hX, hY⟩ := List.sublist_append_iff.1 h
      have hnil : Y = [] := by
        cases Y using List.reverseRecOn with
        | nil => rfl
        | append_singleton Y z _ =>
          have hz : y = z := by
            have hlast := congrArg List.getLast? hXY
            rw [← List.append_assoc, List.getLast?_concat] at hlast
            exact Option.some.inj hlast
          exact absurd
            (hz ▸ behind_low (hY.subset (List.mem_append_right Y (List.mem_singleton_self z)))) hlow
      rw [hXY, hnil, List.append_nil]
      exact hX.trans (List.sublist_append_left _ _)

/-- **All nodes with the key are taken out** only if none of them has a higher node with a greater
key. -/
theorem reaches_of_sweep (hsorted : S.Pairwise (·.key ≤ ·.key))
    (h : ∀ n ∈ sweep key i S, n.key ≠ key) :
    Reaches S key := by
  intro x hx y hy hxk hky
  by_contra hlt
  have hpair : [x, y].Sublist S := by
    obtain ⟨A, B, hAB⟩ := List.append_of_mem hx
    rw [hAB] at hy hsorted ⊢
    have hyB : y ∈ B := by
      cases List.mem_append.1 hy with
      | inl hyA =>
        have := (List.pairwise_append.1 hsorted).2.2 y hyA x List.mem_cons_self
        omega
      | inr hy =>
        cases List.mem_cons.1 hy with
        | inl he =>
          rw [he] at hky
          omega
        | inr hy => exact hy
    exact (List.Sublist.cons_cons x (List.singleton_sublist.2 hyB)).trans
      (List.sublist_append_right A _)
  exact h x ((sublist_sweep hky.ne' (not_le.1 hlt) i hpair).subset List.mem_cons_self) hxk

/-- They are taken out then, and no other node is. -/
theorem Reaches.sweep_eq (h : Reaches S key) (hsorted : S.Pairwise (·.key ≤ ·.key))
    (hlow : ∀ n ∈ S, 1 ≤ n.height ∧ n.height ≤ i) : SkipList.sweep key i S = S.filter
    (·.key ≠ key) := by
  have hsweep := h.sweep hsorted i
  rw [purge_eq_self fun n hn _ => (hlow n hn).2, purge_zero fun n hn => (hlow n hn).1] at hsweep
  exact hsweep

end

end SkipList
