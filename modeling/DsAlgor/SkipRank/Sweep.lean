import DsAlgor.SkipRank.Range

/-!
# Removals while the levels are walked

`remove_in_range` and `remove_in_rank` walk along the levels from the top and take nodes out on
their way. What they do at a node depends on its key or on its span on its highest level, and these
stay as they are until the walk comes to the node. So the nodes that remain are those of `sweep`,
which reads no links (`sweepLevels_spec`).
-/

namespace SkipRank

open Circular

/-! ## The code -/

/-- What the body of a loop does at a node. -/
inductive Verdict (σ : Type)
  /-- The node is the new `end`. -/
  | stop
  | remove
  | keep (s : σ)

/-- The variables of a removal. -/
structure Removal (σ : Type) where
  list : Skiplist
  update : Nat → Link
  removed : BitVec 32
  state : σ

/-- What `__remove` leaves in `update`. -/
def removeUpdate (l : Skiplist) (node : Ptr) (level : Nat) (update : Nat → Link) : Nat → Link :=
  ((List.range l.level).foldl (removeStep l.level node level) ⟨l.mem, update, l.level⟩).update

section
variable {σ : Type}

/-- The loop over level `i`: `skiplist_foreach_forward_safe`, which has read the next link `n`
before the body frees the node. The variables and the new `end`. -/
def sweepLevel (judge : Mem → Link → σ → Verdict σ) (i : Nat) :
    Nat → Removal σ → Link → Link → Link → Option (Removal σ × Link)
  | 0, _, _, _, _ => none
  | fuel + 1, s, pos, n, end_ =>
    if pos = end_ then some (s, end_)
    else
      match judge s.list.mem pos s.state with
      | .stop => some (s, pos)
      | .remove =>
        let s : Removal σ :=
          { list := remove s.list pos.node (i + 1) s.update
            update := removeUpdate s.list pos.node (i + 1) s.update
            removed := s.removed + 1
            state := s.state }
        sweepLevel judge i fuel s n (s.list.mem.next n) end_
      | .keep state =>
        let s : Removal σ := { s with state := state }
        sweepLevel judge i fuel s n (s.list.mem.next n) end_

/-- The levels below `i`, from the top. -/
def sweepLevels (judge : Mem → Link → σ → Verdict σ) :
    Nat → Removal σ → Link → Link → Except Fault (Skiplist × BitVec 32)
  | 0, s, _, _ => .ok (s.list, s.removed)
  | i + 1, s, pos, end_ =>
    let pos := s.list.mem.next pos
    match sweepLevel judge i s.list.mem.brk s pos (s.list.mem.next pos) end_ with
    | none => .error .loop
    | some (s, end_) =>
      let s : Removal σ := { s with update := Function.update s.update i end_ }
      sweepLevels judge i s (s.list.mem.prev end_).dec end_.dec

/-- From the highest level. -/
def sweepList (judge : Mem → Link → σ → Verdict σ) (l : Skiplist) (state : σ) :
    Except Fault (Skiplist × BitVec 32) :=
  let head : Link := ⟨0, l.level - 1⟩
  sweepLevels judge l.level ⟨l, fun _ => head, 0, state⟩ head head

/-! ## The nodes -/

/-- What a loop over a level leaves: the nodes up to the new end, those from it on, and the number
of the removed ones. -/
structure Swept (σ : Type) where
  state : σ
  kept : List Node
  rest : List Node
  removed : Nat

def sweepNodes (judge : Node → σ → Verdict σ) (i : Nat) : σ → List Node → Swept σ
  | s, [] => ⟨s, [], [], 0⟩
  | s, n :: M =>
    if n.height ≤ i then
      let r := sweepNodes judge i s M
      { r with kept := n :: r.kept }
    else
      match judge n s with
      | .stop => ⟨s, [], n :: M, 0⟩
      | .remove =>
        let r := sweepNodes judge i s M
        { r with removed := r.removed + 1 }
      | .keep s =>
        let r := sweepNodes judge i s M
        { r with kept := n :: r.kept }

/-- The nodes up to the last one of level `i`. -/
def upTo (i : Nat) (S : List Node) : List Node := S.rdropWhile (·.height ≤ i)

/-- The nodes behind the last one of level `i`. -/
def behind (i : Nat) (S : List Node) : List Node := S.rtakeWhile (·.height ≤ i)

/-- The levels below `i`, from the top: the nodes that remain and the number of the others. -/
def sweep (judge : Node → σ → Verdict σ) : Nat → σ → List Node → List Node × Nat
  | 0, _, M => (M, 0)
  | i + 1, s, M =>
    let r := sweepNodes judge i s M
    let b := sweep judge i r.state (behind i r.kept)
    (upTo i r.kept ++ b.1 ++ r.rest, r.removed + b.2)

end

/-! ## One removal -/

section
variable {l : Skiplist} {A B : List Node} {v : Node} {update : Nat → Link} {i : Nat}

theorem removeSteps_update (update : Nat → Link) {L n : Nat} (m₀ : Mem) : ∀ k, v.height ≤ k →
    ((List.range n).foldl (removeStep L v.ptr v.height) ⟨m₀, update, L⟩).update k = update k := by
  induction n with
  | zero => exact fun _ _ => rfl
  | succ n ih =>
    intro k hk
    rw [List.range_succ, List.foldl_append]
    show (removeStep L v.ptr v.height _ n).update k = update k
    by_cases hn : n < v.height
    · rw [(removeStep_low hn).2, Function.update_of_ne (by omega)]
      exact ih k hk
    · rw [(removeStep_high (not_lt.1 hn)).2]
      exact ih k hk

/-- What stays as it is when a node is taken out. -/
theorem remove_frame (h : Linked l (A ++ v :: B))
    (hu : ∀ k, v.height ≤ k → k < l.level → update k = ⟨firstNode B k, k⟩) :
    (remove l v.ptr v.height update).mem.key = l.mem.key ∧
      (remove l v.ptr v.height update).mem.brk = l.mem.brk ∧
      (remove l v.ptr v.height update).level ≤ l.level ∧
      ∀ k < v.height, ∀ p ≠ v.ptr,
        (remove l v.ptr v.height update).mem.span ⟨p, k⟩ = l.mem.span ⟨p, k⟩ := by
  have hsub : (A ++ B).Sublist (A ++ v :: B) := by simp
  obtain ⟨hin, hge⟩ := removeLoop_spec (L := l.level) h.circular h.row_nodup hu
  obtain ⟨-, hle, -⟩ := removeLoop_remain h.circular h.row_nodup
    (fun n hn => (h.bound n (hsub.subset hn)).1) h.level.1
    (fun n hn => (h.height n (hsub.subset hn)).2) l.level le_rfl hu
  have h0 := (hge l.level le_rfl).1
  refine ⟨h0.key, h0.brk, hle, fun k hk p hp => ?_⟩
  exact (hin k (hk.trans_le (h.height v (by simp)).2)).low hk p hp

end

/-! ## One level -/

section
variable {σ : Type} {judge : Mem → Link → σ → Verdict σ} {judge' : Node → σ → Verdict σ}
  {P Q M : List Node} {i : Nat}

/-- A verdict reads the key and the span. -/
def Local (judge : Mem → Link → σ → Verdict σ) : Prop :=
  ∀ m m' q st, m.key q.node = m'.key q.node → m.span q = m'.span q → judge m q st = judge m' q st

/-- The verdict on the nodes, on their highest levels. -/
def Judges (judge : Mem → Link → σ → Verdict σ) (judge' : Node → σ → Verdict σ) (m : Mem)
    (M : List Node) : Prop :=
  ∀ n ∈ M, ∀ st, judge m ⟨n.ptr, n.height - 1⟩ st = judge' n st

/-- The nodes behind the place where the walk over level `i` ends. -/
def EndsAt (Q : List Node) (i : Nat) : Prop := Q = [] ∨ ∃ q Q', Q = q :: Q' ∧ i < q.height

/-- The links that are saved for the levels from `i` on. -/
def Saved (s : Removal σ) (Q : List Node) (i : Nat) : Prop :=
  ∀ k, i ≤ k → k < s.list.level → s.update k = ⟨firstNode Q k, k⟩

theorem EndsAt.firstNode (h : EndsAt Q (i + 1)) :
    SkipRank.firstNode Q i = SkipRank.firstNode Q (i + 1) := by
  cases h with
  | inl hnil =>
    rw [hnil]
    rfl
  | inr hcons =>
    obtain ⟨q, Q', rfl, hq⟩ := hcons
    have hlow : SkipRank.firstNode (q :: Q') i = q.ptr :=
      firstNode_append_cons (List.forall_mem_nil _) (Nat.lt_of_succ_lt hq)
    have hhigh : SkipRank.firstNode (q :: Q') (i + 1) = q.ptr :=
      firstNode_append_cons (List.forall_mem_nil _) hq
    rw [hlow, hhigh]

/-- Taking out a node does not change the verdicts on nodes that are not higher. -/
theorem Judges.remove (hlocal : Local judge) {l : Skiplist} {v : Node} {update : Nat → Link}
    {A B : List Node} (h : Linked l (A ++ v :: B))
    (hu : ∀ k, v.height ≤ k → k < l.level → update k = ⟨SkipRank.firstNode B k, k⟩)
    (hM : ∀ n ∈ M, n.height ≤ v.height ∧ n.ptr ≠ v.ptr ∧ 1 ≤ n.height)
    (hj : Judges judge judge' l.mem M) :
    Judges judge judge' (SkipRank.remove l v.ptr v.height update).mem M := by
  obtain ⟨hkey, -, -, hspan⟩ := remove_frame h hu
  intro n hn st
  obtain ⟨hle, hne, hpos⟩ := hM n hn
  rw [← hj n hn st]
  exact hlocal _ _ _ st (congrFun hkey _) (hspan _ (by omega) _ hne)

/-- Below level `i`, between the nodes `P` and `Q`: the walk has kept `K`, and `M` is left. -/
structure Sweeping (judge : Mem → Link → σ → Verdict σ) (judge' : Node → σ → Verdict σ)
    (i : Nat) (P K M Q : List Node) (s : Removal σ) : Prop where
  linked : Linked s.list (P ++ (K ++ (M ++ Q)))
  height : ∀ n ∈ K ++ M, n.height ≤ i
  saved : Saved s Q i
  judges : Judges judge judge' s.list.mem (K ++ M)

section
variable {s : Removal σ} {K : List Node} {n : Node}

section
variable (h : Sweeping judge judge' (i + 1) P K (n :: M) Q s)
include h

/-- A node that stays. -/
theorem Sweeping.keep (state : σ) :
    Sweeping judge judge' (i + 1) P (K ++ [n]) M Q { s with state := state } where
  linked := by
    have := h.linked
    simpa using this
  height := by
    have := h.height
    simpa using this
  saved := h.saved
  judges := by
    have := h.judges
    rw [List.append_assoc]
    exact this

/-- What follows a node of the level. -/
theorem Sweeping.next (hn : i < n.height) :
    s.list.mem.next ⟨n.ptr, i⟩ = ⟨firstNode (M ++ Q) i, i⟩ := by
  have hc := h.linked.circular i
  rw [← List.append_assoc, List.cons_append, row_append, row_cons, if_pos hn] at hc
  rw [hc.next_mid, headOr_row]

/-- The walk is not at its end. -/
theorem Sweeping.ne_end : n.ptr ≠ firstNode Q (i + 1) := by
  have hsplit : P ++ (K ++ (n :: M ++ Q)) = (P ++ K ++ n :: M) ++ Q := by simp
  have hnd := h.linked.nodup
  have h0 := fun m hm => (h.linked.bound m hm).1
  rw [hsplit] at hnd h0
  exact ne_firstNode hnd h0 (by simp)

end

/-- A node that is taken out. -/
theorem Sweeping.remove (hlocal : Local judge) (h : Sweeping judge judge' (i + 1) P K (n :: M) Q s)
    (hn : i < n.height) : Sweeping judge judge' (i + 1) P K M Q
      { list := SkipRank.remove s.list n.ptr (i + 1) s.update
        update := removeUpdate s.list n.ptr (i + 1) s.update
        removed := s.removed + 1
        state := s.state } ∧
      (SkipRank.remove s.list n.ptr (i + 1) s.update).mem.brk = s.list.mem.brk := by
  have hheight : n.height = i + 1 := Nat.le_antisymm (h.height n (by simp)) hn
  have hsplit : P ++ (K ++ (n :: M ++ Q)) = (P ++ K) ++ n :: (M ++ Q) := by simp
  have hlinked := h.linked
  rw [hsplit] at hlinked
  have hMlow : ∀ m ∈ M, m.height ≤ i + 1 := fun m hm => h.height m (by simp [hm])
  -- the saved links are those behind `n`, since no node in between is that high
  have hu : ∀ k, n.height ≤ k → k < s.list.level → s.update k = ⟨firstNode (M ++ Q) k, k⟩ := by
    intro k hk hkl
    rw [hheight] at hk
    rw [h.saved k hk hkl, firstNode_append_low fun m hm => (hMlow m hm).trans hk]
  have hne : ∀ m ∈ K ++ M, m.ptr ≠ n.ptr := by
    intro m hm he
    have hnd := hlinked.nodup
    rw [List.map_append, List.map_cons, List.nodup_middle,
      List.nodup_cons, ← List.map_append] at hnd
    refine hnd.1 (he ▸ List.mem_map_of_mem ?_)
    cases List.mem_append.1 hm with
    | inl hm => simp [hm]
    | inr hm => simp [hm]
  have hpos : ∀ m ∈ K ++ M, 1 ≤ m.height := by
    intro m hm
    refine (hlinked.height m ?_).1
    cases List.mem_append.1 hm with
    | inl hm => simp [hm]
    | inr hm => simp [hm]
  have hlow : ∀ m ∈ K ++ M, m.height ≤ i + 1 := by
    intro m hm
    cases List.mem_append.1 hm with
    | inl hm => exact h.height m (by simp [hm])
    | inr hm => exact hMlow m hm
  have hj : Judges judge judge' s.list.mem (K ++ M) := by
    intro m hm
    refine h.judges m ?_
    cases List.mem_append.1 hm with
    | inl hm => simp [hm]
    | inr hm => simp [hm]
  have hframe := remove_frame hlinked hu
  have hrem := (remove_spec hlinked hu).1
  have hjudges := hj.remove hlocal hlinked hu fun m hm =>
    ⟨hheight ▸ hlow m hm, hne m hm, hpos m hm⟩
  rw [hheight] at hframe hrem hjudges
  refine ⟨⟨?_, hlow, fun k hk hkl => ?_, hjudges⟩, hframe.2.1⟩
  · have hjoin : P ++ (K ++ (M ++ Q)) = (P ++ K) ++ (M ++ Q) := by simp
    rw [hjoin]
    exact hrem
  · have hstay : removeUpdate s.list n.ptr (i + 1) s.update k = s.update k := by
      have := removeSteps_update s.update (v := n) (L := s.list.level)
        (n := s.list.level) s.list.mem k (hheight ▸ hk)
      rw [hheight] at this
      exact this
    exact hstay.trans (h.saved k hk (lt_of_lt_of_le hkl hframe.2.2.1))

end

/-- What a loop over level `i` has done. -/
structure LevelSwept (judge : Mem → Link → σ → Verdict σ) (judge' : Node → σ → Verdict σ)
    (i : Nat) (P K Q : List Node) (s : Removal σ) (r : Swept σ) (s' : Removal σ) : Prop where
  sweeping : Sweeping judge judge' (i + 1) P (K ++ r.kept) r.rest Q s'
  state : s'.state = r.state
  removed : s'.removed = s.removed + BitVec.ofNat 32 r.removed
  brk : s'.list.mem.brk = s.list.mem.brk

theorem sweepLevel_spec (hlocal : Local judge) (hQ : EndsAt Q (i + 1)) :
    ∀ {M K : List Node} {s : Removal σ} {fuel : Nat}, Sweeping judge judge' (i + 1) P K M Q s →
    M.length < fuel →
    ∃ s', sweepLevel judge i fuel s ⟨firstNode (M ++ Q) i, i⟩
        (s.list.mem.next ⟨firstNode (M ++ Q) i, i⟩) ⟨firstNode Q (i + 1), i⟩ =
          some (s', ⟨firstNode ((sweepNodes judge' i s.state M).rest ++ Q) i, i⟩) ∧
      LevelSwept judge judge' i P K Q s (sweepNodes judge' i s.state M) s'
  | [], K, s, 0, _, hf => absurd hf (Nat.not_lt_zero _)
  | [], K, s, fuel + 1, h, _ => by
    refine ⟨s, ?_, ⟨?_, rfl, (BitVec.add_zero _).symm, rfl⟩⟩
    · show sweepLevel judge i (fuel + 1) s ⟨firstNode Q i, i⟩ _ _ = some (s, ⟨firstNode Q i, i⟩)
      rw [hQ.firstNode, sweepLevel, if_pos rfl]
    · show Sweeping judge judge' (i + 1) P (K ++ []) [] Q s
      rw [List.append_nil]
      exact h
  | n :: M, K, s, 0, _, hf => absurd hf (Nat.not_lt_zero _)
  | n :: M, K, s, fuel + 1, h, hf => by
    have hfM : M.length < fuel := Nat.lt_of_succ_lt_succ hf
    by_cases hn : n.height ≤ i
    · -- the node is not on the level
      have hfirst : firstNode (n :: M ++ Q) i = firstNode (M ++ Q) i :=
        firstNode_append_low (M := [n]) (by simpa using hn)
      have hnodes : sweepNodes judge' i s.state (n :: M) =
          { sweepNodes judge' i s.state M with
            kept := n :: (sweepNodes judge' i s.state M).kept } := if_pos hn
      obtain ⟨s', hrun, hs'⟩ := sweepLevel_spec hlocal hQ (h.keep s.state)
        (Nat.lt_succ_of_lt hfM)
      refine ⟨s', ?_, ?_⟩
      · rw [hfirst, hnodes]
        exact hrun
      · rw [hnodes]
        have hsweep := hs'.sweeping
        rw [List.append_assoc] at hsweep
        exact ⟨hsweep, hs'.state, hs'.removed, hs'.brk⟩
    · have hi : i < n.height := not_le.1 hn
      have hfirst : firstNode (n :: M ++ Q) i = n.ptr :=
        firstNode_append_cons (List.forall_mem_nil _) hi
      have hne : (⟨n.ptr, i⟩ : Link) ≠ ⟨firstNode Q (i + 1), i⟩ := fun hc =>
        h.ne_end (congrArg Link.node hc)
      have hheight : n.height = i + 1 := Nat.le_antisymm (h.height n (by simp)) hi
      have hverdict : judge s.list.mem ⟨n.ptr, i⟩ s.state = judge' n s.state := by
        have := h.judges n (by simp) s.state
        rwa [hheight] at this
      rw [hfirst, h.next hi, sweepLevel, if_neg hne, hverdict, sweepNodes, if_neg hn]
      cases hcase : judge' n s.state with
      | stop =>
        refine ⟨s, ?_, ⟨?_, rfl, (BitVec.add_zero _).symm, rfl⟩⟩
        · show some (s, (⟨n.ptr, i⟩ : Link)) = some (s, ⟨firstNode (n :: M ++ Q) i, i⟩)
          rw [hfirst]
        · show Sweeping judge judge' (i + 1) P (K ++ []) (n :: M) Q s
          rw [List.append_nil]
          exact h
      | remove =>
        obtain ⟨hremove, hbrk⟩ := h.remove hlocal hi
        obtain ⟨s', hrun, hs'⟩ := sweepLevel_spec hlocal hQ hremove hfM
        refine ⟨s', hrun, hs'.sweeping, hs'.state, ?_, hs'.brk.trans hbrk⟩
        rw [hs'.removed]
        show s.removed + 1 + _ = s.removed + BitVec.ofNat 32 (_ + 1)
        rw [BitVec.ofNat_add, BitVec.add_assoc, BitVec.add_comm 1]
        rfl
      | keep state =>
        obtain ⟨s', hrun, hs'⟩ := sweepLevel_spec hlocal hQ (h.keep state) hfM
        have hsweep := hs'.sweeping
        rw [List.append_assoc] at hsweep
        exact ⟨s', hrun, hsweep, hs'.state, hs'.removed, hs'.brk⟩

end

/-! ## All levels -/

section
variable {σ : Type} {judge : Mem → Link → σ → Verdict σ} {judge' : Node → σ → Verdict σ}
  {P Q M : List Node} {i : Nat} {st : σ}

theorem upTo_append_behind (i : Nat) (S : List Node) : upTo i S ++ behind i S = S :=
  List.rdropWhile_append_rtakeWhile

theorem mem_behind {S : List Node} {n : Node} (hn : n ∈ behind i S) : n.height ≤ i :=
  of_decide_eq_true (List.mem_rtakeWhile_imp (p := fun n : Node => decide (n.height ≤ i)) hn)

/-- The nodes before the place where the walk over level `i` starts. -/
def StartsAt (P : List Node) (i : Nat) : Prop := P = [] ∨ ∃ P' p, P = P' ++ [p] ∧ i < p.height

theorem StartsAt.upTo (h : StartsAt P (i + 1)) (S : List Node) :
    StartsAt (P ++ SkipRank.upTo i S) i := by
  by_cases hnil : SkipRank.upTo i S = []
  · rw [hnil, List.append_nil]
    cases h with
    | inl hP => exact .inl hP
    | inr hP =>
      obtain ⟨P', p, hP, hp⟩ := hP
      exact .inr ⟨P', p, hP, Nat.lt_of_succ_lt hp⟩
  · have hlast := List.rdropWhile_last_not (fun n : Node => decide (n.height ≤ i)) S hnil
    refine .inr ⟨P ++ (SkipRank.upTo i S).dropLast, (SkipRank.upTo i S).getLast hnil, ?_, ?_⟩
    · rw [List.append_assoc, List.dropLast_append_getLast]
    · exact not_le.1 (of_decide_eq_false (eq_false_of_ne_true hlast))

theorem StartsAt.lastNode (h : StartsAt P (i + 1)) :
    SkipRank.lastNode P i = SkipRank.lastNode P (i + 1) := by
  cases h with
  | inl hP =>
    rw [hP]
    rfl
  | inr hP =>
    obtain ⟨P', p, rfl, hp⟩ := hP
    simp [SkipRank.lastNode, ptrs_cons, hp, Nat.lt_of_succ_lt hp]

theorem lastNode_append_low {A C : List Node} (h : ∀ n ∈ C, n.height ≤ i) :
    lastNode (A ++ C) i = lastNode A i := by
  rw [lastNode, ptrs_append, ptrs_eq_nil h, List.append_nil, ← lastNode]

theorem sweepNodes_rest : ∀ {M : List Node} {st : σ}, EndsAt Q (i + 1) →
    EndsAt ((sweepNodes judge' i st M).rest ++ Q) i
  | [], st, hQ => by
    cases hQ with
    | inl hnil => exact .inl hnil
    | inr hcons =>
      obtain ⟨q, Q', rfl, hq⟩ := hcons
      exact .inr ⟨q, Q', rfl, Nat.lt_of_succ_lt hq⟩
  | n :: M, st, hQ => by
    rw [sweepNodes]
    by_cases hn : n.height ≤ i
    · rw [if_pos hn]
      exact sweepNodes_rest hQ
    · rw [if_neg hn]
      cases judge' n st with
      | stop => exact .inr ⟨n, M ++ Q, rfl, not_le.1 hn⟩
      | remove => exact sweepNodes_rest (M := M) hQ
      | keep st => exact sweepNodes_rest (M := M) hQ

/-- The next level: up to the last node that has been kept, the walk does not come back. -/
theorem LevelSwept.next {s s' : Removal σ} {r : Swept σ}
    (h : LevelSwept judge judge' i P [] Q s r s') :
    Sweeping judge judge' i (P ++ upTo i r.kept) [] (behind i r.kept) (r.rest ++ Q)
      { s' with update := Function.update s'.update i ⟨firstNode (r.rest ++ Q) i, i⟩ } where
  linked := by
    have hlinked := h.sweeping.linked
    rw [List.nil_append, ← upTo_append_behind i r.kept] at hlinked
    simpa using hlinked
  height n hn := mem_behind hn
  saved k hk hkl := by
    have hrest : ∀ n ∈ r.rest, n.height ≤ i + 1 := fun n hn =>
      h.sweeping.height n (List.mem_append_right _ hn)
    cases Nat.eq_or_lt_of_le hk with
    | inl he =>
      subst he
      exact Function.update_self _ _ _
    | inr hlt =>
      rw [firstNode_append_low fun n hn => (hrest n hn).trans hlt]
      exact (Function.update_of_ne hlt.ne' _ _).trans (h.sweeping.saved k hlt hkl)
  judges n hn := by
    refine h.sweeping.judges n (List.mem_append_left _ ?_)
    have hsuffix : behind i r.kept <:+ r.kept := List.rtakeWhile_suffix _ _
    exact hsuffix.subset hn

/-- **A removal while the levels are walked** leaves the nodes of `sweep`. -/
theorem sweepLevels_spec (hlocal : Local judge) : ∀ {i : Nat} {P M Q : List Node} {s : Removal σ},
    Sweeping judge judge' i P [] M Q s → StartsAt P i → EndsAt Q i →
    ∃ l', sweepLevels judge i s ⟨lastNode P i, i - 1⟩ ⟨firstNode Q i, i - 1⟩ =
        .ok (l', s.removed + BitVec.ofNat 32 (sweep judge' i s.state M).2) ∧
      Linked l' (P ++ ((sweep judge' i s.state M).1 ++ Q))
  | 0, P, M, Q, s, h, _, _ => ⟨s.list, by simp [sweepLevels, sweep], h.linked⟩
  | i + 1, P, M, Q, s, h, hP, hQ => by
    have hlen : M.length < s.list.mem.brk := by
      have := h.linked.length_lt
      simp only [List.length_append] at this
      omega
    obtain ⟨s', hrun, hs'⟩ := sweepLevel_spec hlocal hQ h hlen
    have hnext : s.list.mem.next ⟨lastNode P (i + 1), i⟩ = ⟨firstNode (M ++ Q) i, i⟩ := by
      have hc := h.linked.circular i
      rw [row_append] at hc
      rw [← hP.lastNode, ← lastOr_row, hc.next_eq, headOr_row]
      rfl
    rw [← hnext] at hrun
    let r := sweepNodes judge' i s.state M
    have hprev : s'.list.mem.prev ⟨firstNode (r.rest ++ Q) i, i⟩ =
        ⟨lastNode (P ++ upTo i r.kept) i, i⟩ := by
      have hlinked := hs'.sweeping.linked
      rw [List.nil_append, ← List.append_assoc] at hlinked
      have hlast : lastNode (P ++ upTo i r.kept) i = lastNode (P ++ r.kept) i := by
        rw [← lastNode_append_low (C := behind i r.kept) fun n hn => mem_behind hn,
          List.append_assoc, upTo_append_behind]
      rw [hlast]
      exact hlinked.chained.prev_firstNode
    have hstate : s'.state = r.state := hs'.state
    obtain ⟨l', hlevels, hl'⟩ := sweepLevels_spec hlocal hs'.next (hP.upTo _) (sweepNodes_rest hQ)
    refine ⟨l', ?_, ?_⟩
    · simp only [sweepLevels, Nat.add_sub_cancel, hrun]
      rw [hprev]
      refine hlevels.trans ?_
      show Except.ok (l', s'.removed + BitVec.ofNat 32 (sweep judge' i s'.state _).2) =
        Except.ok (l', s.removed + BitVec.ofNat 32 (r.removed + (sweep judge' i r.state _).2))
      rw [hs'.removed, hstate, BitVec.add_assoc, ← BitVec.ofNat_add]
    · have hjoin : P ++ ((sweep judge' (i + 1) s.state M).1 ++ Q) = P ++ upTo i r.kept ++
          ((sweep judge' i s'.state (behind i r.kept)).1 ++ (r.rest ++ Q)) := by
        rw [hstate]
        show P ++ ((upTo i r.kept ++ (sweep judge' i r.state (behind i r.kept)).1 ++ r.rest) ++ Q) =
          _
        simp only [List.append_assoc]
      rw [hjoin]
      exact hl'

/-- From the highest level. -/
theorem Linked.sweepList {l : Skiplist} {S : List Node} (judge' : Node → σ → Verdict σ)
    (hlocal : Local judge) (h : Linked l S) (hj : Judges judge judge' l.mem S) (st : σ) :
    ∃ l', sweepList judge l st = .ok (l', BitVec.ofNat 32 (sweep judge' l.level st S).2) ∧
      Linked l' (sweep judge' l.level st S).1 := by
  let s : Removal σ := ⟨l, fun _ => ⟨0, l.level - 1⟩, 0, st⟩
  have hsweeping : Sweeping judge judge' l.level [] [] S [] s :=
    ⟨by simpa using h, fun n hn => (h.height n hn).2, fun k hk hkl => absurd hk (not_le.2 hkl), hj⟩
  obtain ⟨l', hrun, hl'⟩ := sweepLevels_spec hlocal hsweeping (.inl rfl) (.inl rfl)
  refine ⟨l', hrun.trans ?_, by simpa using hl'⟩
  exact congrArg (fun n => Except.ok (l', n)) (BitVec.zero_add _)

end

/-! ## What remains -/

section
variable {σ : Type} (judge' : Node → σ → Verdict σ)

/-- The nodes that are left after a loop over a level. -/
theorem sweepNodes_sublist (i : Nat) : ∀ (M : List Node) (st : σ),
    ((sweepNodes judge' i st M).kept ++ (sweepNodes judge' i st M).rest).Sublist M ∧
      (sweepNodes judge' i st M).kept.length + (sweepNodes judge' i st M).rest.length +
        (sweepNodes judge' i st M).removed = M.length
  | [], st => ⟨.slnil, rfl⟩
  | n :: M, st => by
    rw [sweepNodes]
    by_cases hn : n.height ≤ i
    · rw [if_pos hn]
      obtain ⟨hsub, hlen⟩ := sweepNodes_sublist i M st
      refine ⟨hsub.cons_cons n, ?_⟩
      simp only [List.length_cons]
      omega
    · rw [if_neg hn]
      cases judge' n st with
      | stop => exact ⟨List.Sublist.refl _, by simp⟩
      | remove =>
        obtain ⟨hsub, hlen⟩ := sweepNodes_sublist i M st
        refine ⟨hsub.cons n, ?_⟩
        simp only [List.length_cons]
        omega
      | keep st =>
        obtain ⟨hsub, hlen⟩ := sweepNodes_sublist i M st
        refine ⟨hsub.cons_cons n, ?_⟩
        simp only [List.length_cons]
        omega

theorem sweep_sublist : ∀ (i : Nat) (M : List Node) (st : σ), (sweep judge' i st M).1.Sublist M ∧
    (sweep judge' i st M).1.length + (sweep judge' i st M).2 = M.length
  | 0, M, st => ⟨List.Sublist.refl _, rfl⟩
  | i + 1, M, st => by
    obtain ⟨hsub, hlen⟩ := sweepNodes_sublist judge' i M st
    obtain ⟨hsub', hlen'⟩ := sweep_sublist i (behind i (sweepNodes judge' i st M).kept)
      (sweepNodes judge' i st M).state
    have hsplit := upTo_append_behind i (sweepNodes judge' i st M).kept
    have hlength := congrArg List.length hsplit
    rw [List.length_append] at hlength
    refine ⟨List.Sublist.trans ?_ hsub, ?_⟩
    · conv_rhs => rw [← hsplit]
      exact (hsub'.append_left _).append_right _
    · simp only [sweep, List.length_append]
      omega

end

/-- Exactly the nodes of `out` are taken out, forward and backward on every level. -/
def RemovesExactly (l : Skiplist) (result : Except Fault (Skiplist × BitVec 32))
    (out : Ptr → Bool) : Prop :=
  ∃ l' n, result = .ok (l', n) ∧ n.toNat = (l.mem.chains.chain 0).countP out ∧
    ∀ i, l'.mem.chains.chain i = (l.mem.chains.chain i).filter (!out ·) ∧
      l'.mem.chains.reverse.chain i = (l'.mem.chains.chain i).reverse

theorem removesExactly_iff {l l' : Skiplist} {S S' : List Node} {n : Nat} {out : Ptr → Bool}
    (h : Linked l S) (h' : Linked l' S') (hsub : S'.Sublist S) (hlen : S'.length + n = S.length) :
    RemovesExactly l (.ok (l', BitVec.ofNat 32 n)) out ↔ S' = S.filter fun n => !out n.ptr := by
  constructor
  · intro hr
    obtain ⟨l₁, n₁, hrun, -, hchain⟩ := hr
    cases hrun
    have h0 := (hchain 0).1
    rw [h'.chained.chain_zero, h.chained.chain_zero, List.filter_map] at h0
    refine List.Sublist.eq_of_length ?_ ?_
    · -- a node that is left has an address of `S` that is not in `out`
      have hall : S'.filter (fun n => !out n.ptr) = S' := by
        refine List.filter_eq_self.2 fun n hn => ?_
        have hmem : n.ptr ∈ (S.filter ((!out ·) ∘ Node.ptr)).map Node.ptr :=
          h0 ▸ List.mem_map_of_mem hn
        obtain ⟨m, hm, hmn⟩ := List.mem_map.1 hmem
        obtain ⟨-, hout⟩ := List.mem_filter.1 hm
        rw [← hmn]
        exact hout
      rw [← hall]
      exact hsub.filter _
    · have := congrArg List.length h0
      rwa [List.length_map, List.length_map] at this
  · intro hS
    refine ⟨l', _, rfl, ?_, fun i => ⟨?_, ?_⟩⟩
    · have hcount : (S.map Node.ptr).countP out = S.countP fun n => out n.ptr := List.countP_map ..
      have hleft : S'.length = S.countP fun n => ¬ out n.ptr = true := by
        rw [hS, ← List.countP_eq_length_filter]
        refine List.countP_congr fun n _ => ?_
        simp
      have hboth := List.length_eq_countP_add_countP (fun n : Node => out n.ptr) (l := S)
      have hmax := h.countMax
      have hn := h.count
      unfold INT_MAX at hmax
      rw [h.chained.chain_zero, hcount, BitVec.toNat_ofNat, Nat.mod_eq_of_lt (by omega)]
      omega
    · rw [h'.chained.chain, h.chained.chain, hS, ptrs, ptrs, List.filter_map, List.filter_filter,
        List.filter_filter]
      congr 1
      refine List.filter_congr fun n _ => Bool.and_comm _ _
    · rw [h'.chained.reverse.chain, h'.chained.chain, ptrs, ptrs, List.filter_reverse,
        List.map_reverse]

end SkipRank
