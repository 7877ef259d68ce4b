import DsAlgor.SkipRank.RankOk
import DsAlgor.SkipRank.RemoveRange

/-!
# Removing a range of ranks

`remove_in_rank` adds up the spans of the nodes it keeps, in 32 bits. Its sweep is that of the
positions (`sweep_agree`), so `RankOk` says when exactly it is right.
-/

namespace SkipRank

open Circular

/-! ## The code -/

/-- The body of the loop of `remove_in_rank`; the state is `traversed`. -/
def rankJudge (start stop : BitVec 32) (m : Mem) (pos : Link) (traversed : BitVec 32) :
    Verdict (BitVec 32) :=
  if traversed + m.span pos > stop then .stop
  else if traversed + m.span pos ≥ start then .remove
  else .keep (traversed + m.span pos)

def removeInRank (l : Skiplist) (start stop : BitVec 32) : Except Fault (Skiplist × BitVec 32) :=
  if start = 0 ∨ stop = 0 ∨ start > BitVec.ofInt 32 l.count then .ok (l, 0)
  else sweepList (rankJudge start stop) l 0

/-! ## The run -/

def Verdict.map {σ τ : Type} (f : σ → τ) : Verdict σ → Verdict τ
  | .stop => .stop
  | .remove => .remove
  | .keep s => .keep (f s)

section
variable {σ τ : Type} {judge : Node → σ → Verdict σ} {judge' : Node → τ → Verdict τ} {f : τ → σ}
  {ok : τ → Prop}

/-- The verdicts on `n` are the same as long as the state is `ok`, and it stays so. -/
def Agrees (judge : Node → σ → Verdict σ) (judge' : Node → τ → Verdict τ) (f : τ → σ)
    (ok : τ → Prop) (n : Node) : Prop :=
  ∀ t, ok t → judge n (f t) = (judge' n t).map f ∧ ∀ t', judge' n t = .keep t' → ok t'

theorem sweepNodes_agree {i : Nat} : ∀ {M : List Node} {t : τ},
    (∀ n ∈ M, Agrees judge judge' f ok n) → ok t →
    let r := sweepNodes judge i (f t) M
    let r' := sweepNodes judge' i t M
    r.kept = r'.kept ∧ r.rest = r'.rest ∧ r.removed = r'.removed ∧ r.state = f r'.state ∧
      ok r'.state
  | [], _, _, ht => ⟨rfl, rfl, rfl, rfl, ht⟩
  | n :: M, t, hM, ht => by
    have ih := fun {t} => sweepNodes_agree (i := i) (t := t) fun m hm =>
      hM m (List.mem_cons_of_mem n hm)
    rw [sweepNodes, sweepNodes]
    by_cases hn : n.height ≤ i
    · obtain ⟨hk, hr, hm, hs, hok⟩ := ih ht
      rw [if_pos hn, if_pos hn]
      exact ⟨congrArg (n :: ·) hk, hr, hm, hs, hok⟩
    · obtain ⟨hjudge, hkeep⟩ := hM n List.mem_cons_self t ht
      rw [if_neg hn, if_neg hn, hjudge]
      cases hv : judge' n t with
      | stop => exact ⟨rfl, rfl, rfl, rfl, ht⟩
      | remove =>
        obtain ⟨hk, hr, hm, hs, hok⟩ := ih ht
        exact ⟨hk, hr, congrArg (· + 1) hm, hs, hok⟩
      | keep t' =>
        obtain ⟨hk, hr, hm, hs, hok⟩ := ih (hkeep t' hv)
        exact ⟨congrArg (n :: ·) hk, hr, hm, hs, hok⟩

theorem sweep_agree : ∀ {i : Nat} {M : List Node} {t : τ},
    (∀ n ∈ M, Agrees judge judge' f ok n) → ok t → sweep judge i (f t) M = sweep judge' i t M
  | 0, _, _, _, _ => rfl
  | i + 1, M, t, hM, ht => by
    obtain ⟨hk, hr, hm, hs, hok⟩ := sweepNodes_agree (i := i) hM ht
    have hsub := (sweepNodes_sublist judge' i M t).1
    have hsuffix : behind i (sweepNodes judge' i t M).kept <:+ (sweepNodes judge' i t M).kept :=
      List.rtakeWhile_suffix _ _
    rw [sweep, sweep, hk, hr, hm, hs, sweep_agree (fun n hn =>
      hM n (hsub.subset (List.mem_append_left _ (hsuffix.subset hn)))) hok]

end

/-- The position on level 0, from 1. -/
def rankOf (l : Skiplist) (p : Ptr) : Nat := (l.mem.chains.chain 0).idxOf p + 1

/-- The nodes of the ranks are taken out. -/
abbrev RemovesRank (l : Skiplist) (start stop : BitVec 32) : Prop :=
  RemovesExactly l (removeInRank l start stop) fun p =>
    start.toNat ≤ rankOf l p ∧ rankOf l p ≤ stop.toNat

section
variable {l : Skiplist} {S X Y Z : List Node} {start stop : BitVec 32}

/-- The span on the highest level of a node. -/
def topSpan (m : Mem) (n : Node) : Nat := (m.span ⟨n.ptr, n.height - 1⟩).toNat

theorem Linked.length_lt_int (h : Linked l S) : S.length < 2 ^ 31 := by
  have h1 := h.count
  have h2 := h.countMax
  unfold INT_MAX at h2
  omega

theorem Linked.counts (h : Linked l S) (hS : Spans l.mem S) : Counts (topSpan l.mem) S := by
  intro A n B hA
  have hpos := (h.height n (by simp [hA])).1
  have hlen := h.length_lt_int
  have hgap := gap_le_length (A := A) (i := n.height - 1)
  rw [hA, List.length_append, List.length_cons] at hlen
  rw [topSpan, hS A n B hA _ (by omega), BitVec.toNat_ofNat, Nat.mod_eq_of_lt (by omega)]

/-- The verdicts in `unsigned int` are those on positions. -/
theorem Linked.rankAgrees (h : Linked l S) (hS : Spans l.mem S) (hstart : start.toNat ≤ S.length)
    {n : Node} (hn : n ∈ S) : Agrees (fun n => rankJudge start stop l.mem ⟨n.ptr, n.height - 1⟩)
      (posJudge (topSpan l.mem) start.toNat stop.toNat) (BitVec.ofNat 32) (· < start.toNat) n := by
  obtain ⟨A, B, hA⟩ := List.append_of_mem hn
  have hlen := h.length_lt_int
  have hd := h.counts hS A n B hA
  have hgap := gap_le_length (A := A) (i := n.height - 1)
  have hAlen := congrArg List.length hA
  rw [List.length_append, List.length_cons] at hAlen
  intro t ht
  have hsum : (BitVec.ofNat 32 t + l.mem.span ⟨n.ptr, n.height - 1⟩).toNat =
      t + topSpan l.mem n := by
    rw [BitVec.toNat_add, BitVec.toNat_ofNat, Nat.mod_eq_of_lt (by omega : t < 2 ^ 32)]
    exact Nat.mod_eq_of_lt (by rw [← topSpan]; omega)
  have hstop : BitVec.ofNat 32 t + l.mem.span ⟨n.ptr, n.height - 1⟩ > stop ↔
      t + topSpan l.mem n > stop.toNat := by
    rw [gt_iff_lt, BitVec.lt_def, hsum]
  have hge : BitVec.ofNat 32 t + l.mem.span ⟨n.ptr, n.height - 1⟩ ≥ start ↔
      t + topSpan l.mem n ≥ start.toNat := by
    rw [ge_iff_le, BitVec.le_def, hsum]
  have hnat : BitVec.ofNat 32 t + l.mem.span ⟨n.ptr, n.height - 1⟩ =
      BitVec.ofNat 32 (t + topSpan l.mem n) := by
    rw [← hsum, BitVec.ofNat_toNat, BitVec.setWidth_eq]
  unfold rankJudge posJudge
  beta_reduce
  by_cases h1 : t + topSpan l.mem n > stop.toNat
  · rw [if_pos (hstop.2 h1), if_pos h1]
    exact ⟨rfl, nofun⟩
  · rw [if_neg (mt hstop.1 h1), if_neg h1]
    by_cases h2 : t + topSpan l.mem n ≥ start.toNat
    · rw [if_pos (hge.2 h2), if_pos h2]
      exact ⟨rfl, nofun⟩
    · rw [if_neg (mt hge.1 h2), if_neg h2, hnat]
      refine ⟨rfl, fun t' ht' => ?_⟩
      cases ht'
      exact not_le.1 h2

theorem rankJudge_local (start stop : BitVec 32) : Local (rankJudge start stop) := by
  intro m m' q st _ hspan
  unfold rankJudge
  rw [hspan]

/-- The position of a node. -/
theorem Linked.rankOf {A B : List Node} {n : Node} (h : Linked l (A ++ n :: B)) :
    SkipRank.rankOf l n.ptr = A.length + 1 := by
  have hnd := h.nodup
  rw [List.map_append, List.map_cons, List.nodup_middle, List.nodup_cons] at hnd
  have hnot : n.ptr ∉ A.map Node.ptr := fun hm => hnd.1 (List.mem_append_left _ hm)
  rw [SkipRank.rankOf, h.chained.chain_zero, List.map_append, List.map_cons,
    List.idxOf_append_of_notMem hnot, List.idxOf_cons_self, List.length_map, Nat.add_zero]

/-- The nodes of the ranks are those between `X` and `Z`. -/
theorem Linked.filter_rank {s e : Nat} (h : Linked l (X ++ (Y ++ Z))) (hX : X.length + 1 = s)
    (hY : X.length + Y.length ≤ e) (hZ : Z ≠ [] → X.length + Y.length = e) :
    (X ++ (Y ++ Z)).filter (fun n =>
      !decide (s ≤ SkipRank.rankOf l n.ptr ∧ SkipRank.rankOf l n.ptr ≤ e)) = X ++ Z := by
  have hrank : ∀ {A B : List Node} {n : Node}, X ++ (Y ++ Z) = A ++ n :: B →
      SkipRank.rankOf l n.ptr = A.length + 1 := by
    intro A B n hA
    rw [hA] at h
    exact h.rankOf
  have h1 : X.filter (fun n => !decide (s ≤ SkipRank.rankOf l n.ptr ∧
      SkipRank.rankOf l n.ptr ≤ e)) = X := by
    refine List.filter_eq_self.2 fun n hn => ?_
    obtain ⟨A, B, rfl⟩ := List.append_of_mem hn
    rw [hrank (A := A) (B := B ++ (Y ++ Z)) (by simp)]
    rw [List.length_append, List.length_cons] at hX
    simp only [Bool.not_eq_true', decide_eq_false_iff_not]
    omega
  have h2 : Y.filter (fun n => !decide (s ≤ SkipRank.rankOf l n.ptr ∧
      SkipRank.rankOf l n.ptr ≤ e)) = [] := by
    refine List.filter_eq_nil_iff.2 fun n hn => ?_
    obtain ⟨A, B, rfl⟩ := List.append_of_mem hn
    rw [hrank (A := X ++ A) (B := B ++ Z) (by simp), List.length_append]
    rw [List.length_append, List.length_cons] at hY
    simp only [Bool.not_eq_true', decide_eq_false_iff_not, not_not]
    omega
  have h3 : Z.filter (fun n => !decide (s ≤ SkipRank.rankOf l n.ptr ∧
      SkipRank.rankOf l n.ptr ≤ e)) = Z := by
    refine List.filter_eq_self.2 fun n hn => ?_
    have hZ := hZ (List.ne_nil_of_mem hn)
    obtain ⟨A, B, rfl⟩ := List.append_of_mem hn
    rw [hrank (A := X ++ (Y ++ A)) (B := B) (by simp), List.length_append, List.length_append]
    simp only [Bool.not_eq_true', decide_eq_false_iff_not]
    omega
  rw [List.filter_append, List.filter_append, h1, h2, h3, List.nil_append]

theorem Linked.count_toNat (h : Linked l S) : (BitVec.ofInt 32 l.count).toNat = S.length := by
  have := h.length_lt_int
  rw [h.count]
  show (BitVec.ofNat 32 S.length).toNat = S.length
  rw [BitVec.toNat_ofNat, Nat.mod_eq_of_lt (by omega)]

/-- Behind the last rank nothing is done, and there is nothing to do. -/
theorem Linked.removeInRank_beyond (h : Linked l S) (hbeyond : S.length < start.toNat) :
    RemovesRank l start stop := by
  have hguard : start = 0 ∨ stop = 0 ∨ start > BitVec.ofInt 32 l.count := by
    refine .inr (.inr ?_)
    rw [gt_iff_lt, BitVec.lt_def, h.count_toNat]
    exact hbeyond
  have hrun : SkipRank.removeInRank l start stop = .ok (l, BitVec.ofNat 32 0) := if_pos hguard
  rw [RemovesRank, hrun, removesExactly_iff h h (List.Sublist.refl _) (Nat.add_zero _)]
  refine (List.filter_eq_self.2 fun n hn => ?_).symm
  obtain ⟨A, B, rfl⟩ := List.append_of_mem hn
  rw [h.rankOf]
  rw [List.length_append, List.length_cons] at hbeyond
  simp only [Bool.not_eq_true', decide_eq_false_iff_not]
  omega

theorem Linked.rank_guard (h : Linked l S) (hpos : 1 ≤ start.toNat)
    (hle : start.toNat ≤ stop.toNat) (hlen : start.toNat ≤ S.length) :
    ¬ (start = 0 ∨ stop = 0 ∨ start > BitVec.ofInt 32 l.count) := by
  rintro (hz | hz | hgt)
  · rw [hz] at hpos
    exact absurd hpos (by decide)
  · rw [hz] at hle
    exact absurd (hpos.trans hle) (by decide)
  · rw [gt_iff_lt, BitVec.lt_def, h.count_toNat] at hgt
    exact hlen.not_gt hgt

/-- **`remove_in_rank`** is right if there is no node of the ranks, or `RankOk`. -/
theorem Linked.removeInRank (h : Linked l S) (hS : Spans l.mem S) (hpos : 1 ≤ start.toNat)
    (hle : start.toNat ≤ stop.toNat) : RemovesRank l start stop ↔ S.length < start.toNat ∨
      RankOk MAX_LEVEL start.toNat stop.toNat (S.take (start.toNat - 1))
        ((S.drop (start.toNat - 1)).take (stop.toNat + 1 - start.toNat)) (S.drop stop.toNat) := by
  by_cases hbeyond : S.length < start.toNat
  · exact iff_of_true (h.removeInRank_beyond hbeyond) (.inl hbeyond)
  · have hguard := h.rank_guard hpos hle (not_lt.1 hbeyond)
    rw [or_iff_right hbeyond]
    have hlen := not_lt.1 hbeyond
    -- the three parts of the list
    obtain ⟨X, Y, Z, hX, hY, hZ⟩ : ∃ X Y Z, X = S.take (start.toNat - 1) ∧
        Y = (S.drop (start.toNat - 1)).take (stop.toNat + 1 - start.toNat) ∧
        Z = S.drop stop.toNat := ⟨_, _, _, rfl, rfl, rfl⟩
    have hsplit : S = X ++ (Y ++ Z) := by
      have hdrop : S.drop stop.toNat =
          (S.drop (start.toNat - 1)).drop (stop.toNat + 1 - start.toNat) := by
        rw [List.drop_drop]
        congr 1
        omega
      rw [hX, hY, hZ, hdrop, List.take_append_drop, List.take_append_drop]
    have hXlen : X.length + 1 = start.toNat := by
      rw [hX, List.length_take]
      omega
    have hYlen : Y.length = min (stop.toNat + 1 - start.toNat) (S.length - (start.toNat - 1)) := by
      rw [hY, List.length_take, List.length_drop]
    rw [← hX, ← hY, ← hZ]
    have hbound : ∀ n ∈ Y ++ Z, n.height ≤ l.level := fun n hn =>
      (h.height n (by rw [hsplit]; exact List.mem_append_right _ hn)).2
    have hcut : Cut (topSpan l.mem) start.toNat stop.toNat X Y Z := by
      refine ⟨hXlen, hle, by omega, ?_, hsplit ▸ h.counts hS, fun n hn =>
        (h.height n (hsplit ▸ hn)).1, ?_⟩
      · intro hnil
        rw [hnil, List.length_nil] at hYlen
        omega
      · rw [← hsplit]
        exact h.nodup.of_map _
    have hiff := hcut.sweep_iff l.level
    rw [rankOk_high (fun n hn => hbound n (List.mem_append_left _ hn))
      (fun n hn => hbound n (List.mem_append_right _ hn)) h.level.2] at hiff
    rw [← hiff]
    have hXlow : ∀ n ∈ X, n.height ≤ l.level := fun n hn => (h.height n (by simp [hsplit, hn])).2
    have hbehind : behind l.level X = X := behind_append_low (A := []) hXlow
    have hzero : rankAt X l.level = 0 := rankAt_top hXlow
    have hYall : Y.filter (·.height ≤ l.level) = Y := List.filter_eq_self.2 fun n hn =>
      decide_eq_true (hbound n (List.mem_append_left _ hn))
    have hZall : Z.takeWhile (·.height ≤ l.level) = Z := by
      rw [← List.append_nil Z, List.takeWhile_append_of_pos fun n hn =>
        decide_eq_true (hbound n (List.mem_append_right _ hn)), List.takeWhile_nil]
    rw [hbehind, hzero, hYall, hZall, ← hsplit]
    -- the run
    let judge : Node → BitVec 32 → Verdict (BitVec 32) :=
      fun n => rankJudge start stop l.mem ⟨n.ptr, n.height - 1⟩
    obtain ⟨l', hrun, hl'⟩ := h.sweepList judge (rankJudge_local start stop)
      (fun _ _ _ => rfl) 0
    have hagree : sweep judge l.level 0 S =
        sweep (posJudge (topSpan l.mem) start.toNat stop.toNat) l.level 0 S :=
      sweep_agree (f := BitVec.ofNat 32) (t := 0) (fun n hn => h.rankAgrees hS hlen hn) hpos
    obtain ⟨hsub, hsum⟩ := sweep_sublist judge l.level S 0
    have hrun : SkipRank.removeInRank l start stop = _ := (if_neg hguard).trans hrun
    have hZstop : Z ≠ [] → X.length + Y.length = stop.toNat := by
      intro hne
      have hlt : stop.toNat < S.length := by
        by_contra hc
        exact hne (hZ.trans (List.drop_eq_nil_of_le (not_lt.1 hc)))
      omega
    have hfilter := Linked.filter_rank (hsplit ▸ h) hXlen (by omega) hZstop
    rw [← hsplit] at hfilter
    rw [RemovesRank, hrun, removesExactly_iff h hl' hsub hsum, hfilter, hagree]

end

/-! ## Both removals -/

/-- **When the removals take out exactly what they should**, after insertions. -/
theorem removeIn_iff (xs : List Insertion) :
    ((xs.length : Int) ≤ INT_MAX → ∃ l, build xs = .ok l) ∧ ∀ l, build xs = .ok l →
      (∀ range, RemovesRange l range ↔
        ∀ k ∈ xs.map Insertion.key, ¬ range.Contains k ∧ passes range k = false) ∧
      ∀ start stop : BitVec 32, 1 ≤ start.toNat → start.toNat ≤ stop.toNat →
        (RemovesRank l start stop ↔ xs.length < start.toNat ∨
          RankOk MAX_LEVEL start.toNat stop.toNat ((placed xs).take (start.toNat - 1))
            (((placed xs).drop (start.toNat - 1)).take (stop.toNat + 1 - start.toNat))
            ((placed xs).drop stop.toNat)) := by
  refine ⟨(build_spec xs).1, fun l hl => ?_⟩
  obtain ⟨hlinked, hspans⟩ := (build_spec xs).2 l hl
  refine ⟨fun range => ?_, fun start stop hpos hle => ?_⟩
  · have hkeys : (∀ k ∈ xs.map Insertion.key, ¬ range.Contains k ∧ passes range k = false) ↔
        ∀ n ∈ placed xs, ¬ range.Contains n.key ∧ passes range n.key = false := by
      have hmem := fun k => (placed_keys xs).mem_iff (a := k)
      simp only [← hmem, List.forall_mem_map]
    rw [hkeys]
    exact hlinked.removeInRange
  · rw [← placed_length xs]
    exact hlinked.removeInRank hspans hpos hle

/-- The keys 1, 5 and 7 on one level. -/
def removalInsertions : List Insertion :=
  [⟨1, 0, ⟨1, drawn_one⟩⟩, ⟨5, 0, ⟨1, drawn_one⟩⟩, ⟨7, 0, ⟨1, drawn_one⟩⟩]

/-- No key is from 2 to 4, and all of them are of the ranks 1 to 3. -/
theorem removeIn_all : ∃ l, build removalInsertions = .ok l ∧ RemovesRange l ⟨2, 4, 0, 0⟩ ∧
    RemovesRank l 1 3 := by
  obtain ⟨hreturns, hspec⟩ := removeIn_iff removalInsertions
  obtain ⟨l, hl⟩ := hreturns (by decide)
  obtain ⟨hrange, hrank⟩ := hspec l hl
  refine ⟨l, hl, (hrange ⟨2, 4, 0, 0⟩).2 (by decide), ?_⟩
  have hnil : (placed removalInsertions).drop (3 : BitVec 32).toNat = [] :=
    List.drop_eq_nil_of_le (placed_length _).le
  refine (hrank 1 3 (by decide) (by decide)).2 (.inr ⟨fun A y B _ _ => ?_, .inl fun A z hA _ => ?_⟩)
  · exact Nat.le_add_left 1 _
  · obtain ⟨⟨B, hB⟩, -⟩ := hA
    rw [hnil] at hB
    exact absurd hB (by simp)

/-- Keys in the range are not taken out when there is a smaller and a greater one, and the node of
rank 3 goes with that of rank 2. -/
theorem removeIn_wrong : ∃ l, build removalInsertions = .ok l ∧ ¬ RemovesRange l ⟨1, 5, 0, 0⟩ ∧
    ¬ RemovesRank l 2 2 := by
  have hrun : ((build removalInsertions).map fun l =>
      ((removeInRange l ⟨1, 5, 0, 0⟩).toOption.map (·.2.toNat),
        (l.mem.chains.chain 0).countP fun p => (RangeSpec.mk 1 5 0 0).Contains (l.mem.key p),
        (removeInRank l 2 2).toOption.map (·.2.toNat),
        (l.mem.chains.chain 0).countP fun p => 2 ≤ rankOf l p ∧ rankOf l p ≤ 2)).toOption =
      some (some 0, 2, some 2, 1) := by
    decide +kernel
  cases hl : build removalInsertions with
  | error e =>
    rw [hl] at hrun
    cases hrun
  | ok l =>
    rw [hl] at hrun
    obtain ⟨h1, hrest⟩ := Prod.mk.inj (Option.some.inj hrun)
    obtain ⟨h2, hrest⟩ := Prod.mk.inj hrest
    obtain ⟨h3, h4⟩ := Prod.mk.inj hrest
    refine ⟨l, rfl, fun hrange => ?_, fun hrank => ?_⟩
    · obtain ⟨l', n, hok, hn, -⟩ := hrange
      rw [hok] at h1
      have hzero : n.toNat = 0 := Option.some.inj h1
      have htwo : n.toNat = 2 := hn.trans h2
      omega
    · obtain ⟨l', n, hok, hn, -⟩ := hrank
      rw [hok] at h3
      have htwo : n.toNat = 2 := Option.some.inj h3
      have hone : n.toNat = 1 := hn.trans h4
      omega

end SkipRank
