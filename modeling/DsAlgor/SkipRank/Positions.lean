import DsAlgor.SkipRank.Sweep

/-!
# Positions while nodes are removed

A sweep that adds up the spans of the nodes it keeps, on numbers: `d` gives the spans. The nodes
below `start` are kept on every level, and where the positions are right, nothing else is lost
(`sweep_counted`).
-/

namespace SkipRank

open Circular

/-- The body of the loop, where `d` gives the spans on the highest levels. -/
def posJudge (d : Node → Nat) (start stop : Nat) (n : Node) (traversed : Nat) : Verdict Nat :=
  if traversed + d n > stop then .stop
  else if traversed + d n ≥ start then .remove
  else .keep (traversed + d n)

/-- `d` counts the nodes since the last one that is as high, or since the first of all. -/
def Counts (d : Node → Nat) (A : List Node) : Prop :=
  ∀ A₁ n A₂, A = A₁ ++ n :: A₂ → d n = gap A₁ (n.height - 1) + 1

section
variable {A B C : List Node} {n : Node} {i k : Nat}

@[simp] theorem rankAt_nil : rankAt [] i = 0 := rfl

theorem rankAt_append_low (h : ∀ n ∈ C, n.height ≤ i) : rankAt (A ++ C) i = rankAt A i := by
  unfold rankAt
  rw [gap_append_low h, List.length_append]
  omega

theorem rankAt_concat_high (h : i < n.height) : rankAt (A ++ [n]) i = A.length + 1 := by
  unfold rankAt
  rw [gap_concat, if_neg (not_le.2 h), List.length_append, List.length_singleton, Nat.sub_zero]

theorem gap_append_zero (h : gap A k = 0) : gap (A ++ C) k = gap C k := by
  by_cases hC : ∃ n ∈ C, k < n.height
  · exact gap_append_high hC
  · have hlow : ∀ n ∈ C, n.height ≤ k := fun n hn => not_lt.1 fun hk => hC ⟨n, hn, hk⟩
    have hnil := gap_append_low (A := []) hlow
    rw [List.nil_append, gap_nil] at hnil
    rw [gap_append_low hlow, h, hnil]

theorem length_upTo : (upTo i A).length = rankAt A i := by
  have h := congrArg List.length (upTo_append_behind i A)
  rw [List.length_append] at h
  unfold rankAt gap
  unfold behind at h
  omega

theorem length_behind : (behind i A).length = gap A i := rfl

theorem gap_upTo (h : k ≤ i) : gap (upTo i A) k = 0 := by
  cases (show StartsAt (upTo i A) i from (StartsAt.upTo (.inl rfl) A)) with
  | inl hnil =>
    rw [hnil]
    rfl
  | inr hlast =>
    obtain ⟨C, p, hC, hp⟩ := hlast
    rw [hC, gap_concat, if_neg (by omega)]

theorem behind_append_low (h : ∀ n ∈ C, n.height ≤ i) : behind i (A ++ C) = behind i A ++ C := by
  induction C using List.reverseRecOn with
  | nil => simp
  | append_singleton C n ih =>
    have hn : decide (n.height ≤ i) = true := decide_eq_true (h n (by simp))
    have hC := ih fun m hm => h m (by simp [hm])
    have hlast := List.rtakeWhile_concat_pos (fun m : Node => decide (m.height ≤ i)) (A ++ C) n hn
    unfold behind at hC ⊢
    rw [← List.append_assoc, hlast, hC, List.append_assoc]

theorem upTo_append_low (h : ∀ n ∈ C, n.height ≤ i) : upTo i (A ++ C) = upTo i A := by
  have h1 := upTo_append_behind i (A ++ C)
  rw [behind_append_low h, ← List.append_assoc] at h1
  have h2 := List.append_cancel_right h1
  conv_rhs at h2 => rw [← upTo_append_behind i A]
  exact List.append_cancel_right h2

theorem behind_append_high (h : i < n.height) : behind i (A ++ n :: C) = behind i (n :: C) := by
  induction C using List.reverseRecOn with
  | nil =>
    have hn : ¬ decide (n.height ≤ i) = true := by simpa using h
    have hA := List.rtakeWhile_concat_neg (fun m : Node => decide (m.height ≤ i)) A n hn
    have hnil := List.rtakeWhile_concat_neg (fun m : Node => decide (m.height ≤ i)) [] n hn
    exact hA.trans hnil.symm
  | append_singleton C m ih =>
    have hsplit : A ++ n :: (C ++ [m]) = (A ++ n :: C) ++ [m] := by simp
    rw [hsplit, ← List.cons_append]
    by_cases hm : m.height ≤ i
    · have hlow : ∀ x ∈ [m], x.height ≤ i := by simpa using hm
      rw [behind_append_low hlow, behind_append_low hlow, ih]
    · have hm : ¬ decide (m.height ≤ i) = true := by simpa using hm
      have h1 := List.rtakeWhile_concat_neg (fun x : Node => decide (x.height ≤ i))
        (A ++ n :: C) m hm
      have h2 := List.rtakeWhile_concat_neg (fun x : Node => decide (x.height ≤ i)) (n :: C) m hm
      exact h1.trans h2.symm

theorem upTo_append_high (h : i < n.height) : upTo i (A ++ n :: C) = A ++ upTo i (n :: C) := by
  have h1 := upTo_append_behind i (A ++ n :: C)
  rw [behind_append_high h] at h1
  conv_rhs at h1 => rw [← upTo_append_behind i (n :: C), ← List.append_assoc]
  exact List.append_cancel_right h1

end

section
variable {d : Node → Nat} {start stop i : Nat} {M : List Node}

/-- Nodes that are below `start` are kept. -/
theorem sweepNodes_kept {b : Nat} (hle : start ≤ stop) : ∀ {C A : List Node},
    Counts d (A ++ C) → (∀ n ∈ C, n.height ≤ i + 1) → b + (A ++ C).length < start →
    let r := sweepNodes (posJudge d start stop) i (b + rankAt A i) (C ++ M)
    let r' := sweepNodes (posJudge d start stop) i (b + rankAt (A ++ C) i) M
    r.kept = C ++ r'.kept ∧ r.rest = r'.rest ∧ r.state = r'.state
  | [], A, _, _, _ => by
    rw [List.append_nil]
    exact ⟨rfl, rfl, rfl⟩
  | n :: C, A, hd, hlow, hlen => by
    have hsplit : A ++ n :: C = (A ++ [n]) ++ C := by simp
    have hdn := hd A n C rfl
    rw [hsplit] at hd hlen ⊢
    obtain ⟨hkept, hrest, hstate⟩ :=
      sweepNodes_kept hle hd (fun m hm => hlow m (List.mem_cons_of_mem _ hm)) hlen
    rw [List.cons_append, sweepNodes]
    by_cases hn : n.height ≤ i
    · rw [rankAt_append_low (C := [n]) (by simpa using hn)] at hkept hrest hstate
      rw [if_pos hn]
      exact ⟨congrArg (n :: ·) hkept, hrest, hstate⟩
    · have hheight : n.height - 1 = i := by
        have := hlow n List.mem_cons_self
        omega
      have hpos : b + rankAt A i + d n = b + rankAt (A ++ [n]) i := by
        rw [hdn, hheight, rankAt_concat_high (not_le.1 hn)]
        have := rankAt_add_gap (A := A) (i := i)
        omega
      have hsmall : b + rankAt (A ++ [n]) i < start := by
        rw [rankAt_concat_high (not_le.1 hn)]
        simp only [List.length_append, List.length_singleton] at hlen
        omega
      have hjudge : posJudge d start stop n (b + rankAt A i) =
          .keep (b + rankAt (A ++ [n]) i) := by
        rw [posJudge, hpos, if_neg (by omega), if_neg (by omega)]
      rw [if_neg hn, hjudge]
      exact ⟨congrArg (n :: ·) hkept, hrest, hstate⟩

/-- Nodes of the ranks are taken out, if they are met at such positions. -/
theorem sweepNodes_out {t : Nat} : ∀ {Y : List Node},
    (∀ y ∈ Y, i < y.height → start ≤ t + d y ∧ t + d y ≤ stop) →
    let r := sweepNodes (posJudge d start stop) i t (Y ++ M)
    let r' := sweepNodes (posJudge d start stop) i t M
    r.kept = Y.filter (·.height ≤ i) ++ r'.kept ∧ r.rest = r'.rest ∧ r.state = r'.state
  | [], _ => ⟨rfl, rfl, rfl⟩
  | y :: Y, hY => by
    obtain ⟨hkept, hrest, hstate⟩ := sweepNodes_out fun z hz => hY z (List.mem_cons_of_mem _ hz)
    rw [List.cons_append, sweepNodes, List.filter_cons]
    by_cases hy : y.height ≤ i
    · rw [if_pos hy, decide_eq_true hy]
      exact ⟨congrArg (y :: ·) hkept, hrest, hstate⟩
    · obtain ⟨h1, h2⟩ := hY y List.mem_cons_self (not_le.1 hy)
      have hjudge : posJudge d start stop y t = .remove := by
        rw [posJudge, if_neg (by omega), if_pos h1]
      rw [if_neg hy, hjudge, decide_eq_false hy]
      exact ⟨hkept, hrest, hstate⟩

variable (d start stop) in
/-- Nodes that are not on the level. -/
theorem sweepNodes_low {t : Nat} {A : List Node} (hA : ∀ n ∈ A, n.height ≤ i) :
    let r := sweepNodes (posJudge d start stop) i t (A ++ M)
    let r' := sweepNodes (posJudge d start stop) i t M
    r.kept = A ++ r'.kept ∧ r.rest = r'.rest ∧ r.state = r'.state := by
  have h := sweepNodes_out (M := M) (show ∀ n ∈ A, i < n.height → start ≤ t + d n ∧
    t + d n ≤ stop from fun n hn hi => absurd (hA n hn) (not_le.2 hi))
  rwa [List.filter_eq_self.2 fun n hn => decide_eq_true (hA n hn)] at h

theorem Counts.front {A B : List Node} (h : Counts d (A ++ B)) : Counts d A :=
  fun A₁ n A₂ hA => h A₁ n (A₂ ++ B) (by simp [hA])

theorem Counts.suffix {A B : List Node} (h : Counts d (A ++ B))
    (hA : ∀ n ∈ B, gap A (n.height - 1) = 0) : Counts d B := by
  intro B₁ n B₂ hB
  rw [h (A ++ B₁) n B₂ (by simp [hB]), gap_append_zero (hA n (by simp [hB]))]

theorem Counts.behind {A : List Node} (h : Counts d A) : Counts d (SkipRank.behind i A) := by
  rw [← upTo_append_behind i A] at h
  exact h.suffix fun n hn => gap_upTo ((Nat.sub_le _ _).trans (mem_behind hn))

/-- A level that takes nothing out leaves the question to the levels below. -/
theorem sweep_succ_iff {σ : Type} {judge : Node → σ → Verdict σ} {st : σ} {K D : List Node}
    (hkept : (sweepNodes judge i st (K ++ D)).kept = K)
    (hrest : (sweepNodes judge i st (K ++ D)).rest = D) :
    (sweep judge (i + 1) st (K ++ D)).1 = K ++ D ↔
      (sweep judge i (sweepNodes judge i st (K ++ D)).state (behind i K)).1 = behind i K := by
  have hresult : (sweep judge (i + 1) st (K ++ D)).1 = upTo i K ++
      (sweep judge i (sweepNodes judge i st (K ++ D)).state (behind i K)).1 ++ D := by
    rw [sweep, hkept, hrest]
  rw [hresult, List.append_left_inj]
  conv_lhs => rhs; rw [← upTo_append_behind i K]
  exact List.append_right_inj _

theorem sweep_length_le {σ : Type} (judge : Node → σ → Verdict σ) (st : σ) :
    (sweep judge (i + 1) st M).1.length ≤
      (sweepNodes judge i st M).kept.length + (sweepNodes judge i st M).rest.length := by
  have h1 := (sweep_sublist judge i
    (behind i (sweepNodes judge i st M).kept) (sweepNodes judge i st M).state).1.length_le
  have h2 := congrArg List.length (upTo_append_behind i (sweepNodes judge i st M).kept)
  rw [List.length_append] at h2
  simp only [sweep, List.length_append]
  omega

/-- **Where the positions are right** nothing is taken out if and only if the last one is below
`start`. -/
theorem sweep_counted (hle : start ≤ stop) : ∀ {i : Nat} {R : List Node} {b : Nat}, Counts d R →
    (∀ n ∈ R, 1 ≤ n.height ∧ n.height ≤ i) → b < start →
    ((sweep (posJudge d start stop) i b R).1 = R ↔ b + R.length < start)
  | 0, R, b, _, hR, hb => by
    have hnil : R = [] := List.eq_nil_iff_forall_not_mem.2 fun n hn => by
      have := hR n hn
      omega
    rw [hnil]
    exact iff_of_true rfl hb
  | i + 1, R, b, hd, hR, hb => by
    -- nothing is taken out on this level
    have hlevel : ∀ K D, R = K ++ D →
        (sweepNodes (posJudge d start stop) i b R).kept = K →
        (sweepNodes (posJudge d start stop) i b R).rest = D →
        (sweepNodes (posJudge d start stop) i b R).state = b + rankAt K i →
        b + rankAt K i < start →
        ((sweep (posJudge d start stop) (i + 1) b R).1 = R ↔ b + K.length < start) := by
      intro K D hRK hkept hrest hstate hlt
      subst hRK
      have hsub : behind i K <:+ K := List.rtakeWhile_suffix _ _
      have ih := sweep_counted hle (hd.front.behind (i := i)) (fun n hn =>
        ⟨(hR n (List.mem_append_left _ (hsub.subset hn))).1, mem_behind hn⟩) hlt
      rw [sweep_succ_iff hkept hrest, hstate, ih, length_behind, Nat.add_assoc, rankAt_add_gap]
    have hlow : ∀ n ∈ R, n.height ≤ i + 1 := fun n hn => (hR n hn).2
    by_cases hlen : b + R.length < start
    · obtain ⟨hkept, hrest, hstate⟩ := sweepNodes_kept (A := []) (M := []) hle hd hlow hlen
      rw [List.append_nil] at hkept hrest hstate
      rw [List.nil_append] at hkept hrest hstate
      refine hlevel R [] (by simp) (hkept.trans (List.append_nil _)) hrest hstate ?_
      have := rankAt_add_gap (A := R) (i := i)
      omega
    · -- the nodes below `start` are kept
      obtain ⟨A, R', rfl, hA⟩ : ∃ A R', R = A ++ R' ∧ b + A.length + 1 = start := by
        refine ⟨R.take (start - 1 - b), R.drop (start - 1 - b),
          (List.take_append_drop _ _).symm, ?_⟩
        rw [List.length_take]
        omega
      have hrank : b + rankAt A i < start := by
        have := rankAt_add_gap (A := A) (i := i)
        omega
      obtain ⟨hkept, hrest, hstate⟩ := sweepNodes_kept (A := []) (M := R') (b := b) hle hd.front
        (fun n hn => hlow n (List.mem_append_left _ hn)) (by rw [List.nil_append]; omega)
      rw [List.nil_append, rankAt_nil, Nat.add_zero] at hkept hrest hstate
      refine iff_of_false ?_ hlen
      cases split_first (B := R') (i := i) with
      | inl hnone =>
        -- the level has no other node
        obtain ⟨hkept', hrest', hstate'⟩ := sweepNodes_low d start stop
          (M := []) (t := b + rankAt A i) hnone
        rw [List.append_nil] at hkept' hrest' hstate'
        have hrankA : rankAt (A ++ R') i = rankAt A i := rankAt_append_low hnone
        have := hlevel (A ++ R') [] (by simp)
          (hkept.trans (by rw [hkept']; exact congrArg (A ++ ·) (List.append_nil _)))
          (hrest.trans hrest') (hstate.trans (hstate'.trans (by rw [hrankA]; rfl)))
          (by rw [hrankA]; exact hrank)
        exact fun hR' => hlen (this.1 hR')
      | inr hsplit =>
        obtain ⟨C, n, D, rfl, hC, hn⟩ := hsplit
        obtain ⟨hkept', hrest', hstate'⟩ := sweepNodes_low d start stop
          (M := n :: D) (t := b + rankAt A i) hC
        have hheight : n.height - 1 = i := by
          have := hlow n (by simp)
          omega
        have hpos : b + rankAt A i + d n = b + (A ++ C).length + 1 := by
          have hdn := hd (A ++ C) n D (by simp)
          have := rankAt_add_gap (A := A) (i := i)
          rw [hheight, gap_append_low hC] at hdn
          rw [hdn, List.length_append]
          omega
        have hge : start ≤ b + rankAt A i + d n := by
          rw [hpos, List.length_append]
          omega
        rw [sweepNodes, if_neg (not_le.2 hn)] at hkept' hrest' hstate'
        by_cases hstop : b + rankAt A i + d n > stop
        · -- the walk stops: the levels below come to a node that is not below `start`
          have hjudge : posJudge d start stop n (b + rankAt A i) = .stop := if_pos hstop
          rw [hjudge] at hkept' hrest' hstate'
          have hrankA : rankAt (A ++ C) i = rankAt A i := rankAt_append_low hC
          have := hlevel (A ++ C) (n :: D) (by simp)
            (hkept.trans (by rw [hkept']; exact congrArg (A ++ ·) (List.append_nil _)))
            (hrest.trans hrest') (hstate.trans (hstate'.trans (by rw [hrankA])))
            (by rw [hrankA]; exact hrank)
          rw [this]
          omega
        · have hjudge : posJudge d start stop n (b + rankAt A i) = .remove := by
            rw [posJudge, if_neg hstop, if_pos hge]
          rw [hjudge] at hkept' hrest'
          intro hR'
          have h1 := congrArg List.length hR'
          have h2 := sweep_length_le (posJudge d start stop) b (i := i)
            (M := A ++ (C ++ n :: D))
          have h3 := (sweepNodes_sublist (posJudge d start stop) i D
            (b + rankAt A i)).2
          rw [hkept, hkept', hrest, hrest'] at h2
          dsimp only at h2
          simp only [List.length_append, List.length_cons] at h1 h2
          omega

end

end SkipRank
