import DsAlgor.SkipRank.Positions

/-!
# When the nodes of the ranks are removed

The spans of the nodes a sweep takes out are missing in its position, and the spans behind them are
not corrected before the levels below are walked; so nodes that come after a removed one are met at
a position that is too small. `RankOk` says when the sweep takes out the nodes of the ranks and no
others, `Cut.sweep_iff` that it says so.
-/

namespace SkipRank

open Circular

/-! ## When the ranks are removed -/

/-- The position the walk computes for `n`, with `A` before it, when it has kept `X`. -/
def reached (X A : List Node) (n : Node) : Nat :=
  rankAt X (n.height - 1) + (gap A (n.height - 1) + 1)

/-- No node before it is as high. -/
def Record (Z A : List Node) (z : Node) : Prop :=
  (∃ B, Z = A ++ z :: B) ∧ ∀ a ∈ A, a.height < z.height

/-- On the levels below `i`: the nodes `Y` are met at positions from `start` on. The records behind
them are met at positions above `stop`; or one of them is met when all of `Y` is gone, and the nodes
up to the next higher one are counted to positions below `start`. -/
structure RankOk (i start stop : Nat) (X Y Z : List Node) : Prop where
  out : ∀ A y B, Y = A ++ y :: B → y.height ≤ i → start ≤ reached X (X ++ A) y
  rest : (∀ A z, Record Z A z → z.height ≤ i → stop < reached X (X ++ (Y ++ A)) z) ∨
    ∃ A z, Record Z A z ∧ z.height ≤ i ∧ (∀ y ∈ Y, z.height ≤ y.height) ∧
      rankAt X (z.height - 1) + (Z.takeWhile (·.height ≤ z.height)).length < start ∧
      ∀ A' z', Record Z A' z' → z'.height ≤ i → z.height < z'.height →
        stop < reached X (X ++ (Y ++ A')) z'

section
variable {X Y Z : List Node} {start stop i j : Nat}

/-- There is nothing above the highest level. -/
theorem rankOk_high (hY : ∀ n ∈ Y, n.height ≤ i) (hZ : ∀ n ∈ Z, n.height ≤ i) (hij : i ≤ j) :
    RankOk i start stop X Y Z ↔ RankOk j start stop X Y Z := by
  have hy : ∀ A y B, Y = A ++ y :: B → y.height ≤ i := fun A y B h => hY y (by simp [h])
  have hz : ∀ A z, Record Z A z → z.height ≤ i := fun A z h => by
    obtain ⟨B, hB⟩ := h.1
    exact hZ z (by simp [hB])
  constructor
  · intro h
    refine ⟨fun A y B hA _ => h.out A y B hA (hy A y B hA), ?_⟩
    cases h.rest with
    | inl hall => exact .inl fun A z hA _ => hall A z hA (hz A z hA)
    | inr hshort =>
      obtain ⟨A, z, hA, hzi, hYz, hlen, hhigher⟩ := hshort
      exact .inr ⟨A, z, hA, hzi.trans hij, hYz, hlen, fun A' z' hA' _ =>
        hhigher A' z' hA' (hz A' z' hA')⟩
  · intro h
    refine ⟨fun A y B hA hyi => h.out A y B hA (hyi.trans hij), ?_⟩
    cases h.rest with
    | inl hall => exact .inl fun A z hA hzi => hall A z hA (hzi.trans hij)
    | inr hshort =>
      obtain ⟨A, z, hA, _, hYz, hlen, hhigher⟩ := hshort
      exact .inr ⟨A, z, hA, hz A z hA, hYz, hlen, fun A' z' hA' hzi =>
        hhigher A' z' hA' (hzi.trans hij)⟩

theorem rankOk_zero (hY : ∀ n ∈ Y, 1 ≤ n.height) (hZ : ∀ n ∈ Z, 1 ≤ n.height) :
    RankOk 0 start stop X Y Z := by
  refine ⟨fun A y B hA hy => ?_, .inl fun A z hA hz => ?_⟩
  · have := hY y (by simp [hA])
    omega
  · obtain ⟨B, hB⟩ := hA.1
    have := hZ z (by simp [hB])
    omega

/-- A level on which nothing goes wrong. -/
theorem rankOk_succ (hY : ∀ A y B, Y = A ++ y :: B → y.height = i + 1 →
    start ≤ reached X (X ++ A) y) (hZ : ∀ A z, Record Z A z → z.height = i + 1 →
      stop < reached X (X ++ (Y ++ A)) z ∧ ¬ ((∀ y ∈ Y, z.height ≤ y.height) ∧
        rankAt X (z.height - 1) + (Z.takeWhile (·.height ≤ z.height)).length < start)) :
    RankOk (i + 1) start stop X Y Z ↔ RankOk i start stop X Y Z := by
  constructor
  · intro h
    refine ⟨fun A y B hA hy => h.out A y B hA (Nat.le_succ_of_le hy), ?_⟩
    cases h.rest with
    | inl hall => exact .inl fun A z hA hz => hall A z hA (Nat.le_succ_of_le hz)
    | inr hshort =>
      obtain ⟨A, z, hA, hz, hYz, hlen, hhigher⟩ := hshort
      cases Nat.lt_or_eq_of_le hz with
      | inl hlt =>
        exact .inr ⟨A, z, hA, Nat.le_of_lt_succ hlt, hYz, hlen, fun A' z' hA' hz' =>
          hhigher A' z' hA' (Nat.le_succ_of_le hz')⟩
      | inr he => exact absurd ⟨hYz, hlen⟩ (hZ A z hA he).2
  · intro h
    refine ⟨fun A y B hA hy => ?_, ?_⟩
    · cases Nat.lt_or_eq_of_le hy with
      | inl hlt => exact h.out A y B hA (Nat.le_of_lt_succ hlt)
      | inr he => exact hY A y B hA he
    · have hup : ∀ A z, Record Z A z → z.height ≤ i + 1 →
          (z.height ≤ i → stop < reached X (X ++ (Y ++ A)) z) →
          stop < reached X (X ++ (Y ++ A)) z := by
        intro A z hA hz hlow
        cases Nat.lt_or_eq_of_le hz with
        | inl hlt => exact hlow (Nat.le_of_lt_succ hlt)
        | inr he => exact (hZ A z hA he).1
      cases h.rest with
      | inl hall => exact .inl fun A z hA hz => hup A z hA hz (hall A z hA)
      | inr hshort =>
        obtain ⟨A, z, hA, hz, hYz, hlen, hhigher⟩ := hshort
        exact .inr ⟨A, z, hA, Nat.le_succ_of_le hz, hYz, hlen, fun A' z' hA' hz' hlt =>
          hup A' z' hA' hz' fun hz' => hhigher A' z' hA' hz' hlt⟩

/-- A level on which the walk does not stop at the record. -/
theorem rankOk_passed {A : List Node} {z : Node} (hA : Record Z A z) (hz : z.height = i + 1)
    (hpass : ¬ stop < reached X (X ++ (Y ++ A)) z) : RankOk (i + 1) start stop X Y Z ↔
      (∀ A y B, Y = A ++ y :: B → y.height ≤ i + 1 → start ≤ reached X (X ++ A) y) ∧
        (∀ y ∈ Y, i + 1 ≤ y.height) ∧
        rankAt X i + (Z.takeWhile (·.height ≤ i + 1)).length < start := by
  constructor
  · intro h
    refine ⟨h.out, ?_⟩
    cases h.rest with
    | inl hall => exact absurd (hall A z hA hz.le) hpass
    | inr hshort =>
      obtain ⟨A', z', hA', hz', hYz, hlen, hhigher⟩ := hshort
      cases Nat.lt_or_eq_of_le hz' with
      | inl hlt => exact absurd (hhigher A z hA hz.le (hz ▸ hlt)) hpass
      | inr he =>
        rw [he] at hYz hlen
        exact ⟨hYz, hlen⟩
  · intro h
    obtain ⟨hout, hYz, hlen⟩ := h
    refine ⟨hout, .inr ⟨A, z, hA, hz.le, ?_, ?_, fun A' z' _ hz' hlt => ?_⟩⟩
    · rw [hz]
      exact hYz
    · rw [hz]
      exact hlen
    · omega

/-- The nodes that come before the first one above a level. -/
theorem takeWhile_of_first {p : Node → Bool} {A B : List Node} {z : Node} (hA : ∀ a ∈ A, p a = true)
    (hz : p z = false) : (A ++ z :: B).takeWhile p = A := by
  rw [List.takeWhile_append_of_pos hA, List.takeWhile_cons_of_neg (by simp [hz]), List.append_nil]

/-- The record of level `i`, if there is one. -/
theorem takeWhile_succ (Z : List Node) (i : Nat) :
    ((∀ n ∈ Z.takeWhile (·.height ≤ i + 1), n.height ≤ i) ∧
      Z.takeWhile (·.height ≤ i + 1) = Z.takeWhile (·.height ≤ i) ∧
      ∀ A z, Record Z A z → z.height ≠ i + 1) ∨
    ∃ A z B, Z.takeWhile (·.height ≤ i + 1) = A ++ z :: B ∧ Z.takeWhile (·.height ≤ i) = A ∧
      (∀ a ∈ A, a.height ≤ i) ∧ z.height = i + 1 ∧ Record Z A z ∧
      ∀ A' z', Record Z A' z' → z'.height = i + 1 → A' = A ∧ z' = z := by
  have hsplit := List.takeWhile_append_dropWhile (p := fun n : Node => decide (n.height ≤ i + 1))
    (l := Z)
  cases split_first (B := Z.takeWhile (·.height ≤ i + 1)) (i := i) with
  | inl hlow =>
    refine .inl ⟨hlow, ?_, fun A z hA hz => ?_⟩
    · conv_rhs => rw [← hsplit]
      rw [List.takeWhile_append_of_pos fun n hn => decide_eq_true (hlow n hn)]
      cases hD : Z.dropWhile (·.height ≤ i + 1) with
      | nil => simp
      | cons n D =>
        have hn := List.head?_dropWhile_not (fun n : Node => decide (n.height ≤ i + 1)) Z
        rw [hD] at hn
        have hn : ¬ n.height ≤ i + 1 := by simpa using hn
        rw [List.takeWhile_cons_of_neg (by simp; omega), List.append_nil]
    · obtain ⟨⟨B, hB⟩, hsmall⟩ := hA
      have hmem : z ∈ Z.takeWhile (·.height ≤ i + 1) := by
        rw [hB, List.takeWhile_append_of_pos fun a ha => decide_eq_true (by
          have := hsmall a ha
          omega), List.takeWhile_cons_of_pos (by simp [hz])]
        simp
      have := hlow z hmem
      omega
  | inr hfirst =>
    obtain ⟨A, z, B, hAB, hA, hz⟩ := hfirst
    have hZ : Z = A ++ z :: (B ++ Z.dropWhile (·.height ≤ i + 1)) := by
      rw [← List.cons_append, ← List.append_assoc, ← hAB, hsplit]
    have hmem : z ∈ Z.takeWhile (·.height ≤ i + 1) := by simp [hAB]
    have hheight : z.height ≤ i + 1 := by simpa using List.mem_takeWhile_imp hmem
    refine .inr ⟨A, z, B, hAB, ?_, hA, by omega, ⟨⟨_, hZ⟩, fun a ha => ?_⟩, fun A' z' hA' hz' => ?_⟩
    · rw [hZ]
      exact takeWhile_of_first (fun a ha => decide_eq_true (hA a ha))
        (decide_eq_false (not_le.2 hz))
    · exact lt_of_le_of_lt (hA a ha) hz
    · obtain ⟨⟨B', hB'⟩, hsmall⟩ := hA'
      rw [hZ] at hB'
      cases append_cons_cases hB' with
      | inl hbefore =>
        obtain ⟨C, rfl, -⟩ := hbefore
        have := hA z' (by simp)
        omega
      | inr hrest =>
        cases hrest with
        | inl hsame => exact ⟨hsame.1.symm, hsame.2.1.symm⟩
        | inr hbehind =>
          obtain ⟨C, rfl, -⟩ := hbehind
          have := hsmall z (by simp)
          omega

end

/-! ## The levels -/

/-- The nodes before the ranks, those of the ranks, and those behind them. -/
structure Cut (d : Node → Nat) (start stop : Nat) (X Y Z : List Node) : Prop where
  before : X.length + 1 = start
  le : start ≤ stop
  bound : X.length + Y.length ≤ stop
  nonempty : Y ≠ []
  counts : Counts d (X ++ (Y ++ Z))
  height : ∀ n ∈ X ++ (Y ++ Z), 1 ≤ n.height
  nodup : (X ++ (Y ++ Z)).Nodup

section
variable {d : Node → Nat} {X Y Z M : List Node} {start stop i j t : Nat}

theorem rankAt_upTo (h : i ≤ j) (A : List Node) : rankAt (upTo j A) i = rankAt A j := by
  unfold rankAt
  rw [gap_upTo h, length_upTo, Nat.sub_zero, rankAt]

theorem behind_behind (h : i ≤ j) (A : List Node) : behind i (behind j A) = behind i A := by
  conv_rhs => rw [← upTo_append_behind j A]
  cases split_first (B := behind j A) (i := i) with
  | inl hlow =>
    have hnil : behind i (upTo j A) = [] := List.eq_nil_of_length_eq_zero (gap_upTo h)
    have hself : behind i (behind j A) = behind j A := behind_append_low (A := []) hlow
    rw [behind_append_low hlow, hnil, hself, List.nil_append]
  | inr hfirst =>
    obtain ⟨B, n, C, hB, -, hn⟩ := hfirst
    rw [hB, ← List.append_assoc, behind_append_high hn, behind_append_high hn]

/-- A node of the level that has been kept stays. -/
theorem mem_sweep_of_kept {σ : Type} {judge : Node → σ → Verdict σ} {st : σ} {n : Node}
    (hn : n ∈ upTo i (sweepNodes judge i st M).kept) : n ∈ (sweep judge (i + 1) st M).1 := by
  rw [sweep]
  exact List.mem_append_left _ (List.mem_append_left _ hn)

theorem mem_upTo_of_high {A : List Node} {n : Node} (hn : n ∈ A) (hi : i < n.height) :
    n ∈ upTo i A := by
  rw [← upTo_append_behind i A] at hn
  cases List.mem_append.1 hn with
  | inl hn => exact hn
  | inr hn => exact absurd (mem_behind hn) (not_le.2 hi)

/-- A node of the ranks that is met too early is kept. -/
theorem sweepNodes_early (hle : start ≤ stop) : ∀ {Y : List Node},
    (∀ y ∈ Y, i < y.height → t + d y ≤ stop) → (∃ y ∈ Y, i < y.height ∧ t + d y < start) →
    ∃ y ∈ Y, i < y.height ∧ y ∈ (sweepNodes (posJudge d start stop) i t (Y ++ M)).kept
  | [], _, hbad => by
    obtain ⟨y, hy, -⟩ := hbad
    cases hy
  | y :: Y, hup, hbad => by
    have htail : ∀ {A : List Node}, (∃ z ∈ Y, i < z.height ∧ z ∈ A) →
        ∃ z ∈ y :: Y, i < z.height ∧ z ∈ A := fun ⟨z, hz, h⟩ => ⟨z, List.mem_cons_of_mem _ hz, h⟩
    have hupY := fun z hz => hup z (List.mem_cons_of_mem y hz)
    rw [List.cons_append, sweepNodes]
    by_cases hy : y.height ≤ i
    · have hbadY : ∃ z ∈ Y, i < z.height ∧ t + d z < start := by
        obtain ⟨z, hz, hi, hlt⟩ := hbad
        cases List.mem_cons.1 hz with
        | inl he => exact absurd (he ▸ hi) (not_lt.2 hy)
        | inr hz => exact ⟨z, hz, hi, hlt⟩
      obtain ⟨z, hz, hi, hkept⟩ := sweepNodes_early hle hupY hbadY
      rw [if_pos hy]
      exact ⟨z, List.mem_cons_of_mem _ hz, hi, List.mem_cons_of_mem _ hkept⟩
    · have hstop := hup y List.mem_cons_self (not_le.1 hy)
      rw [if_neg hy]
      by_cases hlt : t + d y < start
      · have hjudge : posJudge d start stop y t = .keep (t + d y) := by
          rw [posJudge, if_neg (by omega), if_neg (by omega)]
        rw [hjudge]
        exact ⟨y, List.mem_cons_self, not_le.1 hy, List.mem_cons_self⟩
      · have hjudge : posJudge d start stop y t = .remove := by
          rw [posJudge, if_neg (by omega), if_pos (by omega)]
        have hbadY : ∃ z ∈ Y, i < z.height ∧ t + d z < start := by
          obtain ⟨z, hz, hi, hz'⟩ := hbad
          cases List.mem_cons.1 hz with
          | inl he => exact absurd (he ▸ hz') hlt
          | inr hz => exact ⟨z, hz, hi, hz'⟩
        rw [hjudge]
        exact htail (sweepNodes_early hle hupY hbadY)

section
variable (h : Cut d start stop X Y Z)
include h

/-- On the level of `y` the position is that of the walk. -/
theorem Cut.reached_out {A B : List Node} {y : Node} (hY : Y = A ++ y :: B) :
    reached X (X ++ A) y = rankAt X (y.height - 1) + d y ∧
      rankAt X (y.height - 1) + d y ≤ stop := by
  have hd := h.counts (X ++ A) y (B ++ Z) (by simp [hY])
  have hup := h.bound
  have h1 := rankAt_add_gap (A := X) (i := y.height - 1)
  rw [hY] at hup
  simp only [List.length_append, List.length_cons] at hup
  refine ⟨by rw [hd]; rfl, ?_⟩
  rw [hd]
  by_cases hA : ∃ a ∈ A, y.height - 1 < a.height
  · have h2 := gap_le_length (A := A) (i := y.height - 1)
    rw [gap_append_high hA]
    omega
  · rw [gap_append_low fun a ha => not_lt.1 fun hc => hA ⟨a, ha, hc⟩]
    omega

theorem Cut.reached_rest {A : List Node} {z : Node} (hZ : Record Z A z) :
    reached X (X ++ (Y ++ A)) z = rankAt X (z.height - 1) + d z := by
  obtain ⟨⟨B, hB⟩, -⟩ := hZ
  have hd := h.counts (X ++ (Y ++ A)) z B (by simp [hB])
  rw [hd]
  rfl

/-- The nodes before the ranks are kept. -/
theorem Cut.enter (i : Nat) (M : List Node) :
    let r := sweepNodes (posJudge d start stop) i (rankAt X (i + 1)) (behind (i + 1) X ++ M)
    let r' := sweepNodes (posJudge d start stop) i (rankAt X i) M
    r.kept = behind (i + 1) X ++ r'.kept ∧ r.rest = r'.rest ∧ r.state = r'.state := by
  have hX := upTo_append_behind (i + 1) X
  have hlen := h.before
  have hkept := sweepNodes_kept (A := upTo (i + 1) X) (C := behind (i + 1) X) (M := M) (b := 0)
    (i := i) h.le (by rw [hX]; exact h.counts.front) (fun n hn => mem_behind hn)
    (by rw [hX]; omega)
  rwa [hX, rankAt_upTo (Nat.le_add_right i 1), Nat.zero_add, Nat.zero_add] at hkept

/-- A level that takes out nodes of the ranks only. -/
theorem Cut.level_right {T D : List Node} (hT : ∀ n ∈ T, n.height ≤ i)
    (hkept : (sweepNodes (posJudge d start stop) i (rankAt X i) M).kept =
      Y.filter (·.height ≤ i) ++ T)
    (hrest : (sweepNodes (posJudge d start stop) i (rankAt X i) M).rest = D)
    (hstate : (sweepNodes (posJudge d start stop) i (rankAt X i) M).state = rankAt X i) :
    (sweep (posJudge d start stop) (i + 1) (rankAt X (i + 1)) (behind (i + 1) X ++ M)).1 =
        behind (i + 1) X ++ (T ++ D) ↔
      (sweep (posJudge d start stop) i (rankAt X i)
        (behind i X ++ (Y.filter (·.height ≤ i) ++ T))).1 = behind i X ++ T := by
  obtain ⟨hk, hr, hs⟩ := h.enter i M
  have hlow : ∀ n ∈ Y.filter (·.height ≤ i) ++ T, n.height ≤ i := by
    intro n hn
    cases List.mem_append.1 hn with
    | inl hn => exact of_decide_eq_true (List.mem_filter.1 hn).2
    | inr hn => exact hT n hn
  have hbehind := behind_behind (Nat.le_add_right i 1) X
  have hX := upTo_append_behind i (behind (i + 1) X)
  rw [hbehind] at hX
  rw [sweep, hk, hr, hs, hkept, hrest, hstate, upTo_append_low hlow, behind_append_low hlow,
    hbehind]
  conv_lhs => rhs; rw [← hX]
  rw [List.append_assoc, List.append_assoc, List.append_right_inj,
    ← List.append_assoc (behind i X) T D, List.append_left_inj]

/-- A node of the ranks that is left. -/
theorem Cut.wrong {R T : List Node} (hT : T <+: Z) {y : Node} (hy : y ∈ Y) (hR : y ∈ R) :
    R ≠ behind j X ++ T := by
  intro he
  rw [he] at hR
  have hnd := h.nodup
  rw [List.nodup_append, List.nodup_append] at hnd
  cases List.mem_append.1 hR with
  | inl hX =>
    have hsuffix : behind j X <:+ X := List.rtakeWhile_suffix _ _
    exact hnd.2.2 y (hsuffix.subset hX) y (List.mem_append_left _ hy) rfl
  | inr hZ => exact hnd.2.1.2.2 y hy y (hT.subset hZ) rfl

/-- The nodes behind the ranks are counted from the last node of the ranks on. -/
theorem Cut.gap_high (hY : ∀ y ∈ Y, i < y.height) : gap (X ++ Y) i = 0 := by
  have hlast := List.dropLast_append_getLast h.nonempty
  have hy := hY _ (List.getLast_mem h.nonempty)
  rw [← hlast, ← List.append_assoc, gap_concat, if_neg (not_le.2 hy)]

theorem Cut.counts_rest (hY : ∀ y ∈ Y, i < y.height) {T : List Node} (hT : T <+: Z)
    (hlow : ∀ n ∈ T, n.height ≤ i + 1) : Counts d T := by
  obtain ⟨D, rfl⟩ := hT
  have hd := h.counts
  rw [← List.append_assoc, ← List.append_assoc] at hd
  refine hd.front.suffix fun n hn => h.gap_high fun y hy => ?_
  have h1 := hY y hy
  have h2 := hlow n hn
  omega

/-- A node of the ranks is met too early. -/
theorem Cut.level_early {T A B : List Node} {y : Node} (hT : T <+: Z) (hY : Y = A ++ y :: B)
    (hy : y.height = i + 1) (hearly : reached X (X ++ A) y < start) :
    (sweep (posJudge d start stop) (i + 1) (rankAt X (i + 1))
      (behind (i + 1) X ++ (Y.filter (·.height ≤ i + 1) ++ T))).1 ≠ behind (i + 1) X ++ T := by
  have hheight : ∀ z ∈ Y.filter (·.height ≤ i + 1), i < z.height → z.height - 1 = i := by
    intro z hz hi
    have hle : z.height ≤ i + 1 := by simpa using (List.mem_filter.1 hz).2
    omega
  have hup : ∀ z ∈ Y.filter (·.height ≤ i + 1), i < z.height → rankAt X i + d z ≤ stop := by
    intro z hz hi
    obtain ⟨A', B', hA'⟩ := List.append_of_mem (List.mem_filter.1 hz).1
    have := (h.reached_out hA').2
    rwa [hheight z hz hi] at this
  have hbad : ∃ z ∈ Y.filter (·.height ≤ i + 1), i < z.height ∧ rankAt X i + d z < start := by
    rw [(h.reached_out hY).1, hy, Nat.add_sub_cancel] at hearly
    refine ⟨y, List.mem_filter.2 ⟨by simp [hY], by simp [hy]⟩, by omega, hearly⟩
  obtain ⟨z, hz, hi, hkept⟩ := sweepNodes_early (M := T) h.le hup hbad
  have hresult : z ∈ (sweep (posJudge d start stop) (i + 1) (rankAt X (i + 1))
      (behind (i + 1) X ++ (Y.filter (·.height ≤ i + 1) ++ T))).1 := by
    refine mem_sweep_of_kept (mem_upTo_of_high ?_ hi)
    rw [(h.enter i _).1]
    exact List.mem_append_right _ hkept
  exact h.wrong hT (List.mem_filter.1 hz).1 hresult

end

/-- What a loop over a level leaves. -/
theorem mem_of_mem_sweep {σ : Type} {judge : Node → σ → Verdict σ} {st : σ} {n : Node}
    (hn : n ∈ (sweep judge (i + 1) st M).1) :
    n ∈ (sweepNodes judge i st M).kept ∨ n ∈ (sweepNodes judge i st M).rest := by
  rw [sweep] at hn
  cases List.mem_append.1 hn with
  | inr hrest => exact .inr hrest
  | inl hkept =>
    rw [← upTo_append_behind i (sweepNodes judge i st M).kept]
    refine .inl ?_
    cases List.mem_append.1 hkept with
    | inl hn => exact List.mem_append_left _ hn
    | inr hn => exact List.mem_append_right _ ((sweep_sublist _ _ _ _).1.subset hn)

/-- A loop over a level that takes out the nodes of the ranks on it and comes to the record `z`. -/
structure Arrives (d : Node → Nat) (start stop : Nat) (X Y Z : List Node) (i : Nat) (A : List Node)
    (z : Node) (B : List Node) : Prop where
  pre : A ++ z :: B <+: Z
  low : ∀ a ∈ A, a.height ≤ i
  top : z.height = i + 1
  height : ∀ n ∈ A ++ z :: B, n.height ≤ i + 1
  out : ∀ y ∈ Y.filter (·.height ≤ i + 1), i < y.height →
    start ≤ rankAt X i + d y ∧ rankAt X i + d y ≤ stop

/-- The nodes of level `i` among those up to the next one. -/
theorem filter_low (Y : List Node) (i : Nat) :
    (Y.filter (·.height ≤ i + 1)).filter (·.height ≤ i) = Y.filter (·.height ≤ i) := by
  rw [List.filter_filter]
  refine List.filter_congr fun y _ => ?_
  by_cases hy : y.height ≤ i
  · simp [hy, Nat.le_succ_of_le hy]
  · simp [hy]

section
variable {A B : List Node} {z : Node}

/-- What the loop keeps and leaves. -/
theorem Arrives.level (ha : Arrives d start stop X Y Z i A z B) :
    let r := sweepNodes (posJudge d start stop) i (rankAt X i)
      (Y.filter (·.height ≤ i + 1) ++ (A ++ z :: B))
    let r' := sweepNodes (posJudge d start stop) i (rankAt X i) (z :: B)
    r.kept = Y.filter (·.height ≤ i) ++ (A ++ r'.kept) ∧ r.rest = r'.rest ∧ r.state = r'.state := by
  obtain ⟨hk1, hr1, hs1⟩ := sweepNodes_out (M := A ++ z :: B) ha.out
  obtain ⟨hk2, hr2, hs2⟩ := sweepNodes_low d start stop (M := z :: B)
    (t := rankAt X i) ha.low
  rw [filter_low, hk2] at hk1
  exact ⟨hk1, hr1.trans hr2, hs1.trans hs2⟩

variable (h : Cut d start stop X Y Z)
include h

/-- The record is taken out. -/
theorem Cut.level_removed (ha : Arrives d start stop X Y Z i A z B)
    (hstop : rankAt X i + d z ≤ stop) (hstart : start ≤ rankAt X i + d z) :
    (sweep (posJudge d start stop) (i + 1) (rankAt X (i + 1))
      (behind (i + 1) X ++ (Y.filter (·.height ≤ i + 1) ++ (A ++ z :: B)))).1 ≠
        behind (i + 1) X ++ (A ++ z :: B) := by
  obtain ⟨hk, hr, -⟩ := h.enter i (Y.filter (·.height ≤ i + 1) ++ (A ++ z :: B))
  obtain ⟨hk1, hr1, -⟩ := ha.level
  have hjudge : posJudge d start stop z (rankAt X i) = .remove := by
    rw [posJudge, if_neg (by omega), if_pos hstart]
  have hi : ¬ z.height ≤ i := by
    have := ha.top
    omega
  rw [sweepNodes, if_neg hi, hjudge] at hk1 hr1
  have hB := (sweepNodes_sublist (posJudge d start stop) i B
    (rankAt X i)).1.subset
  intro he
  have hz : z ∈ (sweep (posJudge d start stop) (i + 1) (rankAt X (i + 1))
      (behind (i + 1) X ++ (Y.filter (·.height ≤ i + 1) ++ (A ++ z :: B)))).1 := by
    rw [he]
    simp
  -- it is at no other place
  obtain ⟨D, hD⟩ := ha.pre
  have hnd := h.nodup
  have hsplit : X ++ (Y ++ Z) = (X ++ (Y ++ A)) ++ z :: (B ++ D) := by rw [← hD]; simp
  rw [hsplit, List.nodup_middle, List.nodup_cons] at hnd
  refine hnd.1 ?_
  cases mem_of_mem_sweep hz with
  | inr hrest =>
    rw [hr, hr1] at hrest
    have := hB (List.mem_append_right _ hrest)
    simp [this]
  | inl hkept =>
    rw [hk, hk1] at hkept
    simp only [List.mem_append] at hkept ⊢
    cases hkept with
    | inl hX =>
      have hsuffix : behind (i + 1) X <:+ X := List.rtakeWhile_suffix _ _
      exact .inl (.inl (hsuffix.subset hX))
    | inr hkept =>
      cases hkept with
      | inl hY => exact .inl (.inr (.inl (List.mem_filter.1 hY).1))
      | inr hkept =>
        cases hkept with
        | inl hA => exact .inl (.inr (.inr hA))
        | inr hB' => exact .inr (.inl (hB (List.mem_append_left _ hB')))

/-- The record is kept, behind a node of the ranks. -/
theorem Cut.level_behind (ha : Arrives d start stop X Y Z i A z B)
    (hstart : rankAt X i + d z < start) {y : Node} (hy : y ∈ Y) (hyi : y.height ≤ i) :
    (sweep (posJudge d start stop) (i + 1) (rankAt X (i + 1))
      (behind (i + 1) X ++ (Y.filter (·.height ≤ i + 1) ++ (A ++ z :: B)))).1 ≠
        behind (i + 1) X ++ (A ++ z :: B) := by
  obtain ⟨hk, -, -⟩ := h.enter i (Y.filter (·.height ≤ i + 1) ++ (A ++ z :: B))
  obtain ⟨hk1, -, -⟩ := ha.level
  have hi : i < z.height := by
    have := ha.top
    omega
  have hjudge : posJudge d start stop z (rankAt X i) = .keep (rankAt X i + d z) := by
    have := h.le
    rw [posJudge, if_neg (by omega), if_neg (by omega)]
  rw [sweepNodes, if_neg (not_le.2 hi), hjudge] at hk1
  refine h.wrong ha.pre hy (mem_sweep_of_kept ?_)
  rw [hk, hk1, ← List.append_assoc, ← List.append_assoc, upTo_append_high hi]
  refine List.mem_append_left _ (List.mem_append_left _ (List.mem_append_right _ ?_))
  exact List.mem_filter.2 ⟨hy, decide_eq_true hyi⟩

/-- The record is kept, and all nodes of the ranks are gone. -/
theorem Cut.level_alone (ha : Arrives d start stop X Y Z i A z B)
    (hstart : rankAt X i + d z < start) (hY : ∀ y ∈ Y, i < y.height) :
    (sweep (posJudge d start stop) (i + 1) (rankAt X (i + 1))
      (behind (i + 1) X ++ (Y.filter (·.height ≤ i + 1) ++ (A ++ z :: B)))).1 =
        behind (i + 1) X ++ (A ++ z :: B) ↔ rankAt X i + (A ++ z :: B).length < start := by
  obtain ⟨hk, hr, hs⟩ := h.enter i (Y.filter (·.height ≤ i + 1) ++ (A ++ z :: B))
  obtain ⟨hk1, hr1, hs1⟩ := ha.level
  obtain ⟨hk2, hr2, hs2⟩ := sweepNodes_low d start stop (M := z :: B)
    (t := rankAt X i) ha.low
  have hi : i < z.height := by
    have := ha.top
    omega
  have hnil : Y.filter (·.height ≤ i) = [] := List.filter_eq_nil_iff.2 fun y hy => by
    have := hY y hy
    simpa using this
  have hjudge : posJudge d start stop z (rankAt X i) = .keep (rankAt X i + d z) := by
    have := h.le
    rw [posJudge, if_neg (by omega), if_neg (by omega)]
  have hkz : (sweepNodes (posJudge d start stop) i (rankAt X i) (z :: B)).kept =
      z :: (sweepNodes (posJudge d start stop) i (rankAt X i + d z) B).kept := by
    rw [sweepNodes, if_neg (not_le.2 hi), hjudge]
  -- the loop does to the nodes behind what it would do without those before
  have hresult : (sweep (posJudge d start stop) (i + 1) (rankAt X (i + 1))
      (behind (i + 1) X ++ (Y.filter (·.height ≤ i + 1) ++ (A ++ z :: B)))).1 =
      behind (i + 1) X ++
        (sweep (posJudge d start stop) (i + 1) (rankAt X i) (A ++ z :: B)).1 := by
    rw [sweep, hk, hr, hs, hk1, hr1, hs1, hnil, List.nil_append, sweep, hk2, hr2, hs2, hkz,
      ← List.append_assoc, upTo_append_high hi, behind_append_high hi, upTo_append_high hi,
      behind_append_high hi]
    simp only [List.append_assoc]
  rw [hresult, List.append_right_inj]
  refine sweep_counted h.le (h.counts_rest hY ha.pre ha.height) (fun n hn =>
    ⟨h.height n ?_, ha.height n hn⟩) (by omega)
  exact List.mem_append_right _ (List.mem_append_right _ (ha.pre.subset hn))

/-- The walk goes on at the record: everything depends on the nodes up to the next higher one. -/
theorem Cut.level_passed (ha : Arrives d start stop X Y Z i A z B)
    (hstop : rankAt X i + d z ≤ stop) : (sweep (posJudge d start stop) (i + 1) (rankAt X (i + 1))
      (behind (i + 1) X ++ (Y.filter (·.height ≤ i + 1) ++ (A ++ z :: B)))).1 =
        behind (i + 1) X ++ (A ++ z :: B) ↔
      (∀ y ∈ Y, i + 1 ≤ y.height) ∧ rankAt X i + (A ++ z :: B).length < start := by
  by_cases hstart : rankAt X i + d z < start
  · by_cases hY : ∀ y ∈ Y, i + 1 ≤ y.height
    · rw [h.level_alone ha hstart hY, and_iff_right hY]
    · have hex : ∃ y ∈ Y, y.height ≤ i := by
        by_contra hc
        exact hY fun y hy => not_le.1 fun hyi => hc ⟨y, hy, hyi⟩
      obtain ⟨y, hy, hyi⟩ := hex
      exact iff_of_false (h.level_behind ha hstart hy hyi) fun hc => hY hc.1
  · refine iff_of_false (h.level_removed ha hstop (not_lt.1 hstart)) fun hc => hstart ?_
    have hd := h.counts_rest hc.1 ha.pre ha.height A z B rfl
    have hgap := gap_append_low (A := []) ha.low
    rw [List.nil_append, gap_nil] at hgap
    rw [ha.top, Nat.add_sub_cancel, hgap] at hd
    have hlen := hc.2
    rw [List.length_append, List.length_cons] at hlen
    omega

end

/-- **The nodes that remain** are those before and behind the ranks if and only if `RankOk`. -/
theorem Cut.sweep_iff (h : Cut d start stop X Y Z) : ∀ i,
    (sweep (posJudge d start stop) i (rankAt X i)
      (behind i X ++ (Y.filter (·.height ≤ i) ++ Z.takeWhile (·.height ≤ i)))).1 =
        behind i X ++ Z.takeWhile (·.height ≤ i) ↔ RankOk i start stop X Y Z
  | 0 => by
    have hnil : Y.filter (·.height ≤ 0) = [] := List.filter_eq_nil_iff.2 fun y hy => by
      have := h.height y (by simp [hy])
      simp
      omega
    rw [hnil]
    exact iff_of_true rfl (rankOk_zero (fun y hy => h.height y (by simp [hy]))
      fun z hz => h.height z (by simp [hz]))
  | i + 1 => by
    have ih := h.sweep_iff i
    have hT : Z.takeWhile (·.height ≤ i + 1) <+: Z := List.takeWhile_prefix _
    by_cases hearly : ∀ A y B, Y = A ++ y :: B → y.height = i + 1 → start ≤ reached X (X ++ A) y
    · have hout : ∀ y ∈ Y.filter (·.height ≤ i + 1), i < y.height →
          start ≤ rankAt X i + d y ∧ rankAt X i + d y ≤ stop := by
        intro y hy hi
        obtain ⟨hyY, hle⟩ := List.mem_filter.1 hy
        have hle : y.height ≤ i + 1 := by simpa using hle
        obtain ⟨A, B, hA⟩ := List.append_of_mem hyY
        have hheight : y.height = i + 1 := by omega
        have h1 := hearly A y B hA hheight
        obtain ⟨h2, h3⟩ := h.reached_out hA
        rw [h2] at h1
        rw [hheight, Nat.add_sub_cancel] at h1 h3
        exact ⟨h1, h3⟩
      cases takeWhile_succ Z i with
      | inl hnone =>
        obtain ⟨hlow, heq, hno⟩ := hnone
        rw [← heq] at ih
        obtain ⟨hk1, hr1, hs1⟩ := sweepNodes_out (M := Z.takeWhile (·.height ≤ i + 1)) hout
        obtain ⟨hk2, hr2, hs2⟩ := sweepNodes_low d start stop (M := [])
          (t := rankAt X i) hlow
        rw [List.append_nil] at hk2 hr2 hs2
        rw [filter_low, hk2] at hk1
        have hright := h.level_right (D := []) hlow (hk1.trans (congrArg _ (List.append_nil _)))
          (hr1.trans hr2) (hs1.trans hs2)
        rw [List.append_nil] at hright
        rw [hright, ih, rankOk_succ hearly fun A z hA hz => absurd hz (hno A z hA)]
      | inr hsome =>
        obtain ⟨A, z, B, hAB, hTi, hA, hz, hrec, huniq⟩ := hsome
        have ha : Arrives d start stop X Y Z i A z B :=
          ⟨hAB ▸ hT, hA, hz, fun n hn => by
            rw [← hAB] at hn
            simpa using List.mem_takeWhile_imp hn, hout⟩
        have hreached : reached X (X ++ (Y ++ A)) z = rankAt X i + d z := by
          rw [h.reached_rest hrec, hz, Nat.add_sub_cancel]
        by_cases hstop : stop < rankAt X i + d z
        · -- the walk stops at the record
          have hi : ¬ z.height ≤ i := by omega
          obtain ⟨hk1, hr1, hs1⟩ := ha.level
          have hjudge : posJudge d start stop z (rankAt X i) = .stop := if_pos hstop
          rw [sweepNodes, if_neg hi, hjudge] at hk1 hr1 hs1
          have hright := h.level_right (D := z :: B) hA
            (hk1.trans (by rw [List.append_nil])) hr1 hs1
          rw [hTi] at ih
          rw [hAB, hright, ih, rankOk_succ hearly fun A' z' hA' hz' => ?_]
          obtain ⟨rfl, rfl⟩ := huniq A' z' hA' hz'
          refine ⟨hreached ▸ hstop, fun hc => ?_⟩
          have hYz : ∀ y ∈ Y, i < y.height := by
            intro y hy
            have := hc.1 y hy
            omega
          have hd := h.counts_rest hYz ha.pre ha.height A' z' B rfl
          have hgap := gap_append_low (A := []) hA
          rw [List.nil_append, gap_nil] at hgap
          rw [hz, Nat.add_sub_cancel, hgap] at hd
          have hlen := hc.2
          have hle := h.le
          rw [hz, Nat.add_sub_cancel, hAB, List.length_append, List.length_cons] at hlen
          omega
        · rw [hAB, h.level_passed ha (not_lt.1 hstop),
            rankOk_passed hrec hz (hreached ▸ hstop), hAB]
          refine ⟨fun hc => ⟨fun A' y B' hA' hy => ?_, hc⟩, fun hc => hc.2⟩
          have hyi := hc.1 y (by simp [hA'])
          exact hearly A' y B' hA' (by omega)
    · refine iff_of_false ?_ fun hc => hearly fun A y B hA hy => hc.out A y B hA hy.le
      obtain ⟨A, y, B, hA, hy, hlt⟩ : ∃ A y B, Y = A ++ y :: B ∧ y.height = i + 1 ∧
          reached X (X ++ A) y < start := by
        by_contra hc
        exact hearly fun A y B hA hy => not_lt.1 fun hlt => hc ⟨A, y, B, hA, hy, hlt⟩
      exact h.level_early hT hA hy hlt

end

end SkipRank
