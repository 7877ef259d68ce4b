import DsAlgor.QuickSort.Sides

/-!
# The loop of `quickSort`

What `exchange` does to the elements in front of the pivot `p`, the segment `M` of the array
`L ++ (M ++ R)`. Where the pivot is there at most once and some element is not smaller, the smaller
ones come to the left (`exchange_sides`); where all are smaller, nothing changes (`exchange_all`);
where the pivot is there twice, the loop does not end (`exchange_twice`).
-/

namespace QuickSort

open Checked

/-! ## Fuel -/

section
variable {pivot : Int}

theorem exchange_steady : ∀ {a : Arr Int} {i j : Int},
    Steady fun fuel => exchange pivot fuel a i j := by
  intro a i j fuel
  induction fuel generalizing a i j with
  | zero => exact nofun
  | succ fuel ih =>
    exact (scanUp_steady fuel).bind fun i => (scanDown_steady fuel).bind fun j =>
      ((Below.refl _).bind fun a => ih).ite (Below.refl _)

theorem quickSort_steady : ∀ {a : Arr Int} {left right : Int},
    Steady fun fuel => quickSort fuel a left right := by
  intro a left right fuel
  induction fuel generalizing a left right with
  | zero => exact nofun
  | succ fuel ih =>
    exact (Below.refl _).bind fun pivot => ((exchange_steady fuel).bind fun r =>
      (Below.refl _).bind fun a => ih.bind fun a => ih).ite (Below.refl _)

end

/-! ## A round -/

section
variable {pivot i j i₁ j₁ : Int} {a a₁ : Arr Int} {r : Arr Int × Int}
variable (hup : Ends (fun fuel => scanUp a pivot (· ≠ j) fuel i) i₁)
variable (hdown : Ends (fun fuel => scanDown a pivot (i₁ ≠ ·) fuel j) j₁)
include hup hdown

/-- The scans met. -/
theorem exchange_met (hmet : ¬ i₁ < j₁) :
    Ends (fun fuel => exchange pivot fuel a i j) (a, i₁) := by
  refine Ends.succ (hup.bind (hdown.bind ?_))
  simp only [if_neg hmet]
  exact Ends.pure _

/-- Two elements change places. -/
theorem exchange_round (hlt : i₁ < j₁) (hswap : a.swap i₁ j₁ = .ok a₁)
    (hrest : Ends (fun fuel => exchange pivot fuel a₁ i₁ j₁) r) :
    Ends (fun fuel => exchange pivot fuel a i j) r := by
  refine Ends.succ (hup.bind (hdown.bind ?_))
  simp only [if_pos hlt, hswap]
  exact hrest

/-- Two elements have changed places in a run that returns. -/
theorem exchange_rest (hlt : i₁ < j₁) (hswap : a.swap i₁ j₁ = .ok a₁) {fuel : Nat}
    (hr : exchange pivot (fuel + 1) a i j = .ok r) : exchange pivot fuel a₁ i₁ j₁ = .ok r := by
  obtain ⟨i', hi', hr⟩ := bind_eq_ok hr
  have hi := scanUp_steady.eq hup hi'
  subst hi
  obtain ⟨j', hj', hr⟩ := bind_eq_ok hr
  have hj := scanDown_steady.eq hdown hj'
  subst hj
  simp only [if_pos hlt, hswap] at hr
  exact hr

end

section
variable {p b s : Int} {L M N R Y W : List Int}

theorem scanUp_round {j : Int} (hY : ∀ y ∈ Y, y < p) (hb : p ≤ b) (hj : (L ++ Y).length ≤ j) :
    Ends (fun fuel => scanUp ⟨0, L ++ (Y ++ b :: R)⟩ p (· ≠ j) fuel L.length)
      (L ++ Y).length := by
  have hlen : ((L ++ Y).length : Int) = L.length + Y.length := by simp
  rw [hlen] at hj ⊢
  exact scanUp_ends rfl hY (fun k _ hk => decide_eq_true (by omega))
    fun hlt => absurd hlt (not_lt.2 hb)

/-- The scans meet at `b`. -/
theorem exchange_exit (hY : ∀ y ∈ Y, y < p) (hb : p ≤ b) (hW : ∀ w ∈ W, p < w) :
    Ends (fun fuel => exchange p fuel ⟨0, L ++ ((Y ++ b :: W) ++ R)⟩ L.length
        (L.length + (Y ++ b :: W).length - 1))
      (⟨0, L ++ ((Y ++ b :: W) ++ R)⟩, (L ++ Y).length) := by
  have harr : L ++ ((Y ++ b :: W) ++ R) = L ++ (Y ++ b :: (W ++ R)) := by simp
  have harr' : L ++ (Y ++ b :: (W ++ R)) = (L ++ Y) ++ b :: (W ++ R) := by simp
  have hlen : (L.length : Int) + (Y ++ b :: W).length - 1 = (L ++ Y).length + W.length := by
    simp only [List.length_append, List.length_cons]
    omega
  have hup := scanUp_round (L := L) (R := W ++ R) (j := (L ++ Y).length + W.length) hY hb (by omega)
  have hdown := scanDown_ends (p := p) (c := (((L ++ Y).length : Int) ≠ ·)) (P := L ++ Y)
    (R := R) (z := b) rfl hW (fun k hk _ => decide_eq_true hk.ne) fun _ => by simp
  rw [← harr'] at hdown
  rw [harr, hlen]
  exact exchange_met hup hdown (lt_irrefl _)

/-- The scans stop at `b` and at `s`. -/
theorem exchange_stop (hY : ∀ y ∈ Y, y < p) (hb : p ≤ b) (hs : s ≤ p) (hW : ∀ w ∈ W, p < w) :
    let a : Arr Int := ⟨0, L ++ ((Y ++ b :: (N ++ s :: W)) ++ R)⟩
    let j : Int := L.length + (Y ++ b :: (N ++ s :: W)).length - 1
    let j₁ : Int := (L ++ Y).length + (s :: (N ++ [b])).length - 1
    Ends (fun fuel => scanUp a p (· ≠ j) fuel L.length) (L ++ Y).length ∧
      Ends (fun fuel => scanDown a p (((L ++ Y).length : Int) ≠ ·) fuel j) j₁ ∧
      ((L ++ Y).length : Int) < j₁ ∧
      a.swap (L ++ Y).length j₁ =
        .ok ⟨0, (L ++ Y) ++ ((s :: (N ++ [b])) ++ (W ++ R))⟩ := by
  intro a j j₁
  have harr : a = ⟨0, L ++ (Y ++ b :: (N ++ s :: (W ++ R)))⟩ := by simp [a]
  have harr' : a = ⟨0, (L ++ Y ++ b :: N) ++ s :: (W ++ R)⟩ := by simp [a]
  have harr'' : a = ⟨0, (L ++ Y) ++ b :: (N ++ s :: (W ++ R))⟩ := by simp [a]
  have hj₁ : j₁ = (L ++ Y ++ b :: N).length := by simp [j₁]; omega
  have hlt : ((L ++ Y).length : Int) < j₁ := by simp [j₁]; omega
  have hj : j = (L ++ Y ++ b :: N).length + W.length := by simp [j]; omega
  refine ⟨?_, ?_, hlt, ?_⟩
  · rw [harr]
    exact scanUp_round hY hb (by simp [j]; omega)
  · rw [harr', hj₁]
    refine scanDown_ends hj hW (fun k hk _ => decide_eq_true ?_) fun h => absurd h (not_lt.2 hs)
    have hk' : ((L ++ Y).length : Int) < k := lt_trans (by simp) hk
    exact hk'.ne
  · rw [harr'', swap_at (by simp) (by simp [j₁]; omega)]
    simp

/-! ## The loop -/

/-- The pivot is there at most once and some element is not smaller. -/
theorem exchange_sides (hcount : M.count p ≤ 1) (hex : ∃ y ∈ M, p ≤ y) :
    Ends (fun fuel => exchange p fuel ⟨0, L ++ (M ++ R)⟩ L.length (L.length + M.length - 1))
      (⟨0, (L ++ lower p M) ++ exchanged p M :: (upper p M ++ R)⟩, (L ++ lower p M).length) := by
  refine rounds (P := fun M => ∀ {L R}, Ends
      (fun fuel => exchange p fuel ⟨0, L ++ (M ++ R)⟩ L.length (L.length + M.length - 1))
      (⟨0, (L ++ lower p M) ++ exchanged p M :: (upper p M ++ R)⟩, (L ++ lower p M).length))
    (fun Y b W hY hb hW => ?_) (fun Y b N s W hY hb hs hW ih => ?_) (2 * M.length + 1)
    (Nat.le_succ _) (fun _ _ => Nat.lt_succ_self _) hcount hex
  · intro L R
    obtain ⟨hlow, hup, hex⟩ := sides_exit hY hb hW
    have harr : (L ++ Y) ++ b :: (W ++ R) = L ++ ((Y ++ b :: W) ++ R) := by simp
    rw [hlow, hup, hex, harr]
    exact exchange_exit hY hb hW
  · intro L R
    obtain ⟨hlow, hup, hex⟩ := sides_swap (N := N) hY hb hs hW
    obtain ⟨hscan, hdown, hlt, hswap⟩ := exchange_stop (L := L) (N := N) (R := R) hY hb hs hW
    have hleft : ∀ u, L ++ (Y ++ u) = L ++ Y ++ u := fun u => (List.append_assoc L Y u).symm
    rw [hlow, hup, hex, hleft, List.append_assoc _ W]
    exact exchange_round hscan hdown hlt hswap ih

/-- All elements are smaller: the scan from the left comes to the last of them. -/
theorem exchange_all {y : Int} (hY : ∀ x ∈ Y ++ [y], x < p) :
    Ends (fun fuel => exchange p fuel ⟨0, L ++ ((Y ++ [y]) ++ R)⟩ L.length
        (L.length + (Y ++ [y]).length - 1))
      (⟨0, (L ++ Y) ++ y :: R⟩, (L ++ Y).length) := by
  have hlen : (L.length : Int) + (Y ++ [y]).length - 1 = L.length + Y.length := by
    rw [List.length_append, List.length_singleton]
    omega
  have hlen' : ((L ++ Y).length : Int) = L.length + Y.length := by simp
  have hup := scanUp_ends (p := p) (c := (· ≠ (L.length : Int) + Y.length)) (P := L) (Y := Y)
    (R := R) (z := y) rfl (fun x hx => hY x (List.mem_append_left _ hx))
    (fun k _ hk => decide_eq_true (by omega)) fun _ => by simp
  have hdown := scanDown_ends (p := p) (c := (((L ++ Y).length : Int) ≠ ·)) (P := L ++ Y)
    (Y := []) (R := R) (z := y) (j := (L ++ Y).length) (by simp) nofun
    (fun k hk hk' => absurd hk (not_lt.2 hk')) fun _ => by simp
  have harr : L ++ ((Y ++ [y]) ++ R) = L ++ (Y ++ y :: R) := by simp
  rw [List.nil_append] at hdown
  rw [← List.append_assoc, ← hlen'] at hup
  rw [hlen, harr, ← List.append_assoc, ← hlen']
  exact exchange_met hup hdown (lt_irrefl _)

/-- The pivot is there twice: the loop does not end. -/
theorem exchange_twice {r : Arr Int × Int} : ∀ (fuel : Nat) {L M R : List Int}, 2 ≤ M.count p →
    exchange p fuel ⟨0, L ++ (M ++ R)⟩ L.length (L.length + M.length - 1) ≠ .ok r
  | 0, _, _, _, _ => nofun
  | fuel + 1, L, M, R, hcount => by
    intro hr
    have hmem : p ∈ M := List.count_pos_iff.1 (by omega)
    cases first_split (p ≤ ·) M with
    | inl hall => exact hall p hmem le_rfl
    | inr hsome =>
      obtain ⟨Y, b, T, rfl, hY, hb⟩ := hsome
      have hY0 : Y.count p = 0 := List.count_eq_zero.2 fun hc => hY p hc le_rfl
      rw [List.count_append, hY0, List.count_cons] at hcount
      cases last_split (· ≤ p) T with
      | inl hall =>
        have hT0 : T.count p = 0 := List.count_eq_zero.2 fun hc => hall p hc le_rfl
        rw [hT0] at hcount
        split at hcount <;> omega
      | inr hlast =>
        obtain ⟨N, s, W, rfl, hs, hW⟩ := hlast
        have hW0 : W.count p = 0 := List.count_eq_zero.2 fun hc => hW p hc le_rfl
        obtain ⟨hscan, hdown, hlt, hswap⟩ := exchange_stop (L := L) (N := N) (R := R)
          (fun y hy => not_le.1 (hY y hy)) hb hs fun w hw => not_le.1 (hW w hw)
        refine exchange_twice fuel ?_ (exchange_rest hscan hdown hlt hswap hr)
        simp only [List.count_append, List.count_cons, List.count_nil, hW0] at hcount ⊢
        omega

end

end QuickSort
