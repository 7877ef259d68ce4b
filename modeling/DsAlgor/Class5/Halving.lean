import DsAlgor.Lib.Checked

/-!
# The halving loop

`left + (right-left)>>1` is `(left + (right-left))>>1`, which is half of `right` whatever `left` is.
So the loop of `binary_search` and `searchMatrix` looks at fixed places: with `s` elements, at `(s +
1) / 2 - 1`, `(s + 1) / 4 - 1`, … as long as the elements are greater than the one it looks for, and
when one is smaller it stays there for ever, unless one element only is left (`halving_iff`).
-/

namespace Class5

open Checked

/-- `while (left <= right)` with `i = left + (right-left)>>1`: where the element was found. -/
def halving (probe : Int → Except Fault Int) (val : Int) :
    Nat → Int → Int → Except Fault (Option Int)
  | 0, _, _ => .error .loop
  | fuel + 1, left, right =>
    if left ≤ right then do
      let i := (left + (right - left)) >>> (1 : Nat)
      let x ← probe i
      if val = x then return some i
      else if val < x then halving probe val fuel left (i - 1)
      else halving probe val fuel (i + 1) right
    else return none

/-- The place the loop looks at in round `j`, when `s` elements are there. -/
def place (s j : Nat) : Nat := (s + 1) / 2 ^ (j + 1) - 1

/-- Round `j` has a place. -/
def Reached (s j : Nat) : Prop := 0 < (s + 1) / 2 ^ (j + 1)

theorem place_succ {s : Nat} (hs : 0 < s) (j : Nat) : place s (j + 1) = place (place s 0) j := by
  have hback : (s + 1) / 2 ^ (0 + 1) - 1 + 1 = (s + 1) / 2 := by omega
  rw [place, place, place, hback, Nat.div_div_eq_div_mul, ← pow_succ']

theorem reached_succ {s : Nat} (hs : 0 < s) {j : Nat} :
    Reached s (j + 1) ↔ Reached (place s 0) j := by
  have hback : (s + 1) / 2 ^ (0 + 1) - 1 + 1 = (s + 1) / 2 := by omega
  rw [Reached, Reached, place, hback, Nat.div_div_eq_div_mul, ← pow_succ']

theorem reached_zero {s : Nat} (hs : 0 < s) : Reached s 0 := by
  rw [Reached]
  omega

theorem Reached.pos {s j : Nat} (h : Reached s j) : 0 < s := by
  have hlt : 0 + 1 < 2 ^ (j + 1) := by
    have hpow := Nat.one_le_two_pow (n := j)
    rw [pow_succ]
    omega
  refine Nat.pos_of_ne_zero fun hzero => ?_
  rw [Reached, hzero, Nat.div_eq_of_lt hlt] at h
  exact Nat.lt_irrefl 0 h

theorem place_lt {s : Nat} (hs : 0 < s) (j : Nat) : place s j < s := by
  have hle : (s + 1) / 2 ^ (j + 1) ≤ (s + 1) / 2 := by
    rw [pow_succ', ← Nat.div_div_eq_div_mul]
    exact Nat.div_le_self ..
  rw [place]
  omega

section
variable {probe : Int → Except Fault Int} {f : Nat → Int} {val : Int} {s : Nat} {r : Option Int}

/-- What the loop over `s` elements returns: where it finds the element, or that it does not. -/
def Outcome (f : Nat → Int) (val : Int) (s : Nat) (r : Option Int) : Prop :=
  (∃ j, Reached s j ∧ r = some (place s j : Int) ∧ f (place s j) = val ∧
    ∀ i < j, val < f (place s i)) ∨
  r = none ∧ ((∀ j, Reached s j → val < f (place s j)) ∨
    ∃ t, (s + 1) / 2 ^ t = 2 ∧ f 0 < val ∧ ∀ i < t, val < f (place s i))

theorem halving_steady (probe : Int → Except Fault Int) (val left right : Int) :
    Steady fun fuel => halving probe val fuel left right := by
  intro fuel
  induction fuel generalizing left right with
  | zero => exact nofun
  | succ fuel ih =>
    exact ((Below.refl _).bind fun x =>
      (Below.refl _).ite ((ih _ _).ite (ih _ _))).ite (Below.refl _)

/-- When an element is smaller, it is looked at again and again. -/
theorem halving_stuck {right : Int} {x : Int} (hprobe : probe (right >>> (1 : Nat)) = .ok x)
    (hx : x < val) (hright : 1 ≤ right) (fuel : Nat) {left : Int} (hle : left ≤ right) :
    halving probe val fuel left right = .error .loop := by
  induction fuel generalizing left with
  | zero => rfl
  | succ fuel ih =>
    have hmid : left + (right - left) = right := by omega
    have hnext : right >>> (1 : Nat) + 1 ≤ right := by
      rw [Int.shiftRight_eq_div_pow]
      omega
    simp only [halving, if_pos hle, hmid, hprobe, bind, Except.bind, if_neg (ne_of_gt hx),
      if_neg (not_lt.2 hx.le)]
    exact ih hnext

/-- A round of the loop while nothing has been smaller. -/
theorem halving_round (hprobe : ∀ k < s, probe k = .ok (f k)) (hs : 0 < s) (fuel : Nat) :
    halving probe val (fuel + 1) 0 (s - 1) =
      if val = f (place s 0) then .ok (some (place s 0 : Int))
      else if val < f (place s 0) then halving probe val fuel 0 ((place s 0 : Nat) - 1)
      else halving probe val fuel ((place s 0 : Nat) + 1) (s - 1) := by
  have hle : (0 : Int) ≤ (s : Int) - 1 := by omega
  have hmid : (0 + ((s : Int) - 1 - 0)) >>> (1 : Nat) = (place s 0 : Nat) := by
    rw [Int.shiftRight_eq_div_pow, place]
    omega
  simp only [halving, if_pos hle, hmid, hprobe _ (place_lt hs 0), bind, Except.bind]
  rfl

theorem outcome_zero : Outcome f val 0 r ↔ r = none := by
  refine ⟨fun h => ?_, fun h => .inr ⟨h, .inl fun j hj => absurd hj.pos (Nat.lt_irrefl 0)⟩⟩
  rcases h with ⟨j, hj, _⟩ | ⟨hr, _⟩
  · exact absurd hj.pos (Nat.lt_irrefl 0)
  · exact hr

/-- The first place has the element. -/
theorem outcome_hit (hs : 0 < s) (h : f (place s 0) = val) :
    Outcome f val s r ↔ r = some (place s 0 : Int) := by
  refine ⟨fun ho => ?_, fun hr => .inl ⟨0, reached_zero hs, hr, h, fun i hi =>
    absurd hi (by omega)⟩⟩
  rcases ho with ⟨j, _, hr, _, hbefore⟩ | ⟨_, hall | ⟨t, ht, hzero, hbefore⟩⟩
  · cases j with
    | zero => exact hr
    | succ j => exact absurd (hbefore 0 (Nat.succ_pos j)) (by omega)
  · exact absurd (hall 0 (reached_zero hs)) (by omega)
  · cases t with
    | zero =>
      have hplace : place s 0 = 0 := by
        rw [place]
        omega
      rw [hplace] at h
      omega
    | succ t => exact absurd (hbefore 0 (Nat.succ_pos t)) (by omega)

/-- The first place has a greater element. -/
theorem outcome_above (hs : 0 < s) (h : val < f (place s 0)) :
    Outcome f val s r ↔ Outcome f val (place s 0) r := by
  have hshift : ∀ {j}, (∀ i < j + 1, val < f (place s i)) ↔
      ∀ i < j, val < f (place (place s 0) i) := by
    intro j
    refine ⟨fun hall i hi => ?_, fun hall i hi => ?_⟩
    · rw [← place_succ hs]
      exact hall (i + 1) (Nat.succ_lt_succ hi)
    · cases i with
      | zero => exact h
      | succ i =>
        rw [place_succ hs]
        exact hall i (Nat.lt_of_succ_lt_succ hi)
  have hback : place s 0 + 1 = (s + 1) / 2 := by
    rw [place]
    omega
  have hlast : ∀ t, (s + 1) / 2 ^ (t + 1) = (place s 0 + 1) / 2 ^ t := by
    intro t
    rw [hback, Nat.div_div_eq_div_mul, ← pow_succ']
  refine ⟨fun ho => ?_, fun ho => ?_⟩
  · rcases ho with ⟨j, hj, hr, hval, hbefore⟩ | ⟨hr, hall | ⟨t, ht, hzero, hbefore⟩⟩
    · cases j with
      | zero => exact absurd h (by omega)
      | succ j =>
        rw [place_succ hs] at hr hval
        exact .inl ⟨j, (reached_succ hs).1 hj, hr, hval, hshift.1 hbefore⟩
    · refine .inr ⟨hr, .inl fun j hj => ?_⟩
      rw [← place_succ hs]
      exact hall (j + 1) ((reached_succ hs).2 hj)
    · cases t with
      | zero =>
        have hplace : place s 0 = 0 := by
          rw [place]
          omega
        rw [hplace] at h
        omega
      | succ t => exact .inr ⟨hr, .inr ⟨t, by rw [← hlast, ht], hzero, hshift.1 hbefore⟩⟩
  · rcases ho with ⟨j, hj, hr, hval, hbefore⟩ | ⟨hr, hall | ⟨t, ht, hzero, hbefore⟩⟩
    · rw [← place_succ hs] at hr hval
      exact .inl ⟨j + 1, (reached_succ hs).2 hj, hr, hval, hshift.2 hbefore⟩
    · refine .inr ⟨hr, .inl fun j hj => ?_⟩
      cases j with
      | zero => exact h
      | succ j =>
        rw [place_succ hs]
        exact hall j ((reached_succ hs).1 hj)
    · exact .inr ⟨hr, .inr ⟨t + 1, by rw [hlast, ht], hzero, hshift.2 hbefore⟩⟩

/-- The first place has a smaller element. -/
theorem outcome_below (hs : 0 < s) (h : f (place s 0) < val) :
    Outcome f val s r ↔ s = 1 ∧ r = none := by
  refine ⟨fun ho => ?_, fun ho => ?_⟩
  · rcases ho with ⟨j, _, _, hval, hbefore⟩ | ⟨hr, hall | ⟨t, ht, _, hbefore⟩⟩
    · cases j with
      | zero => exact absurd hval (by omega)
      | succ j => exact absurd (hbefore 0 (Nat.succ_pos j)) (by omega)
    · exact absurd (hall 0 (reached_zero hs)) (by omega)
    · cases t with
      | zero => exact ⟨by omega, hr⟩
      | succ t => exact absurd (hbefore 0 (Nat.succ_pos t)) (by omega)
  · obtain ⟨rfl, hr⟩ := ho
    exact .inr ⟨hr, .inr ⟨0, by decide, h, fun i hi => absurd hi (Nat.not_lt_zero i)⟩⟩

/-- **What the loop returns**, and when it returns. -/
theorem halving_iff (hprobe : ∀ k < s, probe k = .ok (f k)) :
    Ends (fun fuel => halving probe val fuel 0 (s - 1)) r ↔ Outcome f val s r := by
  induction s using Nat.strong_induction_on with
  | _ s ih =>
    rw [← Ends.succ_iff]
    rcases Nat.eq_zero_or_pos s with rfl | hs
    · have hexit : ¬ (0 : Int) ≤ ((0 : Nat) : Int) - 1 := by decide
      simp only [halving, if_neg hexit, outcome_zero]
      refine Ends.const_iff.trans ⟨fun h => (Except.ok.inj h).symm, fun h => h ▸ rfl⟩
    · have hlt := place_lt hs 0
      simp only [halving_round hprobe hs]
      rcases Int.lt_trichotomy val (f (place s 0)) with habove | hhit | hbelow
      · simp only [if_neg (ne_of_lt habove), if_pos habove]
        rw [ih _ hlt fun k hk => hprobe k (hk.trans hlt), outcome_above hs habove]
      · simp only [if_pos hhit, outcome_hit hs hhit.symm]
        exact Ends.const_iff.trans ⟨fun h => (Except.ok.inj h).symm, fun h => h ▸ rfl⟩
      · simp only [if_neg (ne_of_gt hbelow), if_neg (not_lt.2 hbelow.le), outcome_below hs hbelow]
        by_cases hone : s = 1
        · subst hone
          refine ⟨fun hends => ⟨rfl, ?_⟩, fun h => ?_⟩
          · obtain ⟨n, _, hn⟩ := hends.exists
            exact (Except.ok.inj hn).symm
          · rw [h.2]
            exact ⟨1, fun fuel hf => by
              obtain ⟨fuel, rfl⟩ := Nat.exists_eq_succ_of_ne_zero (Nat.ne_zero_of_lt hf)
              rfl⟩
        · refine ⟨fun hends => ?_, fun h => absurd h.1 hone⟩
          have hmid : ((s : Int) - 1) >>> (1 : Nat) = (place s 0 : Nat) := by
            rw [Int.shiftRight_eq_div_pow, place]
            omega
          have hstuck := fun fuel => halving_stuck (by rw [hmid]; exact hprobe _ hlt) hbelow
            (show (1 : Int) ≤ (s : Int) - 1 by omega) fuel
            (show ((place s 0 : Nat) : Int) + 1 ≤ (s : Int) - 1 by rw [place] at *; omega)
          obtain ⟨n, hn, _⟩ := hends.exists
          rw [hstuck n] at hn
          cases hn

/-- The loop up to any `right`. -/
theorem halving_upto_iff {right : Int} (hprobe : ∀ k : Nat, k ≤ right → probe k = .ok (f k)) :
    Ends (fun fuel => halving probe val fuel 0 right) r ↔ Outcome f val (right + 1).toNat r := by
  by_cases hright : 0 ≤ right
  · have hback : ((right + 1).toNat : Int) - 1 = right := by omega
    have h : Ends (fun fuel => halving probe val fuel 0 (((right + 1).toNat : Int) - 1)) r ↔
        Outcome f val (right + 1).toNat r := halving_iff fun k hk => hprobe k (by omega)
    rwa [hback] at h
  · have hzero : (right + 1).toNat = 0 := by omega
    rw [hzero, outcome_zero, ← Ends.succ_iff]
    simp only [halving, if_neg hright]
    exact Ends.const_iff.trans ⟨fun h => (Except.ok.inj h).symm, fun h => h ▸ rfl⟩

end

end Class5
