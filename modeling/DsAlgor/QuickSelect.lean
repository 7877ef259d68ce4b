import DsAlgor.Lib.Select
import DsAlgor.QuickSort.Partition

/-!
# `quickSelect.c`

The quickselect of the exercise, on an array that starts at index 0. Its `partition` exchanges the
pivot with the elements it moves, so the array is `L ++ (M ++ p :: R)` in front of a round.

The sums of `quick_select` are no `int`s where a pivot comes to the index `INT_MAX`
(`quickSelect_iff`).
-/

namespace QuickSelect

open Checked QuickSort Select
open Signed (Undefined access add intMax)

/-- `if (left < right) swap( array[left], array[right--]);` after the scan from the left. -/
def swapRight (pivot : Int) (fuel : Nat) (array : Arr Int) (left right : Int) :
    Except Fault (Arr Int × Int × Int) := do
  let left ← scanUp array pivot (· < right) fuel left
  if left < right then return (← array.swap left right, left, right - 1)
  else return (array, left, right)

/-- `if( left < right ) swap( array[left++], array[right]);` after the scan from the right. -/
def swapLeft (pivot : Int) (fuel : Nat) (array : Arr Int) (left right : Int) :
    Except Fault (Arr Int × Int × Int) := do
  let right ← scanDown array pivot (left < ·) fuel right
  if left < right then return (← array.swap left right, left + 1, right)
  else return (array, left, right)

/-- The loop of `partition`. -/
def partitionLoop (pivot : Int) : Nat → Arr Int → Int → Int → Except Fault (Arr Int × Int)
  | 0, _, _, _ => .error .loop
  | fuel + 1, array, left, right =>
    if left ≠ right then do
      let (array, left, right) ← swapRight pivot fuel array left right
      let (array, left, right) ← swapLeft pivot fuel array left right
      partitionLoop pivot fuel array left right
    else return (array, left)

def partition (fuel : Nat) (array : Arr Int) (left right : Int) : Except Fault (Arr Int × Int) := do
  let pivot ← array.get right
  partitionLoop pivot fuel array left right

/-- The element and the array. -/
def quickSelect : Nat → Arr Int → Int → Int → Int → Except Undefined (Int × Arr Int)
  | 0, _, _, _, _ => .error (.fault .loop)
  | fuel + 1, array, left, right, k =>
    if left ≥ right then return (← access (array.get left), array)
    else do
      let (array, index) ← access (partition fuel array left right)
      let size ← add (index - left) 1
      if size = k then return (← access (array.get ((← add left k) - 1)), array)
      else if size > k then quickSelect fuel array left (index - 1) k
      else quickSelect fuel array (← add index 1) right (k - size)

/-! ## Fuel -/

section
variable {pivot : Int} {array : Arr Int}

theorem swapRight_steady {left right : Int} :
    Steady fun fuel => swapRight pivot fuel array left right :=
  scanUp_steady.bind fun _ => Steady.const _

theorem swapLeft_steady {left right : Int} :
    Steady fun fuel => swapLeft pivot fuel array left right :=
  scanDown_steady.bind fun _ => Steady.const _

theorem partitionLoop_steady : ∀ {array : Arr Int} {left right : Int},
    Steady fun fuel => partitionLoop pivot fuel array left right := by
  intro array left right fuel
  induction fuel generalizing array left right with
  | zero => exact nofun
  | succ fuel ih =>
    exact ((swapRight_steady fuel).bind fun s => (swapLeft_steady fuel).bind fun s => ih).ite
      (Below.refl _)

theorem partition_steady {left right : Int} : Steady fun fuel => partition fuel array left right :=
  (Steady.const _).bind fun _ => partitionLoop_steady

theorem quickSelect_steady : ∀ {array : Arr Int} {left right k : Int},
    Steady fun fuel => quickSelect fuel array left right k := by
  intro array left right k fuel
  induction fuel generalizing array left right k with
  | zero => exact nofun
  | succ fuel ih =>
    exact (Below.refl _).ite ((Signed.access_steady partition_steady fuel).bind fun r =>
      (Below.refl _).bind fun size => (Below.refl _).ite (ih.ite
        ((Below.refl _).bind fun i => ih)))

end

/-! ## `partition` -/

section
variable {p y z : Int} {L M R T Y W : List Int}

/-- Nothing to move to the right. -/
theorem swapRight_none (hM : ∀ x ∈ M, x < p) :
    Ends (fun fuel => swapRight p fuel ⟨0, L ++ (M ++ p :: R)⟩ L.length (L.length + M.length))
      (⟨0, L ++ (M ++ p :: R)⟩, L.length + M.length, L.length + M.length) := by
  have hscan := scanUp_ends (p := p) (c := (· < (L.length : Int) + M.length)) (P := L)
    (R := R) (z := p) rfl hM (fun k _ hk => decide_eq_true hk)
    (fun _ => decide_eq_false (lt_irrefl _))
  apply hscan.bind
  have hno : ¬ (L.length : Int) + M.length < L.length + M.length := lt_irrefl _
  simp only [if_neg hno]
  exact Ends.pure _

/-- The first element that is not smaller changes its place with the pivot. -/
theorem swapRight_some (hY : ∀ x ∈ Y, x < p) (hy : p ≤ y) :
    Ends (fun fuel => swapRight p fuel ⟨0, L ++ ((Y ++ y :: T) ++ p :: R)⟩ L.length
        (L.length + (Y ++ y :: T).length))
      (⟨0, (L ++ Y) ++ p :: (T ++ y :: R)⟩, (L ++ Y).length, (L ++ Y).length + T.length) := by
  have hlen : (L.length : Int) + (Y ++ y :: T).length = (L ++ Y).length + 1 + T.length := by
    simp only [List.length_append, List.length_cons]
    omega
  have hi : (L.length : Int) + Y.length = (L ++ Y).length := by simp
  have hscan := scanUp_ends (p := p)
    (c := (· < (L.length : Int) + (Y ++ y :: T).length)) (P := L) (R := T ++ p :: R) (z := y) rfl
    hY (fun k _ hk => decide_eq_true (by omega)) (fun hlt => absurd hlt (not_lt.2 hy))
  have harr : L ++ ((Y ++ y :: T) ++ p :: R) = L ++ (Y ++ y :: (T ++ p :: R)) := by simp
  have hnext : ((L ++ Y).length : Int) < L.length + (Y ++ y :: T).length := by omega
  have hswap := swap_at (f := 0) (A := L ++ Y) (B := T) (C := R) (x := y) (y := p)
    (i := (L ++ Y).length) (j := L.length + (Y ++ y :: T).length) (by simp) (by omega)
  rw [List.append_assoc] at hswap
  rw [harr]
  apply hscan.bind
  simp only [hi, if_pos hnext, hswap, bind, Except.bind, pure, Except.pure]
  have hj : (L.length : Int) + (Y ++ y :: T).length - 1 = (L ++ Y).length + T.length := by omega
  rw [hj]
  exact Ends.pure _

/-- Nothing to move to the left. -/
theorem swapLeft_none (hM : ∀ x ∈ M, p < x) :
    Ends (fun fuel => swapLeft p fuel ⟨0, L ++ p :: (M ++ R)⟩ L.length (L.length + M.length))
      (⟨0, L ++ p :: (M ++ R)⟩, L.length, L.length) := by
  have hscan := scanDown_ends (p := p) (c := ((L.length : Int) < ·)) (P := L) (R := R)
    (z := p) rfl hM (fun k hk _ => decide_eq_true hk) (fun _ => decide_eq_false (lt_irrefl _))
  apply hscan.bind
  have hno : ¬ (L.length : Int) < L.length := lt_irrefl _
  simp only [if_neg hno]
  exact Ends.pure _

/-- The last element that is not greater changes its place with the pivot. -/
theorem swapLeft_some (hW : ∀ x ∈ W, p < x) (hz : z ≤ p) :
    Ends (fun fuel => swapLeft p fuel ⟨0, L ++ p :: ((M ++ z :: W) ++ R)⟩ L.length
        (L.length + (M ++ z :: W).length))
      (⟨0, (L ++ [z]) ++ (M ++ p :: (W ++ R))⟩, (L ++ [z]).length,
        (L ++ [z]).length + M.length) := by
  have harr : L ++ p :: ((M ++ z :: W) ++ R) = (L ++ p :: M) ++ z :: (W ++ R) := by simp
  have hP : ((L ++ p :: M).length : Int) = L.length + 1 + M.length := by
    simp only [List.length_append, List.length_cons]
    omega
  have hscan := scanDown_ends (p := p) (c := ((L.length : Int) < ·)) (P := L ++ p :: M)
    (R := R) (z := z) (Y := W) (j := L.length + (M ++ z :: W).length) (by
      simp only [List.length_append, List.length_cons]
      omega) hW (fun k hk _ => decide_eq_true (by omega)) (fun hlt => absurd hlt (not_lt.2 hz))
  have hnext : (L.length : Int) < (L ++ p :: M).length := by omega
  have hswap := swap_at (f := 0) (A := L) (B := M) (C := W ++ R) (x := p) (y := z)
    (i := L.length) (j := (L ++ p :: M).length) (by simp) (by omega)
  have hsplit : L ++ p :: (M ++ z :: (W ++ R)) = (L ++ p :: M) ++ z :: (W ++ R) := by simp
  rw [hsplit] at hswap
  rw [harr]
  apply hscan.bind
  simp only [if_pos hnext, hswap, bind, Except.bind, pure, Except.pure]
  have hi : (L.length : Int) + 1 = (L ++ [z]).length := by simp
  have hj : ((L ++ p :: M).length : Int) = (L ++ [z]).length + M.length := by omega
  have hend : L ++ z :: (M ++ p :: (W ++ R)) = (L ++ [z]) ++ (M ++ p :: (W ++ R)) := by simp
  rw [hi, hj, hend]
  exact Ends.pure _

/-- A round of the loop. -/
theorem partitionLoop_round {a a₁ a₂ : Arr Int} {i j i₁ j₁ i₂ j₂ : Int} {r : Arr Int × Int}
    (hne : i ≠ j) (hright : Ends (fun fuel => swapRight p fuel a i j) (a₁, i₁, j₁))
    (hleft : Ends (fun fuel => swapLeft p fuel a₁ i₁ j₁) (a₂, i₂, j₂))
    (hrest : Ends (fun fuel => partitionLoop p fuel a₂ i₂ j₂) r) :
    Ends (fun fuel => partitionLoop p fuel a i j) r := by
  apply Ends.succ
  simp only [partitionLoop, if_pos hne]
  exact hright.bind (hleft.bind hrest)

/-- The loop at its end. -/
theorem partitionLoop_exit {a : Arr Int} {i : Int} :
    Ends (fun fuel => partitionLoop p fuel a i i) (a, i) := by
  apply Ends.succ
  have hno : ¬ i ≠ i := fun hc => hc rfl
  simp only [partitionLoop, if_neg hno]
  exact Ends.pure _

/-- The loop of `partition`: what is left to do comes to the two sides of the pivot. -/
theorem partitionLoop_ends (n : Nat) {L M R : List Int} (hn : M.length ≤ n) :
    ∃ U, Ends (fun fuel => partitionLoop p fuel ⟨0, L ++ (M ++ p :: R)⟩ L.length
        (L.length + M.length)) (⟨0, (L ++ U) ++ p :: (behind p M ++ R)⟩, (L ++ U).length) ∧
      (∀ u ∈ U, u ≤ p) ∧ (∀ v ∈ behind p M, p ≤ v) ∧ (U ++ behind p M).Perm M := by
  refine sides_rule
    (motive := fun L M R U V => Ends (fun fuel =>
      partitionLoop p fuel ⟨0, L ++ (M ++ p :: R)⟩ L.length (L.length + M.length))
        (⟨0, (L ++ U) ++ p :: (V ++ R)⟩, (L ++ U).length)) ?_ ?_ ?_ n hn
  · intro L M R hsmall
    have hlen : ((L ++ M).length : Int) = L.length + M.length := by
      rw [List.length_append]
      exact Int.natCast_add _ _
    have hexit := partitionLoop_exit (p := p) (a := ⟨0, (L ++ M) ++ p :: R⟩) (i := (L ++ M).length)
    cases M with
    | nil => simpa using hexit
    | cons x M =>
      have hleft := swapLeft_none (p := p) (L := L ++ (x :: M)) (M := []) (R := R)
        (List.forall_mem_nil _)
      rw [List.nil_append, List.length_nil, Int.natCast_zero, add_zero] at hleft
      rw [hlen, List.append_assoc] at hleft hexit
      rw [hlen, List.append_assoc, List.nil_append]
      exact partitionLoop_round (left_ne_right (Y := [])) (swapRight_none hsmall) hleft hexit
  · intro L Y y M R hY hy hbig
    rw [List.append_assoc M]
    exact partitionLoop_round left_ne_right (swapRight_some hY hy) (swapLeft_none hbig)
      partitionLoop_exit
  · intro L Y y M z W R U V hY hy hz hW hrest
    have hL : L ++ (Y ++ [z] ++ U) = L ++ Y ++ [z] ++ U := by simp
    have hR : V ++ (W ++ [y]) ++ R = V ++ (W ++ y :: R) := by simp
    rw [hL, hR]
    exact partitionLoop_round left_ne_right (swapRight_some hY hy) (swapLeft_some hW hz) hrest

/-- `partition` of a segment with the last element `p`. -/
theorem partition_ends (A s B : List Int) (p : Int) :
    ∃ U, Ends (fun fuel => partition fuel ⟨0, A ++ (s ++ p :: B)⟩ A.length
        (A.length + s.length)) (⟨0, (A ++ U) ++ p :: (behind p s ++ B)⟩, (A ++ U).length) ∧
      (∀ u ∈ U, u ≤ p) ∧ (∀ v ∈ behind p s, p ≤ v) ∧ (U ++ behind p s).Perm s := by
  obtain ⟨U, hloop, hsides⟩ := partitionLoop_ends (p := p) s.length (L := A) (M := s) (R := B)
    le_rfl
  have hget : (⟨0, A ++ (s ++ p :: B)⟩ : Arr Int).get (A.length + s.length) = .ok p := by
    rw [← List.append_assoc]
    exact get_at (by simp)
  refine ⟨U, ?_, hsides⟩
  simp only [partition, hget, bind, Except.bind]
  exact hloop

end

/-! ## `quick_select` -/

/-- The last element is greater than all others. -/
def LastGreatest (s : List Int) : Prop := ∀ p ∈ s.getLast?, ∀ x ∈ s.dropLast, x < p

/-- The sums are `int`s for a segment that ends at the index `INT_MAX`. -/
structure SumsFit (left : Int) (s : List Int) (k : Nat) : Prop where
  greatest : k = s.length → PivotsInside s
  whole : left = 0 → ¬ LastGreatest s

section
variable {A U B s t : List Int} {p : Int} {k : Nat}

theorem behind_eq_nil_iff : behind p t = [] ↔ ∀ x ∈ t, x < p := by
  refine ⟨fun hnil x hx => ?_, behind_small⟩
  by_contra hge
  obtain hsmall | ⟨Y, y, T, rfl, hY, hy⟩ := first_split (p ≤ ·) t
  · exact hsmall x hx (not_lt.1 hge)
  · rw [behind_some (fun x hx => not_le.1 (hY x hx)) hy] at hnil
    simp at hnil

theorem lastGreatest_snoc : LastGreatest (t ++ [p]) ↔ behind p t = [] := by
  rw [behind_eq_nil_iff, LastGreatest]
  simp

/-- A step of `quick_select`: what it does with a segment of two or more elements. -/
theorem quickSelect_step (ht : t ≠ [])
    (hpart : Ends (fun fuel => partition fuel ⟨0, A ++ (t ++ p :: B)⟩ A.length
      (A.length + t.length)) (⟨0, (A ++ U) ++ p :: (behind p t ++ B)⟩, (A ++ U).length))
    (hperm : (U ++ behind p t).Perm t) (r : Int × Arr Int) :
    Ends (fun fuel => quickSelect fuel ⟨0, A ++ (t ++ [p] ++ B)⟩ A.length
        (A.length + (t ++ [p]).length - 1) k) r ↔
      (U.length : Int) + 1 ≤ intMax ∧
        ((k = U.length + 1 ∧ (A.length : Int) + k ≤ intMax ∧
            r = (p, ⟨0, A ++ ((U ++ p :: behind p t) ++ B)⟩)) ∨
          (k < U.length + 1 ∧ Ends (fun fuel => quickSelect fuel
            ⟨0, A ++ (U ++ (p :: behind p t ++ B))⟩ A.length (A.length + U.length - 1) k) r) ∨
          (U.length + 1 < k ∧ (A.length : Int) + U.length + 1 ≤ intMax ∧ Ends (fun fuel =>
            quickSelect fuel ⟨0, (A ++ U ++ [p]) ++ (behind p t ++ B)⟩ (A ++ U ++ [p]).length
              ((A ++ U ++ [p]).length + (behind p t).length - 1) (k - (U.length + 1) : Nat))
                r)) := by
  have hlen := hperm.length_eq
  rw [List.length_append] at hlen
  have hstart : A ++ (t ++ [p] ++ B) = A ++ (t ++ p :: B) := by simp
  have hright : (A.length : Int) + (t ++ [p]).length - 1 = A.length + t.length := by
    rw [List.length_append, List.length_singleton]
    omega
  have hlt : ¬ (A.length : Int) ≥ A.length + t.length := by
    have := List.length_pos_iff.2 ht
    omega
  have hl : ((A ++ U).length : Int) = A.length + U.length := by
    rw [List.length_append]
    exact Int.natCast_add _ _
  have hsize : ((A ++ U).length : Int) - A.length = U.length := by omega
  have hend : (A.length : Int) + t.length =
      (A ++ U ++ [p]).length + (behind p t).length - 1 := by
    simp only [List.length_append, List.length_singleton]
    omega
  have hmid : A ++ U ++ p :: (behind p t ++ B) = A ++ (U ++ (p :: behind p t ++ B)) := by simp
  have hmid' : A ++ U ++ p :: (behind p t ++ B) = A ++ U ++ [p] ++ (behind p t ++ B) := by simp
  have hmid'' : A ++ U ++ p :: (behind p t ++ B) = A ++ (U ++ p :: behind p t ++ B) := by simp
  have hsteady : ∀ s : Arr Int × Int, Steady fun fuel => (do
      let size ← add (s.2 - A.length) 1
      if size = (k : Int) then return (← access (s.1.get ((← add A.length k) - 1)), s.1)
      else if size > k then quickSelect fuel s.1 A.length (s.2 - 1) k
      else quickSelect fuel s.1 (← add s.2 1) (A.length + t.length) (k - size)) := fun s fuel =>
    (Below.refl _).bind fun size => (Below.refl _).ite ((quickSelect_steady fuel).ite
      ((Below.refl _).bind fun i => quickSelect_steady fuel))
  rw [hstart, hright, ← Ends.succ_iff]
  simp only [quickSelect, if_neg hlt]
  rw [Ends.bind_iff (Signed.access_steady partition_steady) hsteady]
  have hpivot : ∀ Q : Arr Int × Int → Prop, (∃ s, Ends (fun fuel => access
      (partition fuel ⟨0, A ++ (t ++ p :: B)⟩ A.length (A.length + t.length))) s ∧ Q s) ↔
      Q (⟨0, (A ++ U) ++ p :: (behind p t ++ B)⟩, (A ++ U).length) := fun Q =>
    ⟨fun ⟨s, hs, hQ⟩ => hs.unique (Signed.access_ends hpart) ▸ hQ,
      fun hQ => ⟨_, Signed.access_ends hpart, hQ⟩⟩
  rw [hpivot]
  simp only [hsize]
  by_cases hfit : (U.length : Int) + 1 ≤ intMax
  · rw [and_iff_right hfit, Signed.add_ok (Int.natCast_nonneg _) Int.one_nonneg hfit]
    simp only [Signed.ok_bind]
    rcases Nat.lt_trichotomy k (U.length + 1) with hlow | hmiddle | hhigh
    · have hne : ¬ (U.length : Int) + 1 = k := by omega
      have hgt : (U.length : Int) + 1 > k := by omega
      rw [or_iff_right fun h => hlow.ne h.1, or_iff_left fun h => hlow.not_gt h.1,
        and_iff_right hlow]
      simp only [if_neg hne, if_pos hgt, hl, hmid]
    · have heq : (U.length : Int) + 1 = k := by omega
      have hother : ∀ {P Q : Prop}, ¬ (k < U.length + 1 ∧ P ∨ U.length + 1 < k ∧ Q) := by
        rintro P Q (⟨h, -⟩ | ⟨h, -⟩)
        · exact h.ne hmiddle
        · exact h.ne' hmiddle
      rw [or_iff_left hother, and_iff_right hmiddle]
      simp only [if_pos heq, Ends.const_iff]
      by_cases hsum : (A.length : Int) + k ≤ intMax
      · have hget : (⟨0, A ++ U ++ p :: (behind p t ++ B)⟩ : Arr Int).get
            ((A.length : Int) + k - 1) = .ok p := get_at (by rw [List.length_append]; omega)
        rw [Signed.add_ok (Int.natCast_nonneg _) (Int.natCast_nonneg _) hsum, Signed.ok_bind, hget,
          hmid'', and_iff_right hsum]
        exact ⟨fun h => (Except.ok.inj h).symm, fun h => h ▸ rfl⟩
      · rw [Signed.add_overflow (not_le.1 hsum)]
        exact iff_of_false nofun fun h => hsum h.1
    · have hne : ¬ (U.length : Int) + 1 = k := by omega
      have hgt : ¬ (U.length : Int) + 1 > k := by omega
      have hk : (k : Int) - (U.length + 1) = (k - (U.length + 1) : Nat) := by omega
      rw [or_iff_right fun h => hhigh.ne' h.1, or_iff_right fun h => hhigh.not_gt h.1,
        and_iff_right hhigh]
      simp only [if_neg hne, if_neg hgt, hk]
      by_cases hsum : (A.length : Int) + U.length + 1 ≤ intMax
      · have hnext : ((A ++ U).length : Int) + 1 = (A ++ U ++ [p]).length := by
          simp only [List.length_append, List.length_singleton]
          omega
        rw [and_iff_right hsum, Signed.add_ok (Int.natCast_nonneg _) Int.one_nonneg (by omega)]
        simp only [Signed.ok_bind, hnext, hend, hmid']
      · rw [Signed.add_overflow (by omega)]
        refine iff_of_false (fun h => ?_) fun h => hsum h.1
        obtain ⟨n, hn⟩ := h
        exact nomatch hn n le_rfl
  · rw [Signed.add_overflow (not_le.1 hfit)]
    refine iff_of_false (fun h => ?_) fun h => hfit h.1
    obtain ⟨n, hn⟩ := h
    exact nomatch hn n le_rfl

end

/-- `quick_select` of a segment. -/
theorem quickSelect_ends (n : Nat) {A s B : List Int} {k : Nat} (hn : s.length ≤ n) (hk : 1 ≤ k)
    (hks : k ≤ s.length) (hmax : (A.length : Int) + s.length ≤ intMax + 1)
    (hfit : (A.length : Int) + s.length ≤ intMax ∨ SumsFit A.length s k) :
    ∃ s' x, Ends (fun fuel =>
        quickSelect fuel ⟨0, A ++ (s ++ B)⟩ A.length (A.length + s.length - 1) k)
        (x, ⟨0, A ++ (s' ++ B)⟩) ∧ kth k s = some x ∧ s'.Perm s := by
  induction n generalizing A s B k with
  | zero => omega
  | succ n ih =>
    have hne : s ≠ [] := fun hc => by
      rw [hc, List.length_nil] at hks
      omega
    obtain ⟨t, p, rfl⟩ : ∃ t p, s = t ++ [p] :=
      ⟨s.dropLast, s.getLast hne, (List.dropLast_append_getLast hne).symm⟩
    by_cases ht : t = []
    · -- one element
      subst ht
      obtain rfl : k = 1 := by
        rw [List.nil_append, List.length_singleton] at hks
        omega
      refine ⟨[p], p, ?_, kth_singleton, List.Perm.refl _⟩
      have hge : (A.length : Int) ≥ A.length + ([] ++ [p] : List Int).length - 1 := by simp
      have hget : (⟨0, A ++ ([] ++ [p] ++ B)⟩ : Arr Int).get A.length = .ok p := get_at (by simp)
      refine Ends.succ ?_
      simp only [quickSelect, if_pos hge, hget]
      exact Ends.const_iff.2 rfl
    · rw [List.length_append, List.length_singleton] at hn hks hmax hfit
      push_cast at hmax hfit
      obtain ⟨U, hpart, hU, hV, hperm⟩ := partition_ends A t B p
      have hlen := hperm.length_eq
      rw [List.length_append] at hlen
      have hall : (U ++ p :: behind p t).Perm (t ++ [p]) :=
        List.perm_middle.trans ((hperm.cons p).trans (List.perm_append_singleton p t).symm)
      obtain ⟨hless, heq, hmore⟩ := kth_sides hU hV hk
      rw [kth_perm hall] at hless heq hmore
      have hpos : behind p t ≠ [] → 1 ≤ (behind p t).length := List.length_pos_iff.2
      have hsize : (U.length : Int) + 1 ≤ intMax := by
        cases hfit with
        | inl hfit => omega
        | inr hfit =>
          by_cases hA : (A.length : Int) = 0
          · have := hpos (mt lastGreatest_snoc.2 (hfit.whole hA))
            omega
          · omega
      have hstep := fun r => quickSelect_step (k := k) ht hpart hperm r
      rcases Nat.lt_trichotomy k (U.length + 1) with hlow | hmiddle | hhigh
      · -- the element is on the left of the pivot
        obtain ⟨U', x, hrec, hx, hpermU⟩ := ih (A := A) (s := U) (B := p :: behind p t ++ B)
          (k := k) (by omega) hk (by omega) (by omega) (.inl (by omega))
        refine ⟨U' ++ p :: behind p t, x, ?_, (hless (by omega)).trans hx,
          (hpermU.append_right _).trans hall⟩
        have hend : A ++ (U' ++ p :: behind p t ++ B) = A ++ (U' ++ (p :: behind p t ++ B)) := by
          simp
        rw [hend]
        exact (hstep _).2 ⟨hsize, .inr (.inl ⟨hlow, hrec⟩)⟩
      · -- it is the pivot
        have hsum : (A.length : Int) + k ≤ intMax := by
          cases hfit with
          | inl hfit => omega
          | inr hfit =>
            by_cases hnone : behind p t = []
            · have hwhole : k = (t ++ [p]).length := by
                rw [hnone, List.length_nil] at hlen
                rw [List.length_append, List.length_singleton]
                omega
              exact absurd hnone ((pivotsInside_snoc ht).1 (hfit.greatest hwhole)).1
            · have := hpos hnone
              omega
        exact ⟨U ++ p :: behind p t, p, (hstep _).2 ⟨hsize, .inl ⟨hmiddle, hsum, rfl⟩⟩,
          heq hmiddle, hall⟩
      · -- it is on the right of the pivot
        have hrest : (A.length : Int) + U.length + 1 ≤ intMax := by omega
        have hstart : ((A ++ U ++ [p]).length : Int) = A.length + U.length + 1 := by
          simp only [List.length_append, List.length_singleton]
          omega
        obtain ⟨V', x, hrec, hx, hpermV⟩ := ih (A := A ++ U ++ [p]) (s := behind p t) (B := B)
          (k := k - (U.length + 1)) (by omega) (by omega) (by omega) (by omega) (by
            refine hfit.imp (fun hfit => by omega) fun hfit => ⟨fun hwhole => ?_, fun hzero => ?_⟩
            · refine ((pivotsInside_snoc ht).1 (hfit.greatest ?_)).2
              rw [List.length_append, List.length_singleton]
              omega
            · omega)
        refine ⟨U ++ p :: V', x, ?_, (hmore hhigh).trans hx,
          ((hpermV.cons p).append_left U).trans hall⟩
        have hend : A ++ (U ++ p :: V' ++ B) = A ++ U ++ [p] ++ (V' ++ B) := by simp
        rw [hend]
        exact (hstep _).2 ⟨hsize, .inr (.inr ⟨hhigh, hrest, hrec⟩)⟩

/-- Where a pivot comes to the index `INT_MAX`, a sum overflows. -/
theorem quickSelect_overflows (n : Nat) {A s B : List Int} {k : Nat} (hn : s.length ≤ n)
    (hk : 1 ≤ k) (hks : k ≤ s.length) (hint : (k : Int) ≤ intMax)
    (hmax : (A.length : Int) + s.length = intMax + 1)
    (hfit : ¬ SumsFit A.length s k) (r : Int × Arr Int) :
    ¬ Ends (fun fuel => quickSelect fuel ⟨0, A ++ (s ++ B)⟩ A.length (A.length + s.length - 1) k)
      r := by
  induction n generalizing A s B k with
  | zero => omega
  | succ n ih =>
    intro hr
    have hne : s ≠ [] := fun hc => by
      rw [hc, List.length_nil] at hks
      omega
    obtain ⟨t, p, rfl⟩ : ∃ t p, s = t ++ [p] :=
      ⟨s.dropLast, s.getLast hne, (List.dropLast_append_getLast hne).symm⟩
    have hwhole : ¬ (k = (t ++ [p]).length → PivotsInside (t ++ [p])) ∨
        ¬ ((A.length : Int) = 0 → ¬ LastGreatest (t ++ [p])) := by
      by_contra hc
      rw [not_or, not_not, not_not] at hc
      exact hfit ⟨hc.1, hc.2⟩
    rw [List.length_append, List.length_singleton] at hn hks hmax hwhole
    push_cast at hmax
    have ht : t ≠ [] := by
      rintro rfl
      rw [List.length_nil] at hmax hks
      cases hwhole with
      | inl hwhole => exact hwhole fun _ => pivotsInside_short (by simp)
      | inr hwhole =>
        rw [Classical.not_imp] at hwhole
        have hone : (1 : Int) ≤ intMax := by decide
        omega
    obtain ⟨U, hpart, -, -, hperm⟩ := partition_ends A t B p
    have hlen := hperm.length_eq
    rw [List.length_append] at hlen
    obtain ⟨hsize, hrest⟩ := (quickSelect_step (k := k) ht hpart hperm r).1 hr
    cases hwhole with
    | inl hwhole =>
      rw [Classical.not_imp, pivotsInside_snoc ht, not_and_or, not_not] at hwhole
      obtain ⟨rfl, hinside⟩ := hwhole
      cases hinside with
      | inl hnone =>
        rw [hnone, List.length_nil] at hlen
        rcases hrest with ⟨-, hsum, -⟩ | ⟨hlow, -⟩ | ⟨hhigh, -⟩
        · push_cast at hsum
          omega
        · omega
        · omega
      | inr hinside =>
        by_cases hnone : behind p t = []
        · rw [hnone] at hinside
          exact hinside (pivotsInside_short (Nat.zero_le _))
        · have hpos := List.length_pos_iff.2 hnone
          rcases hrest with ⟨heq, -⟩ | ⟨hlow, -⟩ | ⟨hhigh, hindex, hrest⟩
          · omega
          · omega
          · have hstart : ((A ++ U ++ [p]).length : Int) = A.length + U.length + 1 := by
              simp only [List.length_append, List.length_singleton]
              omega
            have hlast : t.length + 1 - (U.length + 1) = (behind p t).length := by omega
            rw [hlast] at hrest
            refine ih (A := A ++ U ++ [p]) (s := behind p t) (B := B) (by omega) hpos le_rfl
              (by omega) (by omega) (fun hc => hinside (hc.greatest rfl)) hrest
    | inr hwhole =>
      rw [Classical.not_imp, not_not, lastGreatest_snoc] at hwhole
      obtain ⟨hzero, hnone⟩ := hwhole
      rw [hnone, List.length_nil] at hlen
      omega

/-- **When `quick_select` finds** the `k`-th smallest element of `array[left..right]`. -/
theorem quickSelect_iff {a : List Int} {left right k : Nat} (hle : left ≤ right)
    (hlen : right < a.length) (hmax : (right : Int) ≤ intMax) (hk : 1 ≤ k)
    (hks : k ≤ right - left + 1) (hint : (k : Int) ≤ intMax) :
    (∃ (a' : List Int) (x : Int),
      Ends (fun fuel => quickSelect fuel ⟨0, a⟩ left right k) (x, ⟨0, a'⟩) ∧
      kth k (segment a left right) = some x ∧
      (segment a' left right).Perm (segment a left right) ∧
      a'.take left = a.take left ∧ a'.drop (right + 1) = a.drop (right + 1)) ↔
    ((right : Int) < intMax ∨ SumsFit left (segment a left right) k) := by
  obtain ⟨A, s, B, rfl, rfl, hs⟩ := segment_split hle hlen
  have hright : (right : Int) = A.length + s.length - 1 := by omega
  rw [segment_append rfl hs]
  constructor
  · rintro ⟨a', x, hends, -⟩
    by_contra hfit
    obtain ⟨hlast, hfit⟩ := not_or.1 hfit
    rw [hright] at hends
    exact quickSelect_overflows s.length le_rfl hk (by omega) hint (by omega) hfit _ hends
  · intro hfit
    obtain ⟨s', x, hends, hx, hperm⟩ := quickSelect_ends s.length (A := A) (s := s) (B := B)
      (k := k) le_rfl hk (by omega) (by omega) (hfit.imp_left fun hlt => by omega)
    have hs' : A.length + s'.length = right + 1 := by rw [hperm.length_eq, hs]
    refine ⟨A ++ (s' ++ B), x, ?_, hx, ?_, ?_, ?_⟩
    · rw [hright]
      exact hends
    · rw [segment_append rfl hs']
      exact hperm
    · rw [List.take_left, List.take_left]
    · rw [drop_segment rfl hs, drop_segment rfl hs']

theorem quickSelect_three : ∃ (a' : List Int) (x : Int),
    Ends (fun fuel => quickSelect fuel ⟨0, [9, 2, 3, 2, 1]⟩ (1 : Nat) (4 : Nat) (3 : Nat))
      (x, ⟨0, a'⟩) ∧
    kth 3 (segment [9, 2, 3, 2, 1] 1 4) = some x ∧
    (segment a' 1 4).Perm (segment [9, 2, 3, 2, 1] 1 4) ∧
    a'.take 1 = [9, 2, 3, 2, 1].take 1 ∧ a'.drop 5 = [9, 2, 3, 2, 1].drop 5 :=
  (quickSelect_iff (by decide) (by decide) (by decide) (by decide) (by decide) (by decide)).2
    (.inl (by decide))

/-- The greater one of the elements 0 and 1 at the indices `INT_MAX - 1` and `INT_MAX`. -/
theorem quickSelect_at_end : ¬ ∀ (a : List Int) (left right k : Nat), left ≤ right →
    right < a.length → (right : Int) ≤ intMax → 1 ≤ k → k ≤ right - left + 1 →
    ∃ (a' : List Int) (x : Int),
      Ends (fun fuel => quickSelect fuel ⟨0, a⟩ left right k) (x, ⟨0, a'⟩) ∧
      kth k (segment a left right) = some x := by
  intro h
  let A : List Int := List.replicate (intMax - 1).toNat 0
  have hA : (A.length : Int) = intMax - 1 := by
    rw [List.length_replicate]
    decide
  have hlen : (A ++ ([0, 1] ++ [])).length = A.length + 2 := by simp
  obtain ⟨a', x, hends, -⟩ := h (A ++ ([0, 1] ++ [])) A.length (A.length + 1) 2
    (Nat.le_add_right _ _) (by omega) (by push_cast; omega) (by decide) (by omega)
  have hlast : ¬ SumsFit A.length ([0] ++ [1]) 2 := fun hc =>
    ((pivotsInside_snoc (by decide)).1 (hc.greatest rfl)).1 (behind_small (by decide))
  refine quickSelect_overflows 2 (A := A) (s := [0, 1]) (B := []) le_rfl (by decide) le_rfl
    (by decide) ?_ hlast (x, ⟨0, a'⟩) ?_
  · show (A.length : Int) + 2 = intMax + 1
    omega
  · have hright : (A.length : Int) + ([0, 1] : List Int).length - 1 = (A.length + 1 : Nat) := by
      show (A.length : Int) + 2 - 1 = _
      omega
    rw [hright]
    exact hends

end QuickSelect
