import DsAlgor.Lib.Signed
import Mathlib.Data.List.DropRight

/-!
# `quickSort.cc`

The two quicksorts of the exercise, on an array that starts at index 0. Both scan towards each other
from the ends of `a[left..right]`; `quickSort` exchanges elements, `partition` moves them through a
hole. The fuel bounds the recursion and every loop.

Behind a pivot at the index `INT_MAX` there is no index: `quickSort2` sorts a segment that ends
there when no pivot comes to the last place (`quickSort2_iff`).
-/

namespace QuickSort

open Checked
open Signed (Undefined access add intMax)

/-- `while (a[i] < pivot && go) ++i` -/
def scanUp (a : Arr Int) (pivot : Int) (go : Int → Bool) : Nat → Int → Except Fault Int
  | 0, _ => .error .loop
  | fuel + 1, i => do
    let x ← a.get i
    if x < pivot ∧ go i then scanUp a pivot go fuel (i + 1) else return i

/-- `while (a[j] > pivot && go) --j` -/
def scanDown (a : Arr Int) (pivot : Int) (go : Int → Bool) : Nat → Int → Except Fault Int
  | 0, _ => .error .loop
  | fuel + 1, j => do
    let x ← a.get j
    if x > pivot ∧ go j then scanDown a pivot go fuel (j - 1) else return j

/-! ## `quickSort` -/

/-- The loop of `quickSort`: the array and `i`. -/
def exchange (pivot : Int) : Nat → Arr Int → Int → Int → Except Fault (Arr Int × Int)
  | 0, _, _, _ => .error .loop
  | fuel + 1, a, i, j => do
    let i ← scanUp a pivot (· ≠ j) fuel i
    let j ← scanDown a pivot (i ≠ ·) fuel j
    if i < j then exchange pivot fuel (← a.swap i j) i j else return (a, i)

def quickSort : Nat → Arr Int → Int → Int → Except Fault (Arr Int)
  | 0, _, _, _ => .error .loop
  | fuel + 1, a, left, right => do
    let pivot ← a.get right
    if left < right then
      let (a, i) ← exchange pivot fuel a left (right - 1)
      let a ← a.swap i right
      let a ← quickSort fuel a left (i - 1)
      quickSort fuel a (i + 1) right
    else return a

/-! ## `quickSort2` -/

/-- An element that is not smaller goes into the hole at `j`. -/
def fillRight (pivot : Int) (fuel : Nat) (a : Arr Int) (i j : Int) :
    Except Fault (Arr Int × Int × Int) := do
  let i ← scanUp a pivot (· < j) fuel i
  if i < j then return (← a.set j (← a.get i), i, j - 1) else return (a, i, j)

/-- An element that is not greater goes into the hole at `i`. -/
def fillLeft (pivot : Int) (fuel : Nat) (a : Arr Int) (i j : Int) :
    Except Fault (Arr Int × Int × Int) := do
  let j ← scanDown a pivot (i < ·) fuel j
  if i < j then return (← a.set i (← a.get j), i + 1, j) else return (a, i, j)

/-- The loop of `partition`. -/
def partitionLoop (pivot : Int) : Nat → Arr Int → Int → Int → Except Fault (Arr Int × Int)
  | 0, _, _, _ => .error .loop
  | fuel + 1, a, i, j =>
    if i ≠ j then do
      let (a, i, j) ← fillRight pivot fuel a i j
      let (a, i, j) ← fillLeft pivot fuel a i j
      partitionLoop pivot fuel a i j
    else return (a, i)

def partition (fuel : Nat) (a : Arr Int) (left right : Int) : Except Fault (Arr Int × Int) := do
  let pivot ← a.get right
  let (a, i) ← partitionLoop pivot fuel a left right
  return (← a.set i pivot, i)

def quickSort2 : Nat → Arr Int → Int → Int → Except Undefined (Arr Int)
  | 0, _, _, _ => .error (.fault .loop)
  | fuel + 1, a, left, right =>
    if left ≥ right then return a
    else do
      let (a, pivotIndex) ← access (partition fuel a left right)
      let a ← quickSort2 fuel a left (pivotIndex - 1)
      quickSort2 fuel a (← add pivotIndex 1) right

/-! ## `partition` and `quickSort2`

While `partition` runs, the array is `L ++ (M ++ hole :: R)`: `M` is what is left to do and the hole
holds a stale element. A round takes elements from both ends of `M`, so what is moved to the left is
not greater than the pivot and what is moved to the right is not smaller (`partitionLoop_ends`).
-/

/-- The elements that come behind the pivot `p` when `M` is left to do. -/
def behind (p : Int) (M : List Int) : List Int :=
  match _h : M.dropWhile (· < p) with
  | [] => []
  | y :: T => behind p (T.rdropWhile (p < ·)).dropLast ++ (T.rtakeWhile (p < ·) ++ [y])
termination_by M.length
decreasing_by
  have h1 := congrArg List.length _h
  have h2 := (List.dropWhile_sublist (p := (· < p)) (l := M)).length_le
  have h3 := (List.rdropWhile_prefix (p < ·) T).length_le
  rw [List.length_cons] at h1
  rw [List.length_dropLast]
  omega

/-! ## Fuel -/

section
variable {pivot : Int} {a : Arr Int}

theorem scanUp_steady {a : Arr Int} {go : Int → Bool} :
    ∀ {i : Int}, Steady fun fuel => scanUp a pivot go fuel i := by
  intro i fuel
  induction fuel generalizing i with
  | zero => exact nofun
  | succ fuel ih => exact (Below.refl _).bind fun x => ih.ite (Below.refl _)

theorem scanDown_steady {a : Arr Int} {go : Int → Bool} :
    ∀ {j : Int}, Steady fun fuel => scanDown a pivot go fuel j := by
  intro j fuel
  induction fuel generalizing j with
  | zero => exact nofun
  | succ fuel ih => exact (Below.refl _).bind fun x => ih.ite (Below.refl _)

theorem fillRight_steady {i j : Int} : Steady fun fuel => fillRight pivot fuel a i j :=
  scanUp_steady.bind fun _ => Steady.const _

theorem fillLeft_steady {i j : Int} : Steady fun fuel => fillLeft pivot fuel a i j :=
  scanDown_steady.bind fun _ => Steady.const _

theorem partitionLoop_steady : ∀ {a : Arr Int} {i j : Int},
    Steady fun fuel => partitionLoop pivot fuel a i j := by
  intro a i j fuel
  induction fuel generalizing a i j with
  | zero => exact nofun
  | succ fuel ih =>
    exact ((fillRight_steady fuel).bind fun s => (fillLeft_steady fuel).bind fun s => ih).ite
      (Below.refl _)

theorem partition_steady {left right : Int} : Steady fun fuel => partition fuel a left right :=
  (Steady.const _).bind fun _ => partitionLoop_steady.bind fun _ => Steady.const _

theorem quickSort2_steady : ∀ {a : Arr Int} {left right : Int},
    Steady fun fuel => quickSort2 fuel a left right := by
  intro a left right fuel
  induction fuel generalizing a left right with
  | zero => exact nofun
  | succ fuel ih =>
    exact (Below.refl _).ite ((Signed.access_steady partition_steady fuel).bind fun r =>
      ih.bind fun a => (Below.refl _).bind fun i => ih)

end

/-! ## Scans -/

section
variable {p : Int} {c : Int → Bool} {P R Y : List Int} {z : Int}

theorem scanUp_ends : ∀ {Y P : List Int} {i : Int}, i = P.length → (∀ y ∈ Y, y < p) →
    (∀ k : Int, i ≤ k → k < i + Y.length → c k = true) →
    (z < p → c (i + Y.length) = false) →
    Ends (fun fuel => scanUp ⟨0, P ++ (Y ++ z :: R)⟩ p c fuel i) (i + Y.length)
  | [], P, i, hi, _, _, hz => by
    have hget : (⟨0, P ++ z :: R⟩ : Arr Int).get i = .ok z := get_at (by omega)
    refine ⟨1, fun fuel hf => ?_⟩
    obtain ⟨fuel, rfl⟩ := Nat.exists_eq_succ_of_ne_zero (Nat.ne_zero_of_lt hf)
    have hstop : ¬ (z < p ∧ c i = true) := by
      intro hc
      have := hz hc.1
      simp [hc.2] at this
    simp only [List.nil_append, scanUp, hget, bind, Except.bind, if_neg hstop]
    simp [pure, Except.pure]
  | y :: Y, P, i, hi, hY, hgo, hz => by
    have hget : (⟨0, P ++ (y :: Y ++ z :: R)⟩ : Arr Int).get i = .ok y :=
      get_at (B := Y ++ z :: R) (by omega)
    have hstep : y < p ∧ c i = true := by
      refine ⟨hY y List.mem_cons_self, hgo i le_rfl ?_⟩
      rw [List.length_cons]
      omega
    have hlen : i + 1 + (Y.length : Int) = i + (y :: Y).length := by
      rw [List.length_cons]
      omega
    have hends := scanUp_ends (P := P ++ [y]) (Y := Y) (i := i + 1) (by simp; omega)
      (fun x hx => hY x (List.mem_cons_of_mem _ hx))
      (fun k h1 h2 => hgo k (by omega) (by omega)) (by rw [hlen]; exact hz)
    rw [hlen, List.append_assoc] at hends
    refine Ends.succ ?_
    simp only [scanUp, hget, bind, Except.bind, if_pos hstep]
    exact hends

theorem scanDown_ends {P R Y : List Int} {j : Int} (hj : j = P.length + Y.length)
    (hY : ∀ y ∈ Y, p < y) (hgo : ∀ k : Int, P.length < k → k ≤ j → c k = true)
    (hz : p < z → c P.length = false) :
    Ends (fun fuel => scanDown ⟨0, P ++ z :: (Y ++ R)⟩ p c fuel j) P.length := by
  induction Y using List.reverseRecOn generalizing R j with
  | nil =>
    have hget : (⟨0, P ++ z :: R⟩ : Arr Int).get j = .ok z := get_at (by simpa using hj)
    have hjP : j = P.length := by simpa using hj
    refine ⟨1, fun fuel hf => ?_⟩
    obtain ⟨fuel, rfl⟩ := Nat.exists_eq_succ_of_ne_zero (Nat.ne_zero_of_lt hf)
    have hstop : ¬ (z > p ∧ c j = true) := by
      intro hc
      have := hz hc.1
      rw [← hjP, hc.2] at this
      cases this
    simp only [List.nil_append, scanDown, hget, bind, Except.bind, if_neg hstop]
    rw [hjP]
    rfl
  | append_singleton Y y ih =>
    rw [List.length_append, List.length_singleton] at hj
    have hsplit : P ++ z :: (Y ++ [y] ++ R) = (P ++ z :: Y) ++ y :: R := by simp
    have hget : (⟨0, P ++ z :: (Y ++ [y] ++ R)⟩ : Arr Int).get j = .ok y := by
      rw [hsplit]
      refine get_at ?_
      rw [List.length_append, List.length_cons]
      omega
    have hstep : y > p ∧ c j = true :=
      ⟨hY y (by simp), hgo j (by omega) le_rfl⟩
    have hends := ih (R := y :: R) (j := j - 1) (by omega) (fun x hx => hY x (by simp [hx]))
      fun k h1 h2 => hgo k h1 (by omega)
    have hjoin : P ++ z :: (Y ++ y :: R) = P ++ z :: (Y ++ [y] ++ R) := by simp
    rw [hjoin] at hends
    refine Ends.succ ?_
    simp only [scanDown, hget, bind, Except.bind, if_pos hstep]
    exact hends

end

/-! ## The hole -/

section
variable {p h y z : Int} {L M R T Y W : List Int}

/-- Nothing to move to the right. -/
theorem fillRight_none (hM : ∀ x ∈ M, x < p) :
    Ends (fun fuel => fillRight p fuel ⟨0, L ++ (M ++ h :: R)⟩ L.length (L.length + M.length))
      (⟨0, L ++ (M ++ h :: R)⟩, L.length + M.length, L.length + M.length) := by
  have hscan := scanUp_ends (p := p) (c := (· < (L.length : Int) + M.length)) (P := L)
    (R := R) (z := h) rfl hM (fun k _ hk => decide_eq_true hk)
    (fun _ => decide_eq_false (lt_irrefl _))
  refine hscan.bind ?_
  have hno : ¬ (L.length : Int) + M.length < L.length + M.length := lt_irrefl _
  simp only [if_neg hno]
  exact Ends.pure _

/-- The first element that is not smaller goes to the right. -/
theorem fillRight_some (hY : ∀ x ∈ Y, x < p) (hy : p ≤ y) :
    Ends (fun fuel => fillRight p fuel ⟨0, L ++ ((Y ++ y :: T) ++ h :: R)⟩ L.length
        (L.length + (Y ++ y :: T).length))
      (⟨0, (L ++ Y) ++ y :: (T ++ y :: R)⟩, (L ++ Y).length, (L ++ Y).length + T.length) := by
  have hlen : (L.length : Int) + (Y ++ y :: T).length = L.length + Y.length + T.length + 1 := by
    simp only [List.length_append, List.length_cons]
    omega
  have hscan := scanUp_ends (p := p)
    (c := (· < (L.length : Int) + (Y ++ y :: T).length)) (P := L) (R := T ++ h :: R) (z := y) rfl
    hY (fun k _ hk => decide_eq_true (by omega)) (fun hlt => absurd hlt (not_lt.2 hy))
  have harr : L ++ ((Y ++ y :: T) ++ h :: R) = L ++ (Y ++ y :: (T ++ h :: R)) := by simp
  have hnext : (L.length : Int) + Y.length < L.length + (Y ++ y :: T).length := by omega
  have hsplit : L ++ (Y ++ y :: (T ++ h :: R)) = (L ++ Y) ++ y :: (T ++ h :: R) := by simp
  have hget : (⟨0, L ++ (Y ++ y :: (T ++ h :: R))⟩ : Arr Int).get (L.length + Y.length) =
      .ok y := by
    rw [hsplit]
    exact get_at (by simp)
  have hset : (⟨0, L ++ (Y ++ y :: (T ++ h :: R))⟩ : Arr Int).set
      (L.length + (Y ++ y :: T).length) y = .ok ⟨0, (L ++ Y) ++ y :: (T ++ y :: R)⟩ := by
    have hsplit' : ∀ x, L ++ (Y ++ y :: (T ++ x :: R)) = (L ++ (Y ++ y :: T)) ++ x :: R := by simp
    rw [hsplit', set_at (by simp), ← hsplit', ← List.append_assoc]
  rw [harr]
  refine hscan.bind ?_
  simp only [if_pos hnext, hget, hset, bind, Except.bind, pure, Except.pure]
  have hi : (L.length : Int) + Y.length = (L ++ Y).length := by simp
  have hj : (L.length : Int) + (Y ++ y :: T).length - 1 = (L ++ Y).length + T.length := by
    rw [hlen, ← hi]
    omega
  rw [hi, hj]
  exact Ends.pure _

/-- Nothing to move to the left. -/
theorem fillLeft_none (hM : ∀ x ∈ M, p < x) :
    Ends (fun fuel => fillLeft p fuel ⟨0, L ++ h :: (M ++ R)⟩ L.length (L.length + M.length))
      (⟨0, L ++ h :: (M ++ R)⟩, L.length, L.length) := by
  have hscan := scanDown_ends (p := p) (c := ((L.length : Int) < ·)) (P := L) (R := R)
    (z := h) rfl hM (fun k hk _ => decide_eq_true hk) (fun _ => decide_eq_false (lt_irrefl _))
  refine hscan.bind ?_
  have hno : ¬ (L.length : Int) < L.length := lt_irrefl _
  simp only [if_neg hno]
  exact Ends.pure _

/-- The last element that is not greater goes to the left. -/
theorem fillLeft_some (hW : ∀ x ∈ W, p < x) (hz : z ≤ p) :
    Ends (fun fuel => fillLeft p fuel ⟨0, L ++ h :: ((M ++ z :: W) ++ R)⟩ L.length
        (L.length + (M ++ z :: W).length))
      (⟨0, (L ++ [z]) ++ (M ++ z :: (W ++ R))⟩, (L ++ [z]).length,
        (L ++ [z]).length + M.length) := by
  have harr : ∀ x, L ++ x :: ((M ++ z :: W) ++ R) = (L ++ x :: M) ++ z :: (W ++ R) := by simp
  have hP : ((L ++ h :: M).length : Int) = L.length + M.length + 1 := by
    simp only [List.length_append, List.length_cons]
    omega
  have hscan := scanDown_ends (p := p) (c := ((L.length : Int) < ·)) (P := L ++ h :: M)
    (R := R) (z := z) (Y := W) (j := L.length + (M ++ z :: W).length) (by
      simp only [List.length_append, List.length_cons]
      omega) hW (fun k hk _ => decide_eq_true (by omega)) (fun hlt => absurd hlt (not_lt.2 hz))
  have hnext : (L.length : Int) < (L ++ h :: M).length := by omega
  have hget : (⟨0, (L ++ h :: M) ++ z :: (W ++ R)⟩ : Arr Int).get (L ++ h :: M).length = .ok z :=
    get_at (by simp)
  have hset : (⟨0, (L ++ h :: M) ++ z :: (W ++ R)⟩ : Arr Int).set L.length z =
      .ok ⟨0, (L ++ [z]) ++ (M ++ z :: (W ++ R))⟩ := by
    rw [List.append_assoc, List.cons_append, set_at (by simp), List.append_assoc]
    rfl
  rw [harr]
  refine hscan.bind ?_
  simp only [if_pos hnext, hget, hset, bind, Except.bind, pure, Except.pure]
  have hi : (L.length : Int) + 1 = (L ++ [z]).length := by simp
  have hj : ((L ++ h :: M).length : Int) = (L ++ [z]).length + M.length := by
    rw [hP, ← hi]
    omega
  rw [hi, hj]
  exact Ends.pure _

/-- The first element with a property. -/
theorem first_split (q : Int → Prop) (M : List Int) : (∀ x ∈ M, ¬ q x) ∨
    ∃ Y y M₁, M = Y ++ y :: M₁ ∧ (∀ x ∈ Y, ¬ q x) ∧ q y := by
  induction M with
  | nil => exact .inl nofun
  | cons x M ih =>
    by_cases hx : q x
    · exact .inr ⟨[], x, M, rfl, nofun, hx⟩
    · cases ih with
      | inl hall => exact .inl (List.forall_mem_cons.2 ⟨hx, hall⟩)
      | inr hsome =>
        obtain ⟨Y, y, M₁, rfl, hY, hy⟩ := hsome
        exact .inr ⟨x :: Y, y, M₁, rfl, List.forall_mem_cons.2 ⟨hx, hY⟩, hy⟩

/-- The last element with a property. -/
theorem last_split (q : Int → Prop) (M : List Int) : (∀ x ∈ M, ¬ q x) ∨
    ∃ M₁ z W, M = M₁ ++ z :: W ∧ q z ∧ ∀ x ∈ W, ¬ q x := by
  cases first_split q M.reverse with
  | inl hall => exact .inl fun x hx => hall x (List.mem_reverse.2 hx)
  | inr hsome =>
    obtain ⟨Y, y, M₁, hM, hY, hy⟩ := hsome
    refine .inr ⟨M₁.reverse, y, Y.reverse, ?_, hy, fun x hx => hY x (List.mem_reverse.1 hx)⟩
    rw [← List.reverse_reverse M, hM]
    simp

theorem behind_small (hM : ∀ x ∈ M, x < p) : behind p M = [] := by
  have hdrop : M.dropWhile (· < p) = [] :=
    List.dropWhile_eq_nil_iff.2 fun x hx => decide_eq_true (hM x hx)
  rw [behind]
  split
  · rfl
  · rw [hdrop] at *
    contradiction

theorem behind_some (hY : ∀ x ∈ Y, x < p) (hy : p ≤ y) : behind p (Y ++ y :: T) =
    behind p (T.rdropWhile (p < ·)).dropLast ++ (T.rtakeWhile (p < ·) ++ [y]) := by
  have hdrop : (Y ++ y :: T).dropWhile (· < p) = y :: T := by
    rw [List.dropWhile_append_of_pos fun x hx => decide_eq_true (hY x hx),
      List.dropWhile_cons_of_neg (by simpa using hy)]
  rw [behind]
  split
  · rw [hdrop] at *
    contradiction
  · next y' T' h =>
    cases hdrop.symm.trans h
    rfl

theorem behind_stay (hY : ∀ x ∈ Y, x < p) (hy : p ≤ y) (hT : ∀ x ∈ T, p < x) :
    behind p (Y ++ y :: T) = T ++ [y] := by
  have hdrop : T.rdropWhile (p < ·) = [] :=
    List.rdropWhile_eq_nil_iff.2 fun x hx => decide_eq_true (hT x hx)
  have htake : T.rtakeWhile (p < ·) = T :=
    List.rtakeWhile_eq_self_iff.2 fun x hx => decide_eq_true (hT x hx)
  rw [behind_some hY hy, hdrop, htake, List.dropLast_nil, behind_small (List.forall_mem_nil _)]
  rfl

theorem behind_move (hY : ∀ x ∈ Y, x < p) (hy : p ≤ y) (hz : z ≤ p) (hW : ∀ x ∈ W, p < x) :
    behind p (Y ++ y :: (M ++ z :: W)) = behind p M ++ (W ++ [y]) := by
  have hall : ∀ W : List Int, (∀ x ∈ W, p < x) →
      (M ++ z :: W).rdropWhile (p < ·) = M ++ [z] ∧ (M ++ z :: W).rtakeWhile (p < ·) = W := by
    intro W hW
    induction W using List.reverseRecOn with
    | nil =>
      rw [List.rdropWhile_concat_neg _ _ _ (by simpa using hz),
        List.rtakeWhile_concat_neg _ _ _ (by simpa using hz)]
      exact ⟨rfl, rfl⟩
    | append_singleton W w ih =>
      have hw : p < w := hW w (by simp)
      obtain ⟨h1, h2⟩ := ih fun x hx => hW x (by simp [hx])
      rw [← List.cons_append, ← List.append_assoc,
        List.rdropWhile_concat_pos _ _ _ (by simpa using hw),
        List.rtakeWhile_concat_pos _ _ _ (by simpa using hw), h1, h2]
      exact ⟨rfl, rfl⟩
  obtain ⟨hdrop, htake⟩ := hall W hW
  rw [behind_some hY hy, hdrop, htake, List.dropLast_concat]

/-- What is left to do comes to two sides: a round keeps `Y` on the left, moves `y` to the right and
`z` to the left and keeps `W` on the right. -/
theorem sides_rule {motive : List Int → List Int → List Int → List Int → List Int → Prop}
    (small : ∀ {L M R}, (∀ x ∈ M, x < p) → motive L M R M [])
    (stay : ∀ {L Y y M R}, (∀ x ∈ Y, x < p) → p ≤ y → (∀ x ∈ M, p < x) →
      motive L (Y ++ y :: M) R Y (M ++ [y]))
    (move : ∀ {L Y y M z W R U V}, (∀ x ∈ Y, x < p) → p ≤ y → z ≤ p → (∀ x ∈ W, p < x) →
      motive (L ++ Y ++ [z]) M (W ++ y :: R) U V →
        motive L (Y ++ y :: (M ++ z :: W)) R (Y ++ [z] ++ U) (V ++ (W ++ [y]))) :
    ∀ (n : Nat) {L M R : List Int}, M.length ≤ n →
      ∃ U, motive L M R U (behind p M) ∧ (∀ u ∈ U, u ≤ p) ∧ (∀ v ∈ behind p M, p ≤ v) ∧
        (U ++ behind p M).Perm M
  | n, L, M, R, hn => by
    cases first_split (p ≤ ·) M with
    | inl hsmall =>
      -- all of them stay on the left
      have hsmall : ∀ y ∈ M, y < p := fun y hy => not_le.1 (hsmall y hy)
      rw [behind_small hsmall]
      exact ⟨M, small hsmall, fun u hu => (hsmall u hu).le, nofun, by simp⟩
    | inr hsome =>
      obtain ⟨Y, y, M₁, rfl, hY, hy⟩ := hsome
      have hY : ∀ x ∈ Y, x < p := fun x hx => not_le.1 (hY x hx)
      cases last_split (· ≤ p) M₁ with
      | inl hbig =>
        -- all that are left stay on the right
        have hbig : ∀ x ∈ M₁, p < x := fun x hx => not_le.1 (hbig x hx)
        rw [behind_stay hY hy hbig]
        refine ⟨Y, stay hY hy hbig, fun u hu => (hY u hu).le, fun v hv => ?_, ?_⟩
        · cases List.mem_append.1 hv with
          | inl hv => exact (hbig v hv).le
          | inr hv => exact List.mem_singleton.1 hv ▸ hy
        · exact (List.perm_append_singleton y M₁).append_left Y
      | inr hlast =>
        obtain ⟨M₂, z, W, rfl, hz, hW⟩ := hlast
        have hW : ∀ x ∈ W, p < x := fun x hx => not_le.1 (hW x hx)
        simp only [List.length_append, List.length_cons] at hn
        match n with
        | 0 => omega
        | n + 1 =>
          obtain ⟨U, hrest, hU, hV, hperm⟩ := sides_rule @small @stay @move n
            (L := L ++ Y ++ [z]) (M := M₂) (R := W ++ y :: R) (by omega)
          rw [behind_move hY hy hz hW]
          refine ⟨Y ++ [z] ++ U, move hY hy hz hW hrest, fun u hu => ?_, fun v hv => ?_, ?_⟩
          · simp only [List.mem_append, List.mem_singleton] at hu
            cases hu with
            | inl hu =>
              cases hu with
              | inl hu => exact (hY u hu).le
              | inr hu => exact hu ▸ hz
            | inr hu => exact hU u hu
          · simp only [List.mem_append, List.mem_singleton] at hv
            cases hv with
            | inl hv => exact hV v hv
            | inr hv =>
              cases hv with
              | inl hv => exact (hW v hv).le
              | inr hv => exact hv ▸ hy
          · refine List.perm_iff_count.2 fun a => ?_
            have hcount := List.perm_iff_count.1 hperm a
            simp only [List.count_append, List.count_cons, List.count_nil] at hcount ⊢
            omega

/-- The loop goes on over a segment that is not empty. -/
theorem left_ne_right {L Y T : List Int} {y : Int} :
    (L.length : Int) ≠ L.length + (Y ++ y :: T).length := by
  rw [List.length_append, List.length_cons]
  omega

/-- A round of the loop. -/
theorem partitionLoop_round {a a₁ a₂ : Arr Int} {i j i₁ j₁ i₂ j₂ : Int} {r : Arr Int × Int}
    (hne : i ≠ j) (hright : Ends (fun fuel => fillRight p fuel a i j) (a₁, i₁, j₁))
    (hleft : Ends (fun fuel => fillLeft p fuel a₁ i₁ j₁) (a₂, i₂, j₂))
    (hrest : Ends (fun fuel => partitionLoop p fuel a₂ i₂ j₂) r) :
    Ends (fun fuel => partitionLoop p fuel a i j) r := by
  refine Ends.succ ?_
  simp only [partitionLoop, if_pos hne]
  exact hright.bind (hleft.bind hrest)

/-- The loop at its end. -/
theorem partitionLoop_exit {a : Arr Int} {i : Int} :
    Ends (fun fuel => partitionLoop p fuel a i i) (a, i) := by
  refine Ends.succ ?_
  have hno : ¬ i ≠ i := fun hc => hc rfl
  simp only [partitionLoop, if_neg hno]
  exact Ends.pure _

/-- **The loop of `partition`**: what is left to do comes to the two sides of the hole. -/
theorem partitionLoop_ends (n : Nat) {L M R : List Int} (hn : M.length ≤ n) :
    ∃ U, (∀ h, ∃ h', Ends (fun fuel => partitionLoop p fuel ⟨0, L ++ (M ++ h :: R)⟩ L.length
        (L.length + M.length)) (⟨0, (L ++ U) ++ h' :: (behind p M ++ R)⟩, (L ++ U).length)) ∧
      (∀ u ∈ U, u ≤ p) ∧ (∀ v ∈ behind p M, p ≤ v) ∧ (U ++ behind p M).Perm M := by
  refine sides_rule
    (motive := fun L M R U V => ∀ h, ∃ h', Ends (fun fuel =>
      partitionLoop p fuel ⟨0, L ++ (M ++ h :: R)⟩ L.length (L.length + M.length))
        (⟨0, (L ++ U) ++ h' :: (V ++ R)⟩, (L ++ U).length)) ?_ ?_ ?_ n hn
  · intro L M R hsmall h
    have hlen : ((L ++ M).length : Int) = L.length + M.length := by
      rw [List.length_append]
      exact Int.natCast_add _ _
    have hexit := partitionLoop_exit (p := p) (a := ⟨0, (L ++ M) ++ h :: R⟩) (i := (L ++ M).length)
    cases M with
    | nil => exact ⟨h, by simpa using hexit⟩
    | cons x M =>
      have hleft := fillLeft_none (p := p) (h := h) (L := L ++ (x :: M)) (M := []) (R := R)
        (List.forall_mem_nil _)
      rw [List.nil_append, List.length_nil, Int.natCast_zero, add_zero] at hleft
      rw [hlen, List.append_assoc] at hleft hexit
      refine ⟨h, ?_⟩
      rw [hlen, List.append_assoc, List.nil_append]
      exact partitionLoop_round (left_ne_right (Y := [])) (fillRight_none hsmall) hleft hexit
  · intro L Y y M R hY hy hbig h
    refine ⟨y, ?_⟩
    rw [List.append_assoc M]
    exact partitionLoop_round left_ne_right (fillRight_some hY hy) (fillLeft_none hbig)
      partitionLoop_exit
  · intro L Y y M z W R U V hY hy hz hW hrest h
    obtain ⟨h', hrest⟩ := hrest z
    refine ⟨h', ?_⟩
    have hL : L ++ (Y ++ [z] ++ U) = L ++ Y ++ [z] ++ U := by simp
    have hR : V ++ (W ++ [y]) ++ R = V ++ (W ++ y :: R) := by simp
    rw [hL, hR]
    exact partitionLoop_round left_ne_right (fillRight_some hY hy) (fillLeft_some hW hz) hrest

end

/-! ## The sort -/

section
variable {A B s : List Int} {p : Int}

/-- `partition` of a segment with the last element `p`. -/
theorem partition_ends (A s B : List Int) (p : Int) :
    ∃ U, Ends (fun fuel => partition fuel ⟨0, A ++ (s ++ p :: B)⟩ A.length
        (A.length + s.length)) (⟨0, (A ++ U) ++ p :: (behind p s ++ B)⟩, (A ++ U).length) ∧
      (∀ u ∈ U, u ≤ p) ∧ (∀ v ∈ behind p s, p ≤ v) ∧ (U ++ behind p s).Perm s := by
  obtain ⟨U, hloop, hU, hV, hperm⟩ := partitionLoop_ends (p := p) s.length (L := A)
    (M := s) (R := B) le_rfl
  obtain ⟨h, hloop⟩ := hloop p
  refine ⟨U, ?_, hU, hV, hperm⟩
  have hget : (⟨0, A ++ (s ++ p :: B)⟩ : Arr Int).get (A.length + s.length) = .ok p := by
    rw [← List.append_assoc]
    exact get_at (by simp)
  have hset : (⟨0, (A ++ U) ++ h :: (behind p s ++ B)⟩ : Arr Int).set (A ++ U).length p =
      .ok ⟨0, (A ++ U) ++ p :: (behind p s ++ B)⟩ := set_at (by simp)
  simp only [partition, hget, bind, Except.bind]
  refine hloop.bind ?_
  rw [hset]
  exact Ends.pure _

theorem length_behind_le (p : Int) (x : List Int) : (behind p x).length ≤ x.length := by
  obtain ⟨U, -, -, -, hperm⟩ := partition_ends [] x [] p
  rw [← hperm.length_eq, List.length_append]
  exact Nat.le_add_left _ _

/-- No pivot comes to the last place of the segment: neither the first one nor, as long as the part
behind it has two elements, the next one. -/
def PivotsInside (s : List Int) : Prop :=
  if h : 2 ≤ s.length then
    let p := s.getLast (List.ne_nil_of_length_pos (Nat.lt_of_lt_of_le Nat.zero_lt_two h))
    behind p s.dropLast ≠ [] ∧ PivotsInside (behind p s.dropLast)
  else True
termination_by s.length
decreasing_by
  refine lt_of_le_of_lt (length_behind_le _ _) ?_
  rw [List.length_dropLast]
  omega

theorem pivotsInside_short (h : s.length ≤ 1) : PivotsInside s := by
  rw [PivotsInside, dif_neg (by omega)]
  exact trivial

theorem pivotsInside_snoc {x : List Int} (hx : x ≠ []) : PivotsInside (x ++ [p]) ↔
    behind p x ≠ [] ∧ PivotsInside (behind p x) := by
  have h : 2 ≤ (x ++ [p]).length := by
    have := List.length_pos_iff.2 hx
    rw [List.length_append, List.length_singleton]
    omega
  rw [PivotsInside, dif_pos h]
  simp only [List.getLast_concat, List.dropLast_concat]

/-- A step of `quickSort2`: what it does with a segment of two or more elements. -/
theorem quickSort2_step {A x B U : List Int} {p : Int} (hx : x ≠ [])
    (hpart : Ends (fun fuel => partition fuel ⟨0, A ++ (x ++ p :: B)⟩ A.length
      (A.length + x.length)) (⟨0, (A ++ U) ++ p :: (behind p x ++ B)⟩, (A ++ U).length))
    (r : Arr Int) :
    Ends (fun fuel => quickSort2 fuel ⟨0, A ++ (x ++ [p] ++ B)⟩ A.length
        (A.length + (x ++ [p]).length - 1)) r ↔
      ∃ a, Ends (fun fuel => quickSort2 fuel ⟨0, A ++ (U ++ p :: (behind p x ++ B))⟩ A.length
          (A.length + U.length - 1)) a ∧
        ∃ i, add (A.length + U.length) 1 = .ok i ∧
          Ends (fun fuel => quickSort2 fuel a i (A.length + x.length)) r := by
  have hstart : A ++ (x ++ [p] ++ B) = A ++ (x ++ p :: B) := by simp
  have hmid : (A ++ U) ++ p :: (behind p x ++ B) = A ++ (U ++ p :: (behind p x ++ B)) := by simp
  have hr : (A.length : Int) + (x ++ [p]).length - 1 = A.length + x.length := by
    rw [List.length_append, List.length_singleton]
    omega
  have hl : ((A ++ U).length : Int) = A.length + U.length := by
    rw [List.length_append]
    exact Int.natCast_add _ _
  have hlt : ¬ (A.length : Int) ≥ A.length + x.length := by
    have := List.length_pos_iff.2 hx
    omega
  rw [hmid, hl] at hpart
  rw [hstart, hr, ← Ends.succ_iff]
  simp only [quickSort2, if_neg hlt]
  rw [Ends.bind_iff (Signed.access_steady partition_steady) fun s => quickSort2_steady.bind fun a =>
    (Steady.const _).bind fun i => quickSort2_steady]
  constructor
  · rintro ⟨s, hs, hrest⟩
    cases hs.unique (Signed.access_ends hpart)
    obtain ⟨a, ha, hrest⟩ := (Ends.bind_iff quickSort2_steady fun a =>
      (Steady.const _).bind fun i => quickSort2_steady).1 hrest
    obtain ⟨i, hi, hrest⟩ := (Ends.bind_iff (Steady.const _) fun i => quickSort2_steady).1 hrest
    exact ⟨a, ha, i, Ends.const_iff.1 hi, hrest⟩
  · rintro ⟨a, ha, i, hi, hrest⟩
    exact ⟨_, Signed.access_ends hpart, ha.bind ((Ends.const_iff.2 hi).bind hrest)⟩

theorem sorted_short : ∀ {s : List Int}, s.length ≤ 1 → s.Pairwise (· ≤ ·)
  | [], _ => List.Pairwise.nil
  | [x], _ => List.pairwise_singleton _ x

/-- `quickSort2` of a segment, which may be empty. -/
theorem quickSort2_ends : ∀ (n : Nat) {A s B : List Int}, s.length ≤ n →
    (A.length : Int) + s.length ≤ intMax + 1 →
    ((A.length : Int) + s.length ≤ intMax ∨ PivotsInside s) →
    ∃ s', Ends (fun fuel => quickSort2 fuel ⟨0, A ++ (s ++ B)⟩ A.length (A.length + s.length - 1))
        ⟨0, A ++ (s' ++ B)⟩ ∧ s'.Perm s ∧ s'.Pairwise (· ≤ ·)
  | n, A, s, B, hn, hmax, hroom => by
    by_cases hshort : s.length ≤ 1
    · refine ⟨s, ?_, List.Perm.refl _, ?_⟩
      · refine Ends.succ ?_
        have hge : (A.length : Int) ≥ A.length + s.length - 1 := by omega
        simp only [quickSort2, if_pos hge]
        exact Ends.const_iff.2 rfl
      · exact sorted_short hshort
    · match n with
      | 0 => omega
      | n + 1 =>
        obtain ⟨x, p, rfl⟩ : ∃ x p, s = x ++ [p] := by
          have hne : s ≠ [] := fun hc => hshort (by simp [hc])
          exact ⟨s.dropLast, s.getLast hne, (List.dropLast_append_getLast hne).symm⟩
        rw [List.length_append, List.length_singleton] at hn hshort hmax hroom
        push_cast at hmax hroom
        have hx : x ≠ [] := fun hc => hshort (by simp [hc])
        rw [pivotsInside_snoc hx] at hroom
        obtain ⟨U, hpart, hU, hV, hperm⟩ := partition_ends A x B p
        have hlen := hperm.length_eq
        rw [List.length_append] at hlen
        have hpos : behind p x ≠ [] → 1 ≤ (behind p x).length := List.length_pos_iff.2
        have hinside : (A.length : Int) + U.length + 1 ≤ intMax := by
          cases hroom with
          | inl hroom => omega
          | inr hroom =>
            have := hpos hroom.1
            omega
        obtain ⟨U', hleft, hpermU, hsortU⟩ := quickSort2_ends n (A := A) (s := U)
          (B := p :: (behind p x ++ B)) (by omega) (by omega) (.inl (by omega))
        have hlenU := hpermU.length_eq
        have hl' : (A.length : Int) + U.length + 1 = (A ++ U' ++ [p]).length := by
          simp only [List.length_append, List.length_singleton]
          omega
        have hend : ((A ++ U' ++ [p]).length : Int) + (behind p x).length =
            A.length + (x.length + 1) := by omega
        obtain ⟨V', hright, hpermV, hsortV⟩ := quickSort2_ends n (A := A ++ U' ++ [p])
          (s := behind p x) (B := B) (by omega) (hend.le.trans hmax)
          (by rw [hend]; exact hroom.imp_right And.right)
        refine ⟨U' ++ p :: V', ?_, ?_, ?_⟩
        · have hr' : (A.length : Int) + x.length =
              (A ++ U' ++ [p]).length + (behind p x).length - 1 := by omega
          have hmid : A ++ U' ++ [p] ++ (behind p x ++ B) =
            A ++ (U' ++ p :: (behind p x ++ B)) := by
            simp
          have hall : A ++ U' ++ [p] ++ (V' ++ B) = A ++ (U' ++ p :: V' ++ B) := by simp
          rw [← hr', ← hl', hmid, hall] at hright
          exact (quickSort2_step hx hpart _).2
            ⟨_, hleft, _, Signed.add_ok (by omega) Int.one_nonneg hinside, hright⟩
        · have hmid : (U' ++ p :: V').Perm (p :: (U ++ behind p x)) :=
            List.perm_middle.trans ((hpermU.append hpermV).cons p)
          exact hmid.trans ((hperm.cons p).trans (List.perm_append_singleton p x).symm)
        · refine List.pairwise_append.2 ⟨hsortU, List.pairwise_cons.2 ⟨fun v hv => ?_, hsortV⟩,
            fun u hu v hv => ?_⟩
          · exact hV v (hpermV.mem_iff.1 hv)
          · have hup := hU u (hpermU.mem_iff.1 hu)
            cases List.mem_cons.1 hv with
            | inl he => exact he ▸ hup
            | inr hv => exact hup.trans (hV v (hpermV.mem_iff.1 hv))

/-- Where a pivot comes to the index `INT_MAX`, the index behind it overflows. -/
theorem quickSort2_overflows : ∀ (n : Nat) {A s B : List Int}, s.length ≤ n →
    (A.length : Int) + s.length = intMax + 1 → ¬ PivotsInside s → ∀ r,
    ¬ Ends (fun fuel => quickSort2 fuel ⟨0, A ++ (s ++ B)⟩ A.length (A.length + s.length - 1)) r
  | n, A, s, B, hn, hmax, hroom => by
    intro r hr
    have hshort : ¬ s.length ≤ 1 := fun hshort => hroom (pivotsInside_short hshort)
    match n with
    | 0 => omega
    | n + 1 =>
      obtain ⟨x, p, rfl⟩ : ∃ x p, s = x ++ [p] := by
        have hne : s ≠ [] := fun hc => hshort (by simp [hc])
        exact ⟨s.dropLast, s.getLast hne, (List.dropLast_append_getLast hne).symm⟩
      rw [List.length_append, List.length_singleton] at hn hshort hmax
      push_cast at hmax
      have hx : x ≠ [] := fun hc => hshort (by simp [hc])
      rw [pivotsInside_snoc hx, not_and_or, not_not] at hroom
      obtain ⟨U, hpart, -, -, hperm⟩ := partition_ends A x B p
      have hlen := hperm.length_eq
      rw [List.length_append] at hlen
      obtain ⟨a, ha, i, hi, hrest⟩ := (quickSort2_step hx hpart r).1 hr
      obtain ⟨rfl, hle⟩ := Signed.add_eq_ok hi
      cases hroom with
      | inl hnone =>
        rw [hnone, List.length_nil] at hlen
        omega
      | inr hroom =>
        have hpos : 1 ≤ (behind p x).length := by omega
        obtain ⟨U', hleft, hpermU, -⟩ := quickSort2_ends n (A := A) (s := U)
          (B := p :: (behind p x ++ B)) (by omega) (by omega) (.inl (by omega))
        cases ha.unique hleft
        have hlenU := hpermU.length_eq
        have hl' : (A.length : Int) + U.length + 1 = (A ++ U' ++ [p]).length := by
          simp only [List.length_append, List.length_singleton]
          omega
        have hr' : (A.length : Int) + x.length =
            (A ++ U' ++ [p]).length + (behind p x).length - 1 := by omega
        have hmid : A ++ (U' ++ p :: (behind p x ++ B)) = A ++ U' ++ [p] ++ (behind p x ++ B) := by
          simp
        rw [hl', hr', hmid] at hrest
        exact quickSort2_overflows n (by omega) (by omega) hroom r hrest

end

/-- `a[left..right]` is `a'[left..right]` with its last element at `p`, not smaller than those
before and not greater than those behind. -/
structure Partitioned (left right : Nat) (a a' : List Int) (p : Nat) : Prop where
  bounds : left ≤ p ∧ p ≤ right
  pivot : a'[p]? = a[right]?
  low : ∀ k, left ≤ k → k < p → ∀ x ∈ a'[k]?, ∀ v ∈ a'[p]?, x ≤ v
  high : ∀ k, p < k → k ≤ right → ∀ x ∈ a'[k]?, ∀ v ∈ a'[p]?, v ≤ x
  perm : (segment a' left right).Perm (segment a left right)
  before : a'.take left = a.take left
  behind : a'.drop (right + 1) = a.drop (right + 1)

theorem partition_partitioned {a : List Int} {left right : Nat} (hle : left ≤ right)
    (hlen : right < a.length) : ∃ (a' : List Int) (p : Nat),
      Ends (fun fuel => partition fuel ⟨0, a⟩ left right) (⟨0, a'⟩, p) ∧
        Partitioned left right a a' p := by
  obtain ⟨A, s, B, rfl, rfl, hs⟩ := segment_split hle hlen
  have hne : s ≠ [] := fun hc => by
    rw [hc, List.length_nil] at hs
    omega
  obtain ⟨x, v, rfl⟩ : ∃ x v, s = x ++ [v] :=
    ⟨s.dropLast, s.getLast hne, (List.dropLast_append_getLast hne).symm⟩
  obtain ⟨U, hpart, hU, hV, hperm⟩ := partition_ends A x B v
  revert hpart hV hperm
  generalize behind v x = V
  intro hpart hV hperm
  rw [List.length_append, List.length_singleton] at hs
  have hright : right = A.length + x.length := by omega
  have hlenUV := hperm.length_eq
  rw [List.length_append] at hlenUV
  have hstart : A ++ (x ++ [v] ++ B) = A ++ (x ++ v :: B) := by simp
  have hend : (A ++ U) ++ v :: (V ++ B) = A ++ ((U ++ v :: V) ++ B) := by simp
  have hpivot : ((A ++ U) ++ v :: (V ++ B))[(A ++ U).length]? = some v := by simp
  rw [hstart]
  refine ⟨(A ++ U) ++ v :: (V ++ B), (A ++ U).length, ?_, ⟨?_, ?_⟩, ?_, ?_, ?_, ?_, ?_, ?_⟩
  · rw [hright]
    push_cast at hpart ⊢
    exact hpart
  · rw [List.length_append]
    omega
  · rw [List.length_append]
    omega
  · rw [hpivot, hright, ← List.append_assoc, ← List.length_append]
    simp
  · intro k h1 h2 y hy w hw
    rw [hpivot] at hw
    cases hw
    rw [List.getElem?_append_left h2, List.getElem?_append_right h1] at hy
    exact hU y (List.mem_of_getElem? hy)
  · intro k h1 h2 y hy w hw
    rw [hpivot] at hw
    cases hw
    obtain ⟨m, rfl⟩ := Nat.exists_eq_add_of_lt h1
    rw [List.getElem?_append_right (by omega), show (A ++ U).length + m + 1 - (A ++ U).length =
      m + 1 by omega, List.getElem?_cons_succ, List.getElem?_append_left (by
        rw [List.length_append] at h2
        omega)] at hy
    exact hV y (List.mem_of_getElem? hy)
  · rw [hend, ← hstart, segment_append rfl (by simp; omega), segment_append rfl (by simp; omega)]
    have hmid : (U ++ v :: V).Perm (v :: (U ++ V)) := List.perm_middle
    exact hmid.trans ((hperm.cons v).trans (List.perm_append_singleton v x).symm)
  · rw [hend, List.take_left, List.take_left]
  · rw [hend, ← hstart, drop_segment rfl (by simp; omega), drop_segment rfl (by simp; omega)]

/-- **Exactly when `quickSort2` sorts**: `partition` is right for every segment, and a segment that
ends at `INT_MAX` is sorted when no pivot comes to its last place. -/
theorem quickSort2_iff {a : List Int} {left right : Nat} (hle : left ≤ right)
    (hlen : right < a.length) (hmax : (right : Int) ≤ intMax) :
    ((∃ (a' : List Int) (p : Nat),
        Ends (fun fuel => partition fuel ⟨0, a⟩ left right) (⟨0, a'⟩, p) ∧
          Partitioned left right a a' p) ∧
      ∃ a' : List Int, Ends (fun fuel => quickSort2 fuel ⟨0, a⟩ left right) ⟨0, a'⟩ ∧
        Sorts (· ≤ ·) left right a a') ↔
      ((right : Int) < intMax ∨ PivotsInside (segment a left right)) := by
  rw [and_iff_right (partition_partitioned hle hlen)]
  obtain ⟨A, s, B, rfl, rfl, hs⟩ := segment_split hle hlen
  have hright : (right : Int) = A.length + s.length - 1 := by omega
  rw [segment_append rfl hs, hright]
  constructor
  · rintro ⟨a', hends, -⟩
    by_contra hroom
    obtain ⟨hlast, hroom⟩ := not_or.1 hroom
    exact quickSort2_overflows s.length le_rfl (by omega) hroom _ hends
  · intro hroom
    obtain ⟨s', hends, hperm, hsorted⟩ := quickSort2_ends s.length (A := A) (s := s) (B := B) le_rfl
      (by omega) (hroom.imp_left fun hlt => by omega)
    exact ⟨A ++ (s' ++ B), hends, Sorts.of_split rfl hs hperm hsorted⟩

theorem quickSort2_five : (∃ (a' : List Int) (p : Nat),
      Ends (fun fuel => partition fuel ⟨0, [9, 3, 1, 3, 2, 0]⟩ (1 : Nat) (4 : Nat)) (⟨0, a'⟩, p) ∧
        Partitioned 1 4 [9, 3, 1, 3, 2, 0] a' p) ∧
    ∃ a' : List Int, Ends (fun fuel => quickSort2 fuel ⟨0, [9, 3, 1, 3, 2, 0]⟩ (1 : Nat) (4 : Nat))
      ⟨0, a'⟩ ∧ Sorts (· ≤ ·) 1 4 [9, 3, 1, 3, 2, 0] a' :=
  (quickSort2_iff (by decide) (by decide) (by decide)).2 (.inl (by decide))

/-- The elements 0 and 1 at the indices `INT_MAX - 1` and `INT_MAX`. -/
theorem quickSort2_at_end : ¬ ∀ (a : List Int) (left right : Nat), left ≤ right →
    right < a.length → (right : Int) ≤ intMax →
    ∃ a' : List Int, Ends (fun fuel => quickSort2 fuel ⟨0, a⟩ left right) ⟨0, a'⟩ ∧
      Sorts (· ≤ ·) left right a a' := by
  intro h
  let A : List Int := List.replicate (intMax - 1).toNat 0
  have hA : (A.length : Int) = intMax - 1 := by
    rw [List.length_replicate]
    decide
  have hlen : (A ++ ([0, 1] ++ [])).length = A.length + 2 := by simp
  obtain ⟨a', hends, -⟩ := h (A ++ ([0, 1] ++ [])) A.length (A.length + 1) (Nat.le_add_right _ _)
    (by omega) (by push_cast; omega)
  have hlast : ¬ PivotsInside ([0] ++ [1]) := by
    rw [pivotsInside_snoc (by decide), behind_small (by decide)]
    exact fun hc => hc.1 rfl
  refine quickSort2_overflows 2 (A := A) (s := [0, 1]) (B := []) le_rfl ?_ hlast ⟨0, a'⟩ ?_
  · show (A.length : Int) + 2 = intMax + 1
    omega
  · have hright : (A.length : Int) + ([0, 1] : List Int).length - 1 = (A.length + 1 : Nat) := by
      show (A.length : Int) + 2 - 1 = _
      omega
    rw [hright]
    exact hends

end QuickSort
