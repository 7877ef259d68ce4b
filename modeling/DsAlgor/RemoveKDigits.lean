import DsAlgor.Lib.Deletion
import Mathlib.Data.List.TakeWhile
import Mathlib.Data.Nat.Digits.Lemmas
import Mathlib.Order.Bounds.Basic

/-!
# Removing k digits

`removeK` takes the digits out one by one, each time the first digit greater than the leading one.
The smallest number needs the first digit greater than its successor. A round does no harm if the
later ones can make up for it (`harmless_iff`), and which digits the rounds take out can be read off
the number (`isLeast_iff`).
-/

namespace RemoveKDigits

open Deletion

/-! ## The code -/

/-- The `while` loop of `removeK`, the last digit first. `num` and `k` are not negative. -/
def lowDigits (num : Nat) : List Nat :=
  if num > 0 then num % 10 :: lowDigits (num / 10) else []

/-- `while(iter != bits.end() && *iter <= left)` -/
def advance (left : Nat) : List Nat → Nat
  | [] => 0
  | b :: bits => if b ≤ left then advance left bits + 1 else 0

def removeOne : List Nat → List Nat
  | [] => []
  | [left] => [left]
  | left :: b :: bits =>
    let iter := advance left (left :: b :: bits)
    if iter = (left :: b :: bits).length then b :: bits else (left :: b :: bits).eraseIdx iter

def value (bits : List Nat) : Nat := bits.foldl (fun res b => res * 10 + b) 0

def removeK (num k : Nat) : Nat :=
  let bits := (lowDigits num).reverse
  if k ≥ bits.length then 0 else value (removeOne^[k] bits)

/-! ## The purpose -/

def digits (num : Nat) : List Nat := (Nat.digits 10 num).reverse

/-- The numbers with `k` of the digits deleted. -/
def obtainable (num k : Nat) : Set Nat :=
  {v | ∃ s : List Nat, s.Sublist (digits num) ∧ s.length + k = (digits num).length ∧
    v = Nat.ofDigits 10 s.reverse}

/-- The digits of `s` that are greater than none of `pre`. -/
def below (pre s : List Nat) : List Nat := s.filter fun x => ∀ z ∈ pre, x ≤ z

/-- For every `y` of `t` that is greater than `left` and among the first `k` digits to go, where `n`
digits go before those of `t`: fewer digits than are left to go need to go before `y`. -/
def Spares (k n left : Nat) (t : List Nat) : Prop :=
  ∀ u y v, t = u ++ y :: v → left < y → n + u.countP (left < ·) < k →
    ahead y (left :: u.filter (· ≤ left)) (v.takeWhile (y ≤ ·)) < k - (n + u.countP (left < ·))

/-- A digit `left` that is greater than none in front of it becomes the leading one when these and
the digits greater than one of them have gone. Then the digits greater than `left` go, from left to
right. -/
def Harmless (k : Nat) (d : List Nat) : Prop :=
  ∀ pre left s, d = pre ++ left :: s → (∀ z ∈ pre, left ≤ z) →
    Spares k (pre.length + (s.length - (below pre s).length)) left (below pre s)

/-! ## Digits and their values -/

section
variable {s t d rest : List Nat} {y left num k : Nat}

theorem lowDigits_eq (num : Nat) : lowDigits num = Nat.digits 10 num := by
  induction num using lowDigits.induct with
  | case1 num hnum ih => rw [lowDigits, if_pos hnum, ih, ← Nat.digits_def' (by decide) hnum]
  | case2 num hnum =>
    obtain rfl := Nat.eq_zero_of_not_pos hnum
    rw [lowDigits, if_neg hnum, Nat.digits_zero]

theorem value_eq (s : List Nat) : value s = Nat.ofDigits 10 s.reverse := by
  rw [Nat.ofDigits_eq_foldr, List.foldr_reverse, value]
  congr 1
  funext res b
  simp only [Nat.cast_id]
  omega

theorem value_cons (b : Nat) (s : List Nat) : value (b :: s) = b * 10 ^ s.length + value s := by
  rw [value_eq, value_eq, List.reverse_cons, Nat.ofDigits_append, Nat.ofDigits_singleton,
    List.length_reverse, Nat.mul_comm, Nat.add_comm]

theorem value_lt_pow (hs : ∀ b ∈ s, b < 10) : value s < 10 ^ s.length := by
  rw [value_eq, ← List.length_reverse]
  exact Nat.ofDigits_lt_base_pow_length (by decide) fun b hb => hs b (List.mem_reverse.1 hb)

/-- Of two numbers with as many digits the lexicographic order is that of the values. -/
theorem value_lt (hlength : s.length = t.length) (hs : ∀ b ∈ s, b < 10) (hlt : s < t) :
    value s < value t := by
  induction s generalizing t with
  | nil =>
    obtain rfl := List.length_eq_zero_iff.1 hlength.symm
    exact absurd hlt (lt_irrefl _)
  | cons a s ih =>
    cases t with
    | nil => exact absurd hlength (Nat.succ_ne_zero _)
    | cons b t =>
      have htail : s.length = t.length := Nat.succ_injective hlength
      have hdigits : ∀ c ∈ s, c < 10 := fun c hc => hs c (List.mem_cons_of_mem _ hc)
      rw [value_cons, value_cons, ← htail]
      rcases List.cons_lt_cons_iff.1 hlt with hab | ⟨rfl, hst⟩
      · calc a * 10 ^ s.length + value s < a * 10 ^ s.length + 10 ^ s.length :=
              Nat.add_lt_add_left (value_lt_pow hdigits) _
          _ = (a + 1) * 10 ^ s.length := (Nat.succ_mul _ _).symm
          _ ≤ b * 10 ^ s.length := Nat.mul_le_mul_right _ hab
          _ ≤ b * 10 ^ s.length + value t := Nat.le_add_right _ _
      · exact Nat.add_lt_add_left (ih htail hdigits hst) _

theorem value_le (hlength : s.length = t.length) (hs : ∀ b ∈ s, b < 10) (hle : s ≤ t) :
    value s ≤ value t := by
  rcases hle.lt_or_eq with hlt | rfl
  · exact (value_lt hlength hs hlt).le
  · exact le_rfl

theorem digits_lt_ten (hs : s.Sublist (digits num)) : ∀ b ∈ s, b < 10 := by
  intro b hb
  exact Nat.digits_lt_base (by decide) (List.mem_reverse.1 (hs.subset hb))

/-! ## A round -/

theorem advance_eq (left : Nat) (s : List Nat) :
    advance left s = (s.takeWhile (· ≤ left)).length := by
  induction s with
  | nil => rfl
  | cons b s ih =>
    rw [advance]
    by_cases hb : b ≤ left
    · rw [if_pos hb, List.takeWhile_cons_of_pos (by simpa using hb), List.length_cons, ih]
    · rw [if_neg hb, List.takeWhile_cons_of_neg (by simpa using hb), List.length_nil]

/-- What a round does where there is a first digit greater than the leading one. -/
theorem removeOne_of_gt (h : (left :: s).dropWhile (· ≤ left) = y :: rest) :
    removeOne (left :: s) = (left :: s).takeWhile (· ≤ left) ++ rest := by
  cases s with
  | nil => simp at h
  | cons b s =>
    have hsplit := List.takeWhile_append_dropWhile (p := (· ≤ left)) (l := left :: b :: s)
    rw [h] at hsplit
    have hlength := congrArg List.length hsplit
    rw [List.length_append, @List.length_cons _ y rest] at hlength
    rw [removeOne, advance_eq, if_neg (by omega), ← hsplit,
      List.eraseIdx_append_of_length_le (by rw [hsplit]), hsplit, Nat.sub_self, List.eraseIdx_zero,
      List.tail_cons]

theorem removeOne_of_le (h : (left :: s).dropWhile (· ≤ left) = []) (hs : s ≠ []) :
    removeOne (left :: s) = s := by
  cases s with
  | nil => exact absurd rfl hs
  | cons b s =>
    have hsplit := List.takeWhile_append_dropWhile (p := (· ≤ left)) (l := left :: b :: s)
    rw [h, List.append_nil] at hsplit
    rw [removeOne, advance_eq, hsplit, if_pos rfl]

theorem removeOne_sublist (d : List Nat) : (removeOne d).Sublist d := by
  match d with
  | [] => exact List.Sublist.refl _
  | [_] => exact List.Sublist.refl _
  | left :: b :: s =>
    rw [removeOne]
    split_ifs
    · exact List.sublist_cons_self _ _
    · exact List.eraseIdx_sublist _ _

theorem length_removeOne (hd : 2 ≤ d.length) : (removeOne d).length + 1 = d.length := by
  match d with
  | [] => exact absurd hd (Nat.not_succ_le_zero 1)
  | [_] => exact absurd hd (Nat.not_succ_le_self 1)
  | left :: b :: s =>
    have hadvance := advance_eq left (left :: b :: s)
    have hle := (List.takeWhile_sublist (p := (· ≤ left)) (l := left :: b :: s)).length_le
    rw [removeOne]
    split_ifs with hend
    · rfl
    · rw [List.length_eraseIdx_of_lt (by omega)]
      rfl

/-- The digits around the one that a round takes out. -/
theorem around (h : (left :: s).dropWhile (· ≤ left) = y :: rest) :
    Around y ((left :: s).takeWhile (· ≤ left)) (rest.takeWhile (y ≤ ·))
      (rest.dropWhile (y ≤ ·)) := by
  have hy : left < y := by
    have hhead := List.head?_dropWhile_not (· ≤ left) (left :: s)
    rw [h] at hhead
    simpa using hhead
  refine ⟨fun x hx => ?_, fun x hx => ?_, fun x hx => ?_⟩
  · have hle : x ≤ left := by simpa using List.mem_takeWhile_imp hx
    exact hle.trans_lt hy
  · simpa using List.mem_takeWhile_imp hx
  · have hhead := List.head?_dropWhile_not (y ≤ ·) rest
    rw [Option.mem_def.1 hx] at hhead
    simpa using hhead

/-- The round with `k` digits still to be removed: no digit is greater than the leading one, or
fewer than `k` removals come before the one of the first greater digit. -/
def RoundHarmless (k : Nat) : List Nat → Prop
  | [] => True
  | left :: bits =>
    match (left :: bits).dropWhile (· ≤ left) with
    | [] => True
    | y :: rest =>
      ahead y ((left :: bits).takeWhile (· ≤ left)) (rest.takeWhile (y ≤ ·)) < k

/-- Whether the best removals lead from what the round leaves to the best result. -/
theorem roundHarmless_iff (hd : 2 ≤ d.length) :
    shrink^[k] (removeOne d) = shrink^[k + 1] d ↔ RoundHarmless (k + 1) d := by
  cases d with
  | nil => simp at hd
  | cons left s =>
    cases h : (left :: s).dropWhile (· ≤ left) with
    | nil =>
      have hs : s ≠ [] := by
        rintro rfl
        simp at hd
      have hle : ∀ c ∈ s, c ≤ left := by
        simpa using List.dropWhile_eq_nil_iff.1 h
      rw [RoundHarmless, h, removeOne_of_le h hs, Function.iterate_succ_apply, shrink_greatest hle]
      exact iff_of_true rfl trivial
    | cons y rest =>
      have hsplit := List.takeWhile_append_dropWhile (p := (· ≤ left)) (l := left :: s)
      rw [h] at hsplit
      have hiff := (around h).iterate_shrink_eq_iff (k := k)
      rw [List.takeWhile_append_dropWhile, hsplit] at hiff
      rw [RoundHarmless, h, removeOne_of_gt h]
      exact hiff

/-! ## Splits of the digits -/

section
variable {P : List Nat → Nat → List Nat → Prop} {A B : List Nat} {n : Nat}

theorem forall_split_cons : (∀ pre x s, left :: B = pre ++ x :: s → P pre x s) ↔
    P [] left B ∧ ∀ pre x s, B = pre ++ x :: s → P (left :: pre) x s := by
  refine ⟨fun h => ⟨h [] left B rfl, fun pre x s heq => h (left :: pre) x s (by rw [heq]; rfl)⟩, ?_⟩
  rintro ⟨hhead, hrest⟩ pre x s heq
  cases pre with
  | nil =>
    cases heq
    exact hhead
  | cons z pre =>
    cases heq
    exact hrest pre x s rfl

theorem forall_split_append : (∀ pre x s, A ++ B = pre ++ x :: s → P pre x s) ↔
    (∀ pre x s, A = pre ++ x :: s → P pre x (s ++ B)) ∧
      ∀ pre x s, B = pre ++ x :: s → P (A ++ pre) x s := by
  induction A generalizing P with
  | nil =>
    refine ⟨fun h => ⟨fun pre x s heq => ?_, h⟩, fun h => h.2⟩
    cases pre <;> cases heq
  | cons a A ih =>
    rw [List.cons_append, forall_split_cons, forall_split_cons, ih, and_assoc]
    rfl

theorem spares_succ {t : List Nat} : Spares (k + 1) (n + 1) left t ↔ Spares k n left t := by
  unfold Spares
  refine forall_congr' fun u => forall_congr' fun y => forall_congr' fun v =>
    imp_congr_right fun _ => imp_congr_right fun _ => ?_
  rw [Nat.add_right_comm, Nat.add_lt_add_iff_right, Nat.add_sub_add_right]

/-- The first digit to go, and the others. -/
theorem spares_first (hA : ∀ x ∈ A, x ≤ left) (hy : left < y) :
    Spares (k + 1) 0 left (A ++ y :: rest) ↔
      ahead y (left :: A) (rest.takeWhile (y ≤ ·)) < k + 1 ∧ Spares k 0 left (A ++ rest) := by
  have hcount : A.countP (left < ·) = 0 :=
    List.countP_eq_zero.2 fun x hx => by simpa using hA x hx
  have hfilter : A.filter (· ≤ left) = A := List.filter_eq_self.2 fun x hx => by simpa using hA x hx
  -- no digit of `A` goes
  have hnone : ∀ u x v, A = u ++ x :: v → ¬left < x := by
    intro u x v heq
    exact (hA x (heq ▸ List.mem_append_right u List.mem_cons_self)).not_gt
  unfold Spares
  rw [forall_split_append, forall_split_append, forall_split_cons, and_iff_right]
  · refine and_congr ?_ (Iff.trans ?_
      (and_iff_right fun u x v heq hx => absurd hx (hnone u x v heq)).symm)
    · rw [List.append_nil, hcount, hfilter, forall_prop_of_true hy,
        forall_prop_of_true (Nat.succ_pos k)]
      rfl
    · refine forall_congr' fun u => forall_congr' fun x => forall_congr' fun v =>
        imp_congr_right fun _ => imp_congr_right fun _ => ?_
      rw [List.countP_append, List.countP_append, List.countP_cons_of_pos (by simpa using hy),
        List.filter_append, List.filter_append, List.filter_cons_of_neg (by simpa using hy),
        ← Nat.add_assoc, ← Nat.add_assoc, ← Nat.add_assoc, Nat.add_lt_add_iff_right,
        Nat.add_sub_add_right]
  · exact fun u x v heq hx => absurd hx (hnone u x v heq)

theorem length_below_le (pre s : List Nat) : (below pre s).length ≤ s.length :=
  List.length_filter_le _ _

theorem below_nil (s : List Nat) : below [] s = s := by
  unfold below
  exact List.filter_eq_self.2 fun x _ => by simp

theorem below_congr {pre pre' s : List Nat}
    (h : ∀ x ∈ s, (∀ z ∈ pre, x ≤ z) ↔ ∀ z ∈ pre', x ≤ z) : below pre s = below pre' s :=
  List.filter_congr fun x hx => decide_eq_decide.2 (h x hx)

/-- A digit greater than one in front is not below. -/
theorem below_drop {pre : List Nat} {z : Nat} (hz : z ∈ pre) (hzy : z < y) :
    below pre (A ++ y :: B) = below pre (A ++ B) := by
  unfold below
  rw [List.filter_append, List.filter_append, List.filter_cons_of_neg]
  simpa using ⟨z, hz, hzy⟩

/-- **One round** on the digits. -/
theorem harmless_succ (hd : 2 ≤ d.length) :
    Harmless (k + 1) d ↔ RoundHarmless (k + 1) d ∧ Harmless k (removeOne d) := by
  cases d with
  | nil => simp at hd
  | cons left s =>
    cases h : (left :: s).dropWhile (· ≤ left) with
    | nil =>
      have hle : ∀ c ∈ s, c ≤ left := by
        simpa using List.dropWhile_eq_nil_iff.1 h
      have hs : s ≠ [] := by
        rintro rfl
        simp at hd
      rw [RoundHarmless, h, removeOne_of_le h hs, true_and]
      unfold Harmless
      rw [forall_split_cons, and_iff_right]
      · refine forall_congr' fun pre => forall_congr' fun x => forall_congr' fun s' =>
          forall_congr' fun heq => ?_
        have hx : x ≤ left := hle x (heq ▸ List.mem_append_right pre List.mem_cons_self)
        have hbelow : below (left :: pre) s' = below pre s' := by
          refine below_congr fun c hc => ?_
          rw [List.forall_mem_cons, and_iff_right]
          exact hle c (heq ▸ List.mem_append_right pre (List.mem_cons_of_mem x hc))
        rw [List.forall_mem_cons, and_iff_right hx, hbelow, List.length_cons,
          Nat.add_right_comm, spares_succ]
      · intro _ u y v heq hy
        rw [below_nil] at heq
        have hyle := hle y (heq ▸ List.mem_append_right u List.mem_cons_self)
        omega
    | cons y rest =>
      have hsplit := List.takeWhile_append_dropWhile (p := (· ≤ left)) (l := left :: s)
      have haround := around h
      rw [RoundHarmless, h, removeOne_of_gt h]
      rw [h] at hsplit
      rw [List.takeWhile_cons_of_pos (by simp)] at hsplit haround ⊢
      generalize hA : s.takeWhile (· ≤ left) = A at *
      obtain rfl : s = A ++ y :: rest := (List.cons.inj hsplit).2.symm
      have hle : ∀ x ∈ A, x ≤ left := by
        intro x hx
        rw [← hA] at hx
        simpa using List.mem_takeWhile_imp hx
      have hy : left < y := haround.before left List.mem_cons_self
      unfold Harmless
      simp only [List.cons_append]
      rw [forall_split_cons, forall_split_cons, ← and_assoc]
      refine and_congr ?_ ?_
      · simp only [below_nil, Nat.sub_self, List.length_nil, Nat.add_zero, List.not_mem_nil,
          false_imp_iff, implies_true, true_imp_iff]
        exact spares_first hle hy
      · rw [forall_split_append, forall_split_append, forall_split_cons]
        refine and_congr ?_ ((and_iff_right ?_).trans ?_)
        · refine forall_congr' fun pre => forall_congr' fun x => forall_congr' fun s' =>
            imp_congr_right fun _ => imp_congr_right fun _ => ?_
          have hlen := length_below_le (left :: pre) (s' ++ rest)
          have hn : (left :: pre).length + ((s' ++ y :: rest).length -
              (below (left :: pre) (s' ++ rest)).length) = (left :: pre).length +
              ((s' ++ rest).length - (below (left :: pre) (s' ++ rest)).length) + 1 := by
            simp only [List.length_append, List.length_cons] at hlen ⊢
            omega
          rw [below_drop List.mem_cons_self hy, hn, spares_succ]
        · intro hmin
          have := hmin left List.mem_cons_self
          omega
        · refine forall_congr' fun pre => forall_congr' fun x => forall_congr' fun s' =>
            imp_congr_right fun _ => ?_
          have hbound : ∀ c, (∀ z ∈ left :: (A ++ y :: pre), c ≤ z) ↔
              ∀ z ∈ left :: (A ++ pre), c ≤ z := by
            intro c
            simp only [List.forall_mem_cons, List.forall_mem_append]
            refine and_congr_right fun hc => and_congr_right fun _ => and_iff_right ?_
            omega
          have hn : (left :: (A ++ y :: pre)).length = (left :: (A ++ pre)).length + 1 := by
            simp only [List.length_append, List.length_cons]
            omega
          rw [hbound, below_congr fun c _ => hbound c, hn, Nat.add_right_comm, spares_succ]

end

/-! ## All rounds -/

theorem iterate_removeOne (hk : k < d.length) :
    (removeOne^[k] d).Sublist d ∧ (removeOne^[k] d).length + k = d.length := by
  induction k generalizing d with
  | zero => exact ⟨List.Sublist.refl _, rfl⟩
  | succ k ih =>
    have hround := length_removeOne (d := d) (by omega)
    obtain ⟨hsub, hlength⟩ := ih (d := removeOne d) (by omega)
    refine ⟨hsub.trans (removeOne_sublist d), ?_⟩
    rw [Function.iterate_succ_apply]
    omega

theorem iterate_removeOne_eq_iff (hk : k < d.length) :
    removeOne^[k] d = shrink^[k] d ↔ Harmless k d := by
  induction k generalizing d with
  | zero => exact iff_of_true rfl fun pre left s _ _ u y v _ _ hlt => absurd hlt (Nat.not_lt_zero _)
  | succ k ih =>
    have hround := length_removeOne (d := d) (by omega)
    rw [harmless_succ (by omega), ← ih (by omega), ← roundHarmless_iff (by omega),
      Function.iterate_succ_apply]
    constructor
    · intro heq
      -- The best result is at most that of the best removals from now on, which is at most this.
      obtain ⟨hsub, hlength⟩ := iterate_removeOne (d := removeOne d) (k := k) (by omega)
      have hbest : shrink^[k + 1] d ≤ shrink^[k] (removeOne d) := by
        refine iterate_shrink_le ((iterate_shrink_sublist k _).trans (removeOne_sublist d)) ?_
        rw [length_iterate_shrink]
        omega
      have hround' : shrink^[k] (removeOne d) ≤ removeOne^[k] (removeOne d) :=
        iterate_shrink_le hsub hlength
      have hboth := le_antisymm (heq ▸ hround') hbest
      exact ⟨hboth, heq.trans hboth.symm⟩
    · rintro ⟨hround', hlater⟩
      exact hlater.trans hround'

theorem removeK_eq (hk : k < (digits num).length) :
    removeK num k = value (removeOne^[k] (digits num)) := by
  rw [removeK, lowDigits_eq]
  exact if_neg hk.not_ge

theorem mem_obtainable (hs : s.Sublist (digits num))
    (hlength : s.length + k = (digits num).length) : value s ∈ obtainable num k :=
  ⟨s, hs, hlength, value_eq s⟩

/-- No more than `num`, so that an `int` holds it. -/
theorem removeK_le (num k : Nat) : removeK num k ≤ num := by
  by_cases hk : k < (digits num).length
  · rw [removeK_eq hk]
    obtain ⟨hsub, hlength⟩ := iterate_removeOne hk
    cases k with
    | zero => rw [Function.iterate_zero_apply, value_eq, digits, List.reverse_reverse,
        Nat.ofDigits_digits]
    | succ k =>
      have hnum : num ≠ 0 := by
        rintro rfl
        simp [digits] at hk
      have hpow := Nat.base_pow_length_digits_le 10 num (by decide) hnum
      have hlt := value_lt_pow (digits_lt_ten hsub)
      rw [← List.length_reverse, ← digits, ← hlength, ← Nat.add_assoc, pow_succ,
        mul_comm 10] at hpow
      have hless := Nat.pow_le_pow_right (show 0 < 10 by decide)
        (Nat.le_add_right (removeOne^[k + 1] (digits num)).length k)
      exact hlt.le.trans (hless.trans (Nat.le_of_mul_le_mul_right hpow (by decide)))
  · rw [removeK, lowDigits_eq]
    exact (if_pos (not_lt.1 hk)).trans_le (Nat.zero_le _)

/-- **`removeK`** gives the smallest number exactly when no round does harm. -/
theorem isLeast_iff (hk : k < (Nat.digits 10 num).length) :
    IsLeast (obtainable num k) (removeK num k) ↔ Harmless k (digits num) := by
  have hlt : k < (digits num).length := by
    rwa [digits, List.length_reverse]
  obtain ⟨hsub, hlength⟩ := iterate_removeOne hlt
  have hbest : (shrink^[k] (digits num)).length + k = (digits num).length := by
    rw [length_iterate_shrink]
    omega
  rw [← iterate_removeOne_eq_iff hlt, removeK_eq hlt]
  constructor
  · rintro ⟨-, hleast⟩
    have hle := hleast (mem_obtainable (iterate_shrink_sublist k _) hbest)
    by_contra hne
    have hstrict := (iterate_shrink_le hsub hlength).lt_of_ne (Ne.symm hne)
    have hdigits := digits_lt_ten (iterate_shrink_sublist k (digits num))
    exact hle.not_gt (value_lt (by omega) hdigits hstrict)
  · intro heq
    refine ⟨mem_obtainable hsub hlength, ?_⟩
    rintro v ⟨s, hs, hlen, rfl⟩
    rw [heq, ← value_eq]
    exact value_le (by omega) (digits_lt_ten (iterate_shrink_sublist k _))
      (iterate_shrink_le hs hlen)

/-- The example of the source, 1432219 without three digits. -/
theorem isLeast_iff_three : IsLeast (obtainable 1432219 3) (removeK 1432219 3) ↔
    Harmless 3 (digits 1432219) :=
  isLeast_iff (by norm_num)

/-- `removeK(123, 1)` is 13, and 12 can be obtained. -/
theorem not_isLeast_ascending : ¬IsLeast (obtainable 123 1) (removeK 123 1) := by
  have hdigits : digits 123 = [1, 2, 3] := by norm_num [digits]
  have hremove : removeK 123 1 = 13 := by
    rw [removeK_eq (by rw [hdigits]; decide), hdigits]
    rfl
  rintro ⟨-, hleast⟩
  have hmem : 12 ∈ obtainable 123 1 := by
    refine ⟨[1, 2], ?_, ?_, by norm_num [Nat.ofDigits]⟩
    · rw [hdigits]
      decide
    · rw [hdigits]
      rfl
  have hle := hleast hmem
  rw [hremove] at hle
  exact absurd hle (by decide)

end

end RemoveKDigits
