import Mathlib.Data.List.Lex
import Mathlib.Order.Lattice
import Mathlib.Tactic

/-!
# The least sublist of a given length

In the lexicographic order the least sublists of a list are found by `shrink`: the first element
with a smaller one behind it is taken out, again and again (`iterate_shrink_le`). The taking out of
another element may be made up for by the later ones; `iterate_shrink_eq_iff` says when.
-/

namespace Deletion

variable {α : Type} [LinearOrder α] {d s t pre mid post rest : List α} {x y z : α} {k : Nat}

/-- Without the first element with a smaller one next to it, or else without the last one. -/
def shrink : List α → List α
  | [] => []
  | [_] => []
  | x :: y :: t => if y < x then y :: t else x :: shrink (y :: t)

theorem shrink_of_lt (h : y < x) : shrink (x :: y :: t) = y :: t := by rw [shrink, if_pos h]

theorem shrink_of_le (h : x ≤ y) : shrink (x :: y :: t) = x :: shrink (y :: t) := by
  rw [shrink, if_neg h.not_gt]

theorem shrink_sublist (d : List α) : (shrink d).Sublist d := by
  induction d using shrink.induct with
  | case1 => exact List.Sublist.refl _
  | case2 x => exact List.nil_sublist _
  | case3 x y t h =>
    rw [shrink_of_lt h]
    exact List.sublist_cons_self _ _
  | case4 x y t h ih =>
    rw [shrink_of_le (not_lt.1 h)]
    exact ih.cons_cons _

theorem length_shrink (d : List α) : (shrink d).length = d.length - 1 := by
  induction d using shrink.induct with
  | case1 => rfl
  | case2 x => rfl
  | case3 x y t h =>
    rw [shrink_of_lt h]
    rfl
  | case4 x y t h ih =>
    rw [shrink_of_le (not_lt.1 h), List.length_cons, ih]
    rfl

theorem iterate_shrink_sublist (k : Nat) (d : List α) : (shrink^[k] d).Sublist d := by
  induction k generalizing d with
  | zero => exact List.Sublist.refl _
  | succ k ih => exact (ih _).trans (shrink_sublist d)

theorem length_iterate_shrink (k : Nat) (d : List α) :
    (shrink^[k] d).length = d.length - k := by
  induction k generalizing d with
  | zero => rfl
  | succ k ih =>
    rw [Function.iterate_succ_apply, ih, length_shrink]
    omega

/-! ## It is the least one -/

/-- A shorter sublist is exchanged for one that `shrink` leaves, which is no greater. -/
theorem exists_sublist_shrink (hs : s.Sublist d) (hlength : s.length < d.length) :
    ∃ s', s'.Sublist (shrink d) ∧ s'.length = s.length ∧ s' ≤ s := by
  induction d using shrink.induct generalizing s with
  | case1 => exact absurd hlength (Nat.not_lt_zero _)
  | case2 x =>
    have hnil : s = [] := List.length_eq_zero_iff.1 (Nat.lt_one_iff.1 hlength)
    subst hnil
    exact ⟨[], List.nil_sublist _, rfl, le_refl _⟩
  | case3 x y t h =>
    rw [shrink_of_lt h]
    rcases List.sublist_cons_iff.1 hs with htail | ⟨s, rfl, htail⟩
    · exact ⟨s, htail, rfl, le_refl _⟩
    · simp only [List.length_cons] at hlength
      refine ⟨y :: t.take s.length, (List.take_sublist _ _).cons_cons _, ?_, ?_⟩
      · rw [List.length_cons, List.length_cons, List.length_take]
        omega
      · exact (List.cons_lt_cons_iff.2 (.inl h)).le
  | case4 x y t h ih =>
    have hle := not_lt.1 h
    rw [shrink_of_le hle]
    rcases List.sublist_cons_iff.1 hs with htail | ⟨s, rfl, htail⟩
    · by_cases hshort : s.length < (y :: t).length
      · obtain ⟨s', hs', hlen, hles⟩ := ih htail hshort
        exact ⟨s', hs'.cons _, hlen, hles⟩
      · -- Only `x` has been taken out.
        obtain rfl := htail.eq_of_length_le (not_lt.1 hshort)
        rcases hle.lt_or_eq with hlt | rfl
        · refine ⟨x :: shrink (y :: t), List.Sublist.refl _, ?_, ?_⟩
          · rw [List.length_cons, length_shrink]
            rfl
          · exact (List.cons_lt_cons_iff.2 (.inl hlt)).le
        · obtain ⟨s', hs', hlen, hles⟩ := ih (List.sublist_cons_self x t) (Nat.lt_succ_self _)
          exact ⟨x :: s', hs'.cons_cons _, congrArg (· + 1) hlen, List.cons_le_cons x hles⟩
    · obtain ⟨s', hs', hlen, hles⟩ := ih htail (Nat.lt_of_succ_lt_succ hlength)
      exact ⟨x :: s', hs'.cons_cons _, congrArg (· + 1) hlen, List.cons_le_cons x hles⟩

/-- What `k` steps leave is the least sublist with `k` elements less. -/
theorem iterate_shrink_le (hs : s.Sublist d) (hlength : s.length + k = d.length) :
    shrink^[k] d ≤ s := by
  induction k generalizing s d with
  | zero => exact (hs.eq_of_length hlength).ge
  | succ k ih =>
    obtain ⟨s', hs', hlen, hles⟩ := exists_sublist_shrink hs (by omega)
    refine (ih hs' ?_).trans hles
    rw [hlen, length_shrink]
    omega

/-! ## What one step takes out of a part -/

/-- How many elements have a smaller one behind them. -/
def overtaken : List α → Nat
  | [] => 0
  | x :: t => (if ∃ z ∈ t, z < x then 1 else 0) + overtaken t

theorem overtaken_cons (x : α) (t : List α) :
    overtaken (x :: t) = (if ∃ z ∈ t, z < x then 1 else 0) + overtaken t := rfl

theorem overtaken_eq_zero : overtaken d = 0 ↔ d.Pairwise (· ≤ ·) := by
  induction d with
  | nil => exact iff_of_true rfl .nil
  | cons x t ih =>
    rw [overtaken_cons, List.pairwise_cons, Nat.add_eq_zero_iff, ih]
    refine and_congr_left fun _ => ?_
    by_cases h : ∃ z ∈ t, z < x
    · rw [if_pos h]
      obtain ⟨z, hz, hlt⟩ := h
      exact iff_of_false Nat.one_ne_zero fun hle => (hle z hz).not_gt hlt
    · rw [if_neg h]
      exact iff_of_true rfl fun z hz => not_lt.1 fun hlt => h ⟨z, hz, hlt⟩

/-- The elements smaller than the first one stay. -/
theorem mem_shrink (hz : z ∈ y :: t) (hlt : z < y) : z ∈ shrink (y :: t) := by
  induction t generalizing y with
  | nil => exact absurd (List.mem_singleton.1 hz) hlt.ne
  | cons w t ih =>
    have htail : z ∈ w :: t := (List.mem_cons.1 hz).resolve_left hlt.ne
    rcases lt_or_ge w y with hw | hw
    · rw [shrink_of_lt hw]
      exact htail
    · rw [shrink_of_le hw]
      exact List.mem_cons_of_mem _ (ih htail (hlt.trans_le hw))

theorem overtaken_shrink (h : overtaken pre ≠ 0) :
    shrink (pre ++ rest) = shrink pre ++ rest ∧ overtaken (shrink pre) + 1 = overtaken pre := by
  induction pre using shrink.induct with
  | case1 => exact absurd rfl h
  | case2 x => exact absurd (overtaken_eq_zero.2 (List.pairwise_singleton _ x)) h
  | case3 x y t hlt =>
    rw [List.cons_append, List.cons_append, shrink_of_lt hlt, shrink_of_lt hlt, overtaken_cons x,
      if_pos ⟨y, List.mem_cons_self, hlt⟩]
    exact ⟨rfl, Nat.add_comm _ _⟩
  | case4 x y t hlt ih =>
    have hle := not_lt.1 hlt
    have hne : overtaken (y :: t) ≠ 0 := by
      intro hzero
      have hsorted := overtaken_eq_zero.1 hzero
      refine h (overtaken_eq_zero.2 (List.pairwise_cons.2 ⟨fun z hz => ?_, hsorted⟩))
      rcases List.mem_cons.1 hz with rfl | hz
      · exact hle
      · exact hle.trans (List.rel_of_pairwise_cons hsorted hz)
    obtain ⟨happend, hcount⟩ := ih hne
    have hex : (∃ z ∈ shrink (y :: t), z < x) ↔ ∃ z ∈ y :: t, z < x := by
      refine ⟨fun ⟨z, hz, hzx⟩ => ⟨z, (shrink_sublist _).subset hz, hzx⟩, ?_⟩
      rintro ⟨z, hz, hzx⟩
      exact ⟨z, mem_shrink hz (hzx.trans_le hle), hzx⟩
    rw [List.cons_append, List.cons_append, shrink_of_le hle, shrink_of_le hle, overtaken_cons,
      overtaken_cons x, if_congr hex rfl rfl, ← hcount]
    exact ⟨congrArg (x :: ·) happend, by omega⟩

/-- Ascending elements stay. -/
theorem shrink_append (h : (pre ++ [x]).Pairwise (· ≤ ·)) :
    shrink (pre ++ x :: rest) = pre ++ shrink (x :: rest) := by
  induction pre with
  | nil => rfl
  | cons y pre ih =>
    obtain ⟨hy, hpre⟩ := List.pairwise_cons.1 h
    have hih := ih hpre
    cases pre with
    | nil => exact shrink_of_le (hy x List.mem_cons_self)
    | cons z pre =>
      rw [List.cons_append, List.cons_append, shrink_of_le (hy z List.mem_cons_self)]
      exact congrArg (y :: ·) hih

theorem shrink_above (hmid : ∀ x ∈ mid, y ≤ x) (hpost : ∀ x ∈ post.head?, x < y)
    (h : mid.countP (y < ·) ≠ 0) : shrink (mid ++ post) = shrink mid ++ post ∧
      (shrink mid).countP (y < ·) + 1 = mid.countP (y < ·) := by
  induction mid using shrink.induct with
  | case1 => exact absurd rfl h
  | case2 x =>
    have hx : y < x := by
      by_contra hx
      exact h (List.countP_eq_zero.2 (by simpa using hx))
    refine ⟨?_, by simp [shrink, hx]⟩
    cases post with
    | nil => rfl
    | cons z post => exact shrink_of_lt ((hpost z rfl).trans hx)
  | case3 x z t hlt =>
    have hx : y < x := (hmid z (by simp)).trans_lt hlt
    rw [List.cons_append, List.cons_append, shrink_of_lt hlt, shrink_of_lt hlt,
      List.countP_cons_of_pos (a := x) (by simpa using hx)]
    exact ⟨rfl, rfl⟩
  | case4 x z t hlt ih =>
    have hle := not_lt.1 hlt
    have hne : (z :: t).countP (y < ·) ≠ 0 := by
      intro hzero
      have hz : z ≤ y := by simpa using List.countP_eq_zero.1 hzero z List.mem_cons_self
      refine h ?_
      rw [List.countP_cons_of_neg (by simpa using hle.trans hz), hzero]
    obtain ⟨happend, hcount⟩ := ih (fun w hw => hmid w (List.mem_cons_of_mem _ hw)) hne
    rw [List.cons_append, List.cons_append, shrink_of_le hle, shrink_of_le hle, List.countP_cons,
      List.countP_cons (a := x), ← hcount]
    exact ⟨congrArg (x :: ·) happend, by omega⟩

/-- Of equal elements the last one is taken out. -/
theorem shrink_equal (hmid : ∀ x ∈ mid, x = y) (hpost : ∀ x ∈ post.head?, x < y) :
    shrink (y :: (mid ++ post)) = mid ++ post := by
  induction mid with
  | nil =>
    cases post with
    | nil => rfl
    | cons z post => exact shrink_of_lt (hpost z rfl)
  | cons x mid ih =>
    obtain rfl : x = y := hmid x List.mem_cons_self
    rw [List.cons_append, shrink_of_le (le_refl x),
      ih fun z hz => hmid z (List.mem_cons_of_mem _ hz)]

/-- The first of the elements is the greatest. -/
theorem shrink_greatest (h : ∀ z ∈ t, z ≤ x) : shrink (x :: t) = t := by
  induction t with
  | nil => rfl
  | cons z t ih =>
    rcases (h z List.mem_cons_self).lt_or_eq with hlt | rfl
    · exact shrink_of_lt hlt
    · rw [shrink_of_le le_rfl, ih fun w hw => h w (List.mem_cons_of_mem _ hw)]

/-! ## Another element is taken out -/

/-- A list around `y`: smaller elements in front, greater or equal ones up to a smaller one. -/
structure Around (y : α) (pre mid post : List α) : Prop where
  before : ∀ x ∈ pre, x < y
  above : ∀ x ∈ mid, y ≤ x
  below : ∀ x ∈ post.head?, x < y

/-- The steps that are made before `y` is taken out. -/
def ahead (y : α) (pre mid : List α) : Nat := overtaken pre + mid.countP (y < ·)

namespace Around

variable (h : Around y pre mid post)
include h

theorem pairwise (hpre : overtaken pre = 0) (hx : y ≤ x) : (pre ++ [x]).Pairwise (· ≤ ·) := by
  refine List.pairwise_append.2 ⟨overtaken_eq_zero.1 hpre, List.pairwise_singleton _ x, ?_⟩
  intro z hz w hw
  rw [List.mem_singleton.1 hw]
  exact (h.before z hz).le.trans hx

/-- With nothing ahead the step takes out `y`, or one equal to it. -/
theorem shrink_eq (hahead : ahead y pre mid = 0) :
    shrink (pre ++ y :: (mid ++ post)) = pre ++ (mid ++ post) := by
  obtain ⟨hpre, hcount⟩ := Nat.add_eq_zero_iff.1 hahead
  have hmid : ∀ x ∈ mid, x = y := fun x hx =>
    (h.above x hx).antisymm' (by simpa using List.countP_eq_zero.1 hcount x hx)
  rw [shrink_append (h.pairwise hpre le_rfl), shrink_equal hmid h.below]

/-- Otherwise the same step is made with `y` and without. -/
theorem exists_shrink (hahead : ahead y pre mid ≠ 0) :
    ∃ pre' mid', Around y pre' mid' post ∧ ahead y pre' mid' + 1 = ahead y pre mid ∧
      shrink (pre ++ y :: (mid ++ post)) = pre' ++ y :: (mid' ++ post) ∧
      shrink (pre ++ (mid ++ post)) = pre' ++ (mid' ++ post) := by
  by_cases hpre : overtaken pre = 0
  · have hcount : mid.countP (y < ·) ≠ 0 := by
      rwa [ahead, hpre, Nat.zero_add] at hahead
    obtain ⟨happend, hless⟩ := shrink_above h.above h.below hcount
    obtain ⟨x, t, rfl⟩ : ∃ x t, mid = x :: t := by
      refine List.exists_cons_of_ne_nil fun hnil => hcount ?_
      rw [hnil, List.countP_nil]
    have hx := h.above x List.mem_cons_self
    refine ⟨pre, shrink (x :: t), ⟨h.before, ?_, h.below⟩, by rw [ahead, ahead]; omega, ?_, ?_⟩
    · exact fun z hz => h.above z ((shrink_sublist _).subset hz)
    · rw [shrink_append (h.pairwise hpre le_rfl), List.cons_append, shrink_of_le hx,
        ← List.cons_append, happend]
    · rw [List.cons_append, shrink_append (h.pairwise hpre hx), ← List.cons_append, happend]
  · have hless := (@overtaken_shrink _ _ pre [] hpre).2
    refine ⟨shrink pre, mid, ⟨?_, h.above, h.below⟩, by rw [ahead, ahead]; omega, ?_, ?_⟩
    · exact fun x hx => h.before x ((shrink_sublist pre).subset hx)
    · exact (overtaken_shrink hpre).1
    · exact (overtaken_shrink hpre).1

/-- Where a step is made ahead, `y` is still there afterwards. -/
theorem shrink_ne (hahead : ahead y pre mid ≠ 0) :
    shrink (pre ++ y :: (mid ++ post)) ≠ pre ++ (mid ++ post) := by
  intro heq
  obtain ⟨pre', mid', h', hless, hwith, -⟩ := h.exists_shrink hahead
  rw [hwith] at heq
  have htake := congrArg (List.takeWhile (· < y)) heq
  rw [List.takeWhile_append_of_pos (by simpa using h'.before),
    List.takeWhile_append_of_pos (by simpa using h.before), List.takeWhile_cons_of_neg (by simp),
    List.append_nil] at htake
  cases mid with
  | nil =>
    have hlength := congrArg List.length heq
    have hle := congrArg List.length htake
    simp only [List.length_append, List.length_cons, List.length_nil] at hlength hle
    omega
  | cons x mid =>
    have hx := h.above x List.mem_cons_self
    rw [List.cons_append, List.takeWhile_cons_of_neg (by simpa using hx), List.append_nil] at htake
    subst htake
    have hmid : y :: mid' = x :: mid := List.append_cancel_right (List.append_cancel_left heq)
    rw [ahead, ahead, ← hmid, List.countP_cons_of_neg (by simp)] at hless
    omega

theorem iterate_shrink_eq_iff :
    shrink^[k] (pre ++ (mid ++ post)) = shrink^[k + 1] (pre ++ y :: (mid ++ post)) ↔
      ahead y pre mid < k + 1 := by
  rw [Function.iterate_succ_apply]
  induction k generalizing pre mid with
  | zero =>
    rw [Nat.lt_one_iff]
    refine ⟨fun heq => ?_, fun hahead => (h.shrink_eq hahead).symm⟩
    by_contra hahead
    exact h.shrink_ne hahead heq.symm
  | succ k ih =>
    by_cases hahead : ahead y pre mid = 0
    · exact iff_of_true (by rw [h.shrink_eq hahead]) (by omega)
    · obtain ⟨pre', mid', h', hless, hwith, hwithout⟩ := h.exists_shrink hahead
      rw [Function.iterate_succ_apply, hwithout, hwith, Function.iterate_succ_apply, ih h']
      omega

end Around

end Deletion
