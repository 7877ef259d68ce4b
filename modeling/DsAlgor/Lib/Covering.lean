import DsAlgor.Lib.Checked
import Mathlib.Algebra.BigOperators.Group.Finset.Basic
import Mathlib.Algebra.Order.BigOperators.Group.Finset

/-!
# Windows that cover a list

A list covers `T` if it has each element at least as often. A window is a segment of a sequence; of
those that end at one place, one that no longer covers `T` without its first element is the
shortest (`Tight.begins_le`).
-/

namespace Covering

open Checked

theorem segment_sublist {α : Type} {S : List α} {b e : Nat} : (Checked.segment S b e).Sublist S :=
  (List.take_sublist _ _).trans (List.drop_sublist _ _)

theorem segment_eq_drop {α : Type} {S : List α} {b e : Nat} :
    Checked.segment S b e = (S.take (e + 1)).drop b := List.drop_take.symm

variable {α : Type} [DecidableEq α] {T W W' S A R : List α} {c : α} {b e : Nat}

/-- Each element of `T` is in `W` at least as often. -/
def Covers (T W : List α) : Prop := ∀ c, T.count c ≤ W.count c

/-- How many elements of `T` are matched in `W`. -/
def matched (T W : List α) : Nat := ∑ c ∈ T.toFinset, min (T.count c) (W.count c)

theorem matched_nil : matched T [] = 0 := by simp [matched]

/-- Another element is matched if there have been too few of them. -/
theorem matched_concat : matched T (W ++ [c]) =
    matched T W + if W.count c < T.count c then 1 else 0 := by
  have hterm : ∀ x, min (T.count x) ((W ++ [c]).count x) = min (T.count x) (W.count x) +
      if x = c then (if W.count c < T.count c then 1 else 0) else 0 := by
    intro x
    rw [List.count_append, List.count_singleton]
    grind
  rw [matched, Finset.sum_congr rfl fun x _ => hterm x, Finset.sum_add_distrib, Finset.sum_ite_eq',
    ← matched]
  split_ifs with hmem hlt hlt
  · rfl
  · rfl
  · rw [List.mem_toFinset] at hmem
    rw [List.count_eq_zero.2 hmem] at hlt
    omega
  · rfl

theorem matched_eq_length_iff : matched T W = T.length ↔ Covers T W := by
  have hlength : T.length = ∑ c ∈ T.toFinset, T.count c :=
    (List.sum_toFinset_count_eq_length T).symm
  rw [hlength, matched, Finset.sum_eq_sum_iff_of_le fun c _ => Nat.min_le_left _ _]
  constructor
  · intro h c
    by_cases hc : c ∈ T
    · have heq := h c (List.mem_toFinset.2 hc)
      omega
    · rw [List.count_eq_zero.2 hc]
      exact Nat.zero_le _
  · intro h c _
    exact Nat.min_eq_left (h c)

theorem Covers.of_sublist (h : Covers T W) (hsub : W.Sublist W') : Covers T W' :=
  fun c => (h c).trans (hsub.count_le c)

theorem Covers.ne_nil (h : Covers T W) (hT : T ≠ []) : W ≠ [] := by
  rintro rfl
  obtain ⟨c, hc⟩ := List.exists_mem_of_ne_nil T hT
  have hcount := h c
  have hpos := List.count_pos_iff.2 hc
  rw [List.count_nil] at hcount
  omega

/-- An element that is not in `T` does not matter. -/
theorem covers_concat_of_notMem (hc : c ∉ T) : Covers T (W ++ [c]) ↔ Covers T W := by
  refine ⟨fun h x => ?_, fun h => h.of_sublist (List.sublist_append_left W [c])⟩
  have hx := h x
  rw [List.count_append, List.count_singleton] at hx
  have hzero := List.count_eq_zero.2 hc
  grind

theorem covers_cons_of_lt (h : Covers T (c :: W)) (hc : T.count c < (c :: W).count c) :
    Covers T W := by
  intro x
  have hx := h x
  rw [List.count_cons] at hx hc
  grind

theorem not_covers_tail (hc : (c :: W).count c ≤ T.count c) : ¬Covers T W := by
  intro h
  have hx := h c
  rw [List.count_cons_self] at hc
  omega

/-! ## Windows -/

/-- The segment from `b` to `e` covers `T`. -/
structure Window (S T : List α) (b e : Nat) : Prop where
  le : b ≤ e
  lt : e < S.length
  covers : Covers T (Checked.segment S b e)

/-- Without its first element the list does not cover `T`. -/
def Tight (T W : List α) : Prop := Covers T W ∧ ¬Covers T W.tail

/-- The window that is `W`. -/
theorem window_of_split (hW : W ≠ []) (hcov : Covers T W) :
    Window (A ++ (W ++ R)) T A.length (A.length + W.length - 1) := by
  have hpos := List.length_pos_iff.2 hW
  refine ⟨by omega, by simp only [List.length_append]; omega, ?_⟩
  rwa [Checked.segment_append rfl (by omega)]

/-- No window with the same end begins later than a tight one. -/
theorem Tight.begins_le (h : Tight T W) (hwin : Window (A ++ (W ++ R)) T b e)
    (he : e + 1 = A.length + W.length) : b ≤ A.length := by
  by_contra hlt
  have hle := hwin.le
  refine h.2 (hwin.covers.of_sublist ?_)
  have hdrop : (A ++ (W ++ R)).drop b = (W ++ R).drop (b - A.length) := by
    rw [List.drop_append, List.drop_eq_nil_of_le (by omega), List.nil_append]
  have htake : Checked.segment (A ++ (W ++ R)) b e = W.drop (b - A.length) := by
    rw [Checked.segment, hdrop, List.drop_append_of_le_length (by omega), List.take_left' ?_]
    rw [List.length_drop]
    omega
  rw [htake, ← List.drop_one]
  have hsplit : b - A.length = 1 + (b - A.length - 1) := by omega
  rw [hsplit, ← List.drop_drop]
  exact List.drop_sublist _ _

/-- A window that ends with an element that is not in `T` can be made shorter. -/
theorem Window.shorten (h : Window S T b e) (hT : T ≠ []) (hc : S[e]? = some c) (hmem : c ∉ T) :
    b < e ∧ Window S T b (e - 1) := by
  obtain ⟨hle, hlt, hcov⟩ := h
  have hsplit : Checked.segment S b e = (S.drop b).take (e - b) ++ [c] := by
    have hlast : e + 1 - b = e - b + 1 := by omega
    have hidx : b + (e - b) = e := by omega
    rw [Checked.segment, hlast, List.take_add_one, List.getElem?_drop, hidx, hc, Option.toList_some]
  rw [hsplit, covers_concat_of_notMem hmem] at hcov
  have hlen := List.length_pos_iff.2 (hcov.ne_nil hT)
  rw [List.length_take, List.length_drop] at hlen
  refine ⟨by omega, by omega, by omega, ?_⟩
  have he : e - 1 + 1 - b = e - b := by omega
  rwa [Checked.segment, he]

end Covering
