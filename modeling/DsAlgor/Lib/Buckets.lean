import Mathlib.Data.List.Basic
import Mathlib.Tactic

/-!
# Buckets

`rows m f` is the rows `f 0`, …, `f (m - 1)` one behind the other. `pass m key xs` puts `xs` into
`m` buckets by `key` and reads them in order; it is stable, so what was in order by `R` is in order
by `key` and then by `R` (`pass_pairwise`).
-/

namespace Buckets

variable {α β : Type} {m k : Nat}

/-! ## Rows -/

def rows (m : Nat) (f : Nat → List α) : List α := (List.range m).flatMap f

theorem rows_succ (m : Nat) (f : Nat → List α) : rows (m + 1) f = rows m f ++ f m := by
  rw [rows, List.range_succ, List.flatMap_append, List.flatMap_singleton]
  rfl

theorem rows_congr {f g : Nat → List α} (h : ∀ c < m, f c = g c) : rows m f = rows m g := by
  induction m with
  | zero => rfl
  | succ m ih =>
    rw [rows_succ, rows_succ, ih fun c hc => h c (Nat.lt_succ_of_lt hc), h m (Nat.lt_succ_self m)]

theorem rows_length {f : Nat → List α} {g : Nat → List β}
    (h : ∀ c < m, (f c).length = (g c).length) : (rows m f).length = (rows m g).length := by
  induction m with
  | zero => rfl
  | succ m ih =>
    rw [rows_succ, rows_succ, List.length_append, List.length_append,
      ih fun c hc => h c (Nat.lt_succ_of_lt hc), h m (Nat.lt_succ_self m)]

theorem rows_update (f : Nat → List α) (hk : k < m) :
    ∃ rest, ∀ l, rows m (Function.update f k l) = rows k f ++ (l ++ rest) := by
  induction m with
  | zero => exact absurd hk (Nat.not_lt_zero k)
  | succ m ih =>
    by_cases hkm : k = m
    · subst hkm
      refine ⟨[], fun l => ?_⟩
      have hoff : rows k (Function.update f k l) = rows k f :=
        rows_congr fun c hc => Function.update_of_ne (Nat.ne_of_lt hc) ..
      rw [rows_succ, hoff, Function.update_self, List.append_nil]
    · obtain ⟨rest, hrest⟩ := ih (by omega)
      refine ⟨rest ++ f m, fun l => ?_⟩
      rw [rows_succ, hrest, Function.update_of_ne (Ne.symm hkm)]
      simp only [List.append_assoc]

/-- A list is cut into rows of given lengths. -/
theorem exists_rows (g : Nat → List β) {l : List α} (h : l.length = (rows m g).length) :
    ∃ f, (∀ c < m, (f c).length = (g c).length) ∧ rows m f = l := by
  induction m generalizing l with
  | zero => exact ⟨fun _ => [], fun c hc => absurd hc (Nat.not_lt_zero c),
      (List.length_eq_zero_iff.1 h).symm⟩
  | succ m ih =>
    rw [rows_succ, List.length_append] at h
    obtain ⟨f, hf, hrows⟩ := ih (l := l.take (rows m g).length) (by rw [List.length_take]; omega)
    refine ⟨Function.update f m (l.drop (rows m g).length), fun c hc => ?_, ?_⟩
    · by_cases hcm : c = m
      · rw [hcm, Function.update_self, List.length_drop]
        omega
      · rw [Function.update_of_ne hcm]
        exact hf c (by omega)
    · have hoff : rows m (Function.update f m (l.drop (rows m g).length)) = rows m f :=
        rows_congr fun c hc => Function.update_of_ne (Nat.ne_of_lt hc) ..
      rw [rows_succ, hoff, hrows, Function.update_self, List.take_append_drop]

/-! ## Passes -/

def pass (m : Nat) (key : α → Nat) (xs : List α) : List α :=
  rows m fun c => xs.filter fun x => key x = c

variable {key : α → Nat} {xs : List α}

theorem pass_perm_filter (m : Nat) (key : α → Nat) (xs : List α) :
    (pass m key xs).Perm (xs.filter fun x => key x < m) := by
  induction m with
  | zero => simp [pass, rows]
  | succ m ih =>
    have hlow : (xs.filter fun x => key x < m + 1).filter (fun x => key x < m) =
        xs.filter fun x => key x < m := by
      rw [List.filter_filter]
      refine List.filter_congr fun x _ => ?_
      by_cases h : key x < m
      · simp [h, Nat.lt_succ_of_lt h]
      · simp [h]
    have hhigh : (xs.filter fun x => key x < m + 1).filter (fun x => !decide (key x < m)) =
        xs.filter fun x => key x = m := by
      rw [List.filter_filter]
      refine List.filter_congr fun x _ => ?_
      rw [← decide_not, ← Bool.decide_and]
      exact decide_eq_decide.2 (by omega)
    have hsplit := List.filter_append_perm (fun x => decide (key x < m))
      (xs.filter fun x => key x < m + 1)
    rw [hlow, hhigh] at hsplit
    rw [pass, rows_succ]
    exact (ih.append_right _).trans hsplit

theorem pass_perm (h : ∀ x ∈ xs, key x < m) : (pass m key xs).Perm xs := by
  have hall : xs.filter (fun x => decide (key x < m)) = xs :=
    List.filter_eq_self.2 fun x hx => decide_eq_true (h x hx)
  have hperm := pass_perm_filter m key xs
  rwa [hall] at hperm

/-- The buckets are in order, and in a bucket the order is that of before. -/
theorem pass_pairwise {R : α → α → Prop} (h : xs.Pairwise R) :
    (pass m key xs).Pairwise fun x y => key x < key y ∨ key x = key y ∧ R x y := by
  refine List.pairwise_flatMap.2 ⟨fun c _ => ?_, ?_⟩
  · refine List.Pairwise.imp_of_mem (fun {x y} hx hy hxy => .inr ⟨?_, hxy⟩) (h.filter _)
    have hx := of_decide_eq_true (List.mem_filter.1 hx).2
    have hy := of_decide_eq_true (List.mem_filter.1 hy).2
    rw [hx, hy]
  · refine List.pairwise_lt_range.imp fun {c d} hcd x hx y hy => .inl ?_
    have hx := of_decide_eq_true (List.mem_filter.1 hx).2
    have hy := of_decide_eq_true (List.mem_filter.1 hy).2
    rw [hx, hy]
    exact hcd

end Buckets
