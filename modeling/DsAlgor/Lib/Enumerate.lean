import Mathlib.Data.List.Lattice
import Mathlib.Data.Set.Card
import Mathlib.Tactic

/-!
# Enumerations

`Enumerates l p`: the list `l` has what satisfies `p`, each once. Sequences are enumerated by their
first elements (`Enumerates.heads`), among them the permutations of a list; the ways to cut a
sequence by the length of the first piece (`cuts`).
-/

namespace Enumerate

structure Enumerates {α : Type*} (l : List α) (p : α → Prop) : Prop where
  nodup : l.Nodup
  mem : ∀ x, x ∈ l ↔ p x

namespace Enumerates

section
variable {α : Type*} {l l' : List α} {p q : α → Prop}

theorem congr (h : Enumerates l p) (hpq : ∀ x, p x ↔ q x) : Enumerates l q :=
  ⟨h.nodup, fun x => (h.mem x).trans (hpq x)⟩

theorem perm (h : Enumerates l p) (h' : Enumerates l' p) : l.Perm l' :=
  (List.perm_ext_iff_of_nodup h.nodup h'.nodup).2 fun x => (h.mem x).trans (h'.mem x).symm

theorem ncard (h : Enumerates l p) : {x | p x}.ncard = l.length := by
  classical
  have hset : {x | p x} = (l.toFinset : Set α) := by
    ext x
    simp [h.mem]
  rw [hset, Set.ncard_coe_finset, List.toFinset_card_of_nodup h.nodup]

theorem singleton (h : ∀ x, p x ↔ x = y) : Enumerates [y] p :=
  ⟨List.nodup_singleton y, fun x => by rw [List.mem_singleton, h]⟩

theorem eq_nil_iff (h : Enumerates l p) : l = [] ↔ ∀ x, ¬ p x := by
  rw [List.eq_nil_iff_forall_not_mem]
  exact forall_congr' fun x => not_congr (h.mem x)

end

section
variable {α ι : Type*} {is : List ι} (head : ι → α) {out : ι → List (List α)}
  {p : List α → Prop}

/-- The sequences that begin with `head i` are those of `out i` behind it. -/
theorem heads (hheads : (is.map head).Nodup)
    (hout : ∀ i ∈ is, Enumerates (out i) fun t => p (head i :: t)) (hnil : ¬ p [])
    (hhead : ∀ x t, p (x :: t) → x ∈ is.map head) :
    Enumerates (is.flatMap fun i => (out i).map (head i :: ·)) p := by
  constructor
  · refine List.nodup_flatMap.2 ⟨fun i hi => ?_, ?_⟩
    · exact (hout i hi).nodup.map (List.cons_injective)
    · refine (List.pairwise_map.1 hheads).imp fun hne x hx hx' => ?_
      obtain ⟨t, _, rfl⟩ := List.mem_map.1 hx
      obtain ⟨t', _, heq⟩ := List.mem_map.1 hx'
      exact hne (List.cons.inj heq).1.symm
  · intro ys
    rw [List.mem_flatMap]
    constructor
    · rintro ⟨i, hi, hys⟩
      obtain ⟨t, ht, rfl⟩ := List.mem_map.1 hys
      exact ((hout i hi).mem t).1 ht
    · intro hys
      cases ys with
      | nil => exact absurd hys hnil
      | cons x t =>
        obtain ⟨i, hi, rfl⟩ := List.mem_map.1 (hhead x t hys)
        exact ⟨i, hi, List.mem_map.2 ⟨t, ((hout i hi).mem t).2 hys, rfl⟩⟩

/-- The same for a property that the empty sequence has. -/
theorem nil_heads (hheads : (is.map head).Nodup)
    (hout : ∀ i ∈ is, Enumerates (out i) fun t => p (head i :: t)) (hnil : p [])
    (hhead : ∀ x t, p (x :: t) → x ∈ is.map head) :
    Enumerates ([] :: is.flatMap fun i => (out i).map (head i :: ·)) p := by
  have hrest : Enumerates (is.flatMap fun i => (out i).map (head i :: ·))
      fun ys => ys ≠ [] ∧ p ys := by
    refine heads head hheads (fun i hi => (hout i hi).congr fun t => ?_) (by simp)
      fun x t h => hhead x t h.2
    simp
  constructor
  · exact List.nodup_cons.2 ⟨fun h => ((hrest.mem []).1 h).1 rfl, hrest.nodup⟩
  · intro ys
    rw [List.mem_cons, hrest.mem]
    by_cases hys : ys = []
    · simp [hys, hnil]
    · simp [hys]

/-- The permutations of `l` by their first elements, the different ones of `l`. -/
theorem permutations [DecidableEq α] {l : List α} (hl : l ≠ []) (hheads : (is.map head).Nodup)
    (hmem : ∀ x, x ∈ is.map head ↔ x ∈ l)
    (hout : ∀ i ∈ is, Enumerates (out i) (List.Perm · (l.erase (head i)))) :
    Enumerates (is.flatMap fun i => (out i).map (head i :: ·)) (List.Perm · l) := by
  refine heads head hheads (fun i hi => (hout i hi).congr fun t => ?_) (fun h => ?_) fun x t h => ?_
  · have hperm := List.perm_cons_erase ((hmem (head i)).1 (List.mem_map_of_mem hi))
    exact ⟨fun h => (h.cons _).trans hperm.symm, fun h => (h.trans hperm).cons_inv⟩
  · exact hl h.nil_eq.symm
  · exact (hmem x).2 (h.subset List.mem_cons_self)

end

end Enumerates

/-! ## Cutting a sequence -/

/-- The pieces are non-empty, have `P`, and make up the sequence. -/
structure Cut {α : Type*} (P : List α → Prop) (s : List α) (pieces : List (List α)) : Prop where
  flatten : pieces.flatten = s
  piece : ∀ w ∈ pieces, w ≠ [] ∧ P w

section
variable {α : Type*} {P : List α → Prop} {s w : List α} {pieces : List (List α)} {n : ℕ}

/-- `s` can be cut at all. -/
def Cuttable (P : List α → Prop) (s : List α) : Prop := ∃ pieces, Cut P s pieces

theorem cut_nil : Cut P [] pieces ↔ pieces = [] := by
  constructor
  · intro h
    refine List.eq_nil_iff_forall_not_mem.2 fun w hw => (h.piece w hw).1 ?_
    exact List.flatten_eq_nil_iff.1 h.flatten w hw
  · rintro rfl
    exact ⟨rfl, nofun⟩

theorem not_cut_nil (hs : s ≠ []) : ¬ Cut P s [] := fun h => hs h.flatten.symm

/-- Cutting behind the first piece. -/
theorem cut_cons : Cut P s (w :: pieces) ↔
    w ≠ [] ∧ P w ∧ ∃ t, s = w ++ t ∧ Cut P t pieces := by
  constructor
  · intro h
    have hw := h.piece w List.mem_cons_self
    refine ⟨hw.1, hw.2, pieces.flatten, ?_, rfl, fun v hv => ?_⟩
    · rw [← h.flatten, List.flatten_cons]
    · exact h.piece v (List.mem_cons_of_mem w hv)
  · rintro ⟨hne, hw, t, rfl, ht⟩
    constructor
    · rw [List.flatten_cons, ht.flatten]
    · intro v hv
      cases List.mem_cons.1 hv with
      | inl heq => exact heq ▸ ⟨hne, hw⟩
      | inr hv => exact ht.piece v hv

theorem cut_take (h1 : 1 ≤ n) (hn : n ≤ s.length) :
    Cut P s (s.take n :: pieces) ↔ P (s.take n) ∧ Cut P (s.drop n) pieces := by
  have hne : s.take n ≠ [] := by
    rw [← List.length_pos_iff, List.length_take]
    omega
  rw [cut_cons]
  constructor
  · rintro ⟨-, hP, t, heq, ht⟩
    have ht' : t = s.drop n := by
      rw [← List.take_append_drop n s] at heq
      exact (List.append_inj_right heq (by simp)).symm
    exact ⟨hP, ht' ▸ ht⟩
  · rintro ⟨hP, ht⟩
    exact ⟨hne, hP, s.drop n, (List.take_append_drop n s).symm, ht⟩

/-- Cutting in front of the last piece. -/
theorem cut_concat : Cut P s (pieces ++ [w]) ↔
    w ≠ [] ∧ P w ∧ ∃ t, s = t ++ w ∧ Cut P t pieces := by
  constructor
  · intro h
    have hw := h.piece w (by simp)
    refine ⟨hw.1, hw.2, pieces.flatten, ?_, rfl, fun v hv => ?_⟩
    · rw [← h.flatten, List.flatten_append, List.flatten_singleton]
    · exact h.piece v (List.mem_append_left [w] hv)
  · rintro ⟨hne, hw, t, rfl, ht⟩
    constructor
    · rw [List.flatten_append, List.flatten_singleton, ht.flatten]
    · intro v hv
      cases List.mem_append.1 hv with
      | inl hv => exact ht.piece v hv
      | inr hv => exact List.mem_singleton.1 hv ▸ ⟨hne, hw⟩

theorem cuttable_nil : Cuttable P [] := ⟨[], cut_nil.2 rfl⟩

/-- The table that says which beginnings of `s` can be cut. -/
theorem cuttable_take_succ (hn : n < s.length) : Cuttable P (s.take (n + 1)) ↔
    ∃ m ≤ n, Cuttable P (s.take m) ∧ P ((s.drop m).take (n - m + 1)) := by
  constructor
  · rintro ⟨pieces, h⟩
    cases pieces using List.reverseRecOn with
    | nil =>
      have hlen := congrArg List.length h.flatten
      rw [List.flatten_nil, List.length_take_of_le hn] at hlen
      cases hlen
    | append_singleton pieces w =>
      obtain ⟨hne, hw, t, heq, ht⟩ := cut_concat.1 h
      have hpos := List.length_pos_iff.2 hne
      have hlen : n + 1 = t.length + w.length := by
        rw [← List.length_append, ← heq, List.length_take_of_le hn]
      have hadd : n + 1 = t.length + (n - t.length + 1) := by omega
      rw [hadd, List.take_add] at heq
      have hsplit := List.append_inj heq (by rw [List.length_take]; omega)
      refine ⟨t.length, by omega, ⟨pieces, ?_⟩, hsplit.2 ▸ hw⟩
      rwa [hsplit.1]
  · rintro ⟨m, hm, ⟨pieces, ht⟩, hw⟩
    have hadd : n + 1 = m + (n - m + 1) := by omega
    refine ⟨pieces ++ [(s.drop m).take (n - m + 1)], cut_concat.2 ⟨?_, hw, s.take m, ?_, ht⟩⟩
    · rw [← List.length_pos_iff, List.length_take, List.length_drop]
      omega
    · rw [hadd, List.take_add]

/-- The lengths of the first pieces. -/
theorem cut_head (h : Cut P s (w :: pieces)) :
    1 ≤ w.length ∧ w.length ≤ s.length ∧ s.take w.length = w := by
  obtain ⟨hne, _, t, rfl, _⟩ := cut_cons.1 h
  refine ⟨List.length_pos_iff.2 hne, ?_, by simp⟩
  rw [List.length_append]
  omega

section
variable (P) [DecidablePred P]

/-- The lengths of the pieces that `s` may begin with. -/
def cutLens (s : List α) : List ℕ := (List.range' 1 s.length).filter fun n => P (s.take n)

theorem mem_cutLens : n ∈ cutLens P s ↔ 1 ≤ n ∧ n ≤ s.length ∧ P (s.take n) := by
  simp only [cutLens, List.mem_filter, List.mem_range'_1, decide_eq_true_eq]
  constructor
  · exact fun h => ⟨h.1.1, by omega, h.2⟩
  · exact fun h => ⟨⟨h.1, by omega⟩, h.2.2⟩

/-- The ways to cut `s`, by the length of the first piece. -/
def cuts (s : List α) : List (List (List α)) :=
  if s.isEmpty then [[]]
  else (cutLens P s).attach.flatMap fun ⟨n, _⟩ => (cuts (s.drop n)).map (s.take n :: ·)
termination_by s.length
decreasing_by
  rename_i hn
  rw [mem_cutLens] at hn
  rw [List.length_drop]
  omega

@[simp] theorem cuts_nil : cuts P ([] : List α) = [[]] := by
  rw [cuts]
  rfl

theorem cuts_eq (hs : s ≠ []) :
    cuts P s = (cutLens P s).flatMap fun n => (cuts P (s.drop n)).map (s.take n :: ·) := by
  rw [cuts, if_neg (by rwa [List.isEmpty_iff])]
  simp

/-- **`cuts`** are the ways to cut `s`, each once. -/
theorem enumerates_cuts (s : List α) : Enumerates (cuts P s) (Cut P s) := by
  induction hlen : s.length using Nat.strong_induction_on generalizing s with
  | _ len ih =>
    subst hlen
    by_cases hs : s = []
    · subst hs
      rw [cuts_nil]
      exact .singleton fun pieces => cut_nil
    · rw [cuts_eq P hs]
      refine Enumerates.heads s.take ?_ (fun n hn => ?_) (not_cut_nil hs) fun w pieces h => ?_
      · have hnodup : (cutLens P s).Nodup := (List.nodup_range' ..).filter _
        refine hnodup.map_on fun n hn m hm heq => ?_
        have hn := ((mem_cutLens P).1 hn).2.1
        have hm := ((mem_cutLens P).1 hm).2.1
        have hlen := congrArg List.length heq
        rwa [List.length_take_of_le hn, List.length_take_of_le hm] at hlen
      · obtain ⟨h1, hle, hP⟩ := (mem_cutLens P).1 hn
        refine (ih (s.drop n).length ?_ (s.drop n) rfl).congr fun t => ?_
        · rw [List.length_drop]
          omega
        · rw [cut_take h1 hle]
          exact (and_iff_right hP).symm
      · obtain ⟨h1, hle, htake⟩ := cut_head h
        refine List.mem_map.2 ⟨w.length, (mem_cutLens P).2 ⟨h1, hle, ?_⟩, htake⟩
        rw [htake]
        exact (h.piece w List.mem_cons_self).2

end

end

end Enumerate
