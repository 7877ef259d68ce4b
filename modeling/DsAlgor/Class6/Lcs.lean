import DsAlgor.Lib.Grid

/-!
# `lcs.c`

The loops fill the table up to the last but one row and column, and what they fill in is right
(`fill_spec`). The entry that is returned is in the last row and column, and still 0.
-/

namespace Lcs

open Checked Grid

section
variable (str1 str2 : List Char)

/-- The body of the loop over `j`. -/
def fillCell (i : Nat) (length : List (List Int)) (j : Nat) : Except Fault (List (List Int)) := do
  if i = 0 ∨ j = 0 then setCell length i j 0
  else if (← Arr.get ⟨0, str1⟩ (i - 1)) = (← Arr.get ⟨0, str2⟩ (j - 1)) then
    let x ← cell length (i - 1) (j - 1)
    setCell length i j (x + 1)
  else
    let x ← cell length (i - 1) j
    let y ← cell length i (j - 1)
    setCell length i j (max x y)

def lcs : Except Fault Int := do
  let length := List.replicate (str1.length + 1) (List.replicate (str2.length + 1) 0)
  let length ← (List.range' 0 str1.length).foldlM
    (fun length i => (List.range' 0 str2.length).foldlM (fillCell str1 str2 i) length) length
  cell length str1.length str2.length

end

/-! ## Longest common subsequences -/

section
variable {α : Type} {s t u : List α} {a b : α} {k l : Int}

/-- The lengths of the common subsequences. -/
def common (s t : List α) : Set Int :=
  {k | ∃ u : List α, u.Sublist s ∧ u.Sublist t ∧ (u.length : Int) = k}

/-- `k` is the length of a longest common subsequence. -/
def Longest (s t : List α) (k : Int) : Prop := IsGreatest (common s t) k

theorem longest_nil (h : s = [] ∨ t = []) : Longest s t 0 := by
  refine ⟨⟨[], List.nil_sublist s, List.nil_sublist t, rfl⟩, ?_⟩
  rintro _ ⟨u, hs, ht, rfl⟩
  have hu : u = [] := by
    rcases h with rfl | rfl
    · exact List.sublist_nil.1 hs
    · exact List.sublist_nil.1 ht
  rw [hu, List.length_nil, Nat.cast_zero]

/-- A subsequence of `s ++ [a]` leaves out the last letter, or ends with it. -/
theorem sublist_concat : u.Sublist (s ++ [a]) ↔ u.Sublist s ∨ ∃ v, u = v ++ [a] ∧ v.Sublist s := by
  rw [List.sublist_append_iff]
  constructor
  · rintro ⟨v, w, rfl, hv, hw⟩
    rcases List.sublist_singleton.1 hw with rfl | rfl
    · exact .inl (by rwa [List.append_nil])
    · exact .inr ⟨v, rfl, hv⟩
  · rintro (hu | ⟨v, rfl, hv⟩)
    · exact ⟨u, [], (List.append_nil u).symm, hu, List.nil_sublist _⟩
    · exact ⟨v, [a], rfl, hv, List.Sublist.refl _⟩

theorem longest_same (h : Longest s t k) : Longest (s ++ [a]) (t ++ [a]) (k + 1) := by
  obtain ⟨⟨u, hs, ht, hlen⟩, hmax⟩ := h
  refine ⟨⟨u ++ [a], hs.append (List.Sublist.refl _), ht.append (List.Sublist.refl _), ?_⟩, ?_⟩
  · rw [List.length_append, List.length_singleton, ← hlen]
    rfl
  · rintro _ ⟨u, hs, ht, rfl⟩
    -- without its last letter `u` is a subsequence of both
    have hdrop : u.dropLast.Sublist s ∧ u.dropLast.Sublist t := by
      constructor
      · rcases sublist_concat.1 hs with hs | ⟨v, rfl, hv⟩
        · exact (List.dropLast_sublist u).trans hs
        · rwa [List.dropLast_concat]
      · rcases sublist_concat.1 ht with ht | ⟨v, rfl, hv⟩
        · exact (List.dropLast_sublist u).trans ht
        · rwa [List.dropLast_concat]
    have hle := hmax ⟨u.dropLast, hdrop.1, hdrop.2, rfl⟩
    rw [List.length_dropLast] at hle
    omega

theorem longest_differ (hab : a ≠ b) (h : Longest s (t ++ [b]) k) (h' : Longest (s ++ [a]) t l) :
    Longest (s ++ [a]) (t ++ [b]) (max k l) := by
  constructor
  · rcases max_choice k l with hmax | hmax
    · obtain ⟨u, hs, ht, hlen⟩ := h.1
      exact ⟨u, hs.trans (List.sublist_append_left s [a]), ht, hlen.trans hmax.symm⟩
    · obtain ⟨u, hs, ht, hlen⟩ := h'.1
      exact ⟨u, hs, ht.trans (List.sublist_append_left t [b]), hlen.trans hmax.symm⟩
  · rintro _ ⟨u, hs, ht, rfl⟩
    rcases sublist_concat.1 hs with hs' | ⟨v, rfl, _⟩
    · exact (h.2 ⟨u, hs', ht, rfl⟩).trans (le_max_left k l)
    · rcases sublist_concat.1 ht with ht' | ⟨w, heq, _⟩
      · exact (h'.2 ⟨_, hs, ht', rfl⟩).trans (le_max_right k l)
      · exact absurd (List.singleton_inj.1 (List.append_inj_right' heq rfl)) hab

/-- Nothing is common. -/
theorem longest_zero_iff : Longest s t 0 ↔ ∀ c ∈ s, c ∉ t := by
  constructor
  · intro h c hs ht
    have hle := h.2 ⟨[c], List.singleton_sublist.2 hs, List.singleton_sublist.2 ht, rfl⟩
    rw [List.length_singleton] at hle
    omega
  · intro h
    refine ⟨⟨[], List.nil_sublist s, List.nil_sublist t, rfl⟩, ?_⟩
    rintro _ ⟨u, hs, ht, rfl⟩
    cases u with
    | nil => rfl
    | cons c u =>
      exact absurd (ht.subset List.mem_cons_self) (h c (hs.subset List.mem_cons_self))

end

/-! ## The table -/

section
variable {str1 str2 : List Char} {i j : Nat} {f : Nat → Nat → Int}

/-- The rows before `i` are right up to the last column, and row `i` up to `j`; the last entry is
not written. -/
structure Filled (str1 str2 : List Char) (i j : Nat) (length : List (List Int))
    (f : Nat → Nat → Int) : Prop where
  eq : length = grid (str1.length + 1) (str2.length + 1) f
  right : ∀ k l, k < i ∨ k = i ∧ l < j → l < str2.length →
    Longest (str1.take k) (str2.take l) (f k l)
  last : f str1.length str2.length = 0

section
variable {length : List (List Int)}

/-- Writing one entry. -/
theorem Filled.write (h : Filled str1 str2 i j length f) (hi : i < str1.length)
    (hj : j < str2.length) {x : Int} (hx : Longest (str1.take i) (str2.take j) x) :
    ∃ length', setCell length i j x = .ok length' ∧
      ∃ f', Filled str1 str2 i (j + 1) length' f' := by
  have hset := setCell_grid (f := f) (x := x) (m := str1.length + 1) (n := str2.length + 1)
    (i := i) (j := j) (by omega) (by omega)
  rw [← h.eq] at hset
  refine ⟨_, hset, _, rfl, fun k l hkl hl => ?_, ?_⟩
  · by_cases hij : k = i ∧ l = j
    · obtain ⟨rfl, rfl⟩ := hij
      rwa [Function.update_self, Function.update_self]
    · have hold := h.right k l (by omega) hl
      by_cases hki : k = i
      · subst hki
        rwa [Function.update_self, Function.update_of_ne (by omega)]
      · rwa [Function.update_of_ne hki]
  · rw [Function.update_of_ne (by omega)]
    exact h.last

theorem fillCell_spec (h : Filled str1 str2 i j length f) (hi : i < str1.length)
    (hj : j < str2.length) : ∃ length', fillCell str1 str2 i length j = .ok length' ∧
      ∃ f', Filled str1 str2 i (j + 1) length' f' := by
  by_cases hzero : i = 0 ∨ j = 0
  · rw [fillCell, if_pos hzero]
    refine h.write hi hj (longest_nil ?_)
    rcases hzero with rfl | rfl
    · exact .inl rfl
    · exact .inr rfl
  · obtain ⟨i, rfl⟩ := Nat.exists_eq_succ_of_ne_zero fun hi => hzero (.inl hi)
    obtain ⟨j, rfl⟩ := Nat.exists_eq_succ_of_ne_zero fun hj => hzero (.inr hj)
    have hi1 : ((i.succ : Nat) : Int) - 1 = i := by omega
    have hj1 : ((j.succ : Nat) : Int) - 1 = j := by omega
    have hget1 : Arr.get ⟨0, str1⟩ i = .ok str1[i] := get_nat (List.getElem?_eq_getElem _)
    have hget2 : Arr.get ⟨0, str2⟩ j = .ok str2[j] := get_nat (List.getElem?_eq_getElem _)
    have hcell : ∀ k l, k ≤ str1.length → l ≤ str2.length → cell length k l = .ok (f k l) := by
      intro k l hk hl
      rw [h.eq]
      exact cell_grid (by omega) (by omega)
    have htake1 : str1.take (i + 1) = str1.take i ++ [str1[i]] :=
      (List.take_concat_get' str1 i _).symm
    have htake2 : str2.take (j + 1) = str2.take j ++ [str2[j]] :=
      (List.take_concat_get' str2 j _).symm
    rw [fillCell, if_neg hzero, hi1, hj1, hget1, hget2]
    simp only [ok_bind]
    by_cases hsame : str1[i] = str2[j]
    · rw [if_pos hsame, hcell i j (by omega) (by omega)]
      refine h.write hi hj ?_
      rw [htake1, htake2, ← hsame]
      exact longest_same (h.right i j (.inl (Nat.lt_succ_self i)) (by omega))
    · have hup := h.right i (j + 1) (.inl (Nat.lt_succ_self i)) hj
      have hleft := h.right (i + 1) j (.inr ⟨rfl, Nat.lt_succ_self j⟩) (by omega)
      rw [htake2] at hup
      rw [htake1] at hleft
      rw [if_neg hsame, hcell i (j + 1) (by omega) (by omega),
        hcell (i + 1) j (by omega) (by omega)]
      refine h.write hi hj ?_
      rw [htake1, htake2]
      exact longest_differ hsame hup hleft

end

/-- **The loops**: they fill in the table up to its last row and column. -/
theorem fill_spec (str1 str2 : List Char) : ∃ length,
    (List.range' 0 str1.length).foldlM
        (fun length i => (List.range' 0 str2.length).foldlM (fillCell str1 str2 i) length)
        (List.replicate (str1.length + 1) (List.replicate (str2.length + 1) 0)) = .ok length ∧
      ∃ f, Filled str1 str2 str1.length 0 length f := by
  have hstart : Filled str1 str2 0 0
      (List.replicate (str1.length + 1) (List.replicate (str2.length + 1) 0)) fun _ _ => 0 := by
    refine ⟨?_, fun k l h => by omega, rfl⟩
    simp only [replicate_gridRow]
    rfl
  obtain ⟨length, hrun, f, hf⟩ : ∃ length, (List.range' 0 str1.length).foldlM
        (fun length i => (List.range' 0 str2.length).foldlM (fillCell str1 str2 i) length)
        (List.replicate (str1.length + 1) (List.replicate (str2.length + 1) 0)) = .ok length ∧
      ∃ f, Filled str1 str2 (0 + str1.length) 0 length f := by
    refine upward (P := fun i length => ∃ f, Filled str1 str2 i 0 length f) ?_ ⟨_, hstart⟩
    rintro i - hi length ⟨f, hf⟩
    rw [Nat.zero_add] at hi
    obtain ⟨length', hrow, f', hf'⟩ : ∃ length',
        (List.range' 0 str2.length).foldlM (fillCell str1 str2 i) length = .ok length' ∧
          ∃ f', Filled str1 str2 i (0 + str2.length) length' f' := by
      refine upward (P := fun j length => ∃ f, Filled str1 str2 i j length f) ?_ ⟨f, hf⟩
      rintro j - hj length ⟨f, hf⟩
      exact fillCell_spec hf hi (by omega)
    exact ⟨length', hrow, f', hf'.eq, fun k l hkl hl => hf'.right k l (by omega) hl, hf'.last⟩
  rw [Nat.zero_add] at hf
  exact ⟨length, hrun, f, hf⟩

theorem lcs_eq_zero (str1 str2 : List Char) : lcs str1 str2 = .ok 0 := by
  obtain ⟨length, hrun, f, hf⟩ := fill_spec str1 str2
  simp only [lcs, hrun, ok_bind, hf.eq]
  rw [cell_grid (Nat.lt_succ_self _) (Nat.lt_succ_self _), hf.last]

/-- `lcs` returns the length of a longest common subsequence. -/
def ReturnsLongest (str1 str2 : List Char) : Prop :=
  ∃ k, lcs str1 str2 = .ok k ∧ Longest str1 str2 k

/-- **The condition**: the strings have no character in common. -/
theorem returnsLongest_iff (str1 str2 : List Char) :
    ReturnsLongest str1 str2 ↔ ∀ c ∈ str1, c ∉ str2 := by
  rw [← longest_zero_iff, ReturnsLongest, lcs_eq_zero]
  simp only [Except.ok.injEq, exists_eq_left']

theorem not_returnsLongest_a : ¬ ReturnsLongest ['a'] ['a'] := by
  rintro ⟨k, hrun, hk⟩
  rw [lcs_eq_zero, Except.ok.injEq] at hrun
  rw [← hrun, longest_zero_iff] at hk
  exact hk 'a' List.mem_cons_self List.mem_cons_self

end

end Lcs
