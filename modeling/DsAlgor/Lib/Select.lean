import Mathlib.Algebra.Order.Group.Multiset
import Mathlib.Data.List.Sort
import Mathlib.Tactic

/-!
# The k-th smallest element

`kth k l` is the element at position `k` of the ascending order of `l`, counted from 1 and with
repetitions. It is found by its rank (`kth_eq_iff`): fewer than `k` elements are smaller, and at
least `k` are not greater.
-/

namespace Select

variable {α : Type} [LinearOrder α] {k : Nat} {l l' U V : List α} {x : α}

def kth (k : Nat) (l : List α) : Option α := (l.insertionSort (· ≤ ·))[k - 1]?

theorem kth_perm (h : l.Perm l') : kth k l = kth k l' := by
  have hsort : l.insertionSort (· ≤ ·) = l'.insertionSort (· ≤ ·) :=
    List.Perm.eq_of_pairwise' (List.pairwise_insertionSort ..) (List.pairwise_insertionSort ..)
      (((List.perm_insertionSort _ l).trans h).trans (List.perm_insertionSort _ l').symm)
  rw [kth, kth, hsort]

theorem kth_sorted (h : l.Pairwise (· ≤ ·)) : kth k l = l[k - 1]? := by
  rw [kth, h.insertionSort_eq]

theorem kth_singleton : kth 1 [x] = some x := rfl

theorem exists_kth (hk : 1 ≤ k) (hl : k ≤ l.length) : ∃ x, kth k l = some x := by
  have hlt : k - 1 < (l.insertionSort (· ≤ ·)).length := by
    rw [List.length_insertionSort]
    omega
  exact ⟨_, List.getElem?_eq_getElem hlt⟩

/-- The order of two lists the first of which is not greater. -/
theorem insertionSort_append (h : ∀ u ∈ U, ∀ v ∈ V, u ≤ v) : (U ++ V).insertionSort (· ≤ ·) =
    U.insertionSort (· ≤ ·) ++ V.insertionSort (· ≤ ·) := by
  have hU := List.perm_insertionSort (· ≤ ·) U
  have hV := List.perm_insertionSort (· ≤ ·) V
  refine List.Perm.eq_of_pairwise' (List.pairwise_insertionSort ..) ?_
    ((List.perm_insertionSort _ _).trans (hU.append hV).symm)
  refine List.pairwise_append.2 ⟨List.pairwise_insertionSort .., List.pairwise_insertionSort ..,
    fun u hu v hv => ?_⟩
  exact h u (hU.mem_iff.1 hu) v (hV.mem_iff.1 hv)

theorem kth_append_left (h : ∀ u ∈ U, ∀ v ∈ V, u ≤ v) (hk : 1 ≤ k) (hkU : k ≤ U.length) :
    kth k (U ++ V) = kth k U := by
  rw [kth, insertionSort_append h, List.getElem?_append_left, kth]
  rw [List.length_insertionSort]
  omega

theorem kth_append_right (h : ∀ u ∈ U, ∀ v ∈ V, u ≤ v) (hkU : U.length < k) :
    kth k (U ++ V) = kth (k - U.length) V := by
  rw [kth, insertionSort_append h, List.getElem?_append_right, List.length_insertionSort, kth,
    Nat.sub_right_comm]
  rw [List.length_insertionSort]
  omega

/-- The three places of the element asked for: in front of `p`, at `p`, behind `p`. -/
theorem kth_sides {p : α} (hU : ∀ u ∈ U, u ≤ p) (hV : ∀ v ∈ V, p ≤ v)
    (hk : 1 ≤ k) :
    (k ≤ U.length → kth k (U ++ p :: V) = kth k U) ∧
    (k = U.length + 1 → kth k (U ++ p :: V) = some p) ∧
    (U.length + 1 < k → kth k (U ++ p :: V) = kth (k - (U.length + 1)) V) := by
  have hsides : ∀ u ∈ U, ∀ v ∈ p :: V, u ≤ v := by
    intro u hu v hv
    cases List.mem_cons.1 hv with
    | inl heq => exact heq ▸ hU u hu
    | inr hv => exact (hU u hu).trans (hV v hv)
  have hpivot : ∀ u ∈ [p], ∀ v ∈ V, u ≤ v := by
    intro u hu v hv
    rw [List.mem_singleton.1 hu]
    exact hV v hv
  have hcons : p :: V = [p] ++ V := rfl
  refine ⟨fun hle => kth_append_left hsides hk hle, fun heq => ?_, fun hlt => ?_⟩
  · rw [kth_append_right hsides (by omega), heq, Nat.add_sub_cancel_left, hcons,
      kth_append_left hpivot le_rfl le_rfl, kth_singleton]
  · rw [kth_append_right hsides (by omega), hcons, kth_append_right hpivot (by simp; omega),
      Nat.sub_sub]
    rfl

/-! ## Ranks -/

theorem countP_lt_sorted (h : l.Pairwise (· ≤ ·)) {i : Nat} (hi : l[i]? = some x) :
    l.countP (· < x) ≤ i := by
  obtain ⟨hlt, rfl⟩ := List.getElem?_eq_some_iff.1 hi
  have hsplit := List.take_append_drop i l
  have hrest : (l.drop i).countP (· < l[i]) = 0 := by
    refine List.countP_eq_zero.2 fun y hy => ?_
    rw [List.drop_eq_getElem_cons hlt] at hy
    have hsorted := h.sublist (List.drop_sublist i l)
    rw [List.drop_eq_getElem_cons hlt] at hsorted
    cases List.mem_cons.1 hy with
    | inl heq => simp [heq]
    | inr hy => simpa using (List.pairwise_cons.1 hsorted).1 y hy
  calc l.countP (· < l[i]) = (l.take i ++ l.drop i).countP (· < l[i]) := by rw [hsplit]
    _ = (l.take i).countP (· < l[i]) := by rw [List.countP_append, hrest, Nat.add_zero]
    _ ≤ (l.take i).length := List.countP_le_length
    _ ≤ i := List.length_take_le ..

theorem lt_countP_le_sorted (h : l.Pairwise (· ≤ ·)) {i : Nat} (hi : l[i]? = some x) :
    i < l.countP (· ≤ x) := by
  obtain ⟨hlt, rfl⟩ := List.getElem?_eq_some_iff.1 hi
  have hall : (l.take (i + 1)).countP (· ≤ l[i]) = (l.take (i + 1)).length := by
    refine List.countP_eq_length.2 fun y hy => ?_
    have hsorted := h.sublist (List.take_sublist (i + 1) l)
    rw [List.take_succ_eq_append_getElem hlt] at hy hsorted
    refine decide_eq_true ?_
    cases List.mem_append.1 hy with
    | inl hy => exact (List.pairwise_append.1 hsorted).2.2 y hy _ (List.mem_singleton_self _)
    | inr hy => rw [List.mem_singleton.1 hy]
  have hlen : (l.take (i + 1)).length = i + 1 := by
    rw [List.length_take]
    omega
  have hsub : (l.take (i + 1)).countP (· ≤ l[i]) ≤ l.countP (· ≤ l[i]) :=
    (List.take_sublist (i + 1) l).countP_le
  omega

/-- The k-th smallest element is the one of that rank. -/
theorem kth_eq_iff (hk : 1 ≤ k) : kth k l = some x ↔
    x ∈ l ∧ l.countP (· < x) < k ∧ k ≤ l.countP (· ≤ x) := by
  have hperm := List.perm_insertionSort (· ≤ ·) l
  have hsorted : (l.insertionSort (· ≤ ·)).Pairwise (· ≤ ·) := List.pairwise_insertionSort ..
  refine ⟨fun h => ?_, fun h => ?_⟩
  · have hlow := countP_lt_sorted hsorted h
    have hhigh := lt_countP_le_sorted hsorted h
    rw [hperm.countP_eq] at hlow hhigh
    exact ⟨hperm.mem_iff.1 (List.mem_of_getElem? h), by omega, by omega⟩
  · obtain ⟨hx, hlow, hhigh⟩ := h
    obtain ⟨y, hy⟩ := exists_kth hk (hhigh.trans List.countP_le_length)
    have hlow' := countP_lt_sorted hsorted hy
    have hhigh' := lt_countP_le_sorted hsorted hy
    rw [hperm.countP_eq] at hlow' hhigh'
    -- an element between the two would be counted on both sides
    have hxy : ¬ x < y := fun hlt => by
      have hle : l.countP (· ≤ x) ≤ l.countP (· < y) :=
        List.countP_mono_left fun z _ hz =>
          decide_eq_true (lt_of_le_of_lt (of_decide_eq_true hz) hlt)
      omega
    have hyx : ¬ y < x := fun hlt => by
      have hle : l.countP (· ≤ y) ≤ l.countP (· < x) :=
        List.countP_mono_left fun z _ hz =>
          decide_eq_true (lt_of_le_of_lt (of_decide_eq_true hz) hlt)
      omega
    rw [hy, le_antisymm (not_lt.1 hyx) (not_lt.1 hxy)]

theorem countP_lt_of_le (h : l.Pairwise (· ≤ ·)) {y : α} {i : Nat} (hi : l[i]? = some y)
    (hx : x ≤ y) : l.countP (· < x) ≤ i := by
  refine le_trans (List.countP_mono_left fun z _ hz => ?_) (countP_lt_sorted h hi)
  exact decide_eq_true (lt_of_lt_of_le (of_decide_eq_true hz) hx)

/-- Elements can be left out that have fewer others below them than the rank that is left. -/
theorem kth_leave_out (hk : U.length < k) (hkV : k ≤ U.length + V.length)
    (hrank : ∀ u ∈ U, V.countP (· < u) < k - U.length) :
    kth k (U ++ V) = kth (k - U.length) V := by
  obtain ⟨x, hx⟩ := exists_kth (k := k - U.length) (l := V) (by omega) (by omega)
  obtain ⟨hmem, hlow, hhigh⟩ := (kth_eq_iff (by omega)).1 hx
  have hbelow : ∀ u ∈ U, u ≤ x := by
    intro u hu
    by_contra hlt
    have hmono : V.countP (· ≤ x) ≤ V.countP (· < u) := List.countP_mono_left fun z _ hz =>
      decide_eq_true (lt_of_le_of_lt (of_decide_eq_true hz) (not_le.1 hlt))
    have hu' := hrank u hu
    omega
  have hall : U.countP (· ≤ x) = U.length :=
    List.countP_eq_length.2 fun u hu => decide_eq_true (hbelow u hu)
  have hsome : U.countP (· < x) ≤ U.length := List.countP_le_length
  rw [hx]
  refine (kth_eq_iff (by omega)).2 ⟨List.mem_append_right _ hmem, ?_, ?_⟩
  · rw [List.countP_append]
    omega
  · rw [List.countP_append]
    omega

/-- The greatest of `k` elements is the k-th smallest when nothing else is smaller. -/
theorem kth_of_split [DecidableEq α] {held rest : Multiset α} (hl : (l : Multiset α) = held + rest)
    (hk : held.card = k) (hx : x ∈ held) (hheld : ∀ y ∈ held, y ≤ x) (hrest : ∀ y ∈ rest, x ≤ y) :
    kth k l = some x := by
  have hcount : ∀ (p : α → Prop) [DecidablePred p],
      l.countP p = held.countP p + rest.countP p := by
    intro p _
    rw [← Multiset.coe_countP, hl, Multiset.countP_add]
  have hcard := Multiset.card_erase_add_one hx
  have hin : x ∈ l := by
    rw [← Multiset.mem_coe, hl]
    exact Multiset.mem_add.2 (.inl hx)
  refine (kth_eq_iff (by omega)).2 ⟨hin, ?_, ?_⟩
  · -- all the others may be smaller
    have hnone : rest.countP (· < x) = 0 := Multiset.countP_eq_zero.2 fun y hy =>
      not_lt.2 (hrest y hy)
    have hothers : held.countP (· < x) ≤ (held.erase x).card := by
      rw [← Multiset.cons_erase hx, Multiset.countP_cons_of_neg _ (by exact lt_irrefl x),
        Multiset.erase_cons_head]
      exact Multiset.countP_le_card ..
    rw [hcount fun y => y < x, hnone]
    omega
  · have hall : held.countP (· ≤ x) = held.card := Multiset.countP_eq_card.2 hheld
    rw [hcount fun y => y ≤ x, hall, hk]
    exact Nat.le_add_right ..

end Select
