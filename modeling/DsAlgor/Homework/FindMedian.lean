import DsAlgor.Lib.CInt
import DsAlgor.Lib.Checked
import DsAlgor.Lib.Select

/-!
# `findMedian.c`

The k-th smallest element of two ascending arrays, and their median. `helper` leaves out the first
`pa` elements of one array or the first `pb` of the other, which are not above the element that is
looked for (`kth_discard`). Its numbers are of type `double`, which has every `int` and every half
of a sum of two; they are rational numbers here. The length of both arrays together is an `int`, and
the median is right when it is no greater than one.
-/

namespace Homework

open Checked Select

/-- `A` and `B` are the current sub-arrays; `A + pa` is the rest of `A`. -/
def helper : Nat → List Int → Int → List Int → Int → Int → Except Fault ℚ
  | 0, _, _, _, _, _ => .error .loop
  | fuel + 1, A, m, B, n, k =>
    if m > n then helper fuel B n A m k
    else if m = 0 then do
      let b ← Arr.get ⟨0, B⟩ (k - 1)
      return b
    else if k = 1 then do
      let a ← Arr.get ⟨0, A⟩ 0
      let b ← Arr.get ⟨0, B⟩ 0
      return (min a b : Int)
    else do
      let pa := min (k.tdiv 2) m
      let pb := k - pa
      let a ← Arr.get ⟨0, A⟩ (pa - 1)
      let b ← Arr.get ⟨0, B⟩ (pb - 1)
      if a ≤ b then helper fuel (A.drop pa.toNat) (m - pa) B n (k - pa)
      else helper fuel A m (B.drop pb.toNat) (n - pb) (k - pb)

def findMedianSortedArrays (fuel : Nat) (A : List Int) (m : Int) (B : List Int) (n : Int) :
    Except Fault ℚ :=
  let total := int32 (m + n)
  if total.tmod 2 = 0 then do
    let lower ← helper fuel A m B n (total.tdiv 2)
    let upper ← helper fuel A m B n (total.tdiv 2 + 1)
    return (lower + upper) / 2
  else helper fuel A m B n (total.tdiv 2 + 1)

/-- The middle element in ascending order, or the mean of the two in the middle. -/
def median (l : List Int) : Option ℚ := do
  let lower ← kth ((l.length + 1) / 2) l
  let upper ← kth (l.length / 2 + 1) l
  return ((lower : ℚ) + upper) / 2

/-! ## The k-th smallest element -/

section
variable {A B : List Int} {k pa pb : Nat}

/-- The first `pa` elements of `A` are among the `pa + pb - 1` smallest ones. -/
theorem kth_discard (hA : A.Pairwise (· ≤ ·)) (hB : B.Pairwise (· ≤ ·)) {a b : Int}
    (hpa : 1 ≤ pa) (hpb : 1 ≤ pb) (ha : A[pa - 1]? = some a) (hb : B[pb - 1]? = some b)
    (hab : a ≤ b) : kth (pa + pb) (A ++ B) = kth pb (A.drop pa ++ B) := by
  have hlenA := (List.getElem?_eq_some_iff.1 ha).1
  have hlenB := (List.getElem?_eq_some_iff.1 hb).1
  have hlen : (A.take pa).length = pa := by
    rw [List.length_take]
    omega
  have hsplit : A ++ B = A.take pa ++ (A.drop pa ++ B) := by
    rw [← List.append_assoc, List.take_append_drop]
  have hsorted := hA
  rw [← List.take_append_drop pa A, List.pairwise_append] at hsorted
  have hrank : ∀ u ∈ A.take pa, (A.drop pa ++ B).countP (· < u) < pb := by
    intro u hu
    have hua : u ≤ a := by
      obtain ⟨i, hi, rfl⟩ := List.mem_iff_getElem.1 hu
      rw [List.getElem_take, ← (List.getElem?_eq_some_iff.1 ha).2]
      rw [hlen] at hi
      exact hA.rel_get_of_le (a := ⟨i, by omega⟩) (b := ⟨pa - 1, hlenA⟩)
        (Fin.mk_le_mk.2 (Nat.le_sub_one_of_lt hi))
    have hnone : (A.drop pa).countP (· < u) = 0 := List.countP_eq_zero.2 fun y hy => by
      simpa using hsorted.2.2 u hu y hy
    have hfew := countP_lt_of_le hB hb (hua.trans hab)
    rw [List.countP_append, hnone]
    omega
  have hback : pa + pb - pa = pb := by omega
  rw [hsplit, kth_leave_out (by omega)] <;> rw [hlen]
  · rw [hback]
  · rw [List.length_append, List.length_drop]
    omega
  · rwa [hback]

/-- A call for an element that is not the smallest: both probes are in bounds. -/
theorem helper_probes (hshort : A.length ≤ B.length) (hA : 0 < A.length) (hk : 2 ≤ k)
    (hkn : k ≤ A.length + B.length) : ∃ pa pb a b, 1 ≤ pa ∧ 1 ≤ pb ∧ pa + pb = k ∧
      A[pa - 1]? = some a ∧ B[pb - 1]? = some b ∧ ∀ fuel,
        helper (fuel + 1) A A.length B B.length k =
          if a ≤ b then helper fuel (A.drop pa) (A.drop pa).length B B.length pb
          else helper fuel A A.length (B.drop pb) (B.drop pb).length pa := by
  obtain ⟨pa, hpa⟩ : ∃ pa, pa = min (k / 2) A.length := ⟨_, rfl⟩
  obtain ⟨pb, rfl⟩ : ∃ pb, k = pa + pb := ⟨k - pa, by omega⟩
  have hpaA : pa - 1 < A.length := by omega
  have hpbB : pb - 1 < B.length := by omega
  refine ⟨pa, pb, A[pa - 1], B[pb - 1], by omega, by omega, rfl,
    List.getElem?_eq_getElem hpaA, List.getElem?_eq_getElem hpbB, fun fuel => ?_⟩
  have hno : ¬ (A.length : Int) > B.length := by omega
  have hne : ¬ (A.length : Int) = 0 := by omega
  have hk' : ¬ ((pa + pb : Nat) : Int) = 1 := by omega
  have hmin : min (((pa + pb : Nat) : Int).tdiv 2) A.length = pa := by
    rw [Int.tdiv_eq_ediv_of_nonneg (Int.natCast_nonneg _)]
    omega
  have hpb : ((pa + pb : Nat) : Int) - pa = pb := by omega
  have hpa' : ((pa + pb : Nat) : Int) - pb = pa := by omega
  have hgetA : (⟨0, A⟩ : Arr Int).get (pa - 1) = .ok A[pa - 1] :=
    get_pred (by omega) (List.getElem?_eq_getElem hpaA)
  have hgetB : (⟨0, B⟩ : Arr Int).get (pb - 1) = .ok B[pb - 1] :=
    get_pred (by omega) (List.getElem?_eq_getElem hpbB)
  have hrestA : (A.length : Int) - pa = (A.drop pa).length := by
    rw [List.length_drop]
    omega
  have hrestB : (B.length : Int) - pb = (B.drop pb).length := by
    rw [List.length_drop]
    omega
  simp only [helper, if_neg hno, if_neg hne, if_neg hk', hmin, hpb, hpa', hgetA, hgetB, bind,
    Except.bind, hrestA, hrestB, Int.toNat_natCast]

/-- The smallest element. -/
theorem kth_one_min {a b : Int} (hA : (a :: A).Pairwise (· ≤ ·)) (hB : (b :: B).Pairwise (· ≤ ·)) :
    kth 1 (a :: A ++ b :: B) = some (min a b) := by
  have hmem : min a b ∈ a :: A ++ b :: B := by
    rcases min_choice a b with h | h
    · rw [h]
      exact List.mem_append_left _ List.mem_cons_self
    · rw [h]
      exact List.mem_append_right _ List.mem_cons_self
  have hleast : ∀ x ∈ a :: A ++ b :: B, min a b ≤ x := by
    intro x hx
    rcases List.mem_append.1 hx with hx | hx
    · refine (min_le_left a b).trans ?_
      cases List.mem_cons.1 hx with
      | inl heq => exact heq.ge
      | inr hx => exact (List.pairwise_cons.1 hA).1 x hx
    · refine (min_le_right a b).trans ?_
      cases List.mem_cons.1 hx with
      | inl heq => exact heq.ge
      | inr hx => exact (List.pairwise_cons.1 hB).1 x hx
  refine (kth_eq_iff le_rfl).2 ⟨hmem, ?_, List.countP_pos_iff.2 ⟨min a b, hmem, by simp⟩⟩
  rw [List.countP_eq_zero.2 fun x hx => by simpa using not_lt.2 (hleast x hx)]
  exact Nat.one_pos

/-- A call with the shorter array in front, when the calls for smaller `k` are right. -/
theorem helper_ends_of_le (ih : ∀ k' < k, ∀ {A B : List Int}, A.Pairwise (· ≤ ·) →
      B.Pairwise (· ≤ ·) → 1 ≤ k' → k' ≤ A.length + B.length → ∃ x, kth k' (A ++ B) = some x ∧
        Ends (fun fuel => helper fuel A A.length B B.length k') x)
    (hA : A.Pairwise (· ≤ ·)) (hB : B.Pairwise (· ≤ ·)) (hk : 1 ≤ k)
    (hkn : k ≤ A.length + B.length) (hshort : A.length ≤ B.length) :
    ∃ x, kth k (A ++ B) = some x ∧
      Ends (fun fuel => helper fuel A A.length B B.length k) x := by
  have hno : ¬ (A.length : Int) > B.length := by omega
  rcases Nat.eq_zero_or_pos A.length with hnil | hpos
  · obtain rfl := List.length_eq_zero_iff.1 hnil
    obtain ⟨x, hx⟩ := exists_kth (l := B) hk (by omega)
    have hget : (⟨0, B⟩ : Arr Int).get (k - 1) = .ok x :=
      get_pred hk ((kth_sorted hB).symm.trans hx)
    refine ⟨x, hx, Ends.succ ?_⟩
    simp only [helper, List.length_nil, Nat.cast_zero, if_true, hget]
    exact Ends.pure _
  by_cases hone : k = 1
  · subst hone
    cases A with
    | nil => exact absurd hpos (Nat.lt_irrefl 0)
    | cons a A =>
      cases B with
      | nil => exact absurd hshort (Nat.not_succ_le_zero _)
      | cons b B =>
        refine ⟨min a b, kth_one_min hA hB, Ends.succ ?_⟩
        have hne : ¬ ((a :: A).length : Int) = 0 := by omega
        have hgeta : (⟨0, a :: A⟩ : Arr Int).get 0 = .ok a := get_nat (k := 0) rfl
        have hgetb : (⟨0, b :: B⟩ : Arr Int).get 0 = .ok b := get_nat (k := 0) rfl
        simp only [helper, if_neg hno, if_neg hne, Nat.cast_one, if_true, hgeta, hgetb]
        exact Ends.pure _
  · obtain ⟨pa, pb, a, b, hpa, hpb, rfl, ha, hb, hcall⟩ :=
      helper_probes hshort hpos (by omega) hkn
    have hlenA := (List.getElem?_eq_some_iff.1 ha).1
    have hlenB := (List.getElem?_eq_some_iff.1 hb).1
    by_cases hab : a ≤ b
    · -- the elements left out are in `A`
      obtain ⟨x, hx, hends⟩ := ih pb (by omega) (hA.sublist (List.drop_sublist pa A)) hB hpb
        (by omega)
      refine ⟨x, (kth_discard hA hB hpa hpb ha hb hab).trans hx, Ends.succ ?_⟩
      simp only [hcall, if_pos hab]
      exact hends
    · -- they are in `B`
      obtain ⟨x, hx, hends⟩ := ih pa (by omega) hA (hB.sublist (List.drop_sublist pb B)) hpa
        (by omega)
      refine ⟨x, ?_, Ends.succ ?_⟩
      · rw [kth_perm List.perm_append_comm, Nat.add_comm,
          kth_discard hB hA hpb hpa hb ha (not_le.1 hab).le, kth_perm List.perm_append_comm]
        exact hx
      · simp only [hcall, if_neg hab]
        exact hends

/-- `helper` finds the k-th smallest element; the arrays are swapped when the first is longer. -/
theorem helper_ends (hA : A.Pairwise (· ≤ ·)) (hB : B.Pairwise (· ≤ ·)) (hk : 1 ≤ k)
    (hkn : k ≤ A.length + B.length) : ∃ x, kth k (A ++ B) = some x ∧
      Ends (fun fuel => helper fuel A A.length B B.length k) x := by
  induction k using Nat.strong_induction_on generalizing A B with
  | _ k ih =>
    by_cases hlong : B.length < A.length
    · obtain ⟨x, hx, hends⟩ := helper_ends_of_le ih hB hA hk (by omega) hlong.le
      refine ⟨x, (kth_perm List.perm_append_comm).trans hx, Ends.succ ?_⟩
      have hgt : (A.length : Int) > B.length := by omega
      simp only [helper, if_pos hgt]
      exact hends
    · exact helper_ends_of_le ih hA hB hk hkn (not_lt.1 hlong)

/-- A rank below 1 makes `helper` read in front of the first array. -/
theorem helper_fault {k : Int} (hA : 0 < A.length) (hB : 0 < B.length) (hk : k ≤ 0) (fuel : Nat)
    (r : ℚ) : helper fuel A A.length B B.length k ≠ .ok r := by
  induction fuel generalizing A B with
  | zero => exact nofun
  | succ fuel ih =>
    by_cases hlong : (A.length : Int) > B.length
    · rw [helper, if_pos hlong]
      exact ih hB hA
    · have hne : ¬ (A.length : Int) = 0 := by omega
      have hone : ¬ k = 1 := by omega
      have hneg : min (k.tdiv 2) A.length - 1 < 0 := by
        rw [tdiv_of_nonpos hk]
        omega
      simp only [helper, if_neg hlong, if_neg hne, if_neg hone, Arr.get, if_pos hneg, bind,
        Except.bind]
      intro hc
      cases hc

/-! ## The median -/

theorem median_append {x y : Int} (hx : kth (((A ++ B).length + 1) / 2) (A ++ B) = some x)
    (hy : kth ((A ++ B).length / 2 + 1) (A ++ B) = some y) :
    median (A ++ B) = some (((x : ℚ) + y) / 2) := by
  rw [median, hx, hy]
  rfl

theorem findMedian_ends (hA : A.Pairwise (· ≤ ·)) (hB : B.Pairwise (· ≤ ·))
    (hpos : 1 ≤ A.length + B.length) (hint : A.length + B.length < 2 ^ 31) :
    ∃ r, median (A ++ B) = some r ∧
      Ends (fun fuel => findMedianSortedArrays fuel A A.length B B.length) r := by
  obtain ⟨N, hN⟩ : ∃ N, N = A.length + B.length := ⟨_, rfl⟩
  have hlen : (A ++ B).length = N := by rw [List.length_append, hN]
  have htotal : int32 ((A.length : Int) + B.length) = N := by
    rw [hN, ← Nat.cast_add]
    exact int32_natCast hint
  have hmod : ((N : Int)).tmod 2 = (N % 2 : Nat) := (Int.ofNat_tmod N 2).symm
  have hdiv : ((N : Int)).tdiv 2 = (N / 2 : Nat) := (Int.ofNat_tdiv N 2).symm
  have hupper : ((N / 2 : Nat) : Int) + 1 = (N / 2 + 1 : Nat) := rfl
  obtain ⟨y, hy, hendsy⟩ := helper_ends hA hB (k := N / 2 + 1) (by omega) (by omega)
  by_cases heven : N % 2 = 0
  · -- the mean of the two elements in the middle
    obtain ⟨x, hx, hendsx⟩ := helper_ends hA hB (k := N / 2) (by omega) (by omega)
    have hmiddle : (N + 1) / 2 = N / 2 := by omega
    refine ⟨_, median_append (by rw [hlen, hmiddle]; exact hx) (by rw [hlen]; exact hy), ?_⟩
    simp only [findMedianSortedArrays, htotal, hmod, hdiv, heven, Nat.cast_zero, if_true, hupper]
    exact hendsx.bind (hendsy.bind (Ends.pure _))
  · have hmiddle : (N + 1) / 2 = N / 2 + 1 := by omega
    have hodd : ¬ ((N % 2 : Nat) : Int) = 0 := by omega
    refine ⟨_, median_append (by rw [hlen, hmiddle]; exact hy) (by rw [hlen]; exact hy), ?_⟩
    simp only [findMedianSortedArrays, htotal, hmod, hdiv, if_neg hodd, hupper, add_self_div_two]
    exact hendsy

/-- The length of both arrays together is negative when it does not fit an `int`. -/
theorem findMedian_fault (hm : A.length < 2 ^ 31) (hn : B.length < 2 ^ 31)
    (hlong : 2 ^ 31 ≤ A.length + B.length) (fuel : Nat) (r : ℚ) :
    findMedianSortedArrays fuel A A.length B B.length ≠ .ok r := by
  have htotal : int32 ((A.length : Int) + B.length) ≤ -2 := by
    unfold int32
    rw [Int.bmod_def]
    omega
  have hhalf : (int32 ((A.length : Int) + B.length)).tdiv 2 ≤ -1 := by
    rw [tdiv_of_nonpos (by omega)]
    omega
  have hlower := helper_fault (A := A) (B := B) (by omega) (by omega)
    (show (int32 ((A.length : Int) + B.length)).tdiv 2 ≤ 0 by omega) fuel
  have hupper := helper_fault (A := A) (B := B) (by omega) (by omega)
    (show (int32 ((A.length : Int) + B.length)).tdiv 2 + 1 ≤ 0 by omega) fuel
  rw [findMedianSortedArrays]
  split
  · intro h
    cases hcall : helper fuel A A.length B B.length
        ((int32 ((A.length : Int) + B.length)).tdiv 2) with
    | error e =>
      rw [hcall] at h
      cases h
    | ok x => exact hlower x hcall
  · exact hupper r

/-- `helper` finds the k-th smallest element of any two ascending arrays. The median is found
exactly when the length of both arrays together is an `int`. -/
theorem findMedianSortedArrays_iff (A B : List Int) (hA : A.Pairwise (· ≤ ·))
    (hB : B.Pairwise (· ≤ ·)) (hm : A.length < 2 ^ 31) (hn : B.length < 2 ^ 31)
    (hpos : 1 ≤ A.length + B.length) :
    (∀ k, 1 ≤ k → k ≤ A.length + B.length → ∃ x, kth k (A ++ B) = some x ∧
      Ends (fun fuel => helper fuel A A.length B B.length k) x) ∧
    ((∃ r, median (A ++ B) = some r ∧
      Ends (fun fuel => findMedianSortedArrays fuel A A.length B B.length) r) ↔
        A.length + B.length < 2 ^ 31) := by
  refine ⟨fun k hk hkn => helper_ends hA hB hk hkn, fun h => ?_, findMedian_ends hA hB hpos⟩
  by_contra hlong
  obtain ⟨r, _, n, hends⟩ := h
  exact findMedian_fault hm hn (not_lt.1 hlong) n r (hends n le_rfl)

theorem findMedianSortedArrays_iff_five :
    (∀ k, 1 ≤ k → k ≤ 2 + 3 → ∃ x : Int, kth k ([1, 3] ++ [2, 3, 7]) = some x ∧
      Ends (fun fuel => helper fuel [1, 3] (2 : Nat) [2, 3, 7] (3 : Nat) k) x) ∧
    ((∃ r, median ([1, 3] ++ [2, 3, 7]) = some r ∧
      Ends (fun fuel => findMedianSortedArrays fuel [1, 3] (2 : Nat) [2, 3, 7] (3 : Nat)) r) ↔
        2 + 3 < 2 ^ 31) :=
  findMedianSortedArrays_iff [1, 3] [2, 3, 7] (by decide) (by decide) (by decide) (by decide)
    (by decide)

/-- Two arrays of 2 ^ 30 elements each. -/
theorem findMedianSortedArrays_long : ¬ ∃ r,
    median (List.replicate (2 ^ 30) 0 ++ List.replicate (2 ^ 30) 0) = some r ∧
      Ends (fun fuel => findMedianSortedArrays fuel (List.replicate (2 ^ 30) 0)
        (List.replicate (2 ^ 30) (0 : Int)).length (List.replicate (2 ^ 30) 0)
        (List.replicate (2 ^ 30) (0 : Int)).length) r := by
  intro h
  obtain ⟨r, _, n, hends⟩ := h
  refine findMedian_fault ?_ ?_ ?_ n r (hends n le_rfl) <;> rw [List.length_replicate] <;> omega

end

end Homework
