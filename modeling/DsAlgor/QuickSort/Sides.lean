import DsAlgor.QuickSort.Partition

/-!
# The two sides of the pivot in `quickSort`

Where `quickSort` leaves the elements in front of the pivot `p`: those smaller than `p` come to the
left of it, and each of the others that stands there is exchanged with a smaller one from the right,
the first of them with the last. An element equal to `p` takes part on both sides.
-/

namespace QuickSort

/-- `ys` with the elements that are not kept replaced by those of `zs`. -/
def fill (keep : Int → Bool) : List Int → List Int → List Int
  | [], _ => []
  | y :: ys, zs =>
    if keep y then y :: fill keep ys zs
    else
      match zs with
      | [] => fill keep ys []
      | z :: zs => z :: fill keep ys zs

/-- The elements smaller than `p`. -/
def smaller (p : Int) (x : List Int) : List Int := x.filter (· < p)

/-- The elements greater than `p`. -/
def greater (p : Int) (x : List Int) : List Int := x.filter (p < ·)

/-- What comes to the left of the pivot. -/
def lower (p : Int) (x : List Int) : List Int :=
  let n := (smaller p x).length
  fill (· < p) (x.take n) (smaller p (x.drop n)).reverse

/-- What comes to the right of the pivot, the last place apart. -/
def upper (p : Int) (x : List Int) : List Int :=
  let n := (smaller p x).length
  (fill (p < ·) (x.drop (n + 1)).reverse (greater p (x.take (n + 1)))).reverse

/-- The element that comes to the last place: `p` again, when it is there. -/
def exchanged (p : Int) (x : List Int) : Int :=
  if p ∈ x then p else ((greater p (x.take ((smaller p x).length + 1))).getLast?).getD p

/-- What comes to the right of the pivot. -/
def higher (p : Int) (x : List Int) : List Int := upper p x ++ [exchanged p x]

section
variable {p y z b s : Int} {x N T : List Int} {keep : Int → Bool} {ys zs : List Int}

theorem fill_keep (h : keep y = true) : fill keep (y :: ys) zs = y :: fill keep ys zs := by
  simp only [fill, h, if_true]

theorem fill_replace (h : keep y = false) :
    fill keep (y :: ys) (z :: zs) = z :: fill keep ys zs := by
  simp [fill, h]

/-- What is not kept does not count. -/
theorem fill_other {y y' : Int} (h : keep y = false) (h' : keep y' = false) (ws : List Int) :
    ∀ ys zs : List Int, fill keep (ys ++ y :: ws) zs = fill keep (ys ++ y' :: ws) zs
  | [], zs => by simp [fill, h, h']
  | x :: ys, zs => by
    simp only [List.cons_append, fill]
    rw [fill_other h h' ws ys zs, fill_other h h' ws ys []]
    cases zs with
    | nil => rfl
    | cons z zs => simp only [fill_other h h' ws ys zs]

theorem length_fill_le : ∀ {ys zs : List Int}, (fill keep ys zs).length ≤ ys.length
  | [], _ => Nat.le_refl _
  | y :: ys, zs => by
    have ih : ∀ zs, (fill keep ys zs).length ≤ ys.length := fun zs => length_fill_le
    simp only [fill]
    split
    · exact Nat.succ_le_succ (ih zs)
    · cases zs with
      | nil => exact Nat.le_succ_of_le (ih [])
      | cons z zs => exact Nat.succ_le_succ (ih zs)

theorem length_lower_le : (lower p x).length ≤ x.length :=
  le_trans length_fill_le (by simp)

theorem length_higher_le (hx : x ≠ []) : (higher p x).length ≤ x.length := by
  have hpos := List.length_pos_iff.2 hx
  have hup : (upper p x).length ≤ x.length - ((smaller p x).length + 1) := by
    rw [upper, List.length_reverse]
    exact le_trans length_fill_le (by simp)
  simp only [higher, List.length_append, List.length_singleton]
  omega

/-! ## The smaller and the greater elements -/

theorem smaller_small (hy : y < p) : smaller p (y :: x) = y :: smaller p x :=
  List.filter_cons_of_pos (decide_eq_true hy)

theorem smaller_other (hy : p ≤ y) : smaller p (y :: x) = smaller p x :=
  List.filter_cons_of_neg (by simpa using hy)

theorem smaller_snoc_small (hy : y < p) : smaller p (x ++ [y]) = smaller p x ++ [y] := by
  simp [smaller, hy]

theorem smaller_snoc_other (hy : p ≤ y) : smaller p (x ++ [y]) = smaller p x := by
  simpa [smaller] using hy

theorem greater_big (hy : p < y) : greater p (y :: x) = y :: greater p x :=
  List.filter_cons_of_pos (decide_eq_true hy)

theorem greater_other (hy : y ≤ p) : greater p (y :: x) = greater p x :=
  List.filter_cons_of_neg (by simpa using hy)

theorem greater_snoc_big (hy : p < y) : greater p (x ++ [y]) = greater p x ++ [y] := by
  simp [greater, hy]

theorem greater_snoc_other (hy : y ≤ p) : greater p (x ++ [y]) = greater p x := by
  simpa [greater] using hy

theorem length_smaller_le : (smaller p x).length ≤ x.length := List.length_filter_le _ _

theorem length_smaller_lt (hx : ∃ y ∈ x, p ≤ y) : (smaller p x).length < x.length := by
  refine List.length_filter_lt_length_iff_exists.2 ?_
  obtain ⟨y, hy, hp⟩ := hx
  exact ⟨y, hy, by simpa using hp⟩

/-! ## An element that stays -/

theorem lower_small (hy : y < p) : lower p (y :: x) = y :: lower p x := by
  simp only [lower, smaller_small hy, List.length_cons, List.take_succ_cons, List.drop_succ_cons]
  exact fill_keep (decide_eq_true hy)

theorem upper_small (hy : y < p) : upper p (y :: x) = upper p x := by
  simp only [upper, smaller_small hy, List.length_cons, List.take_succ_cons, List.drop_succ_cons,
    greater_other hy.le]

theorem exchanged_small (hy : y < p) : exchanged p (y :: x) = exchanged p x := by
  have hmem : p ∈ y :: x ↔ p ∈ x := by simp [hy.ne']
  simp only [exchanged, hmem, smaller_small hy, List.length_cons, List.take_succ_cons,
    greater_other hy.le]

theorem lower_snoc (hz : p ≤ z) : lower p (x ++ [z]) = lower p x := by
  have hn : (smaller p x).length ≤ x.length := length_smaller_le
  simp only [lower, smaller_snoc_other hz, List.take_append_of_le_length hn,
    List.drop_append_of_le_length hn]

theorem upper_snoc (hz : p < z) (hx : ∃ y ∈ x, p ≤ y) : upper p (x ++ [z]) = upper p x ++ [z] := by
  have hn := length_smaller_lt hx
  simp only [upper, smaller_snoc_other hz.le, List.take_append_of_le_length hn,
    List.drop_append_of_le_length hn, List.reverse_append, List.reverse_singleton,
    List.singleton_append]
  rw [fill_keep (decide_eq_true hz), List.reverse_cons]

theorem exchanged_snoc (hz : p < z) (hx : ∃ y ∈ x, p ≤ y) :
    exchanged p (x ++ [z]) = exchanged p x := by
  have hn := length_smaller_lt hx
  have hmem : p ∈ x ++ [z] ↔ p ∈ x := by simp [hz.ne]
  simp only [exchanged, hmem, smaller_snoc_other hz.le, List.take_append_of_le_length hn]

/-! ## An exchange -/

/-- The left side does not depend on which element is not smaller. -/
theorem lower_other (hy : p ≤ y) (hz : p ≤ z) : lower p (y :: x) = lower p (z :: x) := by
  have hkeep : ∀ w, p ≤ w → decide (w < p) = false := fun w hw => decide_eq_false (not_lt.2 hw)
  simp only [lower, smaller_other hy, smaller_other hz]
  cases (smaller p x).length with
  | zero => rfl
  | succ n =>
    simp only [List.take_succ_cons, List.drop_succ_cons]
    exact fill_other (hkeep y hy) (hkeep z hz) _ [] _

theorem lower_swap (hb : p ≤ b) :
    lower p (b :: (N ++ [s])) = lower p (s :: (N ++ [b])) := by
  by_cases hsp : s < p
  · have hn : (smaller p N).length ≤ N.length := length_smaller_le
    rw [lower_small hsp, lower_snoc hb]
    simp only [lower, smaller_other hb, smaller_snoc_small hsp, List.length_append,
      List.length_singleton, List.take_succ_cons, List.drop_succ_cons,
      List.take_append_of_le_length hn, List.drop_append_of_le_length hn, List.reverse_append,
      List.reverse_singleton, List.singleton_append]
    exact fill_replace (decide_eq_false (not_lt.2 hb))
  · have hps : p ≤ s := not_lt.1 hsp
    rw [← List.cons_append, ← List.cons_append, lower_snoc hps, lower_snoc hb]
    exact lower_other hb hps

theorem length_smaller_swap (hb : p ≤ b) :
    (smaller p (b :: (N ++ [s]))).length = (smaller p (s :: (N ++ [b]))).length := by
  by_cases hsp : s < p
  · rw [smaller_other hb, smaller_snoc_small hsp, smaller_small hsp, smaller_snoc_other hb]
    simp
  · have hps : p ≤ s := not_lt.1 hsp
    rw [smaller_other hb, smaller_snoc_other hps, smaller_other hps, smaller_snoc_other hb]

theorem exists_greater (hp : p ∉ x) (hn : (smaller p x).length + 1 ≤ x.length) :
    ∃ w, (greater p (x.take ((smaller p x).length + 1))).getLast? = some w := by
  have hle : (smaller p (x.take ((smaller p x).length + 1))).length ≤ (smaller p x).length :=
    ((List.take_sublist _ x).filter _).length_le
  have hlt : (smaller p (x.take ((smaller p x).length + 1))).length <
      (x.take ((smaller p x).length + 1)).length := by
    rw [List.length_take, Nat.min_eq_left hn]
    exact Nat.lt_succ_of_le hle
  obtain ⟨y, hy, hyp⟩ := List.length_filter_lt_length_iff_exists.1 hlt
  have hyp : p ≤ y := by simpa using hyp
  have hne : p ≠ y := fun hc => hp (hc ▸ List.mem_of_mem_take hy)
  have hmem : y ∈ greater p (x.take ((smaller p x).length + 1)) :=
    List.mem_filter.2 ⟨hy, decide_eq_true (lt_of_le_of_ne hyp hne)⟩
  exact ⟨_, List.getLast?_eq_some_getLast (List.ne_nil_of_mem hmem)⟩

section
variable (hb : p ≤ b) (hs : s ≤ p)
include hb hs

theorem upper_swap : upper p (b :: (N ++ [s])) = upper p (s :: (N ++ [b])) := by
  have hlen := length_smaller_swap (N := N) (s := s) hb
  have hle : (smaller p (s :: (N ++ [b]))).length ≤ N.length + 1 := by
    rw [← hlen, smaller_other hb]
    exact le_trans length_smaller_le (by simp)
  simp only [upper, hlen, List.take_succ_cons, List.drop_succ_cons]
  generalize (smaller p (s :: (N ++ [b]))).length = n at hle
  by_cases hn : n ≤ N.length
  · simp only [List.take_append_of_le_length hn, List.drop_append_of_le_length hn,
      List.reverse_append, List.reverse_singleton, List.singleton_append]
    have hskip : decide (p < s) = false := decide_eq_false (not_lt.2 hs)
    by_cases hbp : p < b
    · rw [greater_big hbp, greater_other hs, fill_replace hskip, fill_keep (decide_eq_true hbp)]
    · have hbp : b ≤ p := not_lt.1 hbp
      rw [greater_other hbp, greater_other hs]
      have hother : fill (p < ·) (s :: (N.drop n).reverse) (greater p (N.take n)) =
          fill (p < ·) (b :: (N.drop n).reverse) (greater p (N.take n)) :=
        fill_other hskip (decide_eq_false (not_lt.2 hbp)) _ [] _
      exact congrArg List.reverse hother
  · have hdrop : ∀ w, (N ++ [w]).drop n = [] := fun w =>
      List.drop_eq_nil_of_le (by simp; omega)
    simp only [hdrop, List.reverse_nil, fill]

theorem exchanged_swap : exchanged p (b :: (N ++ [s])) = exchanged p (s :: (N ++ [b])) := by
  have hlen := length_smaller_swap (N := N) (s := s) hb
  have hperm : (b :: (N ++ [s])).Perm (s :: (N ++ [b])) := by
    refine List.perm_iff_count.2 fun a => ?_
    simp only [List.count_append, List.count_cons, List.count_nil]
    omega
  by_cases hmem : p ∈ s :: (N ++ [b])
  · rw [exchanged, exchanged, if_pos hmem, if_pos (hperm.mem_iff.2 hmem)]
  · rw [exchanged, exchanged, if_neg hmem, if_neg fun hc => hmem (hperm.mem_iff.1 hc), hlen]
    have hbp : p < b := lt_of_le_of_ne hb fun hc => hmem (by simp [hc])
    have hsp : s < p := lt_of_le_of_ne hs fun hc => hmem (by simp [hc])
    have hN : p ∉ N := fun hc => hmem (by simp [hc])
    have hn : (smaller p (s :: (N ++ [b]))).length = (smaller p N).length + 1 := by
      rw [smaller_small hsp, smaller_snoc_other hb, List.length_cons]
    simp only [hn, List.take_succ_cons, greater_big hbp, greater_other hs]
    by_cases hle : (smaller p N).length + 1 ≤ N.length
    · -- one of the first elements of `N` is greater
      simp only [List.take_append_of_le_length hle]
      obtain ⟨w, hw⟩ := exists_greater hN hle
      rw [List.getLast?_cons, hw]
      rfl
    · have hall : (smaller p N).length = N.length :=
        le_antisymm length_smaller_le (Nat.le_of_lt_succ (not_le.1 hle))
      have htake : ∀ w, (N ++ [w]).take ((smaller p N).length + 1) = N ++ [w] := fun w =>
        List.take_of_length_le (by simp [hall])
      have hnone : greater p N = [] := by
        refine List.filter_eq_nil_iff.2 fun y hy => ?_
        have hyp := List.length_filter_eq_length_iff.1 hall y hy
        simpa using (of_decide_eq_true hyp).le
      rw [htake, htake, greater_snoc_other hs, greater_snoc_big hbp, hnone]
      rfl

end

/-! ## A single element -/

theorem lower_single (hb : p ≤ b) : lower p [b] = [] := by
  have hnone : smaller p [b] = [] := smaller_other hb
  rw [lower, hnone]
  rfl

theorem upper_single : upper p [b] = [] := by simp [upper, fill]

theorem exchanged_single (hb : p ≤ b) : exchanged p [b] = b := by
  by_cases hbp : p = b
  · simp [exchanged, hbp]
  · have hgreater : greater p [b] = [b] := greater_big (lt_of_le_of_ne hb hbp)
    simp [exchanged, hbp, hgreater]

/-! ## Rounds -/

section
variable {Y W : List Int} (hY : ∀ y ∈ Y, y < p)
include hY

theorem lower_smalls : lower p (Y ++ x) = Y ++ lower p x := by
  induction Y with
  | nil => rfl
  | cons y Y ih =>
    have hY := List.forall_mem_cons.1 hY
    rw [List.cons_append, lower_small hY.1, ih hY.2, List.cons_append]

theorem upper_smalls : upper p (Y ++ x) = upper p x := by
  induction Y with
  | nil => rfl
  | cons y Y ih =>
    have hY := List.forall_mem_cons.1 hY
    rw [List.cons_append, upper_small hY.1, ih hY.2]

theorem exchanged_smalls : exchanged p (Y ++ x) = exchanged p x := by
  induction Y with
  | nil => rfl
  | cons y Y ih =>
    have hY := List.forall_mem_cons.1 hY
    rw [List.cons_append, exchanged_small hY.1, ih hY.2]

end

/-- Elements that stay on the right. -/
theorem sides_bigs {W : List Int} (hW : ∀ w ∈ W, p < w) (hx : ∃ y ∈ x, p ≤ y) :
    lower p (x ++ W) = lower p x ∧ upper p (x ++ W) = upper p x ++ W ∧
      exchanged p (x ++ W) = exchanged p x := by
  induction W using List.reverseRecOn with
  | nil => simp
  | append_singleton W w ih =>
    have hw : p < w := hW w (by simp)
    obtain ⟨hlow, hup, hex⟩ := ih fun v hv => hW v (by simp [hv])
    have hx' : ∃ y ∈ x ++ W, p ≤ y := by
      obtain ⟨y, hy, hp⟩ := hx
      exact ⟨y, List.mem_append_left W hy, hp⟩
    rw [← List.append_assoc, lower_snoc hw.le, upper_snoc hw hx', exchanged_snoc hw hx', hlow, hup,
      hex]
    exact ⟨rfl, List.append_assoc _ _ _, rfl⟩

/-- The scans met at `b`. -/
theorem sides_exit {Y W : List Int} (hY : ∀ y ∈ Y, y < p) (hb : p ≤ b) (hW : ∀ w ∈ W, p < w) :
    lower p (Y ++ b :: W) = Y ∧ upper p (Y ++ b :: W) = W ∧ exchanged p (Y ++ b :: W) = b := by
  obtain ⟨hlow, hup, hex⟩ := sides_bigs hW (x := [b]) ⟨b, List.mem_singleton_self b, hb⟩
  rw [List.singleton_append] at hlow hup hex
  rw [lower_smalls hY, upper_smalls hY, exchanged_smalls hY, hlow, hup, hex, lower_single hb,
    upper_single, exchanged_single hb]
  exact ⟨List.append_nil Y, rfl, rfl⟩

/-- The scans stopped at `b` and at `s`. -/
theorem sides_swap {Y W : List Int} (hY : ∀ y ∈ Y, y < p) (hb : p ≤ b) (hs : s ≤ p)
    (hW : ∀ w ∈ W, p < w) :
    lower p (Y ++ b :: (N ++ s :: W)) = Y ++ lower p (s :: (N ++ [b])) ∧
      upper p (Y ++ b :: (N ++ s :: W)) = upper p (s :: (N ++ [b])) ++ W ∧
      exchanged p (Y ++ b :: (N ++ s :: W)) = exchanged p (s :: (N ++ [b])) := by
  obtain ⟨hlow, hup, hex⟩ := sides_bigs hW (x := b :: (N ++ [s])) ⟨b, List.mem_cons_self, hb⟩
  have harr : b :: (N ++ s :: W) = b :: (N ++ [s]) ++ W := by simp
  rw [lower_smalls hY, upper_smalls hY, exchanged_smalls hY, harr, hlow, hup, hex, lower_swap hb,
    upper_swap hb hs, exchanged_swap hb hs]
  exact ⟨rfl, rfl, rfl⟩

theorem getLast?_ends : (b :: (N ++ [s])).getLast? = some s :=
  List.getLast?_concat (l := b :: N)

/-- Induction on the rounds of the loop of `quickSort`, where the pivot is there at most once and
not all of the elements are smaller. After an exchange one of the scans goes on. -/
theorem rounds {P : List Int → Prop}
    (exit : ∀ Y b W, (∀ y ∈ Y, y < p) → p ≤ b → (∀ w ∈ W, p < w) → P (Y ++ b :: W))
    (swap : ∀ Y b N s W, (∀ y ∈ Y, y < p) → p ≤ b → s ≤ p → (∀ w ∈ W, p < w) →
      P (s :: (N ++ [b])) → P (Y ++ b :: (N ++ s :: W))) :
    ∀ (n : Nat) {M : List Int}, 2 * M.length ≤ n →
      ((∃ y ∈ M.head?, p ≤ y) → (∃ z ∈ M.getLast?, z ≤ p) → 2 * M.length < n) →
      M.count p ≤ 1 → (∃ y ∈ M, p ≤ y) → P M
  | n, M, hn, hstuck, hcount, hex => by
    cases first_split (p ≤ ·) M with
    | inl hall =>
      obtain ⟨y, hy, hp⟩ := hex
      exact absurd hp (hall y hy)
    | inr hsome =>
      obtain ⟨Y, b, T, rfl, hY, hb⟩ := hsome
      have hY : ∀ y ∈ Y, y < p := fun y hy => not_le.1 (hY y hy)
      cases last_split (· ≤ p) T with
      | inl hall => exact exit Y b T hY hb fun w hw => not_le.1 (hall w hw)
      | inr hlast =>
        obtain ⟨N, s, W, rfl, hs, hW⟩ := hlast
        have hW : ∀ w ∈ W, p < w := fun w hw => not_le.1 (hW w hw)
        refine swap Y b N s W hY hb hs hW ?_
        simp only [List.count_append, List.count_cons, beq_iff_eq] at hcount
        have hshort : 2 * (s :: (N ++ [b])).length < n := by
          by_cases hYW : Y = [] ∧ W = []
          · have hlt := hstuck ⟨b, by simp [hYW.1], hb⟩ ⟨s, by simp [hYW.2, getLast?_ends], hs⟩
            simpa [hYW.1, hYW.2] using hlt
          · have hpos : 0 < Y.length + W.length := by
              by_contra hc
              exact hYW ⟨List.length_eq_zero_iff.1 (by omega), List.length_eq_zero_iff.1 (by omega)⟩
            simp only [List.length_append, List.length_cons, List.length_nil] at hn ⊢
            omega
        match n with
        | n + 1 =>
          refine rounds exit swap n (Nat.le_of_lt_succ hshort) (fun hhead hlast => ?_) ?_
            ⟨b, by simp, hb⟩
          · -- both ends would be equal to the pivot
            have hs' : p ≤ s := by simpa using hhead
            have hb' : b ≤ p := by simpa [getLast?_ends] using hlast
            rw [if_pos (le_antisymm hb' hb), if_pos (le_antisymm hs hs')] at hcount
            omega
          · simp only [List.count_append, List.count_cons, List.count_nil, beq_iff_eq]
            omega

/-- What is on the two sides. -/
theorem sides_spec {M : List Int} (hcount : M.count p ≤ 1) (hex : ∃ y ∈ M, p ≤ y) :
    (∀ u ∈ lower p M, u < p) ∧ (∀ v ∈ higher p M, p ≤ v) ∧ (lower p M ++ higher p M).Perm M := by
  refine rounds (P := fun M => (∀ u ∈ lower p M, u < p) ∧ (∀ v ∈ higher p M, p ≤ v) ∧
      (lower p M ++ higher p M).Perm M)
    (fun Y b W hY hb hW => ?_) (fun Y b N s W hY hb hs hW ih => ?_) (2 * M.length + 1)
    (Nat.le_succ _) (fun _ _ => Nat.lt_succ_self _) hcount hex
  · obtain ⟨hlow, hup, hex⟩ := sides_exit hY hb hW
    rw [higher, hlow, hup, hex]
    refine ⟨hY, fun v hv => ?_, (List.perm_append_singleton b W).append_left Y⟩
    cases List.mem_append.1 hv with
    | inl hv => exact (hW v hv).le
    | inr hv => exact List.mem_singleton.1 hv ▸ hb
  · obtain ⟨hlow, hup, hex⟩ := sides_swap (N := N) hY hb hs hW
    obtain ⟨ihlow, ihhigh, ihperm⟩ := ih
    rw [higher, hlow, hup, hex]
    rw [higher] at ihhigh ihperm
    refine ⟨fun u hu => ?_, fun v hv => ?_, List.perm_iff_count.2 fun a => ?_⟩
    · cases List.mem_append.1 hu with
      | inl hu => exact hY u hu
      | inr hu => exact ihlow u hu
    · simp only [List.mem_append] at hv ihhigh
      cases hv with
      | inl hv =>
        cases hv with
        | inl hv => exact ihhigh v (.inl hv)
        | inr hv => exact (hW v hv).le
      | inr hv => exact ihhigh v (.inr hv)
    · have ihcount := List.perm_iff_count.1 ihperm a
      simp only [List.count_append, List.count_cons, List.count_nil] at ihcount ⊢
      omega

end

end QuickSort
