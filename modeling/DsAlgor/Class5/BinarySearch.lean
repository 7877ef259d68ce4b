import DsAlgor.Class5.Halving

/-!
# `binarySearch.c`

The recursive search is right. The iterative one looks at the places of the halving loop only, so on
an ascending array it is right when one of them holds the value, when the value is smaller than all
elements, and when one element is left at the end and the value lies just above it
(`binary_search_iff`); otherwise it does not return.
-/

namespace Class5

open Checked

/-- The recursive search. -/
def binarySearch : Nat → Arr Int → Int → Int → Int → Except Fault Int
  | 0, _, _, _, _ => .error .loop
  | fuel + 1, array, left, right, value =>
    if left > right then return -1
    else do
      let mid := left + (right - left).tdiv 2
      let x ← array.get mid
      if x = value then return mid
      else if x < value then binarySearch fuel array (mid + 1) right value
      else binarySearch fuel array left (mid - 1) value

/-- The iterative search. -/
def binary_search (fuel : Nat) (a : Arr Int) (size val : Int) : Except Fault Int := do
  match ← halving a.get val fuel 0 (size - 1) with
  | some i => return i
  | none => return -1

/-- The index of `val`, or -1. -/
def IsIndex (a : List Int) (val r : Int) : Prop :=
  (∃ i : Nat, a[i]? = some val ∧ r = i) ∨ val ∉ a ∧ r = -1

section
variable {a : List Int} {val x y : Int} {i j : Nat}

theorem ascending (h : a.Pairwise (· < ·)) (hij : i < j) (hi : a[i]? = some x)
    (hj : a[j]? = some y) : x < y := by
  obtain ⟨hilt, rfl⟩ := List.getElem?_eq_some_iff.1 hi
  obtain ⟨hjlt, rfl⟩ := List.getElem?_eq_some_iff.1 hj
  exact List.pairwise_iff_getElem.1 h i j hilt hjlt hij

theorem ascending_le (h : a.Pairwise (· < ·)) (hij : i ≤ j) (hi : a[i]? = some x)
    (hj : a[j]? = some y) : x ≤ y := by
  rcases Nat.lt_or_eq_of_le hij with hlt | rfl
  · exact (ascending h hlt hi hj).le
  · rw [hi] at hj
    exact (Option.some.inj hj).le

/-! ## The recursive search -/

/-- Where `val` may be. -/
def Inside (a : List Int) (val : Int) (lo hi : Nat) : Prop :=
  ∀ i, a[i]? = some val → lo ≤ i ∧ i < hi

theorem inside_all : Inside a val 0 a.length := fun i hi =>
  ⟨Nat.zero_le i, (List.getElem?_eq_some_iff.1 hi).1⟩

theorem not_mem_of_inside {n : Nat} (h : Inside a val n n) : val ∉ a := by
  intro hval
  obtain ⟨i, hi, rfl⟩ := List.getElem_of_mem hval
  have hin := h i (List.getElem?_eq_getElem hi)
  omega

theorem binarySearch_ends (h : a.Pairwise (· < ·)) (n : Nat) {lo hi : Nat} (hn : hi - lo ≤ n)
    (hle : lo ≤ hi) (hlen : hi ≤ a.length) (hin : Inside a val lo hi) :
    ∃ r, Ends (fun fuel => binarySearch fuel ⟨0, a⟩ lo (hi - 1) val) r ∧ IsIndex a val r := by
  induction n generalizing lo hi with
  | zero =>
    obtain rfl : lo = hi := by omega
    refine ⟨-1, ?_, .inr ⟨not_mem_of_inside hin, rfl⟩⟩
    have hgt : (lo : Int) > lo - 1 := by omega
    apply Ends.succ
    simp only [binarySearch, if_pos hgt]
    exact Ends.pure _
  | succ n ih =>
    by_cases hempty : lo = hi
    · exact ih (by omega) hle hlen hin
    · have hgt : ¬ (lo : Int) > hi - 1 := by omega
      obtain ⟨mid, hmid⟩ : ∃ mid, mid = lo + (hi - 1 - lo) / 2 := ⟨_, rfl⟩
      have hmid_eq : (lo : Int) + ((hi : Int) - 1 - lo).tdiv 2 = mid := by
        rw [Int.tdiv_eq_ediv_of_nonneg (by omega)]
        omega
      have hm : mid < a.length := by omega
      obtain ⟨x, hx⟩ : ∃ x, a[mid]? = some x := ⟨_, List.getElem?_eq_getElem hm⟩
      have hget : (⟨0, a⟩ : Arr Int).get mid = .ok x := get_nat hx
      rcases Int.lt_trichotomy x val with hlow | rfl | hhigh
      · obtain ⟨r, hends, hr⟩ := ih (show hi - (mid + 1) ≤ n by omega) (by omega) hlen
          fun i hi => ⟨Nat.lt_of_not_le fun hle => absurd (ascending_le h hle hi hx) (by omega),
            (hin i hi).2⟩
        refine ⟨r, ?_, hr⟩
        apply Ends.succ
        simp only [binarySearch, if_neg hgt, hmid_eq, hget, bind, Except.bind,
          if_neg (ne_of_lt hlow), if_pos hlow]
        exact hends
      · refine ⟨mid, ?_, .inl ⟨mid, hx, rfl⟩⟩
        apply Ends.succ
        simp only [binarySearch, if_neg hgt, hmid_eq, hget, bind, Except.bind, if_pos]
        exact Ends.pure _
      · obtain ⟨r, hends, hr⟩ := ih (show mid - lo ≤ n by omega) (by omega) (by omega)
          fun i hi => ⟨(hin i hi).1,
            Nat.lt_of_not_le fun hle => absurd (ascending_le h hle hx hi) (by omega)⟩
        refine ⟨r, ?_, hr⟩
        apply Ends.succ
        simp only [binarySearch, if_neg hgt, hmid_eq, hget, bind, Except.bind,
          if_neg (ne_of_gt hhigh), if_neg (not_lt.2 hhigh.le)]
        exact hends

/-! ## The iterative search -/

theorem place_lt_place {s : Nat} (hij : i < j) (hj : Reached s j) : place s j < place s i := by
  have hsplit : (s + 1) / 2 ^ (j + 1) = (s + 1) / 2 ^ (i + 1) / 2 ^ (j - i) := by
    rw [Nat.div_div_eq_div_mul, ← pow_add]
    congr 2
    omega
  rw [Reached, hsplit] at hj
  have hi : 0 < (s + 1) / 2 ^ (i + 1) := Nat.pos_of_ne_zero fun hzero => by
    rw [hzero, Nat.zero_div] at hj
    exact Nat.lt_irrefl 0 hj
  have hlt := Nat.div_lt_self hi (Nat.one_lt_two_pow (Nat.sub_ne_zero_of_lt hij))
  rw [place, place, hsplit]
  omega

/-- The last place is the first element. -/
theorem exists_place_zero {s : Nat} (hs : 0 < s) : ∃ j, Reached s j ∧ place s j = 0 := by
  induction s using Nat.strong_induction_on with
  | _ s ih =>
    rcases Nat.eq_zero_or_pos (place s 0) with hzero | hpos
    · exact ⟨0, reached_zero hs, hzero⟩
    · obtain ⟨j, hj, hplace⟩ := ih _ (place_lt hs 0) hpos
      exact ⟨j + 1, (reached_succ hs).2 hj, (place_succ hs j).trans hplace⟩

/-- When the iterative search is right. -/
def Meets (a : List Int) (val : Int) : Prop :=
  a = [] ∨ (∃ x ∈ a[0]?, val < x) ∨
  (∃ j, Reached a.length j ∧ a[place a.length j]? = some val) ∨
  (∃ t, (a.length + 1) / 2 ^ t = 2) ∧ (∃ x ∈ a[0]?, x < val) ∧
    (a.length = 1 ∨ ∃ y ∈ a[1]?, val < y)

/-- The outcome of the loop on an array. -/
theorem halving_array_iff {r : Option Int} :
    Ends (fun fuel => halving (Arr.get ⟨0, a⟩) val fuel 0 (a.length - 1)) r ↔
      Outcome (fun k => a.getD k 0) val a.length r :=
  halving_iff fun k hk => get_nat (by simp [List.getElem?_eq_getElem hk])

theorem getD_of_getElem? (h : a[i]? = some x) : a.getD i 0 = x := by
  rw [List.getD_eq_getElem?_getD, h]
  rfl

theorem meets_of_outcome {r : Option Int} (h : Outcome (fun k => a.getD k 0) val a.length r) :
    Meets a val := by
  rcases Nat.eq_zero_or_pos a.length with hnil | hpos
  · exact .inl (List.length_eq_zero_iff.1 hnil)
  · have hat : ∀ {k}, k < a.length → a[k]? = some (a.getD k 0) := fun hk => by
      simp [List.getElem?_eq_getElem hk]
    rcases h with ⟨j, hj, _, hval, _⟩ | ⟨_, hall | ⟨t, ht, hzero, hbefore⟩⟩
    · exact .inr (.inr (.inl ⟨j, hj, hval ▸ hat (place_lt hpos j)⟩))
    · obtain ⟨j, hj, hplace⟩ := exists_place_zero hpos
      have hlt := hall j hj
      rw [hplace] at hlt
      exact .inr (.inl ⟨_, hat hpos, hlt⟩)
    · refine .inr (.inr (.inr ⟨⟨t, ht⟩, ⟨_, hat hpos, hzero⟩, ?_⟩))
      cases t with
      | zero =>
        rw [pow_zero, Nat.div_one] at ht
        exact .inl (by omega)
      | succ t =>
        -- the place before the last round is the second element
        have hone : place a.length t = 1 := by rw [place, ht]
        have hlt := hbefore t (Nat.lt_succ_self t)
        rw [hone] at hlt
        exact .inr ⟨_, hat (hone ▸ place_lt hpos t), hlt⟩

/-- Between two neighbours there is nothing. -/
theorem not_mem_between (h : a.Pairwise (· < ·)) (hx : ∃ x ∈ a[0]?, x < val)
    (hy : a.length = 1 ∨ ∃ y ∈ a[1]?, val < y) : val ∉ a := by
  intro hval
  obtain ⟨x, hx, hlt⟩ := hx
  obtain ⟨i, hi, rfl⟩ := List.getElem_of_mem hval
  have hget := List.getElem?_eq_getElem hi
  cases i with
  | zero =>
    rw [Option.mem_def, hget] at hx
    exact absurd (Option.some.inj hx) (by omega)
  | succ i =>
    rcases hy with hone | ⟨y, hy, hgt⟩
    · omega
    · exact absurd (ascending_le h (Nat.succ_le_succ (Nat.zero_le i)) hy hget) (by omega)

theorem outcome_of_meets (h : a.Pairwise (· < ·)) (hm : Meets a val) :
    (∃ i : Nat, a[i]? = some val ∧ Outcome (fun k => a.getD k 0) val a.length (some (i : Int))) ∨
      val ∉ a ∧ Outcome (fun k => a.getD k 0) val a.length none := by
  have hat : ∀ {k}, k < a.length → a[k]? = some (a.getD k 0) := fun hk => by
    simp [List.getElem?_eq_getElem hk]
  rcases hm with rfl | ⟨x, hx, hlt⟩ | ⟨j, hj, hval⟩ | ⟨⟨t, ht⟩, hx, hy⟩
  · exact .inr ⟨List.not_mem_nil, outcome_zero.2 rfl⟩
  · refine .inr ⟨fun hval => ?_, .inr ⟨rfl, .inl fun j hj => ?_⟩⟩
    · obtain ⟨i, hi, rfl⟩ := List.getElem_of_mem hval
      exact absurd (ascending_le h (Nat.zero_le i) hx (List.getElem?_eq_getElem hi)) (by omega)
    · exact lt_of_lt_of_le hlt (ascending_le h (Nat.zero_le _) hx (hat (place_lt hj.pos j)))
  · refine .inl ⟨_, hval, .inl ⟨j, hj, rfl, getD_of_getElem? hval, fun i hi => ?_⟩⟩
    exact ascending h (place_lt_place hi hj) hval (hat (place_lt hj.pos i))
  · refine .inr ⟨not_mem_between h hx hy, .inr ⟨rfl, .inr ⟨t, ht, ?_, fun i hi => ?_⟩⟩⟩
    · obtain ⟨x, hx, hlt⟩ := hx
      exact lt_of_eq_of_lt (getD_of_getElem? hx) hlt
    · have hle : (a.length + 1) / 2 ^ t ≤ (a.length + 1) / 2 ^ (i + 1) :=
        Nat.div_le_div_left (Nat.pow_le_pow_right (by decide) hi) (Nat.two_pow_pos _)
      have hplace : 1 ≤ place a.length i := by
        rw [place]
        omega
      have hpos : 0 < a.length := by
        obtain ⟨x, hx, _⟩ := hx
        exact Nat.zero_lt_of_lt (List.getElem?_eq_some_iff.1 hx).1
      have hlt := place_lt hpos i
      rcases hy with hone | ⟨y, hy, hgt⟩
      · omega
      · exact lt_of_lt_of_le hgt (ascending_le h hplace hy (hat hlt))

/-- What `binary_search` returns, from where its loop ends. -/
theorem binary_search_ends_iff {r : Int} :
    Ends (fun fuel => binary_search fuel ⟨0, a⟩ a.length val) r ↔
      ∃ r', Outcome (fun k => a.getD k 0) val a.length r' ∧ r = r'.getD (-1) := by
  have hsplit := Ends.bind_iff (b := r) (halving_steady (Arr.get ⟨0, a⟩) val 0 (a.length - 1))
    (k := fun _ r' => Except.ok (r'.getD (-1))) fun r' => Steady.const _
  have hmatch : (fun fuel => binary_search fuel ⟨0, a⟩ a.length val) = fun fuel =>
      halving (Arr.get ⟨0, a⟩) val fuel 0 (a.length - 1) >>= fun r' => .ok (r'.getD (-1)) := by
    funext fuel
    refine congrArg (halving _ _ _ _ _ >>= ·) (funext fun r' => ?_)
    cases r' with
    | none => rfl
    | some i => rfl
  rw [hmatch, hsplit]
  refine exists_congr fun r' => and_congr halving_array_iff (Ends.const_iff.trans ?_)
  exact ⟨fun h => (Except.ok.inj h).symm, fun h => h ▸ rfl⟩

theorem isIndex_unique {r r' : Int} (h : a.Nodup) (hr : IsIndex a val r)
    (hr' : IsIndex a val r') : r = r' := by
  rcases hr with ⟨i, hi, rfl⟩ | ⟨hval, rfl⟩
  · rcases hr' with ⟨j, hj, rfl⟩ | ⟨hval, rfl⟩
    · have hlt := (List.getElem?_eq_some_iff.1 hi).1
      rw [(List.getElem?_inj hlt h).1 (hi.trans hj.symm)]
    · exact absurd (List.mem_of_getElem? hi) hval
  · rcases hr' with ⟨j, hj, rfl⟩ | ⟨_, rfl⟩
    · exact absurd (List.mem_of_getElem? hj) hval
    · rfl

end

/-- The iterative search agrees with the recursive one, and both are right, exactly on the inputs
that `Meets` describes. -/
theorem binary_search_iff (a : List Int) (val : Int) (h : a.Pairwise (· < ·)) :
    (∃ r, Ends (fun fuel => binary_search fuel ⟨0, a⟩ a.length val) r ∧
      Ends (fun fuel => binarySearch fuel ⟨0, a⟩ 0 (a.length - 1) val) r ∧ IsIndex a val r) ↔
      Meets a val := by
  refine ⟨fun hr => ?_, fun hm => ?_⟩
  · obtain ⟨r, hends, _⟩ := hr
    obtain ⟨r', houtcome, _⟩ := binary_search_ends_iff.1 hends
    exact meets_of_outcome houtcome
  · obtain ⟨r, hrec, hr⟩ := binarySearch_ends h a.length (Nat.sub_le ..) (Nat.zero_le _) le_rfl
      (show Inside a val 0 a.length from inside_all)
    obtain ⟨r', houtcome, hr'⟩ : ∃ r', Outcome (fun k => a.getD k 0) val a.length r' ∧
        IsIndex a val (r'.getD (-1)) := by
      rcases outcome_of_meets h hm with ⟨i, hi, ho⟩ | ⟨hval, ho⟩
      · exact ⟨some i, ho, .inl ⟨i, hi, rfl⟩⟩
      · exact ⟨none, ho, .inr ⟨hval, rfl⟩⟩
    obtain rfl : r = r'.getD (-1) := isIndex_unique (h.imp fun hlt => ne_of_lt hlt) hr hr'
    exact ⟨_, binary_search_ends_iff.2 ⟨r', houtcome, rfl⟩, hrec, hr⟩

theorem binary_search_iff_found :
    (∃ r, Ends (fun fuel => binary_search fuel ⟨0, [1, 3, 5]⟩ (3 : Nat) 3) r ∧
      Ends (fun fuel => binarySearch fuel ⟨0, [1, 3, 5]⟩ 0 ((3 : Nat) - 1) 3) r ∧
      IsIndex [1, 3, 5] 3 r) ↔ Meets [1, 3, 5] 3 :=
  binary_search_iff [1, 3, 5] 3 (by decide)

/-- The second of two elements is not found. -/
theorem binary_search_second :
    ¬ ∃ r, Ends (fun fuel => binary_search fuel ⟨0, [1, 3]⟩ (2 : Nat) 3) r ∧
      Ends (fun fuel => binarySearch fuel ⟨0, [1, 3]⟩ 0 ((2 : Nat) - 1) 3) r ∧
      IsIndex [1, 3] 3 r := by
  intro h
  obtain ⟨r, hends, _⟩ := h
  obtain ⟨n, hn, _⟩ := hends.exists
  obtain ⟨r', hr', _⟩ := bind_eq_ok hn
  cases n with
  | zero => cases hr'
  | succ n =>
    have hr' : halving (Arr.get ⟨0, [1, 3]⟩) 3 (n + 1) 0 1 = .ok r' := hr'
    rw [halving_stuck (x := 1) rfl (by decide) le_rfl (n + 1) (by decide)] at hr'
    cases hr'

end Class5
