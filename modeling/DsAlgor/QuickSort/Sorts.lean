import DsAlgor.QuickSort.Exchange

/-!
# What `quickSort` sorts

A call sorts its segment if and only if the pivot is there at most twice, is not greater than all
elements in front of it, and the calls for the two sides sort them. A call for no elements reads the
element in front of them, which is not there at the start of the array.
-/

namespace QuickSort

open Checked

theorem length_lower_lt {s : List Int} {p : Int} (h : 2 ≤ s.length) :
    (lower p s.dropLast).length < s.length := by
  have hle := length_lower_le (p := p) (x := s.dropLast)
  rw [List.length_dropLast] at hle
  omega

theorem length_higher_lt {s : List Int} {p : Int} (h : 2 ≤ s.length) :
    (higher p s.dropLast).length < s.length := by
  have hne : s.dropLast ≠ [] := List.ne_nil_of_length_pos (by
    rw [List.length_dropLast]
    omega)
  have hle := length_higher_le (p := p) hne
  rw [List.length_dropLast] at hle
  omega

/-- The segments that `quickSort` sorts, those at index 0 if `atZero`. -/
def SortsOk (atZero : Bool) (s : List Int) : Prop :=
  if h : 2 ≤ s.length then
    let p := s.getLast (List.ne_nil_of_length_pos (Nat.lt_of_lt_of_le Nat.zero_lt_two h))
    let x := s.dropLast
    x.count p ≤ 1 ∧ (∃ y ∈ x, p ≤ y) ∧ SortsOk atZero (lower p x) ∧ SortsOk false (higher p x)
  else s = [] → atZero = false
termination_by s.length
decreasing_by
  · exact length_lower_lt h
  · exact length_higher_lt h

theorem sortsOk_short {z : Bool} {s : List Int} (h : ¬ 2 ≤ s.length) :
    SortsOk z s ↔ (s = [] → z = false) := by
  rw [SortsOk, dif_neg h]

theorem sortsOk_snoc {z : Bool} {x : List Int} {p : Int} (hx : x ≠ []) :
    SortsOk z (x ++ [p]) ↔ x.count p ≤ 1 ∧ (∃ y ∈ x, p ≤ y) ∧ SortsOk z (lower p x) ∧
      SortsOk false (higher p x) := by
  have h : 2 ≤ (x ++ [p]).length := by
    have := List.length_pos_iff.2 hx
    rw [List.length_append, List.length_singleton]
    omega
  rw [SortsOk, dif_pos h]
  simp only [List.getLast_append_singleton, List.dropLast_concat]

/-! ## Calls -/

section
variable {A B s s' U V : List Int} {p e : Int} {r : Arr Int}

/-- The call for the segment `s` behind `A` returns `r`. -/
def Returns (A s B : List Int) (r : Arr Int) : Prop :=
  Ends (fun fuel => quickSort fuel ⟨0, A ++ (s ++ B)⟩ A.length (A.length + s.length - 1)) r

/-- What is known of the call for `s`. -/
structure Settled (A s B : List Int) : Prop where
  perm : ∀ r, Returns A s B r → ∃ s', r = ⟨0, A ++ (s' ++ B)⟩ ∧ s'.Perm s
  sorts : (∃ s', Returns A s B ⟨0, A ++ (s' ++ B)⟩ ∧ s'.Pairwise (· ≤ ·)) ↔ SortsOk A.isEmpty s

/-- A call that only reads its last element. -/
theorem returns_short (hs : s.length ≤ 1) (hget : ∃ v, (⟨0, A ++ (s ++ B)⟩ : Arr Int).get
    (A.length + s.length - 1) = .ok v) : Returns A s B r ↔ r = ⟨0, A ++ (s ++ B)⟩ := by
  obtain ⟨v, hv⟩ := hget
  have hno : ¬ (A.length : Int) < A.length + s.length - 1 := by omega
  rw [Returns, ← Ends.succ_iff]
  simp only [quickSort, hv, bind, Except.bind, if_neg hno]
  rw [Ends.const_iff]
  exact ⟨fun h => (Except.ok.inj h).symm, fun h => congrArg Except.ok h.symm⟩

theorem settled_nil : Settled A [] B := by
  cases A using List.reverseRecOn with
  | nil =>
    -- the element in front of the array is read
    have hnot : ∀ r, ¬ Returns [] [] B r := by
      intro r hr
      obtain ⟨n, hn, _⟩ := (Ends.succ_iff.2 hr).exists
      cases hn
    refine ⟨fun r hr => absurd hr (hnot r), ?_⟩
    rw [sortsOk_short (by simp)]
    refine ⟨fun h => ?_, fun h => absurd (h rfl) nofun⟩
    obtain ⟨s', hs', _⟩ := h
    exact absurd hs' (hnot _)
  | append_singleton A v =>
    have hshort : ∀ r, Returns (A ++ [v]) [] B r ↔ r = ⟨0, (A ++ [v]) ++ ([] ++ B)⟩ := fun r =>
      returns_short (by simp) ⟨v, by
        rw [List.append_assoc]
        exact get_at (by simp)⟩
    refine ⟨fun r hr => ⟨[], (hshort r).1 hr, List.Perm.refl _⟩, ?_⟩
    rw [sortsOk_short (by simp)]
    exact ⟨fun _ _ => by simp, fun _ => ⟨[], (hshort _).2 rfl, List.Pairwise.nil⟩⟩

theorem settled_single {x : Int} : Settled A [x] B := by
  have hshort : ∀ r, Returns A [x] B r ↔ r = ⟨0, A ++ ([x] ++ B)⟩ := fun r =>
    returns_short (by simp) ⟨x, get_at (by simp)⟩
  refine ⟨fun r hr => ⟨[x], (hshort r).1 hr, List.Perm.refl _⟩, ?_⟩
  rw [sortsOk_short (by simp)]
  exact ⟨fun _ => nofun, fun _ => ⟨[x], (hshort _).2 rfl, List.pairwise_singleton _ x⟩⟩

/-- A call of two elements or more. -/
theorem quickSort_ends_iff {a : Arr Int} {left right pivot : Int} (hget : a.get right = .ok pivot)
    (hlt : left < right) : Ends (fun fuel => quickSort fuel a left right) r ↔
      ∃ q, Ends (fun fuel => exchange pivot fuel a left (right - 1)) q ∧
        ∃ a₁, q.1.swap q.2 right = .ok a₁ ∧
          ∃ a₂, Ends (fun fuel => quickSort fuel a₁ left (q.2 - 1)) a₂ ∧
            Ends (fun fuel => quickSort fuel a₂ (q.2 + 1) right) r := by
  rw [← Ends.succ_iff]
  have hstep : (fun fuel => quickSort (fuel + 1) a left right) = fun fuel =>
      exchange pivot fuel a left (right - 1) >>= fun q => q.1.swap q.2 right >>= fun a₁ =>
        quickSort fuel a₁ left (q.2 - 1) >>= fun a₂ => quickSort fuel a₂ (q.2 + 1) right := by
    funext fuel
    simp only [quickSort, hget, if_pos hlt]
    rfl
  have hright : ∀ (q : Arr Int × Int) (a₁ : Arr Int), Steady fun fuel =>
      quickSort fuel a₁ left (q.2 - 1) >>= fun a₂ => quickSort fuel a₂ (q.2 + 1) right :=
    fun q a₁ => quickSort_steady.bind fun a₂ => quickSort_steady
  rw [hstep, Ends.bind_iff exchange_steady fun q => (Steady.const _).bind (hright q)]
  simp only [Ends.bind_iff (Steady.const _) (hright _), Ends.const_iff,
    Ends.bind_iff quickSort_steady fun _ => quickSort_steady]

/-- A call for `x` and the pivot. -/
theorem returns_snoc {x : List Int} (hx : x ≠ []) : Returns A (x ++ [p]) B r ↔
    ∃ q, Ends (fun fuel => exchange p fuel ⟨0, A ++ (x ++ p :: B)⟩ A.length
        (A.length + x.length - 1)) q ∧
      ∃ a₁, q.1.swap q.2 (A.length + x.length) = .ok a₁ ∧
        ∃ a₂, Ends (fun fuel => quickSort fuel a₁ A.length (q.2 - 1)) a₂ ∧
          Ends (fun fuel => quickSort fuel a₂ (q.2 + 1) (A.length + x.length)) r := by
  have hpos := List.length_pos_iff.2 hx
  have harr : A ++ (x ++ [p] ++ B) = A ++ (x ++ p :: B) := by simp
  have hright : (A.length : Int) + (x ++ [p]).length - 1 = A.length + x.length := by
    rw [List.length_append, List.length_singleton]
    omega
  have hget : (⟨0, A ++ (x ++ p :: B)⟩ : Arr Int).get (A.length + x.length) = .ok p := by
    rw [← List.append_assoc]
    exact get_at (by simp)
  rw [Returns, harr, hright]
  exact quickSort_ends_iff hget (by omega)

/-- A call where the loop ends at `e`: two calls, for the two sides of the pivot. -/
theorem returns_split {x : List Int} (hx : x ≠ [])
    (hloop : Ends (fun fuel => exchange p fuel ⟨0, A ++ (x ++ p :: B)⟩ A.length
      (A.length + x.length - 1)) (⟨0, (A ++ U) ++ e :: (V ++ p :: B)⟩, (A ++ U).length))
    (hlen : U.length + V.length + 1 = x.length) :
    Returns A (x ++ [p]) B r ↔ ∃ r₁, Returns A U (p :: (V ++ [e] ++ B)) r₁ ∧
      Ends (fun fuel => quickSort fuel r₁ (A.length + U.length + 1)
        (A.length + U.length + 1 + (V ++ [e]).length - 1)) r := by
  have hswap : (⟨0, (A ++ U) ++ e :: (V ++ p :: B)⟩ : Arr Int).swap (A ++ U).length
      (A.length + x.length) = .ok ⟨0, (A ++ U) ++ p :: (V ++ e :: B)⟩ :=
    swap_at (by simp) (by simp; omega)
  have harr : (A ++ U) ++ p :: (V ++ e :: B) = A ++ (U ++ p :: (V ++ [e] ++ B)) := by simp
  have hl : ((A ++ U).length : Int) = A.length + U.length := by simp
  have hr : (A.length : Int) + x.length = A.length + U.length + 1 + (V ++ [e]).length - 1 := by
    rw [List.length_append, List.length_singleton]
    omega
  rw [returns_snoc hx]
  simp only [Returns]
  rw [← harr, ← hr, ← hl]
  refine ⟨fun h => ?_, fun h => ⟨_, hloop, _, hswap, h⟩⟩
  obtain ⟨q, hq, a₁, ha₁, h⟩ := h
  cases hq.unique hloop
  cases hswap.symm.trans ha₁
  exact h

section
variable {x H : List Int} (hsplit : ∀ r, Returns A (x ++ [p]) B r ↔
  ∃ r₁, Returns A U (p :: (H ++ B)) r₁ ∧ Ends (fun fuel => quickSort fuel r₁
    (A.length + U.length + 1) (A.length + U.length + 1 + H.length - 1)) r)
variable (hU : Settled A U (p :: (H ++ B)))
variable (hH : ∀ U' : List Int, U'.Perm U → Settled (A ++ U' ++ [p]) H B)
include hsplit hU hH

/-- What a call returns comes from the calls for the two sides. -/
theorem returns_iff_sides : Returns A (x ++ [p]) B r ↔ ∃ U' H' : List Int,
    Returns A U (p :: (H ++ B)) ⟨0, A ++ (U' ++ p :: (H ++ B))⟩ ∧ U'.Perm U ∧
      Returns (A ++ U' ++ [p]) H B ⟨0, (A ++ U' ++ [p]) ++ (H' ++ B)⟩ ∧ H'.Perm H ∧
      r = ⟨0, A ++ ((U' ++ p :: H') ++ B)⟩ := by
  have hcall : ∀ {U' : List Int}, U'.Perm U → ∀ r, Ends (fun fuel => quickSort fuel
      ⟨0, A ++ (U' ++ p :: (H ++ B))⟩ (A.length + U.length + 1)
      (A.length + U.length + 1 + H.length - 1)) r ↔ Returns (A ++ U' ++ [p]) H B r := by
    intro U' hperm r
    have hlen : ((A ++ U' ++ [p]).length : Int) = A.length + U.length + 1 := by
      rw [List.length_append, List.length_append, hperm.length_eq]
      push_cast
      rfl
    have harr : A ++ (U' ++ p :: (H ++ B)) = (A ++ U' ++ [p]) ++ (H ++ B) := by simp
    rw [Returns, hlen, harr]
  have harr : ∀ U' H' : List Int,
      (A ++ U' ++ [p]) ++ (H' ++ B) = A ++ ((U' ++ p :: H') ++ B) := by simp
  rw [hsplit]
  refine ⟨fun h => ?_, fun h => ?_⟩
  · obtain ⟨r₁, hleft, hright⟩ := h
    obtain ⟨U', rfl, hpermU⟩ := hU.perm r₁ hleft
    have hright := (hcall hpermU r).1 hright
    obtain ⟨H', rfl, hpermH⟩ := (hH U' hpermU).perm r hright
    exact ⟨U', H', hleft, hpermU, hright, hpermH, by rw [harr]⟩
  · obtain ⟨U', H', hleft, hpermU, hright, _, rfl⟩ := h
    rw [harr] at hright
    exact ⟨_, hleft, (hcall hpermU _).2 hright⟩

theorem returns_perm (hperm : (U ++ H).Perm x) (hr : Returns A (x ++ [p]) B r) :
    ∃ s', r = ⟨0, A ++ (s' ++ B)⟩ ∧ s'.Perm (x ++ [p]) := by
  obtain ⟨U', H', _, hpermU, _, hpermH, rfl⟩ := (returns_iff_sides hsplit hU hH).1 hr
  refine ⟨_, rfl, ?_⟩
  have hmid : (U' ++ p :: H').Perm (p :: (U ++ H)) :=
    List.perm_middle.trans ((hpermU.append hpermH).cons p)
  exact hmid.trans ((hperm.cons p).trans (List.perm_append_singleton p x).symm)

/-- The segment is sorted when both sides are, and are on the right side. -/
theorem sorts_iff_sides : (∃ s', Returns A (x ++ [p]) B ⟨0, A ++ (s' ++ B)⟩ ∧
      s'.Pairwise (· ≤ ·)) ↔
    ((∀ u ∈ U, u ≤ p) ∧ ∀ v ∈ H, p ≤ v) ∧ SortsOk A.isEmpty U ∧ SortsOk false H := by
  have hsides := fun r => returns_iff_sides (r := r) hsplit hU hH
  have hfirst : ∀ U' : List Int, (A ++ U' ++ [p]).isEmpty = false := by simp
  refine ⟨fun h => ?_, fun h => ?_⟩
  · obtain ⟨s', hs', hsorted⟩ := h
    obtain ⟨U', H', hleft, hpermU, hright, hpermH, heq⟩ := (hsides _).1 hs'
    have heq : s' = U' ++ p :: H' :=
      List.append_cancel_right (List.append_cancel_left (Arr.mk.inj heq).2)
    rw [heq] at hsorted
    obtain ⟨hsortU, hsortH, hcross⟩ := List.pairwise_append.1 hsorted
    obtain ⟨hbelow, hsortH⟩ := List.pairwise_cons.1 hsortH
    refine ⟨⟨fun u hu => ?_, fun v hv => ?_⟩, ?_, ?_⟩
    · exact hcross u (hpermU.mem_iff.2 hu) p List.mem_cons_self
    · exact hbelow v (hpermH.mem_iff.2 hv)
    · exact hU.sorts.1 ⟨U', hleft, hsortU⟩
    · rw [← hfirst U']
      exact (hH U' hpermU).sorts.1 ⟨H', hright, hsortH⟩
  · obtain ⟨⟨hlow, hhigh⟩, hokU, hokH⟩ := h
    obtain ⟨U', hleft, hsortU⟩ := hU.sorts.2 hokU
    obtain ⟨s', heq, hpermU⟩ := hU.perm _ hleft
    have heq : U' = s' := List.append_cancel_right (List.append_cancel_left (Arr.mk.inj heq).2)
    subst heq
    rw [← hfirst U'] at hokH
    obtain ⟨H', hright, hsortH⟩ := (hH U' hpermU).sorts.2 hokH
    obtain ⟨s', heq, hpermH⟩ := (hH U' hpermU).perm _ hright
    have heq : H' = s' := List.append_cancel_right (List.append_cancel_left (Arr.mk.inj heq).2)
    subst heq
    refine ⟨U' ++ p :: H', (hsides _).2 ⟨U', H', hleft, hpermU, hright, hpermH, rfl⟩, ?_⟩
    have hlow : ∀ u ∈ U', u ≤ p := fun u hu => hlow u (hpermU.mem_iff.1 hu)
    have hhigh : ∀ v ∈ H', p ≤ v := fun v hv => hhigh v (hpermH.mem_iff.1 hv)
    refine List.pairwise_append.2 ⟨hsortU, List.pairwise_cons.2 ⟨hhigh, hsortH⟩,
      fun u hu v hv => ?_⟩
    cases List.mem_cons.1 hv with
    | inl he => exact he ▸ hlow u hu
    | inr hv => exact (hlow u hu).trans (hhigh v hv)

end

/-- **Every call**: what it does is known from the segment. -/
theorem settled : ∀ (n : Nat) {A s B : List Int}, s.length ≤ n → Settled A s B
  | n, A, [], B, _ => settled_nil
  | n, A, [x], B, _ => settled_single
  | 0, A, y :: z :: s, B, hn => absurd hn (Nat.not_succ_le_zero _)
  | n + 1, A, y :: z :: s, B, hn => by
    obtain ⟨x, p, hsnoc⟩ : ∃ x p, y :: z :: s = x ++ [p] :=
      ⟨_, _, (List.dropLast_append_getLast (List.cons_ne_nil y (z :: s))).symm⟩
    have hlen := congrArg List.length hsnoc
    rw [hsnoc] at hn ⊢
    simp only [List.length_append, List.length_cons, List.length_nil] at hlen hn
    have hx : x ≠ [] := List.ne_nil_of_length_pos (by omega)
    by_cases hcount : x.count p ≤ 1
    · by_cases hex : ∃ y ∈ x, p ≤ y
      · -- the elements come to their sides
        obtain ⟨hlow, hhigh, hperm⟩ := sides_spec hcount hex
        have hlenp := hperm.length_eq
        rw [higher, ← List.append_assoc, List.length_append, List.length_append,
          List.length_singleton] at hlenp
        have hsplit := fun r => returns_split (r := r) (A := A) (B := B) hx
          (exchange_sides (L := A) (R := p :: B) hcount hex) (by omega)
        have hU : Settled A (lower p x) (p :: (higher p x ++ B)) := settled n (by omega)
        have hH : ∀ U' : List Int, U'.Perm (lower p x) → Settled (A ++ U' ++ [p]) (higher p x) B :=
          fun U' _ => settled n (by
            rw [higher, List.length_append, List.length_singleton]
            omega)
        refine ⟨fun r hr => returns_perm hsplit hU hH hperm hr, ?_⟩
        rw [sorts_iff_sides hsplit hU hH, sortsOk_snoc hx]
        exact ⟨fun h => ⟨hcount, hex, h.2⟩, fun h => ⟨⟨fun u hu => (hlow u hu).le, hhigh⟩, h.2.2⟩⟩
      · -- all are smaller: the last of them comes behind the pivot
        have hall : ∀ u ∈ x, u < p := fun u hu => not_le.1 fun hc => hex ⟨u, hu, hc⟩
        obtain ⟨Y, y, rfl⟩ : ∃ Y y, x = Y ++ [y] :=
          ⟨_, _, (List.dropLast_append_getLast hx).symm⟩
        rw [List.length_append, List.length_singleton] at hn
        have hsplit := fun r => returns_split (r := r) (A := A) (B := B) (V := []) hx
          (exchange_all (L := A) (R := p :: B) hall) (by simp)
        have hU : Settled A Y (p :: ([y] ++ B)) := settled n (by omega)
        have hH : ∀ U' : List Int, U'.Perm Y → Settled (A ++ U' ++ [p]) [y] B :=
          fun U' _ => settled_single
        refine ⟨fun r hr => returns_perm hsplit hU hH (List.Perm.refl _) hr, ?_⟩
        have hy : ¬ p ≤ y := not_le.2 (hall y (by simp))
        have hbad := sorts_iff_sides hsplit hU hH
        simp only [List.nil_append, List.mem_singleton, forall_eq, hy, and_false, false_and,
          iff_false] at hbad
        exact ⟨fun h => absurd h hbad, fun h => absurd ((sortsOk_snoc hx).1 h).2.1 hex⟩
    · -- the loop does not end
      have hnot : ∀ r, ¬ Returns A (x ++ [p]) B r := by
        intro r hr
        rw [returns_snoc hx] at hr
        obtain ⟨q, hq, _⟩ := hr
        obtain ⟨m, hm, _⟩ := hq.exists
        exact exchange_twice m (not_le.1 hcount) hm
      refine ⟨fun r hr => absurd hr (hnot r), fun h => ?_, fun h => ?_⟩
      · obtain ⟨s', hs', _⟩ := h
        exact absurd hs' (hnot _)
      · exact absurd ((sortsOk_snoc hx).1 h).1 hcount

end

/-- **Exactly when `quickSort` sorts**: where it returns, with the segment in order. -/
theorem quickSort_iff {a : List Int} {left right : Nat} (hle : left ≤ right)
    (hlen : right < a.length) :
    (∃ a' : List Int, Ends (fun fuel => quickSort fuel ⟨0, a⟩ left right) ⟨0, a'⟩ ∧
      Sorts (· ≤ ·) left right a a') ↔ SortsOk (decide (left = 0)) (segment a left right) := by
  obtain ⟨A, s, B, rfl, rfl, hs⟩ := segment_split hle hlen
  have hset := settled s.length (A := A) (s := s) (B := B) le_rfl
  have hright : (right : Int) = A.length + s.length - 1 := by omega
  have hzero : decide (A.length = 0) = A.isEmpty := by cases A <;> rfl
  rw [segment_append rfl hs, hzero, ← hset.sorts, hright]
  refine ⟨fun h => ?_, fun h => ?_⟩
  · obtain ⟨a', hends, hsorts⟩ := h
    obtain ⟨s', heq, hperm⟩ := hset.perm _ hends
    have heq : a' = A ++ (s' ++ B) := (Arr.mk.inj heq).2
    subst heq
    have hsorted := hsorts.sorted
    rw [segment_append rfl (by rw [hperm.length_eq, hs])] at hsorted
    exact ⟨s', hends, hsorted⟩
  · obtain ⟨s', hends, hsorted⟩ := h
    obtain ⟨s'', heq, hperm⟩ := hset.perm _ hends
    have heq : s' = s'' := List.append_cancel_right (List.append_cancel_left (Arr.mk.inj heq).2)
    subst heq
    exact ⟨_, hends, Sorts.of_split rfl hs hperm hsorted⟩

theorem quickSort_four : ∃ a' : List Int,
    Ends (fun fuel => quickSort fuel ⟨0, [2, 1, 0, 1]⟩ (0 : Nat) (3 : Nat)) ⟨0, a'⟩ ∧
      Sorts (· ≤ ·) 0 3 [2, 1, 0, 1] a' := by
  refine (quickSort_iff (by decide) (by decide)).2 ?_
  show SortsOk true ([2, 1, 0] ++ [1])
  refine (sortsOk_snoc (x := [2, 1, 0]) (p := 1) nofun).2
    ⟨by decide, ⟨2, by decide, by decide⟩, ?_, ?_⟩
  · show SortsOk true [0]
    exact (sortsOk_short (by decide)).2 nofun
  · show SortsOk false ([2] ++ [1])
    refine (sortsOk_snoc (x := [2]) (p := 1) nofun).2
      ⟨by decide, ⟨2, by decide, by decide⟩, ?_, ?_⟩
    · exact (sortsOk_short (by decide)).2 fun _ => rfl
    · exact (sortsOk_short (by decide)).2 fun _ => rfl

/-- An ascending array is left in disorder. -/
theorem quickSort_wrong : ¬ ∀ (a : List Int) (left right : Nat), left ≤ right → right < a.length →
    ∃ a' : List Int, Ends (fun fuel => quickSort fuel ⟨0, a⟩ left right) ⟨0, a'⟩ ∧
      Sorts (· ≤ ·) left right a a' := by
  intro h
  obtain ⟨a', hends, hsorts⟩ := h [1, 2, 3] 0 2 (by decide) (by decide)
  have hrun : quickSort 9 ⟨0, [1, 2, 3]⟩ (0 : Nat) (2 : Nat) = .ok ⟨0, [1, 3, 2]⟩ := by rfl
  cases quickSort_steady.eq hends hrun
  exact absurd hsorts.sorted (by decide)

end QuickSort
