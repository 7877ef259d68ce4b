import DsAlgor.Lib.CInt
import DsAlgor.Lib.Signed

/-!
# `nutsAndBolts.cpp`

The class `Comparator` is not part of the source; `Lawful` is what its comment says. The test in the
loop of `partition` asks both ways round, so it sees the sizes whichever of the two is the nut
(`Lawful.sees`). The pivot's match comes to the front of the segment, where it is not looked at
again; so `partition` takes both vectors apart at the same index (`partition_ends`).

The last index is an `int`: with 2^31 elements the loop over a segment has no end, with more the
elements from `called` on are left as they are (`sortNutsAndBolts_iff`).
-/

namespace NutsAndBolts

open Checked
open Signed (Undefined access add intMax)

/-- The documented class. -/
structure Comparator (S : Type) where
  cmp : S → S → Int

section
variable {S : Type} (c : Comparator S)

/-- The loop of `partition`: the final `m` and the vector. -/
def partitionLoop (pivot : S) (l u : Int) :
    Nat → Int → Int → Arr S → Except Undefined (Int × Arr S)
  | 0, _, _, _ => .error (.fault .loop)
  | fuel + 1, m, i, str => do
    if i ≤ u then
      let x ← access (str.get i)
      if c.cmp x pivot = -1 ∨ c.cmp pivot x = 1 then
        let m := m + 1
        let str ← access (str.swap m i)
        partitionLoop pivot l u fuel m (← add i 1) str
      else if c.cmp x pivot = 0 ∨ c.cmp pivot x = 0 then
        let str ← access (str.swap i l)
        let i := i - 1
        partitionLoop pivot l u fuel m (← add i 1) str
      else partitionLoop pivot l u fuel m (← add i 1) str
    else return (m, str)

def partition (fuel : Nat) (str : Arr S) (pivot : S) (l u : Int) :
    Except Undefined (Int × Arr S) := do
  let (m, str) ← partitionLoop c pivot l u fuel l (l + 1) str
  return (m, ← access (str.swap m l))

def qsort : Nat → Arr S → Arr S → Int → Int → Except Undefined (Arr S × Arr S)
  | 0, _, _, _, _ => .error (.fault .loop)
  | fuel + 1, nuts, bolts, l, u => do
    if l ≥ u then return (nuts, bolts)
    else
      let (part_inx, nuts) ← partition c fuel nuts (← access (bolts.get l)) l u
      let (_, bolts) ← partition c fuel bolts (← access (nuts.get part_inx)) l u
      let (nuts, bolts) ← qsort fuel nuts bolts l (part_inx - 1)
      qsort fuel nuts bolts (part_inx + 1) u

/-- The vectors behind the call. -/
def sortNutsAndBolts (fuel : Nat) (nuts bolts : List S) : Except Undefined (List S × List S) := do
  if nuts = [] ∨ bolts = [] then return (nuts, bolts)
  else if nuts.length ≠ bolts.length then return (nuts, bolts)
  else
    let (nuts', bolts') ← qsort c fuel ⟨0, nuts⟩ ⟨0, bolts⟩ 0 (int32 (nuts.length - 1))
    return (nuts'.elems, bolts'.elems)

end

/-! ## What the comparator tells -/

section
variable {S α : Type} [LinearOrder α]

/-- What the comment says about `cmp`. -/
structure Comparator.Lawful (c : Comparator S) (isNut isBolt : S → Prop) (size : S → α) : Prop where
  bigger : ∀ a b, isNut a → isBolt b → size b < size a → c.cmp a b = 1
  equal : ∀ a b, isNut a → isBolt b → size a = size b → c.cmp a b = 0
  smaller : ∀ a b, isNut a → isBolt b → size a < size b → c.cmp a b = -1
  invalid : ∀ a b, ¬ (isNut a ∧ isBolt b) → c.cmp a b = 2

/-- The tests in the loop compare the sizes. -/
structure Sees (c : Comparator S) (size : S → α) (pivot x : S) : Prop where
  less : c.cmp x pivot = -1 ∨ c.cmp pivot x = 1 ↔ size x < size pivot
  equal : c.cmp x pivot = 0 ∨ c.cmp pivot x = 0 ↔ size x = size pivot

variable {c : Comparator S} {isNut isBolt : S → Prop} {size : S → α} {pivot x : S}

/-- Asked in one order, `cmp` gives the answer or none. -/
theorem Comparator.Lawful.valid (law : c.Lawful isNut isBolt size) {a b : S} :
    (c.cmp a b = 1 → size b < size a) ∧ (c.cmp a b = 0 → size a = size b) ∧
      (c.cmp a b = -1 → size a < size b) := by
  by_cases h : isNut a ∧ isBolt b
  · obtain ⟨ha, hb⟩ := h
    rcases lt_trichotomy (size a) (size b) with hlt | heq | hgt
    · rw [law.smaller a b ha hb hlt]
      exact ⟨nofun, nofun, fun _ => hlt⟩
    · rw [law.equal a b ha hb heq]
      exact ⟨nofun, fun _ => heq, nofun⟩
    · rw [law.bigger a b ha hb hgt]
      exact ⟨fun _ => hgt, nofun, nofun⟩
  · rw [law.invalid a b h]
    exact ⟨nofun, nofun, nofun⟩

theorem Comparator.Lawful.sees (law : c.Lawful isNut isBolt size)
    (h : isNut x ∧ isBolt pivot ∨ isNut pivot ∧ isBolt x) : Sees c size pivot x := by
  obtain ⟨hgt, heq, hlt⟩ := law.valid (a := x) (b := pivot)
  obtain ⟨hgt', heq', hlt'⟩ := law.valid (a := pivot) (b := x)
  refine ⟨⟨fun hc => hc.elim hlt hgt', fun hsize => ?_⟩,
    ⟨fun hc => hc.elim heq fun hc => (heq' hc).symm, fun hsize => ?_⟩⟩
  · cases h with
    | inl h => exact .inl (law.smaller x pivot h.1 h.2 hsize)
    | inr h => exact .inr (law.bigger pivot x h.1 h.2 hsize)
  · cases h with
    | inl h => exact .inl (law.equal x pivot h.1 h.2 hsize)
    | inr h => exact .inr (law.equal pivot x h.1 h.2 hsize.symm)

/-! ## `partition` -/

variable {A L G T R : List S} {h : S} {m i l u : Int}

/-- The next element. -/
theorem get_next (hl : l = A.length) (hm : m = l + L.length) (hi : i = m + 1 + G.length) :
    (⟨0, A ++ h :: (L ++ (G ++ (x :: T ++ R)))⟩ : Arr S).get i = .ok x := by
  have harr : A ++ h :: (L ++ (G ++ (x :: T ++ R))) = (A ++ h :: (L ++ G)) ++ x :: (T ++ R) := by
    simp
  rw [harr]
  refine get_at ?_
  simp only [List.length_append, List.length_cons]
  omega

theorem partitionLoop_less (hl : l = A.length) (hm : m = l + L.length)
    (hi : i = m + 1 + G.length) (hu : i ≤ u) (hfit : u < intMax) (hsees : Sees c size pivot x)
    (hx : size x < size pivot) : ∃ G', G'.Perm G ∧ ∀ r,
    Ends (fun fuel => partitionLoop c pivot l u fuel (m + 1) (i + 1)
      ⟨0, A ++ h :: ((L ++ [x]) ++ (G' ++ (T ++ R)))⟩) r →
    Ends (fun fuel => partitionLoop c pivot l u fuel m i
      ⟨0, A ++ h :: (L ++ (G ++ (x :: T ++ R)))⟩) r := by
  obtain ⟨G', hswap, _, hperm⟩ := swap_behind (f := 0) (A := A ++ h :: L) (B := G) (C := T ++ R)
    (x := x) (i := m + 1) (j := i) (by simp only [List.length_append, List.length_cons]; omega) hi
  have hget := get_next (h := h) (x := x) (T := T) (R := R) hl hm hi
  refine ⟨G', hperm, fun r hr => ?_⟩
  have harr : A ++ h :: (L ++ (G ++ (x :: T ++ R))) = (A ++ h :: L) ++ (G ++ x :: (T ++ R)) := by
    simp
  have hnext : (A ++ h :: L) ++ x :: (G' ++ (T ++ R)) =
      A ++ h :: ((L ++ [x]) ++ (G' ++ (T ++ R))) := by
    simp
  rw [harr] at hget
  rw [hnext] at hswap
  rw [harr]
  have hnext : add i 1 = .ok (i + 1) :=
    Signed.add_ok (by omega) Int.one_nonneg (by omega)
  apply Ends.succ
  simp only [partitionLoop, if_pos hu, hget, Signed.access_ok, Signed.ok_bind,
    if_pos (hsees.less.2 hx), hswap, hnext]
  exact hr

theorem partitionLoop_greater (hl : l = A.length) (hm : m = l + L.length)
    (hi : i = m + 1 + G.length) (hu : i ≤ u) (hfit : u < intMax) (hsees : Sees c size pivot x)
    (hx : size pivot < size x) {r : Int × Arr S}
    (hr : Ends (fun fuel => partitionLoop c pivot l u fuel m (i + 1)
      ⟨0, A ++ h :: (L ++ ((G ++ [x]) ++ (T ++ R)))⟩) r) :
    Ends (fun fuel => partitionLoop c pivot l u fuel m i
      ⟨0, A ++ h :: (L ++ (G ++ (x :: T ++ R)))⟩) r := by
  have hget := get_next (h := h) (x := x) (T := T) (R := R) hl hm hi
  have hless : ¬ (c.cmp x pivot = -1 ∨ c.cmp pivot x = 1) := fun hc =>
    lt_asymm hx (hsees.less.1 hc)
  have hequal : ¬ (c.cmp x pivot = 0 ∨ c.cmp pivot x = 0) := fun hc =>
    hx.ne' (hsees.equal.1 hc)
  have hnext : add i 1 = .ok (i + 1) :=
    Signed.add_ok (by omega) Int.one_nonneg (by omega)
  apply Ends.succ
  simp only [partitionLoop, if_pos hu, hget, Signed.access_ok, Signed.ok_bind, if_neg hless,
    if_neg hequal, hnext]
  simpa using hr

/-- The pivot's match changes places with the first element, which is looked at next. -/
theorem partitionLoop_equal (hl : l = A.length) (hm : m = l + L.length)
    (hi : i = m + 1 + G.length) (hu : i ≤ u) (hfit : u < intMax) (hsees : Sees c size pivot x)
    (hx : size x = size pivot) {r : Int × Arr S}
    (hr : Ends (fun fuel => partitionLoop c pivot l u fuel m i
      ⟨0, A ++ x :: (L ++ (G ++ (h :: T ++ R)))⟩) r) :
    Ends (fun fuel => partitionLoop c pivot l u fuel m i
      ⟨0, A ++ h :: (L ++ (G ++ (x :: T ++ R)))⟩) r := by
  have hget := get_next (h := h) (x := x) (T := T) (R := R) hl hm hi
  have hswap := swap_at_rev (f := 0) (A := A) (B := L ++ G) (C := T ++ R) (x := h) (y := x)
    (i := l) (j := i) (by omega) (by rw [List.length_append]; omega)
  have harr : ∀ y z, A ++ y :: (L ++ (G ++ (z :: T ++ R))) =
      A ++ y :: ((L ++ G) ++ z :: (T ++ R)) := by
    simp
  have hless : ¬ (c.cmp x pivot = -1 ∨ c.cmp pivot x = 1) := fun hc => hx.not_lt (hsees.less.1 hc)
  rw [harr] at hget hr
  rw [harr]
  have hnext : add (i - 1) 1 = .ok i := by
    rw [Signed.add_ok (by omega) Int.one_nonneg (by omega), Int.sub_add_cancel]
  apply Ends.succ
  simp only [partitionLoop, if_pos hu, hget, Signed.access_ok, Signed.ok_bind, if_neg hless,
    if_pos (hsees.equal.2 hx), hswap, hnext]
  exact hr

/-- What the loop has not looked at yet, with the first element of the segment: one of them is the
pivot's match. -/
structure Pending (c : Comparator S) (size : S → α) (pivot : S) (l : List S) : Prop where
  sees : ∀ x ∈ l, Sees c size pivot x
  nodup : (l.map size).Nodup
  fits : ∃ x ∈ l, size x = size pivot

theorem Pending.ne (h' : Pending c size pivot (h :: x :: T)) : size x ≠ size h := by
  intro heq
  exact (List.nodup_cons.1 h'.nodup).1 (by simp [← heq])

/-- An element that is not the match has been looked at. -/
theorem Pending.skip (h' : Pending c size pivot (h :: x :: T)) (hx : size x ≠ size pivot) :
    Pending c size pivot (h :: T) where
  sees y hy := h'.sees y ((List.Sublist.cons_cons h (List.sublist_cons_self x T)).subset hy)
  nodup := h'.nodup.sublist
    (List.Sublist.map size (List.Sublist.cons_cons h (List.sublist_cons_self x T)))
  fits := by
    obtain ⟨y, hy, hsize⟩ := h'.fits
    have hyx : y ≠ x := fun heq => hx (heq ▸ hsize)
    refine ⟨y, ?_, hsize⟩
    simp only [List.mem_cons] at hy ⊢
    exact hy.imp_right fun hy => hy.resolve_left hyx

theorem Pending.swap (h' : Pending c size pivot (h :: x :: T)) :
    Pending c size pivot (x :: h :: T) where
  sees y hy := h'.sees y ((List.Perm.swap h x T).mem_iff.1 hy)
  nodup := (List.Perm.map size (List.Perm.swap x h T)).nodup_iff.1 h'.nodup
  fits := by
    obtain ⟨y, hy, hsize⟩ := h'.fits
    exact ⟨y, (List.Perm.swap h x T).mem_iff.2 hy, hsize⟩

/-- `L` is smaller than the pivot, `G` is greater, `T` is to come, and the pivot's match is `h` or
in `T`. Each round makes `T` shorter or brings the match to the front. -/
theorem partitionLoop_ends (n : Nat)
    (hn : 2 * T.length + (if size h = size pivot then 0 else 1) ≤ n) (hl : l = A.length)
    (hm : m = l + L.length) (hi : i = m + 1 + G.length)
    (hu : u + 1 = i + T.length) (hfit : u < intMax) (hpending : Pending c size pivot (h :: T))
    (hL : ∀ x ∈ L, size x < size pivot) (hG : ∀ x ∈ G, size pivot < size x) :
    ∃ (h' : S) (L' G' : List S),
    Ends (fun fuel => partitionLoop c pivot l u fuel m i ⟨0, A ++ h :: (L ++ (G ++ (T ++ R)))⟩)
      (l + L'.length, ⟨0, A ++ h' :: (L' ++ (G' ++ R))⟩) ∧
    size h' = size pivot ∧ (∀ x ∈ L', size x < size pivot) ∧ (∀ x ∈ G', size pivot < size x) ∧
    (h' :: (L' ++ G')).Perm (h :: (L ++ (G ++ T))) := by
  induction n using Nat.strong_induction_on generalizing h L G T m i with
  | _ n ih =>
    cases T with
    | nil =>
      obtain ⟨x, hx, hsize⟩ := hpending.fits
      obtain rfl := List.mem_singleton.1 hx
      refine ⟨x, L, G, ?_, hsize, hL, hG, by simp⟩
      have hstop : ¬ i ≤ u := by
        rw [List.length_nil] at hu
        omega
      apply Ends.succ
      simp only [partitionLoop, if_neg hstop, hm]
      exact Ends.pure _
    | cons x T =>
      rw [List.length_cons] at hn hu
      have hgo : i ≤ u := by omega
      have hsees : Sees c size pivot x := hpending.sees x (by simp)
      rcases lt_trichotomy (size x) (size pivot) with hlt | heq | hgt
      · obtain ⟨G', hperm, hstep⟩ := partitionLoop_less (A := A) (h := h) (T := T) (R := R)
          hl hm hi hgo hfit hsees hlt
        have hlen := hperm.length_eq
        obtain ⟨h', L', G'', hends, hh, hL', hG', hall⟩ := @ih (n - 2) (by omega) (L ++ [x])
          G' T h (m + 1) (i + 1) (by omega)
          (by rw [List.length_append, List.length_singleton]; omega) (by omega) (by omega)
          (hpending.skip hlt.ne) (List.forall_mem_append.2 ⟨hL, by simpa using hlt⟩)
          fun y hy => hG y (hperm.mem_iff.1 hy)
        refine ⟨h', L', G'', hstep _ hends, hh, hL', hG', hall.trans (List.Perm.cons h ?_)⟩
        rw [List.append_assoc]
        refine List.Perm.append_left L ?_
        exact ((hperm.append_right T).cons x).trans List.perm_middle.symm
      · have hhead : size h ≠ size pivot := fun hh => hpending.ne (heq.trans hh.symm)
        rw [if_neg hhead] at hn
        obtain ⟨h', L', G', hends, hh, hL', hG', hall⟩ := @ih (n - 1) (by omega) L G (h :: T) x m i
          (by rw [if_pos heq, List.length_cons]; omega) hm hi
          (by rw [List.length_cons]; omega) hpending.swap hL hG
        refine ⟨h', L', G', partitionLoop_equal hl hm hi hgo hfit hsees heq hends, hh, hL', hG',
          hall.trans ?_⟩
        have hmiddle : ∀ y, (L ++ (G ++ y :: T)).Perm (y :: (L ++ (G ++ T))) := fun y =>
          (List.Perm.append_left L List.perm_middle).trans List.perm_middle
        exact ((hmiddle h).cons x).trans
          ((List.Perm.swap h x _).trans ((hmiddle x).symm.cons h))
      · obtain ⟨h', L', G', hends, hh, hL', hG', hall⟩ := @ih (n - 2) (by omega) L
          (G ++ [x]) T h m (i + 1) (by omega) hm
          (by rw [List.length_append, List.length_singleton]; omega) (by omega)
          (hpending.skip hgt.ne') hL (List.forall_mem_append.2 ⟨hG, by simpa using hgt⟩)
        refine ⟨h', L', G', partitionLoop_greater hl hm hi hgo hfit hsees hgt hends, hh, hL',
          hG', ?_⟩
        simpa using hall

/-- The first element comes behind the smaller ones. -/
theorem swap_front (hl : l = A.length) (hm : m = l + L.length) : ∃ L',
    (⟨0, A ++ h :: (L ++ R)⟩ : Arr S).swap m l = .ok ⟨0, A ++ (L' ++ h :: R)⟩ ∧ L'.Perm L := by
  rcases List.eq_nil_or_concat' L with rfl | ⟨L, y, rfl⟩
  · obtain rfl : m = l := by simpa using hm
    exact ⟨[], swap_self (by omega), List.Perm.refl _⟩
  · have hswap := swap_at_rev (f := 0) (A := A) (B := L) (C := R) (x := h) (y := y)
      (i := l) (j := m) (by omega) (by rw [List.length_append, List.length_singleton] at hm; omega)
    refine ⟨y :: L, ?_, (List.perm_append_singleton y L).symm⟩
    simpa using hswap

theorem partition_ends (c : Comparator S) (size : S → α) (pivot : S) {s : List S}
    (hl : l = A.length) (hu : u + 1 = l + s.length) (hfit : u < intMax)
    (hsees : ∀ x ∈ s, Sees c size pivot x)
    (hnd : (s.map size).Nodup)
    (hmatch : ∃ x ∈ s, size x = size pivot) : ∃ (L G : List S) (h : S),
    Ends (fun fuel => partition c fuel ⟨0, A ++ (s ++ R)⟩ pivot l u)
      (l + L.length, ⟨0, A ++ (L ++ h :: (G ++ R))⟩) ∧
    size h = size pivot ∧ (∀ x ∈ L, size x < size pivot) ∧ (∀ x ∈ G, size pivot < size x) ∧
    (L ++ h :: G).Perm s := by
  cases s with
  | nil =>
    obtain ⟨x, hx, _⟩ := hmatch
    exact absurd hx List.not_mem_nil
  | cons h T =>
    have hu' : u + 1 = l + 1 + T.length := by
      rw [List.length_cons] at hu
      omega
    obtain ⟨h', L, G, hends, hh, hL, hG, hperm⟩ := partitionLoop_ends (A := A) (R := R) (L := [])
      (G := []) (m := l) (i := l + 1) _ le_rfl hl (by simp) (by simp) hu' hfit
      ⟨hsees, hnd, hmatch⟩ nofun nofun
    obtain ⟨L', hswap, hLL'⟩ := swap_front (h := h') (R := G ++ R) (L := L) hl rfl
    refine ⟨L', G, h', ?_, hh, fun x hx => hL x (hLL'.mem_iff.1 hx), hG, ?_⟩
    · rw [hLL'.length_eq]
      apply hends.bind
      simp only [hswap, Signed.access_ok, Signed.ok_bind]
      exact Ends.pure _
    · exact (List.perm_middle.trans ((hLL'.append_right G).cons h')).trans hperm

end

/-! ## Both vectors -/

section
variable {S α : Type} [LinearOrder α] {c : Comparator S} {isNut isBolt : S → Prop} {size : S → α}
  {A A' R R' N B : List S} {l u : Int}

/-- The elements on the two sides of `h`, as their sizes tell them. -/
theorem filter_sides {L G : List S} {h : S} {p : α} (hh : size h = p) (hL : ∀ x ∈ L, size x < p)
    (hG : ∀ x ∈ G, p < size x) :
    ((L ++ h :: G).map size).filter (· < p) = L.map size ∧
      ((L ++ h :: G).map size).filter (p < ·) = G.map size := by
  have hin : ∀ (f : α → Bool) (M : List S), (∀ x ∈ M, f (size x) = true) →
      (M.map size).filter f = M.map size := fun f M hM => List.filter_eq_self.2 (by simpa using hM)
  have hout : ∀ (f : α → Bool) (M : List S), (∀ x ∈ M, f (size x) = false) →
      (M.map size).filter f = [] := fun f M hM => List.filter_eq_nil_iff.2 (by simpa using hM)
  simp only [List.map_append, List.map_cons, List.filter_append]
  constructor
  · rw [hin _ L fun x hx => decide_eq_true (hL x hx), List.filter_cons_of_neg (by simp [hh]),
      hout _ G fun x hx => decide_eq_false (hG x hx).le.not_gt, List.append_nil]
  · rw [hout _ L fun x hx => decide_eq_false (hL x hx).le.not_gt,
      List.filter_cons_of_neg (by simp [hh]), hin _ G fun x hx => decide_eq_true (hG x hx),
      List.nil_append]

/-- The sizes are in ascending order. -/
def Ascending (size : S → α) (l : List S) : Prop := l.Pairwise fun a b => size a < size b

theorem ascending_short : ∀ {l : List S}, l.length ≤ 1 → Ascending size l
  | [], _ => List.Pairwise.nil
  | [x], _ => List.pairwise_singleton _ x

/-- What a partition of `N` leaves: `L` and `G` on the two sides of `h`. -/
structure Sides (size : S → α) (N L : List S) (h : S) (G : List S) : Prop where
  perm : (L ++ h :: G).Perm N
  low : ∀ x ∈ L, size x < size h
  high : ∀ x ∈ G, size h < size x

section
variable {L G L' G' L₂ G₂ : List S} {h h₂ : S}

theorem Sides.length (hs : Sides size N L h G) : L.length + G.length + 1 = N.length := by
  rw [← hs.perm.length_eq, List.length_append, List.length_cons]
  rfl

theorem Sides.nodup (hs : Sides size N L h G) (hnd : (N.map size).Nodup) :
    (L.map size).Nodup ∧ (G.map size).Nodup := by
  have hndN : ((L ++ h :: G).map size).Nodup := (hs.perm.map size).nodup_iff.2 hnd
  rw [List.map_append, List.map_cons] at hndN
  obtain ⟨hndL, hndG, -⟩ := List.nodup_append.1 hndN
  exact ⟨hndL, (List.nodup_cons.1 hndG).2⟩

/-- Vectors with the same sizes have the same sizes on the two sides of elements that fit. -/
theorem Sides.same (hs : Sides size N L h G) (hs₂ : Sides size B L₂ h₂ G₂)
    (hh : size h₂ = size h) (hsame : (N.map size).Perm (B.map size)) :
    (L.map size).Perm (L₂.map size) ∧ (G.map size).Perm (G₂.map size) := by
  have hsides : ((L ++ h :: G).map size).Perm ((L₂ ++ h₂ :: G₂).map size) :=
    ((hs.perm.map size).trans hsame).trans (hs₂.perm.map size).symm
  obtain ⟨hlow, hhigh⟩ := filter_sides rfl hs.low hs.high
  obtain ⟨hlow₂, hhigh₂⟩ := filter_sides hh (hh ▸ hs₂.low) (hh ▸ hs₂.high)
  exact ⟨hlow ▸ hlow₂ ▸ hsides.filter (· < size h), hhigh ▸ hhigh₂ ▸ hsides.filter (size h < ·)⟩

theorem Sides.sorted (hs : Sides size N L h G) (hperm : L'.Perm L) (hperm' : G'.Perm G)
    (hasc : Ascending size L') (hasc' : Ascending size G') :
    (L' ++ h :: G').Perm N ∧ Ascending size (L' ++ h :: G') := by
  have hlow : ∀ x ∈ L', size x < size h := fun x hx => hs.low x (hperm.mem_iff.1 hx)
  have hhigh : ∀ x ∈ G', size h < size x := fun x hx => hs.high x (hperm'.mem_iff.1 hx)
  refine ⟨(hperm.append (hperm'.cons h)).trans hs.perm,
    List.pairwise_append.2 ⟨hasc, List.pairwise_cons.2 ⟨hhigh, hasc'⟩, fun x hx y hy => ?_⟩⟩
  cases List.mem_cons.1 hy with
  | inl heq => exact heq ▸ hlow x hx
  | inr hy => exact (hlow x hx).trans (hhigh y hy)

end

/-- The two partitions of a call. The pivot of the second is the nut that the first one found, and
both stand at the same index. -/
theorem partitions_end (R R' : List S) {b : S} (law : c.Lawful isNut isBolt size)
    (hl : l = A.length) (hl' : l = A'.length) (hu : u + 1 = l + N.length) (hfit : u < intMax)
    (hnuts : ∀ x ∈ N, isNut x) (hbolts : ∀ x ∈ b :: B, isBolt x) (hnd : (N.map size).Nodup)
    (hsame : (N.map size).Perm ((b :: B).map size)) : ∃ (L G : List S) (h : S) (L₂ G₂ : List S)
    (h₂ : S),
    Ends (fun fuel => partition c fuel ⟨0, A ++ (N ++ R)⟩ b l u)
      (l + L.length, ⟨0, A ++ (L ++ h :: (G ++ R))⟩) ∧
    Ends (fun fuel => partition c fuel ⟨0, A' ++ (b :: B ++ R')⟩ h l u)
      (l + L₂.length, ⟨0, A' ++ (L₂ ++ h₂ :: (G₂ ++ R'))⟩) ∧
    Sides size N L h G ∧ Sides size (b :: B) L₂ h₂ G₂ ∧ size h₂ = size h := by
  have hlen : N.length = (b :: B).length := by simpa using hsame.length_eq
  have hb : isBolt b := hbolts b List.mem_cons_self
  have hfits : ∃ x ∈ N, size x = size b := by
    have hmem : size b ∈ N.map size := hsame.mem_iff.2 (by simp)
    simpa using hmem
  obtain ⟨L, G, h, hpart, hh, hL, hG, hN⟩ := partition_ends c size b (A := A) (R := R)
    hl hu hfit (fun x hx => law.sees (.inl ⟨hnuts x hx, hb⟩)) hnd hfits
  have hnut : isNut h := hnuts h (hN.mem_iff.1 (by simp))
  obtain ⟨L₂, G₂, h₂, hpart₂, hh₂, hL₂, hG₂, hB⟩ := partition_ends c size h (A := A')
    (R := R') hl' (hlen ▸ hu) hfit (fun x hx => law.sees (.inr ⟨hnut, hbolts x hx⟩))
    (hsame.nodup_iff.1 hnd) ⟨b, List.mem_cons_self, hh.symm⟩
  exact ⟨L, G, h, L₂, G₂, h₂, hpart, hpart₂, ⟨hN, hh ▸ hL, hh ▸ hG⟩, ⟨hB, hh₂ ▸ hL₂, hh₂ ▸ hG₂⟩,
    hh₂⟩

theorem qsort_ends (law : c.Lawful isNut isBolt size) (n : Nat) (A A' R R' : List S) (l u : Int)
    (hn : N.length = n)
    (hl : l = A.length) (hl' : l = A'.length) (hu : u + 1 = l + N.length) (hfit : u < intMax)
    (hnuts : ∀ x ∈ N, isNut x) (hbolts : ∀ x ∈ B, isBolt x) (hnd : (N.map size).Nodup)
    (hsame : (N.map size).Perm (B.map size)) : ∃ N' B' : List S,
    Ends (fun fuel => qsort c fuel ⟨0, A ++ (N ++ R)⟩ ⟨0, A' ++ (B ++ R')⟩ l u)
      (⟨0, A ++ (N' ++ R)⟩, ⟨0, A' ++ (B' ++ R')⟩) ∧
    N'.Perm N ∧ B'.Perm B ∧ Ascending size N' ∧ Ascending size B' := by
  induction n using Nat.strong_induction_on generalizing N B A A' R R' l u with
  | _ n ih =>
    have hlen : N.length = B.length := by simpa using hsame.length_eq
    by_cases hgo : l ≥ u
    · refine ⟨N, B, ?_, List.Perm.refl _, List.Perm.refl _, ascending_short (by omega),
        ascending_short (by omega)⟩
      apply Ends.succ
      simp only [qsort, if_pos hgo]
      exact Ends.pure _
    · obtain ⟨b, B, rfl⟩ : ∃ b B₀, B = b :: B₀ :=
        List.exists_cons_of_length_pos (by omega)
      obtain ⟨L, G, h, L₂, G₂, h₂, hpart, hpart₂, hs, hs₂, hh⟩ :=
        partitions_end R R' law hl hl' hu hfit hnuts hbolts hnd hsame
      have hnut : ∀ x ∈ L ++ h :: G, isNut x := fun x hx => hnuts x (hs.perm.mem_iff.1 hx)
      have hbolt : ∀ x ∈ L₂ ++ h₂ :: G₂, isBolt x := fun x hx => hbolts x (hs₂.perm.mem_iff.1 hx)
      have hgetb : (⟨0, A' ++ (b :: B ++ R')⟩ : Arr S).get l = .ok b := get_at (by omega)
      have hgeth : (⟨0, A ++ (L ++ h :: (G ++ R))⟩ : Arr S).get (l + L.length) = .ok h := by
        rw [← List.append_assoc]
        exact get_at (by rw [List.length_append]; omega)
      -- the two sides have the same sizes, so `h` and `h₂` have the same index
      obtain ⟨hsameL, hsameG⟩ := hs.same hs₂ hh hsame
      obtain ⟨hndL, hndG⟩ := hs.nodup hnd
      have hlenL : L.length = L₂.length := by simpa using hsameL.length_eq
      have hlenN := hs.length
      obtain ⟨N₁, B₁, hrun₁, hN₁, hB₁, hascN₁, hascB₁⟩ := ih L.length (by omega) A A'
        (h :: (G ++ R)) (h₂ :: (G₂ ++ R')) l (l + L.length - 1) rfl hl hl' (by omega) (by omega)
        (fun x hx => hnut x (by simp [hx])) (fun x hx => hbolt x (by simp [hx])) hndL hsameL
      have hlen₁ := hN₁.length_eq
      have hlenB₁ := hB₁.length_eq
      obtain ⟨N₂, B₂, hrun₂, hN₂, hB₂, hascN₂, hascB₂⟩ := ih G.length (by omega)
        (A ++ (N₁ ++ [h])) (A' ++ (B₁ ++ [h₂])) R R' (l + L.length + 1) u rfl
        (by simp only [List.length_append, List.length_singleton]; omega)
        (by simp only [List.length_append, List.length_singleton]; omega) (by omega) hfit
        (fun x hx => hnut x (by simp [hx])) (fun x hx => hbolt x (by simp [hx])) hndG hsameG
      obtain ⟨hN, hascN⟩ := hs.sorted hN₁ hN₂ hascN₁ hascN₂
      obtain ⟨hB, hascB⟩ := hs₂.sorted hB₁ hB₂ hascB₁ hascB₂
      refine ⟨N₁ ++ h :: N₂, B₁ ++ h₂ :: B₂, ?_, hN, hB, hascN, hascB⟩
      have harr : ∀ (C M M' T : List S) (y : S), C ++ (M ++ [y]) ++ (M' ++ T) =
          C ++ (M ++ y :: (M' ++ T)) := by
        simp
      have harr' : ∀ (C M M' T : List S) (y : S), C ++ (M ++ y :: M' ++ T) =
          C ++ (M ++ y :: (M' ++ T)) := by
        simp
      simp only [harr] at hrun₂
      simp only [harr']
      apply Ends.succ
      simp only [qsort, if_neg hgo]
      simp only [hgetb, Signed.access_ok, Signed.ok_bind]
      refine hpart.bind ?_
      simp only [hgeth, Signed.access_ok, Signed.ok_bind]
      exact hpart₂.bind (hrun₁.bind hrun₂)

/-! ## What a call leaves as it is -/

/-- The elements from the index `n` on are the same. -/
def KeptFrom (n : Nat) (a a' : Arr S) : Prop :=
  a'.first = 0 ∧ a'.elems.drop n = a.elems.drop n

section
variable {a a' a₁ : Arr S} {n fuel : Nat} {i j m : Int}

theorem KeptFrom.trans (h : KeptFrom n a a₁) (h' : KeptFrom n a₁ a') : KeptFrom n a a' :=
  ⟨h'.1, h'.2.trans h.2⟩

theorem set_kept {x : S} (hfirst : a.first = 0) (hi : i < n) (h : a.set i x = .ok a') :
    KeptFrom n a a' := by
  unfold Arr.set at h
  split at h
  · cases h
  · cases h
    exact ⟨hfirst, List.drop_set_of_lt (by omega)⟩

theorem swap_kept (hfirst : a.first = 0) (hi : i < n) (hj : j < n) (h : a.swap i j = .ok a') :
    KeptFrom n a a' := by
  obtain ⟨x, -, h⟩ := bind_eq_ok h
  obtain ⟨y, -, h⟩ := bind_eq_ok h
  obtain ⟨a₁, h₁, h⟩ := bind_eq_ok h
  have hkept := set_kept hfirst hi h₁
  exact hkept.trans (set_kept hkept.1 hj h)

theorem partitionLoop_kept {pivot : S} {r : Int × Arr S} (hu : u < n) (hl : l ≤ u) :
    ∀ (fuel : Nat) {m i : Int} {a : Arr S}, a.first = 0 → m < i → m ≤ u →
      partitionLoop c pivot l u fuel m i a = .ok r → r.1 ≤ u ∧ KeptFrom n a r.2
  | 0, _, _, _, _, _, _, h => nomatch h
  | fuel + 1, m, i, a, hfirst, hmi, hmu, h => by
    unfold partitionLoop at h
    split at h
    · obtain ⟨x, -, h⟩ := bind_eq_ok h
      split at h
      · obtain ⟨a₁, hswap, h⟩ := bind_eq_ok h
        obtain ⟨i', hi', h⟩ := bind_eq_ok h
        obtain ⟨rfl, -⟩ := Signed.add_eq_ok hi'
        have hkept := swap_kept (n := n) hfirst (by omega) (by omega) (Signed.access_eq_ok hswap)
        obtain ⟨hm, hrest⟩ := partitionLoop_kept hu hl fuel hkept.1 (by omega) (by omega) h
        exact ⟨hm, hkept.trans hrest⟩
      · split at h
        · obtain ⟨a₁, hswap, h⟩ := bind_eq_ok h
          obtain ⟨i', hi', h⟩ := bind_eq_ok h
          obtain ⟨rfl, -⟩ := Signed.add_eq_ok hi'
          have hkept := swap_kept (n := n) hfirst (by omega) (by omega) (Signed.access_eq_ok hswap)
          obtain ⟨hm, hrest⟩ := partitionLoop_kept hu hl fuel hkept.1 (by omega) hmu h
          exact ⟨hm, hkept.trans hrest⟩
        · obtain ⟨i', hi', h⟩ := bind_eq_ok h
          obtain ⟨rfl, -⟩ := Signed.add_eq_ok hi'
          exact partitionLoop_kept hu hl fuel hfirst (by omega) hmu h
    · cases h
      exact ⟨hmu, hfirst, rfl⟩

theorem partition_kept {pivot : S} {r : Int × Arr S} (hfirst : a.first = 0) (hu : u < n)
    (hl : l ≤ u) (h : partition c fuel a pivot l u = .ok r) : r.1 ≤ u ∧ KeptFrom n a r.2 := by
  obtain ⟨r₁, hloop, h⟩ := bind_eq_ok h
  obtain ⟨a₁, hswap, h⟩ := bind_eq_ok h
  cases h
  obtain ⟨hm, hkept⟩ := partitionLoop_kept hu hl fuel hfirst (by omega) hl hloop
  exact ⟨hm, hkept.trans (swap_kept hkept.1 (by omega) (by omega) (Signed.access_eq_ok hswap))⟩

theorem qsort_kept (fuel : Nat) {b : Arr S} {l u : Int} {r : Arr S × Arr S} (hu : u < n)
    (ha : a.first = 0) (hb : b.first = 0) (h : qsort c fuel a b l u = .ok r) :
    KeptFrom n a r.1 ∧ KeptFrom n b r.2 := by
  induction fuel generalizing a b l u r with
  | zero => cases h
  | succ fuel ih =>
    unfold qsort at h
    split at h
    · cases h
      exact ⟨⟨ha, rfl⟩, hb, rfl⟩
    · obtain ⟨x, -, h⟩ := bind_eq_ok h
      obtain ⟨r₁, h₁, h⟩ := bind_eq_ok h
      obtain ⟨y, -, h⟩ := bind_eq_ok h
      obtain ⟨r₂, h₂, h⟩ := bind_eq_ok h
      obtain ⟨r₃, h₃, h⟩ := bind_eq_ok h
      obtain ⟨hpart, hkept⟩ := partition_kept ha hu (by omega) h₁
      obtain ⟨-, hkept'⟩ := partition_kept hb hu (by omega) h₂
      obtain ⟨hleft, hleft'⟩ := ih (by omega) hkept.1 hkept'.1 h₃
      obtain ⟨hright, hright'⟩ := ih hu hleft.1 hleft'.1 h
      exact ⟨(hkept.trans hleft).trans hright, (hkept'.trans hleft').trans hright'⟩

/-- At the index `INT_MAX` the loop goes on. -/
theorem partitionLoop_endless {pivot : S} {r : Int × Arr S} : ∀ (fuel : Nat) {m i : Int}
    {a : Arr S}, i ≤ intMax → partitionLoop c pivot l intMax fuel m i a ≠ .ok r
  | 0, _, _, _, _ => nofun
  | fuel + 1, m, i, a, hi => by
    intro h
    unfold partitionLoop at h
    rw [if_pos hi] at h
    obtain ⟨x, -, h⟩ := bind_eq_ok h
    split at h
    · obtain ⟨a₁, -, h⟩ := bind_eq_ok h
      obtain ⟨i', hi', h⟩ := bind_eq_ok h
      obtain ⟨rfl, hle⟩ := Signed.add_eq_ok hi'
      exact partitionLoop_endless fuel hle h
    · split at h
      · obtain ⟨a₁, -, h⟩ := bind_eq_ok h
        obtain ⟨i', hi', h⟩ := bind_eq_ok h
        obtain ⟨rfl, hle⟩ := Signed.add_eq_ok hi'
        exact partitionLoop_endless fuel hle h
      · obtain ⟨i', hi', h⟩ := bind_eq_ok h
        obtain ⟨rfl, hle⟩ := Signed.add_eq_ok hi'
        exact partitionLoop_endless fuel hle h

theorem qsort_endless {b : Arr S} {r : Arr S × Arr S} (hl : l < intMax) :
    qsort c fuel a b l intMax ≠ .ok r := by
  intro h
  cases fuel with
  | zero => cases h
  | succ fuel =>
    unfold qsort at h
    rw [if_neg (not_le.2 hl)] at h
    obtain ⟨x, -, h⟩ := bind_eq_ok h
    obtain ⟨r₁, h₁, -⟩ := bind_eq_ok h
    obtain ⟨r₂, h₂, -⟩ := bind_eq_ok h₁
    exact partitionLoop_endless fuel (by omega) h₂

end

/-! ## Vectors of any length -/

/-- The number of elements that `qsort` is called for. -/
def called (length : Nat) : Nat := (int32 (length - 1) + 1).toNat

/-- The elements from `n` on are in ascending order, and greater than those before. -/
structure Settled (size : S → α) (n : Nat) (v : List S) : Prop where
  behind : Ascending size (v.drop n)
  greater : ∀ x ∈ v.take n, ∀ y ∈ v.drop n, size x < size y

/-- Both vectors are in ascending order, and the nut fits the bolt at every index. -/
def Sorted (c : Comparator S) (size : S → α) (nuts bolts : List S) : Prop :=
  ∃ nuts' bolts' : List S,
    Ends (fun fuel => sortNutsAndBolts c fuel nuts bolts) (nuts', bolts') ∧
      nuts'.Perm nuts ∧ bolts'.Perm bolts ∧ Ascending size nuts' ∧ Ascending size bolts' ∧
      ∀ (i : Nat) (a b : S), nuts'[i]? = some a → bolts'[i]? = some b →
        size a = size b ∧ c.cmp a b = 0

theorem called_le (length : Nat) : called length ≤ length := by
  unfold called
  cases length with
  | zero => decide
  | succ n =>
    have hle := int32_natCast_le n
    push_cast
    rw [Int.add_sub_cancel]
    omega

theorem Settled.of_sorted {n : Nat} {v v' : List S} (hperm : v'.Perm v)
    (hdrop : v'.drop n = v.drop n) (hasc : Ascending size v') : Settled size n v := by
  rw [← List.take_append_drop n v'] at hasc
  obtain ⟨-, hbehind, hcross⟩ := List.pairwise_append.1 hasc
  have htake : (v'.take n).Perm (v.take n) := by
    refine (List.perm_append_right_iff (v.drop n)).1 ?_
    rw [List.take_append_drop, ← hdrop, List.take_append_drop]
    exact hperm
  exact ⟨hdrop ▸ hbehind, fun x hx y hy => hcross x (htake.mem_iff.2 hx) y (hdrop ▸ hy)⟩

theorem Settled.ascending {n : Nat} {v w : List S} (h : Settled size n v)
    (hperm : w.Perm (v.take n)) (hasc : Ascending size w) : Ascending size (w ++ v.drop n) :=
  List.pairwise_append.2 ⟨hasc, h.behind, fun x hx y hy => h.greater x (hperm.mem_iff.1 hx) y hy⟩

/-- The smallest elements of both vectors have the same sizes. -/
theorem Settled.same {n : Nat} {v w : List S} (hv : Settled size n v) (hw : Settled size n w)
    (hlen : v.length = w.length) (hnd : (v.map size).Nodup)
    (hsame : ∀ s, s ∈ v.map size ↔ s ∈ w.map size) :
    ((v.take n).map size).Perm ((w.take n).map size) := by
  have hndv : ((v.take n).map size).Nodup := hnd.sublist ((List.take_sublist n v).map size)
  have hlen' : ((w.take n).map size).length = ((v.take n).map size).length := by
    rw [List.length_map, List.length_map, List.length_take, List.length_take, hlen]
  refine (List.subperm_of_subset hndv fun s hs => ?_).perm_of_length_le hlen'.le
  by_contra hnot
  have hin : ∀ u : List S, u.map size = (u.take n).map size ++ (u.drop n).map size := fun u => by
    rw [← List.map_append, List.take_append_drop]
  -- then all of the sizes in front in `w` are smaller and are in front in `v`
  have hbehind : s ∈ (w.drop n).map size := by
    have hmem := (hsame s).1 (hin v ▸ List.mem_append_left _ hs)
    rw [hin w, List.mem_append] at hmem
    exact hmem.resolve_left hnot
  obtain ⟨y, hy, rfl⟩ := List.mem_map.1 hbehind
  obtain ⟨x, hx, hxy⟩ := List.mem_map.1 hs
  have hsub : ∀ t ∈ (w.take n).map size, t ∈ ((v.take n).map size).erase (size y) := by
    intro _ ht
    obtain ⟨z, hz, rfl⟩ := List.mem_map.1 ht
    have hlt := hw.greater z hz y hy
    have hmem := (hsame (size z)).2 (hin w ▸ List.mem_append_left _ ht)
    rw [hin v, List.mem_append] at hmem
    refine (List.mem_erase_of_ne hlt.ne).2 (hmem.resolve_right fun hbad => ?_)
    obtain ⟨b, hb, hbz⟩ := List.mem_map.1 hbad
    exact absurd (hv.greater x hx b hb) (by rw [hxy, hbz]; exact hlt.not_gt)
  have hndw : ((w.take n).map size).Nodup := by
    have hperm : (w.map size).Nodup := by
      refine (List.Subperm.perm_of_length_le (List.subperm_of_subset hnd fun s hs =>
        (hsame s).1 hs) ?_).nodup_iff.1 hnd
      rw [List.length_map, List.length_map, hlen]
    exact hperm.sublist ((List.take_sublist n w).map size)
  have hshort := (List.subperm_of_subset hndw hsub).length_le
  rw [List.length_erase_of_mem hs] at hshort
  have hpos := List.length_pos_of_mem hs
  omega

/-- What the vectors are sorted to fits at every index. -/
theorem fits {nuts bolts nuts' bolts' : List S} (law : c.Lawful isNut isBolt size)
    (hnuts : ∀ x ∈ nuts, isNut x) (hbolts : ∀ x ∈ bolts, isBolt x)
    (hperm : (nuts.map size).Perm (bolts.map size)) (hn : nuts'.Perm nuts) (hb : bolts'.Perm bolts)
    (hasc : Ascending size nuts') (hasc' : Ascending size bolts') (i : Nat) (a b : S)
    (ha : nuts'[i]? = some a) (hb' : bolts'[i]? = some b) : size a = size b ∧ c.cmp a b = 0 := by
  -- two ascending lists of the same sizes are equal
  have hsizes : nuts'.map size = bolts'.map size := by
    refine List.Perm.eq_of_pairwise' (r := (· < ·)) ?_ ?_ ?_
    · exact List.pairwise_map.2 hasc
    · exact List.pairwise_map.2 hasc'
    · exact ((hn.map size).trans hperm).trans (hb.map size).symm
  have hsize : size a = size b := by
    have hi := congrArg (·[i]?) hsizes
    simp only [List.getElem?_map, ha, hb', Option.map_some] at hi
    exact Option.some.inj hi
  have hnut : isNut a := hnuts a (hn.mem_iff.1 (List.mem_of_getElem? ha))
  have hbolt : isBolt b := hbolts b (hb.mem_iff.1 (List.mem_of_getElem? hb'))
  exact ⟨hsize, law.equal a b hnut hbolt hsize⟩

/-- **When both vectors are sorted**, so that the nut fits the bolt at every index. -/
theorem sortNutsAndBolts_iff (nuts bolts : List S) (law : c.Lawful isNut isBolt size)
    (hlen : nuts.length = bolts.length) (hnuts : ∀ x ∈ nuts, isNut x)
    (hbolts : ∀ x ∈ bolts, isBolt x) (hnd : (nuts.map size).Nodup) (hnd' : (bolts.map size).Nodup)
    (hsame : ∀ s, s ∈ nuts.map size ↔ s ∈ bolts.map size) : Sorted c size nuts bolts ↔
      int32 (nuts.length - 1) < intMax ∧ Settled size (called nuts.length) nuts ∧
        Settled size (called nuts.length) bolts := by
  have hperm : (nuts.map size).Perm (bolts.map size) :=
    (List.perm_ext_iff_of_nodup hnd hnd').2 hsame
  by_cases hempty : nuts = [] ∨ bolts = []
  · obtain ⟨rfl, rfl⟩ : nuts = [] ∧ bolts = [] := by
      cases hempty with
      | inl h =>
        rw [h] at hlen
        exact ⟨h, List.length_eq_zero_iff.1 hlen.symm⟩
      | inr h =>
        rw [h] at hlen
        exact ⟨List.length_eq_zero_iff.1 hlen, h⟩
    refine iff_of_true ⟨[], [], Ends.pure _, List.Perm.refl _, List.Perm.refl _,
      List.Pairwise.nil, List.Pairwise.nil, nofun⟩
      ⟨show int32 ((0 : Nat) - 1) < intMax by decide, ?_, ?_⟩
    · exact ⟨by rw [List.drop_nil]; exact List.Pairwise.nil, by simp⟩
    · exact ⟨by rw [List.drop_nil]; exact List.Pairwise.nil, by simp⟩
  · have hcall : ∀ fuel, sortNutsAndBolts c fuel nuts bolts = do
        let r ← qsort c fuel ⟨0, nuts⟩ ⟨0, bolts⟩ 0 (int32 (nuts.length - 1))
        return (r.1.elems, r.2.elems) := by
      intro fuel
      rw [sortNutsAndBolts, if_neg hempty, if_neg (not_not.2 hlen)]
    constructor
    · rintro ⟨nuts', bolts', ⟨fuel, hends⟩, hn, hb, hasc, hasc', -⟩
      have hrun : sortNutsAndBolts c fuel nuts bolts = _ := hends fuel le_rfl
      rw [hcall] at hrun
      obtain ⟨r, hqsort, hr⟩ := bind_eq_ok hrun
      cases hr
      have hlast : int32 (nuts.length - 1) ≠ intMax := by
        intro hlast
        rw [hlast] at hqsort
        exact qsort_endless (by decide) hqsort
      have hint := int32_lt (nuts.length - 1)
      have hmax : (intMax : Int) = 2 ^ 31 - 1 := by decide
      obtain ⟨hkept, hkept'⟩ := qsort_kept (n := called nuts.length) fuel
        (by unfold called; omega) rfl rfl hqsort
      exact ⟨by omega, .of_sorted hn hkept.2 hasc, .of_sorted hb hkept'.2 hasc'⟩
    · rintro ⟨hlast, hsettled, hsettled'⟩
      have hshort := called_le nuts.length
      obtain ⟨N', B', hends, hN, hB, hascN, hascB⟩ : ∃ N' B' : List S,
          Ends (fun fuel => qsort c fuel ⟨0, nuts⟩ ⟨0, bolts⟩ 0 (int32 (nuts.length - 1)))
            (⟨0, N' ++ nuts.drop (called nuts.length)⟩,
              ⟨0, B' ++ bolts.drop (called nuts.length)⟩) ∧
          N'.Perm (nuts.take (called nuts.length)) ∧ B'.Perm (bolts.take (called nuts.length)) ∧
          Ascending size N' ∧ Ascending size B' := by
        by_cases hneg : int32 (nuts.length - 1) < 0
        · have hzero : called nuts.length = 0 := by
            unfold called
            omega
          rw [hzero]
          refine ⟨[], [], Ends.succ ?_, List.Perm.refl _, List.Perm.refl _, List.Pairwise.nil,
            List.Pairwise.nil⟩
          simp only [qsort, if_pos hneg.le]
          exact Ends.const_iff.2 rfl
        · have hcalled : int32 (nuts.length - 1) + 1 = called nuts.length := by
            unfold called
            omega
          obtain ⟨N', B', hends, hN, hB, hascN, hascB⟩ := qsort_ends law _ [] []
            (nuts.drop (called nuts.length)) (bolts.drop (called nuts.length)) 0 _ rfl rfl rfl
            (by rw [hcalled, List.length_take, Nat.min_eq_left hshort]; simp) hlast
            (fun x hx => hnuts x (List.mem_of_mem_take hx))
            (fun x hx => hbolts x (List.mem_of_mem_take hx))
            (hnd.sublist ((List.take_sublist _ nuts).map size))
            (hsettled.same hsettled' hlen hnd hsame)
          simp only [List.nil_append, List.take_append_drop] at hends
          exact ⟨N', B', hends, hN, hB, hascN, hascB⟩
      have hn : (N' ++ nuts.drop (called nuts.length)).Perm nuts := by
        conv_rhs => rw [← List.take_append_drop (called nuts.length) nuts]
        exact hN.append_right _
      have hb : (B' ++ bolts.drop (called nuts.length)).Perm bolts := by
        conv_rhs => rw [← List.take_append_drop (called nuts.length) bolts]
        exact hB.append_right _
      have hasc := hsettled.ascending hN hascN
      have hasc' := hsettled'.ascending hB hascB
      refine ⟨_, _, ?_, hn, hb, hasc, hasc', fits law hnuts hbolts hperm hn hb hasc hasc'⟩
      simp only [hcall]
      exact hends.bind (Ends.pure _)

end

/-- Nuts with the tag `true`, bolts with the tag `false`. -/
def tagged : Comparator (Bool × Int) where
  cmp a b :=
    if a.1 = true ∧ b.1 = false then if a.2 > b.2 then 1 else if a.2 = b.2 then 0 else -1
    else 2

theorem tagged_lawful : tagged.Lawful (·.1 = true) (·.1 = false) Prod.snd where
  bigger a b ha hb h := by simp [tagged, ha, hb, h]
  equal a b ha hb h := by simp [tagged, ha, hb, h]
  smaller a b ha hb h := by simp [tagged, ha, hb, h.le, h.ne]
  invalid a b h := if_neg h

theorem sortNutsAndBolts_three :
    Sorted tagged Prod.snd [(true, 2), (true, 1), (true, 3)]
    [(false, 1), (false, 3), (false, 2)] := by
  refine (sortNutsAndBolts_iff [(true, 2), (true, 1), (true, 3)]
    [(false, 1), (false, 3), (false, 2)]
    tagged_lawful rfl (by decide) (by decide) (by decide) (by decide)
    (by simp [or_comm, or_left_comm])).2 ⟨by decide, ?_, ?_⟩
  · exact ⟨List.Pairwise.nil, nofun⟩
  · exact ⟨List.Pairwise.nil, nofun⟩

/-- With 2^31 nuts and bolts the loop over the nuts does not come to its end. -/
theorem sortNutsAndBolts_endless : ¬ ∀ nuts bolts : List (Bool × Int), nuts.length = bolts.length →
    (∀ x ∈ nuts, x.1 = true) → (∀ x ∈ bolts, x.1 = false) → (nuts.map Prod.snd).Nodup →
    (bolts.map Prod.snd).Nodup → (∀ s, s ∈ nuts.map Prod.snd ↔ s ∈ bolts.map Prod.snd) →
    Sorted tagged Prod.snd nuts bolts := by
  intro h
  let sizes : List Int := (List.range (intMax + 1).toNat).map Nat.cast
  have hlen : ((sizes.map (true, ·)).length : Int) - 1 = intMax := by
    rw [List.length_map, List.length_map, List.length_range]
    decide
  have hsizes : ∀ b : Bool, (sizes.map (b, ·)).map Prod.snd = sizes := fun b => by
    rw [List.map_map]
    exact List.map_id sizes
  have hnd : sizes.Nodup := List.nodup_range.map Nat.cast_injective
  have hne : ∀ b : Bool, sizes.map (b, ·) ≠ [] := fun b hc => by
    rw [List.map_eq_nil_iff] at hc
    rw [hc] at hlen
    exact absurd hlen (by decide)
  have hsame : (sizes.map (true, ·)).length = (sizes.map (false, ·)).length := by
    simp only [List.length_map]
  obtain ⟨nuts', bolts', ⟨fuel, hends⟩, -⟩ := h (sizes.map (true, ·)) (sizes.map (false, ·))
    hsame (by simp) (by simp) (by rwa [hsizes])
    (by rwa [hsizes]) (by simp only [hsizes, implies_true])
  have hrun : sortNutsAndBolts tagged fuel (sizes.map (true, ·)) (sizes.map (false, ·)) = _ :=
    hends fuel le_rfl
  have hmax : int32 intMax = intMax := by decide
  rw [sortNutsAndBolts, if_neg (not_or.2 ⟨hne _, hne _⟩), if_neg (not_not.2 hsame), hlen, hmax]
    at hrun
  obtain ⟨r, hqsort, -⟩ := bind_eq_ok hrun
  exact qsort_endless (by decide) hqsort

end NutsAndBolts
