import DsAlgor.Lib.Search
import DsAlgor.Lib.Signed

/-!
# `jump_game2.c`

A round of the outer loop looks at the indices that can be reached in `step` jumps, and finds the
farthest index that can be reached in one more (`Layer`). When no round gets farther, the loop goes
round for ever.
-/

namespace JumpGame2

open Checked (Arr Ends get_nat)
open Signed Search

section
variable (A : List Int)

/-- The inner loop; the results are `next` and `i`. -/
def scan (cur next i : Int) : Except Undefined (Int × Int) :=
  if i ≤ cur then do
    let a ← access (Arr.get ⟨0, A⟩ i)
    let far ← add a i
    scan cur (max next far) (i + 1)
  else return (next, i)
termination_by (cur + 1 - i).toNat
decreasing_by omega

/-- The outer loop. -/
def jumpLoop : Nat → Int → Int → Int → Int → Except Undefined Int
  | 0, _, _, _, _ => .error (.fault .loop)
  | fuel + 1, step, cur, next, i =>
    let n : Int := A.length
    if i < n then
      if cur ≥ n - 1 then return step
      else do
        let (next, i) ← scan A cur next i
        let step ← add step 1
        jumpLoop fuel step next next i
    else return step

def jump (fuel : Nat) : Except Undefined Int := jumpLoop A fuel 0 0 0 0

/-- `A[i] + i` -/
def far (i : Nat) : Int := A[i]?.getD 0 + i

/-- A jump from `i` to `j`. -/
def Jump (i j : Nat) : Prop := i < j ∧ j < A.length ∧ (j : Int) ≤ far A i

/-- The index `j` can be reached from 0 in at most `k` jumps. -/
def Within (k j : Nat) : Prop := ∃ m ≤ k, Steps (Jump A) m 0 j

end

section
variable {A : List Int} {i j k m : Nat}

theorem within_zero : Within A 0 j ↔ j = 0 := by
  constructor
  · rintro ⟨m, hm, h⟩
    obtain rfl := Nat.le_zero.1 hm
    cases h
    rfl
  · rintro rfl
    exact ⟨0, le_rfl, .zero⟩

theorem Within.mono (h : Within A k j) (hkm : k ≤ m) : Within A m j := by
  obtain ⟨l, hl, hsteps⟩ := h
  exact ⟨l, hl.trans hkm, hsteps⟩

theorem within_succ : Within A (k + 1) j ↔ Within A k j ∨ ∃ i, Within A k i ∧ Jump A i j := by
  constructor
  · rintro ⟨m, hm, h⟩
    cases h with
    | zero => exact .inl ⟨0, Nat.zero_le k, .zero⟩
    | @tail m _ i _ h hjump => exact .inr ⟨i, ⟨m, Nat.le_of_succ_le_succ hm, h⟩, hjump⟩
  · rintro (h | ⟨i, ⟨m, hm, h⟩, hjump⟩)
    · exact h.mono (Nat.le_succ k)
    · exact ⟨m + 1, Nat.succ_le_succ hm, h.tail hjump⟩

/-! ## The inner loop -/

theorem getD_nonneg (hA : ∀ a ∈ A, 0 ≤ a) (i : Nat) : 0 ≤ A[i]?.getD 0 := by
  cases h : A[i]? with
  | none => exact le_rfl
  | some a => exact hA a (List.mem_of_getElem? h)

variable {cur : Int}

/-- One step of the inner loop. -/
theorem scan_succ {next : Int} (hi : (i : Int) ≤ cur) (hcur : cur < A.length) : scan A cur next i =
      add (A[i]?.getD 0) i >>= fun x => scan A cur (max next x) (i + 1 : Nat) := by
  have hlt : i < A.length := by omega
  have hget : Arr.get ⟨0, A⟩ i = .ok (A[i]?.getD 0) := get_nat (by simp [hlt])
  rw [scan, if_pos hi, hget]
  rfl

/-- The indices from `i` to `cur` are looked at, and no addition overflows. -/
theorem scan_ok (hA : ∀ a ∈ A, 0 ≤ a) (next : Int) (hi : (i : Int) ≤ cur + 1)
    (hcur : cur < A.length) (hsafe : ∀ x : Nat, i ≤ x → (x : Int) ≤ cur → far A x ≤ intMax) :
    ∃ next', scan A cur next i = .ok (next', cur + 1) ∧ next ≤ next' ∧
      (∀ x : Nat, i ≤ x → (x : Int) ≤ cur → far A x ≤ next') ∧
      (next' = next ∨ ∃ x : Nat, (x : Int) ≤ cur ∧ next' = far A x) := by
  induction hn : (cur + 1 - i).toNat generalizing i next with
  | zero =>
    have heq : (i : Int) = cur + 1 := by omega
    have hle : ¬ (i : Int) ≤ cur := by omega
    refine ⟨next, ?_, le_rfl, fun x hx hxcur => by omega, .inl rfl⟩
    rw [scan, if_neg hle, heq]
    rfl
  | succ n ih =>
    have hle : (i : Int) ≤ cur := by omega
    have hadd : add (A[i]?.getD 0) i = .ok (far A i) :=
      add_ok (getD_nonneg hA i) (Int.natCast_nonneg i) (hsafe i le_rfl hle)
    have hi' : ((i + 1 : Nat) : Int) ≤ cur + 1 := by omega
    have hn' : (cur + 1 - (i + 1 : Nat)).toNat = n := by omega
    obtain ⟨next', hrun, hnext, hall, hfrom⟩ :=
      ih (max next (far A i)) hi' (fun x hx => hsafe x (by omega)) hn'
    refine ⟨next', ?_, (le_max_left _ _).trans hnext, fun x hx hxcur => ?_, ?_⟩
    · rw [scan_succ hle hcur, hadd, ok_bind, hrun]
    · rcases Nat.eq_or_lt_of_le hx with rfl | hlt
      · exact (le_max_right _ _).trans hnext
      · exact hall x hlt hxcur
    · rcases hfrom with heq | hx
      · rcases max_choice next (far A i) with hmax | hmax
        · exact .inl (heq.trans hmax)
        · exact .inr ⟨i, hle, heq.trans hmax⟩
      · exact .inr hx

/-- An addition of the inner loop overflows. -/
theorem scan_overflow (hA : ∀ a ∈ A, 0 ≤ a) (next : Int) (hcur : cur < A.length) {x : Nat}
    (hi : i ≤ x) (hx : (x : Int) ≤ cur) (hbad : intMax < far A x) :
    scan A cur next i = .error .overflow := by
  induction hn : x - i generalizing i next with
  | zero =>
    obtain rfl : i = x := by omega
    rw [scan_succ hx hcur, add_overflow hbad]
    rfl
  | succ n ih =>
    rw [scan_succ (by omega) hcur]
    by_cases hsafe : far A i ≤ intMax
    · have hadd : add (A[i]?.getD 0) i = .ok (far A i) :=
        add_ok (getD_nonneg hA i) (Int.natCast_nonneg i) hsafe
      rw [hadd, ok_bind]
      exact ih _ (by omega) (by omega)
    · rw [add_overflow (not_le.1 hsafe)]
      rfl

/-! ## The outer loop -/

/-- **The invariant**: after `k` rounds `cur` is the farthest index within `k` jumps, and those
within fewer jumps are behind `i`. -/
structure Layer (A : List Int) (k : Nat) (cur : Int) (i : Nat) : Prop where
  index : (i : Int) ≤ cur + 1
  small : i < A.length
  within : ∀ j < A.length, (j : Int) ≤ cur ↔ Within A k j
  before : ∀ j m, m < k → Within A m j → j < i
  far_le : ∀ x < i, far A x ≤ cur
  safe : ∀ x < i, far A x ≤ intMax

theorem layer_zero (hne : A ≠ []) : Layer A 0 0 0 where
  index := by omega
  small := List.length_pos_iff.2 hne
  within j _ := by
    rw [within_zero]
    omega
  before _ _ hm := absurd hm (Nat.not_lt_zero _)
  far_le := nofun
  safe := nofun

/-- **One round.** -/
theorem Layer.step {next' : Int} (h : Layer A k cur i) (hcur : cur < (A.length : Int) - 1)
    (hnext : cur ≤ next') (hall : ∀ x : Nat, i ≤ x → (x : Int) ≤ cur → far A x ≤ next')
    (hfrom : next' = cur ∨ ∃ x : Nat, (x : Int) ≤ cur ∧ next' = far A x)
    (hsafe : ∀ x : Nat, i ≤ x → (x : Int) ≤ cur → far A x ≤ intMax) :
    Layer A (k + 1) next' (cur + 1).toNat := by
  have hpos : 0 ≤ cur + 1 := by
    have hi := h.index
    omega
  have hfar : ∀ x : Nat, (x : Int) ≤ cur → far A x ≤ next' := by
    intro x hx
    by_cases hxi : x < i
    · exact (h.far_le x hxi).trans hnext
    · exact hall x (by omega) hx
  refine ⟨by omega, by omega, fun j hj => ?_, fun j m hm hw => ?_, fun x hx => ?_, fun x hx => ?_⟩
  · rw [within_succ, ← h.within j hj]
    constructor
    · intro hle
      by_cases hjc : (j : Int) ≤ cur
      · exact .inl hjc
      · rcases hfrom with heq | ⟨x, hx, heq⟩
        · omega
        · exact .inr ⟨x, (h.within x (by omega)).1 hx, by omega, hj, by omega⟩
    · rintro (hle | ⟨x, hx, hjump⟩)
      · omega
      · have hxcur := (h.within x (by have := hjump.1; omega)).2 hx
        have hxfar := hfar x hxcur
        have hle := hjump.2.2
        omega
  · have hlt : j < A.length := by
      obtain ⟨l, _, hsteps⟩ := hw
      cases hsteps with
      | zero => exact (Nat.zero_le i).trans_lt h.small
      | tail _ hjump => exact hjump.2.1
    have hle := (h.within j hlt).2 (hw.mono (Nat.le_of_lt_succ hm))
    omega
  · exact hfar x (by omega)
  · by_cases hxi : x < i
    · exact h.safe x hxi
    · exact hsafe x (by omega) (by omega)

/-- The last index. -/
def last (A : List Int) : Nat := A.length - 1

theorem last_lt (hne : A ≠ []) : last A < A.length := by
  have hpos := List.length_pos_iff.2 hne
  unfold last
  omega

/-- What can be looked at before the last index is reached does not overflow. -/
def Safe (A : List Int) : Prop :=
  ∀ k i, Within A k i → ¬ Within A k (last A) → far A i ≤ intMax

theorem jumpLoop_last (h : Layer A k cur i) (hcur : (A.length : Int) - 1 ≤ cur) (fuel : Nat) :
    jumpLoop A (fuel + 1) k cur cur i = .ok k := by
  have hsmall : (i : Int) < A.length := by exact_mod_cast h.small
  have hge : cur ≥ (A.length : Int) - 1 := hcur
  simp only [jumpLoop, if_pos hsmall, if_pos hge]
  rfl

/-- One round of the outer loop, in which no addition overflows. -/
theorem jumpLoop_succ (hA : ∀ a ∈ A, 0 ≤ a) (h : Layer A k cur i)
    (hcur : cur < (A.length : Int) - 1)
    (hsafe : ∀ x : Nat, i ≤ x → (x : Int) ≤ cur → far A x ≤ intMax) :
    ∃ next', Layer A (k + 1) next' (cur + 1).toNat ∧
      ∀ fuel, jumpLoop A (fuel + 1) k cur cur i =
        add k 1 >>= fun step => jumpLoop A fuel step next' next' (cur + 1).toNat := by
  have hsmall : (i : Int) < A.length := by exact_mod_cast h.small
  have hge : ¬ cur ≥ (A.length : Int) - 1 := not_le.2 hcur
  have hcast : (((cur + 1).toNat : Nat) : Int) = cur + 1 := by
    have hi := h.index
    omega
  obtain ⟨next', hscan, hnext, hall, hfrom⟩ :=
    scan_ok hA cur h.index (by omega) hsafe
  refine ⟨next', h.step hcur hnext hall hfrom hsafe, fun fuel => ?_⟩
  rw [hcast, jumpLoop]
  simp only [if_pos hsmall, if_neg hge]
  rw [hscan, ok_bind]

/-- A run that returns ends in a layer with the last index. -/
theorem jumpLoop_inv (hA : ∀ a ∈ A, 0 ≤ a) {fuel : Nat} {r : Int} (h : Layer A k cur i)
    (hrun : jumpLoop A fuel k cur cur i = .ok r) : ∃ (k' : Nat) (cur' : Int) (i' : Nat),
      r = k' ∧ Layer A k' cur' i' ∧ (A.length : Int) - 1 ≤ cur' := by
  induction fuel generalizing k cur i with
  | zero => cases hrun
  | succ fuel ih =>
    by_cases hcur : (A.length : Int) - 1 ≤ cur
    · rw [jumpLoop_last h hcur] at hrun
      cases hrun
      exact ⟨k, cur, i, rfl, h, hcur⟩
    · rw [not_le] at hcur
      by_cases hsafe : ∀ x : Nat, i ≤ x → (x : Int) ≤ cur → far A x ≤ intMax
      · obtain ⟨next', hstep, hround⟩ := jumpLoop_succ hA h hcur hsafe
        rw [hround, add] at hrun
        split at hrun
        · exact ih hstep hrun
        · cases hrun
      · simp only [not_forall, not_le] at hsafe
        obtain ⟨x, hix, hx, hbad⟩ := hsafe
        have hsmall : (i : Int) < A.length := by exact_mod_cast h.small
        have hge : ¬ cur ≥ (A.length : Int) - 1 := not_le.2 hcur
        simp only [jumpLoop, if_pos hsmall, if_neg hge,
          scan_overflow hA cur (by omega) hix hx hbad, error_bind] at hrun
        cases hrun

theorem steps_le (h : Steps (Jump A) m i j) : i + m ≤ j := by
  induction h with
  | zero => exact le_rfl
  | tail _ hjump ih => exact ih.trans_lt hjump.1

/-- A run in which nothing overflows returns when the last index is reached. -/
theorem jumpLoop_returns (hA : ∀ a ∈ A, 0 ≤ a) (hn : A.length ≤ intMax) (hsafe : Safe A)
    {d : Nat} (hd : Within A (k + d) (last A)) (h : Layer A k cur i) :
    ∃ r, Ends (fun fuel => jumpLoop A fuel k cur cur i) r := by
  induction d generalizing k cur i with
  | zero =>
    have hcur := (h.within _ (last_lt (List.ne_nil_of_length_pos (Nat.zero_lt_of_lt h.small)))).2 hd
    refine ⟨k, 1, fun fuel hfuel => ?_⟩
    obtain ⟨fuel, rfl⟩ := Nat.exists_eq_succ_of_ne_zero (Nat.ne_zero_of_lt hfuel)
    exact jumpLoop_last h (by unfold last at hcur; omega) fuel
  | succ d ih =>
    have hlast := last_lt (List.ne_nil_of_length_pos (Nat.zero_lt_of_lt h.small))
    by_cases hreach : Within A k (last A)
    · exact ih (hreach.mono (Nat.le_add_right k d)) h
    · have hcur : cur < (A.length : Int) - 1 := by
        rw [← h.within _ hlast] at hreach
        unfold last at hreach
        omega
      obtain ⟨next', hstep, hround⟩ := jumpLoop_succ hA h hcur fun x _ hx =>
        hsafe k x ((h.within x (by omega)).1 hx) hreach
      -- the number of jumps is no greater than the last index
      have hadd : add k 1 = .ok ((k + 1 : Nat) : Int) := by
        obtain ⟨m, _, hsteps⟩ := hd
        have hkm : k < m := by
          by_contra hle
          exact hreach ⟨m, not_lt.1 hle, hsteps⟩
        have hm := steps_le hsteps
        exact add_ok (Int.natCast_nonneg k) Int.one_nonneg (by omega)
      obtain ⟨r, N, hends⟩ := ih (by rwa [Nat.add_right_comm, Nat.add_assoc]) hstep
      refine ⟨r, N + 1, fun fuel hfuel => ?_⟩
      obtain ⟨fuel, rfl⟩ := Nat.exists_eq_succ_of_ne_zero (Nat.ne_zero_of_lt hfuel)
      show jumpLoop A (fuel + 1) k cur cur i = .ok r
      rw [hround, hadd, ok_bind]
      exact hends fuel (Nat.le_of_succ_le_succ hfuel)

/-- `jump` returns, and if the last index can be reached the result is the least number of jumps. -/
def JumpsLeast (A : List Int) : Prop :=
  ∃ r, Ends (jump A) r ∧ (Relation.ReflTransGen (Jump A) 0 (last A) →
    IsLeast {c : Int | ∃ k : Nat, Steps (Jump A) k 0 (last A) ∧ (k : Int) = c} r)

theorem jump_inv (hne : A ≠ []) (hA : ∀ a ∈ A, 0 ≤ a) {r : Int} (h : Ends (jump A) r) :
    ∃ (k : Nat) (cur : Int) (i : Nat), r = k ∧ Layer A k cur i ∧ (A.length : Int) - 1 ≤ cur := by
  obtain ⟨N, hends⟩ := h
  exact jumpLoop_inv hA (layer_zero hne) (hends N le_rfl)

theorem Layer.within_last (h : Layer A k cur i) (hcur : (A.length : Int) - 1 ≤ cur) :
    Within A k (last A) := by
  have hlt := h.small
  refine (h.within _ ?_).1 ?_
  · unfold last
    omega
  · unfold last
    omega

theorem reaches_of_jumpsLeast (hne : A ≠ []) (hA : ∀ a ∈ A, 0 ≤ a) (h : JumpsLeast A) :
    Relation.ReflTransGen (Jump A) 0 (last A) := by
  obtain ⟨r, hends, -⟩ := h
  obtain ⟨k, cur, i, -, hlayer, hcur⟩ := jump_inv hne hA hends
  obtain ⟨m, -, hsteps⟩ := hlayer.within_last hcur
  exact hsteps.reachable

/-- **The condition**: the last index can be reached, and what is looked at on the way there does
not overflow. -/
theorem jumpsLeast_iff (hne : A ≠ []) (hA : ∀ a ∈ A, 0 ≤ a) (hn : A.length ≤ intMax) :
    JumpsLeast A ↔ Relation.ReflTransGen (Jump A) 0 (last A) ∧ Safe A := by
  constructor
  · intro h
    refine ⟨reaches_of_jumpsLeast hne hA h, fun k i hw hnot => ?_⟩
    obtain ⟨r, hends, -⟩ := h
    obtain ⟨k', cur, i', -, hlayer, hcur⟩ := jump_inv hne hA hends
    have hkk' : k < k' := by
      by_contra hle
      exact hnot ((hlayer.within_last hcur).mono (not_lt.1 hle))
    exact hlayer.safe i (hlayer.before i k hkk' hw)
  · rintro ⟨hreach, hsafe⟩
    obtain ⟨d, hsteps⟩ := exists_steps hreach
    obtain ⟨r, hends⟩ := jumpLoop_returns hA hn hsafe (k := 0) (d := d) ⟨d, by omega, hsteps⟩
      (layer_zero hne)
    obtain ⟨k, cur, i, rfl, hlayer, hcur⟩ := jump_inv hne hA hends
    have hleast : ∀ m, Steps (Jump A) m 0 (last A) → k ≤ m := by
      intro m hm
      by_contra hlt
      have hbefore := hlayer.before _ m (not_le.1 hlt) ⟨m, le_rfl, hm⟩
      have hsmall := hlayer.small
      unfold last at hbefore
      omega
    obtain ⟨m, hmk, hm⟩ := hlayer.within_last hcur
    obtain rfl : m = k := le_antisymm hmk (hleast m hm)
    refine ⟨m, hends, fun _ => ⟨⟨m, hm, rfl⟩, ?_⟩⟩
    rintro _ ⟨c, hc, rfl⟩
    exact_mod_cast hleast c hc

theorem jumpsLeast_iff_two : JumpsLeast [2, 3, 1, 1, 4] ↔
    Relation.ReflTransGen (Jump [2, 3, 1, 1, 4]) 0 (last [2, 3, 1, 1, 4]) ∧
      Safe [2, 3, 1, 1, 4] :=
  jumpsLeast_iff (by decide) (by decide) (by decide)

/-- From index 0 there is no jump, and the loop goes round for ever. -/
theorem not_jumpsLeast_zero : ¬ JumpsLeast [0, 0] := by
  intro h
  have hreach := reaches_of_jumpsLeast (by decide) (by decide) h
  obtain ⟨i, hjump, -⟩ := (Relation.ReflTransGen.cases_head hreach).resolve_left (by decide)
  have hle : (i : Int) ≤ 0 := hjump.2.2
  have hpos := hjump.1
  omega

end

end JumpGame2
