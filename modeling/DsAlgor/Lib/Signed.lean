import DsAlgor.Lib.Checked

/-!
# Programs with checked additions

An addition of `int`s whose sum is no `int` is a fault, and so is what is one for the arrays of
`Checked`. A loop whose counter is an `int` returns only if there are not too many rounds
(`forEach_eq_ok_iff`).
-/

namespace Signed

open Checked (Fault Ends Steady)

inductive Undefined
  /-- A fault of an access, or the fuel is used up. -/
  | fault (e : Fault)
  /-- An addition that overflows. -/
  | overflow
deriving DecidableEq

/-- The greatest `int`. -/
def intMax : Int := 2147483647

section
variable {α β : Type} {x y : Int}

def access (r : Except Fault α) : Except Undefined α := r.mapError .fault

@[simp] theorem access_ok (a : α) : access (.ok a) = .ok a := rfl

theorem access_eq_ok {r : Except Fault α} {a : α} (h : access r = .ok a) : r = .ok a := by
  cases r with
  | error e => cases h
  | ok b =>
    cases h
    rfl

/-- `x + y` -/
def add (x y : Int) : Except Undefined Int :=
  if -intMax - 1 ≤ x + y ∧ x + y ≤ intMax then return x + y else .error .overflow

/-- `x - y` -/
def sub (x y : Int) : Except Undefined Int := add x (-y)

theorem add_eq (hlo : -intMax - 1 ≤ x + y) (hhi : x + y ≤ intMax) : add x y = .ok (x + y) :=
  if_pos ⟨hlo, hhi⟩

theorem sub_eq (hlo : -intMax - 1 ≤ x - y) (hhi : x - y ≤ intMax) : sub x y = .ok (x - y) :=
  add_eq hlo hhi

theorem add_ok (hx : 0 ≤ x) (hy : 0 ≤ y) (h : x + y ≤ intMax) : add x y = .ok (x + y) := by
  refine if_pos ⟨?_, h⟩
  have hmax : 0 ≤ intMax := by decide
  omega

theorem add_overflow (h : intMax < x + y) : add x y = .error .overflow :=
  if_neg fun hle => by omega

theorem add_eq_ok {z : Int} (h : add x y = .ok z) : z = x + y ∧ x + y ≤ intMax := by
  unfold add at h
  split at h
  · cases h
    exact ⟨rfl, And.right ‹_›⟩
  · cases h

theorem access_ends {f : Nat → Except Fault α} {r : α} (h : Ends f r) :
    Ends (fun fuel => access (f fuel)) r := by
  obtain ⟨n, hn⟩ := h
  refine ⟨n, fun fuel hf => ?_⟩
  show access (f fuel) = .ok r
  rw [hn fuel hf]
  rfl

theorem access_steady {f : Nat → Except Fault α} (h : Steady f) :
    Steady fun fuel => access (f fuel) := by
  intro fuel r hr
  show access (f (fuel + 1)) = .ok r
  rw [h fuel r (access_eq_ok hr)]
  rfl

theorem ok_bind (a : α) (k : α → Except Undefined β) : (Except.ok a >>= k) = k a := rfl

theorem error_bind (e : Undefined) (k : α → Except Undefined β) :
    (Except.error e >>= k) = .error e := rfl

end

/-! ## Loops -/

section
variable {α σ : Type} (body : σ → α → Except Undefined σ) {i : Nat} {s r : σ} {xs : List α}

/-- The rounds from `i` on of `for (int i = 0; i < v.size(); i++)`. -/
def forFrom (i : Nat) (s : σ) : List α → Except Undefined σ
  | [] => return s
  | x :: xs => do
    let s ← body s x
    let _ ← add i 1
    forFrom (i + 1) s xs

def forEach (s : σ) (xs : List α) : Except Undefined σ := forFrom body 0 s xs

variable {body}

theorem forFrom_eq_ok_iff : forFrom body i s xs = .ok r ↔
    (xs = [] ∨ i + xs.length ≤ intMax) ∧ xs.foldlM body s = .ok r := by
  induction xs generalizing i s with
  | nil => exact (and_iff_right (.inl rfl)).symm
  | cons x xs ih =>
    rw [forFrom, List.foldlM_cons, List.length_cons]
    cases body s x with
    | error e => exact iff_of_false nofun fun h => nomatch h.2
    | ok s' =>
      rw [ok_bind, ok_bind]
      by_cases hle : (i : Int) + 1 ≤ intMax
      · rw [add_ok (Int.natCast_nonneg i) Int.one_nonneg hle, ok_bind, ih]
        refine and_congr_left fun _ => ?_
        cases xs with
        | nil => simpa using hle
        | cons y ys =>
          simp only [reduceCtorEq, false_or, List.length_cons]
          push_cast
          omega
      · rw [add_overflow (not_le.1 hle)]
        refine iff_of_false nofun fun h => ?_
        obtain hnil | hlen := h.1
        · cases hnil
        · push_cast at hlen
          omega

theorem forFrom_eq (h : i + xs.length ≤ intMax) : forFrom body i s xs = xs.foldlM body s := by
  induction xs generalizing i s with
  | nil => rfl
  | cons x xs ih =>
    rw [List.length_cons] at h
    push_cast at h
    rw [forFrom, List.foldlM_cons]
    refine bind_congr fun s' => ?_
    rw [add_ok (Int.natCast_nonneg i) Int.one_nonneg (by omega), ok_bind]
    exact ih (by push_cast; omega)

theorem forEach_eq (h : xs.length ≤ intMax) : forEach body s xs = xs.foldlM body s :=
  forFrom_eq (by rwa [Nat.cast_zero, Int.zero_add])

/-- **A loop with a counter** does its rounds as long as their number is an `int`. -/
theorem forEach_eq_ok_iff :
    forEach body s xs = .ok r ↔ xs.length ≤ intMax ∧ xs.foldlM body s = .ok r := by
  rw [forEach, forFrom_eq_ok_iff, Nat.cast_zero, Int.zero_add]
  refine and_congr_left fun _ => or_iff_right_of_imp ?_
  rintro rfl
  exact Int.le_of_lt (show (0 : Int) < intMax by decide)

end

end Signed
