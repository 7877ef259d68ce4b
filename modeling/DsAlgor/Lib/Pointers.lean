import DsAlgor.Lib.Chain
import DsAlgor.Lib.Signed

/-!
# Fields of nodes

An address is a number, and 0 is `NULL`. A field is a function of the address; an access through
`NULL` is a fault, and so is an `int` that overflows. `Halts f r`: with enough fuel the outcome of
`f` is `r`, a result or a fault.
-/

namespace Pointers

open Signed (intMax)

abbrev Ptr := Nat

inductive Fault
  /-- An access through `NULL`. -/
  | null
  /-- The fuel is used up. -/
  | loop
  /-- A sum of `int`s that is none. -/
  | overflow
deriving DecidableEq

section
variable {α : Type} {f : Ptr → α} {p : Ptr}

/-- `p->f` -/
def load (f : Ptr → α) (p : Ptr) : Except Fault α := if p = 0 then .error .null else .ok (f p)

/-- `p->f = a` -/
def store (f : Ptr → α) (p : Ptr) (a : α) : Except Fault (Ptr → α) :=
  if p = 0 then .error .null else .ok (Function.update f p a)

theorem load_ok (h : p ≠ 0) : load f p = .ok (f p) := if_neg h

theorem store_ok (h : p ≠ 0) (a : α) : store f p a = .ok (Function.update f p a) := if_neg h

@[simp] theorem load_null : load f 0 = .error .null := rfl

/-- `++i` -/
def increment (i : Int) : Except Fault Int := if i < intMax then .ok (i + 1) else .error .overflow

theorem increment_ok {i : Int} (h : i < intMax) : increment i = .ok (i + 1) := if_pos h

theorem increment_overflow {i : Int} (h : intMax ≤ i) : increment i = .error .overflow :=
  if_neg (not_lt.2 h)

end

/-- Following `next` from `p` visits the nodes `ps` and then arrives at `NULL`. -/
def IsList (next : Ptr → Ptr) (p : Ptr) (ps : List Ptr) : Prop := Chain next p ps 0 ∧ 0 ∉ ps

section
variable {next next' : Ptr → Ptr} {p : Ptr} {ps : List Ptr}

theorem IsList.nodup (h : IsList next p ps) : ps.Nodup := h.1.nodup h.2

theorem IsList.congr (h : IsList next p ps) (hn : ∀ q ∈ ps, next' q = next q) :
    IsList next' p ps :=
  ⟨h.1.congr hn, h.2⟩

theorem IsList.ne_zero (h : IsList next p ps) : ∀ q ∈ ps, q ≠ 0 :=
  fun _ hq => ne_of_mem_of_not_mem hq h.2

/-- The list at `NULL` is empty. -/
theorem IsList.eq_zero_iff (h : IsList next p ps) : p = 0 ↔ ps = [] := by
  cases ps with
  | nil => exact iff_of_true h.1 rfl
  | cons q ps =>
    obtain ⟨rfl, _⟩ := h.1
    exact iff_of_false (h.ne_zero p List.mem_cons_self) (List.cons_ne_nil p ps)

end

section
variable {ε α : Type} {f : Nat → Except ε α} {r r' : Except ε α}

/-- With enough fuel the outcome is `r`. -/
def Halts (f : Nat → Except ε α) (r : Except ε α) : Prop := ∃ n, ∀ fuel ≥ n, f fuel = r

theorem Halts.unique (h : Halts f r) (h' : Halts f r') : r = r' := by
  obtain ⟨n, hn⟩ := h
  obtain ⟨m, hm⟩ := h'
  rw [← hn (max n m) (Nat.le_max_left n m), hm (max n m) (Nat.le_max_right n m)]

theorem Halts.const (r : Except ε α) : Halts (fun _ => r) r := ⟨0, fun _ _ => rfl⟩

/-- A program that spends a unit of fuel first. -/
theorem Halts.succ (h : Halts (fun fuel => f (fuel + 1)) r) : Halts f r := by
  obtain ⟨n, hn⟩ := h
  refine ⟨n + 1, fun fuel hf => ?_⟩
  obtain ⟨m, rfl⟩ := Nat.exists_eq_succ_of_ne_zero (Nat.ne_zero_of_lt hf)
  exact hn m (Nat.le_of_succ_le_succ hf)

/-- One program behind another. -/
theorem Halts.bind {β : Type} {a : α} {r : Except ε β} {k : Nat → α → Except ε β}
    (h : Halts f (.ok a)) (hk : Halts (fun fuel => k fuel a) r) :
    Halts (fun fuel => f fuel >>= k fuel) r := by
  obtain ⟨n, hn⟩ := h
  obtain ⟨m, hm⟩ := hk
  refine ⟨max n m, fun fuel hf => ?_⟩
  change f fuel >>= k fuel = r
  rw [hn fuel ((Nat.le_max_left n m).trans hf)]
  exact hm fuel ((Nat.le_max_right n m).trans hf)

theorem Halts.bind_error {β : Type} {e : ε} {k : Nat → α → Except ε β} (h : Halts f (.error e)) :
    Halts (fun fuel => f fuel >>= k fuel) (.error e) := by
  obtain ⟨n, hn⟩ := h
  refine ⟨n, fun fuel hf => ?_⟩
  change f fuel >>= k fuel = .error e
  rw [hn fuel hf]
  rfl

/-- A program that has become another one when `k` units of fuel are spent. -/
theorem Halts.after {g : Nat → Except ε α} (k : Nat) (hg : ∀ fuel, f (fuel + k) = g fuel)
    (h : Halts g r) : Halts f r := by
  obtain ⟨n, hn⟩ := h
  refine ⟨n + k, fun fuel hf => ?_⟩
  have hsum : fuel - k + k = fuel := by omega
  rw [← hsum, hg]
  exact hn _ (by omega)

end

end Pointers
