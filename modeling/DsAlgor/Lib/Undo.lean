import Mathlib.Data.Set.Card
import Mathlib.Logic.Function.Basic
import Mathlib.Tactic

/-!
# Undo journals

A journal of the changes of a finite map: a record has the value a key had before and the one it
got, and a mark (`none`) stands where a block begins. `rollback` takes a map back to the last mark.
A journal is `Consistent` with a map when each record has the value its key has at that point on the
way back. The number of keys with a given value changes by one at a time (`ncard_update`).
-/

namespace Undo

structure Record (K V : Type*) where
  key : K
  orig : Option V
  new : Option V
  deriving DecidableEq

abbrev Journal (K V : Type*) := List (Option (Record K V))

section
variable {K V : Type*} [DecidableEq K] {m : K → Option V} {J J' : Journal K V} {r : Record K V}

def Record.revert (r : Record K V) (m : K → Option V) : K → Option V :=
  Function.update m r.key r.orig

def Consistent (m : K → Option V) : Journal K V → Prop
  | [] => True
  | none :: J => Consistent m J
  | some r :: J => m r.key = r.new ∧ Consistent (r.revert m) J

def rollback (m : K → Option V) : Journal K V → (K → Option V) × Journal K V
  | [] => (m, [])
  | none :: J => (m, J)
  | some r :: J => rollback (r.revert m) J

theorem Consistent.rollback (h : Consistent m J) :
    Consistent (rollback m J).1 (rollback m J).2 := by
  induction J generalizing m with
  | nil => exact h
  | cons e J ih =>
    cases e with
    | none => exact h
    | some r => exact ih h.2

theorem mem_of_mem_rollback {e : Option (Record K V)} (h : e ∈ (rollback m J).2) : e ∈ J := by
  induction J generalizing m with
  | nil => exact h
  | cons e' J ih =>
    cases e' with
    | none => exact List.mem_cons_of_mem _ h
    | some r => exact List.mem_cons_of_mem _ (ih h)

/-- A new value of a key, with its record. -/
theorem Consistent.record (h : Consistent m J) (k : K) (x : Option V) :
    Consistent (Function.update m k x) (some ⟨k, m k, x⟩ :: J) := by
  refine ⟨Function.update_self _ _ _, ?_⟩
  show Consistent (Function.update (Function.update m k x) k (m k)) J
  rw [Function.update_idem, Function.update_eq_self]
  exact h

/-- The way back over records that lead to a map. -/
def Leads (m : K → Option V) (rs : List (Record K V)) (m' : K → Option V) : Prop :=
  rs.foldl (fun m r => r.revert m) m = m'

theorem rollback_of_leads {m' : K → Option V} {rs : List (Record K V)} (h : Leads m rs m') :
    rollback m (rs.map some ++ none :: J) = (m', J) := by
  induction rs generalizing m with
  | nil =>
    cases h
    rfl
  | cons r rs ih => exact ih h

theorem Leads.trans {m' m'' : K → Option V} {rs rs' : List (Record K V)} (h : Leads m rs m')
    (h' : Leads m' rs' m'') :
    Leads m (rs ++ rs') m'' := by
  unfold Leads at *
  rw [List.foldl_append, h]
  exact h'

theorem leads_record (m : K → Option V) (k : K) (x : Option V) :
    Leads (Function.update m k x) [⟨k, m k, x⟩] m := by
  unfold Leads
  rw [List.foldl_cons, Record.revert, Function.update_idem, Function.update_eq_self]
  rfl

/-- A rollback goes to the last mark, or empties the journal. -/
theorem rollback_cases (m : K → Option V) (J : Journal K V) :
    (∃ rs : List (Record K V), J = rs.map some ∧ (rollback m J).2 = []) ∨
      ∃ (rs : List (Record K V)) (J' : Journal K V), J = rs.map some ++ none :: J' ∧
        (rollback m J).2 = J' := by
  induction J generalizing m with
  | nil => exact .inl ⟨[], rfl, rfl⟩
  | cons e J ih =>
    cases e with
    | none => exact .inr ⟨[], J, rfl, rfl⟩
    | some r =>
      rcases ih (r.revert m) with ⟨rs, rfl, h⟩ | ⟨rs, J', rfl, h⟩
      · exact .inl ⟨r :: rs, rfl, h⟩
      · exact .inr ⟨r :: rs, J', rfl, h⟩

end

/-! ## Counting -/

section
variable {K V : Type*} {m : K → Option V}

theorem finite_update [DecidableEq K] (h : {k | m k ≠ none}.Finite) (k : K) (x : Option V) :
    {k' | Function.update m k x k' ≠ none}.Finite := by
  refine (h.insert k).subset fun k' hk' => ?_
  by_cases hk : k' = k
  · exact .inl hk
  · refine .inr ?_
    have hk' : Function.update m k x k' ≠ none := hk'
    rwa [Function.update_of_ne hk] at hk'

theorem finite_preimage (h : {k | m k ≠ none}.Finite) (v : V) : {k | m k = some v}.Finite := by
  refine h.subset fun k hk => ?_
  have hk : m k = some v := hk
  show m k ≠ none
  rw [hk]
  exact Option.some_ne_none v

theorem ncard_update [DecidableEq K] [DecidableEq V] (h : {k | m k ≠ none}.Finite) (k : K)
    (x : Option V) (v : V) :
    ({k' | Function.update m k x k' = some v}.ncard : Int) =
      {k' | m k' = some v}.ncard - (if m k = some v then 1 else 0) + if x =
      some v then 1 else 0 := by
  have hfin := finite_preimage h v
  have hmem : k ∈ {k' | m k' = some v} ↔ m k = some v := Iff.rfl
  by_cases hx : x = some v
  · have hset : {k' | Function.update m k x k' = some v} = insert k {k' | m k' = some v} := by
      ext k'
      by_cases hk : k' = k
      · subst hk
        simp [hx]
      · simp [hk]
    rw [hset, if_pos hx]
    by_cases hm : m k = some v
    · rw [if_pos hm, Set.insert_eq_of_mem (hmem.2 hm)]
      omega
    · rw [if_neg hm, Set.ncard_insert_of_notMem (fun hc => hm (hmem.1 hc)) hfin]
      push_cast
      omega
  · have hset : {k' | Function.update m k x k' = some v} = {k' | m k' = some v} \ {k} := by
      ext k'
      by_cases hk : k' = k
      · subst hk
        simp [hx]
      · simp [hk]
    rw [hset, if_neg hx]
    by_cases hm : m k = some v
    · have := Set.ncard_sdiff_singleton_add_one (hmem.2 hm) hfin
      rw [if_pos hm]
      omega
    · rw [if_neg hm, Set.sdiff_singleton_eq_self fun hc => hm (hmem.1 hc)]
      omega

end

end Undo
