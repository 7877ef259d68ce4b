import DsAlgor.Lib.Checked

/-!
# `sortStack.cpp`

A stack is sorted with a second one. `sort` takes an element from the input and puts back on the
input what is smaller on the output. These elements then return to the output one by one, without
another move (`sort_reload`), so a round of `sort` is an insertion in the end (`sort_ends`).
-/

namespace Class3

open Checked

/-- The loop that moves elements of `output` to `input`. Stacks are lists, the top first. -/
def unload (value : Int) : List Int → List Int → List Int × List Int
  | input, [] => (input, [])
  | input, top :: output =>
    if top < value then unload value (top :: input) output else (input, top :: output)

/-- The loop of `sort`: `input` and `output` at its end. -/
def sortLoop : Nat → List Int → List Int → Except Fault (List Int × List Int)
  | 0, _, _ => .error .loop
  | _ + 1, [], output => return ([], output)
  | fuel + 1, value :: input, output =>
    let (input, output) := unload value input output
    sortLoop fuel input (value :: output)

def sort (fuel : Nat) (input : List Int) : Except Fault (List Int × List Int) :=
  sortLoop fuel input []

section
variable {value : Int} {input output L : List Int}

theorem unload_stop (h : ∀ y ∈ output, value ≤ y) :
    unload value input output = (input, output) := by
  cases output with
  | nil => rfl
  | cons top output => rw [unload, if_neg (not_lt.2 (h top List.mem_cons_self))]

/-- What is smaller than `value` is moved. -/
theorem unload_spec (value : Int) (input : List Int) (h : output.Pairwise (· ≤ ·)) :
    ∃ L S : List Int, output = L ++ S ∧ (∀ x ∈ L, x < value) ∧ (∀ y ∈ S, value ≤ y) ∧
    unload value input output = (L.reverse ++ input, S) := by
  induction output generalizing input with
  | nil => exact ⟨[], [], rfl, nofun, nofun, rfl⟩
  | cons top output ih =>
    obtain ⟨hle, hout⟩ := List.pairwise_cons.1 h
    by_cases hlt : top < value
    · obtain ⟨L, S, rfl, hL, hS, hrun⟩ := ih (top :: input) hout
      refine ⟨top :: L, S, rfl, ?_, hS, ?_⟩
      · intro x hx
        cases List.mem_cons.1 hx with
        | inl heq => exact heq ▸ hlt
        | inr hx => exact hL x hx
      · rw [unload, if_pos hlt, hrun]
        simp
    · refine ⟨[], top :: output, rfl, nofun, ?_, by rw [unload, if_neg hlt]; rfl⟩
      intro y hy
      cases List.mem_cons.1 hy with
      | inl heq => exact heq ▸ not_lt.1 hlt
      | inr hy => exact (not_lt.1 hlt).trans (hle y hy)

/-- What was moved goes back on the output without another move. -/
theorem sort_reload {r : List Int × List Int} (hL : (L ++ output).Pairwise (· ≤ ·))
    (h : Ends (fun fuel => sortLoop fuel input (L ++ output)) r) :
    Ends (fun fuel => sortLoop fuel (L.reverse ++ input) output) r := by
  induction L using List.reverseRecOn generalizing output with
  | nil => exact h
  | append_singleton L x ih =>
    rw [List.append_assoc] at hL h
    have hx : ∀ y ∈ output, x ≤ y := (List.pairwise_cons.1 (List.pairwise_append.1 hL).2.1).1
    have hnext : (L ++ [x]).reverse ++ input = x :: (L.reverse ++ input) := by simp
    rw [hnext]
    apply Ends.succ
    simp only [sortLoop, unload_stop hx]
    exact ih hL h

theorem sortLoop_ends (input : List Int) (h : output.Pairwise (· ≤ ·)) : ∃ out : List Int,
    Ends (fun fuel => sortLoop fuel input output) ([], out) ∧ out.Perm (input ++ output) ∧
      out.Pairwise (· ≤ ·) := by
  induction input generalizing output with
  | nil => exact ⟨output, Ends.succ (Ends.pure _), List.Perm.refl _, h⟩
  | cons value input ih =>
    obtain ⟨L, S, rfl, hL, hS, hrun⟩ := unload_spec value input h
    obtain ⟨hsortedL, hsortedS, hLS⟩ := List.pairwise_append.1 h
    have hsorted : (L ++ value :: S).Pairwise (· ≤ ·) := by
      refine List.pairwise_append.2 ⟨hsortedL, List.pairwise_cons.2 ⟨hS, hsortedS⟩,
        fun x hx y hy => ?_⟩
      cases List.mem_cons.1 hy with
      | inl heq => exact heq ▸ (hL x hx).le
      | inr hy => exact hLS x hx y hy
    obtain ⟨out, hends, hperm, hout⟩ := ih hsorted
    refine ⟨out, ?_, hperm.trans ?_, hout⟩
    · apply Ends.succ
      simp only [sortLoop, hrun]
      exact sort_reload hsorted hends
    · rw [← List.append_assoc, List.cons_append, ← List.append_assoc]
      exact List.perm_middle

end

/-- `sort` empties its input, and what it returns holds the same elements in order. -/
theorem sort_sorts (input : List Int) : ∃ output : List Int,
    Ends (fun fuel => sort fuel input) ([], output) ∧ output.Perm input ∧
      output.Pairwise (· ≤ ·) := by
  obtain ⟨output, hends, hperm, hsorted⟩ := sortLoop_ends input List.Pairwise.nil
  rw [List.append_nil] at hperm
  exact ⟨output, hends, hperm, hsorted⟩

end Class3
