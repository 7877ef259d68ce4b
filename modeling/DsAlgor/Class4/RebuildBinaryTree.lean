import DsAlgor.Lib.Checked
import DsAlgor.Lib.Traversals

/-!
# `rebuild_binary_tree.c`

A pointer into a string is an index; a read outside of the string is a fault. `rebuild` gives the
tree back whose traversals it gets, when no label is in the tree twice (`rebuild_ends`).
-/

namespace Class4

open Checked

section
variable {α : Type} [DecidableEq α]

/-- The loop over `istr`; `rounds` is the distance from `iter` to the end. -/
def find (pstr istr : Arr α) (p : Int) : Nat → Int → Except Fault Int
  | 0, iter => return iter
  | rounds + 1, iter => do
    if (← istr.get iter) = (← pstr.get p) then return iter
    else find pstr istr p rounds (iter + 1)

/-- `p` and `i` are the places in the two strings. -/
def rebuild (pstr istr : Arr α) : Nat → Int → Int → Int → Except Fault (BinaryTree α)
  | 0, _, _, _ => .error .loop
  | fuel + 1, p, i, n => do
    if n ≤ 0 then return .nil
    else
      let data ← pstr.get p
      let iter ← find pstr istr p n.toNat i
      let k := iter - i
      let left ← rebuild pstr istr fuel (p + 1) i k
      let right ← rebuild pstr istr fuel (p + k + 1) (iter + 1) (n - k - 1)
      return .node data left right

variable {pstr : Arr α} {A B C D P : List α} {x : α} {p i : Int}

/-- The loop stops at the first place of the label. -/
theorem find_eq (rounds : Nat) (hp : pstr.get p = .ok x) (hC : x ∉ C) (hi : i = A.length)
    (hr : C.length < rounds) :
    find pstr ⟨0, A ++ (C ++ x :: D)⟩ p rounds i = .ok (i + C.length) := by
  induction C generalizing A i rounds with
  | nil =>
    obtain ⟨rounds, rfl⟩ := Nat.exists_eq_succ_of_ne_zero (Nat.ne_zero_of_lt hr)
    have hget : (⟨0, A ++ x :: D⟩ : Arr α).get i = .ok x := get_at (by omega)
    simp [find, hget, hp, bind, Except.bind, pure, Except.pure]
  | cons c C ih =>
    obtain ⟨rounds, rfl⟩ := Nat.exists_eq_succ_of_ne_zero (Nat.ne_zero_of_lt hr)
    have hget : (⟨0, A ++ c :: (C ++ x :: D)⟩ : Arr α).get i = .ok c := get_at (by omega)
    have hne : c ≠ x := fun heq => hC (heq ▸ List.mem_cons_self)
    have hrest := ih (A := A ++ [c]) (i := i + 1) rounds
      (fun h => hC (List.mem_cons_of_mem _ h)) (by simp [hi])
      (by simpa using Nat.lt_of_succ_lt_succ hr)
    rw [List.append_assoc, List.singleton_append] at hrest
    simp only [find, List.cons_append, hget, hp, bind, Except.bind, hne, if_false, hrest,
      List.length_cons]
    congr 1
    omega

/-- The traversals stand in the strings from `p` and `i` on. -/
theorem rebuild_segment (t : BinaryTree α) (hnd : t.inorder.Nodup) (hp : p = A.length)
    (hi : i = C.length) :
    Ends (fun fuel => rebuild ⟨0, A ++ (t.preorder ++ B)⟩ ⟨0, C ++ (t.inorder ++ D)⟩ fuel p i
      t.numNodes) t := by
  induction t generalizing A B C D p i with
  | nil => exact Ends.succ (Ends.pure _)
  | node a l r ihl ihr =>
    obtain ⟨hl, hr, hdis⟩ := List.nodup_append.1 hnd
    have ha : a ∉ l.inorder := fun h => hdis a h a List.mem_cons_self rfl
    have hlen := l.length_inorder
    have hlen' := l.length_preorder
    have hpre : A ++ (BinaryTree.preorder (.node a l r) ++ B) =
        A ++ a :: (l.preorder ++ (r.preorder ++ B)) := by
      simp [BinaryTree.preorder]
    have hin : C ++ (BinaryTree.inorder (.node a l r) ++ D) =
        C ++ (l.inorder ++ a :: (r.inorder ++ D)) := by
      simp [BinaryTree.inorder]
    rw [hpre, hin]
    have hget : (⟨0, A ++ a :: (l.preorder ++ (r.preorder ++ B))⟩ : Arr α).get p = .ok a :=
      get_at (by omega)
    have hfind := find_eq (D := r.inorder ++ D) (BinaryTree.node a l r).numNodes hget ha
      hi (by simp only [BinaryTree.numNodes]; omega)
    have hleft := ihl (A := A ++ [a]) (B := r.preorder ++ B) (C := C) (D := a :: (r.inorder ++ D))
      (p := p + 1) (i := i) hl (by simp [hp]) hi
    have hright := ihr (A := A ++ a :: l.preorder) (B := B) (C := C ++ l.inorder ++ [a]) (D := D)
      (p := p + l.numNodes + 1) (i := i + l.numNodes + 1) (List.nodup_cons.1 hr).2
      (by simp only [hp, List.length_append, List.length_cons, hlen']; omega)
      (by simp [hi, hlen]; omega)
    have hpos : ¬ ((BinaryTree.node a l r).numNodes : Int) ≤ 0 := by
      simp only [BinaryTree.numNodes]
      omega
    rw [hlen] at hfind
    rw [List.append_assoc, List.singleton_append] at hleft
    rw [List.append_assoc, List.cons_append, List.append_assoc, List.append_assoc,
      List.singleton_append] at hright
    have hk : i + (l.numNodes : Int) - i = l.numNodes := by omega
    have hrest : ((BinaryTree.node a l r).numNodes : Int) - l.numNodes - 1 = r.numNodes := by
      simp only [BinaryTree.numNodes]
      omega
    have hstep : ∀ fuel, rebuild ⟨0, A ++ a :: (l.preorder ++ (r.preorder ++ B))⟩
        ⟨0, C ++ (l.inorder ++ a :: (r.inorder ++ D))⟩ (fuel + 1) p i
        (BinaryTree.node a l r).numNodes = (do
          let left ← rebuild ⟨0, A ++ a :: (l.preorder ++ (r.preorder ++ B))⟩
            ⟨0, C ++ (l.inorder ++ a :: (r.inorder ++ D))⟩ fuel (p + 1) i l.numNodes
          let right ← rebuild ⟨0, A ++ a :: (l.preorder ++ (r.preorder ++ B))⟩
            ⟨0, C ++ (l.inorder ++ a :: (r.inorder ++ D))⟩ fuel (p + l.numNodes + 1)
            (i + l.numNodes + 1) r.numNodes
          return .node a left right) := by
      intro fuel
      simp only [rebuild, if_neg hpos, hget, Int.toNat_natCast, hfind, hk, hrest, bind,
        Except.bind]
    apply Ends.succ
    simp only [hstep]
    exact hleft.bind (hright.bind (Ends.pure _))

/-- **The tree comes back from its traversals.** -/
theorem rebuild_ends (t : BinaryTree α) (h : t.preorder.Nodup) :
    Ends (fun fuel => rebuild ⟨0, t.preorder⟩ ⟨0, t.inorder⟩ fuel 0 0 t.numNodes) t := by
  have hrun := rebuild_segment (A := []) (B := []) (C := []) (D := []) (p := 0) (i := 0) t
    (t.inorder_perm.nodup_iff.2 h) rfl rfl
  simpa using hrun

end

theorem rebuild_bac : Ends
    (fun fuel => rebuild ⟨0, ['a', 'b', 'c']⟩ ⟨0, ['b', 'a', 'c']⟩ fuel 0 0 3)
    (.node 'a' (.node 'b' .nil .nil) (.node 'c' .nil .nil)) :=
  rebuild_ends (.node 'a' (.node 'b' .nil .nil) (.node 'c' .nil .nil)) (by decide)

end Class4
