import Mathlib.Data.List.Perm.Basic
import Mathlib.Data.Tree.Basic
import Mathlib.Tactic

/-!
# Traversals of a binary tree

Both traversals list the same values; a value that is listed once has one place in either.
-/

namespace BinaryTree

variable {α : Type*}

def preorder : BinaryTree α → List α
  | nil => []
  | node a l r => a :: (l.preorder ++ r.preorder)

def inorder : BinaryTree α → List α
  | nil => []
  | node a l r => l.inorder ++ a :: r.inorder

theorem inorder_perm (t : BinaryTree α) : t.inorder.Perm t.preorder := by
  induction t with
  | nil => exact List.Perm.refl _
  | node a l r ihl ihr => exact List.perm_middle.trans ((ihl.append ihr).cons a)

theorem length_preorder (t : BinaryTree α) : t.preorder.length = t.numNodes := by
  induction t with
  | nil => rfl
  | node a l r ihl ihr => simp [preorder, ihl, ihr]

theorem length_inorder (t : BinaryTree α) : t.inorder.length = t.numNodes := by
  rw [t.inorder_perm.length_eq, length_preorder]

/-- No node is in two places. -/
structure Apart (b : α) (l r : BinaryTree α) : Prop where
  left : l.preorder.Nodup
  right : r.preorder.Nodup
  root_left : b ∉ l.preorder
  root_right : b ∉ r.preorder
  sides : ∀ a ∈ l.preorder, a ∉ r.preorder

theorem apart_of_nodup {b : α} {l r : BinaryTree α} (h : (node b l r).preorder.Nodup) :
    Apart b l r := by
  obtain ⟨hb, h⟩ := List.nodup_cons.1 h
  obtain ⟨hl, hr, hdis⟩ := List.nodup_append.1 h
  exact ⟨hl, hr, fun hmem => hb (List.mem_append_left _ hmem),
    fun hmem => hb (List.mem_append_right _ hmem), fun a ha ha' => hdis a ha a ha' rfl⟩

end BinaryTree
