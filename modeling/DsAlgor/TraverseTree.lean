import DsAlgor.Lib.LevelOrder
import DsAlgor.Lib.Pointers

/-!
# `traverseTree.cc`

The labels of a tree are its nodes, and `nil` is `NULL`. Each traversal gives the nodes in the order
in which they are visited. The two in preorder are the same; `inOrderTraversal` starts on the right,
so that it is `inorderTraversal` backwards (`inOrderTraversal_eq`).
-/

namespace TraverseTree

open Pointers

section
variable {α : Type}

def preOrderTraversal : BinaryTree α → List α
  | .nil => []
  | .node root left right => root :: (preOrderTraversal left ++ preOrderTraversal right)

def preorderLoop : Nat → List (BinaryTree α) → List α → Except Fault (List α)
  | 0, _, _ => .error .loop
  | _ + 1, [], out => return out
  | _ + 1, .nil :: _, _ => .error .null
  | fuel + 1, .node node left right :: nodeStack, out =>
    let nodeStack := if !right.isNil then right :: nodeStack else nodeStack
    let nodeStack := if !left.isNil then left :: nodeStack else nodeStack
    preorderLoop fuel nodeStack (out ++ [node])

def iterativePreorder (fuel : Nat) (root : BinaryTree α) : Except Fault (List α) :=
  if root.isNil then return [] else preorderLoop fuel [root] []

def inOrderTraversal : BinaryTree α → List α
  | .nil => []
  | .node root left right => inOrderTraversal right ++ root :: inOrderTraversal left

def inorderLoop : Nat → List (BinaryTree α) → BinaryTree α → List α → Except Fault (List α)
  | 0, _, _, _ => .error .loop
  | fuel + 1, st, .node a left right, out => inorderLoop fuel (.node a left right :: st) left out
  | _ + 1, [], .nil, out => return out
  | _ + 1, .nil :: _, .nil, _ => .error .null
  | fuel + 1, .node a _ right :: st, .nil, out => inorderLoop fuel st right (out ++ [a])

def inorderTraversal (fuel : Nat) (root : BinaryTree α) : Except Fault (List α) :=
  if root.isNil then return [] else inorderLoop fuel [] root []

def levelLoop : Nat → List (BinaryTree α) → List α → Except Fault (List α)
  | 0, _, _ => .error .loop
  | _ + 1, [], out => return out
  | _ + 1, .nil :: _, _ => .error .null
  | fuel + 1, .node currentNode left right :: nodeQueue, out =>
    let nodeQueue := if !left.isNil then nodeQueue ++ [left] else nodeQueue
    let nodeQueue := if !right.isNil then nodeQueue ++ [right] else nodeQueue
    levelLoop fuel nodeQueue (out ++ [currentNode])

def levelTraversal (fuel : Nat) (root : BinaryTree α) : Except Fault (List α) :=
  if root.isNil then return [] else levelLoop fuel [root] []

/-! ## The loops -/

/-- What is still to come of a node on the stack of `inorderTraversal`. -/
def owed : BinaryTree α → List α
  | .nil => []
  | .node a _ right => a :: right.inorder

variable {s : List (BinaryTree α)} {t root : BinaryTree α}

theorem preorderLoop_eq {fuel : Nat} (out : List α) (hs : .nil ∉ s)
    (hfuel : (s.flatMap BinaryTree.preorder).length < fuel) :
    preorderLoop fuel s out = .ok (out ++ s.flatMap BinaryTree.preorder) := by
  induction fuel generalizing s out with
  | zero => cases hfuel
  | succ fuel ih =>
    cases s with
    | nil => exact congrArg Except.ok (List.append_nil out).symm
    | cons t s =>
      cases t with
      | nil => exact absurd List.mem_cons_self hs
      | node a l r =>
        have hstack : (l.single ++ (r.single ++ s)).flatMap BinaryTree.preorder =
            l.preorder ++ (r.preorder ++ s.flatMap BinaryTree.preorder) := by
          rw [List.flatMap_append, List.flatMap_append, BinaryTree.flatMap_single rfl,
            BinaryTree.flatMap_single rfl]
        have hs' : .nil ∉ l.single ++ (r.single ++ s) := by
          simp only [List.mem_append, not_or]
          exact ⟨l.nil_notMem_single, r.nil_notMem_single, List.not_mem_of_not_mem_cons hs⟩
        have hnext := ih (out ++ [a]) hs' (by
          rw [hstack]
          simp only [List.flatMap_cons, BinaryTree.preorder, List.length_append,
            List.length_cons] at hfuel ⊢
          omega)
        simp only [preorderLoop, BinaryTree.push_single, hnext, hstack]
        simp [BinaryTree.preorder]

theorem levelLoop_eq {fuel : Nat} (out : List α) (hs : .nil ∉ s)
    (hfuel : (BinaryTree.queueOrder s).length < fuel) :
    levelLoop fuel s out = .ok (out ++ BinaryTree.queueOrder s) := by
  induction fuel generalizing s out with
  | zero => cases hfuel
  | succ fuel ih =>
    cases s with
    | nil =>
      rw [BinaryTree.queueOrder, List.append_nil]
      rfl
    | cons t s =>
      cases t with
      | nil => exact absurd List.mem_cons_self hs
      | node a l r =>
        have hs' : .nil ∉ s ++ (l.single ++ r.single) := by
          simp only [List.mem_append, not_or]
          exact ⟨List.not_mem_of_not_mem_cons hs, l.nil_notMem_single, r.nil_notMem_single⟩
        rw [BinaryTree.queueOrder] at hfuel ⊢
        have hnext := ih (out ++ [a]) hs' (Nat.lt_of_succ_lt_succ hfuel)
        simp only [levelLoop, BinaryTree.enqueue_single]
        rw [List.append_assoc, hnext, List.append_assoc, List.singleton_append]

theorem inorderLoop_eq {fuel : Nat} (out : List α) (hs : .nil ∉ s)
    (hfuel : 2 * root.inorder.length + (s.map fun t => 2 * (owed t).length - 1).sum < fuel) :
    inorderLoop fuel s root out = .ok (out ++ (root.inorder ++ s.flatMap owed)) := by
  induction fuel generalizing s root out with
  | zero => cases hfuel
  | succ fuel ih =>
    cases root with
    | node a l r =>
      have hs' : .nil ∉ .node a l r :: s := by simpa using hs
      rw [inorderLoop, ih _ hs']
      · simp [BinaryTree.inorder, owed]
      · simp only [BinaryTree.inorder, owed, List.length_append, List.length_cons, List.map_cons,
          List.sum_cons] at hfuel ⊢
        omega
    | nil =>
      cases s with
      | nil => simp [inorderLoop, BinaryTree.inorder, pure, Except.pure]
      | cons t s =>
        cases t with
        | nil => exact absurd List.mem_cons_self hs
        | node a l r =>
          rw [inorderLoop, ih _ (List.not_mem_of_not_mem_cons hs)]
          · simp [BinaryTree.inorder, owed]
          · simp only [BinaryTree.inorder, owed, List.length_nil, List.length_cons, List.map_cons,
              List.sum_cons] at hfuel ⊢
            omega

/-! ## The traversals -/

variable (t)

theorem preOrderTraversal_eq : preOrderTraversal t = t.preorder := by
  induction t with
  | nil => rfl
  | node a l r ihl ihr => rw [preOrderTraversal, ihl, ihr, BinaryTree.preorder]

/-- The right subtree comes first. -/
theorem inOrderTraversal_eq : inOrderTraversal t = t.inorder.reverse := by
  induction t with
  | nil => rfl
  | node a l r ihl ihr => simp [inOrderTraversal, ihl, ihr, BinaryTree.inorder]

theorem iterativePreorder_halts :
    Halts (fun fuel => iterativePreorder fuel t) (.ok t.preorder) := by
  refine ⟨t.preorder.length + 1, fun fuel hfuel => ?_⟩
  cases t with
  | nil => rfl
  | node a l r =>
    have hloop : preorderLoop fuel [.node a l r] [] = _ :=
      preorderLoop_eq [] (by simp) (by simpa using hfuel)
    simpa [iterativePreorder, BinaryTree.isNil] using hloop

theorem inorderTraversal_halts :
    Halts (fun fuel => inorderTraversal fuel t) (.ok t.inorder) := by
  refine ⟨2 * t.inorder.length + 1, fun fuel hfuel => ?_⟩
  cases t with
  | nil => rfl
  | node a l r =>
    have hloop : inorderLoop fuel [] (.node a l r) [] = _ :=
      inorderLoop_eq [] (by simp) (by simpa using hfuel)
    simpa [inorderTraversal, BinaryTree.isNil] using hloop

theorem levelTraversal_halts :
    Halts (fun fuel => levelTraversal fuel t) (.ok t.levelOrder) := by
  refine ⟨t.levelOrder.length + 1, fun fuel hfuel => ?_⟩
  cases t with
  | nil => rfl
  | node a l r =>
    rw [← BinaryTree.queueOrder_singleton] at hfuel ⊢
    have hloop : levelLoop fuel [.node a l r] [] = _ := levelLoop_eq [] (by simp) hfuel
    simpa [levelTraversal, BinaryTree.isNil] using hloop

/-- Every node of `t` is in `out` once, and nothing else is. -/
def VisitsOnce (t : BinaryTree α) (out : List α) : Prop :=
  out.Nodup ∧ ∀ a, a ∈ out ↔ a ∈ t.preorder

/-- The traversals agree, end, and visit every node once. -/
structure Agree (t : BinaryTree α) : Prop where
  preorder : Halts (fun fuel => iterativePreorder fuel t) (.ok (preOrderTraversal t))
  inorder : Halts (fun fuel => inorderTraversal fuel t) (.ok (inOrderTraversal t))
  level : ∃ out, Halts (fun fuel => levelTraversal fuel t) (.ok out) ∧ VisitsOnce t out
  preorder_once : VisitsOnce t (preOrderTraversal t)
  inorder_once : VisitsOnce t (inOrderTraversal t)

theorem visitsOnce_of_perm {out : List α} (hnd : t.preorder.Nodup) (h : out.Perm t.preorder) :
    VisitsOnce t out :=
  ⟨h.nodup_iff.2 hnd, fun _ => h.mem_iff⟩

theorem reverse_eq_self_iff {l : List α} (hnd : l.Nodup) : l.reverse = l ↔ l.length ≤ 1 := by
  constructor
  · intro h
    by_contra hlen
    -- The first and the last are the same.
    have hends : l[0] = l[l.length - 1] := by
      have hfirst := List.getElem_reverse (l := l) (i := 0) (h := by simp; omega)
      simpa [h] using hfirst
    have := hnd.getElem_inj_iff.1 hends
    omega
  · intro h
    match l, h with
    | [], _ => rfl
    | [a], _ => rfl

/-- **The traversals agree** on the trees with one node at most. -/
theorem traversals_agree_iff (hnd : t.preorder.Nodup) : Agree t ↔ t.numNodes ≤ 1 := by
  have hperm := t.inorder_perm
  constructor
  · intro h
    have hsame := Except.ok.inj (h.inorder.unique (inorderTraversal_halts t))
    rw [inOrderTraversal_eq, reverse_eq_self_iff (hperm.nodup_iff.2 hnd)] at hsame
    rwa [BinaryTree.length_inorder] at hsame
  · intro h
    refine ⟨?_, ?_, ⟨_, levelTraversal_halts t, visitsOnce_of_perm t hnd t.levelOrder_perm⟩, ?_, ?_⟩
    · rw [preOrderTraversal_eq]
      exact iterativePreorder_halts t
    · rw [inOrderTraversal_eq, (reverse_eq_self_iff (hperm.nodup_iff.2 hnd)).2]
      · exact inorderTraversal_halts t
      · rwa [BinaryTree.length_inorder]
    · rw [preOrderTraversal_eq]
      exact visitsOnce_of_perm t hnd (List.Perm.refl _)
    · rw [inOrderTraversal_eq]
      exact visitsOnce_of_perm t hnd ((List.reverse_perm _).trans hperm)

end

theorem traversals_agree_single : Agree (BinaryTree.node 1 .nil .nil) :=
  (traversals_agree_iff (.node 1 .nil .nil) (by decide)).2 le_rfl

/-- Node 2 on the left of 1 comes last in one of the two. -/
theorem traversals_differ : ∃ t : BinaryTree Nat, t.preorder.Nodup ∧ ¬ Agree t := by
  refine ⟨.node 1 (.node 2 .nil .nil) .nil, by decide, fun h => ?_⟩
  have hsame := h.inorder.unique (inorderTraversal_halts _)
  exact absurd (Except.ok.inj hsame) (by decide)

end TraverseTree
