import DsAlgor.Lib.Traversals

/-!
# The levels of a binary tree

`queueOrder` is what a queue gives out: a tree leaves it and its subtrees go in at the end. From the
queue of one tree that is the tree level by level (`queueOrder_singleton`).
-/

namespace BinaryTree

variable {α : Type*}

/-- The nodes at depth `n`, from left to right. -/
def level : BinaryTree α → ℕ → List α
  | nil, _ => []
  | node a _ _, 0 => [a]
  | node _ l r, n + 1 => l.level n ++ r.level n

def levelOrder (t : BinaryTree α) : List α := (List.range t.height).flatMap t.level

@[simp] theorem level_nil (n : ℕ) : (nil : BinaryTree α).level n = [] := by
  cases n <;> rfl

@[simp] theorem level_zero (a : α) (l r : BinaryTree α) : (node a l r).level 0 = [a] := rfl

@[simp] theorem level_succ (a : α) (l r : BinaryTree α) (n : ℕ) :
    (node a l r).level (n + 1) = l.level n ++ r.level n := rfl

theorem mem_preorder_iff {t : BinaryTree α} {a : α} : a ∈ t.preorder ↔ ∃ n, a ∈ t.level n := by
  induction t with
  | nil => simp [preorder]
  | node b l r ihl ihr =>
    simp only [preorder, List.mem_cons, List.mem_append, ihl, ihr]
    constructor
    · rintro (rfl | ⟨n, hn⟩ | ⟨n, hn⟩)
      · exact ⟨0, by simp⟩
      · exact ⟨n + 1, by simp [hn]⟩
      · exact ⟨n + 1, by simp [hn]⟩
    · rintro ⟨n, hn⟩
      cases n with
      | zero => exact .inl (List.mem_singleton.1 hn)
      | succ n =>
        cases List.mem_append.1 hn with
        | inl hn => exact .inr (.inl ⟨n, hn⟩)
        | inr hn => exact .inr (.inr ⟨n, hn⟩)

theorem mem_preorder_of_level {t : BinaryTree α} {a : α} {n : ℕ} (h : a ∈ t.level n) :
    a ∈ t.preorder :=
  mem_preorder_iff.2 ⟨n, h⟩

section
variable {t : BinaryTree α} {x : α} {n : ℕ}

theorem level_nodup (hnd : t.preorder.Nodup) (n : ℕ) : (t.level n).Nodup := by
  induction t generalizing n with
  | nil => simp
  | node a l r ihl ihr =>
    have h := apart_of_nodup hnd
    cases n with
    | zero => exact List.nodup_singleton a
    | succ n =>
      refine List.nodup_append.2 ⟨ihl h.left n, ihr h.right n, ?_⟩
      rintro x hx _ hx' rfl
      exact h.sides x (mem_preorder_of_level hx) (mem_preorder_of_level hx')

theorem Apart.level_zero {b : α} {l r : BinaryTree α} (h : Apart b l r)
    (hn : b ∈ (node b l r).level n) : n = 0 := by
  cases n with
  | zero => rfl
  | succ n =>
    cases List.mem_append.1 hn with
    | inl hn => exact absurd (mem_preorder_of_level hn) h.root_left
    | inr hn => exact absurd (mem_preorder_of_level hn) h.root_right

/-- A node has one depth. -/
theorem depth_unique {m : ℕ} (hnd : t.preorder.Nodup) (hm : x ∈ t.level m) (hn : x ∈ t.level n) :
    m = n := by
  induction t generalizing m n with
  | nil => simp at hm
  | node a l r ihl ihr =>
    have h := apart_of_nodup hnd
    cases m with
    | zero =>
      obtain rfl := List.mem_singleton.1 hm
      exact (h.level_zero hn).symm
    | succ m =>
      cases n with
      | zero =>
        obtain rfl := List.mem_singleton.1 hn
        exact h.level_zero hm
      | succ n =>
        obtain hm | hm := List.mem_append.1 hm <;> obtain hn | hn := List.mem_append.1 hn
        · rw [ihl h.left hm hn]
        · exact absurd (mem_preorder_of_level hn) (h.sides x (mem_preorder_of_level hm))
        · exact absurd (mem_preorder_of_level hm) (h.sides x (mem_preorder_of_level hn))
        · rw [ihr h.right hm hn]

end

/-! ## The queue -/

def isNil : BinaryTree α → Bool
  | nil => true
  | node _ _ _ => false

/-- The queue of one tree; an empty tree is not put into a queue. -/
def single : BinaryTree α → List (BinaryTree α)
  | nil => []
  | node a l r => [node a l r]

def children : BinaryTree α → List (BinaryTree α)
  | nil => []
  | node _ l r => l.single ++ r.single

theorem push_single (t : BinaryTree α) (s : List (BinaryTree α)) :
    (if !t.isNil then t :: s else s) = t.single ++ s := by
  cases t <;> rfl

theorem enqueue_single (t : BinaryTree α) (q : List (BinaryTree α)) :
    (if !t.isNil then q ++ [t] else q) = q ++ t.single := by
  cases t with
  | nil => exact (List.append_nil q).symm
  | node a l r => rfl

theorem nil_notMem_single : ∀ t : BinaryTree α, .nil ∉ t.single
  | nil => List.not_mem_nil
  | node _ _ _ => by simp [single]

@[simp] theorem flatMap_single {β : Type*} {f : BinaryTree α → List β} (h : f nil = [])
    (t : BinaryTree α) : t.single.flatMap f = f t := by
  cases t with
  | nil => exact h.symm
  | node a l r => exact List.append_nil _

/-- What a queue gives out. -/
def queueOrder : List (BinaryTree α) → List α
  | [] => []
  | nil :: q => queueOrder q
  | node a l r :: q => a :: queueOrder (q ++ (l.single ++ r.single))
termination_by q => (q.map fun t => 2 * t.numNodes + 1).sum
decreasing_by
  · simp
  · have hsingle : ∀ t : BinaryTree α, (t.single.map fun t => 2 * t.numNodes + 1).sum ≤
        2 * t.numNodes + 1 := by
      intro t
      cases t with
      | nil => exact Nat.zero_le _
      | node a l r => exact le_rfl
    have hl := hsingle l
    have hr := hsingle r
    simp only [List.map_append, List.sum_append, List.map_cons, List.sum_cons, numNodes]
    omega

variable {q q' : List (BinaryTree α)} {t : BinaryTree α}

/-- The trees that are in the queue leave it before their subtrees do. -/
theorem queueOrder_append (q q' : List (BinaryTree α)) : queueOrder (q ++ q') =
    q.flatMap (level · 0) ++ queueOrder (q' ++ q.flatMap children) := by
  induction q generalizing q' with
  | nil => simp
  | cons t q ih =>
    cases t with
    | nil =>
      rw [List.cons_append, queueOrder, ih]
      rfl
    | node a l r =>
      rw [List.cons_append, queueOrder, List.append_assoc, ih, List.append_assoc]
      rfl

theorem level_children (t : BinaryTree α) (n : ℕ) :
    t.children.flatMap (level · n) = t.level (n + 1) := by
  cases t with
  | nil => rfl
  | node a l r => simp [children]

theorem height_children {n : ℕ} (h : t.height ≤ n + 1) : ∀ s ∈ t.children, s.height ≤ n := by
  cases t with
  | nil => exact nofun
  | node a l r =>
    have hsingle : ∀ t : BinaryTree α, ∀ s ∈ t.single, s = t := by
      intro t s hs
      cases t with
      | nil => cases hs
      | node a l r => exact List.mem_singleton.1 hs
    rw [height] at h
    intro s hs
    cases List.mem_append.1 hs with
    | inl hs => rw [hsingle l s hs]; omega
    | inr hs => rw [hsingle r s hs]; omega

theorem queueOrder_levels (n : ℕ) (h : ∀ t ∈ q, t.height ≤ n) :
    queueOrder q = (List.range n).flatMap fun i => q.flatMap (level · i) := by
  induction n generalizing q with
  | zero =>
    have hempty := queueOrder_append q []
    have hnil : ∀ t ∈ q, t = nil := by
      intro t ht
      cases t with
      | nil => rfl
      | node a l r => exact absurd (h _ ht) (by simp [height])
    have hroots : q.flatMap (level · 0) = [] :=
      List.flatMap_eq_nil_iff.2 fun t ht => by rw [hnil t ht]; rfl
    have hchildren : q.flatMap children = [] :=
      List.flatMap_eq_nil_iff.2 fun t ht => by rw [hnil t ht]; rfl
    rw [hroots, hchildren, List.append_nil, List.append_nil, List.nil_append] at hempty
    rw [hempty, queueOrder]
    rfl
  | succ n ih =>
    have hnext := queueOrder_append q []
    have hheight : ∀ s ∈ q.flatMap children, s.height ≤ n := by
      intro s hs
      obtain ⟨t, ht, hs⟩ := List.mem_flatMap.1 hs
      exact height_children (h t ht) s hs
    rw [List.append_nil, List.nil_append, ih hheight] at hnext
    rw [hnext, List.range_succ_eq_map, List.flatMap_cons, List.flatMap_map]
    congr 1
    refine List.flatMap_congr fun i _ => ?_
    rw [List.flatMap_assoc]
    exact List.flatMap_congr fun t _ => level_children t i

/-- From the queue of one tree comes the tree level by level. -/
theorem queueOrder_singleton (t : BinaryTree α) : queueOrder [t] = t.levelOrder := by
  rw [queueOrder_levels t.height (by simp), levelOrder]
  simp

/-- Every node leaves the queue once. -/
theorem queueOrder_perm : (queueOrder q).Perm (q.flatMap preorder) := by
  induction q using queueOrder.induct with
  | case1 => rw [queueOrder]; rfl
  | case2 q ih =>
    rw [queueOrder]
    exact ih
  | case3 a l r q ih =>
    rw [queueOrder, List.flatMap_cons, preorder, List.cons_append]
    refine (ih.trans ?_).cons a
    rw [List.flatMap_append, List.flatMap_append, flatMap_single rfl, flatMap_single rfl]
    exact List.perm_append_comm

theorem levelOrder_perm (t : BinaryTree α) : t.levelOrder.Perm t.preorder := by
  rw [← queueOrder_singleton]
  simpa using queueOrder_perm (q := [t])

theorem length_levelOrder (t : BinaryTree α) : t.levelOrder.length = t.numNodes := by
  rw [t.levelOrder_perm.length_eq, length_preorder]

end BinaryTree
