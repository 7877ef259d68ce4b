import Mathlib.Data.List.Basic
import Mathlib.Data.List.Perm.Basic
import Mathlib.Tactic

/-!
# Trees of addresses

The shape of a tree in a heap: every node with its address, every leaf with what it holds. A place
in such a tree is the list of frames on the way to the root (`plug`), innermost first; what stands
to the left and to the right of the place is `before` and `after`.
-/

inductive PtrTree (P E : Type*)
  | leaf (p : P) (es : List E)
  | node (p : P) (cs : List (PtrTree P E))

namespace PtrTree

variable {P E : Type*}

def ptr : PtrTree P E → P
  | .leaf p _ => p
  | .node p _ => p

@[simp] theorem ptr_leaf (p : P) (es : List E) : (leaf p es).ptr = p := rfl

@[simp] theorem ptr_node (p : P) (cs : List (PtrTree P E)) : (node p cs).ptr = p := rfl

mutual

/-- The leaves, with what they hold, in order. -/
def leaves : PtrTree P E → List (P × List E)
  | .leaf p es => [(p, es)]
  | .node _ cs => leavesAll cs

def leavesAll : List (PtrTree P E) → List (P × List E)
  | [] => []
  | c :: cs => leaves c ++ leavesAll cs

end

mutual

/-- The addresses of all nodes. -/
def ptrs : PtrTree P E → List P
  | .leaf p _ => [p]
  | .node p cs => p :: ptrsAll cs

def ptrsAll : List (PtrTree P E) → List P
  | [] => []
  | c :: cs => ptrs c ++ ptrsAll cs

end

/-- What the leaves hold. -/
def elems (t : PtrTree P E) : List E := t.leaves.flatMap Prod.snd

theorem leavesAll_eq (cs : List (PtrTree P E)) : leavesAll cs = cs.flatMap leaves := by
  induction cs with
  | nil => rfl
  | cons c cs ih => rw [leavesAll, ih, List.flatMap_cons]

theorem ptrsAll_eq (cs : List (PtrTree P E)) : ptrsAll cs = cs.flatMap ptrs := by
  induction cs with
  | nil => rfl
  | cons c cs ih => rw [ptrsAll, ih, List.flatMap_cons]

@[simp] theorem leaves_leaf (p : P) (es : List E) : (leaf p es).leaves = [(p, es)] := by rw [leaves]

@[simp] theorem leaves_node (p : P) (cs : List (PtrTree P E)) :
    (node p cs).leaves = cs.flatMap leaves := by
  rw [leaves, leavesAll_eq]

@[simp] theorem ptrs_leaf (p : P) (es : List E) : (leaf p es).ptrs = [p] := by rw [ptrs]

@[simp] theorem ptrs_node (p : P) (cs : List (PtrTree P E)) :
    (node p cs).ptrs = p :: cs.flatMap ptrs := by
  rw [ptrs, ptrsAll_eq]

@[simp] theorem elems_leaf (p : P) (es : List E) : (leaf p es).elems = es := by simp [elems]

@[simp] theorem elems_node (p : P) (cs : List (PtrTree P E)) :
    (node p cs).elems = cs.flatMap elems := by
  simp [elems, List.flatMap_assoc]
  rfl

theorem elems_sublist_node {p : P} {c : PtrTree P E} {cs : List (PtrTree P E)} (hc : c ∈ cs) :
    c.elems.Sublist (node p cs).elems := by
  rw [elems_node, List.flatMap_def]
  exact List.sublist_flatten_of_mem (List.mem_map_of_mem hc)

@[induction_eliminator]
theorem induct {motive : PtrTree P E → Prop} (leaf : ∀ p es, motive (.leaf p es))
    (node : ∀ p cs, (∀ c ∈ cs, motive c) → motive (.node p cs)) (t : PtrTree P E) : motive t :=
  match t with
  | .leaf p es => leaf p es
  | .node p cs => node p cs fun c _ => induct leaf node c

theorem ptr_mem_ptrs (t : PtrTree P E) : t.ptr ∈ t.ptrs := by cases t <;> simp

/-- The leaves are among the nodes, in order. -/
theorem leaves_sublist (t : PtrTree P E) : (t.leaves.map Prod.fst).Sublist t.ptrs := by
  induction t with
  | leaf p es => simp
  | node p cs ih =>
    rw [leaves_node, ptrs_node, List.map_flatMap]
    refine List.Sublist.cons _ ?_
    clear p
    induction cs with
    | nil => exact .slnil
    | cons c cs ihcs =>
      rw [List.flatMap_cons, List.flatMap_cons]
      exact (ih c List.mem_cons_self).append (ihcs fun d hd => ih d (List.mem_cons_of_mem _ hd))

/-! ## Places -/

/-- A node with one child taken out. -/
structure Frame (P E : Type*) where
  ptr : P
  left : List (PtrTree P E)
  right : List (PtrTree P E)

/-- The node with the child in its place. -/
def Frame.fill (f : Frame P E) (t : PtrTree P E) : PtrTree P E :=
  .node f.ptr (f.left ++ t :: f.right)

def plug : List (Frame P E) → PtrTree P E → PtrTree P E
  | [], t => t
  | f :: fs, t => plug fs (f.fill t)

def before : List (Frame P E) → List (P × List E)
  | [] => []
  | f :: fs => before fs ++ f.left.flatMap leaves

def after : List (Frame P E) → List (P × List E)
  | [] => []
  | f :: fs => f.right.flatMap leaves ++ after fs

theorem ptr_plug {t t' : PtrTree P E} (h : t.ptr = t'.ptr) (fs : List (Frame P E)) :
    (plug fs t).ptr = (plug fs t').ptr := by
  cases fs with
  | nil => exact h
  | cons f fs =>
    have hf : (f.fill t).ptr = (f.fill t').ptr := rfl
    exact ptr_plug hf fs

/-- The addresses of the frames and of what stands beside the place. -/
def framePtrs : List (Frame P E) → List P
  | [] => []
  | f :: fs => f.ptr :: ((f.left ++ f.right).flatMap ptrs ++ framePtrs fs)

theorem leaves_plug (fs : List (Frame P E)) (t : PtrTree P E) :
    (plug fs t).leaves = before fs ++ t.leaves ++ after fs := by
  induction fs generalizing t with
  | nil => simp [plug, before, after]
  | cons f fs ih =>
    rw [plug, ih, Frame.fill, leaves_node, before, after, List.flatMap_append, List.flatMap_cons]
    simp only [List.append_assoc]

theorem ptrs_plug (fs : List (Frame P E)) (t : PtrTree P E) :
    (plug fs t).ptrs.Perm (t.ptrs ++ framePtrs fs) := by
  induction fs generalizing t with
  | nil => simp [plug, framePtrs]
  | cons f fs ih =>
    refine (ih (f.fill t)).trans ?_
    rw [Frame.fill, ptrs_node, framePtrs, List.flatMap_append, List.flatMap_cons,
      List.flatMap_append]
    calc f.ptr :: (f.left.flatMap ptrs ++ (t.ptrs ++ f.right.flatMap ptrs)) ++ framePtrs fs
      _ = f.ptr :: (f.left.flatMap ptrs ++ t.ptrs ++
            (f.right.flatMap ptrs ++ framePtrs fs)) := by simp
      List.Perm _ (f.ptr ::
      (t.ptrs ++ f.left.flatMap ptrs ++ (f.right.flatMap ptrs ++ framePtrs fs))) :=
        (List.perm_append_comm.append_right _).cons _
      _ = f.ptr :: (t.ptrs ++ (f.left.flatMap ptrs ++ f.right.flatMap ptrs ++ framePtrs fs)) :=
            by simp
      List.Perm _ (t.ptrs ++ f.ptr ::
        (f.left.flatMap ptrs ++ f.right.flatMap ptrs ++ framePtrs fs)) :=
        List.perm_middle.symm

theorem elems_plug (fs : List (Frame P E)) (t : PtrTree P E) :
    (plug fs t).elems = (before fs).flatMap Prod.snd ++ t.elems ++ (after fs).flatMap Prod.snd := by
  unfold elems
  rw [leaves_plug, List.flatMap_append, List.flatMap_append]

/-- The frames are not among the leaves. -/
theorem count_framePtrs [DecidableEq P] (fs : List (Frame P E)) (a : P) :
    (fs.map Frame.ptr).count a + ((before fs ++ after fs).map Prod.fst).count a ≤
    (framePtrs fs).count a := by
  have hleaves : ∀ cs : List (PtrTree P E), ((cs.flatMap leaves).map Prod.fst).count a ≤
    (cs.flatMap ptrs).count a := by
    intro cs
    induction cs with
    | nil => exact le_rfl
    | cons c cs ih =>
      rw [List.flatMap_cons, List.flatMap_cons, List.map_append, List.count_append,
        List.count_append]
      exact Nat.add_le_add ((leaves_sublist c).count_le a) ih
  induction fs with
  | nil => exact le_rfl
  | cons f fs ih =>
    have hleft := hleaves f.left
    have hright := hleaves f.right
    simp only [before, after, framePtrs, List.map_cons, List.map_append, List.flatMap_append,
      List.count_append, List.count_cons] at ih ⊢
    omega

end PtrTree
