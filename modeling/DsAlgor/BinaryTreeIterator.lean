import DsAlgor.Lib.LevelOrder
import DsAlgor.Lib.Pointers

/-!
# `binary_tree_iterator.java`

The labels of a tree are its nodes, `nil` and `none` are `null`. `next` gives out the nodes level by
level. `isDone` is set by the first call that finds the queue empty; behind the last node `hasNext`
is still true (`protocol_iff`).
-/

open Pointers

structure BinaryTreeIterator (α : Type) where
  isDone : Bool
  queue : List (BinaryTree α)

namespace BinaryTreeIterator

section
variable {α : Type}

def create (node : BinaryTree α) : BinaryTreeIterator α :=
  let it := { isDone := false, queue := [] ++ [node] }
  if it.queue.length < 1 then { it with isDone := true } else it

def hasNext (it : BinaryTreeIterator α) : Bool := !it.isDone

def getNextNode (it : BinaryTreeIterator α) :
    Except Fault (Option α × BinaryTreeIterator α) :=
  match it.queue with
  | [] => return (none, { it with isDone := true })
  | .nil :: _ => .error .null
  | .node node left right :: queue =>
    let queue := if !left.isNil then queue ++ [left] else queue
    let queue := if !right.isNil then queue ++ [right] else queue
    return (some node, { it with queue })

def next (it : BinaryTreeIterator α) : Except Fault (Option α × BinaryTreeIterator α) :=
  if it.isDone then return (none, it) else it.getNextNode

/-! ## Sequences of calls -/

inductive Call
  | hasNext
  | next
deriving DecidableEq

/-- The nodes given out by the calls, and the iterator after them. -/
def run : BinaryTreeIterator α → List Call → Except Fault (List α × BinaryTreeIterator α)
  | it, [] => return ([], it)
  | it, .hasNext :: calls => run it calls
  | it, .next :: calls => do
    let (node, it) ← it.next
    let (nodes, it) ← run it calls
    return (node.toList ++ nodes, it)

/-- How many of the calls are calls of `next`. -/
abbrev nexts (calls : List Call) : Nat := calls.count .next

/-- What the iterator of `t` is to do in a sequence of calls. -/
structure Protocol (t : BinaryTree α) (calls : List Call) : Prop where
  /-- The nodes come level by level. -/
  nodes : ∃ it, run (create t) calls = .ok (t.levelOrder.take (nexts calls), it)
  once : t.levelOrder.Perm t.preorder
  /-- `hasNext` is true when the next call of `next` gives a node. -/
  hasNext : ∀ pre post nodes it, calls = pre ++ .hasNext :: post →
    run (create t) pre = .ok (nodes, it) →
    (it.hasNext ↔ ∃ node it', it.next = .ok (some node, it'))

/-- `next` has been called `k` times. -/
structure At (t : BinaryTree α) (k : Nat) (it : BinaryTreeIterator α) : Prop where
  queue : BinaryTree.queueOrder it.queue = t.levelOrder.drop k
  notNil : .nil ∉ it.queue
  isDone : it.isDone = true ↔ t.numNodes < k

variable {t : BinaryTree α} {it : BinaryTreeIterator α} {k : Nat}

theorem at_create (ht : t ≠ .nil) : At t 0 (create t) := by
  refine ⟨?_, ?_, ?_⟩
  · exact BinaryTree.queueOrder_singleton t
  · simpa [create] using ht.symm
  · simp [create]

/-- One call of `next`. -/
theorem next_spec (hit : At t k it) :
    ∃ it', it.next = .ok (t.levelOrder[k]?, it') ∧ At t (k + 1) it' := by
  obtain ⟨hqueue, hnil, hdone⟩ := hit
  obtain ⟨isDone, queue⟩ := it
  have hlen := t.length_levelOrder
  cases isDone with
  | true =>
    have hlt : t.numNodes < k := hdone.1 rfl
    refine ⟨_, ?_, ?_, hnil, ?_⟩
    · rw [List.getElem?_eq_none (by omega)]
      rfl
    · rw [hqueue, List.drop_of_length_le (by omega), List.drop_of_length_le (by omega)]
    · exact iff_of_true rfl (by omega)
  | false =>
    have hle : k ≤ t.numNodes := not_lt.1 fun hlt => by simpa using hdone.2 hlt
    cases queue with
    | nil =>
      -- The flag is set here, one call behind the last node.
      rw [BinaryTree.queueOrder] at hqueue
      have hlast : t.levelOrder.length ≤ k := List.drop_eq_nil_iff.1 hqueue.symm
      refine ⟨⟨true, []⟩, ?_, ?_, hnil, ?_⟩
      · rw [List.getElem?_eq_none hlast]
        rfl
      · rw [List.drop_of_length_le (by omega), BinaryTree.queueOrder]
      · exact iff_of_true rfl (by omega)
    | cons s queue =>
      cases s with
      | nil => exact absurd List.mem_cons_self hnil
      | node a l r =>
        simp only [BinaryTree.queueOrder] at hqueue
        have hk : t.levelOrder[k]? = some a := by
          rw [← List.head?_drop, ← hqueue]
          rfl
        have hlt : k < t.levelOrder.length := (List.getElem?_eq_some_iff.1 hk).1
        refine ⟨⟨false, queue ++ (l.single ++ r.single)⟩, ?_, ?_, ?_, ?_⟩
        · simp only [next, getNextNode, BinaryTree.enqueue_single, hk, ← List.append_assoc]
          rfl
        · rw [← List.tail_drop, ← hqueue]
          rfl
        · simp only [List.mem_append, not_or]
          exact ⟨List.not_mem_of_not_mem_cons hnil, l.nil_notMem_single, r.nil_notMem_single⟩
        · exact iff_of_false (by simp) (by omega)

theorem take_drop_succ (l : List α) (k n : Nat) :
    (l.drop k).take (n + 1) = l[k]?.toList ++ (l.drop (k + 1)).take n := by
  rw [← List.head?_drop, ← List.tail_drop]
  cases l.drop k <;> simp

theorem run_spec (calls : List Call) (hit : At t k it) :
    ∃ it', run it calls = .ok ((t.levelOrder.drop k).take (nexts calls), it') ∧
      At t (k + nexts calls) it' := by
  induction calls generalizing it k with
  | nil => exact ⟨it, rfl, hit⟩
  | cons call calls ih =>
    cases call with
    | hasNext => simpa [run, nexts] using ih hit
    | next =>
      obtain ⟨it₁, hnext, hit₁⟩ := next_spec hit
      obtain ⟨it₂, hrun, hit₂⟩ := ih hit₁
      refine ⟨it₂, ?_, ?_⟩
      · simp only [run, hnext, hrun, bind, Except.bind, pure, Except.pure, nexts,
          List.count_cons_self]
        rw [take_drop_succ]
      · rwa [nexts, List.count_cons_self, ← Nat.add_assoc, Nat.add_right_comm]

/-- `hasNext` is right unless the last node has just been given out. -/
theorem hasNext_iff (hit : At t k it) :
    (it.hasNext ↔ ∃ node it', it.next = .ok (some node, it')) ↔ k ≠ t.numNodes := by
  obtain ⟨it', hnext, -⟩ := next_spec hit
  have hnode : (∃ node it', it.next = .ok (some node, it')) ↔ k < t.numNodes := by
    rw [hnext, ← t.length_levelOrder]
    constructor
    · rintro ⟨node, it'', hsome⟩
      have hk : t.levelOrder[k]? = some node := congrArg Prod.fst (Except.ok.inj hsome)
      exact (List.getElem?_eq_some_iff.1 hk).1
    · intro hk
      exact ⟨_, _, by rw [List.getElem?_eq_getElem hk]⟩
  have hflag : it.hasNext ↔ k ≤ t.numNodes := by
    rw [← not_lt, ← hit.isDone, hasNext]
    simp
  rw [hnode, hflag]
  omega

/-- **The protocol** holds in the sequences of calls without a `hasNext` right behind the last
node. -/
theorem protocol_iff (calls : List Call) (ht : t ≠ .nil) :
    Protocol t calls ↔
      ∀ pre post, calls = pre ++ .hasNext :: post → nexts pre ≠ t.numNodes := by
  constructor
  · intro h pre post hcalls
    obtain ⟨it, hrun, hit⟩ := run_spec pre (at_create ht)
    rw [Nat.zero_add] at hit
    exact (hasNext_iff hit).1 (h.hasNext pre post _ it hcalls hrun)
  · intro h
    obtain ⟨it, hrun, -⟩ := run_spec calls (at_create ht)
    refine ⟨⟨it, hrun⟩, t.levelOrder_perm, fun pre post nodes it hcalls hpre => ?_⟩
    obtain ⟨it', hrun', hit⟩ := run_spec pre (at_create ht)
    obtain rfl : it' = it := congrArg Prod.snd (Except.ok.inj (hrun'.symm.trans hpre))
    rw [Nat.zero_add] at hit
    exact (hasNext_iff hit).2 (h pre post hcalls)

end

/-- Calls for a tree of five nodes, some of them behind its last node. -/
def sampleCalls : List Call :=
  [.hasNext, .next, .hasNext, .next, .next, .hasNext, .next, .next, .next, .hasNext]

theorem protocol_levels : Protocol (BinaryTree.node 1 (.node 2 (.node 4 .nil .nil) .nil)
    (.node 3 .nil (.node 5 .nil .nil))) sampleCalls := by
  refine (protocol_iff sampleCalls (by simp)).2 fun pre post hcalls => ?_
  have hall : ∀ k < sampleCalls.length, sampleCalls[k]? = some .hasNext →
      nexts (sampleCalls.take k) ≠ 5 := by decide
  have hpre : sampleCalls.take pre.length = pre := by rw [hcalls, List.take_left]
  have hlt : pre.length < sampleCalls.length := by rw [hcalls]; simp
  exact hpre ▸ hall pre.length hlt (by rw [hcalls]; simp)

/-- Behind the one node of the tree `hasNext` is true, and `next` gives `null`. -/
theorem protocol_broken : ∃ (t : BinaryTree Nat) (calls : List Call),
    t ≠ .nil ∧ ¬ Protocol t calls := by
  refine ⟨.node 1 .nil .nil, [.next, .hasNext, .next], by simp, fun h => ?_⟩
  obtain ⟨node, it, hnext⟩ :=
    (h.hasNext [.next] [.next] [1] ⟨false, []⟩ rfl rfl).1 rfl
  cases hnext

end BinaryTreeIterator
