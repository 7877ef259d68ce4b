import DsAlgor.SkipList.Insert
import DsAlgor.SkipList.Remove
import Mathlib.Data.List.Sort

/-!
# The skip list as a multiset

`Bag` is what the list should hold: the nodes in ascending order, where an insertion adds one and a
removal takes out all with the key. The list follows the bag through a run if and only if each of
its removals reaches the nodes it should take out (`bag_iff`).
-/

namespace SkipList

open SkipRank (Ptr Link Node Fault MAX_LEVEL INT_MAX row firstNode lastNode row_append
    row_cons headOr_row orderedInsert_eq)
open Circular

structure Bag where
  nodes : List Node
  value : Ptr → Int
  fresh : Ptr

def Bag.empty : Bag := ⟨[], fun _ => 0, 1⟩

def Bag.step (b : Bag) : Op → Bag
  | .insert key value level true =>
    { nodes := b.nodes.orderedInsert (·.key ≤ ·.key) ⟨b.fresh, key, level⟩
      value := Function.update b.value b.fresh value
      fresh := b.fresh + 1 }
  | .insert _ _ _ false => b
  | .remove key => { b with nodes := b.nodes.filter (·.key ≠ key) }

/-- What the list should hold after a sequence of calls. -/
def held (ops : List Op) : Bag := ops.foldl Bag.step .empty

/-- The list holds the bag: its nodes on all their levels, their number, and their keys and values;
the other nodes have been freed. -/
structure Holds (l : Skiplist) (b : Bag) : Prop where
  linked : Linked l b.nodes
  value : l.mem.value = b.value
  brk : l.mem.brk = b.fresh

/-- The node `p` is linked on level `i`. -/
def OnLevel (l : Skiplist) (i : Nat) (p : Ptr) : Prop := p ≠ 0 ∧ ∃ k, l.mem.next^[k] ⟨0, i⟩ = ⟨p, i⟩

/-- A node with the key is on every level that has a node with a greater key. -/
def RemoveReaches (l : Skiplist) (key : Int) : Prop :=
  ∀ i v w, OnLevel l 0 v → l.mem.key v = key → OnLevel l i w → key < l.mem.key w → OnLevel l i v

section
variable {l l' : Skiplist} {S : List Node} {b : Bag} {key : Int} {i : Nat}

theorem Linked.onLevel_iff (h : Linked l S) {p : Ptr} : OnLevel l i p ↔ ∃ n ∈ S, n.ptr = p ∧
    i < n.height :=
  SkipRank.onRow_iff (h.circular i) h.nodup fun n hn => (h.bound n hn).1

theorem Linked.ptr_inj (h : Linked l S) {x y : Node} (hx : x ∈ S) (hy : y ∈ S)
    (he : x.ptr = y.ptr) : x = y :=
  List.inj_on_of_nodup_map h.nodup hx hy he

theorem Linked.reaches_iff (h : Linked l S) : RemoveReaches l key ↔ Reaches S key := by
  constructor
  · intro hr x hx y hy hxk hky
    by_contra hlt
    have hxlevel := hr x.height x.ptr y.ptr (h.onLevel_iff.2 ⟨x, hx, rfl, (h.height x hx).1⟩)
      ((h.key x hx).trans hxk) (h.onLevel_iff.2 ⟨y, hy, rfl, not_le.1 hlt⟩)
      ((h.key y hy).symm ▸ hky)
    obtain ⟨n, hn, hp, hlt⟩ := h.onLevel_iff.1 hxlevel
    rw [h.ptr_inj hn hx hp] at hlt
    exact lt_irrefl _ hlt
  · intro hr i v w hv hvk hw hwk
    obtain ⟨x, hx, hxp, -⟩ := h.onLevel_iff.1 hv
    obtain ⟨y, hy, hyp, hi⟩ := h.onLevel_iff.1 hw
    rw [← hxp, h.key x hx] at hvk
    rw [← hyp, h.key y hy] at hwk
    exact h.onLevel_iff.2 ⟨x, hx, hxp, hi.trans_le (hr x hx y hy hvk hwk)⟩

/-! ## One call -/

/-- A removal. -/
theorem Holds.remove (h : Holds l b) (key : Int) :
    ∃ l', skiplistRemove l key = .ok l' ∧
      (Holds l' (b.step (.remove key)) ↔ RemoveReaches l key) := by
  obtain ⟨l', hrun, hl', hshrunk⟩ := skiplistRemove_spec h.linked key
  refine ⟨l', hrun, ?_⟩
  rw [h.linked.reaches_iff]
  constructor
  · intro hh
    refine reaches_of_sweep (i := l.level) h.linked.sorted fun n hn hk => ?_
    -- a node that has stayed is still linked
    have hlevel := hl'.onLevel_iff.2 ⟨n, hn, rfl, (hl'.height n hn).1⟩
    obtain ⟨n', hn', hp, -⟩ := hh.linked.onLevel_iff.1 hlevel
    have hkey : n'.key = n.key := by rw [← hh.linked.key n' hn', hp, hl'.key n hn]
    have hne : n'.key ≠ key := of_decide_eq_true (List.mem_filter.1 hn').2
    exact hne (hkey.trans hk)
  · intro hr
    rw [hr.sweep_eq h.linked.sorted h.linked.height] at hl'
    exact ⟨hl', hshrunk.value.trans h.value, hshrunk.brk.trans h.brk⟩

/-- An insertion. -/
theorem Holds.insert (h : Holds l b) (key value : Int) (level : SkipRank.Drawn) (alloc : Bool) :
    (l.count ≠ INT_MAX → ∃ l', (Op.insert key value level alloc).run l = .ok l') ∧
      ∀ l', (Op.insert key value level alloc).run l = .ok l' → Holds l'
        (b.step (.insert key value level alloc)) := by
  obtain ⟨hfail, hover, hok⟩ := skiplistInsert_spec h.linked key value level.2
  cases alloc with
  | false =>
    obtain ⟨l₁, hrun, h₁, hmem, -⟩ := hfail
    have hop : (Op.insert key value level false).run l = .ok l₁ := by
      rw [Op.run, hrun]
      rfl
    refine ⟨fun _ => ⟨l₁, hop⟩, fun l' hl' => ?_⟩
    cases hop.symm.trans hl'
    exact ⟨h₁, hmem ▸ h.value, hmem ▸ h.brk⟩
  | true =>
    by_cases hc : l.count = INT_MAX
    · refine ⟨fun hne => absurd hc hne, fun l' hl' => ?_⟩
      rw [Op.run, hover hc] at hl'
      cases hl'
    · obtain ⟨A, B, l₁, hAB, hA, hB, hrun, h₁, hvalue, hbrk, -⟩ := hok hc
      have hop : (Op.insert key value level true).run l = .ok l₁ := by
        rw [Op.run, hrun]
        rfl
      refine ⟨fun _ => ⟨l₁, hop⟩, fun l' hl' => ?_⟩
      cases hop.symm.trans hl'
      have hnodes : (b.step (.insert key value level true)).nodes = A ++ ⟨l.mem.brk, key,
        level⟩ :: B := by
        rw [h.brk, ← orderedInsert_eq hA hB, ← hAB]
        rfl
      refine ⟨hnodes ▸ h₁, ?_, ?_⟩
      · rw [hvalue, h.value, h.brk]
        rfl
      · rw [hbrk, h.brk]
        rfl

/-- **One call**: the list goes on to hold the bag unless a removal misses a node. -/
theorem Holds.run_iff (h : Holds l b) (op : Op) (hrun : op.run l = .ok l') :
    Holds l' (b.step op) ↔ ∀ key, op = .remove key → RemoveReaches l key := by
  cases op with
  | insert key value level alloc =>
    exact iff_of_true ((h.insert key value level alloc).2 l' hrun) nofun
  | remove key =>
    obtain ⟨l₁, hrun₁, hiff⟩ := h.remove key
    cases hrun₁.symm.trans hrun
    rw [hiff]
    exact ⟨fun hr k hk => by cases hk; exact hr, fun hr => hr key rfl⟩

end

/-! ## Runs -/

theorem runOps_concat {l l' : Skiplist} {ops : List Op} {op : Op} :
    runOps l (ops ++ [op]) = .ok l' ↔ ∃ l₁, runOps l ops = .ok l₁ ∧ op.run l₁ = .ok l' := by
  unfold runOps
  rw [List.foldlM_append]
  cases ops.foldlM Op.run l with
  | error e => exact ⟨nofun, fun ⟨_, h, _⟩ => (nomatch h)⟩
  | ok l₁ =>
    have hone : [op].foldlM Op.run l₁ = op.run l₁ := by
      rw [List.foldlM_cons]
      exact bind_pure _
    show [op].foldlM Op.run l₁ = .ok l' ↔ _
    rw [hone]
    exact ⟨fun h => ⟨l₁, rfl, h⟩, fun ⟨_, h₁, h⟩ => by cases h₁; exact h⟩

theorem held_concat (ops : List Op) (op : Op) : held (ops ++ [op]) = (held ops).step op :=
  List.foldl_concat ..

theorem holds_new : Holds skiplistNew .empty := ⟨skiplistNew_linked, rfl, rfl⟩

/-- Whatever the list holds, a call returns and leaves a list. -/
theorem Linked.run {l : Skiplist} {S : List Node} (h : Linked l S) (op : Op) :
    (l.count ≠ INT_MAX → ∃ l', op.run l = .ok l') ∧
      ∀ l', op.run l = .ok l' → ∃ S', Linked l' S' ∧ l'.count ≤ l.count + 1 := by
  have hholds : Holds l ⟨S, l.mem.value, l.mem.brk⟩ := ⟨h, rfl, rfl⟩
  cases op with
  | insert key value level alloc =>
    obtain ⟨hreturns, hspec⟩ := hholds.insert key value level alloc
    refine ⟨hreturns, fun l' hl' => ⟨_, (hspec l' hl').linked, ?_⟩⟩
    rw [(hspec l' hl').linked.count, h.count]
    cases alloc with
    | false => exact Int.le_add_one le_rfl
    | true =>
      show ((S.orderedInsert _ _).length : Int) ≤ _
      rw [List.orderedInsert_length]
      push_cast
      exact le_rfl
  | remove key =>
    obtain ⟨l₁, hrun, h₁, -⟩ := skiplistRemove_spec h key
    refine ⟨fun _ => ⟨l₁, hrun⟩, fun l' hl' => ?_⟩
    cases hrun.symm.trans hl'
    refine ⟨_, h₁, ?_⟩
    have hlen := (@sweep_sublist key l.level S).length_le
    rw [h₁.count, h.count]
    omega

theorem runOps_linked {ops : List Op} {l : Skiplist} (h : runOps skiplistNew ops = .ok l) :
    ∃ S, Linked l S := by
  induction ops using List.reverseRecOn generalizing l with
  | nil =>
    cases h
    exact ⟨[], skiplistNew_linked⟩
  | append_singleton ops op ih =>
    obtain ⟨l₁, h₁, hop⟩ := runOps_concat.1 h
    obtain ⟨S, hS⟩ := ih h₁
    obtain ⟨S', hS', -⟩ := (hS.run op).2 l hop
    exact ⟨S', hS'⟩

/-- A run goes on to its end as long as `count` does not overflow. -/
theorem runOps_ok (ops : List Op) (hlen : (ops.length : Int) ≤ INT_MAX) :
    ∃ l, runOps skiplistNew ops = .ok l ∧ l.count ≤ ops.length := by
  induction ops using List.reverseRecOn with
  | nil => exact ⟨skiplistNew, rfl, le_rfl⟩
  | append_singleton ops op ih =>
    rw [List.length_append, List.length_singleton] at hlen ⊢
    push_cast at hlen ⊢
    obtain ⟨l, hl, hcount⟩ := ih (by omega)
    obtain ⟨S, hS⟩ := runOps_linked hl
    obtain ⟨l', hl'⟩ := (hS.run op).1 (by omega)
    obtain ⟨-, -, hc⟩ := (hS.run op).2 l' hl'
    exact ⟨l', runOps_concat.2 ⟨l, hl, hl'⟩, by omega⟩

/-- **When the list is a multiset**: the calls of a run all return, and the list holds what it
should in all states of the run if and only if each removal reaches its nodes in the state it is
made in. -/
theorem bag_iff (ops : List Op) :
    ((ops.length : Int) ≤ INT_MAX → ∃ l, runOps skiplistNew ops = .ok l) ∧
      ((∀ pre, pre <+: ops → ∀ l, runOps skiplistNew pre = .ok l → Holds l (held pre)) ↔
        ∀ pre key, pre ++ [.remove key] <+: ops → ∀ l, runOps skiplistNew pre = .ok l →
          RemoveReaches l key) := by
  refine ⟨fun hlen => (runOps_ok ops hlen).imp fun _ => And.left, fun h pre key hpre l hl => ?_,
    fun h pre => ?_⟩
  · have hholds := h pre ((List.prefix_append _ _).trans hpre) l hl
    obtain ⟨l', hrun, hiff⟩ := hholds.remove key
    have hholds' := h _ hpre l' (runOps_concat.2 ⟨l, hl, hrun⟩)
    rw [held_concat] at hholds'
    exact hiff.1 hholds'
  · -- forwards through the run
    induction pre using List.reverseRecOn with
    | nil =>
      intro _ l hl
      cases hl
      exact holds_new
    | append_singleton pre op ih =>
      intro hpre l hl
      obtain ⟨l₁, hl₁, hop⟩ := runOps_concat.1 hl
      have hholds := ih ((List.prefix_append _ _).trans hpre) l₁ hl₁
      rw [held_concat, hholds.run_iff op hop]
      intro key hkey
      rw [hkey] at hpre
      exact h pre key hpre l₁ hl₁

/-- The keys 1 and 2 on one and two levels; then 1 is removed. -/
def missedOps : List Op :=
  [.insert 1 0 ⟨1, SkipRank.drawn_one⟩ true, .insert 2 0 ⟨2, SkipRank.drawn_two⟩ true, .remove 1]

/-- The loop over level 0 starts behind the node with key 2, and both nodes stay. -/
theorem remove_misses : ¬ ∀ ops l, runOps skiplistNew ops = .ok l → Holds l (held ops) := by
  have hrun : ((runOps skiplistNew missedOps).map (·.count)).toOption = some 2 := by decide +kernel
  intro h
  cases hl : runOps skiplistNew missedOps with
  | error e =>
    rw [hl] at hrun
    cases hrun
  | ok l =>
    rw [hl] at hrun
    have hcount := (h missedOps l hl).linked.count
    have hheld : (held missedOps).nodes.length = 1 := by decide +kernel
    have htwo : l.count = 2 := Option.some.inj hrun
    rw [hheld, htwo] at hcount
    cases hcount

end SkipList
