import DsAlgor.Lib.Events
import Mathlib.Logic.Function.Basic
import Mathlib.Tactic

/-!
# Blocking queue

The class `BlockingQueue` with any number of threads. A `synchronized` method runs in one piece up
to its `wait`: there the thread goes into the wait set and leaves the monitor, and it tests the
condition of its loop again when it is back. It comes back by `notifyAll` or without a reason, or it
is interrupted. An item is an `Integer` of the source, with `none` for `null`.
-/

namespace BlockingQueue

abbrev Item := Option (BitVec 32)

inductive Call where
  | enqueue (item : Item)
  | dequeue
  deriving DecidableEq

/-- Where a thread is. -/
inductive Activity where
  | idle
  /-- It wants the monitor, at the start of a call or after its `wait`. -/
  | contending (c : Call)
  /-- In the wait set. -/
  | waiting (c : Call)
  deriving DecidableEq

structure State where
  queue : List Item
  limit : Int
  threads : Nat → Activity
  /-- The items of the calls of `enqueue` that have returned, and of `dequeue`, in this order. -/
  enqueued : List Item
  dequeued : List Item

/-- The constructor. -/
def new (limit : Int) : State :=
  { queue := []
    limit := limit
    threads := fun _ => .idle
    enqueued := []
    dequeued := [] }

namespace State

def setThread (s : State) (t : Nat) (a : Activity) : State :=
  { s with threads := Function.update s.threads t a }

/-- A thread that is notified. -/
def notified : Activity → Activity
  | .waiting c => .contending c
  | a => a

def notifyAll (s : State) : State := { s with threads := fun t => notified (s.threads t) }

def size (s : State) : Int := s.queue.length

/-- `enqueue` by a thread that has got the monitor. -/
def enqueue (s : State) (t : Nat) (item : Item) : State :=
  if s.size = s.limit then s.setThread t (.waiting (.enqueue item))
  else
    let s := if s.size = 0 then s.notifyAll else s
    { s with queue := s.queue ++ [item], enqueued := s.enqueued ++ [item] }.setThread t .idle

/-- `dequeue` by a thread that has got the monitor. A `null` is removed like any item; the
conversion to `int` throws then. -/
def dequeue (s : State) (t : Nat) : State :=
  if s.size = 0 then s.setThread t (.waiting .dequeue)
  else
    let s := if s.size = s.limit then s.notifyAll else s
    match s.queue with
    | [] => s.setThread t .idle
    | item :: rest => { s with queue := rest, dequeued := s.dequeued ++ [item] }.setThread t .idle

end State

inductive Event where
  | call (t : Nat) (c : Call)
  /-- The thread gets the monitor. -/
  | enter (t : Nat)
  /-- A spurious wake-up. -/
  | wake (t : Nat)
  /-- `wait` throws `InterruptedException`. -/
  | interrupt (t : Nat)

namespace State

def step (s : State) : Event → Option State
  | .call t c => if s.threads t = .idle then some (s.setThread t (.contending c)) else none
  | .enter t =>
    match s.threads t with
    | .contending (.enqueue item) => some (s.enqueue t item)
    | .contending .dequeue => some (s.dequeue t)
    | _ => none
  | .wake t =>
    match s.threads t with
    | .waiting c => some (s.setThread t (.contending c))
    | _ => none
  | .interrupt t =>
    match s.threads t with
    | .waiting _ => some (s.setThread t .idle)
    | _ => none

/-! ## The invariant -/

structure Inv (s : State) : Prop where
  bounded : s.size ≤ s.limit
  fifo : s.dequeued ++ s.queue = s.enqueued
  /-- No lost wake-up of a consumer. -/
  consumers : ∀ t, s.threads t = .waiting .dequeue → s.size = 0
  /-- No lost wake-up of a producer. -/
  producers : ∀ t item, s.threads t = .waiting (.enqueue item) → s.size = s.limit

/-- The wait set is empty. -/
def Awake (s : State) : Prop := ∀ t c, s.threads t ≠ .waiting c

section
variable {s s' : State} {t : Nat} {a : Activity} {c : Call} {item : Item}

@[simp] theorem setThread_self : (s.setThread t a).threads t = a := Function.update_self _ _ _

theorem setThread_of_ne {t' : Nat} (h : t' ≠ t) : (s.setThread t a).threads t' = s.threads t' :=
  Function.update_of_ne h _ _

/-- A thread that is in the wait set was there before, if the change puts none into it. -/
theorem waiting_of_setThread {t' : Nat} (ha : ∀ c, a ≠ .waiting c)
    (h : (s.setThread t a).threads t' = .waiting c) : s.threads t' = .waiting c := by
  by_cases heq : t' = t
  · rw [heq, setThread_self] at h
    exact (ha c h).elim
  · rwa [setThread_of_ne heq] at h

/-- A thread that leaves the wait set, or was not in it. -/
theorem Inv.setThread (h : Inv s) (ha : ∀ c, a ≠ .waiting c) : Inv (s.setThread t a) :=
  ⟨h.bounded, h.fifo, fun t' ht' => h.consumers t' (waiting_of_setThread ha ht'),
    fun t' item ht' => h.producers t' item (waiting_of_setThread ha ht')⟩

/-- A thread that starts to wait. -/
theorem Inv.wait (h : Inv s) (hc : c = .dequeue → s.size = 0)
    (hp : ∀ item, c = .enqueue item → s.size = s.limit) :
    Inv (s.setThread t (.waiting c)) := by
  refine ⟨h.bounded, h.fifo, fun t' ht' => ?_, fun t' item ht' => ?_⟩
  · by_cases heq : t' = t
    · rw [heq, setThread_self] at ht'
      cases ht'
      exact hc rfl
    · rw [setThread_of_ne heq] at ht'
      exact h.consumers t' ht'
  · by_cases heq : t' = t
    · rw [heq, setThread_self] at ht'
      cases ht'
      exact hp item rfl
    · rw [setThread_of_ne heq] at ht'
      exact h.producers t' item ht'

theorem notifyAll_awake (s : State) : s.notifyAll.Awake := by
  intro t c h
  have h : notified (s.threads t) = .waiting c := h
  cases ht : s.threads t with
  | idle =>
    rw [ht] at h
    cases h
  | contending c' =>
    rw [ht] at h
    cases h
  | waiting c' =>
    rw [ht] at h
    cases h

/-- Strictly between empty and full nobody waits, so that nobody has to be notified there. -/
theorem Inv.awake (h : Inv s) (hc : s.size ≠ 0) (hp : s.size ≠ s.limit) : s.Awake := by
  intro t c ht
  cases c with
  | enqueue item => exact hp (h.producers t item ht)
  | dequeue => exact hc (h.consumers t ht)

/-- Nobody waits: whatever the queue is then, no wake-up is lost. -/
theorem Awake.inv (h : s.Awake) (hbounded : s.size ≤ s.limit)
    (hfifo : s.dequeued ++ s.queue = s.enqueued) :
    Inv s :=
  ⟨hbounded, hfifo, fun t ht => (h t _ ht).elim, fun t _ ht => (h t _ ht).elim⟩

theorem enqueue_limit : (s.enqueue t item).limit = s.limit := by
  unfold State.enqueue
  split
  · rfl
  · dsimp only
    split <;> rfl

theorem dequeue_limit : (s.dequeue t).limit = s.limit := by
  unfold State.dequeue
  split
  · rfl
  · dsimp only
    split <;> (split <;> rfl)

theorem Inv.enqueue (h : Inv s) : Inv (s.enqueue t item) := by
  unfold State.enqueue
  by_cases hfull : s.size = s.limit
  · rw [if_pos hfull]
    exact h.wait nofun fun _ _ => hfull
  rw [if_neg hfull]
  have hbounded := h.bounded
  have hsize : ((s.queue ++ [item]).length : Int) ≤ s.limit := by
    have hlt : (s.queue.length : Int) < s.limit := lt_of_le_of_ne hbounded hfull
    rw [List.length_append, List.length_singleton]
    push_cast
    omega
  have hfifo : s.dequeued ++ (s.queue ++ [item]) = s.enqueued ++ [item] := by
    rw [← List.append_assoc, h.fifo]
  by_cases hempty : s.size = 0
  · simp only [hempty, if_true]
    exact Inv.setThread (Awake.inv (notifyAll_awake s) hsize hfifo) nofun
  · simp only [hempty, if_false]
    exact Inv.setThread (Awake.inv (h.awake hempty hfull) hsize hfifo) nofun

theorem Inv.dequeue (h : Inv s) : Inv (s.dequeue t) := by
  unfold State.dequeue
  by_cases hempty : s.size = 0
  · rw [if_pos hempty]
    exact h.wait (fun _ => hempty) nofun
  rw [if_neg hempty]
  cases hq : s.queue with
  | nil =>
    refine (hempty ?_).elim
    unfold size
    rw [hq]
    rfl
  | cons item rest =>
    have hbounded := h.bounded
    have hsize : (rest.length : Int) ≤ s.limit := by
      unfold size at hbounded
      rw [hq, List.length_cons] at hbounded
      push_cast at hbounded
      omega
    have hfifo : (s.dequeued ++ [item]) ++ rest = s.enqueued := by
      rw [List.append_assoc, ← h.fifo, hq]
      rfl
    by_cases hfull : s.size = s.limit
    · simp only [hfull, if_true, notifyAll, hq]
      exact Inv.setThread (Awake.inv (notifyAll_awake s) hsize hfifo) nofun
    · simp only [hfull, if_false, hq]
      exact Inv.setThread (Awake.inv (h.awake hempty hfull) hsize hfifo) nofun

/-- What an event can do. -/
theorem step_cases {ev : Event} (h : s.step ev = some s') :
    (∃ t item, s' = s.enqueue t item) ∨ (∃ t, s' = s.dequeue t) ∨
      ∃ t a, (∀ c, a ≠ .waiting c) ∧ s' = s.setThread t a := by
  cases ev with
  | call t c =>
    unfold step at h
    dsimp only at h
    split at h
    · cases h
      exact .inr (.inr ⟨t, .contending c, nofun, rfl⟩)
    · cases h
  | enter t =>
    unfold step at h
    cases hcur : s.threads t with
    | idle => simp [hcur] at h
    | waiting c => simp [hcur] at h
    | contending c =>
      cases c with
      | enqueue item =>
        have heq : s.enqueue t item = s' := by simpa [hcur] using h
        exact .inl ⟨t, item, heq.symm⟩
      | dequeue =>
        have heq : s.dequeue t = s' := by simpa [hcur] using h
        exact .inr (.inl ⟨t, heq.symm⟩)
  | wake t =>
    unfold step at h
    dsimp only at h
    split at h
    · cases h
      exact .inr (.inr ⟨t, .contending _, nofun, rfl⟩)
    · cases h
  | interrupt t =>
    unfold step at h
    dsimp only at h
    split at h
    · cases h
      exact .inr (.inr ⟨t, .idle, nofun, rfl⟩)
    · cases h

/-- **One event** keeps the invariant. -/
theorem Inv.step {ev : Event} (h : Inv s) (hstep : s.step ev = some s') :
    Inv s' ∧ s'.limit = s.limit := by
  obtain ⟨t, item, rfl⟩ | ⟨t, rfl⟩ | ⟨t, a, ha, rfl⟩ := step_cases hstep
  · exact ⟨h.enqueue, enqueue_limit⟩
  · exact ⟨h.dequeue, dequeue_limit⟩
  · exact ⟨h.setThread ha, rfl⟩

end

end State

open State

/-- **The queue is safe** under every schedule: it is bounded and first in, first out, and no thread
waits for what is already there. -/
theorem blockingQueue_safe (limit : Int) (h : 1 ≤ limit) (es : List Event) (s : State)
    (hrun : Events.run step (new limit) es = some s) :
    (s.queue.length : Int) ≤ limit ∧ s.dequeued ++ s.queue = s.enqueued ∧
      (∀ t, s.threads t = .waiting .dequeue → s.queue = []) ∧
      ∀ t item, s.threads t = .waiting (.enqueue item) → ¬ (s.queue.length : Int) < limit := by
  have hnew : Inv (new limit) ∧ (new limit).limit = limit :=
    ⟨⟨le_trans Int.one_nonneg h, rfl, nofun, nofun⟩, rfl⟩
  have hstep : ∀ s ev s', Inv s ∧ s.limit = limit → True → State.step s ev = some s' →
      Inv s' ∧ s'.limit = limit := by
    intro s ev s' hs _ hstep
    obtain ⟨hinv, hlimit⟩ := hs.1.step hstep
    exact ⟨hinv, hlimit.trans hs.2⟩
  obtain ⟨hinv, hlimit⟩ := Events.run_inv (fun _ => True) hstep hnew (fun _ _ => trivial) hrun
  refine ⟨hlimit ▸ hinv.bounded, hinv.fifo, fun t ht => ?_, fun t item ht => ?_⟩
  · exact List.length_eq_zero_iff.1 (Int.ofNat_eq_zero.1 (hinv.consumers t ht))
  · have hfull : (s.queue.length : Int) = s.limit := hinv.producers t item ht
    rw [hfull, hlimit]
    exact lt_irrefl _

/-- Two producers and a consumer on a queue for one item. -/
theorem blockingQueue_safe_sample :
    ∃ s, Events.run step (new 1) [.call 1 (.enqueue (some 7)), .call 2 (.enqueue none),
      .call 3 .dequeue, .enter 3,
          .enter 1, .enter 2, .wake 2, .enter 2, .enter 3] = some s ∧
      (s.queue.length : Int) ≤ 1 ∧ s.dequeued ++ s.queue = s.enqueued ∧
      (∀ t, s.threads t = .waiting .dequeue → s.queue = []) ∧
      ∀ t item, s.threads t = .waiting (.enqueue item) → ¬ (s.queue.length : Int) < 1 :=
  ⟨_, rfl, blockingQueue_safe 1 (by decide) [.call 1 (.enqueue (some 7)), .call 2 (.enqueue none),
    .call 3 .dequeue, .enter 3, .enter 1, .enter 2, .wake 2, .enter 2, .enter 3] _ rfl⟩

end BlockingQueue
