import DsAlgor.Elevator.Car
import DsAlgor.Lib.Events

/-!
# The mutex of the elevator

Any number of threads call the methods of one elevator. A call takes the mutex when it is free, and
what it does with the mutex ends with its return. The mutex is free when no call is in progress, as
long as every level given to `addRequest` is in the shaft (`mutex_released`). The exit of
`addRequest` for other levels keeps the mutex; nobody gets it again then (`leaked_forever`).
-/

namespace Elevator

inductive Activity where
  | idle
  /-- Before or at `mutexLock`. -/
  | entering (c : Call)
  /-- After `mutexLock`. -/
  | inside (c : Call)
  deriving DecidableEq

structure Shared where
  elevator : Elevator
  threads : Nat → Activity

inductive Event where
  | call (t : Nat) (c : Call)
  | lock (t : Nat)
  /-- The rest of the call, up to its return. -/
  | finish (t : Nat)

namespace Shared

def start (id minLevel maxLevel : Int) (thread : Nat) : Shared :=
  ⟨.new id minLevel maxLevel thread, fun _ => .idle⟩

def setThread (s : Shared) (t : Nat) (a : Activity) : Shared :=
  { s with threads := Function.update s.threads t a }

def step (s : Shared) : Event → Option Shared
  | .call t c => if s.threads t = .idle then some (s.setThread t (.entering c)) else none
  | .lock t =>
    match s.threads t with
    | .entering c => s.elevator.mutexLock.map fun e => { s with elevator := e }.setThread
        t (.inside c)
    | _ => none
  | .finish t =>
    match s.threads t with
    | .inside c => some ({ s with elevator := c.body s.elevator }.setThread t .idle)
    | _ => none

/-- The mutex is taken by exactly one thread, or free. -/
structure Held (s : Shared) : Prop where
  taken : s.elevator.lock = true ↔ ∃ t c, s.threads t = .inside c
  unique : ∀ t t' c c', s.threads t = .inside c → s.threads t' = .inside c' → t = t'

/-- All calls in progress are in the shaft. -/
structure Guarded (lo hi : Int) (s : Shared) : Prop extends Held s where
  shaft : s.elevator.minLevel = lo ∧ s.elevator.maxLevel = hi
  valid : ∀ t c, s.threads t = .entering c ∨ s.threads t = .inside c → c.Valid lo hi

section
variable {s s' : Shared} {t : Nat} {a : Activity} {c : Call} {lo hi : Int}

@[simp] theorem setThread_self : (s.setThread t a).threads t = a := Function.update_self _ _ _

theorem setThread_of_ne {t' : Nat} (h : t' ≠ t) : (s.setThread t a).threads t' = s.threads t' :=
  Function.update_of_ne h _ _

@[simp] theorem setThread_elevator : (s.setThread t a).elevator = s.elevator := rfl

/-- What an event can do. -/
theorem step_cases {ev : Event} (h : s.step ev = some s') :
    (∃ t c, ev = .call t c ∧ s.threads t = .idle ∧ s' = s.setThread t (.entering c)) ∨
      (∃ t c, ev = .lock t ∧ s.threads t = .entering c ∧ s.elevator.lock = false ∧
        s' = { s with elevator := { s.elevator with lock := true } }.setThread t (.inside c)) ∨
      ∃ t c, ev = .finish t ∧ s.threads t = .inside c ∧
        s' = { s with elevator := c.body s.elevator }.setThread t .idle := by
  cases ev with
  | call t c =>
    unfold step at h
    dsimp only at h
    split at h
    case isTrue hidle =>
      cases h
      exact .inl ⟨t, c, rfl, hidle, rfl⟩
    case isFalse => cases h
  | lock t =>
    unfold step at h
    dsimp only at h
    split at h
    case h_1 c hc =>
      unfold mutexLock at h
      cases hlock : s.elevator.lock with
      | true =>
        rw [hlock] at h
        cases h
      | false =>
        rw [hlock] at h
        cases h
        exact .inr (.inl ⟨t, c, rfl, hc, rfl, rfl⟩)
    case h_2 => cases h
  | finish t =>
    unfold step at h
    dsimp only at h
    split at h
    case h_1 c hc =>
      cases h
      exact .inr (.inr ⟨t, c, rfl, hc, rfl⟩)
    case h_2 => cases h

theorem step_finish (ht : s.threads t = .inside c) :
    s.step (.finish t) = some ({ s with elevator := c.body s.elevator }.setThread t .idle) := by
  simp only [step, ht]

/-- A call of the source that is in the shaft gives the mutex back. -/
theorem Guarded.finish (h : Guarded lo hi s) (ht : s.threads t = .inside c) :
    (c.body s.elevator).lock = false := by
  have hvalid := h.valid t c (.inr ht)
  rw [← h.shaft.1, ← h.shaft.2] at hvalid
  exact hvalid.unlocked

/-- The calls in progress after one thread has moved. -/
theorem Guarded.moved {e : Elevator} (h : Guarded lo hi s)
    (ha : ∀ c, a = .entering c ∨ a = .inside c → c.Valid lo hi) {t' : Nat}
    (ht' : (({ s with elevator := e } : Shared).setThread t a).threads t' = .entering c ∨
    (({ s with elevator := e } : Shared).setThread t a).threads t' = .inside c) :
    c.Valid lo hi := by
  by_cases heq : t' = t
  · rw [heq, setThread_self] at ht'
    exact ha c ht'
  · rw [setThread_of_ne heq] at ht'
    exact h.valid t' c ht'

theorem Guarded.call (h : Guarded lo hi s) (ht : s.threads t = .idle) (hc : c.Valid lo hi) :
    Guarded lo hi (s.setThread t (.entering c)) := by
  -- no thread comes inside, and none leaves
  have hinside : ∀ t' c', (s.setThread t (.entering c)).threads t' = .inside c' ↔
    s.threads t' = .inside c' := by
    intro t' c'
    by_cases heq : t' = t
    · rw [heq, setThread_self, ht]
      exact ⟨nofun, nofun⟩
    · rw [setThread_of_ne heq]
  refine ⟨⟨?_, ?_⟩, h.shaft, fun t' c' ht' => h.moved ?_ ht'⟩
  · simp only [hinside]
    exact h.taken
  · intro t₁ t₂ c₁ c₂ h₁ h₂
    exact h.unique t₁ t₂ c₁ c₂ ((hinside t₁ c₁).1 h₁) ((hinside t₂ c₂).1 h₂)
  · intro c' hc'
    cases hc' with
    | inl hc' =>
      cases hc'
      exact hc
    | inr hc' => cases hc'

theorem Guarded.lock (h : Guarded lo hi s) (ht : s.threads t = .entering c)
    (hfree : s.elevator.lock = false) :
    Guarded lo hi ({ s with elevator := { s.elevator with lock := true } }.setThread t
      (.inside c)) := by
  have honly : ∀ t' c',
    (({ s with elevator := { s.elevator with lock := true } } : Shared).setThread t
    (.inside c)).threads t' = .inside c' → t' = t := by
    intro t' c' ht'
    by_contra hne
    rw [setThread_of_ne hne] at ht'
    have hlock := h.taken.2 ⟨t', c', ht'⟩
    rw [hfree] at hlock
    cases hlock
  refine ⟨⟨⟨fun _ => ⟨t, c, setThread_self⟩, fun _ => rfl⟩, ?_⟩, h.shaft, fun t' c' ht' =>
    h.moved ?_ ht'⟩
  · intro t₁ t₂ c₁ c₂ h₁ h₂
    exact (honly t₁ c₁ h₁).trans (honly t₂ c₂ h₂).symm
  · intro c' hc'
    cases hc' with
    | inl hc' => cases hc'
    | inr hc' =>
      cases hc'
      exact h.valid t c (.inl ht)

/-- The only thread with the mutex has left. -/
theorem Held.none_inside {e : Elevator} (h : Held s) (ht : s.threads t = .inside c) (t' : Nat)
    (c' : Call) :
    (({ s with elevator := e } : Shared).setThread t .idle).threads t' ≠ .inside c' := by
  intro ht'
  by_cases heq : t' = t
  · rw [heq, setThread_self] at ht'
    cases ht'
  · rw [setThread_of_ne heq] at ht'
    exact heq (h.unique t' t c' c ht' ht)

theorem Guarded.leave (h : Guarded lo hi s) (ht : s.threads t = .inside c) :
    Guarded lo hi ({ s with elevator := c.body s.elevator }.setThread t .idle) := by
  obtain ⟨hmin, hmax⟩ := @Call.body_shaft s.elevator c
  refine ⟨⟨?_, ?_⟩, ⟨hmin.trans h.shaft.1, hmax.trans h.shaft.2⟩, fun t' c' ht' => h.moved ?_ ht'⟩
  · rw [setThread_elevator, h.finish ht]
    exact ⟨nofun, fun ⟨t', c', ht'⟩ => (h.none_inside ht t' c' ht').elim⟩
  · intro t₁ t₂ c₁ c₂ h₁
    exact (h.none_inside ht t₁ c₁ h₁).elim
  · intro c' hc'
    cases hc' with
    | inl hc' => cases hc'
    | inr hc' => cases hc'

theorem Guarded.step {ev : Event} (h : Guarded lo hi s)
    (hok : ∀ t c, ev = .call t c → c.Valid lo hi) (hstep : s.step ev = some s') :
    Guarded lo hi s' := by
  obtain ⟨t, c, hev, ht, rfl⟩ | ⟨t, c, -, ht, hfree, rfl⟩ | ⟨t, c, -, ht, rfl⟩ := step_cases hstep
  · exact h.call ht (hok t c hev)
  · exact h.lock ht hfree
  · exact h.leave ht

end

end Shared

open Shared

/-- **The mutex is given back**: in every state reached by calls with levels in the shaft, a call
that returns has released the mutex, and the mutex is free when no call is in progress. -/
theorem mutex_released (id minLevel maxLevel : Int) (thread : Nat) (es : List Event) (s : Shared)
    (hvalid : ∀ t c, .call t c ∈ es → c.Valid minLevel maxLevel)
    (hrun : Events.run step (start id minLevel maxLevel thread) es = some s) :
    (∀ t s', s.step (.finish t) = some s' → s'.elevator.lock = false) ∧
      ((∀ t, s.threads t = .idle) → s.elevator.lock = false) ∧
      (s.elevator.lock = true → ∃ t s', s.step (.finish t) = some s' ∧
      s'.elevator.lock = false) := by
  have hstart : Guarded minLevel maxLevel (start id minLevel maxLevel thread) :=
    ⟨⟨⟨nofun, fun ⟨t, c, h⟩ => (nomatch h)⟩, nofun⟩, ⟨rfl, rfl⟩, fun t c h => (nomatch h)⟩
  have hok : ∀ ev ∈ es, ∀ t c, ev = .call t c → c.Valid minLevel maxLevel := by
    intro ev hev t c heq
    rw [heq] at hev
    exact hvalid t c hev
  have hguarded : Guarded minLevel maxLevel s :=
    Events.run_inv _ (fun _ _ _ h hok hstep => h.step hok hstep) hstart hok hrun
  have hfinish : ∀ t s', s.step (.finish t) = some s' → s'.elevator.lock = false := by
    intro t s' hstep
    obtain ⟨t', c, hev, -, -⟩ | ⟨t', c, hev, -, -, -⟩ | ⟨t', c, -, ht, rfl⟩ := step_cases hstep
    · cases hev
    · cases hev
    · exact hguarded.finish ht
  refine ⟨hfinish, fun hidle => ?_, fun hlock => ?_⟩
  · by_contra hlock
    obtain ⟨t, c, ht⟩ := hguarded.taken.1 (Bool.eq_true_of_not_eq_false hlock)
    rw [hidle t] at ht
    cases ht
  · obtain ⟨t, c, ht⟩ := hguarded.taken.1 hlock
    exact ⟨t, _, step_finish ht, hfinish t _ (step_finish ht)⟩

theorem mutex_released_sample :
    ∃ s, Events.run step (start 0 1 9 0)
      [.call 1 (.addRequest 4), .call 2 .runLoop, .lock 1, .finish 1, .lock 2] = some s ∧
      (∀ t s', s.step (.finish t) = some s' → s'.elevator.lock = false) ∧
      ((∀ t, s.threads t = .idle) → s.elevator.lock = false) ∧
      (s.elevator.lock = true → ∃ t s', s.step (.finish t) = some s' ∧ s'.elevator.lock = false) :=
  ⟨_, rfl, mutex_released 0 1 9 0
    [.call 1 (.addRequest 4), .call 2 .runLoop, .lock 1, .finish 1, .lock 2] _
    (by
      intro t c h
      cases c with
      | addRequest newRequest =>
        have h4 : newRequest = 4 := by simp at h; exact h.2
        rw [h4]
        exact ⟨by decide, by decide⟩
      | _ => trivial) rfl⟩

/-- A level above the shaft: the call has returned, and the mutex is taken. -/
theorem invalid_request_leaks :
    ∃ s, Events.run step (start 0 1 9 0) [.call 1 (.addRequest 10), .lock 1, .finish 1] = some s ∧
      (∀ t, s.threads t = .idle) ∧ s.elevator.lock = true := by
  refine ⟨_, rfl, fun t => ?_, rfl⟩
  by_cases h : t = 1
  · rw [h]
    rfl
  · simp only [setThread_of_ne h]
    rfl

/-! ## The leak -/

/-- The mutex is taken, by no thread that could give it back. -/
def Shared.Leaked (s : Shared) : Prop := s.elevator.lock = true ∧ ∀ t c, s.threads t ≠ .inside c

/-- The exit for levels out of the shaft. -/
theorem Shared.Held.leaks {s : Shared} {newRequest : Int} {t : Nat} (h : Held s)
    (ht : s.threads t = .inside (.addRequest newRequest))
    (hout : newRequest > s.elevator.maxLevel ∨ newRequest < s.elevator.minLevel) :
    ∃ s', s.step (.finish t) = some s' ∧ s'.Leaked := by
  refine ⟨_, step_finish ht, ?_, fun t' c' ht' => ?_⟩
  · show (s.elevator.addRequestLocked newRequest).2.lock = true
    unfold addRequestLocked
    rw [if_pos hout]
    exact h.taken.2 ⟨t, _, ht⟩
  · exact h.none_inside ht t' c' ht'

/-- Nobody gets a leaked mutex, whatever is called. -/
theorem leaked_forever {s s' : Shared} {es : List Event} (h : s.Leaked)
    (hrun : Events.run step s es = some s') :
    s'.Leaked := by
  refine Events.run_inv (fun _ => True) (fun s ev s' h _ hstep => ?_) h (fun _ _ => trivial) hrun
  obtain ⟨t, c, -, ht, rfl⟩ | ⟨t, c, -, -, hfree, -⟩ | ⟨t, c, -, ht, -⟩ := step_cases hstep
  · refine ⟨h.1, fun t' c' ht' => ?_⟩
    by_cases heq : t' = t
    · rw [heq, setThread_self] at ht'
      cases ht'
    · rw [setThread_of_ne heq] at ht'
      exact h.2 t' c' ht'
  · rw [h.1] at hfree
    cases hfree
  · exact (h.2 t c ht).elim

end Elevator
