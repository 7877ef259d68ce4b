import Mathlib.Data.List.Basic
import Mathlib.Logic.Function.Basic
import Mathlib.Tactic

/-!
# Elevator

The class `Elevator`: one car, its sorted list of requested levels, and the mutex around them. A
method is modelled by what it does once it has the mutex (its `Locked` body); `Call.exec` is the
whole method, which blocks when the mutex is taken. Levels are `Int`: the car never leaves the
shaft, so that no `int` of the class overflows. What is printed goes to another queue and is left
out.
-/

inductive ElevatorState where
  | up
  | down
  | stand
  deriving DecidableEq, Repr

inductive ErrorCode where
  | noError
  | error
  deriving DecidableEq, Repr

structure Elevator where
  state : ElevatorState
  id : Int
  currentLevel : Int
  maxLevel : Int
  minLevel : Int
  /-- From low level to high level. -/
  requests : List Int
  /-- Whether the mutex is taken. -/
  lock : Bool
  /-- The thread of `elevatorProc`; 0 is none. -/
  runThread : Nat
  /-- The levels where `openDoor` was called, the latest first. -/
  opened : List Int
  deriving DecidableEq, Repr

namespace Elevator

/-- The constructor; it leaves `runThread` as the memory has it. -/
def new (inID inMinLevel inMaxLevel : Int) (runThread : Nat) : Elevator :=
  { state := .stand
    id := inID
    currentLevel := inMinLevel
    maxLevel := inMaxLevel
    minLevel := inMinLevel
    requests := []
    lock := false
    runThread := runThread
    opened := [] }

/-- `none`: the caller waits. -/
def mutexLock (e : Elevator) : Option Elevator :=
  if e.lock then none else some { e with lock := true }

def mutexUnlock (e : Elevator) : Elevator := { e with lock := false }

/-! ## The car -/

def needStop (e : Elevator) : Bool := e.requests.any (· = e.currentLevel)

def updateState (e : Elevator) : Elevator :=
  match e.state with
  | .up =>
    match e.requests.getLast? with
    | none => { e with state := .stand }
    | some back => if back < e.currentLevel then { e with state := .down } else e
  | .down =>
    match e.requests.head? with
    | none => { e with state := .stand }
    | some front => if front > e.currentLevel then { e with state := .up } else e
  | .stand => e

def openDoor (e : Elevator) : Elevator :=
  { e with
    requests := e.requests.filter (· ≠ e.currentLevel)
    opened := e.currentLevel :: e.opened }

def move (e : Elevator) : Elevator :=
  match e.state with
  | .up => if e.needStop then e.openDoor.updateState else
      { e with currentLevel := e.currentLevel + 1 }
  | .down => if e.needStop then e.openDoor.updateState else
      { e with currentLevel := e.currentLevel - 1 }
  | .stand => e

/-! ## The methods, with the mutex taken -/

def runLoopLocked (e : Elevator) : Elevator :=
  match e.state with
  | .up | .down => e.move.mutexUnlock
  | .stand => e.mutexUnlock

/-- The loop of `addRequest` over the requests there are. -/
def insertRequest (newRequest : Int) : List Int → List Int
  | [] => [newRequest]
  | i :: rest =>
    if newRequest = i then i :: rest
    else if i > newRequest then newRequest :: i :: rest
    else i :: insertRequest newRequest rest

def addRequestLocked (e : Elevator) (newRequest : Int) : ErrorCode × Elevator :=
  -- this exit does not unlock
  if newRequest > e.maxLevel ∨ newRequest < e.minLevel then (.error, e)
  else if e.requests.length = 0 then
    let e := { e with requests := [newRequest] }
    if newRequest > e.currentLevel then (.noError, { e with state := .up }.mutexUnlock)
    else if newRequest = e.currentLevel then
      (.noError, { e with state := .stand }.openDoor.mutexUnlock)
    else (.noError, { e with state := .down }.mutexUnlock)
  else (.noError, { e with requests := insertRequest newRequest e.requests }.mutexUnlock)

def getStateLocked (e : Elevator) : ElevatorState × Elevator := (e.state, e.mutexUnlock)

def getCurrentLevelLocked (e : Elevator) : Int × Elevator := (e.currentLevel, e.mutexUnlock)

/-- `thread` is what `pthread_create` gives. -/
def startOperationLocked (e : Elevator) (thread : Nat) : Elevator :=
  { e with runThread := thread }.mutexUnlock

/-- The first component is the thread that is cancelled. It ends at its next `usleep`, where it does
not have the mutex. -/
def stopOperationLocked (e : Elevator) : Option Nat × Elevator :=
  (if e.runThread ≠ 0 then some e.runThread else none, e.mutexUnlock)

inductive Call where
  | addRequest (newRequest : Int)
  | runLoop
  | getState
  | getCurrentLevel
  | startOperation (thread : Nat)
  | stopOperation
  deriving DecidableEq, Repr

/-- A method after its `mutexLock`, without the value it returns. -/
def Call.body (e : Elevator) : Call → Elevator
  | .addRequest newRequest => (e.addRequestLocked newRequest).2
  | .runLoop => e.runLoopLocked
  | .getState => e.getStateLocked.2
  | .getCurrentLevel => e.getCurrentLevelLocked.2
  | .startOperation thread => e.startOperationLocked thread
  | .stopOperation => e.stopOperationLocked.2

/-- A method. -/
def Call.exec (e : Elevator) (c : Call) : Option Elevator := e.mutexLock.map c.body

/-- Calls one after the other; `none`: one of them waits for ever. -/
def run (e : Elevator) (cs : List Call) : Option Elevator := cs.foldlM Call.exec e

/-- A method as one step that gets the mutex, taken or not. -/
def Call.step (e : Elevator) (c : Call) : Elevator := c.body { e with lock := true }

/-- Steps one after the other, the mutex left aside. -/
def steps (e : Elevator) (cs : List Call) : Elevator := cs.foldl Call.step e

end Elevator

/-! ## The car

`Elevator.Inv` holds after every sequence of calls (`steps_inv`): the requests are ascending and in
the shaft, and the car moves only towards a request. From there every request is served
(`requests_served`): a call of `runLoop` takes the car one level on, or opens the door and so drops
a request, and `todo` bounds how often.
-/

namespace Elevator

structure Inv (e : Elevator) : Prop where
  sorted : e.requests.Pairwise (· < ·)
  shaft : ∀ r ∈ e.requests, e.minLevel ≤ r ∧ r ≤ e.maxLevel
  level : e.minLevel ≤ e.currentLevel ∧ e.currentLevel ≤ e.maxLevel
  stand : e.state = .stand ↔ e.requests = []
  up : e.state = .up → ∃ r ∈ e.requests, e.currentLevel ≤ r
  down : e.state = .down → ∃ r ∈ e.requests, r ≤ e.currentLevel

/-- A valid call: the source refuses the others. -/
def Call.Valid (lo hi : Int) : Call → Prop
  | .addRequest newRequest => lo ≤ newRequest ∧ newRequest ≤ hi
  | _ => True

section
variable {e : Elevator} {l : List Int} {r n : Int}

/-! ## The list of requests -/

theorem mem_insertRequest : r ∈ insertRequest n l ↔ r = n ∨ r ∈ l := by
  induction l with
  | nil => simp [insertRequest]
  | cons i l ih =>
    unfold insertRequest
    split
    case isTrue h => simp [h]
    case isFalse =>
      split
      · exact List.mem_cons
      · rw [List.mem_cons, ih, List.mem_cons]
        exact or_left_comm

theorem insertRequest_sorted (h : l.Pairwise (· < ·)) : (insertRequest n l).Pairwise (· < ·) := by
  induction l with
  | nil => exact List.pairwise_singleton _ _
  | cons i l ih =>
    obtain ⟨hi, hl⟩ := List.pairwise_cons.1 h
    unfold insertRequest
    split
    case isTrue => exact h
    case isFalse hne =>
      split
      case isTrue hlt =>
        refine List.pairwise_cons.2 ⟨fun r hr => ?_, h⟩
        cases List.mem_cons.1 hr with
        | inl hr => exact hr ▸ hlt
        | inr hr => exact lt_trans hlt (hi r hr)
      case isFalse hge =>
        refine List.pairwise_cons.2 ⟨fun r hr => ?_, ih hl⟩
        cases mem_insertRequest.1 hr with
        | inl hr => omega
        | inr hr => exact hi r hr

theorem le_getLast (h : l.Pairwise (· < ·)) (hr : r ∈ l) : ∃ back, l.getLast? = some back ∧
    r ≤ back := by
  cases l using List.reverseRecOn with
  | nil => cases hr
  | append_singleton l back _ =>
    refine ⟨back, List.getLast?_concat, ?_⟩
    cases List.mem_append.1 hr with
    | inl hr => exact le_of_lt ((List.pairwise_append.1 h).2.2 r hr back List.mem_cons_self)
    | inr hr => exact le_of_eq (List.mem_singleton.1 hr)

theorem head_le (h : l.Pairwise (· < ·)) (hr : r ∈ l) : ∃ front, l.head? = some front ∧
    front ≤ r := by
  cases l with
  | nil => cases hr
  | cons front l =>
    refine ⟨front, rfl, ?_⟩
    cases List.mem_cons.1 hr with
    | inl hr => exact le_of_eq hr.symm
    | inr hr => exact le_of_lt ((List.pairwise_cons.1 h).1 r hr)

theorem needStop_iff : e.needStop = true ↔ e.currentLevel ∈ e.requests := by
  unfold needStop
  rw [List.any_eq_true]
  constructor
  · intro h
    obtain ⟨r, hr, heq⟩ := h
    exact of_decide_eq_true heq ▸ hr
  · intro h
    exact ⟨_, h, decide_eq_true rfl⟩

/-! ## One call -/

/-- Only `state`, `currentLevel`, `requests` and the levels of the shaft matter. -/
theorem Inv.congr {e' : Elevator} (h : Inv e) (hs : e'.state = e.state)
    (hc : e'.currentLevel = e.currentLevel) (hr : e'.requests = e.requests)
    (hmin : e'.minLevel = e.minLevel) (hmax : e'.maxLevel = e.maxLevel) :
    Inv e' := by
  obtain ⟨hsorted, hshaft, hlevel, hstand, hup, hdown⟩ := h
  constructor <;> simpa only [hs, hc, hr, hmin, hmax]

theorem inv_stand (hs : e.state = .stand) (hr : e.requests = [])
    (hlevel : e.minLevel ≤ e.currentLevel ∧ e.currentLevel ≤ e.maxLevel) : Inv e := by
  refine ⟨?_, ?_, hlevel, ⟨fun _ => hr, fun _ => hs⟩, fun h => ?_, fun h => ?_⟩
  · rw [hr]
    exact List.Pairwise.nil
  · rw [hr]
    exact nofun
  · cases hs.symm.trans h
  · cases hs.symm.trans h

/-- `updateState` turns towards a request. -/
theorem inv_updateState (hsorted : e.requests.Pairwise (· < ·))
    (hshaft : ∀ r ∈ e.requests, e.minLevel ≤ r ∧ r ≤ e.maxLevel)
    (hlevel : e.minLevel ≤ e.currentLevel ∧ e.currentLevel ≤ e.maxLevel)
    (hmoving : e.state ≠ .stand) :
    Inv e.updateState := by
  unfold updateState
  cases hs : e.state with
  | up =>
    cases hl : e.requests.getLast? with
    | none =>
      exact inv_stand rfl (List.getLast?_eq_none_iff.1 hl) hlevel
    | some back =>
      have hback : back ∈ e.requests := List.mem_of_getLast? hl
      have hne : e.requests ≠ [] := List.ne_nil_of_mem hback
      by_cases hlt : back < e.currentLevel
      · simp only [hlt, if_true]
        exact ⟨hsorted, hshaft, hlevel, ⟨nofun, fun h => (hne h).elim⟩, nofun,
          fun _ => ⟨back, hback, le_of_lt hlt⟩⟩
      · simp only [hlt, if_false]
        refine ⟨hsorted, hshaft, hlevel, ⟨fun h => (hmoving h).elim, fun h => (hne h).elim⟩,
          fun _ => ⟨back, hback, not_lt.1 hlt⟩, fun h => ?_⟩
        rw [hs] at h
        cases h
  | down =>
    cases hl : e.requests.head? with
    | none =>
      exact inv_stand rfl (List.head?_eq_none_iff.1 hl) hlevel
    | some front =>
      have hfront : front ∈ e.requests := List.mem_of_head? hl
      have hne : e.requests ≠ [] := List.ne_nil_of_mem hfront
      by_cases hlt : front > e.currentLevel
      · simp only [hlt, if_true]
        exact ⟨hsorted, hshaft, hlevel, ⟨nofun, fun h => (hne h).elim⟩,
          fun _ => ⟨front, hfront, le_of_lt hlt⟩, nofun⟩
      · simp only [hlt, if_false]
        refine ⟨hsorted, hshaft, hlevel, ⟨fun h => (hmoving h).elim, fun h => (hne h).elim⟩,
          fun h => ?_, fun _ => ⟨front, hfront, not_lt.1 hlt⟩⟩
        rw [hs] at h
        cases h
  | stand => exact (hmoving hs).elim

/-- The car stops. -/
theorem Inv.stop (h : Inv e) (hmoving : e.state ≠ .stand) : Inv e.openDoor.updateState := by
  refine inv_updateState (h.sorted.filter _) (fun r hr => ?_) h.level hmoving
  exact h.shaft r (List.mem_of_mem_filter hr)

theorem move_stop (hmoving : e.state ≠ .stand) (h : e.currentLevel ∈ e.requests) :
    e.move = e.openDoor.updateState := by
  unfold move
  rw [needStop_iff.2 h]
  cases hs : e.state with
  | up => rfl
  | down => rfl
  | stand => exact (hmoving hs).elim

theorem move_up (hs : e.state = .up) (h : e.currentLevel ∉ e.requests) :
    e.move = { e with currentLevel := e.currentLevel + 1 } := by
  unfold move
  rw [hs]
  exact if_neg fun hc => h (needStop_iff.1 hc)

theorem move_down (hs : e.state = .down) (h : e.currentLevel ∉ e.requests) :
    e.move = { e with currentLevel := e.currentLevel - 1 } := by
  unfold move
  rw [hs]
  exact if_neg fun hc => h (needStop_iff.1 hc)

/-- There is a level to move to. -/
theorem Inv.lt_maxLevel (h : Inv e) (hs : e.state = .up) (hstop : e.currentLevel ∉ e.requests) :
    ∃ r ∈ e.requests, e.currentLevel < r ∧ r ≤ e.maxLevel := by
  obtain ⟨r, hr, hle⟩ := h.up hs
  have hne : e.currentLevel ≠ r := fun heq => hstop (heq ▸ hr)
  exact ⟨r, hr, lt_of_le_of_ne hle hne, (h.shaft r hr).2⟩

theorem Inv.minLevel_lt (h : Inv e) (hs : e.state = .down) (hstop : e.currentLevel ∉ e.requests) :
    ∃ r ∈ e.requests, r < e.currentLevel ∧ e.minLevel ≤ r := by
  obtain ⟨r, hr, hle⟩ := h.down hs
  have hne : r ≠ e.currentLevel := fun heq => hstop (heq ▸ hr)
  exact ⟨r, hr, lt_of_le_of_ne hle hne, (h.shaft r hr).1⟩

theorem Inv.move (h : Inv e) : Inv e.move := by
  by_cases hmoving : e.state = .stand
  · have hmove : e.move = e := by
      unfold Elevator.move
      rw [hmoving]
    rw [hmove]
    exact h
  by_cases hstop : e.currentLevel ∈ e.requests
  · rw [move_stop hmoving hstop]
    exact h.stop hmoving
  have hlevel := h.level
  cases hs : e.state with
  | stand => exact (hmoving hs).elim
  | up =>
    rw [move_up hs hstop]
    obtain ⟨r, hr, hlt, hmax⟩ := h.lt_maxLevel hs hstop
    refine ⟨h.sorted, h.shaft, ⟨?_, ?_⟩, h.stand, fun _ => ⟨r, hr, hlt⟩, fun hd => ?_⟩
    · show e.minLevel ≤ e.currentLevel + 1
      omega
    · show e.currentLevel + 1 ≤ e.maxLevel
      omega
    · cases hs.symm.trans hd
  | down =>
    rw [move_down hs hstop]
    obtain ⟨r, hr, hlt, hmin⟩ := h.minLevel_lt hs hstop
    refine ⟨h.sorted, h.shaft, ⟨?_, ?_⟩, h.stand, fun hu => ?_, fun _ => ⟨r, hr, ?_⟩⟩
    · show e.minLevel ≤ e.currentLevel - 1
      omega
    · show e.currentLevel - 1 ≤ e.maxLevel
      omega
    · cases hs.symm.trans hu
    · show r ≤ e.currentLevel - 1
      omega

theorem Inv.runLoop (h : Inv e) : Inv e.runLoopLocked := by
  unfold runLoopLocked
  cases e.state with
  | up => exact h.move.congr rfl rfl rfl rfl rfl
  | down => exact h.move.congr rfl rfl rfl rfl rfl
  | stand => exact h.congr rfl rfl rfl rfl rfl

theorem Inv.addRequest (h : Inv e) (newRequest : Int) : Inv (e.addRequestLocked newRequest).2 := by
  unfold addRequestLocked
  by_cases hinvalid : newRequest > e.maxLevel ∨ newRequest < e.minLevel
  · rw [if_pos hinvalid]
    exact h
  rw [if_neg hinvalid]
  have hvalid : e.minLevel ≤ newRequest ∧ newRequest ≤ e.maxLevel := by omega
  have hone : ∀ r ∈ [newRequest], e.minLevel ≤ r ∧ r ≤ e.maxLevel :=
    fun r hr => List.mem_singleton.1 hr ▸ hvalid
  by_cases hnil : e.requests.length = 0
  · rw [if_pos hnil]
    dsimp only
    split
    case isTrue hgt =>
      exact ⟨List.pairwise_singleton _ _, hone, h.level, ⟨nofun, nofun⟩,
        fun _ => ⟨newRequest, List.mem_singleton_self _, le_of_lt hgt⟩, nofun⟩
    case isFalse hle =>
      split
      case isTrue heq =>
        -- the request for this level is served at once
        have hfilter : [newRequest].filter (· ≠ e.currentLevel) = [] := by simp [heq]
        exact inv_stand rfl hfilter h.level
      case isFalse hne =>
        exact ⟨List.pairwise_singleton _ _, hone, h.level, ⟨nofun, nofun⟩, nofun,
          fun _ => ⟨newRequest, List.mem_singleton_self _, not_lt.1 hle⟩⟩
  · rw [if_neg hnil]
    have hne : e.requests ≠ [] := fun hc => hnil (List.length_eq_zero_iff.2 hc)
    have hne' : insertRequest newRequest e.requests ≠ [] :=
      List.ne_nil_of_mem (mem_insertRequest.2 (.inl rfl))
    refine ⟨insertRequest_sorted h.sorted, fun r hr => ?_, h.level, ?_, fun hu => ?_, fun hd => ?_⟩
    · cases mem_insertRequest.1 hr with
      | inl hr => exact hr ▸ hvalid
      | inr hr => exact h.shaft r hr
    · exact ⟨fun hs => (hne (h.stand.1 hs)).elim, fun hc => (hne' hc).elim⟩
    · obtain ⟨r, hr, hle⟩ := h.up hu
      exact ⟨r, mem_insertRequest.2 (.inr hr), hle⟩
    · obtain ⟨r, hr, hle⟩ := h.down hd
      exact ⟨r, mem_insertRequest.2 (.inr hr), hle⟩

theorem Inv.body (h : Inv e) (c : Call) : Inv (c.body e) := by
  cases c with
  | addRequest newRequest => exact h.addRequest newRequest
  | runLoop => exact h.runLoop
  | getState => exact h.congr rfl rfl rfl rfl rfl
  | getCurrentLevel => exact h.congr rfl rfl rfl rfl rfl
  | startOperation thread => exact h.congr rfl rfl rfl rfl rfl
  | stopOperation => exact h.congr rfl rfl rfl rfl rfl

theorem Inv.new {id lo hi : Int} {thread : Nat} (h : lo ≤ hi) : Inv (new id lo hi thread) :=
  inv_stand rfl rfl ⟨le_refl _, h⟩

theorem updateState_eq (e : Elevator) : ∃ s, e.updateState = { e with state := s } := by
  unfold updateState
  split
  · split
    · exact ⟨_, rfl⟩
    · split <;> exact ⟨_, rfl⟩
  · split
    · exact ⟨_, rfl⟩
    · split <;> exact ⟨_, rfl⟩
  · exact ⟨_, rfl⟩

theorem move_shaft : e.move.minLevel = e.minLevel ∧ e.move.maxLevel = e.maxLevel := by
  obtain ⟨s, hs⟩ := updateState_eq e.openDoor
  unfold move
  rw [hs]
  split
  · split <;> exact ⟨rfl, rfl⟩
  · split <;> exact ⟨rfl, rfl⟩
  · exact ⟨rfl, rfl⟩

/-- The levels of the shaft never change. -/
theorem Call.body_shaft (c : Call) : (c.body e).minLevel = e.minLevel ∧
    (c.body e).maxLevel = e.maxLevel := by
  cases c with
  | addRequest newRequest =>
    show (e.addRequestLocked newRequest).2.minLevel = _ ∧
      (e.addRequestLocked newRequest).2.maxLevel = _
    unfold addRequestLocked
    dsimp only
    split_ifs <;> exact ⟨rfl, rfl⟩
  | runLoop =>
    show e.runLoopLocked.minLevel = _ ∧ e.runLoopLocked.maxLevel = _
    unfold runLoopLocked
    cases e.state with
    | up => exact move_shaft
    | down => exact move_shaft
    | stand => exact ⟨rfl, rfl⟩
  | getState => exact ⟨rfl, rfl⟩
  | getCurrentLevel => exact ⟨rfl, rfl⟩
  | startOperation thread => exact ⟨rfl, rfl⟩
  | stopOperation => exact ⟨rfl, rfl⟩

/-- **One call** keeps the invariant, whether the mutex was free or not. -/
theorem Inv.step (h : Inv e) (c : Call) : Inv (c.step e) := by
  have h' : Inv { e with lock := true } := h.congr rfl rfl rfl rfl rfl
  exact h'.body c

theorem Inv.steps (h : Inv e) (cs : List Call) :
    Inv (e.steps cs) ∧ (e.steps cs).minLevel = e.minLevel ∧ (e.steps cs).maxLevel = e.maxLevel := by
  induction cs generalizing e with
  | nil => exact ⟨h, rfl, rfl⟩
  | cons c cs ih =>
    obtain ⟨hinv, hmin, hmax⟩ := ih (h.step c)
    obtain ⟨hmin', hmax'⟩ := @Call.body_shaft { e with lock := true } c
    exact ⟨hinv, hmin.trans hmin', hmax.trans hmax'⟩

end

/-- **The car stays in the shaft**, and moves only towards a request, after every sequence of
calls. -/
theorem steps_inv (id minLevel maxLevel : Int) (thread : Nat) (h : minLevel ≤ maxLevel)
    (cs : List Call) :
    let e := (new id minLevel maxLevel thread).steps cs
    e.requests.Pairwise (· < ·) ∧ (∀ r ∈ e.requests, minLevel ≤ r ∧ r ≤ maxLevel) ∧
      (minLevel ≤ e.currentLevel ∧ e.currentLevel ≤ maxLevel) ∧
      (e.state = .stand ↔ e.requests = []) ∧
      (e.state = .up → ∃ back, e.requests.getLast? = some back ∧ back ≥ e.currentLevel) ∧
      (e.state = .down → ∃ front, e.requests.head? = some front ∧ front ≤ e.currentLevel) := by
  intro e
  have hnew : Inv (new id minLevel maxLevel thread) := Inv.new h
  obtain ⟨hinv, hmin, hmax⟩ := hnew.steps cs
  have hmin : e.minLevel = minLevel := hmin
  have hmax : e.maxLevel = maxLevel := hmax
  refine ⟨hinv.sorted, ?_, ?_, hinv.stand, fun hs => ?_, fun hs => ?_⟩
  · rw [← hmin, ← hmax]
    exact hinv.shaft
  · rw [← hmin, ← hmax]
    exact hinv.level
  · obtain ⟨r, hr, hle⟩ := hinv.up hs
    obtain ⟨back, hback, hle'⟩ := le_getLast hinv.sorted hr
    exact ⟨back, hback, le_trans hle hle'⟩
  · obtain ⟨r, hr, hle⟩ := hinv.down hs
    obtain ⟨front, hfront, hle'⟩ := head_le hinv.sorted hr
    exact ⟨front, hfront, le_trans hle' hle⟩

theorem steps_inv_sample :
    let e := (new 0 1 9 0).steps [.addRequest 5, .runLoop, .addRequest 1, .addRequest 12,
      .addRequest 9]
    e.requests.Pairwise (· < ·) ∧ (∀ r ∈ e.requests, 1 ≤ r ∧ r ≤ 9) ∧
      (1 ≤ e.currentLevel ∧ e.currentLevel ≤ 9) ∧ (e.state = .stand ↔ e.requests = []) ∧
      (e.state = .up → ∃ back, e.requests.getLast? = some back ∧ back ≥ e.currentLevel) ∧
      (e.state = .down → ∃ front, e.requests.head? = some front ∧ front ≤ e.currentLevel) :=
  steps_inv 0 1 9 0 (by decide) [.addRequest 5, .runLoop, .addRequest 1, .addRequest 12,
    .addRequest 9]

/-! ## Every request is served -/

/-- The levels left in the direction of the car. -/
def ahead (e : Elevator) : Nat :=
  match e.state with
  | .up => (e.maxLevel - e.currentLevel).toNat
  | .down => (e.currentLevel - e.minLevel).toNat
  | .stand => 0

/-- A bound on the calls of `runLoop` until the car stands. -/
def todo (e : Elevator) : Nat := e.requests.length * ((e.maxLevel - e.minLevel).toNat + 1) + e.ahead

/-- From `e` to `e'` the door was opened at each level that is no longer requested. -/
def Serves (e e' : Elevator) : Prop :=
  ∃ opens, e'.opened = opens ++ e.opened ∧ ∀ r ∈ e.requests, r ∈ e'.requests ∨ r ∈ opens

section
variable {e e' e'' : Elevator}

theorem Serves.of_eq (hr : e'.requests = e.requests) (ho : e'.opened = e.opened) : Serves e e' :=
  ⟨[], ho, fun _ h => .inl (hr ▸ h)⟩

theorem Serves.trans (h : Serves e e') (h' : Serves e' e'') : Serves e e'' := by
  obtain ⟨opens, ho, hr⟩ := h
  obtain ⟨opens', ho', hr'⟩ := h'
  refine ⟨opens' ++ opens, ?_, fun r hmem => ?_⟩
  · rw [ho', ho, List.append_assoc]
  · cases hr r hmem with
    | inr hopen => exact .inr (List.mem_append_right _ hopen)
    | inl hmem =>
      cases hr' r hmem with
      | inl hmem => exact .inl hmem
      | inr hopen => exact .inr (List.mem_append_left _ hopen)

theorem ahead_le (hlevel : e.minLevel ≤ e.currentLevel ∧ e.currentLevel ≤ e.maxLevel) :
    e.ahead ≤ (e.maxLevel - e.minLevel).toNat := by
  unfold ahead
  cases e.state with
  | up => exact Int.toNat_le_toNat (by omega)
  | down => exact Int.toNat_le_toNat (by omega)
  | stand => exact Nat.zero_le _

theorem todo_stop (h : Inv e) (hmoving : e.state ≠ .stand) (hstop : e.currentLevel ∈ e.requests) :
    todo e.openDoor.updateState < todo e := by
  have hahead := ahead_le (h.stop hmoving).level
  obtain ⟨s, hs⟩ := updateState_eq e.openDoor
  rw [hs] at hahead ⊢
  have hlen : (e.requests.filter (· ≠ e.currentLevel)).length < e.requests.length :=
    List.length_filter_lt_length_iff_exists.2 ⟨_, hstop, by simp⟩
  have hmul := Nat.mul_le_mul_right ((e.maxLevel - e.minLevel).toNat + 1) (Nat.succ_le_of_lt hlen)
  rw [Nat.succ_mul] at hmul
  calc todo { e.openDoor with state := s }
      ≤ (e.requests.filter (· ≠ e.currentLevel)).length * ((e.maxLevel - e.minLevel).toNat + 1) +
          (e.maxLevel - e.minLevel).toNat := Nat.add_le_add_left hahead _
    _ < e.requests.length * ((e.maxLevel - e.minLevel).toNat + 1) := by omega
    _ ≤ todo e := Nat.le_add_right _ _

theorem serves_stop (e : Elevator) : Serves e e.openDoor.updateState := by
  obtain ⟨s, hs⟩ := updateState_eq e.openDoor
  rw [hs]
  refine ⟨[e.currentLevel], rfl, fun r hr => ?_⟩
  by_cases heq : r = e.currentLevel
  · exact .inr (List.mem_singleton.2 heq)
  · exact .inl (List.mem_filter.2 ⟨hr, decide_eq_true heq⟩)

/-- **One move** of the car serves what it drops, and there is less to do then. -/
theorem Inv.move_serves (h : Inv e) (hmoving : e.state ≠ .stand) :
    Serves e e.move ∧ todo e.move < todo e := by
  by_cases hstop : e.currentLevel ∈ e.requests
  · rw [move_stop hmoving hstop]
    exact ⟨serves_stop e, todo_stop h hmoving hstop⟩
  cases hs : e.state with
  | stand => exact (hmoving hs).elim
  | up =>
    rw [move_up hs hstop]
    obtain ⟨r, hr, hlt, hmax⟩ := h.lt_maxLevel hs hstop
    refine ⟨Serves.of_eq rfl rfl, ?_⟩
    simp only [todo, ahead, hs]
    omega
  | down =>
    rw [move_down hs hstop]
    obtain ⟨r, hr, hlt, hmin⟩ := h.minLevel_lt hs hstop
    refine ⟨Serves.of_eq rfl rfl, ?_⟩
    simp only [todo, ahead, hs]
    omega

theorem Inv.runLoop_serves (h : Inv e) (hmoving : e.state ≠ .stand) :
    Serves e (Call.runLoop.step e) ∧ todo (Call.runLoop.step e) < todo e := by
  have h' : Inv { e with lock := true } := h.congr rfl rfl rfl rfl rfl
  have hstep : Call.runLoop.step e = ({ e with lock := true } : Elevator).move.mutexUnlock := by
    show runLoopLocked { e with lock := true } = _
    unfold runLoopLocked
    cases hs : e.state with
    | up => rfl
    | down => rfl
    | stand => exact (hmoving hs).elim
  rw [hstep]
  exact h'.move_serves hmoving

/-! ## The mutex of valid calls -/

theorem exec_free (h : e.lock = false) (c : Call) : c.exec e = some (c.step e) := by
  unfold Call.exec mutexLock
  rw [h]
  rfl

theorem Call.Valid.unlocked {c : Call} (h : c.Valid e.minLevel e.maxLevel) :
    (c.body e).lock = false := by
  cases c with
  | addRequest newRequest =>
    have hvalid : ¬ (newRequest > e.maxLevel ∨ newRequest < e.minLevel) := by
      have h : e.minLevel ≤ newRequest ∧ newRequest ≤ e.maxLevel := h
      omega
    show (e.addRequestLocked newRequest).2.lock = false
    unfold addRequestLocked
    rw [if_neg hvalid]
    dsimp only
    split_ifs <;> rfl
  | runLoop =>
    show e.runLoopLocked.lock = false
    unfold runLoopLocked
    cases e.state <;> rfl
  | getState => rfl
  | getCurrentLevel => rfl
  | startOperation thread => rfl
  | stopOperation => rfl

/-- Valid calls do not wait. -/
theorem run_valid {cs : List Call} (hlock : e.lock = false)
    (hvalid : ∀ c ∈ cs, c.Valid e.minLevel e.maxLevel) :
    e.run cs = some (e.steps cs) ∧ (e.steps cs).lock = false := by
  induction cs generalizing e with
  | nil => exact ⟨rfl, hlock⟩
  | cons c cs ih =>
    obtain ⟨hmin, hmax⟩ := @Call.body_shaft { e with lock := true } c
    have hc : c.Valid e.minLevel e.maxLevel := hvalid c List.mem_cons_self
    have hunlocked : (c.step e).lock = false :=
      Call.Valid.unlocked (e := { e with lock := true }) hc
    have hrest : ∀ c' ∈ cs, c'.Valid (c.step e).minLevel (c.step e).maxLevel := by
      intro c' hc'
      unfold Call.step
      rw [hmin, hmax]
      exact hvalid c' (List.mem_cons_of_mem _ hc')
    obtain ⟨hrun, hlock'⟩ := ih hunlocked hrest
    refine ⟨?_, hlock'⟩
    unfold run at hrun ⊢
    rw [List.foldlM_cons, exec_free hlock]
    exact hrun

/-- The car comes to a stand when nobody calls it. -/
theorem Inv.served (h : Inv e) : ∃ n, Serves e (e.steps (List.replicate n .runLoop)) ∧
    (e.steps (List.replicate n .runLoop)).state = .stand := by
  induction hk : todo e using Nat.strong_induction_on generalizing e with
  | _ k ih =>
    by_cases hs : e.state = .stand
    · exact ⟨0, Serves.of_eq rfl rfl, hs⟩
    · obtain ⟨hserves, htodo⟩ := h.runLoop_serves hs
      obtain ⟨n, hserves', hstand⟩ := ih _ (hk ▸ htodo) (h.step .runLoop) rfl
      exact ⟨n + 1, hserves.trans hserves', hstand⟩

end

/-- **Every request is served**: after every sequence of valid calls, some number of calls of
`runLoop` takes the car to a stand with no request left, and the door was opened at each requested
level. -/
theorem requests_served (id minLevel maxLevel : Int) (thread : Nat) (h : minLevel ≤ maxLevel)
    (cs : List Call) (hvalid : ∀ c ∈ cs, c.Valid minLevel maxLevel) :
    ∃ e, (new id minLevel maxLevel thread).run cs = some e ∧
      ∃ n e' opens, e.run (List.replicate n .runLoop) = some e' ∧ e'.state = .stand ∧
        e'.requests = [] ∧ e'.opened = opens ++ e.opened ∧ ∀ r ∈ e.requests, r ∈ opens := by
  have hnew : Inv (new id minLevel maxLevel thread) := Inv.new h
  obtain ⟨hinv, -, -⟩ := hnew.steps cs
  obtain ⟨hrun, hlock⟩ := @run_valid (new id minLevel maxLevel thread) cs rfl hvalid
  obtain ⟨n, ⟨opens, hopened, hserved⟩, hstand⟩ := hinv.served
  have hloops := @run_valid _ (List.replicate n .runLoop) hlock fun c hc => by
    rw [List.eq_of_mem_replicate hc]
    trivial
  have hnil := (hinv.steps (List.replicate n .runLoop)).1.stand.1 hstand
  refine ⟨_, hrun, n, _, opens, hloops.1, hstand, hnil, hopened, fun r hr => ?_⟩
  cases hserved r hr with
  | inl hmem =>
    rw [hnil] at hmem
    cases hmem
  | inr hopen => exact hopen

theorem requests_served_sample :
    ∃ e, (new 0 1 9 0).run [.addRequest 5, .runLoop, .addRequest 1, .addRequest 9] = some e ∧
      ∃ n e' opens, e.run (List.replicate n .runLoop) = some e' ∧ e'.state = .stand ∧
        e'.requests = [] ∧ e'.opened = opens ++ e.opened ∧ ∀ r ∈ e.requests, r ∈ opens :=
  requests_served 0 1 9 0 (by decide) [.addRequest 5, .runLoop, .addRequest 1, .addRequest 9] (by
    simp [Call.Valid])

end Elevator
