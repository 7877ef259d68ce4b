import DsAlgor.Lib.BinarySearch
import DsAlgor.Lib.CInt
import Mathlib.Data.List.Sort
import Mathlib.Tactic

/-!
# The hit counter

The class `HitCounter`. A deque is a list of pairs, oldest first. `now()` is read from the outside:
an operation takes the clock readings it makes, a `hit` two of them (the stamp and the one of
`prune`). `long` is unbounded, `int` has 32 bits.

The windows are products of type `int`, and `60 * minute` does not fit: `hour` is negative
(`hour_eq`). The second and the minute are counted right; `hitsInLastHour` looks for stamps in the
future and always returns 0, and `prune` never discards anything. All answers of a run are right
exactly when no question about the last hour is asked while there is a hit in it
(`windows_right_iff`).
-/

namespace HitCounter

open BinarySearch

def second : Int := 1000000
def minute : Int := int32 (60 * second)
def hour : Int := int32 (60 * minute)

/-- The order of `pair<long, int>`. -/
def lt (a b : Int × Int) : Bool := a.1 < b.1 || (!(b.1 < a.1) && a.2 < b.2)

structure State where
  hits : List (Int × Int)
  lastCount : Int

namespace State

def new : State := ⟨[], 0⟩

def prune (s : State) (now : Int) : State :=
  let old := upperBound lt s.hits (now - 1 * hour, -1)
  if old ≠ s.hits.length then { s with hits := s.hits.drop old } else s

/-- The first statement of `hit`. -/
def push (s : State) (now : Int) : State :=
  let lastCount := s.lastCount + 1
  ⟨s.hits ++ [(now, int32 lastCount)], lastCount⟩

def hit (s : State) (now now' : Int) : State := (s.push now).prune now'

/-- The three queries, which differ in their window. -/
def hitsInLast (window : Int) (s : State) (now : Int) : Int :=
  let before := lowerBound lt s.hits (now - 1 * window, -1)
  match s.hits[before]? with
  | none => 0
  | some hit => s.lastCount - hit.2 + 1

def hitsInLastSecond : State → Int → Int := hitsInLast second
def hitsInLastMinute : State → Int → Int := hitsInLast minute
def hitsInLastHour : State → Int → Int := hitsInLast hour

end State

open State

inductive Window where
  | second
  | minute
  | hour

/-- The width of the window in microseconds. -/
def Window.span : Window → Int
  | second => 1000000
  | minute => 60 * 1000000
  | hour => 3600 * 1000000

def Window.ask : Window → State → Int → Int
  | second => hitsInLastSecond
  | minute => hitsInLastMinute
  | hour => hitsInLastHour

inductive Event where
  | hit (now now' : Int)
  | query (w : Window) (now : Int)

namespace Event

/-- The clock readings of an operation, in order. -/
def readings : Event → List Int
  | hit now now' => [now, now']
  | query _ now => [now]

/-- The stamps it adds. -/
def stamps : Event → List Int
  | hit now _ => [now]
  | query _ _ => []

def run (s : State) : Event → State
  | hit now now' => s.hit now now'
  | query _ _ => s

/-- A query returns the number of the hits in its window; `past` are the stamps of all hits so far.
A `hit` discards none that is in the last hour. -/
def Right (s : State) (past : List Int) : Event → Prop
  | hit now now' => ∀ p ∈ (s.push now).hits, now' - Window.hour.span ≤ p.1 →
      p ∈ (s.hit now now').hits
  | query w now => w.ask s now = past.countP (now - w.span ≤ ·)

/-- A question about the last hour, when no hit is in it; any other operation. -/
def Quiet (past : List Int) : Event → Prop
  | query .hour now => ∀ a ∈ past, a < now - Window.hour.span
  | _ => True

end Event

/-- The operations are right, one after the other. -/
def AllRight : State → List Int → List Event → Prop
  | _, _, [] => True
  | s, past, e :: es => e.Right s past ∧ AllRight (e.run s) (past ++ e.stamps) es

def AllQuiet : List Int → List Event → Prop
  | _, [] => True
  | past, e :: es => e.Quiet past ∧ AllQuiet (past ++ e.stamps) es

/-! ## The deque -/

/-- The hits with the stamps `past`, numbered from `n + 1`. -/
def number (n : Nat) (past : List Int) : List (Int × Int) :=
  (past.zipIdx (n + 1)).map fun p => (p.1, (p.2 : Int))

structure Inv (s : State) (past : List Int) : Prop where
  hits : s.hits = number 0 past
  lastCount : s.lastCount = past.length

theorem hour_eq : hour = -694967296 := by decide

theorem number_append (n : Nat) (as bs : List Int) :
    number n (as ++ bs) = number n as ++ number (n + as.length) bs := by
  unfold number
  rw [List.zipIdx_append, List.map_append]
  congr 3
  omega

theorem length_number (n : Nat) (past : List Int) : (number n past).length = past.length := by
  unfold number
  rw [List.length_map, List.length_zipIdx]

theorem mem_number {n : Nat} {past : List Int} {p : Int × Int} (h : p ∈ number n past) :
    p.1 ∈ past ∧ 0 < p.2 := by
  unfold number at h
  obtain ⟨⟨a, i⟩, hmem, rfl⟩ := List.mem_map.1 h
  have hi := List.le_snd_of_mem_zipIdx hmem
  refine ⟨List.fst_mem_of_mem_zipIdx hmem, ?_⟩
  dsimp only at hi ⊢
  omega

/-- A hit comes before the key of a search exactly when its stamp does. -/
theorem lt_key {p : Int × Int} (hp : 0 < p.2) (t : Int) : lt p (t, -1) = true ↔ p.1 < t := by
  unfold lt
  simp only [Bool.or_eq_true, Bool.and_eq_true, decide_eq_true_eq]
  omega

theorem key_lt {p : Int × Int} (hp : 0 < p.2) (t : Int) : lt (t, -1) p = true ↔ t ≤ p.1 := by
  unfold lt
  simp only [Bool.or_eq_true, Bool.and_eq_true, decide_eq_true_eq, Bool.not_eq_true',
    decide_eq_false_iff_not]
  omega

/-- Sorted stamps, cut at `t`. -/
theorem exists_cut {past : List Int} (h : past.Pairwise (· ≤ ·)) (t : Int) :
    ∃ as bs, past = as ++ bs ∧ (∀ a ∈ as, a < t) ∧ ∀ b ∈ bs, t ≤ b := by
  induction past with
  | nil => exact ⟨[], [], rfl, nofun, nofun⟩
  | cons x past ih =>
    obtain ⟨hx, hpast⟩ := List.pairwise_cons.1 h
    by_cases hxt : x < t
    · obtain ⟨as, bs, rfl, has, hbs⟩ := ih hpast
      exact ⟨x :: as, bs, rfl, List.forall_mem_cons.2 ⟨hxt, has⟩, hbs⟩
    · have hle : t ≤ x := not_lt.1 hxt
      exact ⟨[], x :: past, rfl, nofun,
        List.forall_mem_cons.2 ⟨hle, fun b hb => hle.trans (hx b hb)⟩⟩

section
variable {s : State} {past : List Int} {now : Int}

/-- The answer for any window, negative ones included. -/
theorem Inv.hitsInLast_eq (h : Inv s past) (hsorted : past.Pairwise (· ≤ ·)) (window now : Int) :
    s.hitsInLast window now = past.countP (now - window ≤ ·) := by
  obtain ⟨as, bs, rfl, has, hbs⟩ := exists_cut hsorted (now - window)
  have hhits := h.hits
  rw [number_append, Nat.zero_add] at hhits
  have hbefore : lowerBound lt s.hits (now - 1 * window, -1) = as.length := by
    rw [hhits, one_mul, ← length_number 0 as]
    apply lowerBound_append
    · intro p hp
      obtain ⟨hmem, hpos⟩ := mem_number hp
      exact (lt_key hpos _).2 (has _ hmem)
    · intro p hp
      obtain ⟨hmem, hpos⟩ := mem_number hp
      rw [← Bool.not_eq_true, lt_key hpos]
      exact not_lt.2 (hbs _ hmem)
  have hcount : (as ++ bs).countP (now - window ≤ ·) = bs.length := by
    rw [List.countP_append, List.countP_eq_zero.2, List.countP_eq_length.2, Nat.zero_add]
    · intro b hb
      exact decide_eq_true (hbs b hb)
    · intro a ha
      have := has a ha
      rw [decide_eq_true_eq]
      omega
  unfold State.hitsInLast
  dsimp only
  rw [hbefore, hcount, hhits, List.getElem?_append_right (by rw [length_number]), length_number,
    Nat.sub_self]
  cases bs with
  | nil => rfl
  | cons b bs =>
    have hfirst : (number as.length (b :: bs))[0]? = some (b, ((as.length + 1 : Nat) : Int)) := rfl
    rw [hfirst, h.lastCount]
    dsimp only
    rw [List.length_append, List.length_cons]
    push_cast
    ring

/-- `now - hour` is in the future, and `prune` finds nothing older. -/
theorem Inv.prune (h : Inv s past) (hpast : ∀ a ∈ past, a ≤ now) : s.prune now = s := by
  unfold State.prune
  dsimp only
  rw [if_neg]
  rw [not_not, h.hits]
  apply upperBound_eq_length
  intro p hp
  obtain ⟨hmem, hpos⟩ := mem_number hp
  have hle := hpast _ hmem
  rw [← Bool.not_eq_true, key_lt hpos, hour_eq]
  omega

theorem Inv.push (h : Inv s past) (hlen : past.length + 1 ≤ 2 ^ 31 - 1) (now : Int) :
    Inv (s.push now) (past ++ [now]) := by
  have hint : int32 ((past.length : Int) + 1) = past.length + 1 := by
    exact_mod_cast int32_natCast (n := past.length + 1) (by omega)
  refine ⟨?_, ?_⟩
  · unfold State.push
    dsimp only
    rw [h.hits, h.lastCount, hint, number_append, Nat.zero_add]
    rfl
  · unfold State.push
    dsimp only
    rw [h.lastCount, List.length_append]
    rfl

end

/-! ## The runs -/

section
variable {s : State} {past : List Int}

/-- An operation whose clock readings are in order is right exactly when it is quiet, and the deque
still holds all hits. -/
theorem Inv.step (h : Inv s past) (e : Event) (hclock : (past ++ e.readings).Pairwise (· ≤ ·))
    (hlen : past.length + e.stamps.length ≤ 2 ^ 31 - 1) :
    (e.Right s past ↔ e.Quiet past) ∧ Inv (e.run s) (past ++ e.stamps) := by
  obtain ⟨hsorted, hreadings, hcross⟩ := List.pairwise_append.1 hclock
  cases e with
  | hit now now' =>
    have hpush := h.push hlen now
    have hprune : (s.push now).prune now' = s.push now := by
      apply hpush.prune
      intro a ha
      rcases List.mem_append.1 ha with ha | ha
      · exact hcross a ha now' (by simp [Event.readings])
      · rw [List.mem_singleton.1 ha]
        exact (List.pairwise_cons.1 hreadings).1 now' (List.mem_singleton_self _)
    have hhit : s.hit now now' = s.push now := hprune
    refine ⟨iff_of_true (fun p hp _ => ?_) trivial, ?_⟩
    · rw [hhit]
      exact hp
    · unfold Event.run
      dsimp only
      rw [hhit]
      exact hpush
  | query w now =>
    have hle : ∀ a ∈ past, a ≤ now := fun a ha => hcross a ha now (List.mem_singleton_self _)
    refine ⟨?_, by rw [Event.stamps, List.append_nil]; exact h⟩
    cases w with
    | second => exact iff_of_true (h.hitsInLast_eq hsorted _ _) trivial
    | minute => exact iff_of_true (h.hitsInLast_eq hsorted _ _) trivial
    | hour =>
      have hnone : past.countP (now - hour ≤ ·) = 0 := by
        rw [List.countP_eq_zero]
        intro a ha
        have := hle a ha
        rw [decide_eq_true_eq, hour_eq]
        omega
      have hask : Window.hour.ask s now = 0 := by
        have heq := h.hitsInLast_eq hsorted hour now
        rw [hnone] at heq
        exact heq
      unfold Event.Right Event.Quiet
      dsimp only
      rw [hask, eq_comm, Int.natCast_eq_zero, List.countP_eq_zero]
      simp only [decide_eq_true_eq, not_le]

theorem Inv.run_iff (h : Inv s past) (es : List Event)
    (hclock : (past ++ es.flatMap Event.readings).Pairwise (· ≤ ·))
    (hlen : past.length + (es.flatMap Event.stamps).length ≤ 2 ^ 31 - 1) :
    AllRight s past es ↔ AllQuiet past es := by
  induction es generalizing s past with
  | nil => exact Iff.rfl
  | cons e es ih =>
    rw [List.flatMap_cons, List.length_append] at hlen
    rw [List.flatMap_cons, ← List.append_assoc] at hclock
    obtain ⟨hfirst, -, -⟩ := List.pairwise_append.1 hclock
    obtain ⟨hstep, hinv⟩ := h.step e hfirst (by omega)
    have hstamps : e.stamps.Sublist e.readings := by
      cases e with
      | hit now now' => exact List.singleton_sublist.2 (List.mem_cons_self ..)
      | query w now => exact List.nil_sublist _
    have hclock' : (past ++ e.stamps ++ es.flatMap Event.readings).Pairwise (· ≤ ·) :=
      hclock.sublist (((List.Sublist.refl past).append hstamps).append (List.Sublist.refl _))
    have hrun := ih hinv hclock' (by rw [List.length_append]; omega)
    exact and_congr hstep hrun

end

theorem inv_new : Inv .new [] := ⟨rfl, rfl⟩

/-- **The hit counter**: under a clock that does not run backwards and for at most `2 ^ 31 - 1`
hits, the answers are right and no hit of the last hour is discarded exactly in the runs that ask
about the last hour only when it had no hit. -/
theorem windows_right_iff (es : List Event) (hclock : (es.flatMap Event.readings).Pairwise (· ≤ ·))
    (hhits : (es.flatMap Event.stamps).length ≤ 2 ^ 31 - 1) :
    AllRight .new [] es ↔ AllQuiet [] es := by
  apply inv_new.run_iff
  · exact hclock
  · rw [List.length_nil, Nat.zero_add]
    exact hhits

/-- A hit, a question about the last minute, and one about the last hour two hours later. -/
theorem windows_right_sample :
    AllRight .new [] [.hit 5 6, .query .minute 9, .query .hour 7200000000] :=
  (windows_right_iff _ (by decide) (by decide)).2
    ⟨trivial, trivial, by unfold Event.Quiet; decide, trivial⟩

/-- One hit, and a question about the last hour one second later. -/
theorem hour_misses_hit : ¬AllRight .new [] [.hit 0 0, .query .hour 1000000] := by
  intro h
  have hquiet := (inv_new.run_iff [.hit 0 0, .query .hour 1000000] (by decide) (by decide)).1 h
  exact absurd (hquiet.2.1 0 (List.mem_singleton_self _)) (by decide)

end HitCounter
