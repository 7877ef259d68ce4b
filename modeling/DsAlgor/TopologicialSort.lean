import DsAlgor.Lib.Pointers
import DsAlgor.Lib.Signed
import DsAlgor.Lib.TopologicalOrder

/-!
# `topologicial_sort.cpp`

`indegree` counts the edges to a vertex as `int`s, and `topologicalSort` uses it up and does not
fill it again. The first call after `addEdge` calls is right as long as the edges to one vertex can
be counted (`sortsFirst_iff`); the graph is left as it was where besides no edge leaves a source
(`undisturbed_iff`).
-/

namespace TopologicialSort

open Pointers TopologicalOrder
open Signed (Undefined add sub intMax)

structure Graph (V : Nat) where
  adj : Fin V → List (Fin V)
  q : List (Fin V)
  indegree : Fin V → Int

section
variable {V : Nat}

def create (V : Nat) : Graph V where
  adj _ := []
  q := []
  indegree _ := 0

def addEdge (g : Graph V) (v w : Fin V) : Except Undefined (Graph V) := do
  let n ← add (g.indegree w) 1
  return { g with
    adj := Function.update g.adj v (g.adj v ++ [w])
    indegree := Function.update g.indegree w n }

/-- The vertices whose `indegree` is 0 are put into the queue. -/
def enqueueSources (g : Graph V) : Graph V :=
  { g with
    q := (List.finRange V).foldl (fun q i => if g.indegree i = 0 then q ++ [i] else q) g.q }

/-- One edge less leads to `w`. -/
def releaseOne (g : Graph V) (w : Fin V) : Except Undefined (Graph V) := do
  let n ← sub (g.indegree w) 1
  let g := { g with indegree := Function.update g.indegree w n }
  if g.indegree w = 0 then return { g with q := g.q ++ [w] } else return g

/-- The loop over the vertices that the one taken out of the queue leads to. -/
def release : Graph V → List (Fin V) → Except Undefined (Graph V)
  | g, [] => return g
  | g, w :: ws => do release (← releaseOne g w) ws

/-- `count` and the vertices printed, and the graph behind the loop. -/
def sortLoop : Nat → Graph V → Int → List (Fin V) →
    Except Undefined (Int × List (Fin V) × Graph V)
  | 0, _, _, _ => .error (.fault .loop)
  | fuel + 1, g, count, out =>
    match g.q with
    | [] => return (count, out, g)
    | v :: q => do
      let count ← add count 1
      let g ← release { g with q } (g.adj v)
      sortLoop fuel g count (out ++ [v])

def topologicalSort (fuel : Nat) (g : Graph V) :
    Except Undefined (Bool × List (Fin V) × Graph V) := do
  let (count, out, g) ← sortLoop fuel (enqueueSources g) 0 []
  if count < V then return (false, out, g) else return (true, out, g)

/-! ## `release` -/

variable {g g' : Graph V} {ws : List (Fin V)} {v w : Fin V}

theorem foldl_push {α : Type} (p : α → Prop) [DecidablePred p] (l q : List α) :
    l.foldl (fun q i => if p i then q ++ [i] else q) q = q ++ l.filter p := by
  induction l generalizing q with
  | nil => simp
  | cons a l ih =>
    rw [List.foldl_cons, ih]
    by_cases ha : p a <;> simp [ha]

@[simp] theorem enqueueSources_indegree : (enqueueSources g).indegree = g.indegree := rfl

theorem enqueueSources_q :
    (enqueueSources g).q = g.q ++ (List.finRange V).filter fun i => g.indegree i = 0 :=
  foldl_push (fun i => g.indegree i = 0) (List.finRange V) g.q

theorem releaseOne_eq (hlow : 1 ≤ g.indegree w) (hhigh : g.indegree w ≤ intMax) :
    releaseOne g w = .ok { g with
      indegree := Function.update g.indegree w (g.indegree w - 1)
      q := g.q ++ if g.indegree w = 1 then [w] else [] } := by
  have hmax : 0 ≤ intMax := by decide
  rw [releaseOne, Signed.sub_eq (by omega) (by omega), Signed.ok_bind]
  simp only [Function.update_self, sub_eq_zero]
  split
  · rfl
  · rw [List.append_nil]
    rfl

/-- `release` takes the edges to `ws` off. -/
structure Released (g : Graph V) (ws : List (Fin V)) (g' : Graph V) : Prop where
  adj : g'.adj = g.adj
  indegree : ∀ v, g'.indegree v = g.indegree v - ws.count v
  /-- The vertices whose `indegree` has come down to 0 are put into the queue. -/
  q : ∃ new, g'.q = g.q ++ new ∧ new.Nodup ∧ ∀ v, v ∈ new ↔ 0 < g.indegree v ∧ g'.indegree v = 0

theorem release_spec (hlow : ∀ v, ws.count v ≤ g.indegree v) (hhigh : ∀ v, g.indegree v ≤ intMax) :
    ∃ g', release g ws = .ok g' ∧ Released g ws g' := by
  induction ws generalizing g with
  | nil =>
    refine ⟨g, rfl, rfl, fun v => (sub_zero _).symm, [], (List.append_nil _).symm, List.nodup_nil,
      fun v => iff_of_false List.not_mem_nil fun h => h.1.ne' h.2⟩
  | cons w ws ih =>
    have hcount : (w :: ws).count w = ws.count w + 1 := List.count_cons_self
    have hw := hlow w
    rw [hcount] at hw
    push_cast at hw
    have hone := releaseOne_eq (g := g) (by omega) (hhigh w)
    -- The bounds hold behind the first step.
    obtain ⟨g', hrun, hadj, hin, new, hq, hnd, hnew⟩ := ih
      (g := { g with
        indegree := Function.update g.indegree w (g.indegree w - 1)
        q := g.q ++ if g.indegree w = 1 then [w] else [] })
      (fun v => by
        dsimp only
        by_cases hv : v = w
        · subst hv
          rw [Function.update_self]
          omega
        · rw [Function.update_of_ne hv, ← List.count_cons_of_ne (Ne.symm hv)]
          exact hlow v)
      (fun v => by
        dsimp only
        by_cases hv : v = w
        · subst hv
          rw [Function.update_self]
          exact (sub_le_self _ Int.one_nonneg).trans (hhigh v)
        · rw [Function.update_of_ne hv]
          exact hhigh v)
    have hin' : ∀ v, g'.indegree v = g.indegree v - (w :: ws).count v := by
      intro v
      rw [hin]
      dsimp only
      by_cases hv : v = w
      · subst hv
        rw [Function.update_self, hcount]
        push_cast
        omega
      · rw [Function.update_of_ne hv, List.count_cons_of_ne (Ne.symm hv)]
    refine ⟨g', ?_, hadj, hin', _, by rw [hq, List.append_assoc], ?_, fun v => ?_⟩
    · rw [release, hone, Signed.ok_bind]
      exact hrun
    · split
      · refine List.nodup_cons.2 ⟨fun hw' => ?_, hnd⟩
        have hpos := ((hnew w).1 hw').1
        simp only [Function.update_self] at hpos
        omega
      · exact hnd
    · have hnew' := hnew v
      dsimp only at hnew'
      rw [List.mem_append, hnew']
      by_cases hv : v = w
      · subst hv
        have hv' := hin' v
        rw [hcount] at hv'
        push_cast at hv'
        rw [Function.update_self]
        split <;> simp <;> omega
      · rw [Function.update_of_ne hv]
        split <;> simp [hv]

/-! ## The first call -/

variable {es : List (Fin V × Fin V)} {out out' : List (Fin V)} {e : Fin V × Fin V}

def build (es : List (Fin V × Fin V)) : Except Undefined (Graph V) :=
  es.foldlM (fun g e => addEdge g e.1 e.2) (create V)

def Edge (es : List (Fin V × Fin V)) (v w : Fin V) : Prop := (v, w) ∈ es

/-- For each vertex the number of edges to it is an `int`. -/
def Countable (es : List (Fin V × Fin V)) : Prop := ∀ v, es.countP (·.2 = v) ≤ intMax

/-- What is printed, and the answer, are right for the edges `es`. -/
structure Sorted (es : List (Fin V × Fin V)) (answer : Bool) (out : List (Fin V)) : Prop where
  acyclic : answer = true ↔ Acyclic (Edge es)
  nodup : out.Nodup
  order : PredsFirst (Edge es) out
  all : answer = true → ∀ v, v ∈ out

/-- `addEdge` calls alone leave the graph like this. -/
structure Kept (es : List (Fin V × Fin V)) (g : Graph V) : Prop where
  adj : ∀ v w, (g.adj v).count w = es.count (v, w)
  indegree : ∀ v, g.indegree v = es.countP (·.2 = v)
  q : g.q = []

theorem Kept.create : Kept [] (create V) := ⟨fun _ _ => rfl, fun _ => rfl, rfl⟩

theorem Kept.addEdge (h : Kept es g) (hmax : es.countP (·.2 = w) + 1 ≤ intMax) :
    ∃ g', addEdge g v w = .ok g' ∧ Kept (es ++ [(v, w)]) g' := by
  have hadd : add (g.indegree w) 1 = .ok (g.indegree w + 1) := by
    rw [h.indegree]
    exact Signed.add_ok (Int.natCast_nonneg _) Int.one_nonneg hmax
  refine ⟨{ g with
    adj := Function.update g.adj v (g.adj v ++ [w])
    indegree := Function.update g.indegree w (g.indegree w + 1) }, ?_, fun a b => ?_, fun a => ?_,
    h.q⟩
  · rw [TopologicialSort.addEdge, hadd]
    rfl
  · rw [List.count_append, ← h.adj]
    by_cases ha : a = v
    · subst ha
      simp [List.count_singleton]
    · simp [Function.update_of_ne ha, Ne.symm ha]
  · rw [List.countP_append, List.countP_singleton]
    by_cases ha : a = w
    · subst ha
      simp [h.indegree]
    · simp [Function.update_of_ne ha, h.indegree, Ne.symm ha]

theorem Kept.addEdge_overflow (h : Kept es g) (hmax : ¬ es.countP (·.2 = w) + 1 ≤ intMax) :
    TopologicialSort.addEdge g v w = .error .overflow := by
  rw [TopologicialSort.addEdge, Signed.add_overflow (by rw [h.indegree]; exact not_le.1 hmax)]
  rfl

/-- With one edge more they are countable if the edges to its end are. -/
theorem countable_snoc : Countable (es ++ [(v, w)]) ↔
    Countable es ∧ es.countP (·.2 = w) + 1 ≤ intMax := by
  simp only [Countable, List.countP_append, List.countP_singleton]
  constructor
  · intro h
    refine ⟨fun a => ?_, by simpa using h w⟩
    have ha := h a
    split at ha <;> omega
  · intro h a
    by_cases ha : w = a
    · subst ha
      simpa using h.2
    · simpa [ha] using h.1 a

theorem Countable.of_append {es' : List (Fin V × Fin V)} (h : Countable (es ++ es')) :
    Countable es := by
  intro v
  have hv := h v
  rw [List.countP_append] at hv
  push_cast at hv
  omega

theorem build_snoc : build (es ++ [(v, w)]) = build es >>= fun g => addEdge g v w := by
  rw [build, List.foldlM_append]
  simp [build]

/-- The edges can be added exactly when they are countable. -/
theorem build_spec (es : List (Fin V × Fin V)) :
    (Countable es ∧ ∃ g, build es = .ok g ∧ Kept es g) ∨
      (¬ Countable es ∧ build es = .error .overflow) := by
  induction es using List.reverseRecOn with
  | nil => exact .inl ⟨fun v => by simp [intMax], _, rfl, Kept.create⟩
  | append_singleton es e ih =>
    obtain ⟨v, w⟩ := e
    rw [build_snoc, countable_snoc]
    rcases ih with ⟨hes, g, hrun, hkept⟩ | ⟨hes, hrun⟩
    · rw [hrun]
      by_cases hmax : es.countP (·.2 = w) + 1 ≤ intMax
      · exact .inl ⟨⟨hes, hmax⟩, hkept.addEdge hmax⟩
      · exact .inr ⟨fun h => hmax h.2, hkept.addEdge_overflow hmax⟩
    · rw [hrun]
      exact .inr ⟨fun h => hes h.1, rfl⟩

/-- The vertices of `out` have been printed. -/
structure LoopInv (es : List (Fin V × Fin V)) (out : List (Fin V)) (g : Graph V) : Prop where
  adj : ∀ v w, (g.adj v).count w = es.count (v, w)
  nodup : (out ++ g.q).Nodup
  indegree : ∀ v, g.indegree v = es.countP fun e => e.2 = v ∧ e.1 ∉ out
  ready : ∀ v, v ∈ out ++ g.q ↔ g.indegree v = 0
  order : PredsFirst (Edge es) out

theorem Kept.start (h : Kept es g) : LoopInv es [] (enqueueSources g) := by
  have hq := enqueueSources_q (g := g)
  rw [h.q, List.nil_append] at hq
  refine ⟨h.adj, ?_, ?_, ?_, .nil⟩
  · rw [hq, List.nil_append]
    exact (List.nodup_finRange V).filter _
  · simpa using h.indegree
  · intro v
    simp [hq]

/-- The edges that lead from `v` to `w` no longer count. -/
theorem countP_printed (hv : v ∉ out) :
    es.countP (fun e => e.2 = w ∧ e.1 ∉ out) =
      es.countP (fun e => e.2 = w ∧ e.1 ∉ out ++ [v]) + es.count (v, w) := by
  induction es with
  | nil => rfl
  | cons e es ih =>
    obtain ⟨a, b⟩ := e
    simp only [List.countP_cons, List.count_cons, ih, List.mem_append, List.mem_singleton]
    by_cases ha : a = v <;> by_cases hb : b = w <;> simp [ha, hb, hv] <;> omega

theorem LoopInv.length_le (h : LoopInv es out g) : out.length + g.q.length ≤ V := by
  rw [← List.length_append]
  simpa using h.nodup.length_le_card

theorem LoopInv.step {q : List (Fin V)} (h : LoopInv es out g) (hes : Countable es)
    (hq : g.q = v :: q) :
    ∃ g', release { g with q } (g.adj v) = .ok g' ∧ LoopInv es (out ++ [v]) g' := by
  have hnd := h.nodup
  have hready := h.ready
  rw [hq] at hnd hready
  have hv : v ∉ out := fun hv =>
    (List.nodup_append.1 hnd).2.2 v hv v List.mem_cons_self rfl
  have hcount : ∀ w, g.indegree w - (g.adj v).count w =
      es.countP fun e => e.2 = w ∧ e.1 ∉ out ++ [v] := by
    intro w
    rw [h.indegree, h.adj, countP_printed hv]
    push_cast
    omega
  have hlow : ∀ w, (g.adj v).count w ≤ g.indegree w := by
    intro w
    have hw := hcount w
    omega
  have hhigh : ∀ w, g.indegree w ≤ intMax := by
    intro w
    have hle : es.countP (fun e => e.2 = w ∧ e.1 ∉ out) ≤ es.countP (·.2 = w) :=
      List.countP_mono_left fun e _ he => decide_eq_true (of_decide_eq_true he).1
    have hw := hes w
    rw [h.indegree]
    omega
  obtain ⟨g', hrun, hadj, hin, new, hq', hnd', hnew⟩ :=
    release_spec (g := { g with q }) hlow hhigh
  simp only [hcount] at hin
  refine ⟨g', hrun, ?_, ?_, hin, ?_, ?_⟩
  · rw [hadj]
    exact h.adj
  · rw [hq', ← List.append_assoc, List.append_assoc out, List.singleton_append]
    refine List.nodup_append.2 ⟨hnd, hnd', ?_⟩
    rintro w hw _ hw' rfl
    have hzero : g.indegree w = 0 := (hready w).1 hw
    exact absurd hzero ((hnew w).1 hw').1.ne'
  · intro w
    have hzero : w ∈ out ++ [v] ++ q ↔ g.indegree w = 0 := by
      rw [List.append_assoc, List.singleton_append, hready]
    have hnonneg : 0 ≤ g'.indegree w := by
      rw [hin]
      exact Int.natCast_nonneg _
    have hnonneg' : 0 ≤ g.indegree w := by
      rw [h.indegree]
      exact Int.natCast_nonneg _
    have hlow : g'.indegree w ≤ g.indegree w := by
      rw [hin, ← hcount]
      exact sub_le_self _ (Int.natCast_nonneg _)
    rw [hq', ← List.append_assoc, List.mem_append, hzero, hnew]
    change _ ∨ (0 < g.indegree w ∧ _) ↔ _
    omega
  · -- The vertices that lead to `v` have been printed: nothing counts any more.
    refine h.order.snoc fun u hu => ?_
    by_contra hout
    have hzero : g.indegree v = 0 := (hready v).1 (by simp)
    rw [h.indegree, Int.natCast_eq_zero, List.countP_eq_zero] at hzero
    exact hzero (u, v) hu (by simp [hout])

/-- Each turn prints a vertex, so that the loop ends. -/
theorem sortLoop_run (hV : V ≤ intMax) (hes : Countable es) (h : LoopInv es out g) :
    ∃ out' g', Halts (fun fuel => sortLoop fuel g out.length out)
      (.ok (out'.length, out', g')) ∧ LoopInv es out' g' ∧ g'.q = [] := by
  induction hn : V - out.length generalizing g out with
  | zero =>
    have hle := h.length_le
    have hq : g.q = [] := List.length_eq_zero_iff.1 (by omega)
    exact ⟨out, g, .succ (by simpa [sortLoop, hq] using .const _), h, hq⟩
  | succ n ih =>
    cases hq : g.q with
    | nil => exact ⟨out, g, .succ (by simpa [sortLoop, hq] using .const _), h, hq⟩
    | cons v q =>
      obtain ⟨g', hrel, hinv⟩ := h.step hes hq
      obtain ⟨out', g'', hrun, hinv', hq'⟩ := ih hinv (by
        rw [List.length_append, List.length_singleton]
        omega)
      refine ⟨out', g'', .succ ?_, hinv', hq'⟩
      have hadd : add out.length 1 = .ok ((out ++ [v]).length : Int) := by
        rw [List.length_append, List.length_singleton, Nat.cast_add, Nat.cast_one]
        exact Signed.add_ok (Int.natCast_nonneg _) Int.one_nonneg (by omega)
      simpa only [sortLoop, hq, hadd, hrel, Signed.ok_bind] using hrun

/-- Where a call ends. -/
theorem LoopInv.sorted (h : LoopInv es out g) (hq : g.q = []) :
    Sorted es (!decide (out.length < V)) out := by
  have hnd : out.Nodup := (List.nodup_append.1 h.nodup).1
  have hready : ∀ v, v ∈ out ↔ g.indegree v = 0 := by simpa [hq] using h.ready
  have hfull : out.length < V ↔ ¬ ∀ v, v ∈ out := by
    have hcard := Finset.card_lt_iff_ne_univ out.toFinset
    rw [List.toFinset_card_of_nodup hnd, Fintype.card_fin] at hcard
    simp [hcard, Finset.eq_univ_iff_forall]
  refine ⟨?_, hnd, h.order, ?_⟩
  · rw [Bool.not_eq_true', decide_eq_false_iff_not, hfull, not_not]
    refine ⟨h.order.acyclic, fun hac => ?_⟩
    by_contra hrest
    obtain ⟨v, hv⟩ := not_forall.1 hrest
    -- A source of the rest would have been printed.
    obtain ⟨s, hs, hsource⟩ := hac.exists_source (s := {v | v ∉ out}) ⟨v, hv⟩
    refine hs ((hready s).2 ?_)
    rw [h.indegree, Int.natCast_eq_zero, List.countP_eq_zero]
    rintro ⟨u, w⟩ he hcount
    simp only [decide_eq_true_eq] at hcount
    obtain ⟨rfl, hu⟩ := hcount
    exact hsource u hu he
  · rw [Bool.not_eq_true', decide_eq_false_iff_not, hfull, not_not]
    exact id

theorem topologicalSort_run (hV : V ≤ intMax) (hes : Countable es) (h : Kept es g) :
    ∃ answer out g',
      Halts (fun fuel => topologicalSort fuel g) (.ok (answer, out, g')) ∧ Sorted es answer out ∧
        LoopInv es out g' ∧ g'.q = [] := by
  obtain ⟨out, g', hrun, hinv, hq⟩ := sortLoop_run hV hes h.start
  refine ⟨_, out, g', hrun.bind ?_, hinv.sorted hq, hinv, hq⟩
  by_cases hlt : out.length < V <;> simpa [hlt] using .const _

/-- The graph with the edges `es` is built, and the first call is right. -/
def SortsFirst (es : List (Fin V × Fin V)) : Prop :=
  ∃ g answer out g', build es = .ok g ∧
    Halts (fun fuel => topologicalSort fuel g) (.ok (answer, out, g')) ∧ Sorted es answer out

theorem SortsFirst.countable (h : SortsFirst es) : Countable es := by
  obtain ⟨g, _, _, _, hrun, -⟩ := h
  rcases build_spec es with ⟨hes, -⟩ | ⟨-, hrun'⟩
  · exact hes
  · cases hrun'.symm.trans hrun

/-- **The first call** of a graph that `addEdge` calls have built. -/
theorem sortsFirst_iff (hV : V ≤ intMax) (es : List (Fin V × Fin V)) :
    SortsFirst es ↔ Countable es := by
  refine ⟨SortsFirst.countable, fun hes => ?_⟩
  rcases build_spec es with ⟨-, g, hrun, hkept⟩ | ⟨hno, -⟩
  · obtain ⟨answer, out, g', hsort, hsorted, -⟩ := topologicalSort_run hV hes hkept
    exact ⟨g, answer, out, g', hrun, hsort, hsorted⟩
  · exact absurd hes hno

theorem sortsFirst_iff_two : ((2 : Nat) : Int) ≤ intMax ∧
    (SortsFirst [((1 : Fin 2), 0), (1, 0)] ↔ Countable [((1 : Fin 2), 0), (1, 0)]) :=
  ⟨by decide, sortsFirst_iff (by decide) _⟩

/-- `2 ^ 31` loops at one vertex. -/
theorem not_sortsFirst_loops : ¬ SortsFirst (V := 1) (List.replicate (2 ^ 31) (0, 0)) := by
  intro h
  have hzero := h.countable 0
  rw [List.countP_replicate, if_pos (decide_eq_true rfl)] at hzero
  exact absurd hzero (by decide)

/-! ## Later calls -/

inductive Op (V : Nat)
  | addEdge (v w : Fin V)
  | topologicalSort

/-- The answers of the `topologicalSort` calls with what each has printed, and the graph at the
end. -/
def run (fuel : Nat) :
    Graph V → List (Op V) → Except Undefined (List (Bool × List (Fin V)) × Graph V)
  | g, [] => return ([], g)
  | g, .addEdge v w :: ops => do run fuel (← addEdge g v w) ops
  | g, .topologicalSort :: ops => do
    let (answer, out, g) ← topologicalSort fuel g
    let (answers, g) ← run fuel g ops
    return ((answer, out) :: answers, g)

/-- The edges added. -/
def edges : List (Op V) → List (Fin V × Fin V)
  | [] => []
  | .addEdge v w :: ops => (v, w) :: edges ops
  | .topologicalSort :: ops => edges ops

/-- Every `topologicalSort` call answers for the edges added so far, and leaves the graph as
it was. -/
def Undisturbed (ops : List (Op V)) : Prop :=
  ∀ pre post, ops = pre ++ .topologicalSort :: post → ∃ answers answer out g,
    Halts (fun fuel => run fuel (create V) (pre ++ [.topologicalSort]))
      (.ok (answers ++ [(answer, out)], g)) ∧ Kept (edges pre) g ∧ Sorted (edges pre) answer out

/-- No edge leaves a vertex that none leads to. -/
def SourcesBare (es : List (Fin V × Fin V)) : Prop := ∀ v w, (v, w) ∈ es → ∃ u, (u, v) ∈ es

theorem SourcesBare.not_printed (hes : SourcesBare es) (hord : PredsFirst (Edge es) out)
    (he : (v, w) ∈ es) : v ∉ out := by
  intro hv
  induction hn : out.idxOf v using Nat.strong_induction_on generalizing v w with
  | _ n ih =>
    obtain ⟨u, hu⟩ := hes v w he
    obtain ⟨hmem, hlt⟩ := hord.idxOf_lt hv hu
    exact ih _ (hn ▸ hlt) hu hmem rfl

/-- What a call does to the graph. -/
theorem LoopInv.kept_iff (h : LoopInv es out g) (hq : g.q = []) :
    Kept es g ↔ SourcesBare es := by
  constructor
  · intro hkept v w he
    by_contra hsource
    have hzero : g.indegree v = 0 := by
      rw [hkept.indegree, Int.natCast_eq_zero, List.countP_eq_zero]
      rintro ⟨u, _⟩ hu heq
      exact hsource ⟨u, by simpa using of_decide_eq_true heq ▸ hu⟩
    have hv : v ∈ out := by simpa [hq] using (h.ready v).2 hzero
    -- The edge from `v` to `w` has been taken off.
    have hsame := (hkept.indegree w).symm.trans (h.indegree w)
    rw [Nat.cast_inj, List.countP_eq_countP_filter_add es _ fun e => e.1 ∉ out,
      List.countP_filter] at hsame
    have hpos : 0 < (es.filter fun e => !decide (e.1 ∉ out)).countP (·.2 = w) :=
      List.countP_pos_iff.2 ⟨(v, w), List.mem_filter.2 ⟨he, by simp [hv]⟩, by simp⟩
    simp only [Bool.decide_and] at hsame
    omega
  · intro hes
    refine ⟨h.adj, fun v => ?_, hq⟩
    rw [h.indegree, Nat.cast_inj]
    refine List.countP_congr fun e he => ?_
    simp [hes.not_printed h.order he]

theorem edges_append (ops ops' : List (Op V)) : edges (ops ++ ops') = edges ops ++ edges ops' := by
  induction ops with
  | nil => rfl
  | cons op ops ih => cases op <;> simp [edges, ih]

theorem run_append_eq (fuel : Nat) (ops ops' : List (Op V)) : run fuel g (ops ++ ops') = do
    let (answers, g) ← run fuel g ops
    let (answers', g) ← run fuel g ops'
    return (answers ++ answers', g) := by
  induction ops generalizing g with
  | nil => simp [run]
  | cons op ops ih =>
    cases op with
    | addEdge v w => simp [run, ih]
    | topologicalSort => simp [run, ih]

section
variable {ops ops' : List (Op V)} {answers answers' : List (Bool × List (Fin V))} {g'' : Graph V}

theorem run_append (h : Halts (fun fuel => run fuel g ops) (.ok (answers, g')))
    (h' : Halts (fun fuel => run fuel g' ops') (.ok (answers', g''))) :
    Halts (fun fuel => run fuel g (ops ++ ops')) (.ok (answers ++ answers', g'')) := by
  simp only [run_append_eq]
  exact h.bind (h'.bind (.const _))

theorem run_append_error {e : Undefined}
    (h : Halts (fun fuel => run fuel g ops) (.ok (answers, g')))
    (h' : Halts (fun fuel => run fuel g' ops') (.error e)) :
    Halts (fun fuel => run fuel g (ops ++ ops')) (.error e) := by
  simp only [run_append_eq]
  exact h.bind h'.bind_error

theorem run_error_append {e : Undefined} (h : Halts (fun fuel => run fuel g ops) (.error e)) :
    Halts (fun fuel => run fuel g (ops ++ ops')) (.error e) := by
  simp only [run_append_eq]
  exact h.bind_error

end

/-- A call that finds the graph as `addEdge` calls alone leave it. -/
theorem run_sort (hV : V ≤ intMax) (hes : Countable es) (h : Kept es g) : ∃ answer out g',
    Halts (fun fuel => run fuel g [.topologicalSort]) (.ok ([(answer, out)], g')) ∧
      Sorted es answer out ∧ (Kept es g' ↔ SourcesBare es) := by
  obtain ⟨answer, out, g', hrun, hsorted, hinv, hq⟩ := topologicalSort_run hV hes h
  exact ⟨answer, out, g', hrun.bind (.const _), hsorted, hinv.kept_iff hq⟩

/-- As long as no call disturbs the graph, only an `addEdge` call can fail. -/
theorem run_kept (hV : V ≤ intMax) (ops : List (Op V))
    (h : ∀ pre post, ops = pre ++ .topologicalSort :: post → SourcesBare (edges pre)) :
    (Countable (edges ops) ∧ ∃ answers g,
      Halts (fun fuel => run fuel (create V) ops) (.ok (answers, g)) ∧ Kept (edges ops) g) ∨
    (¬ Countable (edges ops) ∧ Halts (fun fuel => run fuel (create V) ops) (.error .overflow)) := by
  induction ops using List.reverseRecOn with
  | nil => exact .inl ⟨fun v => by simp [edges, intMax], [], _, .const _, Kept.create⟩
  | append_singleton ops op ih =>
    have ih := ih fun pre post heq =>
      h pre (post ++ [op]) (by rw [heq, List.append_assoc, List.cons_append])
    rw [edges_append]
    rcases ih with ⟨hes, answers, g, hrun, hkept⟩ | ⟨hes, hrun⟩
    · cases op with
      | addEdge v w =>
        rw [edges, edges, countable_snoc]
        by_cases hmax : (edges ops).countP (·.2 = w) + 1 ≤ intMax
        · obtain ⟨g', hadd, hkept'⟩ := hkept.addEdge (v := v) hmax
          have hone : Halts (fun fuel => run fuel g [.addEdge v w]) (.ok ([], g')) := by
            simpa [run, hadd] using .const _
          exact .inl ⟨⟨hes, hmax⟩, _, g', run_append hrun hone, hkept'⟩
        · refine .inr ⟨fun hall => hmax hall.2, run_append_error hrun ?_⟩
          simpa [run, hkept.addEdge_overflow hmax] using .const _
      | topologicalSort =>
        obtain ⟨answer, out, g', hsort, _, hiff⟩ := run_sort hV hes hkept
        rw [edges, edges, List.append_nil]
        exact .inl ⟨hes, _, g', run_append hrun hsort, hiff.2 (h ops [] rfl)⟩
    · exact .inr ⟨fun hall => hes hall.of_append, run_error_append hrun⟩

/-- **The graph is left as it was** where each call finds the sources without edges. -/
theorem undisturbed_iff (hV : V ≤ intMax) (ops : List (Op V)) : Undisturbed ops ↔
    ∀ pre post, ops = pre ++ .topologicalSort :: post →
      Countable (edges pre) ∧ SourcesBare (edges pre) := by
  constructor
  · intro h pre
    -- The first call that disturbs the graph finds it undisturbed.
    induction hn : pre.length using Nat.strong_induction_on generalizing pre with
    | _ n ih =>
      intro post heq
      obtain ⟨answers', answer', out', g'', hrun', hkept', _⟩ := h pre post heq
      rcases run_kept hV pre fun pre' post' heq' =>
        (ih pre'.length (by simp [← hn, heq']) pre' rfl (post' ++ .topologicalSort :: post)
          (by rw [heq, heq', List.append_assoc, List.cons_append])).2 with
        ⟨hes, answers, g, hrun, hkept⟩ | ⟨-, hrun⟩
      · obtain ⟨answer, out, g', hsort, _, hiff⟩ := run_sort hV hes hkept
        have hsame := (run_append hrun hsort).unique hrun'
        obtain rfl : g' = g'' := congrArg Prod.snd (Except.ok.inj hsame)
        exact ⟨hes, hiff.1 hkept'⟩
      · cases (run_error_append hrun).unique hrun'
  · intro h pre post heq
    rcases run_kept hV pre fun pre' post' heq' =>
      (h pre' (post' ++ .topologicalSort :: post)
        (by rw [heq, heq', List.append_assoc, List.cons_append])).2 with
      ⟨hes, answers, g, hrun, hkept⟩ | ⟨hno, -⟩
    · obtain ⟨answer, out, g', hsort, hsorted, hiff⟩ := run_sort hV hes hkept
      exact ⟨answers, answer, out, g', run_append hrun hsort, hiff.2 (h pre post heq).2, hsorted⟩
    · exact absurd (h pre post heq).1 hno

end

theorem undisturbed_iff_cycle : ((2 : Nat) : Int) ≤ intMax ∧
    (Undisturbed (V := 2) [.addEdge 0 1, .addEdge 1 0, .topologicalSort, .topologicalSort] ↔
      ∀ pre post : List (Op 2), [.addEdge 0 1, .addEdge 1 0, .topologicalSort, .topologicalSort] =
        pre ++ .topologicalSort :: post → Countable (edges pre) ∧ SourcesBare (edges pre)) :=
  ⟨by decide, undisturbed_iff (by decide) _⟩

/-- The second call prints 0 before 1, with an edge from 1 to 0. -/
example : (run 3 (create 2) [.addEdge 1 0, .topologicalSort, .topologicalSort]).map Prod.fst =
    .ok [(true, [1, 0]), (true, [0, 1])] := rfl

/-- The edge from 1 to 0 is used up. -/
theorem disturbed : ¬ Undisturbed (V := 2) [.addEdge 1 0, .topologicalSort] := by
  intro h
  obtain ⟨_, _, _, g, hrun, hkept, -⟩ := h [.addEdge 1 0] [] rfl
  obtain ⟨g₀, hadd, hkept₀⟩ := (Kept.create (V := 2)).addEdge (v := 1) (w := 0) (by decide)
  obtain ⟨_, _, g', hsort, -, hiff⟩ := run_sort (by decide) (by unfold Countable; decide) hkept₀
  have hstart : Halts (fun fuel => run fuel (create 2) [.addEdge 1 0]) (.ok ([], g₀)) := by
    simpa [run, hadd] using .const _
  obtain rfl : g' = g := congrArg Prod.snd (Except.ok.inj ((run_append hstart hsort).unique hrun))
  obtain ⟨u, hu⟩ := hiff.1 hkept 1 0 List.mem_cons_self
  revert hu
  revert u
  decide

end TopologicialSort
