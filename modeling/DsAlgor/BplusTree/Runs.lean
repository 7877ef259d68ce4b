import DsAlgor.BplusTree.Map

/-!
# Runs from `bplus_tree_init`

`runOps` is a sequence of calls. No call of a run ever fails an assertion, and as long as nothing
was printed (only the `Level exceeded` branch prints) the answers are those of the map
(`bplusTree_refines_map`). `Reachable` are the states puts lead to; `Reachable.models` is the
invariant of all of them.
-/

namespace BplusTree

/-- A call of the interface. -/
inductive Op
  | put (key data : Int)
  | get (key : Int)

/-- One call: its result and the tree afterwards. -/
def Op.run (t : Tree) : Op → Except Fault (Int × Tree)
  | .put key data => bplusTreePut t key data
  | .get key => (bplusTreeGet t key).map (·, t)

/-- A sequence of calls: the results and the final tree. -/
def runOps : Tree → List Op → Except Fault (List Int × Tree)
  | t, [] => .ok ([], t)
  | t, op :: ops => do
    let (r, t) ← op.run t
    let (rs, t) ← runOps t ops
    return (r :: rs, t)

/-- The same call on the map. -/
def Map.step (m : Map) : Op → Int × Map
  | .put key data => m.put key data
  | .get key => (m.get key, m)

def Map.run : Map → List Op → List Int
  | _, [] => []
  | m, op :: ops => (m.step op).1 :: Map.run (m.step op).2 ops

/-! ## One call -/

section
variable {t : Tree} {E : Nat → Ptr → Prop} {m : Map}

theorem Models.weaken (h : Models t E m) {E' : Nat → Ptr → Prop} (hE : ∀ i e, E i e → E' i e) :
    Models t E' m := by
  refine ⟨h.params, ?_⟩
  obtain ⟨C, hC, hm⟩ := h.holds
  refine ⟨C, ?_, hm⟩
  rcases hC with hC | ⟨L, Gss, hT, rfl, hD⟩
  · exact .inl hC
  · exact .inr ⟨L, Gss, hT.weaken hE, rfl, hD⟩

/-- A call is answered as by the map, or prints that the level is exceeded. -/
theorem Op.run_spec (h : Models t E m) (hE : ∀ i, E i 0) (op : Op) :
    ∃ r t', op.run t = .ok (r, t') ∧
      (t'.stderr = t.stderr ∧ r = (m.step op).1 ∧ Models t' E (m.step op).2 ∨
        t'.stderr = levelExceeded :: t.stderr ∧ ∃ m', Models t' (fun _ _ => True) m') := by
  cases op with
  | put key data =>
    obtain ⟨r, t', hrun, -, ⟨-, hr, hst, hM⟩ | ⟨-, -, hst, m', hM, -⟩⟩ :=
      bplusTreePut_spec h hE key data
    · exact ⟨r, t', hrun, .inl ⟨hst, hr, hM⟩⟩
    · exact ⟨r, t', hrun, .inr ⟨hst, m', hM⟩⟩
  | get key =>
    exact ⟨m.get key, t, by rw [Op.run, bplusTreeGet_spec h]; rfl, .inl ⟨rfl, rfl, h⟩⟩

end

/-! ## Whole runs -/

/-- What is printed stays. -/
theorem runOps_spec : ∀ (ops : List Op) {t : Tree} {E : Nat → Ptr → Prop} {m : Map},
    Models t E m → (∀ i, E i 0) →
    ∃ rs t', runOps t ops = .ok (rs, t') ∧ t.stderr <:+ t'.stderr ∧
      (t'.stderr = t.stderr → rs = m.run ops)
  | [], t, _, _, _, _ => ⟨[], t, rfl, List.suffix_rfl, fun _ => rfl⟩
  | op :: ops, t, E, m, h, hE => by
    obtain ⟨r, t₁, hrun, ⟨hst, hr, hM⟩ | ⟨hst, m', hM⟩⟩ := op.run_spec h hE
    · obtain ⟨rs, t', hruns, hsuf, hrs⟩ := runOps_spec ops hM hE
      refine ⟨r :: rs, t', ?_, hst ▸ hsuf, fun hq => ?_⟩
      · simp only [runOps, hrun, hruns, bind, Except.bind, pure, Except.pure]
      · rw [Map.run, hr, hrs (hq.trans hst.symm)]
    · obtain ⟨rs, t', hruns, hsuf, -⟩ := runOps_spec ops hM fun _ => trivial
      rw [hst] at hsuf
      refine ⟨r :: rs, t', ?_, (List.suffix_cons _ _).trans hsuf, fun hq => ?_⟩
      · simp only [runOps, hrun, hruns, bind, Except.bind, pure, Except.pure]
      · -- the message is still there
        have := hsuf.length_le
        rw [hq] at this
        simp at this

variable {level : Int} {order entries : Nat}

theorem init_models {t : Tree} {E : Nat → Ptr → Prop}
    (h : bplusTreeInit level order entries = .ok t) (ho : 3 ≤ order)
    (hol : 4 ≤ order ∨ level ≤ 2) (he : 1 ≤ entries) : Models t E (fun _ => none) := by
  rw [bplusTreeInit] at h
  split at h
  · next hc =>
    cases h
    exact ⟨⟨he, ho, hol, hc.1⟩, [], .inl ⟨⟨rfl, fun _ => rfl, Nat.zero_lt_one⟩, rfl⟩, by simp⟩
  · cases h

theorem init_stderr {t : Tree} (h : bplusTreeInit level order entries = .ok t) : t.stderr = [] := by
  rw [bplusTreeInit] at h
  split at h
  · cases h; rfl
  · cases h

theorem init_order {t : Tree} (h : bplusTreeInit level order entries = .ok t) :
    t.order = order := by
  rw [bplusTreeInit] at h
  split at h
  · cases h; rfl
  · cases h

/-- **The tree refines a map**: a run from `bplus_tree_init` never fails an assertion, and when no
put of it runs into `Level exceeded` its results are those of the map. -/
theorem bplusTree_refines_map (level : Int) (order entries : Nat)
    (ho : 4 ≤ order ∧ order ≤ MAX_ORDER) (he : 1 ≤ entries ∧ entries ≤ MAX_ENTRIES)
    (hl : 2 ≤ level ∧ level ≤ MAX_LEVEL) (ops : List Op) :
    ∃ t₀ rs t, bplusTreeInit level order entries = .ok t₀ ∧ runOps t₀ ops = .ok (rs, t) ∧
      (t.stderr = [] → rs = Map.run (fun _ => none) ops) := by
  have hinit : ∃ t₀, bplusTreeInit level order entries = .ok t₀ :=
    ⟨_, if_pos ⟨hl.2, ho.2, he.2⟩⟩
  obtain ⟨t₀, hinit⟩ := hinit
  obtain ⟨rs, t, hrun, -, hrs⟩ := runOps_spec ops
    (init_models (E := fun _ e => e = 0) hinit (by omega) (.inl ho.1) he.1) fun _ => rfl
  exact ⟨t₀, rs, t, hinit, hrun, fun hq => hrs (hq.trans (init_stderr hinit).symm)⟩

/-- A run that divides a leaf, gives the tree a second level and merges leaves again. -/
def sampleOps : List Op :=
  [.put 1 5, .put 2 7, .put 3 8, .put 4 9, .put 3 4, .get 3, .put 2 0, .get 2, .put 2 0]

/-- A computation that gives a value has done its first step. -/
theorem toOption_bind {α β : Type} {x : Except Fault α} {f : α → Except Fault β} {v : β}
    (h : (x.bind f).toOption = some v) : ∃ a, x = .ok a ∧ (f a).toOption = some v := by
  cases x with
  | error e => simp [Except.bind, Except.toOption] at h
  | ok a => exact ⟨a, rfl, h⟩

theorem sampleOps_quiet :
    ((bplusTreeInit 2 4 2).bind fun t => (runOps t sampleOps).map (·.2.stderr)).toOption =
    some [] := by
  decide +kernel

theorem bplusTree_refines_map_sample :
    ∃ t₀ rs t, bplusTreeInit 2 4 2 = .ok t₀ ∧ runOps t₀ sampleOps = .ok (rs, t) ∧ t.stderr = [] ∧
      rs = Map.run (fun _ => none) sampleOps := by
  obtain ⟨t₀, rs, t, hinit, hrun, hrs⟩ :=
    bplusTree_refines_map 2 4 2 (by decide) (by decide) (by decide) sampleOps
  have hq := sampleOps_quiet
  rw [hinit] at hq
  have hq' : t.stderr = [] := by simpa [Except.bind, hrun, Except.map, Except.toOption] using hq
  exact ⟨t₀, rs, t, hinit, hrun, hq', hrs hq'⟩

/-! ## Reachable states -/

/-- The trees that puts lead to. -/
inductive Reachable (level : Int) (order entries : Nat) : Tree → Prop
  | init {t : Tree} : bplusTreeInit level order entries = .ok t → Reachable level order entries t
  | put {t t' : Tree} {key data r : Int} : Reachable level order entries t →
      bplusTreePut t key data = .ok (r, t') → Reachable level order entries t'

theorem Reachable.runOps : ∀ {ops : List Op} {t t' : Tree}
    {rs : List Int}, Reachable level order entries t → BplusTree.runOps t ops = .ok (rs, t') →
    Reachable level order entries t'
  | [], _, _, _, h, hrun => by
    cases hrun
    exact h
  | op :: ops, t, t', rs, h, hrun => by
    simp only [BplusTree.runOps, bind, Except.bind] at hrun
    cases hop : op.run t with
    | error e => simp [hop] at hrun
    | ok v =>
      obtain ⟨r, t₁⟩ := v
      simp only [hop] at hrun
      cases hops : BplusTree.runOps t₁ ops with
      | error e => simp [hops] at hrun
      | ok w =>
        have h₁ : Reachable level order entries t₁ := by
          cases op with
          | put key data => exact .put h hop
          | get key =>
            simp only [Op.run, Except.map] at hop
            split at hop
            · cases hop
            · cases hop
              exact h
        obtain ⟨rs', t''⟩ := w
        simp only [hops, pure, Except.pure, Except.ok.injEq, Prod.mk.injEq] at hrun
        obtain ⟨-, rfl⟩ := hrun
        exact h₁.runOps hops

/-- What a run says about the tree it leads to. -/
theorem Reachable.exists_of_run {β : Type} {ops : List Op} {f : Tree → β} {v : β}
    (h : ((bplusTreeInit level order entries).bind fun t =>
      ((BplusTree.runOps t ops).map Prod.snd).map f).toOption = some v) :
    ∃ t, Reachable level order entries t ∧ f t = v := by
  obtain ⟨t₀, hinit, h⟩ := toOption_bind h
  cases hops : BplusTree.runOps t₀ ops with
  | error e =>
    rw [hops] at h
    cases h
  | ok x =>
    rw [hops] at h
    exact ⟨x.2, (Reachable.init hinit).runOps hops, Option.some.inj h⟩

/-- The invariant of the reachable states; without `Level exceeded` the chains end in `NULL`. -/
theorem Reachable.models {t : Tree} (h : Reachable level order entries t) (ho : 3 ≤ order)
    (hol : 4 ≤ order ∨ level ≤ 2) (he : 1 ≤ entries) :
    t.order = order ∧ ∃ m, Models t (fun _ e => t.stderr = [] → e = 0) m := by
  induction h with
  | init h => exact ⟨init_order h, _, init_models h ho hol he⟩
  | @put t t' key data r _ hput ih =>
    obtain ⟨hord, m, hM⟩ := ih
    obtain ⟨r', t'', hrun, hpar, hcase⟩ := bplusTreePut_spec hM (fun _ _ => rfl) key data
    rw [hput] at hrun
    obtain ⟨rfl, rfl⟩ : r = r' ∧ t' = t'' := by simpa using hrun
    refine ⟨hpar.1.trans hord, ?_⟩
    rcases hcase with ⟨-, -, hst, hM'⟩ | ⟨-, -, hst, m', hM', -⟩
    · exact ⟨_, hM'.weaken fun _ e h hq => h (hst ▸ hq)⟩
    · exact ⟨_, hM'.weaken fun _ e _ hq => by rw [hst] at hq; cases hq⟩

end BplusTree
