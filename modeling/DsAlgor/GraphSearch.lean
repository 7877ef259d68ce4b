import DsAlgor.Lib.Pointers
import DsAlgor.Lib.Search

/-!
# `graph.c`

`dfs` and `bfs` start with no vertex marked. In the former the marked vertices are those printed
(`dfsUtil_visits`); in the latter the vertices of the queue are marked too (`BfsInv`).
-/

namespace GraphSearch

open Pointers Search Relation

section
variable {V : Nat} (adj : Fin V → List (Fin V))

/-- The marks, and the vertices printed. -/
abbrev Marks (V : Nat) := (Fin V → Bool) × List (Fin V)

/-- The loop over the vertices `is`, with the call `visit`. -/
def visitAll (visit : Fin V → Marks V → Except Fault (Marks V)) :
    List (Fin V) → Marks V → Except Fault (Marks V)
  | [], marks => return marks
  | i :: is, marks => do
    let marks ← if !marks.1 i then visit i marks else pure marks
    visitAll visit is marks

def dfsUtil : Nat → Fin V → Marks V → Except Fault (Marks V)
  | 0, _, _ => .error .loop
  | fuel + 1, v, (visited, out) =>
    visitAll (dfsUtil fuel) (adj v) (Function.update visited v true, out ++ [v])

/-- The vertices printed. -/
def dfs (fuel : Nat) (v : Fin V) : Except Fault (List (Fin V)) := do
  let (_, out) ← dfsUtil adj fuel v (fun _ => false, [])
  return out

/-- The loop over the vertices next to the one taken out of the queue. -/
def discover : List (Fin V) → (Fin V → Bool) → List (Fin V) → (Fin V → Bool) × List (Fin V)
  | [], visited, queue => (visited, queue)
  | i :: is, visited, queue =>
    if !visited i then discover is (Function.update visited i true) (queue ++ [i])
    else discover is visited queue

def bfsLoop : Nat → (Fin V → Bool) → List (Fin V) → List (Fin V) → Except Fault (List (Fin V))
  | 0, _, _, _ => .error .loop
  | _ + 1, _, [], out => return out
  | fuel + 1, visited, s :: queue, out =>
    let (visited, queue) := discover (adj s) visited queue
    bfsLoop fuel visited queue (out ++ [s])

def bfs (fuel : Nat) (s : Fin V) : Except Fault (List (Fin V)) :=
  bfsLoop adj fuel (Function.update (fun _ => false) s true) [s] []

def Edge (v w : Fin V) : Prop := w ∈ adj v

/-- `out` has the vertices that can be reached from `s`, each once. -/
structure Reaches (s : Fin V) (out : List (Fin V)) : Prop where
  nodup : out.Nodup
  mem : ∀ v, v ∈ out ↔ ReflTransGen (Edge adj) s v

end

/-! ## `dfs` -/

section
variable {V : Nat} {adj : Fin V → List (Fin V)} {s s' ws : List (Fin V)} {v : Fin V}

/-- The vertices of `s` are marked. -/
def marked (s : List (Fin V)) (v : Fin V) : Bool := decide (v ∈ s)

theorem marked_nil : (fun _ => false) = marked ([] : List (Fin V)) := by
  funext v
  simp [marked]

theorem update_marked : Function.update (marked s) v true = marked (s ++ [v]) := by
  funext w
  by_cases hw : w = v
  · subst hw
    simp [marked]
  · simp [marked, hw]

/-- The loop is a search. -/
theorem visitAll_halts (h : Visits adj (fun _ => True) s ws s') :
    Halts (fun fuel => visitAll (dfsUtil adj fuel) ws (marked s, s)) (.ok (marked s', s')) := by
  induction h with
  | nil => exact .const _
  | @skip s s' ws w hw _ ih =>
    have hw : marked s w = true := by simpa [marked] using hw
    simpa [visitAll, hw] using ih
  | @enter s s₁ s' ws w hw _ _ _ ih ih' =>
    have hw : marked s w = false := by simpa [marked] using hw
    have hin : Halts (fun fuel => dfsUtil adj fuel w (marked s, s)) (.ok (marked s₁, s₁)) := by
      refine .succ ?_
      simpa only [dfsUtil, update_marked] using ih
    simpa [visitAll, hw] using hin.bind (k := fun fuel => visitAll (dfsUtil adj fuel) ws) ih'

theorem step_eq : Step adj (fun _ => True) = Edge adj := by
  funext v w
  simp [Step, Edge]

theorem dfs_spec (adj : Fin V → List (Fin V)) (v : Fin V) : ∃ out,
    Halts (fun fuel => dfs adj fuel v) (.ok out) ∧ Reaches adj v out := by
  obtain ⟨out, hvisits⟩ : ∃ out, Visits adj (fun _ => True) [] [v] out :=
    Visits.total (Set.toFinite _) [] [v]
  refine ⟨out, ?_, hvisits.nodup List.nodup_nil, fun w => ?_⟩
  · have hrun := visitAll_halts hvisits
    have hv : marked [] v = false := rfl
    have hcall : Halts (fun fuel => dfsUtil adj fuel v (marked [], []))
        (.ok (marked out, out)) := by
      simpa [visitAll, hv] using hrun
    simp only [dfs, marked_nil]
    exact hcall.bind (.const _)
  · rw [hvisits.mem_iff trivial nofun, step_eq]
    simp

end

/-! ## `bfs` -/

section
variable {V : Nat} {adj : Fin V → List (Fin V)} {s v : Fin V} {out queue : List (Fin V)}

theorem discover_spec (ws seen queue : List (Fin V)) : ∃ new,
    discover ws (marked seen) queue = (marked (seen ++ new), queue ++ new) ∧ new.Nodup ∧
      ∀ w, w ∈ new ↔ w ∈ ws ∧ w ∉ seen := by
  induction ws generalizing seen queue with
  | nil => exact ⟨[], by simp [discover], List.nodup_nil, by simp⟩
  | cons i ws ih =>
    by_cases hi : i ∈ seen
    · obtain ⟨new, hrun, hnd, hnew⟩ := ih seen queue
      have hmark : marked seen i = true := decide_eq_true hi
      refine ⟨new, by simpa [discover, hmark] using hrun, hnd, fun w => ?_⟩
      rw [hnew, List.mem_cons]
      constructor
      · exact fun h => ⟨.inr h.1, h.2⟩
      · rintro ⟨rfl | hw, hout⟩
        · exact absurd hi hout
        · exact ⟨hw, hout⟩
    · obtain ⟨new, hrun, hnd, hnew⟩ := ih (seen ++ [i]) (queue ++ [i])
      have hmark : marked seen i = false := decide_eq_false hi
      refine ⟨i :: new, ?_, List.nodup_cons.2 ⟨fun h => ((hnew i).1 h).2 (by simp), hnd⟩,
        fun w => ?_⟩
      · simpa [discover, hmark, update_marked] using hrun
      · rw [List.mem_cons, hnew, List.mem_cons]
        by_cases hw : w = i
        · subst hw
          simp [hi]
        · simp [hw]

/-- `out` is printed and `queue` waits. The distances go up, by one at most in the queue. -/
structure BfsInv (adj : Fin V → List (Fin V)) (s : Fin V) (out queue : List (Fin V)) : Prop where
  nodup : (out ++ queue).Nodup
  start : s ∈ out ++ queue
  reachable : ∀ v ∈ out ++ queue, ReflTransGen (Edge adj) s v
  closed : ∀ v ∈ out, ∀ w, Edge adj v w → w ∈ out ++ queue
  sorted : (out ++ queue).Pairwise fun v w => dist (Edge adj) s v ≤ dist (Edge adj) s w
  near : ∀ v q, queue = v :: q → ∀ w ∈ q, dist (Edge adj) s w ≤ dist (Edge adj) s v + 1

theorem BfsInv.init (adj : Fin V → List (Fin V)) (s : Fin V) : BfsInv adj s [] [s] := by
  refine ⟨List.nodup_singleton s, by simp, ?_, nofun, List.pairwise_singleton _ s, ?_⟩
  · intro v hv
    rw [List.nil_append, List.mem_singleton] at hv
    exact hv ▸ .refl
  · intro v q heq
    obtain ⟨_, rfl⟩ := List.cons.inj heq
    exact nofun

theorem BfsInv.step {q new : List (Fin V)} (h : BfsInv adj s out (v :: q)) (hnd : new.Nodup)
    (hnew : ∀ w, w ∈ new ↔ w ∈ adj v ∧ w ∉ out ++ v :: q) :
    BfsInv adj s (out ++ [v]) (q ++ new) := by
  have hsplit : out ++ [v] ++ (q ++ new) = out ++ v :: q ++ new := by simp
  have hv : ReflTransGen (Edge adj) s v := h.reachable v (by simp)
  obtain ⟨_, hqueue, hout⟩ := List.pairwise_append.1 h.sorted
  have hqueue := (List.pairwise_cons.1 hqueue).1
  have hless : ∀ w ∈ v :: q, dist (Edge adj) s v ≤ dist (Edge adj) s w := by
    intro w hw
    cases List.mem_cons.1 hw with
    | inl heq => rw [heq]
    | inr hw => exact hqueue w hw
  have hdist : ∀ w ∈ new, dist (Edge adj) s w = dist (Edge adj) s v + 1 := by
    intro w hw
    obtain ⟨hedge, hfresh⟩ := (hnew w).1 hw
    refine le_antisymm (dist_step hv hedge) ?_
    -- A shortest path to `w` goes through the queue.
    obtain ⟨x, hx, _, hlt⟩ :=
      (steps_dist (hv.tail hedge)).frontier h.start h.closed hfresh
    exact (hless x hx).trans_lt hlt
  have hnear : ∀ w ∈ q ++ new, dist (Edge adj) s v ≤ dist (Edge adj) s w ∧
      dist (Edge adj) s w ≤ dist (Edge adj) s v + 1 := by
    intro w hw
    cases List.mem_append.1 hw with
    | inl hw => exact ⟨hqueue w hw, h.near v q rfl w hw⟩
    | inr hw => exact ⟨hdist w hw ▸ Nat.le_succ _, (hdist w hw).le⟩
  refine ⟨?_, ?_, ?_, ?_, ?_, ?_⟩
  · rw [hsplit]
    refine List.nodup_append.2 ⟨h.nodup, hnd, ?_⟩
    rintro w hw _ hw' rfl
    exact ((hnew w).1 hw').2 hw
  · rw [hsplit]
    exact List.mem_append_left _ h.start
  · rw [hsplit]
    intro w hw
    cases List.mem_append.1 hw with
    | inl hw => exact h.reachable w hw
    | inr hw => exact hv.tail ((hnew w).1 hw).1
  · rw [hsplit]
    intro x hx w hedge
    by_cases hw : w ∈ out ++ v :: q
    · exact List.mem_append_left _ hw
    · cases List.mem_append.1 hx with
      | inl hx => exact absurd (h.closed x hx w hedge) hw
      | inr hx =>
        rw [List.mem_singleton.1 hx] at hedge
        exact List.mem_append_right _ ((hnew w).2 ⟨hedge, hw⟩)
  · rw [hsplit]
    refine List.pairwise_append.2 ⟨h.sorted, ?_, ?_⟩
    · exact List.pairwise_of_forall_mem_list fun a ha b hb => (hdist a ha).trans_le (hdist b hb).ge
    · intro a ha b hb
      rw [hdist b hb]
      cases List.mem_append.1 ha with
      | inl ha => exact (hout a ha v List.mem_cons_self).trans (Nat.le_succ _)
      | inr ha =>
        cases List.mem_cons.1 ha with
        | inl heq => exact heq ▸ Nat.le_succ _
        | inr ha => exact (hnear a (List.mem_append_left _ ha)).2
  · intro x q' heq w hw
    have hx := hnear x (heq ▸ List.mem_cons_self)
    have hw := hnear w (heq ▸ List.mem_cons_of_mem _ hw)
    omega

theorem BfsInv.length_le (h : BfsInv adj s out queue) : out.length ≤ V := by
  have hlen := (List.nodup_append.1 h.nodup).1.length_le_card
  rwa [Fintype.card_fin] at hlen

theorem bfsLoop_halts (h : BfsInv adj s out queue) : ∃ out',
    Halts (fun fuel => bfsLoop adj fuel (marked (out ++ queue)) queue out) (.ok out') ∧
      BfsInv adj s out' [] := by
  induction hn : V - out.length using Nat.strong_induction_on generalizing out queue with
  | _ n ih =>
    subst hn
    cases queue with
    | nil => exact ⟨out, .succ (.const _), h⟩
    | cons v q =>
      obtain ⟨new, hrun, hnd, hnew⟩ := discover_spec (adj v) (out ++ v :: q) q
      have hstep := h.step hnd hnew
      have hless : V - (out ++ [v]).length < V - out.length := by
        have hlen := hstep.length_le
        rw [List.length_append, List.length_singleton] at hlen ⊢
        omega
      obtain ⟨out', hloop, hinv⟩ := ih _ hless hstep rfl
      have hsplit : out ++ [v] ++ (q ++ new) = out ++ v :: q ++ new := by simp
      rw [hsplit] at hloop
      exact ⟨out', .succ (by simpa only [bfsLoop, hrun] using hloop), hinv⟩

theorem BfsInv.reaches (h : BfsInv adj s out []) : Reaches adj s out := by
  obtain ⟨hnd, hstart, hreach, hclosed, -, -⟩ := h
  refine ⟨by simpa using hnd, fun v => ⟨fun hv => hreach v (by simpa using hv), fun hv => ?_⟩⟩
  by_contra hout
  obtain ⟨x, hx, -⟩ := (steps_dist hv).frontier hstart hclosed (by simpa using hout)
  cases hx

theorem bfs_spec (adj : Fin V → List (Fin V)) (s : Fin V) : ∃ out,
    Halts (fun fuel => bfs adj fuel s) (.ok out) ∧ BfsInv adj s out [] := by
  obtain ⟨out, hrun, hinv⟩ := bfsLoop_halts (BfsInv.init adj s)
  refine ⟨out, ?_, hinv⟩
  simpa only [bfs, marked_nil, update_marked] using hrun

/-- **Both searches** print the vertices that can be reached, the second one by distance. -/
theorem searches_reach (adj : Fin V → List (Fin V)) (s : Fin V) :
    (∃ out, Halts (fun fuel => dfs adj fuel s) (.ok out) ∧ Reaches adj s out) ∧
      ∃ out, Halts (fun fuel => bfs adj fuel s) (.ok out) ∧ Reaches adj s out ∧
        out.Pairwise fun v w => dist (Edge adj) s v ≤ dist (Edge adj) s w := by
  obtain ⟨out, hrun, hinv⟩ := bfs_spec adj s
  refine ⟨dfs_spec adj s, out, hrun, hinv.reaches, ?_⟩
  simpa using hinv.sorted

end

end GraphSearch
