import DsAlgor.Lib.Search
import Mathlib.Combinatorics.SimpleGraph.Connectivity.Connected
import Mathlib.Data.List.NodupEquivFin

/-!
# Connected components

A search from every vertex of an undirected graph enters one vertex of each component
(`card_components`).
-/

namespace Search

open Relation

variable {α : Type*} {G : SimpleGraph α} {S : Set α} {succ : α → List α} {ok : α → Prop}

/-- The paths of the search are those of the graph on the vertices that are entered. -/
theorem reachable_iff (hadj : ∀ v w, w ∈ succ v ↔ G.Adj v w) (hok : ∀ v, ok v ↔ v ∈ S)
    (u v : S) : (G.induce S).Reachable u v ↔ ReflTransGen (Step succ ok) u v := by
  rw [SimpleGraph.reachable_iff_reflTransGen]
  constructor
  · intro h
    exact h.lift Subtype.val fun a b hab => ⟨(hadj _ _).2 hab, (hok _).2 b.2⟩
  · intro h
    have hlift : ∀ x, ReflTransGen (Step succ ok) u x →
        ∃ hx : x ∈ S, ReflTransGen (G.induce S).Adj u ⟨x, hx⟩ := by
      intro x hx
      induction hx with
      | refl => exact ⟨u.2, .refl⟩
      | tail _ hstep ih =>
        obtain ⟨_, hreach⟩ := ih
        exact ⟨(hok _).1 hstep.2, hreach.tail ((hadj _ _).1 hstep.1)⟩
    exact (hlift v h).2

theorem card_components {ws roots s' : List α} (hadj : ∀ v w, w ∈ succ v ↔ G.Adj v w)
    (hok : ∀ v, ok v ↔ v ∈ S) (hws : ∀ v ∈ S, v ∈ ws)
    (h : Forest succ ok [] ws roots s') :
    Nat.card (G.induce S).ConnectedComponent = roots.length := by
  classical
  have hroots : ∀ v ∈ roots, v ∈ S := fun v hv => (hok v).1 (h.ok_of_mem hv)
  let comps := roots.pmap (fun v hv => (G.induce S).connectedComponentMk ⟨v, hv⟩) hroots
  have hnodup : comps.Nodup := by
    refine (List.pairwise_pmap hroots).2 ((h.pairwise nofun).imp fun hreach _ _ heq => hreach ?_)
    exact (reachable_iff hadj hok _ _).1 (SimpleGraph.ConnectedComponent.eq.1 heq)
  have hall : ∀ c, c ∈ comps := by
    intro c
    induction c using SimpleGraph.ConnectedComponent.ind with
    | _ v =>
      obtain hv | ⟨u, hu, hreach⟩ := h.covers nofun (hws v v.2) ((hok v).2 v.2)
      · cases hv
      · refine List.mem_pmap.2 ⟨u, hu, SimpleGraph.ConnectedComponent.eq.2 ?_⟩
        exact (reachable_iff hadj hok ⟨u, hroots u hu⟩ v).2 hreach
  have hcard := Nat.card_congr (hnodup.getEquivOfForallMemList comps hall)
  rw [Nat.card_fin] at hcard
  rw [← hcard]
  exact List.length_pmap

end Search
