import Mathlib.Data.Set.Card
import Mathlib.Logic.Relation
import Mathlib.Tactic

/-!
# Searching a graph

A search in depth goes through the vertices that are pending, and through the successors of one
that has no mark yet before it goes on. `ok` says which vertices are entered at all. The marked
vertices are a list, in the order in which they get their marks.
-/

namespace Search

open Relation

variable {α : Type*}

section
variable (succ : α → List α) (ok : α → Prop)

/-- A successor that is entered. -/
def Step (v w : α) : Prop := w ∈ succ v ∧ ok w

/-- `Visits s ws s'`: with the marks `s` and `ws` pending, the marks at the end are `s'`. -/
inductive Visits : List α → List α → List α → Prop
  | nil {s : List α} : Visits s [] s
  | skip {s s' ws : List α} {w : α} : w ∈ s ∨ ¬ ok w → Visits s ws s' → Visits s (w :: ws) s'
  | enter {s s₁ s' ws : List α} {w : α} : w ∉ s → ok w → Visits (s ++ [w]) (succ w) s₁ →
      Visits s₁ ws s' → Visits s (w :: ws) s'

end

section
variable {succ : α → List α} {ok : α → Prop} {s s' ws : List α} {v w : α}

namespace Visits

section
variable (h : Visits succ ok s ws s')
include h

theorem subset : s ⊆ s' := by
  induction h with
  | nil => exact List.Subset.refl _
  | skip _ _ ih => exact ih
  | enter _ _ _ _ ih ih' => exact fun v hv => ih' (ih (List.mem_append_left _ hv))

theorem nodup (hs : s.Nodup) : s'.Nodup := by
  induction h with
  | nil => exact hs
  | skip _ _ ih => exact ih hs
  | enter hw _ _ _ ih ih' => exact ih' (ih (List.concat_eq_append ▸ hs.concat hw))

theorem pending (hv : v ∈ ws) (hok : ok v) : v ∈ s' := by
  induction h with
  | nil => cases hv
  | skip hw hrest ih =>
    cases List.mem_cons.1 hv with
    | inl heq =>
      subst heq
      exact hrest.subset (hw.resolve_right (not_not.2 hok))
    | inr hv => exact ih hv
  | enter _ _ hin hrest _ ih' =>
    cases List.mem_cons.1 hv with
    | inl heq => exact hrest.subset (hin.subset (by simp [heq]))
    | inr hv => exact ih' hv

/-- The new marks are closed under `Step`. -/
theorem closed (hv : v ∈ s') (hnew : v ∉ s) (hstep : Step succ ok v w) : w ∈ s' := by
  induction h with
  | nil => exact absurd hv hnew
  | skip _ _ ih => exact ih hv hnew
  | @enter s s₁ s' ws x _ _ hin hrest ih ih' =>
    by_cases hv₁ : v ∈ s₁
    · refine hrest.subset ?_
      by_cases hx : v = x
      · subst hx
        exact hin.pending hstep.1 hstep.2
      · exact ih hv₁ (by simp [hnew, hx])
    · exact ih' hv hv₁

theorem reachable (hv : v ∈ s') : v ∈ s ∨ ∃ w ∈ ws, ok w ∧ ReflTransGen (Step succ ok) w v := by
  induction h with
  | nil => exact .inl hv
  | skip _ _ ih =>
    refine (ih hv).imp_right ?_
    rintro ⟨w, hw, hreach⟩
    exact ⟨w, List.mem_cons_of_mem _ hw, hreach⟩
  | @enter s s₁ s' ws x _ hok _ _ ih ih' =>
    rcases ih' hv with hv | ⟨w, hw, hreach⟩
    · rcases ih hv with hv | ⟨w, hw, hokw, hreach⟩
      · cases List.mem_append.1 hv with
        | inl hv => exact .inl hv
        | inr hv =>
          obtain rfl := List.mem_singleton.1 hv
          exact .inr ⟨v, List.mem_cons_self, hok, .refl⟩
      · exact .inr ⟨x, List.mem_cons_self, hok, .head ⟨hw, hokw⟩ hreach⟩
    · exact .inr ⟨w, List.mem_cons_of_mem _ hw, hreach⟩

end

/-- From closed marks on, the search of `v` adds what can be reached from `v`. -/
theorem mem_iff (h : Visits succ ok s [v] s') (hok : ok v)
    (hs : ∀ x ∈ s, ∀ y, Step succ ok x y → y ∈ s) :
    w ∈ s' ↔ w ∈ s ∨ ReflTransGen (Step succ ok) v w := by
  have hclosed : ∀ x ∈ s', ∀ y, Step succ ok x y → y ∈ s' := by
    intro x hx y hstep
    by_cases hxs : x ∈ s
    · exact h.subset (hs x hxs y hstep)
    · exact h.closed hx hxs hstep
  constructor
  · intro hw
    refine (h.reachable hw).imp_right ?_
    rintro ⟨x, hx, _, hreach⟩
    rwa [List.mem_singleton.1 hx] at hreach
  · rintro (hw | hreach)
    · exact h.subset hw
    · induction hreach with
      | refl => exact h.pending List.mem_cons_self hok
      | tail _ hstep ih => exact hclosed _ ih _ hstep

/-- The search ends where finitely many vertices may be entered. -/
theorem total (hfin : {v | ok v}.Finite) (s ws : List α) : ∃ s', Visits succ ok s ws s' := by
  induction hn : ({v | ok v} \ {v | v ∈ s}).ncard using Nat.strong_induction_on
    generalizing s ws with
  | _ n ih =>
    subst hn
    have hmore : ∀ {s₁ : List α} {w : α}, w ∉ s → ok w → s ++ [w] ⊆ s₁ →
        ({v | ok v} \ {v | v ∈ s₁}).ncard < ({v | ok v} \ {v | v ∈ s}).ncard := by
      intro s₁ w hw hok hsub
      refine Set.ncard_lt_ncard ⟨fun x hx => ?_, fun hsubset => ?_⟩ hfin.sdiff
      · exact ⟨hx.1, fun hxs => hx.2 (hsub (List.mem_append_left _ hxs))⟩
      · exact (hsubset ⟨hok, hw⟩).2 (hsub (by simp))
    induction ws with
    | nil => exact ⟨s, .nil⟩
    | cons w ws ihws =>
      by_cases hw : w ∈ s ∨ ¬ ok w
      · obtain ⟨s', hrest⟩ := ihws
        exact ⟨s', .skip hw hrest⟩
      · rw [not_or, not_not] at hw
        obtain ⟨s₁, hin⟩ := ih _ (hmore hw.1 hw.2 (List.Subset.refl _)) (s ++ [w]) (succ w) rfl
        obtain ⟨s', hrest⟩ := ih _ (hmore hw.1 hw.2 hin.subset) s₁ ws rfl
        exact ⟨s', .enter hw.1 hw.2 hin hrest⟩

end Visits

end

/-! ## A search from many vertices -/

/-- The vertices of `ws` are searched in turn; `roots` are those that were entered. -/
inductive Forest (succ : α → List α) (ok : α → Prop) :
    List α → List α → List α → List α → Prop
  | nil {s : List α} : Forest succ ok s [] [] s
  | skip {s s' ws roots : List α} {w : α} : w ∈ s ∨ ¬ ok w → Forest succ ok s ws roots s' →
      Forest succ ok s (w :: ws) roots s'
  | enter {s s₁ s' ws roots : List α} {w : α} : w ∉ s → ok w →
      Visits succ ok (s ++ [w]) (succ w) s₁ → Forest succ ok s₁ ws roots s' →
      Forest succ ok s (w :: ws) (w :: roots) s'

section
variable {succ : α → List α} {ok : α → Prop} {s s' ws roots : List α} {v w : α}

namespace Forest

theorem total (hfin : {v | ok v}.Finite) (s ws : List α) :
    ∃ roots s', Forest succ ok s ws roots s' := by
  induction ws generalizing s with
  | nil => exact ⟨[], s, .nil⟩
  | cons w ws ih =>
    by_cases hw : w ∈ s ∨ ¬ ok w
    · obtain ⟨roots, s', hrest⟩ := ih s
      exact ⟨roots, s', .skip hw hrest⟩
    · rw [not_or, not_not] at hw
      obtain ⟨s₁, hin⟩ := Visits.total hfin (s ++ [w]) (succ w)
      obtain ⟨roots, s', hrest⟩ := ih s₁
      exact ⟨w :: roots, s', .enter hw.1 hw.2 hin hrest⟩

theorem ok_of_mem (h : Forest succ ok s ws roots s') (hv : v ∈ roots) : ok v := by
  induction h with
  | nil => cases hv
  | skip _ _ ih => exact ih hv
  | enter _ hok _ _ ih =>
    cases List.mem_cons.1 hv with
    | inl heq => exact heq ▸ hok
    | inr hv => exact ih hv

theorem notMem (h : Forest succ ok s ws roots s') (hv : v ∈ roots) : v ∉ s := by
  induction h with
  | nil => cases hv
  | skip _ _ ih => exact ih hv
  | enter hw _ hin _ ih =>
    cases List.mem_cons.1 hv with
    | inl heq => exact heq ▸ hw
    | inr hv => exact fun hs => ih hv (hin.subset (List.mem_append_left _ hs))

/-- The marks that one search leaves are closed again. -/
theorem enter_mem_iff {s₁ : List α} (hw : w ∉ s) (hok : ok w)
    (hin : Visits succ ok (s ++ [w]) (succ w) s₁)
    (hs : ∀ x ∈ s, ∀ y, Step succ ok x y → y ∈ s) :
    (∀ v, v ∈ s₁ ↔ v ∈ s ∨ ReflTransGen (Step succ ok) w v) ∧
      ∀ x ∈ s₁, ∀ y, Step succ ok x y → y ∈ s₁ := by
  have hmem : ∀ v, v ∈ s₁ ↔ v ∈ s ∨ ReflTransGen (Step succ ok) w v :=
    fun v => (Visits.enter hw hok hin .nil).mem_iff hok hs
  refine ⟨hmem, fun x hx y hstep => ?_⟩
  rw [hmem] at hx ⊢
  exact hx.imp (hs x · y hstep) (·.tail hstep)

/-- No root can be reached from one before it. -/
theorem pairwise (h : Forest succ ok s ws roots s')
    (hs : ∀ x ∈ s, ∀ y, Step succ ok x y → y ∈ s) :
    roots.Pairwise fun u v => ¬ ReflTransGen (Step succ ok) u v := by
  induction h with
  | nil => exact .nil
  | skip _ _ ih => exact ih hs
  | enter hw hok hin hrest ih =>
    obtain ⟨hmem, hclosed⟩ := enter_mem_iff hw hok hin hs
    exact .cons (fun v hv hreach => hrest.notMem hv ((hmem v).2 (.inr hreach))) (ih hclosed)

/-- Every vertex that may be entered is reached from a root. -/
theorem covers (h : Forest succ ok s ws roots s') (hs : ∀ x ∈ s, ∀ y, Step succ ok x y → y ∈ s)
    (hv : v ∈ ws) (hokv : ok v) : v ∈ s ∨ ∃ u ∈ roots, ReflTransGen (Step succ ok) u v := by
  induction h with
  | nil => cases hv
  | skip hw _ ih =>
    cases List.mem_cons.1 hv with
    | inl heq =>
      subst heq
      exact .inl (hw.resolve_right (not_not.2 hokv))
    | inr hv => exact ih hs hv
  | @enter s s₁ s' ws roots w hw hok hin _ ih =>
    obtain ⟨hmem, hclosed⟩ := enter_mem_iff hw hok hin hs
    cases List.mem_cons.1 hv with
    | inl heq =>
      subst heq
      exact .inr ⟨v, List.mem_cons_self, .refl⟩
    | inr hv =>
      rcases ih hclosed hv with hv | ⟨u, hu, hreach⟩
      · exact ((hmem v).1 hv).imp_right fun hreach => ⟨w, List.mem_cons_self, hreach⟩
      · exact .inr ⟨u, List.mem_cons_of_mem _ hu, hreach⟩

end Forest

end

/-! ## Distances -/

/-- A path of `n` steps. -/
inductive Steps (r : α → α → Prop) : ℕ → α → α → Prop
  | zero {v : α} : Steps r 0 v v
  | tail {n : ℕ} {u v w : α} : Steps r n u v → r v w → Steps r (n + 1) u w

/-- The length of a shortest path. -/
noncomputable def dist (r : α → α → Prop) (u v : α) : ℕ := sInf {n | Steps r n u v}

section
variable {r : α → α → Prop} {n : ℕ} {u v w : α}

theorem Steps.mono {r' : α → α → Prop} (h : Steps r n u v) (hr : ∀ v w, r v w → r' v w) :
    Steps r' n u v := by
  induction h with
  | zero => exact .zero
  | tail _ hvw ih => exact ih.tail (hr _ _ hvw)

theorem Steps.reachable (h : Steps r n u v) : ReflTransGen r u v := by
  induction h with
  | zero => exact .refl
  | tail _ hr ih => exact ih.tail hr

theorem exists_steps (h : ReflTransGen r u v) : ∃ n, Steps r n u v := by
  induction h with
  | refl => exact ⟨0, .zero⟩
  | tail _ hr ih =>
    obtain ⟨n, hn⟩ := ih
    exact ⟨n + 1, hn.tail hr⟩

theorem steps_dist (h : ReflTransGen r u v) : Steps r (dist r u v) u v :=
  Nat.sInf_mem (exists_steps h)

theorem dist_le (h : Steps r n u v) : dist r u v ≤ n := Nat.sInf_le h

theorem dist_step (h : ReflTransGen r u v) (hr : r v w) : dist r u w ≤ dist r u v + 1 :=
  dist_le ((steps_dist h).tail hr)

/-- A path out of `out ++ queue` leaves it from `queue`, if `out` is expanded. -/
theorem Steps.frontier {out queue : List α} (h : Steps r n u w) (hu : u ∈ out ++ queue)
    (hclosed : ∀ v ∈ out, ∀ w, r v w → w ∈ out ++ queue) (hw : w ∉ out ++ queue) :
    ∃ v ∈ queue, ReflTransGen r u v ∧ dist r u v < n := by
  induction h with
  | zero => exact absurd hu hw
  | @tail n u v w hsteps hr ih =>
    by_cases hv : v ∈ out ++ queue
    · cases List.mem_append.1 hv with
      | inl hv => exact absurd (hclosed v hv w hr) hw
      | inr hv => exact ⟨v, hv, hsteps.reachable, Nat.lt_succ_of_le (dist_le hsteps)⟩
    · obtain ⟨x, hx, hreach, hlt⟩ := ih hu hv
      exact ⟨x, hx, hreach, hlt.trans (Nat.lt_succ_self n)⟩

end

end Search
