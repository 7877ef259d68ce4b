import Mathlib.Data.List.Nodup
import Mathlib.Tactic

/-!
# Caches with pinned entries

A cache of entries with keys, in the order of use, from which clients hold handles. An entry that
leaves the cache is disposed of as soon as no handle to it is held, and waits among the detached
ones until then. What is inserted comes to the end of the order, for the entry of its key if there
is one, and the entries used the longest time ago leave the cache as long as it is full.

`WF` is kept by every operation. `WF.insert_stock` and its companions are the balance of the
entries: every one that was inserted is cached, detached or disposed of, and that once.
-/

namespace PinnedCache

/-- What a cache needs of its entries; the charge is what an entry counts for. -/
class Cacheable (E : Type) (I κ : outParam Type) where
  handle : E → I
  key : E → κ
  charge : E → Nat

structure State (E I : Type) where
  /-- The one used the longest time ago first. -/
  cached : List E
  /-- Out of the cache, and still held. -/
  detached : List E
  /-- The handles of the clients; one may be held several times. -/
  held : List I
  /-- The first one first. -/
  disposed : List E

section
variable {E I κ : Type} [Cacheable E I κ]

open Cacheable (handle key charge)

namespace State

def empty : State E I := ⟨[], [], [], []⟩

/-- The entries that are there. -/
def entries (s : State E I) : List E := s.cached ++ s.detached

def total (s : State E I) : Nat := (s.entries.map charge).sum

section
variable [DecidableEq I] [DecidableEq κ]

/-- An entry that has left the cache. -/
def retire (s : State E I) (e : E) : State E I :=
  if handle e ∈ s.held then { s with detached := e :: s.detached }
  else { s with disposed := s.disposed ++ [e] }

def find (s : State E I) (k : κ) : Option E := s.cached.find? fun e => key e = k

def without (s : State E I) (k : κ) : State E I :=
  { s with cached := s.cached.filter fun e => key e ≠ k }

def remove (s : State E I) (k : κ) : State E I :=
  match s.find k with
  | some e => (s.without k).retire e
  | none => s

/-- The entry of a key is used, and the client has a handle to it. -/
def lookup (s : State E I) (k : κ) : State E I :=
  match s.find k with
  | some e => { s.without k with
      cached := (s.without k).cached ++ [e]
      held := handle e :: s.held }
  | none => s

/-- The entries of the list, which are the cached ones, leave as long as the cache is full. -/
def evict (full : Nat → Bool) : List E → State E I → State E I
  | [], s => { s with cached := [] }
  | e :: rest, s =>
    if full { s with cached := e :: rest }.total then
      evict full rest ({ s with cached := rest }.retire e)
    else { s with cached := e :: rest }

/-- The part of `insert` before the entries leave. -/
def put (s : State E I) (e : E) : State E I :=
  { s.remove (key e) with
    cached := (s.remove (key e)).cached ++ [e]
    held := handle e :: (s.remove (key e)).held }

def insert (full : Nat → Bool) (s : State E I) (e : E) : State E I :=
  evict full (s.put e).cached (s.put e)

def release (s : State E I) (i : I) : State E I :=
  if i ∈ s.held.erase i then { s with held := s.held.erase i }
  else { s with
    held := s.held.erase i
    detached := s.detached.filter fun e => handle e ≠ i
    disposed := s.disposed ++ s.detached.filter fun e => handle e = i }

/-- The entries that are not held leave the cache. -/
def prune (s : State E I) : State E I :=
  { s with
    cached := s.cached.filter fun e => handle e ∈ s.held
    disposed := s.disposed ++ s.cached.filter fun e => handle e ∉ s.held }

def retireAll (s : State E I) (l : List E) : State E I := l.foldl retire s

end

/-- Every entry that was ever there. -/
def stock (s : State E I) : List E := s.disposed ++ s.entries

/-- Entries are told apart by their handles, and the cached ones by their keys; handles that are
held are those of entries that are there. -/
structure WF (s : State E I) : Prop where
  ids : (s.entries.map handle).Nodup
  keys : (s.cached.map key).Nodup
  held : ∀ i ∈ s.held, i ∈ s.entries.map handle
  pinned : ∀ e ∈ s.detached, handle e ∈ s.held

/-! ## Leaving the cache -/

variable {s : State E I} {e x : E} {A B l : List E} {k : κ} {i : I} {full : Nat → Bool}

theorem perm_last (A B : List E) (e : E) : (A ++ B ++ [e]).Perm (A ++ e :: B) := by
  rw [List.append_assoc]
  exact (List.perm_append_singleton e B).append_left A

theorem WF.empty : (State.empty : State E I).WF where
  ids := List.nodup_nil
  keys := List.nodup_nil
  held := by simp [State.empty]
  pinned := by simp [State.empty]

section
variable [DecidableEq I]

theorem retire_cached (s : State E I) (e : E) : (s.retire e).cached = s.cached := by
  unfold retire
  split_ifs <;> rfl

theorem retire_held (s : State E I) (e : E) : (s.retire e).held = s.held := by
  unfold retire
  split_ifs <;> rfl

theorem retire_with (s : State E I) (e : E) (l : List E) :
    { s with cached := l }.retire e = { s.retire e with cached := l } := by
  unfold retire
  split_ifs <;> rfl

theorem retire_stock (s : State E I) (e : E) : (s.retire e).stock.Perm (e :: s.stock) := by
  unfold retire stock entries
  split_ifs
  · dsimp only
    rw [← List.append_assoc, ← List.append_assoc]
    exact List.perm_middle
  · dsimp only
    rw [List.append_assoc]
    exact List.perm_middle

theorem WF.retire (wf : s.WF) (hs : s.cached = A ++ e :: B) :
    ({ s with cached := A ++ B }.retire e).WF := by
  have hperm : s.entries.Perm (e :: (A ++ B ++ s.detached)) := by
    unfold entries
    rw [hs, List.append_assoc, List.append_assoc]
    exact List.perm_middle
  have hkeys : ((A ++ B).map (key : E → κ)).Nodup := by
    refine wf.keys.sublist (List.Sublist.map _ ?_)
    rw [hs]
    simp
  have hids := (hperm.map handle).nodup_iff.1 wf.ids
  have hheld : ∀ i ∈ s.held, i = handle e ∨ i ∈ (A ++ B ++ s.detached).map handle := by
    intro i hi
    have := (hperm.map handle).mem_iff.1 (wf.held i hi)
    rwa [List.map_cons, List.mem_cons] at this
  unfold State.retire
  by_cases he : handle e ∈ s.held
  · rw [if_pos he]
    have hperm' : (A ++ B ++ e :: s.detached).Perm (e :: (A ++ B ++ s.detached)) :=
      List.perm_middle
    refine ⟨(hperm'.map handle).nodup_iff.2 hids, hkeys, fun i hi => ?_, fun x hx => ?_⟩
    · refine (hperm'.map handle).mem_iff.2 ?_
      rw [List.map_cons, List.mem_cons]
      exact hheld i hi
    · rcases List.mem_cons.1 hx with rfl | hx
      · exact he
      · exact wf.pinned x hx
  · rw [if_neg he]
    refine ⟨(List.nodup_cons.1 hids).2, hkeys, fun i hi => ?_, wf.pinned⟩
    rcases hheld i hi with rfl | hmem
    · exact absurd hi he
    · exact hmem

/-- The entries that have left are the first ones, and the last of them left while the cache was
full. -/
theorem evict_spec (full : Nat → Bool) : ∀ (l : List E) (s : State E I), ∃ gone rest,
    l = gone ++ rest ∧ evict full l s = { s with cached := rest }.retireAll gone ∧
      (rest = [] ∨ full (evict full l s).total = false) ∧
      ∀ A e B, gone = A ++ e :: B →
        full ({ s with cached := e :: (B ++ rest) }.retireAll A).total = true
  | [], s => ⟨[], [], rfl, rfl, .inl rfl, by simp⟩
  | e :: l, s => by
    unfold evict
    by_cases hfull : full { s with cached := e :: l }.total = true
    · rw [if_pos hfull]
      obtain ⟨gone, rest, rfl, hrun, hroom, hlast⟩ :=
        evict_spec full l ({ s with cached := l }.retire e)
      refine ⟨e :: gone, rest, rfl, ?_, hroom, ?_⟩
      · have hs : { { s with cached := gone ++ rest }.retire e with cached := rest } =
            { s with cached := rest }.retire e := by
          rw [retire_with, retire_with s e rest]
        rw [hrun, hs]
        rfl
      · rintro (_ | ⟨a, A⟩) e' B hgone
        · obtain ⟨rfl, rfl⟩ := List.cons.inj hgone
          exact hfull
        · obtain ⟨rfl, hgone'⟩ := List.cons.inj hgone
          have hfull' := hlast A e' B hgone'
          rw [retire_with] at hfull'
          unfold retireAll at hfull' ⊢
          rwa [List.foldl_cons, retire_with]
    · rw [if_neg hfull]
      refine ⟨[], e :: l, rfl, rfl, .inr (eq_false_of_ne_true hfull), ?_⟩
      intro A x B hgone
      cases A <;> cases hgone

theorem WF.evict (full : Nat → Bool) : ∀ {l : List E} {s : State E I}, s.WF → s.cached = l →
    (evict full l s).WF
  | [], s, wf, hs => by
    unfold State.evict
    rwa [← hs]
  | e :: l, s, wf, hs => by
    unfold State.evict
    split_ifs
    · exact WF.evict full (wf.retire (A := []) hs) (retire_cached ..)
    · rwa [← hs]

theorem evict_stock (full : Nat → Bool) : ∀ {l : List E} {s : State E I}, s.cached = l →
    (evict full l s).stock.Perm s.stock
  | [], s, hs => by
    unfold State.evict
    rw [← hs]
  | e :: l, s, hs => by
    unfold State.evict
    split_ifs
    · have hl : ({ s with cached := l }.retire e).cached = l := retire_cached ..
      refine (evict_stock full hl).trans ((retire_stock _ e).trans ?_)
      unfold stock entries
      rw [hs]
      exact List.perm_middle.symm
    · rw [← hs]

theorem retire_subset (hs : s.cached = A ++ e :: B) :
    ({ s with cached := A ++ B }.retire e).entries ⊆ s.entries := by
  unfold entries State.retire
  rw [hs]
  intro x hx
  split_ifs at hx <;>
  · simp only [List.mem_append, List.mem_cons] at hx ⊢
    tauto

theorem evict_subset (full : Nat → Bool) : ∀ {l : List E} {s : State E I}, s.cached = l →
    (evict full l s).entries ⊆ s.entries
  | [], s, hs => by
    unfold State.evict
    rw [← hs]
    exact List.Subset.refl _
  | e :: l, s, hs => by
    have hs' : s.cached = [] ++ e :: l := hs
    unfold State.evict
    split_ifs
    · exact List.Subset.trans (evict_subset full (retire_cached ..)) (retire_subset hs')
    · rw [← hs]
      exact List.Subset.refl _

theorem WF.release (wf : s.WF) (i : I) : (s.release i).WF := by
  have hsub : ∀ j ∈ s.held.erase i, j ∈ s.held := fun j hj => List.mem_of_mem_erase hj
  unfold State.release
  by_cases hagain : i ∈ s.held.erase i
  · rw [if_pos hagain]
    refine ⟨wf.ids, wf.keys, fun j hj => wf.held j (hsub j hj), fun x hx => ?_⟩
    by_cases hxi : handle x = i
    · exact hxi ▸ hagain
    · exact (List.mem_erase_of_ne hxi).2 (wf.pinned x hx)
  · rw [if_neg hagain]
    have hents : (s.cached ++ s.detached.filter fun e => handle e ≠ i).Sublist s.entries :=
      (List.Sublist.refl _).append List.filter_sublist
    refine ⟨wf.ids.sublist (hents.map handle), wf.keys, fun j hj => ?_, fun x hx => ?_⟩
    · have hji : j ≠ i := fun heq => hagain (heq ▸ hj)
      obtain ⟨x, hx, rfl⟩ := List.mem_map.1 (wf.held j (hsub j hj))
      refine List.mem_map_of_mem ?_
      rcases List.mem_append.1 hx with hx | hx
      · exact List.mem_append_left _ hx
      · exact List.mem_append_right _ (List.mem_filter.2 ⟨hx, decide_eq_true hji⟩)
    · obtain ⟨hx, hxi⟩ := List.mem_filter.1 hx
      exact (List.mem_erase_of_ne (of_decide_eq_true hxi)).2 (wf.pinned x hx)

theorem release_subset (s : State E I) (i : I) : (s.release i).entries ⊆ s.entries := by
  unfold State.release entries
  split_ifs
  · exact List.Subset.refl _
  · exact ((List.Sublist.refl _).append List.filter_sublist).subset

theorem release_again (h : i ∈ s.held.erase i) :
    s.release i = { s with held := s.held.erase i } := if_pos h

omit [DecidableEq I] in
theorem WF.handle_ne (wf : s.WF) (hs : s.entries = A ++ e :: B) : ∀ x ∈ A ++ B,
    handle x ≠ handle e := by
  intro x hx heq
  have hnd := wf.ids
  rw [hs, List.map_append, List.map_cons] at hnd
  have hnot := (List.nodup_cons.1 (List.nodup_middle.1 hnd)).1
  rw [← List.map_append, ← heq] at hnot
  exact hnot (List.mem_map_of_mem hx)

/-- An entry of the cache stays, whatever the clients give back. -/
theorem WF.release_of_cached (wf : s.WF) (he : e ∈ s.cached) :
    s.release (handle e) = { s with held := s.held.erase (handle e) } := by
  obtain ⟨A, B, hs⟩ := List.append_of_mem he
  have hne : ∀ x ∈ s.detached, handle x ≠ handle e := by
    refine fun x hx => wf.handle_ne (A := A) (B := B ++ s.detached) ?_ x (by simp [hx])
    unfold entries
    rw [hs, List.append_assoc]
    rfl
  unfold State.release
  split
  case isTrue => rfl
  case isFalse =>
    have hall : s.detached.filter (fun x => decide (handle x ≠ handle e)) = s.detached :=
      List.filter_eq_self.2 fun x hx => decide_eq_true (hne x hx)
    have hnone : s.detached.filter (fun x => decide (handle x = handle e)) = [] :=
      List.filter_eq_nil_iff.2 fun x hx h => hne x hx (of_decide_eq_true h)
    rw [hall, hnone, List.append_nil]

/-- The last handle of a detached entry. -/
theorem WF.release_of_detached (wf : s.WF) (hs : s.detached = A ++ e :: B)
    (hlast : handle e ∉ s.held.erase (handle e)) :
    s.release (handle e) = { s with
      held := s.held.erase (handle e)
      detached := A ++ B
      disposed := s.disposed ++ [e] } := by
  have hne : ∀ x ∈ s.cached ++ A ++ B, handle x ≠ handle e := by
    refine wf.handle_ne ?_
    unfold entries
    rw [hs, List.append_assoc]
  have hA : ∀ x ∈ A, handle x ≠ handle e := fun x hx => hne x (by simp [hx])
  have hB : ∀ x ∈ B, handle x ≠ handle e := fun x hx => hne x (by simp [hx])
  have hkept : s.detached.filter (fun x => decide (handle x ≠ handle e)) = A ++ B := by
    rw [hs, List.filter_append, List.filter_cons_of_neg (by simp),
      List.filter_eq_self.2 fun x hx => decide_eq_true (hA x hx),
      List.filter_eq_self.2 fun x hx => decide_eq_true (hB x hx)]
  have hgone : s.detached.filter (fun x => decide (handle x = handle e)) = [e] := by
    rw [hs, List.filter_append, List.filter_cons_of_pos (by simp),
      List.filter_eq_nil_iff.2 fun x hx h => hA x hx (of_decide_eq_true h),
      List.filter_eq_nil_iff.2 fun x hx h => hB x hx (of_decide_eq_true h)]
    rfl
  unfold State.release
  rw [if_neg hlast, hkept, hgone]

theorem release_stock (s : State E I) (i : I) : (s.release i).stock.Perm s.stock := by
  unfold State.release
  split_ifs
  · exact List.Perm.refl _
  · unfold stock entries
    dsimp only
    rw [List.append_assoc]
    refine List.Perm.append_left _ ?_
    refine (List.perm_append_comm_assoc ..).trans (List.Perm.append_left _ ?_)
    have hsplit := List.filter_append_perm (fun e => decide (handle e = i)) s.detached
    simpa only [decide_not] using hsplit

theorem WF.prune (wf : s.WF) : s.prune.WF := by
  have hents : s.prune.entries.Sublist s.entries := by
    unfold State.prune entries
    exact List.filter_sublist.append (List.Sublist.refl _)
  refine ⟨wf.ids.sublist (hents.map handle), wf.keys.sublist (List.filter_sublist.map key),
    fun i hi => ?_, wf.pinned⟩
  obtain ⟨x, hx, rfl⟩ := List.mem_map.1 (wf.held i hi)
  refine List.mem_map_of_mem ?_
  rcases List.mem_append.1 hx with hx | hx
  · exact List.mem_append_left _ (List.mem_filter.2 ⟨hx, decide_eq_true hi⟩)
  · exact List.mem_append_right _ hx

theorem prune_subset (s : State E I) : s.prune.entries ⊆ s.entries :=
  (List.filter_sublist.append (List.Sublist.refl _)).subset

theorem prune_stock (s : State E I) : s.prune.stock.Perm s.stock := by
  unfold State.prune stock entries
  dsimp only
  rw [List.append_assoc]
  refine List.Perm.append_left _ ?_
  rw [← List.append_assoc]
  refine List.Perm.append_right _ (List.perm_append_comm.trans ?_)
  have hsplit := List.filter_append_perm (fun e => decide (handle e ∈ s.held)) s.cached
  simpa only [decide_not] using hsplit

end

/-! ## Keys -/

section
variable [DecidableEq κ]

theorem WF.find_iff (wf : s.WF) : s.find k = some e ↔ e ∈ s.cached ∧ key e = k := by
  unfold find
  constructor
  · intro h
    exact ⟨List.mem_of_find?_eq_some h, by simpa using List.find?_some h⟩
  · rintro ⟨hmem, rfl⟩
    obtain ⟨A, B, heq⟩ := List.append_of_mem hmem
    have hkeys := wf.keys
    rw [heq, List.map_append, List.map_cons] at hkeys
    have hnot := (List.nodup_cons.1 (List.nodup_middle.1 hkeys)).1
    rw [List.mem_append, not_or] at hnot
    rw [heq, List.find?_append, List.find?_eq_none.2, Option.none_or,
      List.find?_cons_of_pos (by simp)]
    intro x hx
    rw [decide_eq_true_eq]
    exact fun heq => hnot.1 (heq ▸ List.mem_map_of_mem hx)

theorem WF.without_cached (wf : s.WF) (hs : s.cached = A ++ e :: B) :
    s.without (key e) = { s with cached := A ++ B } := by
  have hkeys := wf.keys
  rw [hs, List.map_append, List.map_cons] at hkeys
  have hnot := (List.nodup_cons.1 (List.nodup_middle.1 hkeys)).1
  rw [← List.map_append] at hnot
  unfold without
  rw [hs, List.filter_append, List.filter_cons_of_neg (by simp), ← List.filter_append,
    List.filter_eq_self.2]
  intro x hx
  rw [decide_eq_true_eq]
  exact fun heq => hnot (heq ▸ List.mem_map_of_mem hx)

theorem WF.lookup (wf : s.WF) (k : κ) : (s.lookup k).WF := by
  unfold State.lookup
  cases hfind : s.find k with
  | none => exact wf
  | some e =>
    obtain ⟨hmem, rfl⟩ := wf.find_iff.1 hfind
    obtain ⟨A, B, hs⟩ := List.append_of_mem hmem
    dsimp only
    rw [wf.without_cached hs]
    have hperm : (A ++ B ++ [e]).Perm s.cached := by
      rw [hs]
      exact perm_last A B e
    have hents : (A ++ B ++ [e] ++ s.detached).Perm s.entries := hperm.append_right _
    refine ⟨(hents.map handle).nodup_iff.2 wf.ids, (hperm.map key).nodup_iff.2 wf.keys,
      fun i hi => (hents.map handle).mem_iff.2 ?_, fun x hx =>
      List.mem_cons_of_mem _ (wf.pinned x hx)⟩
    rcases List.mem_cons.1 hi with rfl | hi
    · exact List.mem_map_of_mem (List.mem_append_left _ hmem)
    · exact wf.held i hi

theorem WF.lookup_subset (wf : s.WF) (k : κ) : (s.lookup k).entries ⊆ s.entries := by
  unfold State.lookup
  cases hfind : s.find k with
  | none => exact List.Subset.refl _
  | some e =>
    obtain ⟨hmem, rfl⟩ := wf.find_iff.1 hfind
    obtain ⟨A, B, hs⟩ := List.append_of_mem hmem
    dsimp only
    rw [wf.without_cached hs]
    unfold entries
    rw [hs]
    exact ((perm_last A B e).append_right _).subset

theorem WF.lookup_stock (wf : s.WF) (k : κ) : (s.lookup k).stock.Perm s.stock := by
  unfold State.lookup
  cases hfind : s.find k with
  | none => exact List.Perm.refl _
  | some e =>
    obtain ⟨hmem, rfl⟩ := wf.find_iff.1 hfind
    obtain ⟨A, B, hs⟩ := List.append_of_mem hmem
    dsimp only
    rw [wf.without_cached hs]
    unfold stock entries
    rw [hs]
    exact ((perm_last A B e).append_right _).append_left _

variable [DecidableEq I]

section
variable (wf : s.WF)
include wf

theorem WF.remove (k : κ) : (s.remove k).WF := by
  unfold State.remove
  cases hfind : s.find k with
  | none => exact wf
  | some e =>
    obtain ⟨hmem, rfl⟩ := wf.find_iff.1 hfind
    obtain ⟨A, B, hs⟩ := List.append_of_mem hmem
    dsimp only
    rw [wf.without_cached hs]
    exact wf.retire hs

theorem WF.remove_stock (k : κ) : (s.remove k).stock.Perm s.stock := by
  unfold State.remove
  cases hfind : s.find k with
  | none => exact List.Perm.refl _
  | some e =>
    obtain ⟨hmem, rfl⟩ := wf.find_iff.1 hfind
    obtain ⟨A, B, hs⟩ := List.append_of_mem hmem
    dsimp only
    rw [wf.without_cached hs]
    refine (retire_stock _ e).trans ?_
    unfold stock entries
    rw [hs]
    simp only [List.append_assoc, List.cons_append]
    rw [← List.append_assoc s.disposed, ← List.append_assoc s.disposed]
    exact List.perm_middle.symm

/-- The entries that are there after a removal were there before. -/
theorem WF.remove_subset (k : κ) : (s.remove k).entries ⊆ s.entries := by
  unfold State.remove
  cases hfind : s.find k with
  | none => exact List.Subset.refl _
  | some e =>
    obtain ⟨hmem, rfl⟩ := wf.find_iff.1 hfind
    obtain ⟨A, B, hs⟩ := List.append_of_mem hmem
    dsimp only
    rw [wf.without_cached hs]
    exact retire_subset hs

theorem WF.remove_keys (k : κ) : ∀ x ∈ (s.remove k).cached, key x ≠ k := by
  intro x hx
  unfold State.remove at hx
  cases hfind : s.find k with
  | none =>
    rw [hfind] at hx
    intro heq
    rw [wf.find_iff.2 ⟨hx, heq⟩] at hfind
    cases hfind
  | some e =>
    rw [hfind] at hx
    dsimp only at hx
    rw [retire_cached] at hx
    exact of_decide_eq_true (List.mem_filter.1 hx).2

theorem WF.put (hnew : handle e ∉ s.entries.map handle) : (s.put e).WF := by
  have wf' := wf.remove (key e)
  have hents : (s.put e).entries.Perm (e :: (s.remove (key e)).entries) := by
    unfold State.put entries
    dsimp only
    rw [List.append_assoc]
    exact List.perm_middle
  have hnot : handle e ∉ (s.remove (key e)).entries.map handle :=
    fun hmem => hnew (List.map_subset _ (wf.remove_subset _) hmem)
  refine ⟨(hents.map handle).nodup_iff.2 (List.nodup_cons.2 ⟨hnot, wf'.ids⟩), ?_, fun i hi =>
    (hents.map handle).mem_iff.2 ?_, fun x hx => List.mem_cons_of_mem _ (wf'.pinned x hx)⟩
  · unfold State.put
    dsimp only
    rw [List.map_append, List.map_singleton]
    refine List.nodup_append.2 ⟨wf'.keys, List.nodup_singleton _, ?_⟩
    rintro a ha b hb rfl
    obtain ⟨x, hx, hxa⟩ := List.mem_map.1 ha
    exact wf.remove_keys _ x hx (hxa.trans (List.mem_singleton.1 hb))
  · rw [List.map_cons, List.mem_cons]
    rcases List.mem_cons.1 hi with rfl | hi
    · exact .inl rfl
    · exact .inr (wf'.held i hi)

theorem WF.put_stock (e : E) : (s.put e).stock.Perm (e :: s.stock) := by
  have hperm := wf.remove_stock (key e)
  refine List.Perm.trans ?_ (hperm.cons e)
  unfold State.put stock entries
  dsimp only
  rw [List.append_assoc, List.singleton_append, ← List.append_assoc, ← List.append_assoc]
  exact List.perm_middle

theorem WF.put_subset (e : E) : (s.put e).entries ⊆ e :: s.entries := by
  intro x hx
  unfold State.put entries at hx
  simp only [List.mem_append, List.mem_singleton] at hx
  rw [List.mem_cons]
  rcases hx with (hx | rfl) | hx
  · exact .inr (wf.remove_subset _ (List.mem_append_left _ hx))
  · exact .inl rfl
  · exact .inr (wf.remove_subset _ (List.mem_append_right _ hx))

theorem WF.insert_subset (full : Nat → Bool) (e : E) : (s.insert full e).entries ⊆ e :: s.entries :=
  List.Subset.trans (evict_subset full rfl) (wf.put_subset e)

theorem WF.insert (full : Nat → Bool) (hnew : handle e ∉ s.entries.map handle) :
    (s.insert full e).WF :=
  WF.evict full (wf.put hnew) rfl

theorem WF.insert_stock (full : Nat → Bool) (e : E) : (s.insert full e).stock.Perm (e :: s.stock) :=
  (evict_stock full rfl).trans (wf.put_stock e)

end

omit [DecidableEq κ] in
theorem retireAll_cached (s : State E I) (l : List E) : (s.retireAll l).cached = s.cached := by
  unfold retireAll
  induction l generalizing s with
  | nil => rfl
  | cons e l ih => exact (ih _).trans (retire_cached ..)

end

end State

end

end PinnedCache
