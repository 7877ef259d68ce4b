import DsAlgor.Leveldb.Cache
import DsAlgor.Lib.PinnedCache

/-!
# What the cache does

`Repr w c s`: the memory and the cache `c` represent the state `s` of a cache with pinned entries.
An entry is told by its key together with the hash. Every operation does what the one of the pinned
cache does, with no failed `assert` and no access to memory that is freed.
-/

namespace Leveldb.Cache

open PinnedCache
open Circular (headOr)
open Outcome (ok_bind)

instance (K V : Type) : Cacheable (Entry K V) Ptr (K × Nat) where
  handle := Entry.handle
  key e := (e.key, e.hash)
  charge := Entry.charge

abbrev Model (K V : Type) := State (Entry K V) Ptr

section
variable {K V : Type}

/-- The handles of the entries. -/
def handles (es : List (Entry K V)) : List Ptr := es.map Entry.handle

/-- The references to an entry: those of the clients, and that of the cache. -/
def refCount (s : Model K V) (p : Ptr) : Nat :=
  s.held.count p + if p ∈ handles s.cached then 1 else 0

structure Repr (asSlice : V → K) (w : World K V) (c : LRUCache) (s : Model K V) : Prop where
  inv : Inv asSlice w.heap c (handles s.cached) (handles s.cached) s.entries (refCount s)
  wf : s.WF
  calls : w.calls = s.disposed.map Entry.call

/-- Only memory of `before` has changed, and what is not in `after` is free. -/
structure Effect (h h' : Heap K V) (before after : List Ptr) : Prop where
  frame : Frame h h' before
  freed : ∀ p ∈ before, p ∉ after → h'.live p = false

/-- The memory of a cache: its `lru_` and the entries. -/
def LRUCache.owned (c : LRUCache) (s : Model K V) : List Ptr := c.lru :: handles s.entries

variable {asSlice : V → K} {w w' : World K V} {c : LRUCache} {s : Model K V} {h h' h'' : Heap K V}
  {A B : List (Entry K V)} {e : Entry K V} {p : Ptr} {before mid after : List Ptr}

theorem Frame.effect (hf : Frame h h' before) : Effect h h' before before :=
  ⟨hf, fun _ hp hnot => absurd hp hnot⟩

theorem Effect.trans (h₁ : Effect h h' before mid) (h₂ : Effect h' h'' mid after)
    (hsub : ∀ p ∈ mid, p ∈ before) : Effect h h'' before after := by
  refine ⟨h₁.frame.trans h₂.frame hsub, fun p hp hnot => ?_⟩
  by_cases hmid : p ∈ mid
  · exact h₂.freed p hmid hnot
  · rw [(h₂.frame p hmid).live]
    exact h₁.freed p hp hmid

theorem Effect.of_frame (hf : Frame h h' before) (h₂ : Effect h' h'' before after) :
    Effect h h'' before after :=
  hf.effect.trans h₂ fun _ => id

theorem mem_handles (he : e ∈ A) : e.handle ∈ handles A := List.mem_map_of_mem he

theorem handles_append : handles (A ++ B) = handles A ++ handles B := List.map_append

/-- The handle of a cached entry is that of no other one. -/
theorem handle_notMem (hnd : (handles s.entries).Nodup) (hs : s.cached = A ++ e :: B) :
    e.handle ∉ handles (A ++ B) ∧ e.handle ∉ handles s.detached := by
  have hids : (handles (A ++ e :: B ++ s.detached)).Nodup := by
    rw [← hs]
    exact hnd
  have hperm : (handles (A ++ e :: B ++ s.detached)).Perm
      (e.handle :: handles (A ++ B ++ s.detached)) := by
    have hmid : (A ++ e :: B ++ s.detached).Perm (e :: (A ++ B ++ s.detached)) := by
      rw [List.append_assoc, List.append_assoc]
      exact List.perm_middle
    exact hmid.map Entry.handle
  have hnot := (List.nodup_cons.1 (hperm.nodup_iff.1 hids)).1
  rw [handles_append, List.mem_append, not_or] at hnot
  exact hnot

theorem refCount_cached (hs : s.cached = A ++ e :: B) :
    refCount s e.handle = s.held.count e.handle + 1 := by
  unfold refCount
  rw [if_pos (mem_handles (by rw [hs]; simp))]

/-- The entries when one of them has left the cache. -/
theorem entries_retire (s : Model K V) (hs : s.cached = A ++ e :: B) :
    ({ s with cached := A ++ B }.retire e).entries.Perm
      (if e.handle ∈ s.held then s.entries else A ++ B ++ s.detached) := by
  unfold State.retire
  by_cases he : e.handle ∈ s.held
  · rw [if_pos he, if_pos (by exact he)]
    unfold State.entries
    rw [hs, List.append_assoc, List.append_assoc]
    exact List.Perm.append_left A List.perm_middle
  · rw [if_neg he, if_neg (by exact he)]
    exact List.Perm.refl _

theorem refCount_retire (hs : s.cached = A ++ e :: B) {q : Ptr} (hq : q ≠ e.handle) :
    refCount ({ s with cached := A ++ B }.retire e) q = refCount s q := by
  unfold refCount
  rw [State.retire_held, State.retire_cached, hs]
  have hiff : q ∈ handles (A ++ e :: B) ↔ q ∈ handles (A ++ B) := by
    unfold handles
    simp only [List.map_append, List.map_cons, List.mem_append, List.mem_cons]
    tauto
  simp only [hiff]

/-- A client still holds the entry. -/
theorem retire_keep {tab : List Ptr} (hs : s.cached = A ++ e :: B)
    (wf : ({ s with cached := A ++ B }.retire e).WF)
    (I : Inv asSlice h c (handles (A ++ B)) tab s.entries (refCount s))
    (htab : tab.Perm (handles (A ++ B))) (he : e.handle ∈ s.held) :
    ∃ w' u, unref asSlice ⟨h, s.disposed.map Entry.call⟩ c e.handle =
        .ok (w', { c with usage := u }) ∧
      Repr asSlice w' { c with usage := u } ({ s with cached := A ++ B }.retire e) ∧
      Effect h w'.heap (c.owned s) (c.owned ({ s with cached := A ++ B }.retire e)) := by
  have hperm := entries_retire s hs
  have hcnt := refCount_cached (s := s) hs
  obtain ⟨hnot, -⟩ := handle_notMem (List.nodup_cons.1 I.nodup).2 hs
  have hmem : e ∈ s.entries := by
    unfold State.entries
    rw [hs]
    simp
  rw [if_pos he] at hperm
  have hpos := List.count_pos_iff.2 he
  obtain ⟨h', hrun, I', hf⟩ := I.unref_keep (s.disposed.map Entry.call)
    (List.mem_map_of_mem hmem) (by omega)
  have hcached : ({ s with cached := A ++ B }.retire e).cached = A ++ B :=
    State.retire_cached ..
  have hdisposed : ({ s with cached := A ++ B }.retire e).disposed = s.disposed := by
    unfold State.retire
    rw [if_pos (by exact he)]
  refine ⟨_, c.usage, hrun, ⟨?_, wf, by rw [hdisposed]⟩, hf, fun p hp hout => ?_⟩
  · rw [hcached]
    refine ((I'.perm htab hperm.symm).congr fun x hx => ?_)
    by_cases hxe : x.handle = e.handle
    · rw [hxe, Function.update_self, hcnt]
      unfold refCount
      rw [State.retire_held, hcached, if_neg hnot]
      rfl
    · rw [Function.update_of_ne hxe, refCount_retire hs hxe]
  · refine absurd ?_ hout
    unfold LRUCache.owned at hp ⊢
    exact (((hperm.map Entry.handle).cons c.lru).mem_iff).2 hp

/-- Nobody holds the entry. -/
theorem retire_free {tab : List Ptr} (hs : s.cached = A ++ e :: B)
    (wf : ({ s with cached := A ++ B }.retire e).WF)
    (I : Inv asSlice h c (handles (A ++ B)) tab s.entries (refCount s))
    (htab : tab.Perm (handles (A ++ B))) (he : e.handle ∉ s.held) :
    ∃ w' u, unref asSlice ⟨h, s.disposed.map Entry.call⟩ c e.handle =
        .ok (w', { c with usage := u }) ∧
      Repr asSlice w' { c with usage := u } ({ s with cached := A ++ B }.retire e) ∧
      Effect h w'.heap (c.owned s) (c.owned ({ s with cached := A ++ B }.retire e)) := by
  have hcnt := refCount_cached (s := s) hs
  obtain ⟨hnot, hnotd⟩ := handle_notMem (List.nodup_cons.1 I.nodup).2 hs
  rw [List.count_eq_zero.2 he] at hcnt
  have hents : s.entries = A ++ e :: (B ++ s.detached) := by
    unfold State.entries
    rw [hs, List.append_assoc]
    rfl
  rw [hents] at I
  obtain ⟨h', u, hrun, I', hf, hdead⟩ := I.unref_free (s.disposed.map Entry.call) hcnt
    hnot fun hmem => hnot (htab.mem_iff.1 hmem)
  have hnew : ({ s with cached := A ++ B }.retire e) =
      { s with cached := A ++ B, disposed := s.disposed ++ [e] } := by
    unfold State.retire
    rw [if_neg (by exact he)]
  have hcount := fun q => refCount_retire (q := q) hs
  rw [← List.append_assoc] at I'
  refine ⟨_, u, hrun, ⟨?_, wf, ?_⟩, ?_, fun p hp hout => ?_⟩
  · rw [hnew] at hcount ⊢
    refine ((I'.perm htab (List.Perm.refl _)).congr fun x hx => ?_)
    refine hcount _ fun heq => ?_
    have hxe : x.handle ∈ handles (A ++ B) ++ handles s.detached := by
      rw [← handles_append]
      exact mem_handles hx
    rw [heq] at hxe
    exact (List.mem_append.1 hxe).elim hnot hnotd
  · rw [hnew, List.map_append]
    rfl
  · unfold LRUCache.owned
    rw [hents]
    exact hf
  · have hpe : p = e.handle := by
      by_contra hne
      refine hout ?_
      rw [hnew]
      unfold LRUCache.owned handles State.entries at hp ⊢
      rw [hs] at hp
      simp only [List.map_append, List.map_cons, List.mem_append, List.mem_cons] at hp ⊢
      tauto
    rw [hpe]
    exact hdead

/-- The reference of the cache is given back. -/
theorem retire_ok {tab : List Ptr} (hs : s.cached = A ++ e :: B)
    (wf : ({ s with cached := A ++ B }.retire e).WF)
    (I : Inv asSlice h c (handles (A ++ B)) tab s.entries (refCount s))
    (htab : tab.Perm (handles (A ++ B))) :
    ∃ w' u, unref asSlice ⟨h, s.disposed.map Entry.call⟩ c e.handle =
        .ok (w', { c with usage := u }) ∧
      Repr asSlice w' { c with usage := u } ({ s with cached := A ++ B }.retire e) ∧
      Effect h w'.heap (c.owned s) (c.owned ({ s with cached := A ++ B }.retire e)) := by
  by_cases he : e.handle ∈ s.held
  · exact retire_keep hs wf I htab he
  · exact retire_free hs wf I htab he

theorem handles_middle : handles (A ++ e :: B) = handles A ++ e.handle :: handles B := by
  simp [handles]

/-- An entry that is in no longer in the table leaves the list. -/
theorem drop_ok [DecidableEq K] {tab : List Ptr} (hs : s.cached = A ++ e :: B)
    (wf : ({ s with cached := A ++ B }.retire e).WF)
    (I : Inv asSlice h c (handles (A ++ e :: B)) tab s.entries (refCount s))
    (htab : tab.Perm (handles (A ++ B))) :
    ∃ w' u, c.drop asSlice ⟨h, s.disposed.map Entry.call⟩ e.handle =
        .ok (w', { c with usage := u }) ∧
      Repr asSlice w' { c with usage := u } ({ s with cached := A ++ B }.retire e) ∧
      Effect h w'.heap (c.owned s) (c.owned ({ s with cached := A ++ B }.retire e)) := by
  rw [handles_middle] at I
  obtain ⟨h', hremove, I', hf⟩ := I.lruRemove
  rw [← handles_append] at I'
  obtain ⟨w', u, hrun, R, heffect⟩ := retire_ok hs wf I' htab
  refine ⟨w', u, ?_, R, Effect.of_frame hf heffect⟩
  unfold LRUCache.drop
  dsimp only
  rw [hremove, ok_bind]
  exact hrun

theorem mem_cached (wf : s.WF) (he : e ∈ s.entries) (hmem : e.handle ∈ handles s.cached) :
    e ∈ s.cached := by
  obtain ⟨x, hx, hxe⟩ := List.mem_map.1 hmem
  have heq := List.inj_on_of_nodup_map wf.ids (List.mem_append_left _ hx) he hxe
  exact heq ▸ hx

theorem handles_erase (wf : s.WF) (hs : s.cached = A ++ e :: B) :
    (handles s.cached).erase e.handle = handles (A ++ B) := by
  have hnot := (handle_notMem wf.ids hs).1
  rw [handles_append, List.mem_append, not_or] at hnot
  rw [hs, handles_middle, handles_append, List.erase_append_right _ hnot.1, List.erase_cons_head]

/-- More is charged than the capacity, in the 64 bits of `usage_`. -/
def full (capacity : Nat) (n : Nat) : Bool := n % 2 ^ 64 > capacity

theorem head_handles {lru : Ptr} : headOr lru (handles (e :: A)) = e.handle := rfl

/-- What does not change in a cache. -/
def SameCache (c c' : LRUCache) : Prop := c'.capacity = c.capacity ∧ c'.lru = c.lru

theorem owned_same {c' : LRUCache} (h : SameCache c c') (s : Model K V) :
    c'.owned s = c.owned s := by
  unfold LRUCache.owned
  rw [h.2]

theorem retire_owned (hs : s.cached = A ++ e :: B) :
    ∀ p ∈ c.owned ({ s with cached := A ++ B }.retire e), p ∈ c.owned s :=
  List.cons_subset_cons _ (List.map_subset _ (State.retire_subset hs))

/-! ## The operations -/

theorem held_count (hp : p ∈ s.held) (q : Ptr) :
    s.held.count q = (s.held.erase p).count q + if q = p then 1 else 0 := by
  have hpos := List.count_pos_iff.2 hp
  by_cases hq : q = p
  · rw [hq, if_pos rfl, List.count_erase_self]
    omega
  · rw [if_neg hq, List.count_erase_of_ne hq, Nat.add_zero]

/-- Other references are left. -/
theorem Repr.release_keep (R : Repr asSlice w c s) (hp : p ∈ s.held)
    (hs : s.release p = { s with held := s.held.erase p }) (hcnt : 1 < refCount s p) :
    ∃ w' u, c.release asSlice w p = .ok (w', { c with usage := u }) ∧
      Repr asSlice w' { c with usage := u } (s.release p) ∧
      Effect w.heap w'.heap (c.owned s) (c.owned (s.release p)) := by
  have wf' := R.wf.release p
  have hw : w = ⟨w.heap, s.disposed.map Entry.call⟩ := by
    rw [← R.calls]
  obtain ⟨h', hrun, I', hf⟩ :=
    R.inv.unref_keep (s.disposed.map Entry.call) (R.wf.held p hp) hcnt
  unfold LRUCache.release
  rw [hw]
  rw [hs] at wf' ⊢
  refine ⟨_, c.usage, hrun, ⟨I'.congr fun x _ => ?_, wf', rfl⟩, hf.effect⟩
  have hcount := held_count hp x.handle
  unfold refCount
  dsimp only
  by_cases hx : x.handle = p
  · rw [hx, if_pos rfl] at hcount
    rw [hx, Function.update_self, hcount]
    omega
  · rw [if_neg hx, Nat.add_zero] at hcount
    rw [Function.update_of_ne hx, hcount]

/-- The entry goes with its last handle. -/
theorem Repr.release_free (R : Repr asSlice w c s) {D₁ D₂ : List (Entry K V)}
    (hD : s.detached = D₁ ++ e :: D₂) (hp : e.handle ∈ s.held)
    (hlast : e.handle ∉ s.held.erase e.handle) :
    ∃ w' u, c.release asSlice w e.handle = .ok (w', { c with usage := u }) ∧
      Repr asSlice w' { c with usage := u } (s.release e.handle) ∧
      Effect w.heap w'.heap (c.owned s) (c.owned (s.release e.handle)) := by
  have wf' := R.wf.release e.handle
  have hw : w = ⟨w.heap, s.disposed.map Entry.call⟩ := by
    rw [← R.calls]
  have hents : s.entries = (s.cached ++ D₁) ++ e :: D₂ := by
    unfold State.entries
    rw [hD, List.append_assoc]
  have hnot : ∀ x ∈ s.cached ++ D₁ ++ D₂, x.handle ≠ e.handle := R.wf.handle_ne hents
  have hring : e.handle ∉ handles s.cached := by
    intro hin
    obtain ⟨x, hx, hxe⟩ := List.mem_map.1 hin
    exact hnot x (by simp [hx]) hxe
  have hs' : s.release e.handle = { s with
      held := s.held.erase e.handle
      detached := D₁ ++ D₂
      disposed := s.disposed ++ [e] } := R.wf.release_of_detached hD hlast
  have hcnt : refCount s e.handle = 1 := by
    unfold refCount
    rw [held_count hp, if_pos rfl, List.count_eq_zero.2 hlast, if_neg hring]
  have I := R.inv
  rw [hents] at I
  obtain ⟨h', u, hrun, I', hf, hdead⟩ :=
    I.unref_free (s.disposed.map Entry.call) hcnt hring hring
  unfold LRUCache.release
  rw [hw]
  rw [hs'] at wf' ⊢
  refine ⟨_, u, hrun, ⟨?_, wf', ?_⟩, ?_, fun q hq hout => ?_⟩
  · rw [List.append_assoc] at I'
    refine I'.congr fun x hx => ?_
    have hx' := hnot x (by rw [List.append_assoc]; exact hx)
    unfold refCount
    rw [held_count hp, if_neg hx']
    rfl
  · rw [List.map_append]
    rfl
  · unfold LRUCache.owned
    rw [hents]
    exact hf
  · have hqe : q = e.handle := by
      by_contra hne
      refine hout ?_
      unfold LRUCache.owned at hq ⊢
      rw [hents] at hq
      unfold handles at hq ⊢
      unfold State.entries
      simp only [List.map_append, List.map_cons, List.mem_append, List.mem_cons] at hq ⊢
      tauto
    rw [hqe]
    exact hdead

theorem Repr.release (R : Repr asSlice w c s) (hp : p ∈ s.held) :
    ∃ w' u, c.release asSlice w p = .ok (w', { c with usage := u }) ∧
      Repr asSlice w' { c with usage := u } (s.release p) ∧
      Effect w.heap w'.heap (c.owned s) (c.owned (s.release p)) := by
  have hcount := held_count hp p
  rw [if_pos rfl] at hcount
  by_cases hagain : p ∈ s.held.erase p
  · refine R.release_keep hp (State.release_again hagain) ?_
    have hpos := List.count_pos_iff.2 hagain
    unfold refCount
    omega
  obtain ⟨e, he, rfl⟩ := List.mem_map.1 (R.wf.held p hp)
  rw [List.count_eq_zero.2 hagain] at hcount
  cases List.mem_append.1 he with
  | inl hc =>
    obtain ⟨A, B, hs⟩ := List.append_of_mem hc
    refine R.release_keep hp (R.wf.release_of_cached hc) ?_
    have hone := refCount_cached hs
    have hcount : s.held.count e.handle = 0 + 1 := hcount
    show 1 < refCount s e.handle
    omega
  | inr hd =>
    obtain ⟨D₁, D₂, hD⟩ := List.append_of_mem hd
    exact R.release_free hD hp hagain

variable [DecidableEq K] {key : K} {hash : Nat}

/-- What was found in the table is what the model finds. -/
theorem found_cases (wf : s.WF) (hf : Found s.entries (handles s.cached) key hash p) :
    (∃ A e B, s.cached = A ++ e :: B ∧ e.handle = p ∧ s.find (key, hash) = some e ∧
      s.without (key, hash) = { s with cached := A ++ B }) ∨
    p = 0 ∧ s.find (key, hash) = none := by
  rcases hf with ⟨e, he, rfl, hmem, rfl, rfl⟩ | ⟨rfl, hnone⟩
  · have he' := mem_cached wf he hmem
    obtain ⟨A, B, hs⟩ := List.append_of_mem he'
    exact .inl ⟨A, e, B, hs, rfl, wf.find_iff.2 ⟨he', rfl⟩, wf.without_cached hs⟩
  · refine .inr ⟨rfl, ?_⟩
    rw [Option.eq_none_iff_forall_ne_some]
    intro e he
    obtain ⟨hmem, hkey⟩ := wf.find_iff.1 he
    obtain ⟨rfl, rfl⟩ := Prod.mk.inj hkey
    exact hnone e (List.mem_append_left _ hmem) (mem_handles hmem) ⟨rfl, rfl⟩

/-- The entry that is found for the key of a cached one is this one. -/
theorem found_self (wf : s.WF)
    (hf : Found s.entries (handles s.cached) e.key e.hash p) (he : e ∈ s.cached) :
    p = e.handle := by
  have hself : s.find (e.key, e.hash) = some e := wf.find_iff.2 ⟨he, rfl⟩
  rcases found_cases wf hf with ⟨_, x, _, _, rfl, hfind, _⟩ | ⟨_, hfind⟩
  · rw [hself] at hfind
    rw [Option.some.inj hfind]
  · rw [hself] at hfind
    cases hfind

theorem Repr.lookup (R : Repr asSlice w c s) (key : K) (hash : Nat)
    (hcount : ∀ p ∈ handles s.cached, s.held.count p + 2 < 2 ^ 32) :
    ∃ w', c.lookup asSlice w key hash =
        .ok (((s.find (key, hash)).map Entry.handle).getD 0, w', c) ∧
      Repr asSlice w' c (s.lookup (key, hash)) ∧
      Effect w.heap w'.heap (c.owned s) (c.owned (s.lookup (key, hash))) := by
  obtain ⟨p, htable, hf⟩ := R.inv.tableLookup key hash
  have wf' := R.wf.lookup (key, hash)
  unfold LRUCache.lookup
  rw [htable, ok_bind]
  rcases found_cases R.wf hf with ⟨A, e, B, hs, rfl, hfind, hwithout⟩ | ⟨rfl, hfind⟩
  · have hmem : e ∈ s.entries := List.mem_append_left _ (by rw [hs]; simp)
    have hcached : e.handle ∈ handles s.cached := mem_handles (by rw [hs]; simp)
    have st := R.inv.stored e hmem
    have hcnt := refCount_cached (s := s) hs
    have hlt := hcount _ hcached
    have hs' : s.lookup (key, hash) =
        { s with cached := A ++ B ++ [e], held := e.handle :: s.held } := by
      unfold State.lookup
      rw [hfind, hwithout]
      rfl
    obtain ⟨hset, I₁, hf₁⟩ := R.inv.setRefs (List.mem_map_of_mem hmem) (refCount s e.handle + 1)
    rw [hs, handles_middle] at I₁
    obtain ⟨h₂, hremove, I₂, hf₂⟩ := I₁.lruRemove
    rw [← handles_append] at I₂
    obtain ⟨h₃, happend, I₃, hf₃⟩ := I₂.lruAppend (List.mem_map_of_mem hmem)
      (handle_notMem R.wf.ids hs).1
    have hperm : (A ++ B ++ [e]).Perm s.cached := by
      rw [hs]
      exact State.perm_last A B e
    have htab : (handles A ++ e.handle :: handles B).Perm (handles (A ++ B ++ [e])) := by
      rw [← handles_middle, ← hs]
      exact (hperm.map Entry.handle).symm
    have hents : s.entries.Perm (A ++ B ++ [e] ++ s.detached) := (hperm.append_right _).symm
    have hmod : (s.held.count e.handle + 1 + 1) % 2 ^ 32 = refCount s e.handle + 1 := by
      rw [hcnt]
      exact Nat.mod_eq_of_lt hlt
    rw [hfind, if_pos st.nonzero, Heap.load_ok st.live, ok_bind, R.inv.refs e hmem, hcnt, hmod,
      hset, ok_bind, hremove, ok_bind, happend, ok_bind]
    rw [hs'] at wf' ⊢
    refine ⟨_, rfl, ⟨?_, wf', R.calls⟩, ⟨?_, fun p hp hout => absurd ?_ hout⟩⟩
    · have I₄ := (I₃.perm htab hents)
      rw [show handles (A ++ B) ++ [e.handle] = handles (A ++ B ++ [e]) by simp [handles]] at I₄
      refine I₄.congr fun x hx => ?_
      have hiff : x.handle ∈ handles (A ++ B ++ [e]) ↔ x.handle ∈ handles s.cached :=
        (hperm.map Entry.handle).mem_iff
      by_cases hxe : x.handle = e.handle
      · rw [hxe, Function.update_self, hcnt]
        unfold refCount
        dsimp only
        rw [← hxe, if_pos (hiff.2 (hxe ▸ hcached)), hxe, List.count_cons_self]
      · rw [Function.update_of_ne hxe]
        unfold refCount
        dsimp only
        rw [List.count_cons_of_ne (Ne.symm hxe)]
        simp only [hiff]
    · exact (hf₁.trans hf₂ fun _ => id).trans hf₃ fun _ => id
    · exact (((hents.map Entry.handle).cons c.lru).mem_iff).1 hp
  · have hs' : s.lookup (key, hash) = s := by
      unfold State.lookup
      rw [hfind]
    rw [if_neg (not_not.2 rfl), hfind, hs']
    exact ⟨w, rfl, R, (Frame.refl _ _).effect⟩

theorem Repr.erase (R : Repr asSlice w c s) (key : K) (hash : Nat) :
    ∃ w' u t, c.erase asSlice w key hash = .ok (w', { c with usage := u, table := t }) ∧
      Repr asSlice w' { c with usage := u, table := t } (s.remove (key, hash)) ∧
      Effect w.heap w'.heap (c.owned s) (c.owned (s.remove (key, hash))) := by
  obtain ⟨p, h', t', htable, hf, I', hframe⟩ := R.inv.tableRemove key hash
  have wf' := R.wf.remove (key, hash)
  unfold LRUCache.erase
  rw [htable, ok_bind]
  dsimp only
  rw [R.calls]
  rcases found_cases R.wf hf with ⟨A, e, B, hs, rfl, hfind, hwithout⟩ | ⟨rfl, hfind⟩
  · have hs' : s.remove (key, hash) = { s with cached := A ++ B }.retire e := by
      unfold State.remove
      rw [hfind, hwithout]
    have hmem : e ∈ s.entries := List.mem_append_left _ (by rw [hs]; simp)
    rw [handles_erase R.wf hs] at I'
    rw [hs'] at wf' ⊢
    rw [if_pos (R.inv.stored e hmem).nonzero]
    have I'' : Inv asSlice h' { c with table := t' } (handles (A ++ e :: B)) (handles (A ++ B))
        s.entries (refCount s) := by
      rw [← hs]
      exact I'
    obtain ⟨w', u, hrun, R', heffect⟩ := drop_ok hs wf' I'' (List.Perm.refl _)
    exact ⟨w', u, t', hrun, R', Effect.of_frame hframe heffect⟩
  · have hs' : s.remove (key, hash) = s := by
      unfold State.remove
      rw [hfind]
    have hnot : (0 : Ptr) ∉ handles s.cached := by
      intro hmem
      exact R.inv.table.ne_zero hmem rfl
    rw [List.erase_of_not_mem hnot] at I'
    rw [if_neg (not_not.2 rfl), hs']
    exact ⟨_, c.usage, t', rfl, ⟨I', R.wf, rfl⟩, hframe.effect⟩

theorem Repr.evict : ∀ {l : List (Entry K V)} (fuel : Nat) {w : World K V} {c : LRUCache}
    {s : Model K V}, Repr asSlice w c s → s.cached = l → l.length < fuel →
    ∃ w' c', c.evictLoop asSlice fuel w = .ok (w', c') ∧ SameCache c c' ∧
      Repr asSlice w' c' (State.evict (full c.capacity) l s) ∧
      Effect w.heap w'.heap (c.owned s) (c.owned (State.evict (full c.capacity) l s))
  | _, 0, _, _, _, _, _, hf => absurd hf (Nat.not_lt_zero _)
  | [], fuel + 1, w, c, s, R, hs, _ => by
    have hnext := R.inv.circular.next_head
    rw [hs] at hnext
    have hs' : State.evict (full c.capacity) [] s = s := by
      unfold State.evict
      rw [← hs]
    unfold LRUCache.evictLoop
    rw [Heap.load_ok R.inv.lru, ok_bind, hnext, if_neg fun hc => hc.2 rfl, hs']
    exact ⟨w, c, rfl, ⟨rfl, rfl⟩, R, (Frame.refl _ _).effect⟩
  | e :: l, fuel + 1, w, c, s, R, hs, hf => by
    have hs₀ : { s with cached := e :: l } = s := by rw [← hs]
    have hnext := R.inv.circular.next_head
    rw [hs, head_handles] at hnext
    have hmem : e ∈ s.entries := List.mem_append_left _ (by rw [hs]; simp)
    have hlru : e.handle ≠ c.lru := by
      intro heq
      exact (List.nodup_cons.1 R.inv.nodup).1 (heq ▸ List.mem_map_of_mem hmem)
    have husage : (c.usage > c.capacity) ↔ full c.capacity s.total = true := by
      unfold full State.total
      rw [R.inv.usage, decide_eq_true_eq]
      rfl
    unfold LRUCache.evictLoop State.evict
    rw [Heap.load_ok R.inv.lru, ok_bind, hnext, hs₀]
    by_cases hfull : full c.capacity s.total = true
    · rw [if_pos hfull, if_pos ⟨husage.2 hfull, hlru⟩]
      have I := R.inv
      rw [hs] at I
      obtain ⟨h₁, hremove, I₁, hf₁⟩ := Inv.lruRemove (A := []) I
      have st := I₁.stored e hmem
      obtain ⟨p, h₂, t', htable, hfound, I₂, hf₂⟩ := I₁.tableRemove e.key e.hash
      have hp : p = e.handle := by
        rw [← hs] at hfound
        exact found_self R.wf hfound (by rw [hs]; simp)
      rw [hp] at htable I₂
      have htab : (handles (e :: l)).erase e.handle = handles l := List.erase_cons_head ..
      rw [htab] at I₂
      have hs' : s.cached = [] ++ e :: l := hs
      have wf' := R.wf.retire hs'
      obtain ⟨w₃, u, hrun, R₃, heffect⟩ := retire_ok hs' wf' I₂ (List.Perm.refl _)
      obtain ⟨w', c', hloop, hsame, R', heffect'⟩ := R₃.evict fuel
        (State.retire_cached ..) (by simpa using hf)
      refine ⟨w', c', ?_, hsame, R', ?_⟩
      · rw [hremove, ok_bind]
        unfold Heap.key
        rw [Heap.load_ok st.live, ok_bind, Heap.load_ok st.live, ok_bind, st.keyOf, st.hash,
          htable, ok_bind]
        dsimp only
        rw [R.calls, hrun, ok_bind]
        exact hloop
      · refine (Effect.of_frame (hf₁.trans hf₂ fun _ => id) heffect).trans heffect' ?_
        exact retire_owned hs'
    · rw [if_neg hfull, if_neg fun hc => hfull (husage.1 hc.1)]
      exact ⟨w, c, rfl, ⟨rfl, rfl⟩, R, (Frame.refl _ _).effect⟩

theorem put_none (hfind : s.find (e.key, e.hash) = none) :
    s.put e = { s with cached := s.cached ++ [e], held := e.handle :: s.held } := by
  have hs : s.remove (Cacheable.key e) = s := by
    unfold State.remove
    rw [show (Cacheable.key e : K × Nat) = (e.key, e.hash) from rfl, hfind]
  unfold State.put
  rw [hs]
  rfl

/-- The new entry comes into the cache before that of its key leaves it. -/
theorem put_some {x : Entry K V} (hfind : s.find (e.key, e.hash) = some x)
    (hwithout : s.without (e.key, e.hash) = { s with cached := A ++ B })
    (hne : x.handle ≠ e.handle) :
    s.put e = { s with
      cached := A ++ (B ++ [e])
      held := e.handle :: s.held }.retire x := by
  have hs : s.remove (Cacheable.key e) = { s with cached := A ++ B }.retire x := by
    unfold State.remove
    rw [show (Cacheable.key e : K × Nat) = (e.key, e.hash) from rfl, hfind, hwithout]
  unfold State.put
  rw [hs]
  unfold State.retire
  by_cases hx : x.handle ∈ s.held
  · rw [if_pos (by exact hx), if_pos (by exact List.mem_cons_of_mem _ hx), List.append_assoc]
    rfl
  · rw [if_neg (by exact hx), if_neg (by exact fun hmem => (List.mem_cons.1 hmem).elim hne hx)]
    rw [List.append_assoc]
    rfl

theorem Repr.put (R : Repr asSlice w c s) (hdead : w.heap.live e.handle = false)
    (hzero : e.handle ≠ 0) (hsize : e.charge < 2 ^ 64) (hroom : s.cached.length < 2 ^ 31) :
    ∃ w' c', c.put asSlice w e.handle e.key e.hash e.value e.charge e.deleter = .ok (w', c') ∧
      SameCache c c' ∧ Repr asSlice w' c' (s.put e) ∧
      Effect w.heap w'.heap (c.lru :: handles (e :: s.entries)) (c.owned (s.put e)) := by
  have hnew : e.handle ∉ handles s.entries := by
    intro hmem
    rw [R.inv.live (List.mem_cons_of_mem _ hmem)] at hdead
    cases hdead
  have hnewc : e.handle ∉ handles s.cached :=
    fun hmem => hnew (by rw [State.entries, handles_append]; exact List.mem_append_left _ hmem)
  have hnotheld : e.handle ∉ s.held := fun hmem => hnew (R.wf.held _ hmem)
  have wf' := R.wf.put hnew
  obtain ⟨h₁, happend, I₁, hf₁⟩ := R.inv.append_new hdead hzero hsize
  obtain ⟨p, h₂, t', htable, hfound, I₂, hf₂⟩ := I₁.tableInsert List.mem_cons_self hnewc
    (by rw [handles, List.length_map]; exact hroom)
  -- what was there for the key
  have hfound' : Found s.entries (handles s.cached) e.key e.hash p := by
    rcases hfound with ⟨x, hx, hxp, hmem, hkey⟩ | ⟨hp, hnone⟩
    · rcases List.mem_cons.1 hx with rfl | hx
      · exact absurd (hxp ▸ hmem) hnewc
      · exact .inl ⟨x, hx, hxp, hmem, hkey⟩
    · exact .inr ⟨hp, fun x hx => hnone x (List.mem_cons_of_mem _ hx)⟩
  -- the state with the new entry and that of its key
  have hents : (e :: s.entries).Perm (s.cached ++ [e] ++ s.detached) := by
    unfold State.entries
    rw [List.append_assoc]
    exact List.perm_middle.symm
  have howned : ∀ q, q ∈ c.lru :: handles (e :: s.entries) ↔
      q ∈ c.lru :: handles (s.cached ++ [e] ++ s.detached) :=
    fun q => ((hents.map Entry.handle).cons c.lru).mem_iff
  have I₃ : Inv asSlice h₂ { c with usage := (c.usage + e.charge) % 2 ^ 64, table := t' }
      (handles (s.cached ++ [e])) (e.handle :: (handles s.cached).erase p)
      (s.cached ++ [e] ++ s.detached)
      (refCount { s with cached := s.cached ++ [e], held := e.handle :: s.held }) := by
    have I := I₂.perm (List.Perm.refl _) hents
    rw [handles_append]
    refine I.congr fun x hx => ?_
    unfold refCount
    dsimp only
    by_cases hxe : x.handle = e.handle
    · rw [hxe, Function.update_self, List.count_cons_self, List.count_eq_zero.2 hnotheld,
        if_pos (mem_handles (by simp))]
    · rw [Function.update_of_ne hxe, List.count_cons_of_ne (Ne.symm hxe), handles_append]
      have hiff : x.handle ∈ handles s.cached ++ handles [e] ↔ x.handle ∈ handles s.cached := by
        rw [List.mem_append, or_iff_left_iff_imp]
        intro hmem
        exact absurd (List.mem_singleton.1 hmem) hxe
      simp only [hiff]
  have hframe : Frame w.heap h₂ (c.lru :: handles (e :: s.entries)) := hf₁.trans hf₂ fun _ => id
  unfold LRUCache.put
  rw [happend, ok_bind]
  dsimp only
  rw [htable, ok_bind]
  dsimp only
  rw [R.calls]
  rcases found_cases R.wf hfound' with ⟨A, x, B, hs, rfl, hfind, hwithout⟩ | ⟨rfl, hfind⟩
  · have hmem : x ∈ s.entries := List.mem_append_left _ (by rw [hs]; simp)
    have hne : x.handle ≠ e.handle := fun heq => hnew (heq ▸ mem_handles hmem)
    have hs₁ : s.cached ++ [e] = A ++ x :: (B ++ [e]) := by
      rw [hs, List.append_assoc]
      rfl
    have htab : (e.handle :: handles (A ++ B)).Perm (handles (A ++ (B ++ [e]))) := by
      rw [← List.append_assoc]
      exact ((List.perm_append_singleton e (A ++ B)).map Entry.handle).symm
    rw [put_some hfind hwithout hne] at wf' ⊢
    rw [handles_erase R.wf hs, hs₁] at I₃
    rw [hs₁] at howned
    obtain ⟨w', u, hrun, R', heffect⟩ := drop_ok
      (s := { s with cached := A ++ x :: (B ++ [e]), held := e.handle :: s.held }) rfl wf' I₃ htab
    rw [if_pos (R.inv.stored x hmem).nonzero]
    refine ⟨w', _, hrun, ⟨rfl, rfl⟩, R', Effect.of_frame hframe ⟨fun q hq => ?_, fun q hq => ?_⟩⟩
    · exact heffect.frame q fun hq' => hq ((howned q).2 hq')
    · exact heffect.freed q ((howned q).1 hq)
  · have hnot : (0 : Ptr) ∉ handles s.cached := fun hmem => R.inv.table.ne_zero hmem rfl
    rw [put_none hfind] at wf' ⊢
    rw [List.erase_of_not_mem hnot] at I₃
    have htab : (e.handle :: handles s.cached).Perm (handles (s.cached ++ [e])) :=
      ((List.perm_append_singleton e s.cached).map Entry.handle).symm
    rw [if_neg (not_not.2 rfl)]
    refine ⟨_, _, rfl, ⟨rfl, rfl⟩, ⟨I₃.perm htab (List.Perm.refl _), wf', rfl⟩, hframe,
      fun q hq hout => absurd ((howned q).1 hq) hout⟩

theorem Repr.insert (R : Repr asSlice w c s) (hdead : w.heap.live e.handle = false)
    (hzero : e.handle ≠ 0) (hsize : e.charge < 2 ^ 64) (hroom : s.cached.length < 2 ^ 31) :
    ∃ w' c', c.insert asSlice w e.handle e.key e.hash e.value e.charge e.deleter = .ok (w', c') ∧
      SameCache c c' ∧ Repr asSlice w' c' (s.insert (full c.capacity) e) ∧
      Effect w.heap w'.heap (c.lru :: handles (e :: s.entries))
        (c.owned (s.insert (full c.capacity) e)) := by
  obtain ⟨w₁, c₁, hput, hsame, R₁, heffect⟩ := R.put hdead hzero hsize hroom
  obtain ⟨w', c', hloop, hsame', R', heffect'⟩ := R₁.evict (c₁.table.elems + 1) rfl
    (by rw [R₁.inv.table.elems_eq, handles, List.length_map]; exact Nat.lt_succ_self _)
  rw [hsame.1] at R' heffect'
  rw [owned_same hsame, owned_same hsame] at heffect'
  refine ⟨w', c', ?_, ⟨hsame'.1.trans hsame.1, hsame'.2.trans hsame.2⟩, R',
    heffect.trans heffect'
      (List.cons_subset_cons _ (List.map_subset _ (R.wf.put_subset e)))⟩
  unfold LRUCache.insert
  rw [hput, ok_bind]
  exact hloop

end

end Leveldb.Cache
