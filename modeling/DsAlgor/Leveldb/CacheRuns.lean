import DsAlgor.Leveldb.CacheModel

/-!
# Runs of the cache

The cache is locked during an operation, so what the clients do together is a sequence of
operations. In any such sequence in which handles are released only by those who hold them, the
cache does what the pinned cache does (`cache_refines`).
-/

namespace Leveldb.Cache

open PinnedCache
open Circular (headOr)
open Outcome (ok_bind)

section
variable {K V : Type} [DecidableEq K] {asSlice : V → K} {w : World K V} {c : LRUCache}
  {s : Model K V} {e : Entry K V} {A B : List (Entry K V)}

omit [DecidableEq K] in
theorem head_nil {lru : Ptr} : headOr lru (handles ([] : List (Entry K V))) = lru := rfl

/-! ## `Prune` -/

/-- The entries of `Y` that are not held leave the cache. -/
def pruned (s : Model K V) (X Y : List (Entry K V)) : Model K V :=
  { s with
    cached := X ++ Y.filter fun e => Cacheable.handle e ∈ s.held
    disposed := s.disposed ++ Y.filter fun e => Cacheable.handle e ∉ s.held }

theorem Repr.pruneLoop : ∀ {Y X : List (Entry K V)} (fuel : Nat) {w : World K V} {c : LRUCache}
    {s : Model K V}, Repr asSlice w c s → s.cached = X ++ Y → Y.length < fuel →
    ∃ w' c', LRUCache.pruneLoop asSlice fuel (headOr c.lru (handles Y)) c w = .ok (w', c') ∧
      SameCache c c' ∧ Repr asSlice w' c' (pruned s X Y) ∧
      Effect w.heap w'.heap (c.owned s) (c.owned (pruned s X Y))
  | _, _, 0, _, _, _, _, _, hf => absurd hf (Nat.not_lt_zero _)
  | [], X, fuel + 1, w, c, s, R, hs, _ => by
    have hs' : pruned s X [] = s := by
      unfold pruned
      rw [List.filter_nil, List.filter_nil, List.append_nil, List.append_nil]
      rw [List.append_nil] at hs
      rw [← hs]
    unfold LRUCache.pruneLoop
    rw [head_nil, if_neg (not_not.2 rfl), hs']
    exact ⟨w, c, rfl, ⟨rfl, rfl⟩, R, (Frame.refl _ _).effect⟩
  | e :: Y, X, fuel + 1, w, c, s, R, hs, hf => by
    have hmem : e ∈ s.entries := List.mem_append_left _ (by rw [hs]; simp)
    have st := R.inv.stored e hmem
    have hcnt := refCount_cached (s := s) hs
    have hlru : e.handle ≠ c.lru := by
      intro heq
      exact (List.nodup_cons.1 R.inv.nodup).1 (heq ▸ List.mem_map_of_mem hmem)
    have hnext : w.heap.next e.handle = headOr c.lru (handles Y) := by
      have hc := R.inv.circular
      rw [hs, handles_middle] at hc
      exact hc.next_mid
    unfold LRUCache.pruneLoop
    rw [head_handles, if_pos hlru, Heap.load_ok st.live, ok_bind, Heap.load_ok st.live, ok_bind,
      R.inv.refs e hmem, hcnt, hnext]
    by_cases he : e.handle ∈ s.held
    · have hpos := List.count_pos_iff.2 he
      have hs' : pruned s X (e :: Y) = pruned s (X ++ [e]) Y := by
        unfold pruned
        rw [List.filter_cons_of_pos (by simpa [Cacheable.handle] using he),
          List.filter_cons_of_neg (by simpa [Cacheable.handle] using he), List.append_assoc]
        rfl
      rw [if_neg (by omega), hs']
      exact R.pruneLoop fuel (by rw [hs, List.append_assoc]; rfl) (by simpa using hf)
    · obtain ⟨p, h₁, t', htable, hfound, I₁, hf₁⟩ := R.inv.tableRemove e.key e.hash
      have hp : p = e.handle := found_self R.wf hfound (by rw [hs]; simp)
      rw [hp, handles_erase R.wf hs, hs] at I₁
      rw [hp] at htable
      obtain ⟨w₂, u, hrun, R₂, heffect⟩ := drop_ok hs (R.wf.retire hs) I₁ (List.Perm.refl _)
      have hretire : { s with cached := X ++ Y }.retire e =
          { s with cached := X ++ Y, disposed := s.disposed ++ [e] } := by
        unfold State.retire
        rw [if_neg (by exact he)]
      have hs' : pruned ({ s with cached := X ++ Y }.retire e) X Y = pruned s X (e :: Y) := by
        rw [hretire]
        unfold pruned
        rw [List.filter_cons_of_neg (by simpa [Cacheable.handle] using he),
          List.filter_cons_of_pos (by simpa [Cacheable.handle] using he), List.append_assoc]
        rfl
      obtain ⟨w', c', hloop, hsame, R', heffect'⟩ := R₂.pruneLoop fuel
        (State.retire_cached ..) (by simpa using hf)
      rw [hs'] at R' heffect'
      refine ⟨w', c', ?_, hsame, R', ?_⟩
      · unfold Heap.key
        rw [List.count_eq_zero.2 he, if_pos rfl, Heap.load_ok st.live, ok_bind,
          Heap.load_ok st.live, ok_bind, st.keyOf, st.hash, htable, ok_bind]
        dsimp only
        rw [R.calls, hrun, ok_bind]
        exact hloop
      · exact (Effect.of_frame hf₁ heffect).trans heffect' (retire_owned hs)

theorem Repr.prune (R : Repr asSlice w c s) :
    ∃ w' c', c.prune asSlice w = .ok (w', c') ∧ SameCache c c' ∧ Repr asSlice w' c' s.prune ∧
      Effect w.heap w'.heap (c.owned s) (c.owned s.prune) := by
  have hnext := R.inv.circular.next_head
  unfold LRUCache.prune
  rw [Heap.load_ok R.inv.lru, ok_bind, hnext]
  refine R.pruneLoop (X := []) (c.table.elems + 1) rfl ?_
  rw [R.inv.table.elems_eq, handles, List.length_map]
  exact Nat.lt_succ_self _

/-! ## The destructor -/

omit [DecidableEq K] in
/-- Nothing but the entries `Y` is freed. -/
theorem destroyLoop_ok (asSlice : V → K) : ∀ {Y : List (Entry K V)} (fuel : Nat) {h : Heap K V}
    {c : LRUCache} (calls : List (Nat × K × V)), (∀ e ∈ Y, Stored h e ∧ h.refs e.handle = 1) →
    (∀ A e B, Y = A ++ e :: B → h.next e.handle = headOr c.lru (handles B)) →
    (c.lru :: handles Y).Nodup → Y.length < fuel →
    ∃ h' c', LRUCache.destroyLoop asSlice fuel (headOr c.lru (handles Y)) c ⟨h, calls⟩ =
        .ok (⟨h', calls ++ Y.map Entry.call⟩, c') ∧
      Frame h h' (handles Y) ∧ ∀ e ∈ Y, h'.live e.handle = false
  | _, 0, _, _, _, _, _, _, hf => absurd hf (Nat.not_lt_zero _)
  | [], fuel + 1, h, c, calls, _, _, _, _ => by
    unfold LRUCache.destroyLoop
    rw [head_nil, if_neg (not_not.2 rfl)]
    refine ⟨h, c, ?_, Frame.refl _ _, by simp⟩
    rw [List.map_nil, List.append_nil]
    rfl
  | e :: Y, fuel + 1, h, c, calls, hY, hnext, hnd, hf => by
    obtain ⟨st, hrefs⟩ := hY e List.mem_cons_self
    have hlru : e.handle ≠ c.lru := by
      intro heq
      exact (List.nodup_cons.1 hnd).1 (heq ▸ List.mem_cons_self)
    have hne : ∀ x ∈ Y, x.handle ≠ e.handle := by
      intro x hx heq
      have hnd' := (List.nodup_cons.1 hnd).2
      exact (List.nodup_cons.1 hnd').1 (heq ▸ mem_handles hx)
    obtain ⟨h', c', hloop, hframe, hdead⟩ := destroyLoop_ok asSlice fuel
      (h := { h with
        refs := Function.update h.refs e.handle 0
        live := Function.update h.live e.handle false })
      (c := { c with usage := (c.usage + 2 ^ 64 - e.charge) % 2 ^ 64 })
      (calls ++ [e.call]) (Y := Y)
      (fun x hx => by
        obtain ⟨sx, hx'⟩ := hY x (List.mem_cons_of_mem _ hx)
        exact ⟨{ sx with live := (Function.update_of_ne (hne x hx) ..).trans sx.live },
          (Function.update_of_ne (hne x hx) ..).trans hx'⟩)
      (fun A x B hx => hnext (e :: A) x B (by rw [hx]; rfl))
      (hnd.sublist (List.Sublist.cons_cons _ (List.sublist_cons_self _ _))) (by simpa using hf)
    refine ⟨h', c', ?_, fun q hq => ?_, fun x hx => ?_⟩
    · unfold LRUCache.destroyLoop
      rw [head_handles, if_pos hlru, Heap.load_ok st.live, ok_bind, Heap.load_ok st.live, ok_bind,
        if_pos hrefs, st.unref c calls hrefs, ok_bind, hnext [] e Y rfl, List.map_cons,
        List.append_cons calls e.call (Y.map Entry.call)]
      exact hloop
    · have hqe : q ≠ e.handle := fun heq => hq (heq ▸ List.mem_cons_self)
      refine Same.trans ?_ (hframe q fun hmem => hq (List.mem_cons_of_mem _ hmem))
      exact ⟨Function.update_of_ne hqe .., rfl, rfl, rfl, rfl, rfl, rfl, rfl,
        Function.update_of_ne hqe .., rfl⟩
    · rcases List.mem_cons.1 hx with rfl | hx
      · have hnot : x.handle ∉ handles Y := by
          intro hmem
          obtain ⟨y, hy, hye⟩ := List.mem_map.1 hmem
          exact hne y hy hye
        rw [(hframe _ hnot).live]
        exact Function.update_self ..
      · exact hdead x hx

omit [DecidableEq K] in
/-- When no handle is held, the destructor disposes of all entries. -/
theorem Repr.destroy (R : Repr asSlice w c s) (hheld : s.held = []) :
    ∃ w' c', c.destroy asSlice w = .ok (w', c') ∧
      w'.calls = w.calls ++ s.cached.map Entry.call ∧ s.detached = [] ∧
      Frame w.heap w'.heap (handles s.cached) ∧ ∀ e ∈ s.cached, w'.heap.live e.handle = false := by
  have hdetached : s.detached = [] := by
    rw [List.eq_nil_iff_forall_not_mem]
    intro e he
    have := R.wf.pinned e he
    rw [hheld] at this
    cases this
  have hmem : ∀ e ∈ s.cached, e ∈ s.entries := fun e he => List.mem_append_left _ he
  have hnext := R.inv.circular.next_head
  obtain ⟨h', c', hloop, hframe, hdead⟩ := destroyLoop_ok asSlice (Y := s.cached)
    (c.table.elems + 1) (h := w.heap) (c := c) w.calls
    (fun e he => by
      obtain ⟨A, B, hs⟩ := List.append_of_mem he
      refine ⟨R.inv.stored e (hmem e he), (R.inv.refs e (hmem e he)).trans ?_⟩
      rw [refCount_cached hs, hheld]
      rfl)
    (fun A e B hs => by
      have hc := R.inv.circular
      rw [hs, handles_middle] at hc
      exact hc.next_mid)
    R.inv.ringNodup (by
      rw [R.inv.table.elems_eq, handles, List.length_map]
      exact Nat.lt_succ_self _)
  refine ⟨⟨h', w.calls ++ s.cached.map Entry.call⟩, c', ?_, rfl, hdetached, hframe, hdead⟩
  unfold LRUCache.destroy
  rw [Heap.load_ok R.inv.lru, ok_bind, hnext]
  exact hloop

end

/-! ## Runs -/

inductive Op (K V : Type) where
  /-- The handle of the entry is the address that `malloc` gives. -/
  | insert (e : Entry K V)
  | lookup (key : K) (hash : Nat)
  | release (p : Ptr)
  | erase (key : K) (hash : Nat)
  | prune

section
variable {K V : Type} [DecidableEq K] (asSlice : V → K)

/-- What an operation returns, and what it leaves. -/
def Op.run (w : World K V) (c : LRUCache) : Op K V → Except Fault (Ptr × World K V × LRUCache)
  | insert e => do
    let r ← c.insert asSlice w e.handle e.key e.hash e.value e.charge e.deleter
    return (e.handle, r)
  | lookup key hash => c.lookup asSlice w key hash
  | release p => do return (0, ← c.release asSlice w p)
  | erase key hash => do return (0, ← c.erase asSlice w key hash)
  | prune => do return (0, ← c.prune asSlice w)

def runOps : World K V → LRUCache → List (Op K V) →
    Except Fault (List Ptr × World K V × LRUCache)
  | w, c, [] => return ([], w, c)
  | w, c, op :: ops => do
    let (p, w, c) ← op.run asSlice w c
    let (ps, w, c) ← runOps w c ops
    return (p :: ps, w, c)

/-- The pinned cache after an operation. -/
def Op.apply (capacity : Nat) (s : Model K V) : Op K V → Model K V
  | insert e => s.insert (full capacity) e
  | lookup key hash => s.lookup (key, hash)
  | release p => s.release p
  | erase key hash => s.remove (key, hash)
  | prune => s.prune

/-- The entries that the operations insert. -/
def inserted (ops : List (Op K V)) : List (Entry K V) :=
  ops.filterMap fun op =>
    match op with
    | .insert e => some e
    | _ => none

def Op.answer (s : Model K V) : Op K V → Ptr
  | insert e => e.handle
  | lookup key hash => ((s.find (key, hash)).map Entry.handle).getD 0
  | _ => 0

def applyOps (capacity : Nat) (s : Model K V) (ops : List (Op K V)) : Model K V :=
  ops.foldl (Op.apply capacity) s

def answersOf (capacity : Nat) : Model K V → List (Op K V) → List Ptr
  | _, [] => []
  | s, op :: ops => op.answer s :: answersOf capacity (op.apply capacity s) ops

/-- What is asked of the clients and of the allocator, where `live` is the memory of the others: an
address is new, handles are released by those who hold them, and the counters of 32 bits do not
overflow. -/
def Op.Allowed (live : Ptr → Bool) (s : Model K V) : Op K V → Prop
  | insert e => live e.handle = false ∧ e.handle ∉ handles s.entries ∧ e.handle ≠ 0 ∧
      e.charge < 2 ^ 64 ∧ s.cached.length < 2 ^ 31
  | lookup _ _ => ∀ p ∈ handles s.cached, s.held.count p + 2 < 2 ^ 32
  | release p => p ∈ s.held
  | _ => True

def AllowedOps (live : Ptr → Bool) (capacity : Nat) : Model K V → List (Op K V) → Prop
  | _, [] => True
  | s, op :: ops => op.Allowed live s ∧ AllowedOps live capacity (op.apply capacity s) ops

variable {asSlice} {w : World K V} {c : LRUCache} {s : Model K V} {live : Ptr → Bool}
  {ops : List (Op K V)}

/-- Besides the memory of the cache only that of the others is allocated. -/
structure Alone (live : Ptr → Bool) (w : World K V) (c : LRUCache) (s : Model K V) : Prop where
  lru : live c.lru = true
  others : ∀ p ∉ c.owned s, w.heap.live p = live p
  entries : ∀ p ∈ handles s.entries, live p = false

omit [DecidableEq K] in
theorem Alone.step {w' : World K V} {s' : Model K V} {before : List Ptr}
    (A : Alone live w c s) (heffect : Effect w.heap w'.heap before (c.owned s'))
    (hsub : ∀ p ∈ c.owned s, p ∈ before)
    (hfree : ∀ p ∈ before, p ≠ c.lru → live p = false)
    (hold : ∀ p ∈ handles s'.entries, p ∈ before) (hlru : c.lru ∉ handles s'.entries) :
    Alone live w' c s' := by
  refine ⟨A.lru, fun p hp => ?_, fun p hp => hfree p (hold p hp) fun heq => hlru (heq ▸ hp)⟩
  by_cases hbefore : p ∈ before
  · have hne : p ≠ c.lru := fun heq => hp (heq ▸ List.mem_cons_self)
    rw [heffect.freed p hbefore hp, hfree p hbefore hne]
  · rw [(heffect.frame p hbefore).live]
    exact A.others p fun hmem => hbefore (hsub p hmem)

omit [DecidableEq K] in
theorem Op.Allowed.fresh {op : Op K V} (hop : op.Allowed live s) :
    ∀ e ∈ inserted [op], live e.handle = false := by
  intro e he
  cases op with
  | insert x =>
    obtain rfl : e = x := List.mem_singleton.1 he
    exact hop.1
  | lookup key hash => cases he
  | release p => cases he
  | erase key hash => cases he
  | prune => cases he

theorem Op.apply_subset (wf : s.WF) (capacity : Nat) (op : Op K V) :
    (op.apply capacity s).entries ⊆ inserted [op] ++ s.entries := by
  cases op with
  | insert e => exact wf.insert_subset _ e
  | lookup key hash => exact wf.lookup_subset _
  | release p => exact State.release_subset s p
  | erase key hash => exact wf.remove_subset _
  | prune => exact State.prune_subset s

/-- An operation changes the memory of the cache and that of the entry it inserts. -/
theorem Repr.step (R : Repr asSlice w c s) (A : Alone live w c s) {op : Op K V}
    (hop : op.Allowed live s) :
    ∃ w' c', op.run asSlice w c = .ok (op.answer s, w', c') ∧ SameCache c c' ∧
      Repr asSlice w' c' (op.apply c.capacity s) ∧ Alone live w' c' (op.apply c.capacity s) ∧
      Frame w.heap w'.heap (c.lru :: handles (inserted [op] ++ s.entries)) := by
  have hfree : ∀ p ∈ handles (inserted [op] ++ s.entries), live p = false := by
    intro p hp
    rw [handles_append, List.mem_append] at hp
    rcases hp with hp | hp
    · obtain ⟨e, he, rfl⟩ := List.mem_map.1 hp
      exact hop.fresh e he
    · exact A.entries p hp
  have hfinish : ∀ {w' : World K V} {c' : LRUCache}, SameCache c c' →
      Repr asSlice w' c' (op.apply c.capacity s) →
      Effect w.heap w'.heap (c.lru :: handles (inserted [op] ++ s.entries))
        (c.owned (op.apply c.capacity s)) → Alone live w' c' (op.apply c.capacity s) := by
    intro w' c' hsame R' heffect
    have hlru := (List.nodup_cons.1 R'.inv.nodup).1
    rw [hsame.2] at hlru
    have A' : Alone live w' c (op.apply c.capacity s) := A.step heffect
      (List.cons_subset_cons _ (List.map_subset _ (List.subset_append_right _ _)))
      (fun p hp hne => hfree p ((List.mem_cons.1 hp).resolve_left hne))
      (fun p hp => List.mem_cons_of_mem _ (List.map_subset _ (op.apply_subset R.wf _) hp)) hlru
    exact ⟨by rw [hsame.2]; exact A'.lru,
      fun p hp => A'.others p (by rwa [owned_same hsame] at hp), A'.entries⟩
  cases op with
  | insert e =>
    obtain ⟨hlive, hnew, hzero, hsize, hroom⟩ := hop
    have hlru : e.handle ≠ c.lru := by
      intro heq
      rw [heq, A.lru] at hlive
      cases hlive
    have hdead : w.heap.live e.handle = false := by
      rw [A.others e.handle (by rw [LRUCache.owned, List.mem_cons, not_or]; exact ⟨hlru, hnew⟩)]
      exact hlive
    obtain ⟨w', c', hrun, hsame, R', heffect⟩ := R.insert hdead hzero hsize hroom
    refine ⟨w', c', ?_, hsame, R', hfinish hsame R' heffect, heffect.frame⟩
    unfold Op.run
    dsimp only
    rw [hrun]
    rfl
  | lookup key hash =>
    obtain ⟨w', hrun, R', heffect⟩ := R.lookup key hash hop
    exact ⟨w', c, hrun, ⟨rfl, rfl⟩, R', hfinish ⟨rfl, rfl⟩ R' heffect, heffect.frame⟩
  | release p =>
    obtain ⟨w', u, hrun, R', heffect⟩ := R.release hop
    refine ⟨w', { c with usage := u }, ?_, ⟨rfl, rfl⟩, R', hfinish ⟨rfl, rfl⟩ R' heffect,
      heffect.frame⟩
    unfold Op.run
    dsimp only
    rw [hrun]
    rfl
  | erase key hash =>
    obtain ⟨w', u, t, hrun, R', heffect⟩ := R.erase key hash
    refine ⟨w', { c with usage := u, table := t }, ?_, ⟨rfl, rfl⟩, R',
      hfinish ⟨rfl, rfl⟩ R' heffect, heffect.frame⟩
    unfold Op.run
    dsimp only
    rw [hrun]
    rfl
  | prune =>
    obtain ⟨w', c', hrun, hsame, R', heffect⟩ := R.prune
    refine ⟨w', c', ?_, hsame, R', hfinish hsame R' heffect, heffect.frame⟩
    unfold Op.run
    dsimp only
    rw [hrun]
    rfl

theorem Repr.run : ∀ {ops : List (Op K V)} {w : World K V} {c : LRUCache} {s : Model K V},
    Repr asSlice w c s → Alone live w c s → AllowedOps live c.capacity s ops →
    ∃ w' c', runOps asSlice w c ops = .ok (answersOf c.capacity s ops, w', c') ∧
      SameCache c c' ∧ Repr asSlice w' c' (applyOps c.capacity s ops) ∧
      Alone live w' c' (applyOps c.capacity s ops)
  | [], w, c, s, R, A, _ => ⟨w, c, rfl, ⟨rfl, rfl⟩, R, A⟩
  | op :: ops, w, c, s, R, A, hall => by
    obtain ⟨w₁, c₁, hrun, hsame, R₁, A₁, -⟩ := R.step A hall.1
    obtain ⟨w', c', hruns, hsame', R', A'⟩ := R₁.run A₁ (by rw [hsame.1]; exact hall.2)
    rw [hsame.1] at hruns R' A'
    refine ⟨w', c', ?_, ⟨hsame'.1.trans hsame.1, hsame'.2.trans hsame.2⟩, R', A'⟩
    unfold runOps
    rw [hrun, ok_bind]
    dsimp only
    rw [hruns, ok_bind]
    rfl

omit [DecidableEq K] in
theorem Repr.new (asSlice : V → K) {h : Heap K V} {lru : Ptr} (capacity : Nat)
    (hlru : h.live lru = true) :
    ∃ h' c, LRUCache.new h lru capacity = .ok (h', c) ∧ c.capacity = capacity ∧ c.lru = lru ∧
      Repr asSlice ⟨h', []⟩ c State.empty ∧ h'.live = h.live ∧ Frame h h' [lru] := by
  obtain ⟨t, hnew, H⟩ := Holds.new asSlice { h with
    next := Function.update h.next lru lru
    prev := Function.update h.prev lru lru }
  refine ⟨{ h with
    next := Function.update h.next lru lru
    prev := Function.update h.prev lru lru }, ⟨capacity, 0, lru, t⟩, ?_, rfl, rfl,
    ⟨?_, State.WF.empty, rfl⟩, rfl, fun p hp => ?_⟩
  · unfold LRUCache.new
    rw [Heap.setNext_ok hlru, ok_bind, Heap.setPrev_ok (by exact hlru), ok_bind, hnew, ok_bind]
    rfl
  · exact {
      circular := Circular.nil (Function.update_self ..) (Function.update_self ..)
      ringNodup := List.nodup_singleton lru
      ringSub := by simp [handles, State.empty]
      table := H
      tabSub := by simp [handles, State.empty]
      nodup := List.nodup_singleton lru
      lru := hlru
      stored := by simp [State.empty, State.entries]
      refs := by simp [State.empty, State.entries]
      usage := rfl }
  · have hne : p ≠ lru := fun heq => hp (heq ▸ List.mem_cons_self)
    exact ⟨rfl, rfl, rfl, rfl, Function.update_of_ne hne .., Function.update_of_ne hne .., rfl, rfl,
      rfl, rfl⟩

end

/-! ## What holds of all runs -/

section
variable {K V : Type} [DecidableEq K]

/-- A cache with the memory `h` and the `lru_` at `lru` after the operations. -/
def runCache (asSlice : V → K) (h : Heap K V) (lru : Ptr) (capacity : Nat) (ops : List (Op K V)) :
    Except Fault (List Ptr × World K V × LRUCache) := do
  let (h, c) ← LRUCache.new h lru capacity
  runOps asSlice ⟨h, []⟩ c ops

variable {asSlice : V → K} {h : Heap K V} {lru : Ptr} {capacity : Nat} {ops : List (Op K V)}

theorem runCache_ok (asSlice : V → K) (hlru : h.live lru = true)
    (hall : AllowedOps h.live capacity State.empty ops) :
    ∃ w c, runCache asSlice h lru capacity ops =
        .ok (answersOf capacity State.empty ops, w, c) ∧ c.capacity = capacity ∧ c.lru = lru ∧
      Repr asSlice w c (applyOps capacity State.empty ops) ∧
      Alone h.live w c (applyOps capacity State.empty ops) := by
  obtain ⟨h', c, hnew, hcap, hlru', R, hlive, -⟩ := Repr.new asSlice capacity hlru
  have A : Alone h.live ⟨h', []⟩ c (State.empty : Model K V) :=
    ⟨by rw [hlru']; exact hlru, fun p _ => congrFun hlive p,
      by simp [handles, State.empty, State.entries]⟩
  rw [← hcap] at hall
  obtain ⟨w', c', hrun, hsame, R', A'⟩ := R.run A hall
  rw [hcap] at hrun R' A'
  refine ⟨w', c', ?_, hsame.1.trans hcap, hsame.2.trans hlru', R', A'⟩
  unfold runCache
  rw [hnew, ok_bind]
  exact hrun

/-- **The cache with reference counts is the pinned cache**: in any sequence of operations in which
the clients release only what they hold, no `assert` fails and no memory that is freed is accessed,
the handles returned are those of the pinned cache, and the list, the table, the counts and the
memory are as they should be. -/
theorem cache_refines (asSlice : V → K) (h : Heap K V) (lru : Ptr) (capacity : Nat)
    (ops : List (Op K V)) (hlru : h.live lru = true)
    (hall : AllowedOps h.live capacity State.empty ops) :
    ∃ w c, runCache asSlice h lru capacity ops =
        .ok (answersOf capacity State.empty ops, w, c) ∧
      Repr asSlice w c (applyOps capacity State.empty ops) ∧
      ∀ p, w.heap.live p = true ↔
        h.live p = true ∨ p ∈ handles (applyOps capacity State.empty ops).entries := by
  obtain ⟨w, c, hrun, hcap, hc, R, A⟩ := runCache_ok asSlice hlru hall
  refine ⟨w, c, hrun, R, fun p => ?_⟩
  by_cases hp : p ∈ c.owned (applyOps capacity State.empty ops)
  · refine iff_of_true (R.inv.live hp) ?_
    rcases List.mem_cons.1 hp with rfl | hp
    · exact .inl A.lru
    · exact .inr hp
  · rw [A.others p hp, or_iff_left]
    exact fun hmem => hp (List.mem_cons_of_mem _ hmem)

/-- Memory with the `lru_` at 1 and nothing else. -/
def emptyHeap : Heap Nat Nat where
  live p := p = 1
  value _ := 0
  deleter _ := 0
  nextHash _ := 0
  next _ := 0
  prev _ := 0
  charge _ := 0
  keyData _ := 0
  refs _ := 0
  hash _ := 0

/-- The entry 2 is found and released, and the entry 3 does not fit beside it. -/
def twoEntries : List (Op Nat Nat) :=
  [.insert ⟨2, 5, 5, 7, 3, 9⟩, .lookup 5 5, .release 2, .release 2, .insert ⟨3, 6, 6, 8, 8, 9⟩,
    .release 3]

theorem twoEntries_allowed : AllowedOps emptyHeap.live 10 State.empty twoEntries := by
  refine ⟨⟨by decide, by decide, by decide, by decide, by decide⟩, ?_, ?_, ?_,
    ⟨by decide, by decide, by decide, by decide, by decide⟩, ?_, trivial⟩
  · show ∀ p ∈ [2], List.count p [2] + 2 < 2 ^ 32
    decide
  · show 2 ∈ [2, 2]
    decide
  · show 2 ∈ [2]
    decide
  · show 3 ∈ [3]
    decide

theorem twoEntries_refines : ∃ w c, runCache id emptyHeap 1 10 twoEntries =
    .ok (answersOf 10 State.empty twoEntries, w, c) ∧
    Repr id w c (applyOps 10 State.empty twoEntries) ∧
    ∀ p, w.heap.live p = true ↔
      emptyHeap.live p = true ∨ p ∈ handles (applyOps 10 State.empty twoEntries).entries :=
  cache_refines id emptyHeap 1 10 twoEntries rfl twoEntries_allowed

/-! ## The balance of the entries -/

theorem Op.apply_ledger {live : Ptr → Bool} {s : Model K V} {op : Op K V} (wf : s.WF)
    (hop : op.Allowed live s) (capacity : Nat) : (op.apply capacity s).WF ∧
      (op.apply capacity s).stock.Perm (inserted [op] ++ s.stock) := by
  cases op with
  | insert e => exact ⟨wf.insert _ hop.2.1, wf.insert_stock _ e⟩
  | lookup key hash => exact ⟨wf.lookup _, wf.lookup_stock _⟩
  | release p => exact ⟨wf.release p, State.release_stock s p⟩
  | erase key hash => exact ⟨wf.remove _, wf.remove_stock _⟩
  | prune => exact ⟨wf.prune, State.prune_stock s⟩

theorem applyOps_ledger {live : Ptr → Bool} : ∀ {ops : List (Op K V)} {s : Model K V}, s.WF →
    AllowedOps live capacity s ops → (applyOps capacity s ops).WF ∧
      (applyOps capacity s ops).stock.Perm (inserted ops ++ s.stock)
  | [], s, wf, _ => ⟨wf, List.Perm.refl _⟩
  | op :: ops, s, wf, hall => by
    obtain ⟨hop, hall⟩ := hall
    have hstep := Op.apply_ledger wf hop capacity
    obtain ⟨wf', hperm⟩ := applyOps_ledger hstep.1 hall
    refine ⟨wf', hperm.trans ?_⟩
    have hins : inserted (op :: ops) = inserted [op] ++ inserted ops :=
      List.filterMap_append (l := [op]) ..
    rw [hins]
    refine (hstep.2.append_left (inserted ops)).trans ?_
    rw [← List.append_assoc]
    exact List.perm_append_comm.append_right _

/-- **Deleters**: what was inserted is either there or its deleter has been called, and that once.
What is there is cached or held, and what a client holds is there with its value. -/
theorem deleters_once (asSlice : V → K) (h : Heap K V) (lru : Ptr) (capacity : Nat)
    (ops : List (Op K V)) (hlru : h.live lru = true)
    (hall : AllowedOps h.live capacity State.empty ops) :
    ∃ w c, runCache asSlice h lru capacity ops =
        .ok (answersOf capacity State.empty ops, w, c) ∧
      (w.calls ++ (applyOps capacity State.empty ops).entries.map Entry.call).Perm
        ((inserted ops).map Entry.call) ∧
      (∀ e ∈ (applyOps capacity State.empty ops).entries, Stored w.heap e ∧
        (e ∈ (applyOps capacity State.empty ops).cached ∨
          e.handle ∈ (applyOps capacity State.empty ops).held)) ∧
      ∀ p ∈ (applyOps capacity State.empty ops).held,
        ∃ e ∈ (applyOps capacity State.empty ops).entries, e.handle = p := by
  obtain ⟨w, c, hrun, -, -, R, -⟩ := runCache_ok asSlice hlru hall
  obtain ⟨-, hperm⟩ := applyOps_ledger State.WF.empty hall
  refine ⟨w, c, hrun, ?_, fun e he => ⟨R.inv.stored e he, ?_⟩, fun p hp => ?_⟩
  · have hmap := hperm.map Entry.call
    rw [R.calls, ← List.map_append]
    exact hmap.trans (by rw [show (State.empty : Model K V).stock = [] from rfl, List.append_nil])
  · rcases List.mem_append.1 he with he | he
    · exact .inl he
    · exact .inr (R.wf.pinned e he)
  · obtain ⟨e, he, hep⟩ := List.mem_map.1 (R.wf.held p hp)
    exact ⟨e, he, hep⟩

theorem twoEntries_deleters : ∃ w c, runCache id emptyHeap 1 10 twoEntries =
    .ok (answersOf 10 State.empty twoEntries, w, c) ∧
    (w.calls ++ (applyOps 10 State.empty twoEntries).entries.map Entry.call).Perm
      ((inserted twoEntries).map Entry.call) ∧
    (∀ e ∈ (applyOps 10 State.empty twoEntries).entries, Stored w.heap e ∧
      (e ∈ (applyOps 10 State.empty twoEntries).cached ∨
        e.handle ∈ (applyOps 10 State.empty twoEntries).held)) ∧
    ∀ p ∈ (applyOps 10 State.empty twoEntries).held,
      ∃ e ∈ (applyOps 10 State.empty twoEntries).entries, e.handle = p :=
  deleters_once id emptyHeap 1 10 twoEntries rfl twoEntries_allowed

/-! ## What an insertion evicts -/

/-- **Eviction**: after an insertion the charges are within the capacity, or nothing is cached any
more. The entries that have left are those used the longest time ago, and each of them left when
more was charged than the capacity. -/
theorem insert_evicts_oldest (asSlice : V → K) (h : Heap K V) (lru : Ptr) (capacity : Nat)
    (ops : List (Op K V)) (e : Entry K V) (hlru : h.live lru = true)
    (hall : AllowedOps h.live capacity State.empty (ops ++ [.insert e])) :
    ∃ w c, runCache asSlice h lru capacity (ops ++ [.insert e]) =
        .ok (answersOf capacity State.empty (ops ++ [.insert e]), w, c) ∧
      ∃ gone rest, ((applyOps capacity State.empty ops).put e).cached = gone ++ rest ∧
        Circular w.heap.next w.heap.prev c.lru (handles rest) ∧ (rest = [] ∨ c.usage ≤ capacity) ∧
        ∀ A x B, gone = A ++ x :: B → full capacity
          ({ (applyOps capacity State.empty ops).put e with
            cached := x :: (B ++ rest) }.retireAll A).total = true := by
  obtain ⟨w, c, hrun, hcap, -, R, -⟩ := runCache_ok asSlice hlru hall
  refine ⟨w, c, hrun, ?_⟩
  have hlast : applyOps capacity State.empty (ops ++ [.insert e]) =
      (applyOps capacity State.empty ops).insert (full capacity) e := by
    unfold applyOps
    rw [List.foldl_append]
    rfl
  rw [hlast] at R
  obtain ⟨gone, rest, hsplit, hevict, hroom, hfull⟩ := State.evict_spec (full capacity)
    ((applyOps capacity State.empty ops).put e).cached ((applyOps capacity State.empty ops).put e)
  have hcached : ((applyOps capacity State.empty ops).insert (full capacity) e).cached = rest :=
    (congrArg State.cached hevict).trans (State.retireAll_cached _ gone)
  have hc := R.inv.circular
  rw [hcached] at hc
  refine ⟨gone, rest, hsplit, hc, hroom.imp id fun hnot => ?_, hfull⟩
  have husage := R.inv.usage
  have hle := of_decide_eq_false hnot
  rw [husage]
  exact Nat.le_of_not_lt hle

theorem twoEntries_evict : ∃ w c, runCache id emptyHeap 1 10
    ([.insert ⟨2, 5, 5, 7, 3, 9⟩, .release 2] ++ [.insert ⟨3, 6, 6, 8, 8, 9⟩]) =
      .ok (answersOf 10 State.empty
        ([.insert ⟨2, 5, 5, 7, 3, 9⟩, .release 2] ++ [.insert ⟨3, 6, 6, 8, 8, 9⟩]), w, c) ∧
    ∃ gone rest, ((applyOps 10 State.empty
        ([.insert ⟨2, 5, 5, 7, 3, 9⟩, .release 2] : List (Op Nat Nat))).put
          ⟨3, 6, 6, 8, 8, 9⟩).cached = gone ++ rest ∧
      Circular w.heap.next w.heap.prev c.lru (handles rest) ∧ (rest = [] ∨ c.usage ≤ 10) ∧
      ∀ A x B, gone = A ++ x :: B → full 10 ({ (applyOps 10 State.empty
        ([.insert ⟨2, 5, 5, 7, 3, 9⟩, .release 2] : List (Op Nat Nat))).put ⟨3, 6, 6, 8, 8, 9⟩ with
          cached := x :: (B ++ rest) }.retireAll A).total = true :=
  insert_evicts_oldest id emptyHeap 1 10 _ ⟨3, 6, 6, 8, 8, 9⟩ rfl (by
    refine ⟨⟨by decide, by decide, by decide, by decide, by decide⟩, ?_,
      ⟨by decide, by decide, by decide, by decide, by decide⟩, trivial⟩
    show 2 ∈ [2]
    decide)

/-! ## The end -/

/-- **The end of the cache**: when all handles have been released, the `assert` of the destructor
holds, the deleter of every entry that was ever inserted has been called once, and all memory of the
entries is free again. -/
theorem destroy_frees_all (asSlice : V → K) (h : Heap K V) (lru : Ptr) (capacity : Nat)
    (ops : List (Op K V)) (hlru : h.live lru = true)
    (hall : AllowedOps h.live capacity State.empty ops)
    (hheld : (applyOps capacity State.empty ops).held = []) :
    ∃ w c w' c', runCache asSlice h lru capacity ops =
        .ok (answersOf capacity State.empty ops, w, c) ∧ c.destroy asSlice w = .ok (w', c') ∧
      w'.calls.Perm ((inserted ops).map Entry.call) ∧ ∀ p, w'.heap.live p = h.live p := by
  obtain ⟨w, c, hrun, -, -, R, A⟩ := runCache_ok asSlice hlru hall
  obtain ⟨-, hperm⟩ := applyOps_ledger State.WF.empty hall
  obtain ⟨w', c', hdestroy, hcalls, hdetached, hframe, hdead⟩ := R.destroy hheld
  have hents : (applyOps capacity State.empty ops).entries =
      (applyOps capacity State.empty ops).cached := by
    unfold State.entries
    rw [hdetached, List.append_nil]
  refine ⟨w, c, w', c', hrun, hdestroy, ?_, fun p => ?_⟩
  · have hmap := hperm.map Entry.call
    rw [hcalls, R.calls, ← hents, ← List.map_append]
    exact hmap.trans (by rw [show (State.empty : Model K V).stock = [] from rfl, List.append_nil])
  · by_cases hp : p ∈ handles (applyOps capacity State.empty ops).cached
    · obtain ⟨e, he, rfl⟩ := List.mem_map.1 hp
      rw [hdead e he, A.entries _ (by rw [hents]; exact hp)]
    · rw [(hframe p hp).live]
      by_cases hlruP : p = c.lru
      · rw [hlruP, R.inv.lru, A.lru]
      · refine A.others p ?_
        rw [LRUCache.owned, hents, List.mem_cons, not_or]
        exact ⟨hlruP, hp⟩

theorem twoEntries_destroyed : ∃ w c w' c', runCache id emptyHeap 1 10 twoEntries =
      .ok (answersOf 10 State.empty twoEntries, w, c) ∧ c.destroy id w = .ok (w', c') ∧
    w'.calls.Perm ((inserted twoEntries).map Entry.call) ∧
    ∀ p, w'.heap.live p = emptyHeap.live p :=
  destroy_frees_all id emptyHeap 1 10 twoEntries rfl twoEntries_allowed (by decide)

end

end Leveldb.Cache
