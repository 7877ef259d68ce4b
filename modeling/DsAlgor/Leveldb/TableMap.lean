import DsAlgor.Leveldb.HandleTable
import Mathlib.Data.List.AList

/-!
# The hash table as a map

`Holds t nodes`: the table has the handles `nodes` and no others, not more of them than rows. Any
run of insertions, removals and lookups gives what a map from keys with their hashes to handles
gives (`handleTable_refines`).
-/

namespace Leveldb.Cache

open HashChains Circular
open Outcome (ok_bind)

/-! ## The operations -/

section
variable {K V : Type} {asSlice : V → K} {h : Heap K V} {t : HandleTable} {nodes : List Ptr}
  {e : Ptr} {key : K} {hash : Nat}

/-- The table has the handles `nodes`, no two of them for the same key. -/
structure Holds (asSlice : V → K) (h : Heap K V) (t : HandleTable) (nodes : List Ptr) : Prop where
  rows : ∃ rows, Rows h t rows ∧ (Buckets.rows t.length rows).Perm nodes
  load : t.elems ≤ t.length
  distinct : ∀ p ∈ nodes, ∀ q ∈ nodes, IsFor asSlice h (h.keyOf asSlice p) (h.hash p) q → p = q

section
variable (H : Holds asSlice h t nodes)
include H

theorem Holds.nodup : nodes.Nodup := by
  obtain ⟨rows, R, hperm⟩ := H.rows
  exact hperm.nodup_iff.1 R.chained.nodup

theorem Holds.elems_eq : t.elems = nodes.length := by
  obtain ⟨rows, R, hperm⟩ := H.rows
  exact R.elems.trans hperm.length_eq

theorem Holds.live (he : e ∈ nodes) : h.live e = true := by
  obtain ⟨rows, R, hperm⟩ := H.rows
  obtain ⟨i, hi, hmem⟩ := mem_rows.1 (hperm.mem_iff.2 he)
  exact R.live i hi e hmem

theorem Holds.ne_zero (he : e ∈ nodes) : e ≠ 0 := by
  obtain ⟨rows, R, hperm⟩ := H.rows
  obtain ⟨i, hi, hmem⟩ := mem_rows.1 (hperm.mem_iff.2 he)
  exact R.ne_zero hi hmem

theorem Holds.perm {nodes' : List Ptr} (hperm : nodes.Perm nodes') : Holds asSlice h t nodes' where
  rows := by
    obtain ⟨rows, R, hrows⟩ := H.rows
    exact ⟨rows, R, hrows.trans hperm⟩
  load := H.load
  distinct p hp q hq := H.distinct p (hperm.mem_iff.2 hp) q (hperm.mem_iff.2 hq)

/-- Of the memory the table needs the chains, the hashes and the keys of its handles. -/
theorem Holds.congr {h' : Heap K V} (hnext : ∀ p ∈ nodes, h'.nextHash p = h.nextHash p)
    (hhash : ∀ p ∈ nodes, h'.hash p = h.hash p) (hlive : ∀ p ∈ nodes, h'.live p = true)
    (hkey : ∀ p ∈ nodes, h'.keyOf asSlice p = h.keyOf asSlice p) : Holds asSlice h' t nodes where
  rows := by
    obtain ⟨rows, R, hperm⟩ := H.rows
    have hmem : ∀ i < t.length, ∀ p ∈ rows i, p ∈ nodes :=
      fun i hi p hp => hperm.mem_iff.1 (mem_rows.2 ⟨i, hi, hp⟩)
    refine ⟨rows, ⟨⟨?_, R.size, fun i hi p hp => hlive p (hmem i hi p hp), R.elems⟩, R.rowCount,
      fun i hi p hp => ?_⟩, hperm⟩
    · exact R.chained.congr (fun _ _ => rfl) fun p hp => hnext p (hperm.mem_iff.1 hp)
    · rw [hhash p (hmem i hi p hp)]
      exact R.home i hi p hp
  load := H.load
  distinct p hp q hq := by
    unfold IsFor
    rw [hkey p hp, hhash p hp, hkey q hq, hhash q hq]
    exact H.distinct p hp q hq

end

/-- The constructor makes an empty table. -/
theorem Holds.new (asSlice : V → K) (h : Heap K V) :
    ∃ t, HandleTable.new h = .ok (h, t) ∧ Holds asSlice h t [] := by
  have hempty : Chains h ⟨0, 0, []⟩ fun _ => [] :=
    ⟨⟨fun i hi => absurd hi (Nat.not_lt_zero i), fun _ _ => List.not_mem_nil, List.nodup_nil⟩, rfl,
      fun i hi => absurd hi (Nat.not_lt_zero i), rfl⟩
  obtain ⟨f, t, rows, hresize, R, _, hload, hperm, hrest⟩ := hempty.resize (by decide)
  have hf : f = h.nextHash := funext fun p => hrest p List.not_mem_nil
  subst hf
  exact ⟨t, hresize, ⟨rows, R, hperm⟩, hload, by simp⟩

/-- A handle comes for the only one that has its key. -/
theorem Holds.distinct_put {old : Ptr} (H : Holds asSlice h t nodes)
    (hold : ∀ p ∈ nodes, IsFor asSlice h (h.keyOf asSlice e) (h.hash e) p → p = old) :
    ∀ p ∈ e :: nodes.erase old, ∀ q ∈ e :: nodes.erase old,
      IsFor asSlice h (h.keyOf asSlice p) (h.hash p) q → p = q := by
  have hnot : ∀ r ∈ nodes.erase old, ¬IsFor asSlice h (h.keyOf asSlice e) (h.hash e) r := by
    intro r hr hfor
    rw [hold r (List.mem_of_mem_erase hr) hfor, H.nodup.mem_erase_iff] at hr
    exact hr.1 rfl
  intro p hp q hq hfor
  rcases List.mem_cons.1 hp with hpe | hp
  · rw [hpe] at hfor ⊢
    rcases List.mem_cons.1 hq with hqe | hq
    · exact hqe.symm
    · exact absurd hfor (hnot q hq)
  · rcases List.mem_cons.1 hq with hqe | hq
    · rw [hqe] at hfor
      exact absurd ⟨hfor.1.symm, hfor.2.symm⟩ (hnot p hp)
    · exact H.distinct p (List.mem_of_mem_erase hp) q (List.mem_of_mem_erase hq) hfor

variable [DecidableEq K]

/-- `Lookup` gives the handle for the key, or `NULL` when there is none. -/
theorem Holds.lookup (H : Holds asSlice h t nodes) (key : K) (hash : Nat) :
    ∃ e, t.lookup asSlice h key hash = .ok e ∧ (e ∈ nodes ∧ IsFor asSlice h key hash e ∨
      e = 0 ∧ ∀ p ∈ nodes, ¬IsFor asSlice h key hash p) := by
  obtain ⟨rows, R, hperm⟩ := H.rows
  obtain ⟨i, hi, A, B, hrow, hfind, rfl, hA, hB⟩ := R.findPointer asSlice key hash
  refine ⟨headOr 0 B, ?_, ?_⟩
  · unfold HandleTable.lookup
    rw [hfind, ok_bind, R.loadSlot hi hrow]
  · cases B with
    | nil =>
      refine .inr ⟨rfl, fun p hp hfor => ?_⟩
      obtain ⟨j, hj, hpj⟩ := mem_rows.1 (hperm.mem_iff.2 hp)
      have hhome := R.home j hj p hpj
      rw [hfor.1] at hhome
      rw [← hhome, hrow, List.append_nil] at hpj
      exact hA p hpj hfor
    | cons p B =>
      refine .inl ⟨hperm.mem_iff.1 (mem_rows.2 ⟨_, hi, ?_⟩), hB p rfl⟩
      rw [hrow]
      simp

/-- `Insert` puts a handle for the one that has its key, if there is one. -/
theorem Holds.insert (H : Holds asSlice h t nodes) (he : e ∉ nodes) (hlive : h.live e = true)
    (hzero : e ≠ 0) (hroom : nodes.length < 2 ^ 31) :
    ∃ old f t', t.insert asSlice h e = .ok (old, { h with nextHash := f }, t') ∧
      (old ∈ nodes ∧ IsFor asSlice h (h.keyOf asSlice e) (h.hash e) old ∨
        old = 0 ∧ ∀ p ∈ nodes, ¬IsFor asSlice h (h.keyOf asSlice e) (h.hash e) p) ∧
      Holds asSlice { h with nextHash := f } t' (e :: nodes.erase old) ∧
      ∀ p ∉ e :: nodes, f p = h.nextHash p := by
  have helems := H.elems_eq
  obtain ⟨rows, R, hperm⟩ := H.rows
  have hrows : ∀ p, p ∈ Buckets.rows t.length rows ↔ p ∈ nodes := fun p => hperm.mem_iff
  obtain ⟨i, hi, A, B, hrow, hfind, hhome, hA, hB⟩ :=
    R.findPointer asSlice (h.keyOf asSlice e) (h.hash e)
  have hput := fun n => R.put (e := e) (n := n) hi hrow (mt (hrows e).1 he) hlive hzero hhome.symm
  have hframe : ∀ f : Ptr → Ptr, (∀ p ∉ e :: Buckets.rows t.length rows, f p = h.nextHash p) →
      ∀ p ∉ e :: nodes, f p = h.nextHash p := by
    intro f hf p hp
    refine hf p ?_
    rwa [List.mem_cons, hrows, ← List.mem_cons]
  have hbehind : nextOf h (headOr 0 B) = .ok (headOr 0 B.tail) := by
    unfold nextOf
    cases B with
    | nil => rfl
    | cons p B =>
      have hp : p ∈ rows i := by rw [hrow]; simp
      rw [headOr_cons, if_neg (R.ne_zero hi hp), Heap.load_ok (R.live i hi p hp),
        R.chained.next_eq hi hrow]
      rfl
  unfold HandleTable.insert Heap.key
  rw [Heap.load_ok hlive, ok_bind, Heap.load_ok hlive, ok_bind, hfind, ok_bind,
    R.loadSlot hi hrow, ok_bind, hbehind, ok_bind, Heap.setNextHash_ok hlive, ok_bind]
  cases B with
  | nil =>
    have hnone : ∀ p ∈ nodes, ¬IsFor asSlice h (h.keyOf asSlice e) (h.hash e) p := by
      intro p hp hfor
      obtain ⟨j, hj, hpj⟩ := mem_rows.1 ((hrows p).2 hp)
      have hj' := R.home j hj p hpj
      rw [hfor.1, ← hhome] at hj'
      subst hj'
      rw [hrow, List.append_nil] at hpj
      exact hA p hpj hfor
    have herase : nodes.erase 0 = nodes :=
      List.erase_of_not_mem fun h0 => H.ne_zero h0 rfl
    obtain ⟨f, list, hstore, R', hperm', hf⟩ := hput (t.elems + 1) (by
      rw [R.elems]
      rfl)
    have hcount : (t.elems + 1) % 2 ^ 32 = t.elems + 1 := Nat.mod_eq_of_lt (by omega)
    have hnodes :
        (Buckets.rows t.length (Function.update rows i (A ++ [e]))).Perm (e :: nodes) := by
      have hcomm := hperm'.trans (List.perm_append_singleton e _)
      exact (by simpa using hcomm : List.Perm _ _).trans (hperm.cons e)
    rw [hstore, ok_bind, headOr_nil]
    dsimp only
    rw [if_pos rfl, hcount]
    by_cases hload : t.elems + 1 > t.length
    · obtain ⟨g, t', rows', hresize, R'', _, hload', hperm'', hg⟩ :=
        R'.resize (by dsimp only; omega)
      rw [if_pos hload, hresize, ok_bind]
      refine ⟨0, g, t', rfl, .inr ⟨rfl, hnone⟩, ⟨⟨rows', R'', ?_⟩, hload', ?_⟩,
        fun p hp => ?_⟩
      · rw [herase]
        exact hperm''.trans hnodes
      · exact H.distinct_put fun p hp hfor => absurd hfor (hnone p hp)
      · rw [hg p fun hmem => hp (hnodes.mem_iff.1 hmem)]
        exact hframe f hf p hp
    · rw [if_neg hload]
      refine ⟨0, f, _, rfl, .inr ⟨rfl, hnone⟩, ⟨⟨_, R', ?_⟩, by dsimp only; omega, ?_⟩,
        hframe f hf⟩
      · rw [herase]
        exact hnodes
      · exact H.distinct_put fun p hp hfor => absurd hfor (hnone p hp)
  | cons p B =>
    have hp : p ∈ rows i := by rw [hrow]; simp
    have hfor : IsFor asSlice h (h.keyOf asSlice e) (h.hash e) p := hB p rfl
    have hpn : p ∈ nodes := (hrows p).1 (mem_rows.2 ⟨i, hi, hp⟩)
    have hp0 := R.ne_zero hi hp
    obtain ⟨f, list, hstore, R', hperm', hf⟩ := hput t.elems (by
      rw [R.elems]
      rfl)
    rw [hstore, ok_bind, headOr_cons]
    dsimp only
    rw [if_neg hp0]
    refine ⟨p, f, _, rfl, .inl ⟨hpn, hfor⟩, ⟨⟨_, R', ?_⟩, H.load, ?_⟩, hframe f hf⟩
    · have hold : (nodes ++ [e]).Perm (e :: nodes.erase p ++ [p]) := by
        refine (List.perm_append_singleton e _).trans (List.Perm.cons e ?_)
        exact (List.perm_cons_erase hpn).trans (List.perm_append_singleton p _).symm
      exact (List.perm_append_right_iff [p]).1 (hperm'.trans ((hperm.append_right [e]).trans hold))
    · refine H.distinct_put fun q hq hq' => ?_
      exact H.distinct q hq p hpn ⟨hfor.1.trans hq'.1.symm, hfor.2.trans hq'.2.symm⟩

/-- `Remove` takes the handle for the key out, if there is one. -/
theorem Holds.remove (H : Holds asSlice h t nodes) (key : K) (hash : Nat) :
    ∃ e f t', t.remove asSlice h key hash = .ok (e, { h with nextHash := f }, t') ∧
      (e ∈ nodes ∧ IsFor asSlice h key hash e ∨
        e = 0 ∧ ∀ p ∈ nodes, ¬IsFor asSlice h key hash p) ∧
      Holds asSlice { h with nextHash := f } t' (nodes.erase e) ∧
      ∀ p ∉ nodes, f p = h.nextHash p := by
  obtain ⟨rows, R, hperm⟩ := H.rows
  have hrows : ∀ p, p ∈ Buckets.rows t.length rows ↔ p ∈ nodes := fun p => hperm.mem_iff
  obtain ⟨i, hi, A, B, hrow, hfind, hhome, hA, hB⟩ := R.findPointer asSlice key hash
  unfold HandleTable.remove
  rw [hfind, ok_bind, R.loadSlot hi hrow, ok_bind]
  cases B with
  | nil =>
    have hnone : ∀ p ∈ nodes, ¬IsFor asSlice h key hash p := by
      intro p hp hfor
      obtain ⟨j, hj, hpj⟩ := mem_rows.1 ((hrows p).2 hp)
      have hj' := R.home j hj p hpj
      rw [hfor.1, ← hhome] at hj'
      subst hj'
      rw [hrow, List.append_nil] at hpj
      exact hA p hpj hfor
    rw [headOr_nil, if_neg (not_not.2 rfl)]
    refine ⟨0, h.nextHash, t, rfl, .inr ⟨rfl, hnone⟩, ?_, fun _ _ => rfl⟩
    rw [List.erase_of_not_mem fun h0 => H.ne_zero h0 rfl]
    exact H
  | cons p B =>
    have hp : p ∈ rows i := by rw [hrow]; simp
    have hpn : p ∈ nodes := (hrows p).1 (mem_rows.2 ⟨i, hi, hp⟩)
    have hperm' : (Buckets.rows t.length (Function.update rows i (A ++ B)) ++ [p]).Perm
        (Buckets.rows t.length rows ++ []) := rows_splice hi hrow (by
      rw [List.append_nil]
      exact List.perm_append_singleton p B)
    rw [List.append_nil] at hperm'
    have hnd := (List.nodup_append.1 (hperm'.nodup_iff.2 R.chained.nodup)).1
    have hlen := hperm'.length_eq
    rw [List.length_append, List.length_singleton, ← R.elems] at hlen
    have hchain : Chain h.nextHash (h.nextHash p) B 0 := by
      have hall := R.chained.chain i hi
      rw [hrow] at hall
      obtain ⟨_, -, rfl, hrest⟩ := Chain.append.1 hall
      exact hrest
    have hsub : ∀ q ∈ B, q ∈ rows i := fun q hq => by
      rw [hrow]
      exact List.mem_append_right A (List.mem_cons_of_mem p hq)
    have helems : (t.elems + 2 ^ 32 - 1) % 2 ^ 32 = t.elems - 1 := by
      obtain ⟨k, -, hk, hpow⟩ := R.rowCount
      have hle : 2 ^ k ≤ 2 ^ 31 := Nat.pow_le_pow_right (by decide) hk
      have hload := H.load
      have hsplit : t.elems + 2 ^ 32 - 1 = t.elems - 1 + 2 ^ 32 := by omega
      rw [hsplit, Nat.add_mod_right]
      exact Nat.mod_eq_of_lt (by omega)
    obtain ⟨f, list, hstore, R', hf⟩ := R.storeSlot (q := h.nextHash p) (n := t.elems - 1) hi hrow
      hchain (fun h0 => R.chained.null i hi (hsub 0 h0)) (fun q hq => R.live i hi q (hsub q hq))
      hnd (by omega)
    rw [headOr_cons, if_pos (R.ne_zero hi hp), Heap.load_ok (R.live i hi p hp), ok_bind, hstore,
      ok_bind]
    dsimp only
    rw [helems]
    refine ⟨p, f, _, rfl, .inl ⟨hpn, hB p rfl⟩, ⟨⟨_, ⟨R', R.rowCount, ?_⟩, ?_⟩, ?_, ?_⟩, ?_⟩
    · intro j hj q hq
      by_cases hji : j = i
      · rw [hji, Function.update_self] at hq
        rw [hji]
        refine R.home i hi q ?_
        rcases List.mem_append.1 hq with hq | hq
        · rw [hrow]
          exact List.mem_append_left _ hq
        · exact hsub q hq
      · rw [Function.update_of_ne hji] at hq
        exact R.home j hj q hq
    · refine (List.perm_append_right_iff [p]).1 (hperm'.trans (hperm.trans ?_))
      exact (List.perm_cons_erase hpn).trans (List.perm_append_singleton p _).symm
    · exact (Nat.sub_le ..).trans H.load
    · intro q hq r hr
      exact H.distinct q (List.mem_of_mem_erase hq) r (List.mem_of_mem_erase hr)
    · intro q hq
      refine hf q fun hqA => hq ((hrows q).1 (mem_rows.2 ⟨i, hi, ?_⟩))
      rw [hrow]
      exact List.mem_append_left _ hqA

end

/-! ## Runs -/

inductive TableOp (K : Type) where
  | insert (e : Ptr)
  | remove (key : K) (hash : Nat)
  | lookup (key : K) (hash : Nat)

/-- From keys with their hashes to handles. -/
abbrev TableMap (K : Type) := AList fun _ : K × Nat => Ptr

section
variable {K V : Type} [DecidableEq K] (asSlice : V → K)

/-- What an operation returns, and what it leaves. -/
def TableOp.run (s : Heap K V × HandleTable) :
    TableOp K → Except Fault (Ptr × Heap K V × HandleTable)
  | insert e => s.2.insert asSlice s.1 e
  | remove key hash => s.2.remove asSlice s.1 key hash
  | lookup key hash => do return (← s.2.lookup asSlice s.1 key hash, s)

def runTable : Heap K V × HandleTable → List (TableOp K) →
    Except Fault (List Ptr × Heap K V × HandleTable)
  | s, [] => return ([], s)
  | s, op :: ops => do
    let (e, s) ← op.run asSlice s
    let (es, s) ← runTable s ops
    return (e :: es, s)

/-- The key and the hash that an operation is about. -/
def TableOp.about (h : Heap K V) : TableOp K → K × Nat
  | insert e => (h.keyOf asSlice e, h.hash e)
  | remove key hash => (key, hash)
  | lookup key hash => (key, hash)

/-- What an operation makes of the map. -/
def TableOp.apply (h : Heap K V) (m : TableMap K) (op : TableOp K) : TableMap K :=
  match op with
  | insert e => m.insert (op.about asSlice h) e
  | remove _ _ => m.erase (op.about asSlice h)
  | lookup _ _ => m

/-- What was there for its key, or `NULL`. -/
def TableOp.answer (h : Heap K V) (m : TableMap K) (op : TableOp K) : Ptr :=
  (m.lookup (op.about asSlice h)).getD 0

def answers (h : Heap K V) : TableMap K → List (TableOp K) → List Ptr
  | _, [] => []
  | m, op :: ops => op.answer asSlice h m :: answers h (op.apply asSlice h m) ops

/-- What is left of the map. -/
def applyAll (h : Heap K V) (m : TableMap K) (ops : List (TableOp K)) : TableMap K :=
  ops.foldl (TableOp.apply asSlice h) m

/-- A handle that is inserted is allocated and not in the table, and there is room for it: with more
than `2 ^ 31` handles the number of rows would not fit in 32 bits. -/
def TableOp.Allowed (h : Heap K V) (m : TableMap K) : TableOp K → Prop
  | insert e => h.live e = true ∧ e ≠ 0 ∧ (∀ k ∈ m.keys, m.lookup k ≠ some e) ∧
      m.keys.length < 2 ^ 31
  | _ => True

def AllAllowed (h : Heap K V) : TableMap K → List (TableOp K) → Prop
  | _, [] => True
  | m, op :: ops => op.Allowed h m ∧ AllAllowed h (op.apply asSlice h m) ops

/-- The table has the handles of the map. -/
def Represents (h : Heap K V) (t : HandleTable) (m : TableMap K) : Prop :=
  ∃ nodes, Holds asSlice h t nodes ∧
    ∀ k e, m.lookup k = some e ↔ e ∈ nodes ∧ IsFor asSlice h k.1 k.2 e

variable {asSlice} {h h' : Heap K V} {t : HandleTable} {m : TableMap K}

theorem represents_keys {nodes : List Ptr} (H : Holds asSlice h t nodes)
    (hm : ∀ k e, m.lookup k = some e ↔ e ∈ nodes ∧ IsFor asSlice h k.1 k.2 e) :
    m.keys.length = nodes.length := by
  have hinj : (nodes.map fun p => (h.keyOf asSlice p, h.hash p)).Nodup := by
    refine H.nodup.map_on fun p hp q hq heq => H.distinct p hp q hq ?_
    obtain ⟨hkey, hhash⟩ := Prod.mk.inj heq
    exact ⟨hhash.symm, hkey.symm⟩
  have hperm : m.keys.Perm (nodes.map fun p => (h.keyOf asSlice p, h.hash p)) := by
    rw [List.perm_ext_iff_of_nodup m.keys_nodup hinj]
    intro k
    rw [← AList.mem_keys, ← AList.lookup_isSome, Option.isSome_iff_exists, List.mem_map]
    constructor
    · rintro ⟨e, he⟩
      obtain ⟨hmem, hfor⟩ := (hm k e).1 he
      exact ⟨e, hmem, Prod.ext hfor.2 hfor.1⟩
    · rintro ⟨e, hmem, rfl⟩
      exact ⟨e, (hm _ e).2 ⟨hmem, rfl, rfl⟩⟩
  rw [hperm.length_eq, List.length_map]

/-- What was found for a key is what the map has for it. -/
theorem found_eq {nodes : List Ptr} {k : K × Nat} {e : Ptr}
    (hm : ∀ k e, m.lookup k = some e ↔ e ∈ nodes ∧ IsFor asSlice h k.1 k.2 e)
    (hfound : e ∈ nodes ∧ IsFor asSlice h k.1 k.2 e ∨
      e = 0 ∧ ∀ p ∈ nodes, ¬IsFor asSlice h k.1 k.2 p) :
    e = (m.lookup k).getD 0 := by
  rcases hfound with hfound | ⟨rfl, hnone⟩
  · rw [(hm k e).2 hfound]
    rfl
  · have hlookup : m.lookup k = none := by
      rw [Option.eq_none_iff_forall_ne_some]
      intro p hp
      obtain ⟨hmem, hfor⟩ := (hm k p).1 hp
      exact hnone p hmem hfor
    rw [hlookup]
    rfl

omit [DecidableEq K] in
/-- A handle that is for a key is for no other one. -/
theorem IsFor.unique {k k' : K × Nat} {e : Ptr} (h₁ : IsFor asSlice h k.1 k.2 e)
    (h₂ : IsFor asSlice h k'.1 k'.2 e) : k = k' :=
  Prod.ext (h₁.2.symm.trans h₂.2) (h₁.1.symm.trans h₂.1)

/-- The handles without the one that was found for `k`. -/
theorem lookup_erase_iff {nodes : List Ptr} {e : Ptr} (k k' : K × Nat) (p : Ptr)
    (H : Holds asSlice h t nodes)
    (hm : ∀ k e, m.lookup k = some e ↔ e ∈ nodes ∧ IsFor asSlice h k.1 k.2 e)
    (hfound : e ∈ nodes ∧ IsFor asSlice h k.1 k.2 e ∨
      e = 0 ∧ ∀ p ∈ nodes, ¬IsFor asSlice h k.1 k.2 p) :
    (m.erase k).lookup k' = some p ↔ p ∈ nodes.erase e ∧ IsFor asSlice h k'.1 k'.2 p := by
  rw [H.nodup.mem_erase_iff]
  by_cases hk : k' = k
  · rw [hk, AList.lookup_erase]
    refine iff_of_false (fun hc => by cases hc) ?_
    rintro ⟨⟨hne, hp⟩, hfor⟩
    rcases hfound with ⟨he, hefor⟩ | ⟨-, hnone⟩
    · exact hne (H.distinct p hp e he ⟨hefor.1.trans hfor.1.symm, hefor.2.trans hfor.2.symm⟩)
    · exact hnone p hp hfor
  · rw [AList.lookup_erase_ne hk, hm]
    constructor
    · rintro ⟨hp, hfor⟩
      refine ⟨⟨?_, hp⟩, hfor⟩
      rintro rfl
      rcases hfound with ⟨-, hefor⟩ | ⟨rfl, -⟩
      · exact hk (hfor.unique hefor)
      · exact H.ne_zero hp rfl
    · rintro ⟨⟨-, hp⟩, hfor⟩
      exact ⟨hp, hfor⟩

/-- Every operation answers and changes the table as the map does. -/
theorem Represents.step (R : Represents asSlice h t m) (op : TableOp K) (hop : op.Allowed h m) :
    ∃ f t', op.run asSlice (h, t) =
        .ok (op.answer asSlice h m, { h with nextHash := f }, t') ∧
      Represents asSlice { h with nextHash := f } t' (op.apply asSlice h m) := by
  obtain ⟨nodes, H, hm⟩ := R
  have hlen := represents_keys H hm
  cases op with
  | insert e =>
    obtain ⟨hlive, hzero, hnew, hroom⟩ := hop
    have he : e ∉ nodes := by
      intro he
      have hlookup := (hm (h.keyOf asSlice e, h.hash e) e).2 ⟨he, rfl, rfl⟩
      exact hnew _ (AList.mem_keys.1 (AList.lookup_isSome.1 (by rw [hlookup]; rfl))) hlookup
    obtain ⟨old, f, t', hrun, hfound, H', -⟩ := H.insert he hlive hzero (hlen ▸ hroom)
    have hkey := fun k' p => lookup_erase_iff (h.keyOf asSlice e, h.hash e) k' p H hm hfound
    refine ⟨f, t', ?_, _, H', fun k p => ?_⟩
    · unfold TableOp.run TableOp.answer TableOp.about
      dsimp only
      rw [hrun, ← found_eq (k := (h.keyOf asSlice e, h.hash e)) hm hfound]
    · unfold TableOp.apply TableOp.about
      dsimp only
      rw [List.mem_cons]
      by_cases hk : k = (h.keyOf asSlice e, h.hash e)
      · rw [hk, AList.lookup_insert, Option.some.injEq]
        constructor
        · rintro rfl
          exact ⟨.inl rfl, rfl, rfl⟩
        · rintro ⟨rfl | hp, hfor⟩
          · rfl
          · have herase := (hkey (h.keyOf asSlice e, h.hash e) p).2 ⟨hp, hfor⟩
            rw [AList.lookup_erase] at herase
            cases herase
      · have herase := hkey k p
        rw [AList.lookup_erase_ne hk] at herase
        rw [AList.lookup_insert_ne hk, herase]
        constructor
        · rintro ⟨hp, hfor⟩
          exact ⟨.inr hp, hfor⟩
        · rintro ⟨rfl | hp, hfor⟩
          · exact absurd (Prod.ext hfor.2.symm hfor.1.symm) hk
          · exact ⟨hp, hfor⟩
  | remove key hash =>
    obtain ⟨e, f, t', hrun, hfound, H', -⟩ := H.remove key hash
    refine ⟨f, t', ?_, _, H', fun k p =>
      lookup_erase_iff (h := h) (key, hash) k p H hm hfound⟩
    unfold TableOp.run TableOp.answer TableOp.about
    dsimp only
    rw [hrun, ← found_eq (k := (key, hash)) hm hfound]
  | lookup key hash =>
    obtain ⟨e, hrun, hfound⟩ := H.lookup key hash
    refine ⟨h.nextHash, t, ?_, nodes, H, hm⟩
    unfold TableOp.run TableOp.answer TableOp.about
    dsimp only
    rw [hrun, ← found_eq (k := (key, hash)) hm hfound]
    rfl

theorem Represents.run {ops : List (TableOp K)} : ∀ {f : Ptr → Ptr} {t : HandleTable}
    {m : TableMap K}, Represents asSlice { h with nextHash := f } t m →
      AllAllowed asSlice h m ops → ∃ g t', runTable asSlice ({ h with nextHash := f }, t) ops =
        .ok (answers asSlice h m ops, { h with nextHash := g }, t') ∧
      Represents asSlice { h with nextHash := g } t' (applyAll asSlice h m ops) := by
  induction ops with
  | nil => exact fun R _ => ⟨_, _, rfl, R⟩
  | cons op ops ih =>
    intro f t m R hall
    obtain ⟨hop, hall⟩ := hall
    have hanswer : op.answer asSlice { h with nextHash := f } m = op.answer asSlice h m := by
      cases op <;> rfl
    have happly : op.apply asSlice { h with nextHash := f } m = op.apply asSlice h m := by
      cases op <;> rfl
    obtain ⟨g, t', hrun, R'⟩ := R.step op (by cases op <;> exact hop)
    rw [hanswer] at hrun
    rw [happly] at R'
    obtain ⟨g', t'', hruns, R''⟩ := ih R' hall
    refine ⟨g', t'', ?_, R''⟩
    unfold runTable
    rw [hrun, ok_bind]
    dsimp only
    rw [hruns, ok_bind]
    rfl

/-- **The table is a map**: any run of insertions, removals and lookups from an empty table gives
what the map gives and leaves the table with what the map has, in at least as many rows. The number
of the rows is a power of two, no `assert` fails and no loop goes on for ever. -/
theorem handleTable_refines (asSlice : V → K) (h : Heap K V) (ops : List (TableOp K))
    (hall : AllAllowed asSlice h ∅ ops) :
    ∃ s h' t', HandleTable.new h = .ok s ∧
      runTable asSlice s ops = .ok (answers asSlice h ∅ ops, h', t') ∧
      Represents asSlice h' t' (applyAll asSlice h ∅ ops) ∧ RowCount t'.length ∧
      t'.elems = (applyAll asSlice h ∅ ops).keys.length ∧ t'.elems ≤ t'.length := by
  obtain ⟨t, hnew, H⟩ := Holds.new asSlice h
  have R : Represents asSlice { h with nextHash := h.nextHash } t ∅ :=
    ⟨[], H, fun k e => by simp⟩
  obtain ⟨g, t', hrun, nodes, H', hm⟩ := R.run hall
  obtain ⟨rows, R', -⟩ := H'.rows
  refine ⟨_, _, t', hnew, hrun, ⟨nodes, H', hm⟩, R'.rowCount, ?_, H'.load⟩
  rw [H'.elems_eq, represents_keys H' hm]

/-- The handles 1, 2 and 3, of which 1 and 3 have the same key. -/
def threeHandles : Heap Nat Nat where
  live _ := true
  value := id
  deleter := id
  nextHash _ := 0
  next _ := 0
  prev _ := 0
  charge _ := 1
  keyData e := e % 2
  refs _ := 2
  hash e := e % 2

theorem threeHandles_refines : ∃ s h' t', HandleTable.new threeHandles = .ok s ∧
    runTable id s [.insert 1, .insert 2, .insert 3, .remove 1 1, .lookup 1 1] =
      .ok (answers id threeHandles ∅ [.insert 1, .insert 2, .insert 3, .remove 1 1, .lookup 1 1],
        h', t') ∧
    Represents id h' t' (applyAll id threeHandles ∅
      [.insert 1, .insert 2, .insert 3, .remove 1 1, .lookup 1 1]) ∧ RowCount t'.length ∧
    t'.elems = (applyAll id threeHandles ∅
      [.insert 1, .insert 2, .insert 3, .remove 1 1, .lookup 1 1]).keys.length ∧
    t'.elems ≤ t'.length :=
  handleTable_refines id threeHandles _ (by
    refine ⟨⟨rfl, by decide, by decide, by decide⟩, ⟨rfl, by decide, by decide, by decide⟩,
      ⟨rfl, by decide, by decide, by decide⟩, trivial, trivial, trivial⟩)

end

end Leveldb.Cache
