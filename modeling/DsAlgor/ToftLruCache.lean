import DsAlgor.Lib.Recency
import Mathlib.Data.List.AList
import Mathlib.Tactic

/-!
# The cache of toft

The class `LruCache` of toft. A `std::list` is the list of its nodes, and an iterator is the number
of a node, which stays with it when the node is spliced and is gone when it is erased; to follow an
iterator that is gone is an error (`none`). A `std::map` is an association list. The lock is left
out: each call runs on its own.

`Put` returns early when the key is cached with the same value, and the key does not come to the
front (`put_equal_not_used`). In all other cases the list is in the order of use, and the runs where
this case only occurs for the key at the front are those that keep the order (`recency_iff`).
-/

namespace ToftLruCache

open Recency

structure Node (K V : Type) where
  it : Nat
  key : K
  value : V

structure Cache (K V : Type) where
  valueList : List (Node K V)
  index : AList fun _ : K => Nat
  capacity : Nat
  /-- The number of the next new node. -/
  fresh : Nat

variable {K V : Type} [DecidableEq K]

/-- The node an iterator points to. -/
def deref (l : List (Node K V)) (it : Nat) : Option (Node K V) := l.find? (·.it = it)

/-- `std::list::erase`. -/
def erase (l : List (Node K V)) (it : Nat) : List (Node K V) := l.filter (·.it ≠ it)

namespace Cache

def new (capacity : Nat) : Cache K V := ⟨[], ∅, capacity, 0⟩

def get (c : Cache K V) (key : K) : Option (Option V × Cache K V) :=
  match c.index.lookup key with
  | some it => do
    let node ← deref c.valueList it
    let valueList := node :: erase c.valueList it
    let index := c.index.insert key node.it
    return (some node.value, { c with valueList := valueList, index := index })
  | none => some (none, c)

def internalRemove (c : Cache K V) (key : K) : Option (Bool × Cache K V) :=
  match c.index.lookup key with
  | none => some (false, c)
  | some it => do
    let _ ← deref c.valueList it
    return (true, { c with valueList := erase c.valueList it, index := c.index.erase key })

/-- The part of `Put` that inserts. -/
def insert (c : Cache K V) (key : K) (value : V) : Cache K V :=
  { c with
    valueList := ⟨c.fresh, key, value⟩ :: c.valueList
    index := c.index.insert key c.fresh
    fresh := c.fresh + 1 }

/-- The part of `Put` that checks for overflow. -/
def shrink (c : Cache K V) : Option (Cache K V) :=
  if c.index.keys.length > c.capacity then do
    let last ← c.valueList.getLast?
    let (_, c) ← c.internalRemove last.key
    return c
  else some c

def put [DecidableEq V] (c : Cache K V) (key : K) (value : V) : Option (Cache K V) :=
  match c.index.lookup key with
  | some it => do
    let node ← deref c.valueList it
    if node.value = value then return c
    let (_, c) ← c.internalRemove key
    (c.insert key value).shrink
  | none => (c.insert key value).shrink

def remove (c : Cache K V) (key : K) : Option (Bool × Cache K V) := c.internalRemove key

def clear (c : Cache K V) : Cache K V := { c with valueList := [], index := ∅ }

end Cache

inductive Op (K V : Type) where
  | put (key : K) (value : V)
  | get (key : K)
  | remove (key : K)
  | clear

/-- The cache after an operation, and what a `get` gives. -/
def Op.run [DecidableEq V] (c : Cache K V) : Op K V → Option (Option V × Cache K V)
  | put key value => (c.put key value).map fun c => (none, c)
  | get key => c.get key
  | remove key => (c.remove key).map fun r => (none, r.2)
  | clear => some (none, c.clear)

/-! ## What is promised, and when it is kept -/

/-- The keys in the order of their last use, each with the value of its last `put`. A key that is
removed is no longer there, whether by `remove`, by `clear` or because it is the last one of too
many. -/
def Op.use (capacity : Nat) (A : List (K × V)) : Op K V → List (K × V)
  | put key value => (touch key value A).take capacity
  | get key =>
    match A.lookup key with
    | some value => touch key value A
    | none => A
  | remove key => A.filter (·.1 ≠ key)
  | clear => []

def Op.answer (A : List (K × V)) : Op K V → Option V
  | get key => A.lookup key
  | _ => none

/-- The list holds the keys in their order, and the map has an iterator for each of them and no
others. -/
structure InOrder (c : Cache K V) (A : List (K × V)) : Prop where
  list : c.valueList.map (fun n => (n.key, n.value)) = A
  once : (keys A).Nodup
  index : ∀ k it, c.index.lookup k = some it ↔ ∃ n ∈ c.valueList, n.key = k ∧ n.it = it

/-- The operations return and keep the order, one after the other. -/
def Keeps [DecidableEq V] : Cache K V → List (K × V) → List (Op K V) → Prop
  | c, A, [] => InOrder c A
  | c, A, op :: ops =>
    InOrder c A ∧ ∃ c', op.run c = some (op.answer A, c') ∧ Keeps c' (op.use c.capacity A) ops

/-- The operation is not a `put` of a key with the value it has, unless the key is the most recently
used one. -/
def Op.Plain (A : List (K × V)) : Op K V → Prop
  | put key value => A.lookup key = some value → A.head? = some (key, value)
  | _ => True

def AllPlain (capacity : Nat) : List (K × V) → List (Op K V) → Prop
  | _, [] => True
  | A, op :: ops => op.Plain A ∧ AllPlain capacity (op.use capacity A) ops

/-! ## The list and the map -/

structure Inv (c : Cache K V) (A : List (K × V)) : Prop extends InOrder c A where
  its : (c.valueList.map Node.it).Nodup
  fresh : ∀ n ∈ c.valueList, n.it < c.fresh

section
variable {c : Cache K V} {A : List (K × V)} {L R : List (Node K V)} {n : Node K V} {k : K} {v : V}

theorem Inv.mem_keys_iff (h : Inv c A) : k ∈ keys A ↔ ∃ n ∈ c.valueList, n.key = k := by
  rw [← h.list]
  unfold keys
  rw [List.map_map, List.mem_map]
  rfl

theorem Inv.lookup_index (h : Inv c A) (hn : n ∈ c.valueList) : c.index.lookup n.key = some n.it :=
  (h.index _ _).2 ⟨n, hn, rfl, rfl⟩

theorem Inv.lookup_none (h : Inv c A) (hk : k ∉ keys A) : c.index.lookup k = none := by
  rw [Option.eq_none_iff_forall_ne_some]
  intro it hit
  obtain ⟨n, hn, hkey, -⟩ := (h.index k it).1 hit
  exact hk (h.mem_keys_iff.2 ⟨n, hn, hkey⟩)

/-- The map has as many keys as the list. -/
theorem Inv.length_index (h : Inv c A) : c.index.keys.length = A.length := by
  have hperm : c.index.keys.Perm (keys A) := by
    rw [List.perm_ext_iff_of_nodup c.index.keys_nodup h.once]
    intro k
    rw [← AList.mem_keys, ← AList.lookup_isSome, Option.isSome_iff_exists, h.mem_keys_iff]
    constructor
    · rintro ⟨it, hit⟩
      obtain ⟨n, hn, hkey, -⟩ := (h.index k it).1 hit
      exact ⟨n, hn, hkey⟩
    · rintro ⟨n, hn, rfl⟩
      exact ⟨n.it, h.lookup_index hn⟩
  rw [hperm.length_eq]
  exact List.length_map _

omit [DecidableEq K] in
theorem it_ne (hits : ((L ++ n :: R).map Node.it).Nodup) : ∀ q ∈ L ++ R, q.it ≠ n.it := by
  intro q hq heq
  rw [List.map_append, List.map_cons] at hits
  have hnot := (List.nodup_cons.1 (List.nodup_middle.1 hits)).1
  rw [← List.map_append] at hnot
  exact hnot (heq ▸ List.mem_map_of_mem hq)

omit [DecidableEq K] in
theorem deref_middle (hits : ((L ++ n :: R).map Node.it).Nodup) :
    deref (L ++ n :: R) n.it = some n := by
  unfold deref
  rw [List.find?_append, List.find?_eq_none.2, Option.none_or, List.find?_cons_of_pos (by simp)]
  intro q hq
  rw [decide_eq_true_eq]
  exact it_ne hits q (List.mem_append_left _ hq)

omit [DecidableEq K] in
theorem erase_middle (hits : ((L ++ n :: R).map Node.it).Nodup) :
    erase (L ++ n :: R) n.it = L ++ R := by
  unfold erase
  rw [List.filter_append, List.filter_cons_of_neg (by simp), ← List.filter_append,
    List.filter_eq_self]
  intro q hq
  rw [decide_eq_true_eq]
  exact it_ne hits q hq

/-- The node of a key, with what is before and after it. -/
theorem Inv.split (h : Inv c A) (hn : n ∈ c.valueList) :
    ∃ L R, c.valueList = L ++ n :: R ∧ deref c.valueList n.it = some n ∧
      erase c.valueList n.it = L ++ R ∧ A = L.map (fun n => (n.key, n.value)) ++
        (n.key, n.value) :: R.map (fun n => (n.key, n.value)) := by
  obtain ⟨L, R, heq⟩ := List.append_of_mem hn
  have hits := h.its
  have hlist := h.list
  rw [heq] at hits hlist
  refine ⟨L, R, heq, ?_, ?_, ?_⟩
  · rw [heq]
    exact deref_middle hits
  · rw [heq]
    exact erase_middle hits
  · rw [← hlist, List.map_append, List.map_cons]

theorem Inv.lookup_node (h : Inv c A) (hn : n ∈ c.valueList) :
    A.lookup n.key = some n.value := by
  obtain ⟨L, R, heq, hderef, herase, hA⟩ := h.split hn
  have honce := h.once
  rw [hA] at honce ⊢
  exact lookup_middle (nodup_middle honce).1

/-! ## The operations -/

/-- A node comes to the front, and the map has its iterator again. -/
theorem Inv.get_hit (h : Inv c A) (hn : n ∈ c.valueList) :
    ∃ c', c.get n.key = some (some n.value, c') ∧ Inv c' (touch n.key n.value A) ∧
      c'.capacity = c.capacity := by
  obtain ⟨L, R, heq, hderef, herase, hA⟩ := h.split hn
  have honce := h.once
  rw [hA] at honce
  have hperm : (n :: (L ++ R)).Perm c.valueList := by
    rw [heq]
    exact List.perm_middle.symm
  have hget : c.get n.key = some (some n.value,
      { c with valueList := n :: (L ++ R), index := c.index.insert n.key n.it }) := by
    unfold Cache.get
    rw [h.lookup_index hn]
    dsimp only
    rw [hderef, herase]
    rfl
  refine ⟨_, hget, ⟨⟨?_, nodup_touch h.once, fun k it => ?_⟩, ?_, fun q hq =>
    h.fresh q (hperm.subset hq)⟩, rfl⟩
  · rw [hA, touch_middle honce, List.map_cons, List.map_append]
  · have hsame : (c.index.insert n.key n.it).lookup k = c.index.lookup k := by
      by_cases hk : k = n.key
      · rw [hk, AList.lookup_insert, h.lookup_index hn]
      · exact AList.lookup_insert_ne hk
    dsimp only
    rw [hsame, h.index]
    simp only [hperm.mem_iff]
  · exact h.its.perm (hperm.map _).symm

theorem Inv.internalRemove (h : Inv c A) (k : K) :
    ∃ b c', c.internalRemove k = some (b, c') ∧ Inv c' (A.filter (·.1 ≠ k)) ∧
      c'.capacity = c.capacity := by
  by_cases hk : k ∈ keys A
  · obtain ⟨n, hn, rfl⟩ := h.mem_keys_iff.1 hk
    obtain ⟨L, R, heq, hderef, herase, hA⟩ := h.split hn
    have honce := h.once
    have hits := h.its
    rw [hA] at honce
    rw [heq] at hits
    obtain ⟨hL, hR, hLR⟩ := nodup_middle honce
    have hsub : ∀ q ∈ L ++ R, q ∈ c.valueList := by
      intro q hq
      rw [heq]
      exact List.perm_middle.symm.subset (List.mem_cons_of_mem _ hq)
    have hne : ∀ q ∈ L ++ R, q.key ≠ n.key := by
      intro q hq hkey
      rcases List.mem_append.1 hq with hq | hq
      · exact hL (hkey ▸ mem_keys.2 ⟨q.value, List.mem_map_of_mem hq⟩)
      · exact hR (hkey ▸ mem_keys.2 ⟨q.value, List.mem_map_of_mem hq⟩)
    have hremove : c.internalRemove n.key =
        some (true, { c with valueList := L ++ R, index := c.index.erase n.key }) := by
      unfold Cache.internalRemove
      rw [h.lookup_index hn]
      dsimp only
      rw [hderef, herase]
      rfl
    refine ⟨true, _, hremove, ⟨⟨?_, ?_, fun k it => ?_⟩, ?_,
      fun q hq => h.fresh q (hsub q hq)⟩, rfl⟩
    · rw [hA, filter_middle honce, List.map_append]
    · rw [hA, filter_middle honce]
      exact hLR
    · dsimp only
      by_cases hkn : k = n.key
      · rw [hkn, AList.lookup_erase]
        refine iff_of_false nofun ?_
        rintro ⟨q, hq, hkey, -⟩
        exact hne q hq hkey
      · rw [AList.lookup_erase_ne hkn, h.index]
        constructor
        · rintro ⟨q, hq, hkey, hit⟩
          rw [heq] at hq
          rcases List.mem_cons.1 (List.perm_middle.subset hq) with rfl | hq
          · exact absurd hkey.symm hkn
          · exact ⟨q, hq, hkey, hit⟩
        · rintro ⟨q, hq, hkey, hit⟩
          exact ⟨q, hsub q hq, hkey, hit⟩
    · rw [List.map_append, List.map_cons] at hits
      dsimp only
      rw [List.map_append]
      exact (List.nodup_cons.1 (List.nodup_middle.1 hits)).2
  · refine ⟨false, c, ?_, ?_, rfl⟩
    · unfold Cache.internalRemove
      rw [h.lookup_none hk]
    · rw [filter_of_notMem hk]
      exact h

theorem Inv.insert (h : Inv c A) (hk : k ∉ keys A) (v : V) : Inv (c.insert k v) ((k, v) :: A) := by
  refine ⟨⟨?_, List.nodup_cons.2 ⟨hk, h.once⟩, fun k' it => ?_⟩, ?_, fun q hq => ?_⟩
  · rw [← h.list]
    rfl
  · unfold Cache.insert
    dsimp only
    by_cases hkk : k' = k
    · rw [hkk, AList.lookup_insert, Option.some.injEq]
      constructor
      · exact fun heq => ⟨_, List.mem_cons_self, rfl, heq⟩
      · rintro ⟨q, hq, hkey, hit⟩
        rcases List.mem_cons.1 hq with rfl | hq
        · exact hit
        · exact absurd (h.mem_keys_iff.2 ⟨q, hq, hkey⟩) hk
    · rw [AList.lookup_insert_ne hkk, h.index]
      constructor
      · rintro ⟨q, hq, hkey⟩
        exact ⟨q, List.mem_cons_of_mem _ hq, hkey⟩
      · rintro ⟨q, hq, hkey, hit⟩
        rcases List.mem_cons.1 hq with rfl | hq
        · exact absurd hkey.symm hkk
        · exact ⟨q, hq, hkey, hit⟩
  · refine List.nodup_cons.2 ⟨fun hmem => ?_, h.its⟩
    obtain ⟨q, hq, heq⟩ := List.mem_map.1 hmem
    exact absurd (h.fresh q hq) (by dsimp only at heq; omega)
  · unfold Cache.insert at hq ⊢
    rcases List.mem_cons.1 hq with rfl | hq
    · exact Nat.lt_succ_self _
    · exact Nat.lt_succ_of_lt (h.fresh q hq)

/-- One key too many: the last one goes. -/
theorem Inv.shrink (h : Inv c A) (hlen : A.length ≤ c.capacity + 1) :
    ∃ c', c.shrink = some c' ∧ Inv c' (A.take c.capacity) ∧ c'.capacity = c.capacity := by
  unfold Cache.shrink
  rw [h.length_index]
  by_cases hover : A.length > c.capacity
  · rw [if_pos hover]
    obtain ⟨L, n, hlist⟩ : ∃ L n, c.valueList = L ++ [n] := by
      rcases List.eq_nil_or_concat c.valueList with hnil | ⟨L, n, heq⟩
      · have hlist := h.list
        rw [hnil] at hlist
        rw [← hlist] at hover
        exact absurd hover (Nat.not_lt_zero _)
      · exact ⟨L, n, heq.trans (List.concat_eq_append ..)⟩
    have hA := h.list
    rw [hlist, List.map_append, List.map_singleton] at hA
    have honce := h.once
    rw [← hA] at honce
    have htake : A.filter (·.1 ≠ n.key) = A.take c.capacity := by
      have hlen' : c.capacity = (L.map fun n => (n.key, n.value)).length := by
        rw [← hA, List.length_append, List.length_singleton] at hlen hover
        omega
      rw [← hA, filter_middle honce, hlen', List.take_left, List.append_nil]
    obtain ⟨b, c', hrun, hinv, hcap⟩ := h.internalRemove n.key
    rw [htake] at hinv
    refine ⟨c', ?_, hinv, hcap⟩
    rw [hlist, List.getLast?_concat]
    show (c.internalRemove n.key).bind _ = _
    rw [hrun]
    rfl
  · rw [if_neg hover, List.take_of_length_le (by omega)]
    exact ⟨c, rfl, h, rfl⟩

variable [DecidableEq V]

/-- `put` of a key that is not cached, or cached with another value. -/
theorem Inv.put (h : Inv c A) (hlen : A.length ≤ c.capacity) (hv : A.lookup k ≠ some v) :
    ∃ c', c.put k v = some c' ∧ Inv c' ((touch k v A).take c.capacity) ∧
      c'.capacity = c.capacity := by
  by_cases hk : k ∈ keys A
  · obtain ⟨n, hn, rfl⟩ := h.mem_keys_iff.1 hk
    obtain ⟨L, R, heq, hderef, herase, hA⟩ := h.split hn
    have hne : n.value ≠ v := by
      rw [h.lookup_node hn] at hv
      exact fun heq => hv (congrArg some heq)
    obtain ⟨b, c₁, hremove, hinv₁, hcap₁⟩ := h.internalRemove n.key
    have hnot : n.key ∉ keys (A.filter (·.1 ≠ n.key)) := by
      intro hmem
      obtain ⟨w, hw⟩ := mem_keys.1 hmem
      simp at hw
    have hle : ((n.key, v) :: A.filter (·.1 ≠ n.key)).length ≤
      (c₁.insert n.key v).capacity + 1 := by
      show _ ≤ c₁.capacity + 1
      rw [List.length_cons, hcap₁]
      exact Nat.succ_le_succ ((List.length_filter_le _ _).trans hlen)
    obtain ⟨c', hshrink, hinv', hcap'⟩ := (hinv₁.insert hnot v).shrink hle
    refine ⟨c', ?_, ?_, hcap'.trans hcap₁⟩
    · unfold Cache.put
      rw [h.lookup_index hn]
      dsimp only
      rw [hderef]
      show (if n.value = v then _ else _) = _
      rw [if_neg hne]
      show (c.internalRemove n.key).bind _ = _
      rw [hremove]
      exact hshrink
    · rw [← hcap₁]
      exact hinv'
  · obtain ⟨c', hshrink, hinv', hcap'⟩ := (h.insert hk v).shrink (Nat.succ_le_succ hlen)
    refine ⟨c', ?_, ?_, hcap'⟩
    · unfold Cache.put
      rw [h.lookup_none hk]
      exact hshrink
    · rw [touch_of_notMem hk]
      exact hinv'

/-- `put` of a key with the value that it has. -/
theorem Inv.put_equal (h : Inv c A) (hv : A.lookup k = some v) : c.put k v = some c := by
  by_cases hk : k ∈ keys A
  · obtain ⟨n, hn, rfl⟩ := h.mem_keys_iff.1 hk
    obtain ⟨L, R, heq, hderef, herase, hA⟩ := h.split hn
    rw [h.lookup_node hn, Option.some.injEq] at hv
    unfold Cache.put
    rw [h.lookup_index hn]
    dsimp only
    rw [hderef]
    show (if n.value = v then _ else _) = _
    rw [if_pos hv]
    rfl
  · rw [lookup_of_notMem hk] at hv
    cases hv

/-! ## The runs -/

/-- The order, and no more keys than there is room for. -/
structure Sound (c : Cache K V) (A : List (K × V)) : Prop extends Inv c A where
  length : A.length ≤ c.capacity

theorem Sound.plain (h : Sound c A) {op : Op K V} (hplain : op.Plain A) :
    ∃ c', op.run c = some (op.answer A, c') ∧ Sound c' (op.use c.capacity A) ∧
      c'.capacity = c.capacity := by
  cases op with
  | put k v =>
    by_cases hv : A.lookup k = some v
    · have hhead := hplain hv
      have htouch : (touch k v A).take c.capacity = A := by
        obtain ⟨A', rfl⟩ := List.head?_eq_some_iff.1 hhead
        have htouch : touch k v ((k, v) :: A') = (k, v) :: A' := touch_middle (A := []) h.once
        rw [htouch, List.take_of_length_le h.length]
      refine ⟨c, ?_, ?_, rfl⟩
      · unfold Op.run
        dsimp only
        rw [h.put_equal hv]
        rfl
      · unfold Op.use
        dsimp only
        rw [htouch]
        exact h
    · obtain ⟨c', hput, hinv, hcap⟩ := h.put h.length hv
      refine ⟨c', ?_, ⟨hinv, ?_⟩, hcap⟩
      · unfold Op.run
        dsimp only
        rw [hput]
        rfl
      · rw [hcap]
        exact List.length_take_le _ _
  | get k =>
    unfold Op.run Op.answer Op.use
    dsimp only
    by_cases hk : k ∈ keys A
    · obtain ⟨n, hn, rfl⟩ := h.mem_keys_iff.1 hk
      obtain ⟨L, R, heq, hderef, herase, hA⟩ := h.split hn
      have honce := h.once
      rw [hA] at honce
      obtain ⟨c', hget, hinv, hcap⟩ := h.get_hit hn
      rw [h.lookup_node hn]
      refine ⟨c', hget, ⟨hinv, ?_⟩, hcap⟩
      have hlen := h.length
      rw [hcap]
      dsimp only
      rw [hA, List.length_append, List.length_cons] at hlen
      rw [hA, touch_middle honce, List.length_cons, List.length_append]
      omega
    · rw [lookup_of_notMem hk]
      refine ⟨c, ?_, h, rfl⟩
      unfold Cache.get
      rw [h.lookup_none hk]
  | remove k =>
    obtain ⟨b, c', hremove, hinv, hcap⟩ := h.internalRemove k
    refine ⟨c', ?_, ⟨hinv, ?_⟩, hcap⟩
    · unfold Op.run Cache.remove
      dsimp only
      rw [hremove]
      rfl
    · rw [hcap]
      exact (List.length_filter_le _ _).trans h.length
  | clear =>
    exact ⟨_, rfl, ⟨⟨⟨rfl, List.nodup_nil, fun k it => by simp [Cache.clear]⟩,
      List.nodup_nil, nofun⟩, Nat.zero_le _⟩, rfl⟩

/-- A `put` of a key with the value it has, when the key is not at the front, leaves the order as it
was. -/
theorem Sound.not_plain (h : Sound c A) {op : Op K V} (hplain : ¬op.Plain A) {c' : Cache K V}
    (hrun : op.run c = some (op.answer A, c')) : ¬InOrder c' (op.use c.capacity A) := by
  cases op with
  | put k v =>
    unfold Op.Plain at hplain
    dsimp only at hplain
    rw [Classical.not_imp] at hplain
    obtain ⟨hv, hhead⟩ := hplain
    unfold Op.run at hrun
    dsimp only at hrun
    rw [h.put_equal hv] at hrun
    cases hrun
    intro horder
    have hA := horder.list
    rw [h.list] at hA
    have hpos : c.capacity ≠ 0 := by
      intro hzero
      have hnil : A = [] := List.eq_nil_of_length_eq_zero (by have := h.length; omega)
      rw [hnil] at hv
      cases hv
    obtain ⟨cap, hcap⟩ := Nat.exists_eq_add_one_of_ne_zero hpos
    apply hhead
    rw [hA, hcap]
    rfl
  | get | remove | clear => exact absurd trivial hplain

theorem Sound.run_iff (h : Sound c A) (ops : List (Op K V)) :
    Keeps c A ops ↔ AllPlain c.capacity A ops := by
  induction ops generalizing c A with
  | nil => exact iff_of_true h.toInOrder trivial
  | cons op ops ih =>
    constructor
    · rintro ⟨-, c', hrun, hkeeps⟩
      have horder : InOrder c' (op.use c.capacity A) := by
        cases ops with
        | nil => exact hkeeps
        | cons => exact hkeeps.1
      have hplain : op.Plain A := by
        by_contra hplain
        exact h.not_plain hplain hrun horder
      obtain ⟨c₁, hrun₁, hsound, hcap⟩ := h.plain hplain
      rw [hrun] at hrun₁
      cases hrun₁
      refine ⟨hplain, ?_⟩
      rw [← hcap] at hkeeps ⊢
      exact (ih (hcap.symm ▸ hsound)).1 hkeeps
    · rintro ⟨hplain, hall⟩
      obtain ⟨c', hrun, hsound, hcap⟩ := h.plain hplain
      refine ⟨h.toInOrder, c', hrun, ?_⟩
      rw [ih hsound, hcap]
      exact hall

end

section
variable [DecidableEq V]

omit [DecidableEq V] in
theorem sound_new (capacity : Nat) : Sound (Cache.new capacity : Cache K V) [] :=
  ⟨⟨⟨rfl, List.nodup_nil, fun k it => by simp [Cache.new]⟩, List.nodup_nil, nofun⟩, Nat.zero_le _⟩

/-- **The order of use**: the cache holds the most recently used keys in their order, with the
values of their last `put`, exactly in the runs where a key is put with the value that it has only
when it is at the front. -/
theorem recency_iff (capacity : Nat) (ops : List (Op K V)) :
    Keeps (Cache.new capacity) [] ops ↔ AllPlain capacity [] ops :=
  (sound_new capacity).run_iff ops

end

/-- Keys 1 and 2, and key 1 again with its value: key 2 stays in front of it. -/
theorem put_equal_not_used : ¬Keeps (Cache.new 2) [] [Op.put 1 1, .put 2 2, .put 1 1] := by
  intro h
  have hplain := ((sound_new 2).run_iff _).1 h
  exact absurd (hplain.2.2.1 rfl) (by decide)

end ToftLruCache
