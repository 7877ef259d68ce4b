import DsAlgor.Lib.Circular
import Mathlib.Data.List.Basic
import Mathlib.Logic.Function.Basic

/-!
# The skip list of RocksDB

The class `SkipList` with a single writer, over any keys with a total order. Node `0` is `head_`;
the others come from `brk`, and `none` is `nullptr`. A failed `assert` is a fault, and so is a loop
that does not come to its end.
-/

namespace Rocksdb

abbrev Ptr := Nat

/-- `compare_`: a total order. -/
structure Comparator (Key : Type) where
  compare : Key → Key → Int
  compare_eq : ∀ a b, compare a b = 0 ↔ a = b
  compare_pos : ∀ a b, 0 < compare a b ↔ compare b a < 0
  compare_trans : ∀ a b c, compare a b < 0 → compare b c < 0 → compare a c < 0

inductive Fault
  | assertion
  | loop
  deriving DecidableEq

structure SkipList (Key : Type) where
  /-- `max_height_` -/
  maxHeight : Nat
  /-- `prev_` -/
  prev : Nat → Ptr
  /-- `prev_height_` -/
  prevHeight : Nat
  /-- `next_[n]` of a node. -/
  next : Ptr → Nat → Option Ptr
  key : Ptr → Key
  brk : Ptr

section
variable {Key : Type}

/-- The constructor; any key will do for the head. -/
def SkipList.new (any : Key) : SkipList Key :=
  { maxHeight := 1
    prev := fun _ => 0
    prevHeight := 1
    next := fun _ _ => none
    key := fun _ => any
    brk := 1 }

/-- `assert` -/
def check (b : Bool) : Except Fault Unit := if b then .ok () else .error .assertion

variable (cmp : Comparator Key) (l : SkipList Key)

def equal (a b : Key) : Bool := cmp.compare a b = 0

/-- `nullptr` is considered infinite. -/
def keyIsAfterNode (key : Key) : Option Ptr → Bool
  | none => false
  | some n => cmp.compare (l.key n) key < 0

/-- The asserts of the searches: the lists are sorted, and the search has not overshot. -/
def checkSearch (key : Key) (x : Ptr) (next : Option Ptr) : Except Fault Unit := do
  check (x = 0 || match next with
    | none => true
    | some n => keyIsAfterNode cmp l (l.key n) (some x))
  check (x = 0 || keyIsAfterNode cmp l key (some x))

/-! ## Searches -/

/-- The loop of `FindGreaterOrEqual`. -/
def findGreaterOrEqualLoop (key : Key) : Nat → Ptr → Nat → Option Ptr → Except Fault (Option Ptr)
  | 0, _, _, _ => .error .loop
  | fuel + 1, x, level, lastBigger => do
    let next := l.next x level
    checkSearch cmp l key x next
    match next with
    | none =>
      if level = 0 then return next
      else findGreaterOrEqualLoop key fuel x (level - 1) next
    | some n =>
      let c := if next = lastBigger then 1 else cmp.compare (l.key n) key
      if c = 0 ∨ (c > 0 ∧ level = 0) then return next
      else if c < 0 then findGreaterOrEqualLoop key fuel n level lastBigger
      else findGreaterOrEqualLoop key fuel x (level - 1) next

def findGreaterOrEqual (key : Key) : Except Fault (Option Ptr) :=
  findGreaterOrEqualLoop cmp l key (l.brk + l.maxHeight) 0 (l.maxHeight - 1) none

/-- The loop of `FindLessThan`, with the array that it fills. -/
def findLessThanLoop (key : Key) : Nat → Ptr → Nat → Option Ptr → (Nat → Ptr) → Except Fault
    (Ptr × (Nat → Ptr))
  | 0, _, _, _, _ => .error .loop
  | fuel + 1, x, level, lastNotAfter, prev => do
    let next := l.next x level
    checkSearch cmp l key x next
    match next with
    | some n =>
      if next ≠ lastNotAfter ∧ keyIsAfterNode cmp l key next then
        findLessThanLoop key fuel n level lastNotAfter prev
      else
        let prev := Function.update prev level x
        if level = 0 then return (x, prev)
        else findLessThanLoop key fuel x (level - 1) next prev
    | none =>
      let prev := Function.update prev level x
      if level = 0 then return (x, prev)
      else findLessThanLoop key fuel x (level - 1) next prev

def findLessThan (key : Key) (prev : Nat → Ptr) : Except Fault (Ptr × (Nat → Ptr)) :=
  findLessThanLoop cmp l key (l.brk + l.maxHeight) 0 (l.maxHeight - 1) none prev

def contains (key : Key) : Except Fault Bool := do
  match ← findGreaterOrEqual cmp l key with
  | some x => return equal cmp key (l.key x)
  | none => return false

/-! ## Insertion -/

/-- The test of the fast path for sequential insertion. -/
def sequential (key : Key) : Bool :=
  !keyIsAfterNode cmp l key (l.next (l.prev 0) 0) &&
    (l.prev 0 = 0 || keyIsAfterNode cmp l key (some (l.prev 0)))

/-- `prev_[i] = value` for `start <= i < stop`. -/
def fill (prev : Nat → Ptr) (start stop : Nat) (value : Ptr) : Nat → Ptr :=
  (List.range' start (stop - start)).foldl (fun prev i => Function.update prev i value) prev

/-- The fast path. -/
def sequentialPrev : Nat → Ptr := fill l.prev 1 l.prevHeight (l.prev 0)

/-- The predecessors of the key. -/
def findPrev (key : Key) : Except Fault (Nat → Ptr) :=
  if sequential cmp l key then do
    check (l.prev 0 ≠ 0 || (l.prevHeight = 1 && l.maxHeight = 1))
    return sequentialPrev l
  else (findLessThan cmp l key l.prev).map Prod.snd

/-- The data structure does not allow duplicate insertion. -/
def notDuplicate (key : Key) : Option Ptr → Bool
  | none => true
  | some n => !equal cmp key (l.key n)

/-- One round of the loop that links the new node `x`. -/
def link (prev : Nat → Ptr) (x : Ptr) (next : Ptr → Nat → Option Ptr) (i : Nat) :
    Ptr → Nat → Option Ptr :=
  let next := Function.update next x (Function.update (next x) i (next (prev i) i))
  Function.update next (prev i) (Function.update (next (prev i)) i (some x))

/-- `Insert`, where `RandomHeight` gave `height`. -/
def insert (key : Key) (height : Nat) : Except Fault (SkipList Key) := do
  let prev ← findPrev cmp l key
  check (notDuplicate cmp l key (l.next (prev 0) 0))
  let prev := if height > l.maxHeight then fill prev l.maxHeight height 0 else prev
  let maxHeight := if height > l.maxHeight then height else l.maxHeight
  let x := l.brk
  return {
    maxHeight := maxHeight
    prev := Function.update prev 0 x
    prevHeight := height
    next := (List.range height).foldl (link prev x) l.next
    key := Function.update l.key x key
    brk := l.brk + 1 }

/-- Insertions one after the other, each with its height. -/
def run (ops : List (Key × Nat)) : Except Fault (SkipList Key) :=
  ops.foldlM (fun l op => insert cmp l op.1 op.2) l

end

/-! ## Searches

`Linked cmp l S`: the nodes of the list are `S`, in ascending order, and on level `i` exactly those
of height above `i` are linked. `findLessThan` finds the predecessors of a key on all levels
(`findLessThan_spec`), and `findGreaterOrEqual` the first node that is not before it
(`findGreaterOrEqual_spec`).
-/

open Circular (lastOr lastOr_nil lastOr_concat)

structure Node (Key : Type) where
  ptr : Ptr
  key : Key
  height : Nat

section
variable {Key : Type} {cmp : Comparator Key} {l : SkipList Key} {S A B C D : List (Node Key)}
  {n : Node Key} {i j : Nat} {key : Key}

/-- The nodes of level `i`. -/
def ptrs (S : List (Node Key)) (i : Nat) : List Ptr := (S.filter (i < ·.height)).map Node.ptr

/-- The last node of level `i` in `A`, or the head. -/
def lastAt (A : List (Node Key)) (i : Nat) : Ptr := lastOr 0 (ptrs A i)

/-- The first node of level `i` in `B`. -/
def firstAt (B : List (Node Key)) (i : Nat) : Option Ptr := (ptrs B i).head?

structure Linked (cmp : Comparator Key) (l : SkipList Key) (S : List (Node Key)) : Prop where
  next : ∀ i A B, S = A ++ B → l.next (lastAt A i) i = firstAt B i
  nodup : (S.map Node.ptr).Nodup
  bound : ∀ n ∈ S, 0 < n.ptr ∧ n.ptr < l.brk
  key : ∀ n ∈ S, l.key n.ptr = n.key
  sorted : S.Pairwise fun a b => cmp.compare a.key b.key < 0
  height : ∀ n ∈ S, 1 ≤ n.height ∧ n.height ≤ l.maxHeight
  level : 1 ≤ l.maxHeight
  length : S.length < l.brk

/-! ## Rows -/

theorem ptrs_append : ptrs (A ++ B) i = ptrs A i ++ ptrs B i := by
  unfold ptrs
  rw [List.filter_append, List.map_append]

theorem ptrs_cons : ptrs (n :: B) i = if i < n.height then n.ptr :: ptrs B i else ptrs B i := by
  unfold ptrs
  by_cases h : i < n.height
  · simp [h]
  · simp [h]

theorem ptrs_eq_nil (h : ∀ n ∈ S, n.height ≤ i) : ptrs S i = [] := by
  unfold ptrs
  rw [List.filter_eq_nil_iff.2 fun n hn => by simpa using h n hn]
  rfl

theorem mem_ptrs {p : Ptr} : p ∈ ptrs S i ↔ ∃ n ∈ S, i < n.height ∧ n.ptr = p := by
  unfold ptrs
  simp [and_assoc]

theorem firstAt_low (h : ∀ n ∈ C, n.height ≤ i) : firstAt (C ++ D) i = firstAt D i := by
  unfold firstAt
  rw [ptrs_append, ptrs_eq_nil h, List.nil_append]

theorem firstAt_cons (h : i < n.height) : firstAt (n :: D) i = some n.ptr := by
  unfold firstAt
  rw [ptrs_cons, if_pos h]
  rfl

theorem lastAt_low (h : ∀ n ∈ D, n.height ≤ i) : lastAt (C ++ D) i = lastAt C i := by
  unfold lastAt
  rw [ptrs_append, ptrs_eq_nil h, List.append_nil]

theorem lastAt_concat (h : i < n.height) : lastAt (C ++ [n]) i = n.ptr := by
  unfold lastAt
  rw [ptrs_append, ptrs_cons, if_pos h]
  exact lastOr_concat

theorem lastAt_nil : lastAt ([] : List (Node Key)) i = 0 := rfl

theorem firstAt_mem {p : Ptr} (h : firstAt B i = some p) : ∃ n ∈ B, n.ptr = p := by
  obtain ⟨n, hn, -, hp⟩ := mem_ptrs.1 (List.mem_of_head? h)
  exact ⟨n, hn, hp⟩

/-- The first node of a level, if there is one. -/
theorem split_first (B : List (Node Key)) (i : Nat) : (∀ n ∈ B, n.height ≤ i) ∨
    ∃ (B₁ : List (Node Key)) (n : Node Key) (B₂ : List (Node Key)), B = B₁ ++ n :: B₂ ∧
      (∀ m ∈ B₁, m.height ≤ i) ∧ i < n.height := by
  cases h : B.find? (i < ·.height) with
  | none => exact .inl fun n hn => by simpa using List.find?_eq_none.1 h n hn
  | some n =>
    obtain ⟨hn, B₁, B₂, hB, hlow⟩ := List.find?_eq_some_iff_append.1 h
    exact .inr ⟨B₁, n, B₂, hB, fun m hm => by simpa using hlow m hm, of_decide_eq_true hn⟩

/-- `A` is empty, or its last node is on level `i`. -/
def Ends (A : List (Node Key)) (i : Nat) : Prop := A = [] ∨ ∃ A₀ n, A = A₀ ++ [n] ∧ i < n.height

theorem Ends.mono (h : Ends A i) (hij : j ≤ i) : Ends A j := by
  cases h with
  | inl h => exact .inl h
  | inr h =>
    obtain ⟨A₀, n, hA, hn⟩ := h
    exact .inr ⟨A₀, n, hA, lt_of_le_of_lt hij hn⟩

theorem Ends.lastAt_eq (h : Ends A i) (hij : j ≤ i) : lastAt A j = lastAt A i := by
  cases h with
  | inl h => rw [h, lastAt_nil, lastAt_nil]
  | inr h =>
    obtain ⟨A₀, n, rfl, hn⟩ := h
    rw [lastAt_concat hn, lastAt_concat (lt_of_le_of_lt hij hn)]

/-! ## Keys -/

/-- `key` comes behind `A` and not behind the nodes of `B`. -/
structure Between (cmp : Comparator Key) (key : Key) (A B : List (Node Key)) : Prop where
  before : ∀ n ∈ A, cmp.compare n.key key < 0
  behind : ∀ n ∈ B, ¬ cmp.compare n.key key < 0

/-- Every key has its place. -/
theorem Linked.between (h : Linked cmp l S) (key : Key) :
    ∃ A B, S = A ++ B ∧ Between cmp key A B := by
  have hsorted := h.sorted
  clear h
  induction S with
  | nil => exact ⟨[], [], rfl, nofun, nofun⟩
  | cons n S ih =>
    obtain ⟨hn, hS⟩ := List.pairwise_cons.1 hsorted
    by_cases hlt : cmp.compare n.key key < 0
    · obtain ⟨A, B, rfl, hbetween⟩ := ih hS
      refine ⟨n :: A, B, rfl, fun m hm => ?_, hbetween.behind⟩
      cases List.mem_cons.1 hm with
      | inl he => rw [he]; exact hlt
      | inr hm => exact hbetween.before m hm
    · refine ⟨[], n :: S, rfl, nofun, fun m hm => ?_⟩
      cases List.mem_cons.1 hm with
      | inl he => rw [he]; exact hlt
      | inr hm => exact fun hc => hlt (cmp.compare_trans _ _ _ (hn m hm) hc)

theorem Linked.keyIsAfterNode (h : Linked cmp l S) (hn : n ∈ S) (key : Key) :
    keyIsAfterNode cmp l key (some n.ptr) = decide (cmp.compare n.key key < 0) := by
  rw [Rocksdb.keyIsAfterNode, h.key n hn]

/-- The asserts of the searches. -/
theorem Linked.checkSearch (h : Linked cmp l (A ++ B)) (hA : ∀ n ∈ A, cmp.compare n.key key < 0)
    (hends : Ends A i) : checkSearch cmp l key (lastAt A i) (firstAt B i) = .ok () := by
  unfold Rocksdb.checkSearch
  cases hends with
  | inl hnil =>
    rw [hnil, lastAt_nil]
    rfl
  | inr hlast =>
    obtain ⟨A₀, n, rfl, hn⟩ := hlast
    have hmem : n ∈ A₀ ++ [n] := List.mem_append_right _ (List.mem_singleton_self n)
    have hafter := h.keyIsAfterNode (List.mem_append_left B hmem) key
    rw [decide_eq_true (hA n hmem)] at hafter
    rw [lastAt_concat hn, hafter]
    cases hf : firstAt B i with
    | none => simp [check, bind, Except.bind]
    | some p =>
      obtain ⟨m, hm, hp⟩ := firstAt_mem hf
      have hlt : cmp.compare n.key m.key < 0 := (List.pairwise_append.1 h.sorted).2.2 n hmem m hm
      have hafter' := h.keyIsAfterNode (List.mem_append_left B hmem) m.key
      rw [decide_eq_true hlt] at hafter'
      have hkey := h.key m (List.mem_append_right _ hm)
      simp [check, bind, Except.bind, ← hp, hkey, hafter']

/-! ## `FindLessThan` -/

/-- The next node on level `i`, seen from the last node of `A₁`: it is before the key, or it is
not. -/
theorem Linked.next_cases {A₁ A₂ : List (Node Key)} (h : Linked cmp l (A₁ ++ A₂ ++ B)) (i : Nat) :
    ((∀ n ∈ A₂, n.height ≤ i) ∧ l.next (lastAt A₁ i) i = firstAt B i ∧
    lastAt (A₁ ++ A₂) i = lastAt A₁ i) ∨
      ∃ (C : List (Node Key)) (n : Node Key) (D : List (Node Key)), A₂ = C ++ n :: D ∧
        i < n.height ∧ l.next (lastAt A₁ i) i = some n.ptr := by
  have hnext := h.next i A₁ (A₂ ++ B) (List.append_assoc _ _ _)
  cases split_first A₂ i with
  | inl hlow =>
    rw [firstAt_low hlow] at hnext
    exact .inl ⟨hlow, hnext, lastAt_low hlow⟩
  | inr hsplit =>
    obtain ⟨C, n, D, rfl, hlow, hn⟩ := hsplit
    rw [List.append_assoc, firstAt_low hlow, List.cons_append, firstAt_cons hn] at hnext
    exact .inr ⟨C, n, D, rfl, hn, hnext⟩

/-- A node before the key is not the one that stopped the search on the level above. -/
theorem Linked.ne_firstAt (h : Linked cmp l (A ++ B)) (hn : n ∈ A) (j : Nat) :
    some n.ptr ≠ firstAt B j := by
  intro he
  obtain ⟨m, hm, hp⟩ := firstAt_mem he.symm
  have hnd := h.nodup
  rw [List.map_append] at hnd
  exact (List.nodup_append.1 hnd).2.2 _ (List.mem_map_of_mem hn) _ (List.mem_map_of_mem hm) hp.symm

/-- The search goes down: the next node is not before the key. -/
theorem findLessThanLoop_down (hkey : Between cmp key A B) (h : Linked cmp l (A ++ B))
    {fuel : Nat} {x : Ptr} {lastNotAfter : Option Ptr} {prev : Nat → Ptr}
    (hnext : l.next x i = firstAt B i)
    (hcheck : checkSearch cmp l key x (firstAt B i) = .ok ()) :
    findLessThanLoop cmp l key (fuel + 1) x i lastNotAfter prev =
      if i = 0 then .ok (x, Function.update prev i x)
      else findLessThanLoop cmp l key fuel x (i - 1) (firstAt B i) (Function.update prev i x) := by
  rw [findLessThanLoop]
  simp only [hnext, hcheck, bind, Except.bind]
  cases hf : firstAt B i with
  | none => rfl
  | some p =>
    obtain ⟨n, hn, hp⟩ := firstAt_mem hf
    have hafter := h.keyIsAfterNode (List.mem_append_right A hn) key
    rw [decide_eq_false (hkey.behind n hn), hp] at hafter
    simp only [hafter, Bool.false_eq_true, and_false, if_false]
    rfl

/-- The search goes on: the next node is before the key. -/
theorem findLessThanLoop_right (hkey : Between cmp key A B) (h : Linked cmp l (A ++ B))
    {fuel : Nat} {x : Ptr} {prev : Nat → Ptr} (hn : n ∈ A) (hnext : l.next x i = some n.ptr)
    (hcheck : checkSearch cmp l key x (some n.ptr) = .ok ()) :
    findLessThanLoop cmp l key (fuel + 1) x i (firstAt B (i + 1)) prev =
      findLessThanLoop cmp l key fuel n.ptr i (firstAt B (i + 1)) prev := by
  have hafter := h.keyIsAfterNode (List.mem_append_left B hn) key
  rw [decide_eq_true (hkey.before n hn)] at hafter
  rw [findLessThanLoop]
  simp only [hnext, hcheck, bind, Except.bind]
  rw [if_pos ⟨h.ne_firstAt hn (i + 1), hafter⟩]

/-- The asserts in a round of a search. -/
theorem Linked.checkRound {A₁ A₂ : List (Node Key)} (h : Linked cmp l (A₁ ++ A₂ ++ B))
    (hA : ∀ n ∈ A₁ ++ A₂, cmp.compare n.key key < 0) (hends : Ends A₁ i) :
    Rocksdb.checkSearch cmp l key (lastAt A₁ i) (l.next (lastAt A₁ i) i) = .ok () := by
  rw [h.next i A₁ (A₂ ++ B) (List.append_assoc _ _ _)]
  rw [List.append_assoc] at h
  exact h.checkSearch (fun n hn => hA n (List.mem_append_left _ hn)) hends

theorem findLessThanLoop_spec (hkey : Between cmp key A B) (h : Linked cmp l (A ++ B)) :
    ∀ (fuel i : Nat) (prev : Nat → Ptr) {A₁ A₂ : List (Node Key)}, A = A₁ ++ A₂ → Ends A₁ i →
      A₂.length + i < fuel →
      ∃ prev', findLessThanLoop cmp l key fuel (lastAt A₁ i) i (firstAt B (i + 1)) prev = .ok
        (lastAt A 0, prev') ∧ (∀ k ≤ i, prev' k = lastAt A k) ∧ ∀ k > i, prev' k = prev k
  | 0, i, _, _, _, _, _, hfuel => absurd hfuel (Nat.not_lt_zero _)
  | fuel + 1, i, prev, A₁, A₂, hA, hends, hfuel => by
    have hsplit : Linked cmp l (A₁ ++ A₂ ++ B) := hA ▸ h
    have hcheck := hsplit.checkRound (fun n hn => hkey.before n (hA ▸ hn)) hends
    cases hsplit.next_cases i with
    | inl hlow =>
      obtain ⟨-, hnext, hlast⟩ := hlow
      rw [hnext] at hcheck
      rw [← hA] at hlast
      rw [findLessThanLoop_down hkey h hnext hcheck]
      cases i with
      | zero =>
        refine ⟨Function.update prev 0 (lastAt A₁ 0), ?_, fun k hk => ?_, fun k hk => ?_⟩
        · rw [if_pos rfl, ← hlast]
        · rw [Nat.le_zero.1 hk, Function.update_self, hlast]
        · exact Function.update_of_ne (Nat.ne_of_gt hk) _ _
      | succ i =>
        obtain ⟨prev', hrun, hset, hkeep⟩ := findLessThanLoop_spec hkey h fuel i
          (Function.update prev (i + 1) (lastAt A₁ (i + 1))) hA (hends.mono (Nat.le_succ i))
          (by omega)
        rw [hends.lastAt_eq (Nat.le_succ i)] at hrun
        refine ⟨prev', ?_, fun k hk => ?_, fun k hk => ?_⟩
        · rw [if_neg (Nat.succ_ne_zero i)]
          exact hrun
        · cases Nat.lt_or_eq_of_le hk with
          | inl hlt => exact hset k (Nat.le_of_lt_succ hlt)
          | inr heq => rw [heq, hkeep (i + 1) (Nat.lt_succ_self i), Function.update_self, hlast]
        · rw [hkeep k (by omega), Function.update_of_ne (by omega)]
    | inr hright =>
      obtain ⟨C, n, D, hA₂, hn, hnext⟩ := hright
      rw [hnext] at hcheck
      have hA' : A = (A₁ ++ C ++ [n]) ++ D := by simp [hA, hA₂]
      have hmem : n ∈ A := by simp [hA']
      rw [findLessThanLoop_right hkey h hmem hnext hcheck]
      have hlen : D.length + i < fuel := by
        rw [hA₂, List.length_append, List.length_cons] at hfuel
        omega
      have hrest := findLessThanLoop_spec hkey h fuel i prev hA' (.inr ⟨A₁ ++ C, n, rfl, hn⟩) hlen
      rw [lastAt_concat hn] at hrest
      exact hrest

theorem firstAt_top (h : Linked cmp l (A ++ B)) : firstAt B (l.maxHeight - 1 + 1) = none := by
  unfold firstAt
  rw [ptrs_eq_nil]
  · rfl
  · intro n hn
    have hheight := (h.height n (List.mem_append_right A hn)).2
    have := h.level
    omega

/-- **`FindLessThan`** finds the predecessors of the key on all levels. -/
theorem findLessThan_spec (hkey : Between cmp key A B) (h : Linked cmp l (A ++ B))
    (prev : Nat → Ptr) :
    ∃ prev', findLessThan cmp l key prev = .ok (lastAt A 0, prev') ∧
      (∀ k < l.maxHeight, prev' k = lastAt A k) ∧ ∀ k ≥ l.maxHeight, prev' k = prev k := by
  have hlevel := h.level
  have hlen := h.length
  rw [List.length_append] at hlen
  obtain ⟨prev', hrun, hset, hkeep⟩ :=
    findLessThanLoop_spec hkey h (l.brk + l.maxHeight) (l.maxHeight - 1) prev
      (List.nil_append A).symm (.inl rfl) (by omega)
  rw [firstAt_top h] at hrun
  exact ⟨prev', hrun, fun k hk => hset k (by omega), fun k hk => hkeep k (by omega)⟩

/-! ## `FindGreaterOrEqual` -/

/-- A node with the key itself is the first one that is not before it. -/
theorem Between.first (hkey : Between cmp key A B) (h : Linked cmp l (A ++ B)) (hn : n ∈ B)
    (heq : n.key = key) :
    firstAt B 0 = some n.ptr := by
  cases B with
  | nil => cases hn
  | cons m B =>
    have hm : 0 < m.height := (h.height m (by simp)).1
    cases List.mem_cons.1 hn with
    | inl he => rw [firstAt_cons hm, he]
    | inr hn =>
      have hlt := (List.pairwise_cons.1 (List.pairwise_append.1 h.sorted).2.1).1 n hn
      rw [heq] at hlt
      exact absurd hlt (hkey.behind m List.mem_cons_self)

/-- The node that stopped the search on the level above does not have the key. -/
def Bigger (key : Key) (B : List (Node Key)) (i : Nat) : Prop :=
  ∀ n ∈ B, firstAt B i = some n.ptr → n.key ≠ key

/-- The search goes down or ends: the next node is not before the key. -/
theorem findGreaterOrEqualLoop_down (hkey : Between cmp key A B) (h : Linked cmp l (A ++ B))
    {fuel : Nat} {x : Ptr} (hbig : Bigger key B (i + 1)) (hnext : l.next x i = firstAt B i)
    (hcheck : checkSearch cmp l key x (firstAt B i) = .ok ()) :
    findGreaterOrEqualLoop cmp l key (fuel + 1) x i (firstAt B (i + 1)) = .ok (firstAt B 0) ∨
      (0 < i ∧ Bigger key B i ∧ findGreaterOrEqualLoop cmp l key (fuel + 1) x i
      (firstAt B (i + 1)) = findGreaterOrEqualLoop cmp l key fuel x (i - 1) (firstAt B i)) := by
  rw [findGreaterOrEqualLoop]
  simp only [hnext, hcheck, bind, Except.bind]
  cases hf : firstAt B i with
  | none =>
    by_cases hi : i = 0
    · rw [hi] at hf
      left
      rw [hf, hi]
      rfl
    · right
      refine ⟨Nat.pos_of_ne_zero hi, fun n _ hn => ?_, if_neg hi⟩
      rw [hf] at hn
      cases hn
  | some p =>
    obtain ⟨n, hn, hp⟩ := firstAt_mem hf
    have hkeyn : l.key p = n.key := hp ▸ h.key n (List.mem_append_right A hn)
    have hzero : cmp.compare n.key key = 0 ↔ n.key = key := cmp.compare_eq n.key key
    have hge := not_lt.1 (hkey.behind n hn)
    -- the result of the comparison, or 1 where it is known from the level above
    have hc : ∃ c : Int, (if some p = firstAt B (i + 1) then 1 else cmp.compare (l.key p) key) = c ∧
        0 ≤ c ∧
        (c = 0 ↔ n.key = key) := by
      refine ⟨_, rfl, ?_⟩
      by_cases hlast : some p = firstAt B (i + 1)
      · rw [if_pos hlast]
        refine ⟨Int.one_nonneg, fun h1 => absurd h1 one_ne_zero, fun he => ?_⟩
        exact absurd he (hbig n hn (hp ▸ hlast.symm))
      · rw [if_neg hlast, hkeyn]
        exact ⟨hge, hzero⟩
    obtain ⟨c, hc, hnonneg, hc0⟩ := hc
    simp only [hc]
    by_cases hcz : c = 0
    · left
      rw [if_pos (.inl hcz), hkey.first h hn (hc0.1 hcz), hp]
      rfl
    · by_cases hi : i = 0
      · left
        rw [if_pos (.inr ⟨lt_of_le_of_ne hnonneg (Ne.symm hcz), hi⟩)]
        rw [hi] at hf
        rw [hf]
        rfl
      · right
        refine ⟨Nat.pos_of_ne_zero hi, fun m hm hfirst hk => ?_, ?_⟩
        · have hpm : p = m.ptr := Option.some.inj (hf.symm.trans hfirst)
          have hkeym := h.key m (List.mem_append_right A hm)
          rw [← hpm, hkeyn] at hkeym
          exact hcz (hc0.2 (hkeym.trans hk))
        · rw [if_neg fun hor => hor.elim hcz fun hand => hi hand.2, if_neg (not_lt.2 hnonneg)]

/-- The search goes on: the next node is before the key. -/
theorem findGreaterOrEqualLoop_right (hkey : Between cmp key A B) (h : Linked cmp l (A ++ B))
    {fuel : Nat} {x : Ptr} (hn : n ∈ A) (hnext : l.next x i = some n.ptr)
    (hcheck : checkSearch cmp l key x (some n.ptr) = .ok ()) :
    findGreaterOrEqualLoop cmp l key (fuel + 1) x i (firstAt B (i + 1)) =
      findGreaterOrEqualLoop cmp l key fuel n.ptr i (firstAt B (i + 1)) := by
  have hlt := hkey.before n hn
  rw [findGreaterOrEqualLoop]
  simp only [hnext, hcheck, bind, Except.bind]
  rw [if_neg (h.ne_firstAt hn (i + 1)), h.key n (List.mem_append_left B hn),
    if_neg (by omega), if_pos hlt]

theorem findGreaterOrEqualLoop_spec (hkey : Between cmp key A B) (h : Linked cmp l (A ++ B)) :
    ∀ (fuel i : Nat) {A₁ A₂ : List (Node Key)}, A = A₁ ++ A₂ → Ends A₁ i → Bigger key B (i + 1) →
      A₂.length + i < fuel →
      findGreaterOrEqualLoop cmp l key fuel (lastAt A₁ i) i (firstAt B (i + 1)) = .ok (firstAt B 0)
  | 0, i, _, _, _, _, _, hfuel => absurd hfuel (Nat.not_lt_zero _)
  | fuel + 1, i, A₁, A₂, hA, hends, hbig, hfuel => by
    have hsplit : Linked cmp l (A₁ ++ A₂ ++ B) := hA ▸ h
    have hcheck := hsplit.checkRound (fun n hn => hkey.before n (hA ▸ hn)) hends
    cases hsplit.next_cases i with
    | inl hlow =>
      obtain ⟨-, hnext, -⟩ := hlow
      rw [hnext] at hcheck
      cases findGreaterOrEqualLoop_down hkey h hbig hnext hcheck with
      | inl hdone => exact hdone
      | inr hdown =>
        obtain ⟨hpos, hbig', hdown⟩ := hdown
        obtain ⟨j, rfl⟩ := Nat.exists_eq_succ_of_ne_zero hpos.ne'
        have hrest := findGreaterOrEqualLoop_spec hkey h fuel j hA (hends.mono (Nat.le_succ j))
          hbig' (by omega)
        rw [hends.lastAt_eq (Nat.le_succ j)] at hrest
        rw [hdown]
        exact hrest
    | inr hright =>
      obtain ⟨C, n, D, hA₂, hn, hnext⟩ := hright
      rw [hnext] at hcheck
      have hA' : A = (A₁ ++ C ++ [n]) ++ D := by simp [hA, hA₂]
      have hmem : n ∈ A := by simp [hA']
      rw [findGreaterOrEqualLoop_right hkey h hmem hnext hcheck]
      have hlen : D.length + i < fuel := by
        rw [hA₂, List.length_append, List.length_cons] at hfuel
        omega
      have hrest := findGreaterOrEqualLoop_spec hkey h fuel i hA'
        (.inr ⟨A₁ ++ C, n, rfl, hn⟩) hbig hlen
      rw [lastAt_concat hn] at hrest
      exact hrest

/-- **`FindGreaterOrEqual`** finds the first node that is not before the key. -/
theorem findGreaterOrEqual_spec (hkey : Between cmp key A B) (h : Linked cmp l (A ++ B)) :
    findGreaterOrEqual cmp l key = .ok (firstAt B 0) := by
  have hlevel := h.level
  have hlen := h.length
  rw [List.length_append] at hlen
  have htop := firstAt_top h
  have hbig : Bigger key B (l.maxHeight - 1 + 1) := by
    intro n _ hn
    rw [htop] at hn
    cases hn
  have hrun := findGreaterOrEqualLoop_spec hkey h (l.brk + l.maxHeight) (l.maxHeight - 1)
    (List.nil_append A).symm (.inl rfl) hbig (by omega)
  rw [htop] at hrun
  exact hrun

/-- **`Contains`**. -/
theorem contains_spec (h : Linked cmp l S) (key : Key) :
    ∃ b, contains cmp l key = .ok b ∧ (b = true ↔ ∃ n ∈ S, n.key = key) := by
  obtain ⟨A, B, rfl, hkey⟩ := h.between key
  have hbehind : ∀ n ∈ A ++ B, n.key = key → n ∈ B := by
    intro n hn hk
    cases List.mem_append.1 hn with
    | inl hA =>
      have hlt := hkey.before n hA
      rw [(cmp.compare_eq _ _).2 hk] at hlt
      exact absurd hlt (lt_irrefl 0)
    | inr hB => exact hB
  unfold contains
  rw [findGreaterOrEqual_spec hkey h]
  cases hf : firstAt B 0 with
  | none =>
    refine ⟨false, rfl, nofun, fun ⟨n, hn, hk⟩ => ?_⟩
    rw [hkey.first h (hbehind n hn hk) hk] at hf
    cases hf
  | some p =>
    obtain ⟨m, hm, hp⟩ := firstAt_mem hf
    have hkeym : l.key p = m.key := hp ▸ h.key m (List.mem_append_right A hm)
    refine ⟨equal cmp key (l.key p), rfl, ?_⟩
    unfold equal
    rw [decide_eq_true_eq, cmp.compare_eq, hkeym]
    refine ⟨fun he => ⟨m, List.mem_append_right A hm, he.symm⟩, fun ⟨n, hn, hk⟩ => ?_⟩
    rw [hkey.first h (hbehind n hn hk) hk] at hf
    have hkeyn := h.key n hn
    rw [Option.some.inj hf, hkeym] at hkeyn
    exact (hkeyn.trans hk).symm

end

end Rocksdb
