import DsAlgor.Lib.Buckets
import DsAlgor.Lib.Chain
import DsAlgor.Lib.Circular
import Mathlib.Tactic

/-!
# Hash tables with chains

A table has `m` rows; row `i` is the chain of `next` pointers from `heads i` to `null`. A slot is
where a pointer to a node is kept: the head of a row or the field `next` of a node. Insertion,
replacement and removal are the same change, a slot with another chain behind it (`Chained.splice`).

`spread m index ns` is what a table has when the nodes `ns` are moved to it one after the other,
each to the front of its row.
-/

namespace HashChains

open Buckets Circular

variable {P : Type}

/-! ## Rows without repetitions -/

section
variable {m i : Nat} {rows : Nat → List P} {A B B' C D : List P} {x : P}

theorem mem_rows : x ∈ Buckets.rows m rows ↔ ∃ i < m, x ∈ rows i := by
  simp [Buckets.rows]

/-- Another row `i`, with the nodes of the other rows as they are. -/
theorem exists_others (rows : Nat → List P) (hi : i < m) : ∃ others,
    ∀ l, (Buckets.rows m (Function.update rows i l)).Perm (l ++ others) := by
  obtain ⟨rest, hrest⟩ := rows_update rows hi
  refine ⟨Buckets.rows i rows ++ rest, fun l => ?_⟩
  rw [hrest]
  exact List.perm_append_comm_assoc ..

/-- What is put for `B` in a row is put for `B` in the table. -/
theorem rows_splice (hi : i < m) (hrow : rows i = A ++ B)
    (hperm : (B' ++ C).Perm (B ++ D)) :
    (Buckets.rows m (Function.update rows i (A ++ B')) ++ C).Perm (Buckets.rows m rows ++ D) := by
  obtain ⟨others, h⟩ := exists_others rows hi
  have hold : (Buckets.rows m rows).Perm (A ++ B ++ others) := by
    have := h (rows i)
    rwa [Function.update_eq_self, hrow] at this
  calc (Buckets.rows m (Function.update rows i (A ++ B')) ++ C).Perm (A ++ B' ++ others ++ C) :=
        (h _).append_right C
    _ |>.Perm (others ++ A ++ (B' ++ C)) := by
        have : (A ++ B' ++ others).Perm (others ++ A ++ B') := by
          rw [List.append_assoc others]
          exact List.perm_append_comm
        simpa using this.append_right C
    _ |>.Perm (others ++ A ++ (B ++ D)) := hperm.append_left _
    _ |>.Perm (A ++ B ++ others ++ D) := by
        have : (others ++ A ++ B).Perm (A ++ B ++ others) := by
          rw [List.append_assoc others]
          exact List.perm_append_comm
        simpa using this.append_right D
    _ |>.Perm (Buckets.rows m rows ++ D) := hold.symm.append_right D

/-- A node is in one row only, and there only once. -/
theorem nodup_row (hnd : (Buckets.rows m rows).Nodup) (hi : i < m) : (rows i).Nodup := by
  obtain ⟨others, h⟩ := exists_others rows hi
  have hperm := h (rows i)
  rw [Function.update_eq_self] at hperm
  exact (List.nodup_append.1 (hperm.nodup_iff.1 hnd)).1

theorem notMem_other (hnd : (Buckets.rows m rows).Nodup) (hi : i < m) (hx : x ∈ rows i) {j : Nat}
    (hj : j < m) (hne : j ≠ i) : x ∉ rows j := by
  obtain ⟨others, h⟩ := exists_others rows hi
  have hperm := h (rows i)
  have hempty := h []
  rw [Function.update_eq_self] at hperm
  intro hxj
  have hmem : x ∈ others := by
    refine (hempty.mem_iff.1 (mem_rows.2 ⟨j, hj, ?_⟩))
    rwa [Function.update_of_ne hne]
  exact (List.nodup_append.1 (hperm.nodup_iff.1 hnd)).2.2 x hx x hmem rfl

/-- What is only in row `i`, in the order of the row. -/
theorem filter_rows {p : P → Bool} (hi : i < m)
    (h : ∀ j < m, j ≠ i → ∀ x ∈ rows j, p x = false) :
    (Buckets.rows m rows).filter p = (rows i).filter p := by
  have hskip : ∀ k ≤ m,
      (Buckets.rows k rows).filter p = if i < k then (rows i).filter p else [] := by
    intro k hk
    induction k with
    | zero => rfl
    | succ k ih =>
      rw [Buckets.rows_succ, List.filter_append, ih (by omega)]
      by_cases hki : k = i
      · rw [hki, if_neg (lt_irrefl i), if_pos (Nat.lt_succ_self i), List.nil_append]
      · have hnil : (rows k).filter p = [] :=
          List.filter_eq_nil_iff.2 fun x hx => by rw [h k (by omega) hki x hx]; simp
        rw [hnil, List.append_nil]
        by_cases hlt : i < k
        · rw [if_pos hlt, if_pos (by omega)]
        · rw [if_neg hlt, if_neg (by omega)]
  rw [hskip m le_rfl, if_pos hi]

/-- The rows without a node. -/
theorem update_eq_filter [DecidableEq P] (hnd : (Buckets.rows m rows).Nodup) (hi : i < m)
    (hrow : rows i = A ++ x :: B) {j : Nat} (hj : j < m) :
    Function.update rows i (A ++ B) j = (rows j).filter (· ≠ x) := by
  by_cases hji : j = i
  · subst hji
    have hnodup := nodup_row hnd hi
    rw [hrow] at hnodup
    obtain ⟨hA, hB⟩ := not_or.1 fun hor =>
      (List.nodup_cons.1 (List.nodup_middle.1 hnodup)).1 (List.mem_append.2 hor)
    have hkeep : ∀ L : List P, x ∉ L → L.filter (· ≠ x) = L := fun L hL =>
      List.filter_eq_self.2 fun y hy => decide_eq_true (ne_of_mem_of_not_mem hy hL)
    rw [Function.update_self, hrow, List.filter_append, List.filter_cons,
      if_neg (by simp), hkeep A hA, hkeep B hB]
  · have hx : x ∉ rows j := notMem_other hnd hi (by rw [hrow]; simp) hj hji
    rw [Function.update_of_ne hji]
    exact (List.filter_eq_self.2 fun y hy => decide_eq_true (ne_of_mem_of_not_mem hy hx)).symm

end

/-! ## Slots -/

/-- Where a pointer to a node is kept. -/
inductive Slot (P : Type) where
  | head (i : Nat)
  | next (p : P)

def Slot.load (heads : Nat → P) (next : P → P) : Slot P → P
  | .head i => heads i
  | .next p => next p

def Slot.store [DecidableEq P] (heads : Nat → P) (next : P → P) (q : P) :
    Slot P → (Nat → P) × (P → P)
  | .head i => (Function.update heads i q, next)
  | .next p => (heads, Function.update next p q)

/-- The slot of row `i` behind the nodes `A`. -/
def Slot.behind (i : Nat) (A : List P) : Slot P :=
  match A.getLast? with
  | none => .head i
  | some p => .next p

@[simp] theorem Slot.behind_nil (i : Nat) : (Slot.behind i [] : Slot P) = .head i := rfl

@[simp] theorem Slot.behind_concat (i : Nat) (A : List P) (p : P) :
    Slot.behind i (A ++ [p]) = .next p := by
  simp [Slot.behind]

/-- A store changes no pointer but that of the node before the slot. -/
theorem Slot.store_next [DecidableEq P] {heads heads' : Nat → P} {next next' : P → P} {i : Nat}
    {A : List P} {p q : P} (h : (Slot.behind i A).store heads next q = (heads', next'))
    (hp : p ∉ A) : next' p = next p := by
  cases A using List.reverseRecOn with
  | nil =>
    obtain ⟨-, rfl⟩ := Prod.mk.inj h
    rfl
  | append_singleton A x _ =>
    rw [Slot.behind_concat] at h
    obtain ⟨-, rfl⟩ := Prod.mk.inj h
    exact Function.update_of_ne (ne_of_mem_of_not_mem (by simp) hp).symm ..

/-- The rows of a table are chains of `next` pointers. -/
structure Chained (heads : Nat → P) (next : P → P) (null : P) (m : Nat) (rows : Nat → List P) :
    Prop where
  chain : ∀ i < m, Chain next (heads i) (rows i) null
  null : ∀ i < m, null ∉ rows i
  nodup : (Buckets.rows m rows).Nodup

section
variable {heads heads' : Nat → P} {next next' : P → P} {null q : P} {m i : Nat}
  {rows : Nat → List P} {A B B' : List P}

variable (h : Chained heads next null m rows)
include h

theorem Chained.head_eq (hi : i < m) (hrow : rows i = B) : heads i = headOr null B := by
  have hchain := h.chain i hi
  rw [hrow] at hchain
  cases B with
  | nil => exact hchain
  | cons p B => exact hchain.1

/-- What is behind a node. -/
theorem Chained.next_eq {p : P} (hi : i < m) (hrow : rows i = A ++ p :: B) :
    next p = headOr null B := by
  have hchain := h.chain i hi
  rw [hrow] at hchain
  obtain ⟨_, _, rfl, hrest⟩ := Chain.append.1 hchain
  cases B with
  | nil => exact hrest
  | cons p B => exact hrest.1

/-- A slot holds the node behind it. -/
theorem Chained.load (hi : i < m) (hrow : rows i = A ++ B) :
    (Slot.behind i A).load heads next = headOr null B := by
  cases A using List.reverseRecOn with
  | nil => exact h.head_eq hi hrow
  | append_singleton A p _ =>
    rw [Slot.behind_concat]
    exact h.next_eq hi (by rw [hrow, List.append_assoc, List.singleton_append])

theorem Chained.congr (hheads : ∀ i < m, heads' i = heads i)
    (hnext : ∀ p ∈ Buckets.rows m rows, next' p = next p) : Chained heads' next' null m rows where
  chain i hi := by
    rw [hheads i hi]
    exact (h.chain i hi).congr fun p hp => hnext p (mem_rows.2 ⟨i, hi, hp⟩)
  null := h.null
  nodup := h.nodup

/-- A slot gets another chain behind it. -/
theorem Chained.splice [DecidableEq P] (hi : i < m) (hrow : rows i = A ++ B)
    (hB' : Chain next q B' null) (hnull : null ∉ B')
    (hnd : (Buckets.rows m (Function.update rows i (A ++ B'))).Nodup)
    (hslot : (Slot.behind i A).store heads next q = (heads', next')) :
    Chained heads' next' null m (Function.update rows i (A ++ B')) := by
  have hself : Function.update rows i (A ++ B') i = A ++ B' := Function.update_self ..
  have hA : null ∉ A := fun hmem => h.null i hi (by rw [hrow]; exact List.mem_append_left B hmem)
  refine ⟨fun j hj => ?_, fun j hj => ?_, hnd⟩
  · cases A using List.reverseRecOn with
    | nil =>
      obtain ⟨rfl, rfl⟩ := Prod.mk.inj hslot
      by_cases hji : j = i
      · subst hji
        rw [hself, Function.update_self]
        exact hB'
      · rw [Function.update_of_ne hji, Function.update_of_ne hji]
        exact h.chain j hj
    | append_singleton A p _ =>
      rw [Slot.behind_concat] at hslot
      obtain ⟨rfl, rfl⟩ := Prod.mk.inj hslot
      have hp : p ∈ Function.update rows i (A ++ [p] ++ B') i := by
        rw [hself]
        simp
      by_cases hji : j = i
      · subst hji
        have hnodup := nodup_row hnd hi
        rw [hself, List.append_assoc, List.singleton_append] at hnodup ⊢
        obtain ⟨hpA, hpB⟩ := not_or.1 fun hor =>
          (List.nodup_cons.1 (List.nodup_middle.1 hnodup)).1 (List.mem_append.2 hor)
        have hchain := h.chain j hj
        rw [hrow, List.append_assoc] at hchain
        obtain ⟨_, hfront, rfl, -⟩ := Chain.append.1 hchain
        refine Chain.append.2 ⟨_, hfront.congr fun x hx => ?_, rfl, ?_⟩
        · exact Function.update_of_ne (ne_of_mem_of_not_mem hx hpA) ..
        · rw [Function.update_self]
          refine hB'.congr fun x hx => ?_
          exact Function.update_of_ne (ne_of_mem_of_not_mem hx hpB) ..
      · have hpj := notMem_other hnd hi hp hj hji
        rw [Function.update_of_ne hji] at hpj ⊢
        refine (h.chain j hj).congr fun x hx => ?_
        exact Function.update_of_ne (ne_of_mem_of_not_mem hx hpj) ..
  · by_cases hji : j = i
    · subst hji
      rw [hself, List.mem_append, not_or]
      exact ⟨hA, hnull⟩
    · rw [Function.update_of_ne hji]
      exact h.null j hj

end

/-! ## Nodes that come and go -/

section
variable [DecidableEq P] {heads heads' : Nat → P} {next next' : P → P} {null e : P} {m i : Nat}
  {rows : Nat → List P} {A B : List P}

/-- A node comes to the front of a row. -/
theorem Chained.push (h : Chained heads next null m rows) (hi : i < m)
    (he : e ∉ Buckets.rows m rows) (hnull : e ≠ null) :
    Chained (Function.update heads i e) (Function.update next e (heads i)) null m
      (Function.update rows i (e :: rows i)) := by
  have hframe : Chained heads (Function.update next e (heads i)) null m rows := by
    refine h.congr (fun _ _ => rfl) fun p hp => ?_
    exact Function.update_of_ne (ne_of_mem_of_not_mem hp he) ..
  have hperm : (Buckets.rows m (Function.update rows i (e :: rows i)) ++ []).Perm
      (Buckets.rows m rows ++ [e]) := by
    refine rows_splice (A := []) hi rfl ?_
    rw [List.append_nil]
    exact (List.perm_append_singleton e _).symm
  rw [List.append_nil] at hperm
  refine hframe.splice (A := []) hi rfl (q := e) ⟨rfl, ?_⟩ ?_ ?_ rfl
  · rw [Function.update_self]
    exact hframe.chain i hi
  · rw [List.mem_cons, not_or]
    exact ⟨hnull.symm, h.null i hi⟩
  · exact (hperm.trans (List.perm_append_singleton e _)).nodup_iff.2
      (List.nodup_cons.2 ⟨he, h.nodup⟩)

/-- A node is taken out of its row. -/
theorem Chained.unlink (h : Chained heads next null m rows) (hi : i < m)
    (hrow : rows i = A ++ e :: B)
    (hslot : (Slot.behind i A).store heads next (next e) = (heads', next')) :
    Chained heads' next' null m (Function.update rows i (A ++ B)) := by
  have hperm : (Buckets.rows m (Function.update rows i (A ++ B)) ++ [e]).Perm
      (Buckets.rows m rows ++ []) := by
    refine rows_splice hi hrow ?_
    rw [List.append_nil]
    exact List.perm_append_singleton e B
  rw [List.append_nil] at hperm
  have hchain := h.chain i hi
  rw [hrow] at hchain
  obtain ⟨_, -, rfl, hchain⟩ := Chain.append.1 hchain
  refine h.splice hi hrow hchain (fun hmem => h.null i hi ?_) ?_ hslot
  · rw [hrow]
    exact List.mem_append_right A (List.mem_cons_of_mem _ hmem)
  · exact (List.nodup_append.1 (hperm.nodup_iff.2 h.nodup)).1

end

/-- The heads of the rows, from the array. -/
def heads (null : P) (list : List P) (i : Nat) : P := list.getD i null

theorem heads_set {list : List P} {i : Nat} (hi : i < list.length) (null p : P) :
    heads null (list.set i p) = Function.update (heads null list) i p := by
  funext j
  unfold heads
  by_cases hj : j = i
  · subst hj
    rw [Function.update_self, List.getD_eq_getElem?_getD, List.getElem?_set_self hi]
    rfl
  · rw [Function.update_of_ne hj, List.getD_eq_getElem?_getD, List.getD_eq_getElem?_getD,
      List.getElem?_set_ne (Ne.symm hj)]

theorem heads_replicate (null : P) (n i : Nat) : heads null (List.replicate n null) i = null := by
  unfold heads
  rw [List.getD_eq_getElem?_getD, List.getElem?_replicate]
  split_ifs <;> rfl

/-! ## Moving nodes to another table -/

/-- The rows when `ns` have been moved, each to the front of its row. -/
def spread (index : P → Nat) (ns : List P) (i : Nat) : List P :=
  (ns.filter fun p => index p = i).reverse

section
variable {m : Nat} (index : P → Nat) (ns : List P)

theorem spread_concat (p : P) : spread index (ns ++ [p]) =
    Function.update (spread index ns) (index p) (p :: spread index ns (index p)) := by
  funext i
  unfold spread
  rw [List.filter_append]
  by_cases hi : i = index p
  · subst hi
    simp
  · have hne : index p ≠ i := fun heq => hi heq.symm
    simp [hi, hne]

theorem spread_perm (h : ∀ p ∈ ns, index p < m) : (Buckets.rows m (spread index ns)).Perm ns := by
  have hrows : (Buckets.rows m (spread index ns)).Perm (Buckets.pass m index ns) := by
    unfold Buckets.pass spread Buckets.rows
    exact List.Perm.flatMap_left _ fun i _ => List.reverse_perm _
  exact hrows.trans (pass_perm h)

theorem Chained.empty (null : P) (next : P → P) (n : Nat) :
    Chained (heads null (List.replicate n null)) next null n (spread index []) := by
  refine ⟨fun i _ => heads_replicate null n i, fun i _ => List.not_mem_nil, ?_⟩
  exact (spread_perm (m := n) index [] (by simp)).nodup_iff.2 List.nodup_nil

/-- A node is moved. -/
theorem Chained.move [DecidableEq P] {heads : Nat → P} {next : P → P} {null e : P}
    (h : Chained heads next null m (spread index ns)) (hindex : ∀ p, index p < m) (he : e ∉ ns)
    (hnull : e ≠ null) :
    Chained (Function.update heads (index e) e) (Function.update next e (heads (index e))) null m
      (spread index (ns ++ [e])) := by
  have hperm := spread_perm index ns fun p _ => hindex p
  rw [spread_concat]
  exact h.push (hindex e) (fun hmem => he (hperm.mem_iff.1 hmem)) hnull

end

end HashChains
