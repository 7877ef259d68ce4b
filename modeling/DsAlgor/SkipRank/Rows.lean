import DsAlgor.SkipRank.Defs
import Mathlib.Data.List.DropRight
import Mathlib.Data.List.Sort

/-!
# The rows of a skip list

The nodes of a list in the order of level 0 (`S`), and the rows of its levels: on level `i` exactly
the nodes of height above `i` are linked, in this order (`row S i`). `gap A i` counts the nodes at
the end of `A` that level `i` jumps over. `walk_row` is the loop over one level that all searches
share.
-/

namespace SkipRank

open Circular

structure Node where
  ptr : Ptr
  key : Int
  height : Nat

/-- The nodes of level `i`. -/
def ptrs (S : List Node) (i : Nat) : List Ptr := (S.filter (i < ·.height)).map Node.ptr

def row (S : List Node) (i : Nat) : List Link := (ptrs S i).map (⟨·, i⟩)

/-- The last node of level `i` in `A`, or the list. -/
def lastNode (A : List Node) (i : Nat) : Ptr := lastOr 0 (ptrs A i)

/-- The first node of level `i` in `B`, or the list. -/
def firstNode (B : List Node) (i : Nat) : Ptr := headOr 0 (ptrs B i)

/-- The nodes at the end of `A` that are not on level `i`. -/
def gap (A : List Node) (i : Nat) : Nat := (A.rtakeWhile (·.height ≤ i)).length

/-! ## Rows -/

section
variable {S A B : List Node} {n : Node} {i j : Nat}

@[simp] theorem ptrs_nil : ptrs [] i = [] := rfl

@[simp] theorem ptrs_append : ptrs (A ++ B) i = ptrs A i ++ ptrs B i := by simp [ptrs]

theorem ptrs_cons : ptrs (n :: B) i = if i < n.height then n.ptr :: ptrs B i else ptrs B i := by
  by_cases h : i < n.height <;> simp [ptrs, h]

@[simp] theorem row_nil : row [] i = [] := rfl

@[simp] theorem row_append : row (A ++ B) i = row A i ++ row B i := by simp [row]

theorem row_cons : row (n :: B) i = if i < n.height then ⟨n.ptr, i⟩ :: row B i else row B i := by
  by_cases h : i < n.height <;> simp [row, ptrs_cons, h]

theorem mem_ptrs {p : Ptr} : p ∈ ptrs S i ↔ ∃ n ∈ S, i < n.height ∧ n.ptr = p := by
  simp [ptrs, and_assoc]

theorem mem_row {q : Link} : q ∈ row S i ↔ q.idx = i ∧ ∃ n ∈ S, i < n.height ∧ n.ptr = q.node := by
  obtain ⟨p, j⟩ := q
  simp only [row, List.mem_map, mem_ptrs, Link.mk.injEq]
  constructor
  · rintro ⟨p, hp, rfl, rfl⟩
    exact ⟨rfl, hp⟩
  · rintro ⟨rfl, hp⟩
    exact ⟨p, hp, rfl, rfl⟩

theorem headOr_row : headOr ⟨0, i⟩ (row B i) = ⟨firstNode B i, i⟩ :=
  headOr_map (fun p : Ptr => Link.mk p i)

theorem lastOr_row : lastOr ⟨0, i⟩ (row A i) = ⟨lastNode A i, i⟩ :=
  lastOr_map (fun p : Ptr => Link.mk p i)

theorem ptrs_eq_nil (h : ∀ n ∈ S, n.height ≤ i) : ptrs S i = [] := by
  rw [List.eq_nil_iff_forall_not_mem]
  intro p hp
  obtain ⟨n, hn, hi, -⟩ := mem_ptrs.1 hp
  have := h n hn
  omega

/-- `i` is a level above all nodes. -/
theorem lastNode_high (h : ∀ n ∈ S, n.height ≤ i) : lastNode S i = 0 := by
  rw [lastNode, ptrs_eq_nil h]
  rfl

theorem firstNode_high (h : ∀ n ∈ S, n.height ≤ i) : firstNode S i = 0 := by
  rw [firstNode, ptrs_eq_nil h]
  rfl

theorem firstNode_mem : firstNode B i = 0 ∨ ∃ n ∈ B, i < n.height ∧ n.ptr = firstNode B i := by
  rcases List.mem_cons.1 (headOr_mem : firstNode B i ∈ 0 :: ptrs B i) with h | h
  · exact .inl h
  · exact .inr (mem_ptrs.1 h)

theorem lastNode_mem : lastNode A i = 0 ∨ ∃ n ∈ A, i < n.height ∧ n.ptr = lastNode A i := by
  rcases List.mem_cons.1 (lastOr_mem : lastNode A i ∈ 0 :: ptrs A i) with h | h
  · exact .inl h
  · exact .inr (mem_ptrs.1 h)

@[simp] theorem gap_nil : gap [] i = 0 := rfl

theorem gap_concat : gap (A ++ [n]) i = if n.height ≤ i then gap A i + 1 else 0 := by
  by_cases h : n.height ≤ i <;> simp [gap, h]

theorem gap_le_length : gap A i ≤ A.length := (List.rtakeWhile_suffix _ _).length_le

/-- The list up to its last node of level `i`. -/
theorem split_last : ∃ A₁ A₂ : List Node, A = A₁ ++ A₂ ∧ (∀ n ∈ A₂, n.height ≤ i) ∧
    A₂.length = gap A i ∧ (A₁ = [] ∨ ∃ A₀ n, A₁ = A₀ ++ [n] ∧ i < n.height) := by
  induction A using List.reverseRecOn with
  | nil => exact ⟨[], [], rfl, by simp, rfl, .inl rfl⟩
  | append_singleton A n ih =>
    by_cases hn : n.height ≤ i
    · obtain ⟨A₁, A₂, rfl, h2, hl, h1⟩ := ih
      refine ⟨A₁, A₂ ++ [n], by simp, ?_, ?_, h1⟩
      · intro m hm
        rcases List.mem_append.1 hm with hm | hm
        · exact h2 m hm
        · rw [List.mem_singleton.1 hm]
          exact hn
      · rw [gap_concat, if_pos hn, List.length_append, hl]
        rfl
    · refine ⟨A ++ [n], [], by simp, by simp, ?_, .inr ⟨A, n, rfl, by omega⟩⟩
      rw [gap_concat, if_neg hn]
      rfl

/-- The list from its first node of level `i` on. -/
theorem split_first : (∀ n ∈ B, n.height ≤ i) ∨
    ∃ (B₁ : List Node) (n : Node) (B₂ : List Node), B = B₁ ++ n :: B₂ ∧
      (∀ m ∈ B₁, m.height ≤ i) ∧ i < n.height := by
  induction B with
  | nil => exact .inl (by simp)
  | cons b B ih =>
    by_cases hb : b.height ≤ i
    · rcases ih with ih | ⟨B₁, n, B₂, rfl, h1, hn⟩
      · exact .inl (by simpa [hb] using ih)
      · exact .inr ⟨b :: B₁, n, B₂, rfl, by simpa [hb] using h1, hn⟩
    · exact .inr ⟨[], b, B, rfl, by simp, by omega⟩

theorem firstNode_append_cons (h : ∀ m ∈ A, m.height ≤ i) (hn : i < n.height) :
    firstNode (A ++ n :: B) i = n.ptr := by
  simp [firstNode, ptrs_eq_nil h, ptrs_cons, hn]

/-- Two places of one list. -/
theorem append_cons_cases {C D : List Node} {c : Node} (h : A ++ n :: B = C ++ c :: D) :
    (∃ A₂, A = C ++ c :: A₂ ∧ D = A₂ ++ n :: B) ∨ (A = C ∧ n = c ∧ B = D) ∨
      ∃ B₁, C = A ++ n :: B₁ ∧ B = B₁ ++ c :: D := by
  rcases List.append_eq_append_iff.1 h with ⟨_ | ⟨x, X⟩, rfl, hX⟩ | ⟨_ | ⟨x, X⟩, rfl, hX⟩
  · exact .inr (.inl ⟨by simp, by simpa using hX⟩)
  · obtain ⟨rfl, rfl⟩ := List.cons.inj hX
    exact .inr (.inr ⟨X, rfl, rfl⟩)
  · obtain ⟨rfl, rfl⟩ := List.cons.inj hX
    exact .inr (.inl ⟨by simp, rfl, rfl⟩)
  · obtain ⟨rfl, rfl⟩ := List.cons.inj hX
    exact .inl ⟨X, rfl, rfl⟩

/-- A node in one of two parts. -/
theorem append_eq_cases {C D : List Node} {c : Node} (h : A ++ B = C ++ c :: D) :
    (∃ A₂, A = C ++ c :: A₂ ∧ D = A₂ ++ B) ∨ ∃ B₁, C = A ++ B₁ ∧ B = B₁ ++ c :: D := by
  rcases List.append_eq_append_iff.1 h with ⟨B₁, rfl, rfl⟩ | ⟨_ | ⟨x, X⟩, rfl, hX⟩
  · exact .inr ⟨B₁, rfl, rfl⟩
  · exact .inr ⟨[], by simp, by simpa using hX.symm⟩
  · obtain ⟨rfl, rfl⟩ := List.cons.inj hX
    exact .inl ⟨X, rfl, rfl⟩

/-- Nodes at different places have different addresses. -/
theorem ptr_ne {X Y Z : List Node} {x y : Node}
    (h : ((X ++ x :: (Y ++ y :: Z)).map Node.ptr).Nodup) :
    x.ptr ≠ y.ptr := by
  intro hxy
  rw [List.map_append, List.map_cons, List.map_append, List.map_cons] at h
  exact (List.nodup_cons.1 (List.nodup_append.1 h).2.1).1 (by rw [hxy]; simp)

end

/-! ## Gaps -/

section
variable {A B C : List Node} {n : Node} {i : Nat}

theorem gap_append_low (h : ∀ n ∈ C, n.height ≤ i) : gap (A ++ C) i = gap A i + C.length := by
  induction C using List.reverseRecOn with
  | nil => simp
  | append_singleton C n ih =>
    rw [← List.append_assoc, gap_concat, if_pos (h n (by simp)), ih fun m hm => h m (by simp [hm])]
    simp
    omega

theorem gap_append_high (h : ∃ n ∈ C, i < n.height) : gap (A ++ C) i = gap C i := by
  induction C using List.reverseRecOn with
  | nil => simp at h
  | append_singleton C n ih =>
    rw [← List.append_assoc, gap_concat, gap_concat]
    by_cases hn : n.height ≤ i
    · rw [if_pos hn, if_pos hn, ih]
      obtain ⟨m, hm, him⟩ := h
      rcases List.mem_append.1 hm with hm | hm
      · exact ⟨m, hm, him⟩
      · rw [List.mem_singleton.1 hm] at him
        omega
    · rw [if_neg hn, if_neg hn]

theorem gap_cons_low (h : ∀ m ∈ C, m.height ≤ i) (hn : i < n.height) :
    gap (A ++ n :: C) i = C.length := by
  rw [show A ++ n :: C =
    (A ++ [n]) ++ C by simp, gap_append_low h, gap_concat, if_neg (by omega), Nat.zero_add]

/-- The position of the last node of level `i`. -/
def rankAt (A : List Node) (i : Nat) : Nat := A.length - gap A i

theorem rankAt_add_gap : rankAt A i + gap A i = A.length :=
  Nat.sub_add_cancel gap_le_length

end

/-! ## Walking along a level -/

section
variable {S A B : List Node} {next prev : Link → Link} {i j : Nat}

theorem row_nodup (hnd : (S.map Node.ptr).Nodup) (h0 : ∀ n ∈ S, 0 < n.ptr) (i : Nat) :
    (⟨0, i⟩ :: row S i).Nodup := by
  have hsub : (ptrs S i).Sublist (S.map Node.ptr) := List.filter_sublist.map _
  have hinj : Function.Injective fun p : Ptr => Link.mk p i := fun a b hab => by simpa using hab
  refine List.nodup_cons.2 ⟨fun hm => ?_, (hnd.sublist hsub).map hinj⟩
  obtain ⟨-, n, hn, -, hz⟩ := mem_row.1 hm
  exact (h0 n hn).ne' hz

/-- What is met on level `i`. -/
theorem onRow_iff (hc : Circular next prev ⟨0, i⟩ (row S i)) (hnd : (S.map Node.ptr).Nodup)
    (h0 : ∀ n ∈ S, 0 < n.ptr) {p : Ptr} :
    (p ≠ 0 ∧ ∃ k, next^[k] ⟨0, i⟩ = ⟨p, i⟩) ↔ ∃ n ∈ S, n.ptr = p ∧ i < n.height := by
  constructor
  · rintro ⟨hp, k, hk⟩
    have hm := hc.iterate_mem k
    rw [hk] at hm
    rcases List.mem_cons.1 hm with he | hm
    · exact absurd (congrArg Link.node he) hp
    · obtain ⟨-, n, hn, hi, rfl⟩ := mem_row.1 hm
      exact ⟨n, hn, rfl, hi⟩
  · rintro ⟨n, hn, rfl, hi⟩
    have hrow := row_nodup hnd h0 i
    obtain ⟨A, B, rfl⟩ := List.append_of_mem hn
    refine ⟨(h0 n hn).ne', (row A i).length + 1, ?_⟩
    rw [row_append, row_cons, if_pos hi] at hc hrow
    exact ((iterate_eq_iff (A := []) hc hrow _).2 rfl).1

theorem length_lt_brk {brk : Ptr} (hnd : (S.map Node.ptr).Nodup)
    (hbound : ∀ n ∈ S, 0 < n.ptr ∧ n.ptr < brk) (hbrk : 0 < brk) : S.length < brk := by
  have hsub : S.map Node.ptr ⊆ List.range' 1 (brk - 1) := by
    intro p hp
    obtain ⟨n, hn, rfl⟩ := List.mem_map.1 hp
    have := hbound n hn
    rw [List.mem_range'_1, Nat.add_sub_cancel' hbrk]
    exact this
  have := (List.subperm_of_subset hnd hsub).length_le
  rw [List.length_map, List.length_range'] at this
  exact Nat.lt_of_le_pred hbrk this

theorem length_row_le : (row S i).length ≤ S.length := by
  rw [row, List.length_map, ptrs, List.length_map]
  exact List.length_filter_le _ _

/-- The nodes with a key below a bound come first. -/
theorem sorted_split {p : Int → Prop} (hp : ∀ a b, a ≤ b → p b → p a)
    (h : S.Pairwise (·.key ≤ ·.key)) :
    ∃ A B, S = A ++ B ∧ (∀ n ∈ A, p n.key) ∧ ∀ n ∈ B, ¬ p n.key := by
  induction S with
  | nil => exact ⟨[], [], rfl, by simp, by simp⟩
  | cons n S ih =>
    obtain ⟨hn, hS⟩ := List.pairwise_cons.1 h
    by_cases hpn : p n.key
    · obtain ⟨A, B, rfl, hA, hB⟩ := ih hS
      exact ⟨n :: A, B, rfl, by simpa [hpn] using hA, hB⟩
    · refine ⟨[], n :: S, rfl, by simp, ?_⟩
      intro b hb
      rcases List.mem_cons.1 hb with rfl | hb
      · exact hpn
      · exact fun hc => hpn (hp _ _ (hn b hb) hc)

/-- The nodes with a smaller key, with the key and with a greater key. -/
theorem sorted_split_key (key : Int) (h : S.Pairwise (·.key ≤ ·.key)) :
    ∃ A M B, S = A ++ (M ++ B) ∧ (∀ n ∈ A, n.key < key) ∧ (∀ n ∈ M, n.key = key) ∧
      ∀ n ∈ B, key < n.key := by
  obtain ⟨A, R, rfl, hA, hR⟩ := sorted_split (p := (· < key)) (fun _ _ => lt_of_le_of_lt) h
  obtain ⟨M, B, rfl, hM, hB⟩ := sorted_split (S := R) (p := (· ≤ key)) (fun _ _ => le_trans)
    (List.pairwise_append.1 h).2.1
  exact ⟨A, M, B, rfl, hA,
    fun n hn => le_antisymm (hM n hn) (not_lt.1 (hR n (List.mem_append_left _ hn))),
    fun n hn => not_le.1 (hB n hn)⟩

/-- The place of a new node. -/
theorem orderedInsert_eq {A B : List Node} {n : Node} (hA : ∀ a ∈ A, a.key < n.key)
    (hB : ∀ b ∈ B, n.key ≤ b.key) :
    (A ++ B).orderedInsert (·.key ≤ ·.key) n = A ++ n :: B := by
  induction A with
  | nil =>
    cases B with
    | nil => rfl
    | cons b B => exact if_pos (hB b List.mem_cons_self)
  | cons a A ih =>
    have ha : ¬ n.key ≤ a.key := not_le.2 (hA a List.mem_cons_self)
    rw [List.cons_append, List.orderedInsert_cons, if_neg ha, ih fun x hx =>
      hA x (List.mem_cons_of_mem _ hx)]
    rfl

/-- Where a level is entered from the level `j` above it. -/
theorem enter_row (hc : Circular next prev ⟨0, i⟩ (row (A ++ B) i)) (hij : i ≤ j) :
    ∃ A₁ A₂ : List Node, A = A₁ ++ A₂ ∧ rankAt A₁ i = rankAt A j ∧ (∀ n ∈ A₂, n.height ≤ j) ∧
      next ⟨lastNode A j, i⟩ = headOr ⟨0, i⟩ (row A₂ i ++ row B i) := by
  obtain ⟨A₁, A₂, rfl, h2, hl, h1⟩ := split_last (A := A) (i := j)
  refine ⟨A₁, A₂, rfl, ?_, h2, ?_⟩
  · have hgap : gap A₁ i = 0 := by
      rcases h1 with rfl | ⟨A₀, n, rfl, hn⟩
      · rfl
      · rw [gap_concat, if_neg (by omega)]
    rw [rankAt, rankAt, hgap, ← hl, List.length_append]
    omega
  · have hlast : lastNode (A₁ ++ A₂) j = lastNode A₁ i := by
      rcases h1 with rfl | ⟨A₀, n, rfl, hn⟩
      · simp [lastNode, ptrs_eq_nil h2]
      · simp [lastNode, ptrs_eq_nil h2, ptrs_cons, hn, show i < n.height by omega]
    rw [hlast, ← lastOr_row]
    have hc : Circular next prev ⟨0, i⟩ (row A₁ i ++ (row A₂ i ++ row B i)) := by simpa using hc
    exact hc.next_eq

theorem firstNode_ne (h : ∀ n ∈ B, n.height ≤ i) (hij : i ≤ j) : firstNode B j = firstNode B i := by
  rw [firstNode, firstNode, ptrs_eq_nil h, ptrs_eq_nil fun n hn => (h n hn).trans hij]

section
variable {σ ρ : Type} {body : Link → σ → ρ ⊕ σ} {f : σ → Link → σ} {s : σ}

/-- A place in a row. -/
theorem row_eq_append {X Y : List Link} {x : Link} (h : row A i = X ++ x :: Y) :
    ∃ C n D, A = C ++ n :: D ∧ i < n.height ∧ x = ⟨n.ptr, i⟩ ∧ row C i = X ∧ row D i = Y := by
  induction A generalizing X with
  | nil => simp at h
  | cons a A ih =>
    rw [row_cons] at h
    by_cases ha : i < a.height
    · rw [if_pos ha] at h
      cases X with
      | nil =>
        obtain ⟨rfl, rfl⟩ := List.cons.inj h
        exact ⟨[], a, A, rfl, ha, rfl, rfl, rfl⟩
      | cons y X =>
        obtain ⟨rfl, htail⟩ := List.cons.inj h
        obtain ⟨C, n, D, rfl, hn, hx, rfl, hD⟩ := ih htail
        exact ⟨a :: C, n, D, rfl, hn, hx, by rw [row_cons, if_pos ha], hD⟩
    · rw [if_neg ha] at h
      obtain ⟨C, n, D, rfl, hn, hx, rfl, hD⟩ := ih h
      exact ⟨a :: C, n, D, rfl, hn, hx, by rw [row_cons, if_neg ha], hD⟩

variable (body) in
/-- The loop over level `i` goes on over the nodes of `A`, whatever the state it has at them, and
arrives at the first node of `B`. -/
theorem walk_to {fuel : Nat} (end_ : Link) (hc : Circular next prev ⟨0, i⟩ (row (A ++ B) i))
    (hlen : (A ++ B).length < fuel) (hij : i ≤ j) (hend : ∀ n ∈ A, n.ptr ≠ end_.node)
    (hA : ∀ (A₁ C : List Node) (n : Node) (D : List Node), A = A₁ ++ (C ++ n :: D) →
      rankAt A₁ i = rankAt A j → i < n.height → body ⟨n.ptr, i⟩ ((row C i).foldl f s) = .inr
        (f ((row C i).foldl f s) ⟨n.ptr, i⟩)) :
    ∃ (A₁ A₂ : List Node) (fuel' : Nat), A = A₁ ++ A₂ ∧ rankAt A₁ i = rankAt A j ∧
      (∀ n ∈ A₂, n.height ≤ j) ∧ 0 < fuel' ∧ foreach next body fuel
      (next ⟨lastNode A j, i⟩) end_ s = foreach next body fuel' ⟨firstNode B i, i⟩ end_
      ((row A₂ i).foldl f s) := by
  obtain ⟨A₁, A₂, rfl, hr, hlow, hnext⟩ := enter_row hc hij
  have hlen : (row A₂ i).length < fuel := by
    have h2 := length_row_le (S := A₂) (i := i)
    simp only [List.length_append] at hlen
    omega
  refine ⟨A₁, A₂, fuel - (row A₂ i).length, rfl, hr, hlow, by omega, ?_⟩
  rw [hnext, ← headOr_row (B := B)]
  have hc : Circular next prev ⟨0, i⟩ (row A₁ i ++ (row A₂ i ++ row B i)) := by
    simpa using hc
  refine foreach_front hc hlen (fun x hx he => ?_) fun X x Y hX => ?_
  · obtain ⟨-, n, hn, -, hp⟩ := mem_row.1 hx
    exact hend n (by simp [hn]) (hp.trans (congrArg Link.node he))
  · obtain ⟨C, n, D, rfl, hi, rfl, rfl, -⟩ := row_eq_append hX
    exact hA A₁ C n D rfl hr hi

/-- The first node of `B` is not in `A`. -/
theorem ne_firstNode (hnd : ((A ++ B).map Node.ptr).Nodup) (h0 : ∀ n ∈ A ++ B, 0 < n.ptr) {n : Node}
    (hn : n ∈ A) : n.ptr ≠ firstNode B j := by
  intro he
  cases firstNode_mem (B := B) (i := j) with
  | inl hz => exact (h0 n (by simp [hn])).ne' (he.trans hz)
  | inr hb =>
    obtain ⟨b, hb, -, hbp⟩ := hb
    rw [List.map_append] at hnd
    exact (List.nodup_append.1 hnd).2.2 n.ptr (List.mem_map_of_mem hn) b.ptr
      (List.mem_map_of_mem hb) (he.trans hbp.symm)

/-- The loop over level `i` goes on over the nodes of `A` and arrives at the first node of `B`. -/
theorem walk_row {fuel : Nat} (hc : Circular next prev ⟨0, i⟩ (row (A ++ B) i))
    (hnd : ((A ++ B).map Node.ptr).Nodup) (h0 : ∀ n ∈ A ++ B, 0 < n.ptr)
    (hlen : (A ++ B).length < fuel)
    (hij : i ≤ j) (hA : ∀ n ∈ A, i < n.height → ∀ s, body ⟨n.ptr, i⟩ s = .inr (f s ⟨n.ptr, i⟩)) :
    ∃ (A₁ A₂ : List Node) (fuel' : Nat), A = A₁ ++ A₂ ∧ rankAt A₁ i = rankAt A j ∧ 0 < fuel' ∧
      foreach next body fuel (next ⟨lastNode A j, i⟩) ⟨firstNode B j, i⟩ s =
        foreach next body fuel' ⟨firstNode B i, i⟩ ⟨firstNode B j, i⟩ ((row A₂ i).foldl f s) := by
  obtain ⟨A₁, A₂, fuel', hA₁₂, hr, -, hfuel, hrun⟩ :=
    walk_to body ⟨firstNode B j, i⟩ (s := s) (f := f) hc hlen hij
      (fun n hn => ne_firstNode hnd h0 hn) fun A₁ C n D hA₁ _ hi => hA n (by simp [hA₁]) hi _
  exact ⟨A₁, A₂, fuel', hA₁₂, hr, hfuel, hrun⟩

variable (body) in
/-- The loop over level `i` stops at the first node of `B`, unless it is the end already. -/
theorem scan_row {fuel : Nat} {g : Link → σ → ρ}
    (hc : Circular next prev ⟨0, i⟩ (row (A ++ B) i))
    (hnd : ((A ++ B).map Node.ptr).Nodup) (h0 : ∀ n ∈ A ++ B, 0 < n.ptr)
    (hlen : (A ++ B).length < fuel) (hij : i ≤ j)
    (hA : ∀ (A₁ C : List Node) (n : Node) (D : List Node), A = A₁ ++ (C ++ n :: D) →
      rankAt A₁ i = rankAt A j → i < n.height → body ⟨n.ptr, i⟩ ((row C i).foldl f s) = .inr
        (f ((row C i).foldl f s) ⟨n.ptr, i⟩))
    (hB : ∀ (A₁ A₂ B₁ : List Node) (n : Node) (B₂ : List Node), A = A₁ ++ A₂ →
      rankAt A₁ i = rankAt A j → B = B₁ ++ n :: B₂ → (∀ m ∈ B₁, m.height ≤ i) → i < n.height →
        body ⟨n.ptr, i⟩ ((row A₂ i).foldl f s) = .inl (g ⟨n.ptr, i⟩ ((row A₂ i).foldl f s))) :
    ∃ A₁ A₂ : List Node, A = A₁ ++ A₂ ∧ rankAt A₁ i = rankAt A j ∧ (∀ n ∈ A₂, n.height ≤ j) ∧
      foreach next body fuel (next ⟨lastNode A j, i⟩) ⟨firstNode B j, i⟩ s =
        if firstNode B i = firstNode B j then some (.inr ((row A₂ i).foldl f s))
        else some (.inl (g ⟨firstNode B i, i⟩ ((row A₂ i).foldl f s))) := by
  obtain ⟨A₁, A₂, fuel', hA₁₂, hr, hlow, hfuel, hrun⟩ :=
    walk_to body ⟨firstNode B j, i⟩ (s := s) (f := f) hc hlen hij
      (fun n hn => ne_firstNode hnd h0 hn) hA
  refine ⟨A₁, A₂, hA₁₂, hr, hlow, ?_⟩
  rw [hrun]
  by_cases hend : firstNode B i = firstNode B j
  · rw [if_pos hend, hend, foreach_end hfuel]
  · rw [if_neg hend]
    cases split_first (B := B) (i := i) with
    | inl hhigh => exact absurd (firstNode_ne hhigh hij).symm hend
    | inr hsplit =>
      obtain ⟨B₁, n, B₂, hBn, h1, hn⟩ := hsplit
      have hstop := hB A₁ A₂ B₁ n B₂ hA₁₂ hr hBn h1 hn
      rw [hBn, firstNode_append_cons h1 hn, ← hBn] at hend ⊢
      exact foreach_break hfuel (by simpa using hend) hstop

end

end

/-! ## The levels of the skip list

`Linked l S`: the nodes of the list are `S` in the order of level 0, and every level has its row of
them. `Spans m S`: every span is the distance on level 0.
-/

structure Linked (l : Skiplist) (S : List Node) : Prop where
  circular : ∀ i, Circular l.mem.next l.mem.prev ⟨0, i⟩ (row S i)
  nodup : (S.map Node.ptr).Nodup
  bound : ∀ n ∈ S, 0 < n.ptr ∧ n.ptr < l.mem.brk
  key : ∀ n ∈ S, l.mem.key n.ptr = n.key
  sorted : S.Pairwise (·.key ≤ ·.key)
  height : ∀ n ∈ S, 1 ≤ n.height ∧ n.height ≤ l.level
  level : 1 ≤ l.level ∧ l.level ≤ MAX_LEVEL
  count : l.count = S.length
  countMax : l.count ≤ INT_MAX
  brk : 0 < l.mem.brk

/-- Every span is the distance from the predecessor of its level. -/
def Spans (m : Mem) (S : List Node) : Prop :=
  ∀ A n B, S = A ++ n :: B → ∀ i < n.height, m.span ⟨n.ptr, i⟩ = BitVec.ofNat 32 (gap A i + 1)

/-! ## Walking along a level -/

section
variable {l : Skiplist} {S A B : List Node} {i j : Nat}

theorem Linked.row_nodup (h : Linked l S) (i : Nat) : (⟨0, i⟩ :: row S i).Nodup :=
  SkipRank.row_nodup h.nodup (fun n hn => (h.bound n hn).1) i

theorem Linked.length_lt (h : Linked l S) : S.length < l.mem.brk :=
  length_lt_brk h.nodup h.bound h.brk

section
variable {σ ρ : Type} {body : Link → σ → ρ ⊕ σ} {f : σ → Link → σ} {s : σ}

/-- The loop over level `i` goes on over the nodes of `A` and arrives at the first node of `B`. -/
theorem Linked.walk (h : Linked l (A ++ B)) (hij : i ≤ j)
    (hA : ∀ n ∈ A, i < n.height → ∀ s, body ⟨n.ptr, i⟩ s = .inr (f s ⟨n.ptr, i⟩)) :
    ∃ A₁ A₂ fuel, A = A₁ ++ A₂ ∧ rankAt A₁ i = rankAt A j ∧ 0 < fuel ∧
      foreach l.mem.next body l.mem.brk (l.mem.next ⟨lastNode A j, i⟩) ⟨firstNode B j, i⟩ s =
        foreach l.mem.next body fuel ⟨firstNode B i, i⟩ ⟨firstNode B j, i⟩ ((row A₂ i).foldl f s) :=
  walk_row (h.circular i) h.nodup (fun n hn => (h.bound n hn).1) h.length_lt hij hA

end

/-- The spans along level `i` add up to positions. -/
theorem Spans.sum {m : Mem} (h : Spans m S) : ∀ {A₂ A₁ B : List Node}, S = A₁ ++ A₂ ++ B →
    (row A₂ i).foldl (fun r q => r + m.span q) (BitVec.ofNat 32 (rankAt A₁ i)) =
      BitVec.ofNat 32 (rankAt (A₁ ++ A₂) i)
  | [], A₁, B, _ => by simp
  | n :: A₂, A₁, B, hS => by
    have hS' : S = A₁ ++ [n] ++ A₂ ++ B := by simpa using hS
    have ih := Spans.sum h hS'
    have hg := gap_le_length (A := A₁) (i := i)
    rw [show A₁ ++ n :: A₂ = A₁ ++ [n] ++ A₂ by simp, ← ih, row_cons]
    by_cases hn : i < n.height
    · have hspan := h A₁ n (A₂ ++ B) (by simpa using hS) i hn
      rw [if_pos hn, List.foldl_cons, hspan, ← BitVec.ofNat_add]
      congr 2
      rw [rankAt, rankAt, gap_concat, if_neg (by omega), List.length_append, List.length_singleton]
      omega
    · rw [if_neg hn]
      congr 2
      rw [rankAt, rankAt, gap_concat, if_pos (by omega), List.length_append, List.length_singleton]
      omega

end

end SkipRank
