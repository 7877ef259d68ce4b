import DsAlgor.SkipRank.Built

/-!
# Nodes in a range of keys

`key_gte_min` compares with `max` and `key_lte_max` with `min`. So `first_in_range` finds the first
node from `max` on and `last_in_range` the last node up to `min` (`edgeLevels_spec`), and
`key_in_range` asks whether there are both. `inRange_iff` says when these are the first and the last
node in the range.
-/

namespace SkipRank

open Circular

/-! ## The code -/

/-- `struct range_spec` -/
structure RangeSpec where
  min : Int
  max : Int
  minex : Int
  maxex : Int

def keyGteMin (key : Int) (range : RangeSpec) : Bool :=
  if range.maxex ≠ 0 then key > range.max else key ≥ range.max

def keyLteMax (key : Int) (range : RangeSpec) : Bool :=
  if range.minex ≠ 0 then key < range.min else key ≤ range.min

def keyInRange (l : Skiplist) (range : RangeSpec) : Bool :=
  if range.min > range.max ∨ (range.min = range.max ∧ (range.minex ≠ 0 ∨ range.maxex ≠ 0)) then
    false
  else if listEmpty l.mem ⟨0, 0⟩ then false
  else if !keyLteMax (l.mem.key (l.mem.next ⟨0, 0⟩).node) range then false
  else if !keyGteMin (l.mem.key (l.mem.prev ⟨0, 0⟩).node) range then false
  else true

/-- The body of the loops of `first_in_range` and `last_in_range` over one level; the state is
`node`. -/
def edgeBody (hit : Ptr → Bool) (pos : Link) (_ : Option Ptr) : Link ⊕ Option Ptr :=
  if hit pos.node then .inl pos else .inr (some pos.node)

/-- The levels below `i`, from the top: forward with `next` and `prev`, backward with `prev` and
`next`. -/
def edgeLevels (next prev : Link → Link) (brk : Ptr) (hit : Ptr → Bool) :
    Nat → Link → Link → Option Ptr → Except SearchFault (Option Ptr)
  | 0, _, _, node => .ok node
  | i + 1, pos, end_, node =>
    match foreach next (edgeBody hit) brk (next pos) end_ node with
    | none => .error .loop
    | some (.inl link) =>
      -- `goto CONTINUE`
      edgeLevels next prev brk hit i (prev link).dec (next link).dec (some link.node)
    | some (.inr node) => edgeLevels next prev brk hit i (prev end_).dec end_.dec node

def firstInRange (l : Skiplist) (range : RangeSpec) : Except SearchFault (Option Ptr) :=
  if !keyInRange l range then .ok none
  else
    let head : Link := ⟨0, l.level - 1⟩
    edgeLevels l.mem.next l.mem.prev l.mem.brk (fun p => keyGteMin (l.mem.key p) range) l.level head
      head none

def lastInRange (l : Skiplist) (range : RangeSpec) : Except SearchFault (Option Ptr) :=
  if !keyInRange l range then .ok none
  else
    let head : Link := ⟨0, l.level - 1⟩
    edgeLevels l.mem.prev l.mem.next l.mem.brk (fun p => keyLteMax (l.mem.key p) range) l.level head
      head none

/-! ## The walk to an edge -/

/-- Where the walk over a level ends: behind the node that was found on the level above. -/
def Beyond (B : List Node) (i : Nat) (e : Ptr) : Prop :=
  ((∀ n ∈ B, n.height ≤ i) ∧ e = 0) ∨
    ∃ B₁ b B₂, B = B₁ ++ b :: B₂ ∧ (∀ n ∈ B₁, n.height ≤ i) ∧ i < b.height ∧ e = firstNode B₂ i

section
variable {c : Chains} {A B : List Node} {i : Nat} {hit : Ptr → Bool} {e : Ptr}

/-- The nodes before the place where the walk ends. -/
theorem Beyond.ne (h : Beyond B (i + 1) e) (hnd : ((A ++ B).map Node.ptr).Nodup)
    (h0 : ∀ n ∈ A ++ B, 0 < n.ptr) : (∀ n ∈ A, n.ptr ≠ e) ∧
      ∀ (B₁ : List Node) (n : Node) (B₂ : List Node), B = B₁ ++ n :: B₂ →
        (∀ m ∈ B₁, m.height ≤ i) → i < n.height → n.ptr ≠ e := by
  cases h with
  | inl hlow =>
    obtain ⟨hlow, rfl⟩ := hlow
    exact ⟨fun n hn => (h0 n (by simp [hn])).ne', fun B₁ n B₂ hB _ _ =>
      (h0 n (by simp [hB])).ne'⟩
  | inr hfound =>
    obtain ⟨C₁, b, C₂, rfl, hC₁, hb, rfl⟩ := hfound
    have hsplit : A ++ (C₁ ++ b :: C₂) = (A ++ C₁ ++ [b]) ++ C₂ := by simp
    rw [hsplit] at hnd h0
    refine ⟨fun n hn => ne_firstNode hnd h0 (by simp [hn]), fun B₁ n B₂ hB hB₁ hn => ?_⟩
    -- the node is not behind the one that was found
    have hmem : n ∈ C₁ ++ [b] := by
      cases append_cons_cases hB with
      | inl hbefore =>
        obtain ⟨X, rfl, -⟩ := hbefore
        simp
      | inr hrest =>
        cases hrest with
        | inl hsame =>
          obtain ⟨-, rfl, -⟩ := hsame
          simp
        | inr hbehind =>
          obtain ⟨X, rfl, -⟩ := hbehind
          have := hB₁ b (by simp)
          omega
    refine ne_firstNode hnd h0 ?_
    rw [List.append_assoc]
    exact List.mem_append_right _ hmem

/-- One level: the first node of `B` on it is found, if there is one. -/
theorem Chained.edge (h : Chained c (A ++ B)) (hA : ∀ n ∈ A, hit n.ptr = false)
    (hB : ∀ n ∈ B, hit n.ptr = true) (he : Beyond B (i + 1) e) (node : Option Ptr) :
    (∃ (B₁ : List Node) (b : Node) (B₂ : List Node), B = B₁ ++ b :: B₂ ∧
      (∀ n ∈ B₁, n.height ≤ i) ∧ i < b.height ∧
      foreach c.next (edgeBody hit) c.brk (c.next ⟨lastNode A (i + 1), i⟩) ⟨e, i⟩ node =
        some (.inl ⟨b.ptr, i⟩)) ∨
    (∀ n ∈ B, n.height ≤ i) ∧ e = 0 ∧ ∃ node',
      foreach c.next (edgeBody hit) c.brk (c.next ⟨lastNode A (i + 1), i⟩) ⟨e, i⟩ node =
        some (.inr node') := by
  obtain ⟨hneA, hneB⟩ := he.ne h.nodup h.positive
  obtain ⟨A₁, A₂, fuel, -, -, -, hfuel, hrun⟩ := walk_to (edgeBody hit) ⟨e, i⟩
    (f := fun _ q => some q.node) (s := node) (h.circular i) h.fuel
    (Nat.le_add_right i 1) hneA fun A₁ C n D hA₁ _ _ => by
      unfold edgeBody
      rw [hA n (by simp [hA₁])]
      rfl
  rw [hrun]
  cases split_first (B := B) (i := i) with
  | inl hlow =>
    have hzero : e = 0 := by
      cases he with
      | inl hlow => exact hlow.2
      | inr hfound =>
        obtain ⟨C₁, b, C₂, rfl, -, hb, -⟩ := hfound
        have := hlow b (by simp)
        omega
    refine .inr ⟨hlow, hzero, (row A₂ i).foldl (fun _ q => some q.node) node, ?_⟩
    rw [firstNode_high hlow, hzero]
    exact foreach_end hfuel
  | inr hsplit =>
    obtain ⟨B₁, b, B₂, hBb, h1, hb⟩ := hsplit
    refine .inl ⟨B₁, b, B₂, hBb, h1, hb, ?_⟩
    have hstop : ∀ s, edgeBody hit ⟨b.ptr, i⟩ s = .inl ⟨b.ptr, i⟩ := by
      intro s
      unfold edgeBody
      rw [if_pos (hB b (by simp [hBb]))]
    have hne : (⟨b.ptr, i⟩ : Link) ≠ ⟨e, i⟩ := fun hc =>
      hneB B₁ b B₂ hBb h1 hb (congrArg Link.node hc)
    rw [hBb, firstNode_append_cons h1 hb]
    exact foreach_break hfuel hne (hstop _)

/-- **The walk to an edge** ends at the first node of `B`. -/
theorem edgeLevels_spec {b : Node} (h : Chained c (A ++ b :: B))
    (hA : ∀ n ∈ A, hit n.ptr = false) (hB : ∀ n ∈ b :: B, hit n.ptr = true) :
    ∀ (i : Nat) (e : Ptr) (node : Option Ptr), Beyond (b :: B) i e →
    (i = 0 → node = some b.ptr) →
    edgeLevels c.next c.prev c.brk hit i ⟨lastNode A i, i - 1⟩ ⟨e, i - 1⟩ node = .ok (some b.ptr)
  | 0, e, node, _, hnode => congrArg Except.ok (hnode rfl)
  | i + 1, e, node, he, _ => by
    have hprev := h.prev_firstNode (i := i)
    cases h.edge hA hB he node with
    | inl hfound =>
      obtain ⟨B₁, b', B₂, hBb, h1, hb', hrun⟩ := hfound
      have hfirst : firstNode (b :: B) i = b'.ptr := by
        rw [hBb]
        exact firstNode_append_cons h1 hb'
      have hnext : c.next ⟨b'.ptr, i⟩ = ⟨firstNode B₂ i, i⟩ := by
        have hc := h.circular i
        rw [hBb, ← List.append_assoc, row_append, row_cons, if_pos hb'] at hc
        rw [hc.next_mid, headOr_row]
      rw [hfirst] at hprev
      have hlevel := edgeLevels_spec h hA hB i (firstNode B₂ i) (some b'.ptr)
        (.inr ⟨B₁, b', B₂, hBb, h1, hb', rfl⟩) fun hi => by
          -- on level 0 it is the first node of all
          subst hi
          cases B₁ with
          | nil =>
            obtain ⟨rfl, -⟩ := List.cons.inj hBb
            rfl
          | cons n B₁ =>
            obtain ⟨rfl, -⟩ := List.cons.inj hBb
            have h2 := h1 b (by simp)
            have h3 := h.height b (by simp)
            omega
      simp only [edgeLevels, Nat.add_sub_cancel, hrun, hprev, hnext]
      exact hlevel
    | inr hlow =>
      obtain ⟨hlow, rfl, node', hrun⟩ := hlow
      have hpos := h.height b (by simp)
      have hb := hlow b List.mem_cons_self
      rw [firstNode_high hlow] at hprev
      have hlevel := edgeLevels_spec h hA hB i 0 node' (.inl ⟨hlow, rfl⟩) fun hi => by omega
      simp only [edgeLevels, Nat.add_sub_cancel, hrun, hprev]
      exact hlevel

/-- From the highest level. -/
theorem Chained.edgeLevels {b : Node} (hit : Ptr → Bool) (level : Nat) (h : Chained c (A ++ b :: B))
    (hlevel : ∀ n ∈ A ++ b :: B, n.height ≤ level) (hA : ∀ n ∈ A, hit n.ptr = false)
    (hB : ∀ n ∈ b :: B, hit n.ptr = true) :
    SkipRank.edgeLevels c.next c.prev c.brk hit level ⟨0, level - 1⟩ ⟨0, level - 1⟩ none =
      .ok (some b.ptr) := by
  have hspec := edgeLevels_spec h hA hB level 0 none
    (.inl ⟨fun n hn => hlevel n (List.mem_append_right _ hn), rfl⟩) fun hz => by
      have h1 := hlevel b (by simp)
      have h2 := h.height b (by simp)
      omega
  rw [lastNode_high fun n hn => hlevel n (List.mem_append_left _ hn)] at hspec
  exact hspec

/-- The list the other way round. -/
def Chains.reverse (c : Chains) : Chains := ⟨c.prev, c.next, c.key, c.brk⟩

theorem Chained.reverse {S : List Node} (h : Chained c S) : Chained c.reverse S.reverse where
  circular i := by
    have hrow : row S.reverse i = (row S i).reverse := by
      simp [row, ptrs, List.filter_reverse, List.map_reverse]
    rw [hrow]
    exact (h.circular i).reverse
  nodup := by
    rw [List.map_reverse, List.nodup_reverse]
    exact h.nodup
  positive n hn := h.positive n (List.mem_reverse.1 hn)
  fuel := by
    rw [List.length_reverse]
    exact h.fuel
  key n hn := h.key n (List.mem_reverse.1 hn)
  height n hn := h.height n (List.mem_reverse.1 hn)

end

/-! ## The bounds -/

/-- The keys in the range. -/
def RangeSpec.Contains (range : RangeSpec) (key : Int) : Prop :=
  (if range.minex ≠ 0 then key > range.min else key ≥ range.min) ∧
    if range.maxex ≠ 0 then key < range.max else key ≤ range.max

instance (range : RangeSpec) (key : Int) : Decidable (range.Contains key) :=
  inferInstanceAs (Decidable (_ ∧ _))

/-- The range may have a key. -/
def RangeSpec.Proper (range : RangeSpec) : Prop :=
  ¬ (range.min > range.max ∨ (range.min = range.max ∧ (range.minex ≠ 0 ∨ range.maxex ≠ 0)))

section
variable {range : RangeSpec} {k k' : Int}

theorem keyGteMin_iff : keyGteMin k range = true ↔
    if range.maxex ≠ 0 then k > range.max else k ≥ range.max := by
  unfold keyGteMin
  split <;> simp

theorem keyLteMax_iff : keyLteMax k range = true ↔
    if range.minex ≠ 0 then k < range.min else k ≤ range.min := by
  unfold keyLteMax
  split <;> simp

theorem keyGteMin_mono (h : k ≤ k') (hk : keyGteMin k range = true) :
    keyGteMin k' range = true := by
  rw [keyGteMin_iff] at hk ⊢
  by_cases hmax : range.maxex ≠ 0
  · rw [if_pos hmax] at hk ⊢
    omega
  · rw [if_neg hmax] at hk ⊢
    omega

theorem keyLteMax_mono (h : k ≤ k') (hk : keyLteMax k' range = true) :
    keyLteMax k range = true := by
  rw [keyLteMax_iff] at hk ⊢
  by_cases hmin : range.minex ≠ 0
  · rw [if_pos hmin] at hk ⊢
    omega
  · rw [if_neg hmin] at hk ⊢
    omega

theorem RangeSpec.Contains.proper (h : range.Contains k) : range.Proper := by
  obtain ⟨h1, h2⟩ := h
  unfold RangeSpec.Proper
  split at h1 <;> split at h2 <;> omega

/-- A range of one key. -/
theorem contains_point (h : range.Contains k) (he : range.min = range.max) (k' : Int) :
    (range.Contains k' ↔ k' = range.min) ∧ (keyGteMin k' range = true ↔ range.min ≤ k') ∧
      (keyLteMax k' range = true ↔ k' ≤ range.min) := by
  have hproper := h.proper
  unfold RangeSpec.Proper at hproper
  have hmin : ¬ range.minex ≠ 0 := by omega
  have hmax : ¬ range.maxex ≠ 0 := by omega
  rw [keyGteMin_iff, keyLteMax_iff, RangeSpec.Contains, if_neg hmin, if_neg hmin, if_neg hmax,
    if_neg hmax]
  refine ⟨?_, ?_, Iff.rfl⟩ <;> omega

end

/-! ## The edges of a list -/

section
variable {l : Skiplist} {S : List Node} {range : RangeSpec}

theorem Linked.keyInRange_iff (h : Linked l S) : keyInRange l range = true ↔ range.Proper ∧
    (∃ n ∈ S, keyLteMax n.key range = true) ∧ ∃ n ∈ S, keyGteMin n.key range = true := by
  have hnext : l.mem.next ⟨0, 0⟩ = ⟨firstNode S 0, 0⟩ := by
    rw [(h.circular 0).next_head, headOr_row]
  have hprev : l.mem.prev ⟨0, 0⟩ = ⟨lastNode S 0, 0⟩ := by
    have hc := h.circular 0
    rw [← List.append_nil (row S 0)] at hc
    rw [← lastOr_row]
    exact hc.prev_eq
  unfold keyInRange RangeSpec.Proper
  by_cases hproper : range.min > range.max ∨
      (range.min = range.max ∧ (range.minex ≠ 0 ∨ range.maxex ≠ 0))
  · rw [if_pos hproper]
    exact iff_of_false nofun fun hc => hc.1 hproper
  · rw [if_neg hproper]
    cases S using List.reverseRecOn with
    | nil =>
      have hempty : listEmpty l.mem ⟨0, 0⟩ = true := decide_eq_true hnext
      rw [if_pos hempty]
      simp
    | append_singleton S z _ =>
      obtain ⟨a, R, hR⟩ : ∃ a R, S ++ [z] = a :: R := by
        cases S with
        | nil => exact ⟨z, [], rfl⟩
        | cons a S => exact ⟨a, S ++ [z], rfl⟩
      have hfirst : firstNode (S ++ [z]) 0 = a.ptr := by
        rw [hR]
        exact firstNode_append_cons (A := []) (by simp) (h.height a (by simp [hR])).1
      have hlast : lastNode (S ++ [z]) 0 = z.ptr := by
        have hz := (h.height z (by simp)).1
        simp [lastNode, ptrs_cons, show 0 < z.height by omega]
      have hempty : ¬ listEmpty l.mem ⟨0, 0⟩ = true := by
        intro hc
        have hc := of_decide_eq_true hc
        rw [hnext, hfirst] at hc
        exact (h.bound a (by simp [hR])).1.ne' (congrArg Link.node hc)
      have hmin : (∃ n ∈ S ++ [z], keyLteMax n.key range = true) ↔
          keyLteMax a.key range = true := by
        refine ⟨?_, fun hk => ⟨a, by simp [hR], hk⟩⟩
        rintro ⟨n, hn, hk⟩
        have hs := h.sorted
        rw [hR] at hn hs
        cases List.mem_cons.1 hn with
        | inl he => exact he ▸ hk
        | inr hn => exact keyLteMax_mono ((List.pairwise_cons.1 hs).1 n hn) hk
      have hmax : (∃ n ∈ S ++ [z], keyGteMin n.key range = true) ↔
          keyGteMin z.key range = true := by
        refine ⟨?_, fun hk => ⟨z, by simp, hk⟩⟩
        rintro ⟨n, hn, hk⟩
        cases List.mem_append.1 hn with
        | inl hn => exact keyGteMin_mono ((List.pairwise_append.1 h.sorted).2.2 n hn z (by simp)) hk
        | inr hn => exact List.mem_singleton.1 hn ▸ hk
      rw [if_neg hempty, hnext, hprev, hfirst, hlast, h.key a (by simp [hR]), h.key z (by simp),
        hmin, hmax]
      cases keyLteMax a.key range <;> cases keyGteMin z.key range <;> simp_all

/-- **What the two functions find**, when they look. -/
theorem Linked.edges (h : Linked l S) (hin : keyInRange l range = true) :
    (∃ (A : List Node) (b : Node) (B : List Node), S = A ++ b :: B ∧
      (∀ n ∈ A, keyGteMin n.key range = false) ∧
      keyGteMin b.key range = true ∧ firstInRange l range = .ok (some b.ptr)) ∧
    ∃ (A : List Node) (b : Node) (B : List Node), S = A ++ b :: B ∧
      (∀ n ∈ B, keyLteMax n.key range = false) ∧
      keyLteMax b.key range = true ∧ lastInRange l range = .ok (some b.ptr) := by
  obtain ⟨-, ⟨x, hx, hxk⟩, y, hy, hyk⟩ := h.keyInRange_iff.1 hin
  have hlevel : ∀ n ∈ S, n.height ≤ l.level := fun n hn => (h.height n hn).2
  constructor
  · obtain ⟨A, B, hAB, hA, hB⟩ := sorted_split (p := fun k => keyGteMin k range = false)
      (fun a b hab hb => by
        by_contra hc
        rw [keyGteMin_mono hab (eq_true_of_ne_false hc)] at hb
        cases hb) h.sorted
    have hB : ∀ n ∈ B, keyGteMin n.key range = true := fun n hn => eq_true_of_ne_false (hB n hn)
    cases B with
    | nil =>
      rw [List.append_nil] at hAB
      rw [hA y (hAB ▸ hy)] at hyk
      cases hyk
    | cons b B =>
      refine ⟨A, b, B, hAB, hA, hB b (by simp), ?_⟩
      have hc := hAB ▸ h.chained
      have hrun := hc.edgeLevels (fun p => keyGteMin (l.mem.key p) range) l.level (hAB ▸ hlevel)
        (fun n hn => by
          show keyGteMin (l.mem.key n.ptr) range = false
          rw [h.key n (by simp [hAB, hn])]
          exact hA n hn)
        fun n hn => by
          show keyGteMin (l.mem.key n.ptr) range = true
          rw [h.key n (by rw [hAB]; exact List.mem_append_right _ hn)]
          exact hB n hn
      unfold firstInRange
      rw [hin]
      exact hrun
  · obtain ⟨A, B, hAB, hA, hB⟩ := sorted_split (p := fun k => keyLteMax k range = true)
      (fun a b => keyLteMax_mono) h.sorted
    have hB : ∀ n ∈ B, keyLteMax n.key range = false := fun n hn => eq_false_of_ne_true (hB n hn)
    cases A using List.reverseRecOn with
    | nil =>
      rw [List.nil_append] at hAB
      rw [hB x (hAB ▸ hx)] at hxk
      cases hxk
    | append_singleton A b _ =>
      have hAB : S = A ++ b :: B := by simpa using hAB
      refine ⟨A, b, B, hAB, hB, hA b (by simp), ?_⟩
      have hc : Chained l.mem.chains.reverse (B.reverse ++ b :: A.reverse) := by
        have hc := h.chained.reverse
        rw [hAB] at hc
        simpa using hc
      have hrun := hc.edgeLevels (fun p => keyLteMax (l.mem.key p) range) l.level
        (fun n hn => hlevel n (by
          rw [hAB]
          simp only [List.mem_append, List.mem_cons, List.mem_reverse] at hn ⊢
          exact hn.elim (fun hn => .inr (.inr hn)) fun hn =>
            hn.elim (fun hn => .inr (.inl hn)) .inl))
        (fun n hn => by
          have hn := List.mem_reverse.1 hn
          show keyLteMax (l.mem.key n.ptr) range = false
          rw [h.key n (by simp [hAB, hn])]
          exact hB n hn)
        fun n hn => by
          have hn : n ∈ A ++ [b] := by
            simp only [List.mem_append, List.mem_cons, List.mem_reverse, List.not_mem_nil,
              or_false] at hn ⊢
            exact hn.symm
          show keyLteMax (l.mem.key n.ptr) range = true
          rw [h.key n (by
            rw [hAB]
            simp only [List.mem_append, List.mem_cons, List.not_mem_nil, or_false] at hn ⊢
            exact hn.elim .inl fun hn => .inr (.inl hn))]
          exact hA n hn
      unfold lastInRange
      rw [hin]
      exact hrun

/-- Both functions return what they should. -/
def EdgesRight (l : Skiplist) (range : RangeSpec) : Prop :=
  firstInRange l range =
      .ok ((l.mem.chains.chain 0).find? fun p => range.Contains (l.mem.key p)) ∧
    lastInRange l range =
      .ok ((l.mem.chains.chain 0).reverse.find? fun p => range.Contains (l.mem.key p))

/-- Some key is in a range of one key, or none is in the range and `key_in_range` says so. -/
def RangeOk (keys : List Int) (range : RangeSpec) : Prop :=
  ((∃ k ∈ keys, range.Contains k) ∧ range.min = range.max) ∨
    (∀ k ∈ keys, ¬ range.Contains k) ∧ ¬ (range.Proper ∧
      (∃ k ∈ keys, keyLteMax k range = true) ∧ ∃ k ∈ keys, keyGteMin k range = true)

theorem find?_mid {p : Node → Bool} {A B : List Node} {b : Node} (hA : ∀ n ∈ A, p n = false)
    (hb : p b = true) : (A ++ b :: B).find? p = some b := by
  have hnone : A.find? p = none := List.find?_eq_none.2 fun n hn => by simp [hA n hn]
  rw [List.find?_append, hnone, Option.none_or, List.find?_cons, hb]

theorem Linked.edgesRight_eq (h : Linked l S) : EdgesRight l range ↔
    firstInRange l range = .ok ((S.find? fun n => range.Contains n.key).map Node.ptr) ∧
      lastInRange l range = .ok ((S.reverse.find? fun n => range.Contains n.key).map Node.ptr) := by
  have hfind : ∀ T : List Node, (∀ n ∈ T, n ∈ S) →
      (T.map Node.ptr).find? (fun p => range.Contains (l.mem.key p)) =
        (T.find? fun n => range.Contains n.key).map Node.ptr := by
    intro T hT
    rw [List.find?_map]
    congr 1
    refine List.find?_congr fun n hn => ?_
    show decide (range.Contains (l.mem.key n.ptr)) = _
    rw [h.key n (hT n hn)]
  unfold EdgesRight
  rw [h.chained.chain_zero, ← List.map_reverse, hfind S fun _ => id,
    hfind S.reverse fun _ => List.mem_reverse.1]

/-- The node at an edge is in the range only if it has the key of the edge. -/
theorem RangeSpec.Contains.eq_max {k : Int} (h : range.Contains k)
    (hk : keyGteMin k range = true) : k = range.max := by
  have h2 := h.2
  rw [keyGteMin_iff] at hk
  by_cases hmax : range.maxex ≠ 0
  · rw [if_pos hmax] at h2 hk
    omega
  · rw [if_neg hmax] at h2 hk
    omega

theorem RangeSpec.Contains.eq_min {k : Int} (h : range.Contains k)
    (hk : keyLteMax k range = true) : k = range.min := by
  have h1 := h.1
  rw [keyLteMax_iff] at hk
  by_cases hmin : range.minex ≠ 0
  · rw [if_pos hmin] at h1 hk
    omega
  · rw [if_neg hmin] at h1 hk
    omega

/-- If the functions look and are right, the range has one key. -/
theorem Linked.point_of_edges (h : Linked l S) {A B : List Node} {b b' : Node}
    (hS : S = A ++ b :: B) (hA : ∀ n ∈ A, keyGteMin n.key range = false)
    (hb : keyGteMin b.key range = true) (hb' : keyLteMax b'.key range = true)
    (hfirst : (S.find? fun n => range.Contains n.key).map Node.ptr = some b.ptr)
    (hlast : (S.reverse.find? fun n => range.Contains n.key).map Node.ptr = some b'.ptr)
    (hmem : b' ∈ S) : (∃ n ∈ S, range.Contains n.key) ∧ range.min = range.max := by
  have hbS : b ∈ S := by simp [hS]
  obtain ⟨f, hf, hfp⟩ := Option.map_eq_some_iff.1 hfirst
  obtain ⟨g, hg, hgp⟩ := Option.map_eq_some_iff.1 hlast
  have hfb : f = b := List.inj_on_of_nodup_map h.nodup (List.mem_of_find?_eq_some hf) hbS hfp
  have hgb : g = b' := List.inj_on_of_nodup_map h.nodup
    (List.mem_reverse.1 (List.mem_of_find?_eq_some hg)) hmem hgp
  subst hfb hgb
  have hcf : range.Contains f.key := by simpa using List.find?_some hf
  have hcg : range.Contains g.key := by simpa using List.find?_some hg
  have hnone : ∀ n ∈ A, ¬ range.Contains n.key := by
    rw [hS, List.find?_append] at hf
    cases hA' : A.find? fun n => decide (range.Contains n.key) with
    | none => exact fun n hn => by simpa using List.find?_eq_none.1 hA' n hn
    | some a =>
      rw [hA', Option.some_or] at hf
      have hmem := List.mem_of_find?_eq_some hA'
      rw [Option.some.inj hf] at hmem
      rw [hA f hmem] at hb
      cases hb
  -- the last node in the range is not before the first one
  have hle : f.key ≤ g.key := by
    have hs := h.sorted
    rw [hS] at hs hmem
    cases List.mem_append.1 hmem with
    | inl hmem => exact absurd hcg (hnone g hmem)
    | inr hmem =>
      cases List.mem_cons.1 hmem with
      | inl he => exact he ▸ le_rfl
      | inr hmem => exact (List.pairwise_cons.1 (List.pairwise_append.1 hs).2.1).1 g hmem
  refine ⟨⟨f, hbS, hcf⟩, ?_⟩
  have hproper := hcf.proper
  unfold RangeSpec.Proper at hproper
  have hmax := hcf.eq_max hb
  have hmin := hcg.eq_min hb'
  omega

theorem Linked.edgesRight_iff (h : Linked l S) :
    EdgesRight l range ↔ RangeOk (S.map Node.key) range := by
  have hexists : ∀ P : Int → Prop, (∃ k ∈ S.map Node.key, P k) ↔ ∃ n ∈ S, P n.key := by
    intro P
    simp
  have hforall : ∀ P : Int → Prop, (∀ k ∈ S.map Node.key, P k) ↔ ∀ n ∈ S, P n.key := by
    intro P
    simp
  rw [h.edgesRight_eq, RangeOk, hexists, hexists, hexists, hforall, ← h.keyInRange_iff]
  by_cases hin : keyInRange l range = true
  · obtain ⟨⟨A, b, B, hS, hA, hb, hfirst⟩, A', b', B', hS', hB', hb', hlast⟩ := h.edges hin
    rw [hfirst, hlast, or_iff_left fun hc => hc.2 hin]
    constructor
    · intro hright
      exact h.point_of_edges hS hA hb hb' (Except.ok.inj hright.1).symm
        (Except.ok.inj hright.2).symm (by simp [hS'])
    · rintro ⟨⟨x, hx, hc⟩, hpoint⟩
      have hiff := contains_point hc hpoint
      have hxk := (hiff x.key).1.1 hc
      have hs := h.sorted
      have hbmin : b.key = range.min := by
        refine le_antisymm ?_ ((hiff b.key).2.1.1 hb)
        rw [hS] at hx hs
        cases List.mem_append.1 hx with
        | inl hx =>
          have := hA x hx
          rw [(hiff x.key).2.1.2 hxk.ge] at this
          cases this
        | inr hx =>
          cases List.mem_cons.1 hx with
          | inl he => exact he ▸ hxk.le
          | inr hx =>
            exact ((List.pairwise_cons.1 (List.pairwise_append.1 hs).2.1).1 x hx).trans hxk.le
      have hbmax : b'.key = range.min := by
        refine le_antisymm ((hiff b'.key).2.2.1 hb') ?_
        rw [hS'] at hx hs
        cases List.mem_append.1 hx with
        | inl hx => exact hxk.ge.trans ((List.pairwise_append.1 hs).2.2 x hx b' (by simp))
        | inr hx =>
          cases List.mem_cons.1 hx with
          | inl he => exact he ▸ hxk.ge
          | inr hx =>
            have := hB' x hx
            rw [(hiff x.key).2.2.2 hxk.le] at this
            cases this
      have hf : S.find? (fun n => range.Contains n.key) = some b := by
        rw [hS]
        refine find?_mid (fun n hn => decide_eq_false fun hc => ?_)
          (decide_eq_true ((hiff b.key).1.2 hbmin))
        have := hA n hn
        rw [(hiff n.key).2.1.2 ((hiff n.key).1.1 hc).ge] at this
        cases this
      have hl : S.reverse.find? (fun n => range.Contains n.key) = some b' := by
        rw [hS', List.reverse_append, List.reverse_cons, List.append_assoc, List.singleton_append]
        refine find?_mid (fun n hn => decide_eq_false fun hc => ?_)
          (decide_eq_true ((hiff b'.key).1.2 hbmax))
        have := hB' n (List.mem_reverse.1 hn)
        rw [(hiff n.key).2.2.2 ((hiff n.key).1.1 hc).le] at this
        cases this
      rw [hf, hl]
      exact ⟨rfl, rfl⟩
  · have hguard : (!keyInRange l range) = true := by simpa using hin
    have hfirst : firstInRange l range = .ok none := if_pos hguard
    have hlast : lastInRange l range = .ok none := if_pos hguard
    have hnone : ∀ T : List Node, (∀ n, n ∈ T ↔ n ∈ S) →
        ((.ok none : Except SearchFault (Option Ptr)) =
          .ok ((T.find? fun n => range.Contains n.key).map Node.ptr) ↔
          ∀ n ∈ S, ¬ range.Contains n.key) := by
      intro T hT
      rw [Except.ok.injEq, eq_comm, Option.map_eq_none_iff, List.find?_eq_none]
      simp only [decide_eq_true_eq, hT]
    rw [hfirst, hlast, hnone S fun _ => Iff.rfl, hnone S.reverse fun _ => List.mem_reverse,
      and_self]
    constructor
    · exact fun hn => .inr ⟨hn, hin⟩
    · intro hok
      cases hok with
      | inr hok => exact hok.1
      | inl hpoint =>
        -- then both edges are there
        obtain ⟨⟨x, hx, hc⟩, hpoint⟩ := hpoint
        have hiff := contains_point hc hpoint x.key
        have hxk := hiff.1.1 hc
        exact absurd (h.keyInRange_iff.2 ⟨hc.proper, ⟨x, hx, hiff.2.2.2 hxk.le⟩, x, hx,
          hiff.2.1.2 hxk.ge⟩) hin

end

/-- **When the first and the last node in a range are found**. -/
theorem inRange_iff (xs : List Insertion) :
    ((xs.length : Int) ≤ INT_MAX → ∃ l, build xs = .ok l) ∧ ∀ l, build xs = .ok l → ∀ range,
      (EdgesRight l range ↔ RangeOk (xs.map Insertion.key) range) := by
  refine ⟨(build_spec xs).1, fun l hl range => ?_⟩
  have hmem : ∀ k, k ∈ (placed xs).map Node.key ↔ k ∈ xs.map Insertion.key :=
    fun _ => (placed_keys xs).mem_iff
  rw [((build_spec xs).2 l hl).1.edgesRight_iff]
  simp only [RangeOk, hmem]

/-- The keys 1 and 5. -/
def rangeInsertions : List Insertion := [⟨1, 0, ⟨1, drawn_one⟩⟩, ⟨5, 0, ⟨2, drawn_two⟩⟩]

theorem inRange_five : ∃ l, build rangeInsertions = .ok l ∧ EdgesRight l ⟨5, 5, 0, 0⟩ := by
  obtain ⟨hreturns, hspec⟩ := inRange_iff rangeInsertions
  obtain ⟨l, hl⟩ := hreturns (by decide)
  exact ⟨l, hl, (hspec l hl ⟨5, 5, 0, 0⟩).2 (.inl (by decide))⟩

/-- From 1 to 5 the first node is the one with key 5. -/
theorem inRange_swapped : ¬ ∀ xs l, build xs = .ok l → ∀ range, EdgesRight l range := by
  have hrun : ((build rangeInsertions).map fun l => (firstInRange l ⟨1, 5, 0, 0⟩).toOption
      ).toOption = some (some (some 2)) ∧ ((build rangeInsertions).map fun l =>
        (l.mem.chains.chain 0).find? fun p => (RangeSpec.mk 1 5 0 0).Contains (l.mem.key p)
      ).toOption = some (some 1) := by
    decide +kernel
  intro h
  cases hl : build rangeInsertions with
  | error e =>
    rw [hl] at hrun
    cases hrun.1
  | ok l =>
    rw [hl] at hrun
    have hfirst := (h rangeInsertions l hl ⟨1, 5, 0, 0⟩).1
    have h1 : (firstInRange l ⟨1, 5, 0, 0⟩).toOption = some (some 2) := Option.some.inj hrun.1
    have h2 : ((l.mem.chains.chain 0).find? fun p =>
      (RangeSpec.mk 1 5 0 0).Contains (l.mem.key p)) = some 1 := Option.some.inj hrun.2
    rw [hfirst, h2] at h1
    exact absurd h1 (by decide)

end SkipRank
