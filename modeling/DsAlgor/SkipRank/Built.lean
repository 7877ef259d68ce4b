import DsAlgor.SkipRank.Search

/-!
# Lists built by insertions

`placed xs` are the nodes of a list after the insertions `xs`, in the order of level 0. The address
of a node is the number of its insertion, so that `drawn xs` gives the level it was drawn.

`Chained.levels` is what all searches rest on: level `i` has the nodes drawn above `i`, in the order
of level 0.
-/

namespace SkipRank

open Circular

/-- A call of `skiplist_insert` that gets memory. -/
structure Insertion where
  key : Int
  value : Int
  level : Drawn

def build (xs : List Insertion) : Except Fault Skiplist :=
  xs.foldlM (fun l x => (skiplistInsert l x.key x.value x.level true).map Prod.snd) skiplistNew

/-- A call of `skiplist_insert`; `alloc` tells whether `malloc` has memory. -/
structure Call extends Insertion where
  alloc : Bool

def runCalls (calls : List Call) : Except Fault Skiplist :=
  calls.foldlM (fun l x => (skiplistInsert l x.key x.value x.level x.alloc).map Prod.snd)
    skiplistNew

/-- The calls that get memory. -/
def inserted (calls : List Call) : List Insertion := (calls.filter (·.alloc)).map Call.toInsertion

/-- The level the calls raise a new list to. -/
def raised (calls : List Call) : Nat := calls.foldl (fun level x => max level x.level) 1

/-- The nodes after the insertions. -/
def placed (xs : List Insertion) : List Node :=
  xs.zipIdx.foldl (fun S x => S.orderedInsert (·.key ≤ ·.key) ⟨x.2 + 1, x.1.key, x.1.level⟩) []

/-- The level that was drawn for a node. -/
def drawn (xs : List Insertion) (p : Ptr) : Nat := xs[p - 1]?.elim 0 (·.level)

/-- The nodes that `skiplist_foreach_forward` meets on level `i`. -/
def chainFrom (next : Link → Link) (i : Nat) : Nat → Link → List Ptr
  | 0, _ => []
  | fuel + 1, pos => if pos = ⟨0, i⟩ then [] else pos.node :: chainFrom next i fuel (next pos)

def Chains.chain (c : Chains) (i : Nat) : List Ptr := chainFrom c.next i c.brk (c.next ⟨0, i⟩)

/-! ## The nodes -/

section
variable {xs : List Insertion} {n : Node} {i : Nat}

theorem placed_concat (xs : List Insertion) (x : Insertion) : placed (xs ++ [x]) =
    (placed xs).orderedInsert (·.key ≤ ·.key) ⟨xs.length + 1, x.key, x.level⟩ := by
  simp [placed, List.zipIdx_append]

theorem mem_placed : n ∈ placed xs ↔ ∃ i x, xs[i]? = some x ∧ n = ⟨i + 1, x.key, x.level⟩ := by
  induction xs using List.reverseRecOn with
  | nil => simp [placed]
  | append_singleton xs x ih =>
    rw [placed_concat, List.mem_orderedInsert, ih]
    constructor
    · intro h
      cases h with
      | inl h => exact ⟨xs.length, x, by simp, h⟩
      | inr h =>
        obtain ⟨i, y, hi, hn⟩ := h
        have hlt := (List.getElem?_eq_some_iff.1 hi).1
        exact ⟨i, y, by rw [List.getElem?_append_left hlt, hi], hn⟩
    · rintro ⟨i, y, hi, hn⟩
      have hlt := (List.getElem?_eq_some_iff.1 hi).1
      rw [List.length_append, List.length_singleton] at hlt
      cases Nat.lt_or_eq_of_le (Nat.le_of_lt_succ hlt) with
      | inl hlt =>
        rw [List.getElem?_append_left hlt] at hi
        exact .inr ⟨i, y, hi, hn⟩
      | inr he =>
        rw [he, List.getElem?_concat_length] at hi
        cases hi
        exact .inl (he ▸ hn)

theorem drawn_eq (h : n ∈ placed xs) : drawn xs n.ptr = n.height := by
  obtain ⟨i, x, hi, rfl⟩ := mem_placed.1 h
  simp [drawn, hi]

theorem placed_perm (xs : List Insertion) :
    ((placed xs).map Node.ptr).Perm (List.range' 1 xs.length) := by
  induction xs using List.reverseRecOn with
  | nil => exact List.Perm.refl _
  | append_singleton xs x ih =>
    have hins := (List.perm_orderedInsert (·.key ≤ ·.key)
      (⟨xs.length + 1, x.key, x.level⟩ : Node) (placed xs)).map Node.ptr
    rw [placed_concat]
    refine hins.trans ?_
    rw [List.length_append, List.length_singleton, List.range'_concat, List.map_cons, mul_comm,
      Nat.mul_one, Nat.add_comm 1]
    exact (ih.cons _).trans (List.perm_append_singleton _ _).symm

theorem placed_length (xs : List Insertion) : (placed xs).length = xs.length := by
  have := (placed_perm xs).length_eq
  rwa [List.length_map, List.length_range'] at this

theorem placed_keys (xs : List Insertion) :
    ((placed xs).map Node.key).Perm (xs.map Insertion.key) := by
  induction xs using List.reverseRecOn with
  | nil => exact List.Perm.refl _
  | append_singleton xs x ih =>
    have hins := (List.perm_orderedInsert (·.key ≤ ·.key)
      (⟨xs.length + 1, x.key, x.level⟩ : Node) (placed xs)).map Node.key
    rw [placed_concat, List.map_append]
    exact hins.trans ((ih.cons _).trans (List.perm_append_singleton _ _).symm)

end

/-! ## The chains -/

section
variable {c : Chains} {S A B : List Node} {i : Nat} {xs : List Insertion}

theorem Chained.chainFrom (h : Chained c S) : ∀ {B A : List Node} {fuel : Nat}, S = A ++ B →
    (ptrs B i).length < fuel → SkipRank.chainFrom c.next i fuel ⟨firstNode B i, i⟩ = ptrs B i
  | [], A, fuel, _, hf => by
    obtain ⟨k, rfl⟩ := Nat.exists_eq_succ_of_ne_zero hf.ne'
    exact if_pos rfl
  | n :: B, A, fuel, hS, hf => by
    have hS' : S = (A ++ [n]) ++ B := by simpa using hS
    by_cases hn : i < n.height
    · rw [ptrs_cons, if_pos hn] at hf ⊢
      obtain ⟨k, rfl⟩ := Nat.exists_eq_succ_of_ne_zero (Nat.ne_zero_of_lt hf)
      have hfirst : firstNode (n :: B) i = n.ptr := firstNode_append_cons (A := []) (by simp) hn
      have hpos : (⟨n.ptr, i⟩ : Link) ≠ ⟨0, i⟩ := fun he =>
        (h.positive n (by simp [hS])).ne' (congrArg Link.node he)
      have hnext : c.next ⟨n.ptr, i⟩ = ⟨firstNode B i, i⟩ := by
        have hc := h.circular i
        rw [hS, row_append, row_cons, if_pos hn] at hc
        rw [hc.next_mid, headOr_row]
      rw [hfirst, SkipRank.chainFrom, if_neg hpos, hnext,
        h.chainFrom hS' (Nat.lt_of_succ_lt_succ hf)]
    · have hfirst : firstNode (n :: B) i = firstNode B i :=
        firstNode_append_low (M := [n]) (by simpa using hn)
      rw [ptrs_cons, if_neg hn] at hf ⊢
      rw [hfirst]
      exact h.chainFrom hS' hf

theorem Chained.chain (h : Chained c S) (i : Nat) : c.chain i = ptrs S i := by
  have hnext : c.next ⟨0, i⟩ = ⟨firstNode S i, i⟩ := by
    rw [(h.circular i).next_head, headOr_row]
  have hfuel : (ptrs S i).length < c.brk := by
    refine lt_of_le_of_lt ?_ h.fuel
    rw [ptrs, List.length_map]
    exact List.length_filter_le _ _
  rw [Chains.chain, hnext]
  exact h.chainFrom (A := []) rfl hfuel

theorem Chained.chain_zero (h : Chained c S) : c.chain 0 = S.map Node.ptr := by
  have hall : S.filter (0 < ·.height) = S :=
    List.filter_eq_self.2 fun n hn => decide_eq_true (h.height n hn)
  rw [h.chain, ptrs, hall]

/-- The loop over the highest level has a round when a node is as high. -/
theorem Chained.topLinked_iff (h : Chained c S) {level : Nat} (hlevel : 1 ≤ level)
    (hle : ∀ n ∈ S, n.height ≤ level) : TopLinked c level ↔ ∃ n ∈ S, n.height = level := by
  have hnext : c.next ⟨0, level - 1⟩ = ⟨firstNode S (level - 1), level - 1⟩ := by
    rw [(h.circular (level - 1)).next_head, headOr_row]
  constructor
  · intro htop
    by_contra hnone
    have hlow : ∀ n ∈ S, n.height ≤ level - 1 := fun n hn => by
      have h1 := hle n hn
      have h2 : n.height ≠ level := fun he => hnone ⟨n, hn, he⟩
      omega
    rw [firstNode_high hlow] at hnext
    cases htop with
    | inl hzero => omega
    | inr hne => exact hne hnext
  · rintro ⟨n, hn, hheight⟩
    refine .inr fun hempty => ?_
    have hmem : n.ptr ∈ c.chain (level - 1) := by
      rw [h.chain]
      exact mem_ptrs.2 ⟨n, hn, by omega, rfl⟩
    obtain ⟨k, hk⟩ := Nat.exists_eq_succ_of_ne_zero (Nat.ne_zero_of_lt h.fuel)
    rw [Chains.chain, hempty, hk, SkipRank.chainFrom, if_pos rfl] at hmem
    cases hmem

theorem Chained.levels (h : Chained c (placed xs)) (i : Nat) :
    c.chain i = (c.chain 0).filter (i < drawn xs ·) := by
  rw [h.chain_zero, h.chain, ptrs, List.filter_map]
  congr 1
  refine List.filter_congr fun n hn => ?_
  show decide (i < n.height) = decide (i < drawn xs n.ptr)
  rw [drawn_eq hn]

end

/-! ## Calls -/

/-- What the calls of `skiplist_insert` do to a list that holds the nodes `S`; `skiplist.h` and
`skiplist_with_rank.h` have it in common. Without memory a call only raises the level. -/
structure Calls {σ ε : Type} (call : σ → Call → Except ε σ) (holds : σ → List Node → Prop)
    (brk level : σ → Nat) : Prop where
  returns : ∀ {l S}, holds l S → (S.length : Int) < INT_MAX → ∀ x, ∃ l', call l ⟨x, true⟩ = .ok l'
  inserts : ∀ {l S x l'}, holds l S → call l ⟨x, true⟩ = .ok l' →
    ∃ A B, S = A ++ B ∧ (∀ n ∈ A, n.key < x.key) ∧ (∀ n ∈ B, x.key ≤ n.key) ∧
      holds l' (A ++ ⟨brk l, x.key, x.level⟩ :: B) ∧ brk l' = brk l + 1 ∧
      level l' = max (level l) x.level
  fails : ∀ {l S}, holds l S → ∀ x, ∃ l', call l ⟨x, false⟩ = .ok l' ∧ holds l' S ∧
    brk l' = brk l ∧ level l' = max (level l) x.level

/-- The list after the calls. -/
structure CalledFrom {σ : Type} (holds : σ → List Node → Prop) (brk level : σ → Nat)
    (calls : List Call) (l : σ) : Prop where
  nodes : holds l (placed (inserted calls))
  brk : brk l = (inserted calls).length + 1
  level : level l = raised calls

theorem inserted_concat (calls : List Call) (x : Insertion) (alloc : Bool) :
    inserted (calls ++ [⟨x, alloc⟩]) = inserted calls ++ if alloc then [x] else [] := by
  cases alloc with
  | false => simp [inserted]
  | true => simp [inserted]

theorem raised_concat (calls : List Call) (x : Call) :
    raised (calls ++ [x]) = max (raised calls) x.level := by
  simp [raised]

theorem raised_le_iff {calls : List Call} {n : Nat} :
    raised calls ≤ n ↔ 1 ≤ n ∧ ∀ y ∈ calls, y.level ≤ n := by
  induction calls using List.reverseRecOn with
  | nil => simp [raised]
  | append_singleton calls x ih =>
    rw [raised_concat, max_le_iff, ih, and_assoc, List.forall_mem_append, List.forall_mem_singleton]

theorem mem_inserted {calls : List Call} {x : Insertion} :
    x ∈ inserted calls ↔ ⟨x, true⟩ ∈ calls := by
  unfold inserted
  rw [List.mem_map]
  constructor
  · rintro ⟨⟨x, alloc⟩, hy, rfl⟩
    obtain ⟨hy, halloc⟩ := List.mem_filter.1 hy
    cases halloc
    exact hy
  · exact fun hx => ⟨⟨x, true⟩, List.mem_filter.2 ⟨hx, rfl⟩, rfl⟩

section
variable {σ ε : Type} {call : σ → Call → Except ε σ} {holds : σ → List Node → Prop}
  {brk level : σ → Nat} {l l' new : σ} {calls : List Call} {x : Call} {c : Chains}

theorem CalledFrom.concat (h : CalledFrom holds brk level calls l)
    (hc : Calls call holds brk level) (hrun : call l x = .ok l') :
    CalledFrom holds brk level (calls ++ [x]) l' := by
  obtain ⟨x, alloc⟩ := x
  cases alloc with
  | false =>
    obtain ⟨l₁, hrun₁, hholds, hbrk, hlevel⟩ := hc.fails h.nodes x
    cases hrun₁.symm.trans hrun
    have hsame : inserted (calls ++ [⟨x, false⟩]) = inserted calls := by simp [inserted_concat]
    refine ⟨hsame ▸ hholds, ?_, ?_⟩
    · rw [hsame, hbrk, h.brk]
    · rw [hlevel, h.level, raised_concat]
  | true =>
    obtain ⟨A, B, hAB, hA, hB, hholds, hbrk, hlevel⟩ := hc.inserts h.nodes hrun
    have hone : inserted (calls ++ [⟨x, true⟩]) = inserted calls ++ [x] := by
      simp [inserted_concat]
    have hplaced : placed (inserted (calls ++ [⟨x, true⟩])) =
        A ++ ⟨brk l, x.key, x.level⟩ :: B := by
      rw [hone, placed_concat, hAB, h.brk]
      exact orderedInsert_eq hA hB
    refine ⟨hplaced ▸ hholds, ?_, ?_⟩
    · rw [hone, hbrk, h.brk, List.length_append]
      rfl
    · rw [hlevel, h.level, raised_concat]

/-- **Runs of calls**: they all return as long as `count` does not overflow. -/
theorem Calls.run (hc : Calls call holds brk level) (hnew : CalledFrom holds brk level [] new)
    (calls : List Call) :
    (((inserted calls).length : Int) ≤ INT_MAX → ∃ l, calls.foldlM call new = .ok l) ∧
      ∀ l, calls.foldlM call new = .ok l → CalledFrom holds brk level calls l := by
  induction calls using List.reverseRecOn with
  | nil =>
    refine ⟨fun _ => ⟨new, rfl⟩, fun l hl => ?_⟩
    cases hl
    exact hnew
  | append_singleton calls x ih =>
    obtain ⟨hreturns, hcalled⟩ := ih
    have hfold : (calls ++ [x]).foldlM call new = (calls.foldlM call new).bind (call · x) := by
      rw [List.foldlM_append]
      show _ >>= _ = _ >>= _
      congr 1
      funext l
      exact bind_pure _
    refine ⟨fun hlen => ?_, fun l' hl' => ?_⟩
    · obtain ⟨x, alloc⟩ := x
      rw [inserted_concat, List.length_append] at hlen
      push_cast at hlen
      obtain ⟨l, hl⟩ := hreturns (by omega)
      rw [hfold, hl]
      cases alloc with
      | false =>
        obtain ⟨l', hrun, -⟩ := hc.fails (hcalled l hl).nodes x
        exact ⟨l', hrun⟩
      | true =>
        simp only [if_true, List.length_singleton] at hlen
        exact hc.returns (hcalled l hl).nodes (by rw [placed_length]; omega) x
    · cases hl : calls.foldlM call new with
      | error e =>
        rw [hfold, hl] at hl'
        cases hl'
      | ok l =>
        rw [hfold, hl] at hl'
        exact (hcalled l hl).concat hc hl'

/-- A search finds a node on its first level when a call that got memory drew the highest one. -/
theorem CalledFrom.topLinked_iff (h : CalledFrom holds brk level calls l)
    (hc : Chained c (placed (inserted calls))) : TopLinked c (level l) ↔
      ∃ x ∈ inserted calls, ∀ y ∈ calls, y.level ≤ x.level := by
  have hraised := raised_le_iff.1 (le_refl (raised calls))
  have hheight : ∀ n, n ∈ placed (inserted calls) ↔
      ∃ i x, (inserted calls)[i]? = some x ∧ n = ⟨i + 1, x.key, x.level⟩ := fun _ => mem_placed
  rw [h.level, hc.topLinked_iff hraised.1 fun n hn => ?_]
  · constructor
    · rintro ⟨n, hn, htop⟩
      obtain ⟨i, x, hi, rfl⟩ := (hheight n).1 hn
      have htop : x.level = raised calls := htop
      exact ⟨x, List.mem_of_getElem? hi, fun y hy => (hraised.2 y hy).trans htop.ge⟩
    · rintro ⟨x, hx, hmax⟩
      obtain ⟨i, hi⟩ := List.mem_iff_getElem?.1 hx
      refine ⟨⟨i + 1, x.key, x.level⟩, (hheight _).2 ⟨i, x, hi, rfl⟩, ?_⟩
      exact le_antisymm (hraised.2 _ (mem_inserted.1 hx)) (raised_le_iff.2 ⟨x.level.2.1, hmax⟩)
  · obtain ⟨i, x, hi, rfl⟩ := (hheight n).1 hn
    exact hraised.2 _ (mem_inserted.1 (List.mem_of_getElem? hi))

end

/-- The nodes of a list with their spans. -/
def Spanned (l : Skiplist) (S : List Node) : Prop := Linked l S ∧ Spans l.mem S

abbrev Called (calls : List Call) (l : Skiplist) : Prop :=
  CalledFrom Spanned (·.mem.brk) (·.level) calls l

theorem skiplistInsert_calls : Calls
    (fun l x => (skiplistInsert l x.key x.value x.level x.alloc).map Prod.snd) Spanned
    (·.mem.brk) (·.level) where
  returns h hlen x := by
    obtain ⟨-, -, hok⟩ := skiplistInsert_spec h.1 x.key x.value x.level.2
    obtain ⟨A, B, l', -, -, -, hrun, -⟩ := hok (by rw [h.1.count]; omega)
    exact ⟨l', by rw [hrun]; rfl⟩
  inserts {l S x l'} h hl' := by
    obtain ⟨-, hover, hok⟩ := skiplistInsert_spec h.1 x.key x.value x.level.2
    by_cases hcount : l.count = INT_MAX
    · rw [hover hcount] at hl'
      cases hl'
    · obtain ⟨A, B, l₁, rfl, hA, hB, hrun, h₁, hS₁, hlevel, hbrk⟩ := hok hcount
      rw [hrun] at hl'
      cases hl'
      exact ⟨A, B, rfl, hA, hB, ⟨h₁, hS₁ h.2⟩, hbrk, hlevel⟩
  fails {l S} h x := by
    obtain ⟨⟨l', hrun, hmem, h', hlevel⟩, -⟩ := skiplistInsert_spec h.1 x.key x.value x.level.2
    exact ⟨l', by rw [hrun]; rfl, ⟨h', hmem ▸ h.2⟩, by rw [hmem], hlevel⟩

theorem runCalls_spec (calls : List Call) :
    (((inserted calls).length : Int) ≤ INT_MAX → ∃ l, runCalls calls = .ok l) ∧
      ∀ l, runCalls calls = .ok l → Called calls l := by
  refine skiplistInsert_calls.run ⟨⟨skiplistNew_linked, ?_⟩, rfl, rfl⟩ calls
  intro A n B hS
  exact absurd hS (by simp [placed, inserted])

theorem build_spec (xs : List Insertion) :
    ((xs.length : Int) ≤ INT_MAX → ∃ l, build xs = .ok l) ∧
      ∀ l, build xs = .ok l → Spanned l (placed xs) := by
  have hbuild : build xs = runCalls (xs.map (⟨·, true⟩)) := by
    unfold build runCalls
    rw [List.foldlM_map]
  have hall : inserted (xs.map (⟨·, true⟩)) = xs := by
    unfold inserted
    rw [List.filter_eq_self.2 fun x hx => ?_, List.map_map]
    · exact List.map_id xs
    · obtain ⟨y, -, rfl⟩ := List.mem_map.1 hx
      rfl
  obtain ⟨hreturns, hcalled⟩ := runCalls_spec (xs.map (⟨·, true⟩))
  rw [hall] at hreturns
  rw [hbuild]
  exact ⟨hreturns, fun l hl => hall ▸ (hcalled l hl).nodes⟩

end SkipRank
