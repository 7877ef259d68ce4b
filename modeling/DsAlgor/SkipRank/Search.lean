import DsAlgor.SkipRank.Spans

/-!
# Searches by key

`skiplist_search_by_key` and `skiplist_key_rank`. The local variable `node` of a search has no value
before the first round of a loop; `skiplist.h` has the same search, so it is stated for what both
lists have (`Chains`).

`searchLevels_spec`: the search finds the first node with the key on the highest level that has one.
`searchLevels_unset`: it reads `node` too early when the highest level is empty.
-/

namespace SkipRank

open Circular

/-- What the searches by key read of a list. -/
structure Chains where
  next : Link → Link
  prev : Link → Link
  key : Ptr → Int
  brk : Ptr

def Mem.chains (m : Mem) : Chains := ⟨m.next, m.prev, m.key, m.brk⟩

inductive SearchFault
  /-- `node` is read before it has been assigned. -/
  | unset
  /-- A loop over a level does not come to its end. -/
  | loop
deriving DecidableEq

/-! ## The code -/

/-- The body of the loop over one level; the state is `node`. -/
def searchBody (c : Chains) (key : Int) (pos : Link) (_ : Option Ptr) : Link ⊕ Option Ptr :=
  if c.key pos.node ≥ key then .inl pos else .inr (some pos.node)

/-- The loop: the new `end` and `node`. -/
def searchWalk (c : Chains) (key : Int) (pos end_ : Link) (node : Option Ptr) :
    Option (Link × Option Ptr) :=
  (foreach c.next (searchBody c key) c.brk pos end_ node).map fun
    | .inl pos => (pos, some pos.node)
    | .inr node => (end_, node)

/-- The levels below `i`, from the top; `none` for `NULL`. -/
def searchLevels (c : Chains) (key : Int) :
    Nat → Link → Link → Option Ptr → Except SearchFault (Option Ptr)
  | 0, _, _, _ => .ok none
  | i + 1, pos, end_, node =>
    match searchWalk c key (c.next pos) end_ node with
    | none => .error .loop
    | some (_, none) => .error .unset
    | some (end_, some node) =>
      if c.key node = key then .ok (some node)
      else searchLevels c key i (c.prev end_).dec end_.dec (some node)

def skiplistSearchByKey (l : Skiplist) (key : Int) : Except SearchFault (Option Ptr) :=
  let head : Link := ⟨0, l.level - 1⟩
  searchLevels l.mem.chains key l.level head head none

/-- The body of the loop of `skiplist_key_rank` over one level; the state is `node` and `rank`. -/
def keyRankBody (m : Mem) (key : Int) (pos : Link) (s : Option Ptr × BitVec 32) :
    Link × BitVec 32 ⊕ Option Ptr × BitVec 32 :=
  if m.key pos.node ≥ key then .inl (pos, s.2) else .inr (some pos.node, s.2 + m.span pos)

/-- The loop: the new `end`, `node` and `rank`. -/
def keyRankWalk (m : Mem) (key : Int) (pos end_ : Link) (s : Option Ptr × BitVec 32) :
    Option (Link × Option Ptr × BitVec 32) :=
  (foreach m.next (keyRankBody m key) m.brk pos end_ s).map fun
    | .inl (pos, rank) => (pos, some pos.node, rank)
    | .inr s => (end_, s)

/-- The levels below `i`, from the top. -/
def keyRankLevels (m : Mem) (key : Int) :
    Nat → Link → Link → Option Ptr × BitVec 32 → Except SearchFault (BitVec 32)
  | 0, _, _, _ => .ok 0
  | i + 1, pos, end_, s =>
    match keyRankWalk m key (m.next pos) end_ s with
    | none => .error .loop
    | some (_, none, _) => .error .unset
    | some (end_, some node, rank) =>
      if m.key node = key then .ok (rank + m.span ⟨node, i⟩)
      else keyRankLevels m key i (m.prev end_).dec end_.dec (some node, rank)

def skiplistKeyRank (l : Skiplist) (key : Int) : Except SearchFault (BitVec 32) :=
  let head : Link := ⟨0, l.level - 1⟩
  keyRankLevels l.mem key l.level head head (none, 0)

/-! ## One level -/

/-- The rows of a list, as far as a search by key sees them. -/
structure Chained (c : Chains) (S : List Node) : Prop where
  circular : ∀ i, Circular c.next c.prev ⟨0, i⟩ (row S i)
  nodup : (S.map Node.ptr).Nodup
  positive : ∀ n ∈ S, 0 < n.ptr
  fuel : S.length < c.brk
  key : ∀ n ∈ S, c.key n.ptr = n.key
  height : ∀ n ∈ S, 1 ≤ n.height

theorem Linked.chained {l : Skiplist} {S : List Node} (h : Linked l S) :
    Chained l.mem.chains S where
  circular := h.circular
  nodup := h.nodup
  positive n hn := (h.bound n hn).1
  fuel := h.length_lt
  key := h.key
  height n hn := (h.height n hn).1

section
variable {c : Chains} {A M B : List Node} {key : Int} {i j : Nat}

theorem Chained.prev_firstNode (h : Chained c (A ++ B)) :
    c.prev ⟨firstNode B i, i⟩ = ⟨lastNode A i, i⟩ := by
  have hc := h.circular i
  rw [row_append] at hc
  rw [← headOr_row, ← lastOr_row]
  exact hc.prev_eq

section
variable {σ ρ : Type} {body : Link → σ → ρ ⊕ σ} {f : σ → Link → σ} {g : Link → σ → ρ}

variable (body) in
/-- A loop over level `i` that goes on at smaller keys stops at the first node with the key, or
behind all of them. -/
theorem Chained.scan (h : Chained c (A ++ (M ++ B))) (hA : ∀ n ∈ A, n.key < key)
    (hM : ∀ n ∈ M, n.key = key) (hB : ∀ n ∈ B, key < n.key) (hij : i ≤ j)
    (hj : ∀ n ∈ M, n.height ≤ j)
    (hgo : ∀ p s, c.key p < key → body ⟨p, i⟩ s = .inr (f s ⟨p, i⟩))
    (hstop : ∀ p s, key ≤ c.key p → body ⟨p, i⟩ s = .inl (g ⟨p, i⟩ s)) (s : σ) :
    ∃ A₁ A₂ : List Node, A = A₁ ++ A₂ ∧ rankAt A₁ i = rankAt A j ∧
      (((∀ n ∈ M, n.height ≤ i) ∧
        foreach c.next body c.brk (c.next ⟨lastNode A j, i⟩) ⟨firstNode B j, i⟩ s =
          if firstNode B i = firstNode B j then some (.inr ((row A₂ i).foldl f s))
          else some (.inl (g ⟨firstNode B i, i⟩ ((row A₂ i).foldl f s)))) ∨
        ∃ (M₁ : List Node) (v : Node) (M₂ : List Node), M = M₁ ++ v :: M₂ ∧
          (∀ n ∈ M₁, n.height ≤ i) ∧ i < v.height ∧ foreach c.next body c.brk
          (c.next ⟨lastNode A j, i⟩) ⟨firstNode B j, i⟩ s =
          some (.inl (g ⟨v.ptr, i⟩ ((row A₂ i).foldl f s)))) := by
  have hMB : ∀ n ∈ M ++ B, key ≤ n.key := by
    intro n hn
    cases List.mem_append.1 hn with
    | inl hn => exact (hM n hn).ge
    | inr hn => exact (hB n hn).le
  obtain ⟨A₁, A₂, hA₁₂, hr, -, hrun⟩ :=
    scan_row body (g := g) (s := s) (f := f) (h.circular i) h.nodup h.positive h.fuel hij
    (fun A₁ C n D hA₁ _ _ => hgo n.ptr _ (by
      rw [h.key n (by simp [hA₁])]
      exact hA n (by simp [hA₁])))
    fun _ _ B₁ n B₂ _ _ hB₁ _ _ => hstop n.ptr _ (by
      rw [h.key n (List.mem_append_right _ (by simp [hB₁]))]
      exact hMB n (by simp [hB₁]))
  refine ⟨A₁, A₂, hA₁₂, hr, ?_⟩
  rw [firstNode_append_low hj] at hrun
  cases split_first (B := M) (i := i) with
  | inl hlow =>
    rw [firstNode_append_low hlow] at hrun
    exact .inl ⟨hlow, hrun⟩
  | inr hsplit =>
    obtain ⟨M₁, v, M₂, rfl, h1, hv⟩ := hsplit
    have hne : v.ptr ≠ firstNode B j := by
      refine ne_firstNode (A := A ++ (M₁ ++ v :: M₂)) ?_ ?_ (by simp)
      · rw [List.append_assoc]
        exact h.nodup
      · rw [List.append_assoc]
        exact h.positive
    rw [List.append_assoc, List.cons_append, firstNode_append_cons h1 hv, if_neg hne] at hrun
    exact .inr ⟨M₁, v, M₂, rfl, h1, hv, hrun⟩

end

/-- The value of `node` behind the loop over the nodes `A`. -/
theorem foldl_node (A : List Node) (i : Nat) (node : Option Ptr) :
    ((row A i).foldl (fun _ q => some q.node) node = node ∧ ∀ n ∈ A, n.height ≤ i) ∨
      ∃ n ∈ A, i < n.height ∧ (row A i).foldl (fun _ q => some q.node) node = some n.ptr := by
  induction A using List.reverseRecOn with
  | nil => exact .inl ⟨rfl, by simp⟩
  | append_singleton A a ih =>
    rw [row_append, row_cons, List.foldl_append]
    by_cases ha : i < a.height
    · rw [if_pos ha]
      exact .inr ⟨a, by simp, ha, rfl⟩
    · rw [if_neg ha]
      cases ih with
      | inl ih =>
        refine .inl ⟨ih.1, fun n hn => ?_⟩
        cases List.mem_append.1 hn with
        | inl hn => exact ih.2 n hn
        | inr hn =>
          rw [List.mem_singleton.1 hn]
          exact not_lt.1 ha
      | inr ih =>
        obtain ⟨n, hn, hi, hfold⟩ := ih
        exact .inr ⟨n, by simp [hn], hi, hfold⟩

/-! ## The searches -/

/-- `node` is assigned at the first level if it has not been before. -/
def Assigned (c : Chains) (A B : List Node) (i : Nat) (node : Option Ptr) : Prop :=
  node = none → c.next ⟨lastNode A i, i - 1⟩ ≠ ⟨firstNode B i, i - 1⟩

/-- The first node with the key on the highest level that has one. -/
def Found (M : List Node) (r : Option Node) : Prop :=
  match r with
  | none => M = []
  | some v => ∃ M₁ M₂, M = M₁ ++ v :: M₂ ∧ (∀ n ∈ M, n.height ≤ v.height) ∧
      ∀ n ∈ M₁, n.height < v.height

theorem searchWalk_none {pos end_ e : Link} {node : Option Ptr}
    (h : searchWalk c key pos end_ node = some (e, none)) : pos = end_ ∧ node = none := by
  unfold searchWalk at h
  obtain ⟨r, hr, he⟩ := Option.map_eq_some_iff.1 h
  cases r with
  | inl pos => cases (Prod.mk.inj he).2
  | inr node' =>
    have hbody : ∀ p s s', searchBody c key p s = .inr s' → s' ≠ none := by
      intro p s s' hb
      unfold searchBody at hb
      split at hb
      · cases hb
      · rw [← Sum.inr.inj hb]
        exact Option.some_ne_none _
    have hnone : node' = none := (Prod.mk.inj he).2
    cases foreach_rounds hbody hr with
    | inl h => exact ⟨h.1, h.2 ▸ hnone⟩
    | inr h => exact absurd hnone h

/-- The walk over one level: `node` is not a node with the key, or the first such node is found. -/
theorem Chained.searchWalk (h : Chained c (A ++ (M ++ B))) (hA : ∀ n ∈ A, n.key < key)
    (hM : ∀ n ∈ M, n.key = key) (hB : ∀ n ∈ B, key < n.key) (hj : ∀ n ∈ M, n.height ≤ i + 1)
    {node : Option Ptr} (hnode : ∀ p, node = some p → c.key p ≠ key)
    (hassigned : Assigned c A B (i + 1) node) :
    ∃ end_ p, SkipRank.searchWalk c key (c.next ⟨lastNode A (i + 1), i⟩)
        ⟨firstNode B (i + 1), i⟩ node = some (end_, some p) ∧
      (((∀ n ∈ M, n.height ≤ i) ∧ end_ = ⟨firstNode B i, i⟩ ∧ c.key p ≠ key) ∨
        ∃ (M₁ : List Node) (v : Node) (M₂ : List Node), M = M₁ ++ v :: M₂ ∧
          (∀ n ∈ M₁, n.height ≤ i) ∧ i < v.height ∧ p = v.ptr) := by
  have hne : ∀ n ∈ A ++ B, c.key n.ptr ≠ key := by
    intro n hn
    cases List.mem_append.1 hn with
    | inl hn =>
      rw [h.key n (by simp [hn])]
      exact (hA n hn).ne
    | inr hn =>
      rw [h.key n (by simp [hn])]
      exact (hB n hn).ne'
  obtain ⟨A₁, A₂, rfl, -, hscan⟩ := h.scan (searchBody c key)
    (f := fun _ q => some q.node) (g := fun q _ => q) hA hM hB (Nat.le_succ i) hj
    (fun p s hp => if_neg (not_le.2 hp)) (fun p s hp => if_pos hp) node
  have hwalk : ∀ r, foreach c.next (searchBody c key) c.brk
      (c.next ⟨lastNode (A₁ ++ A₂) (i + 1), i⟩) ⟨firstNode B (i + 1), i⟩ node = r →
      SkipRank.searchWalk c key (c.next ⟨lastNode (A₁ ++ A₂) (i + 1), i⟩)
        ⟨firstNode B (i + 1), i⟩ node = r.map (Sum.elim (fun pos => (pos, some pos.node))
          fun node => (⟨firstNode B (i + 1), i⟩, node)) := by
    intro r hr
    unfold SkipRank.searchWalk
    rw [hr]
    cases r with
    | none => rfl
    | some r => cases r <;> rfl
  cases hscan with
  | inr hfound =>
    obtain ⟨M₁, v, M₂, hMv, h1, hv, hrun⟩ := hfound
    exact ⟨⟨v.ptr, i⟩, v.ptr, hwalk _ hrun, .inr ⟨M₁, v, M₂, hMv, h1, hv, rfl⟩⟩
  | inl hlow =>
    obtain ⟨hlow, hrun⟩ := hlow
    by_cases hend : firstNode B i = firstNode B (i + 1)
    · rw [if_pos hend] at hrun
      have hrun := hwalk _ hrun
      cases hfold : (row A₂ i).foldl (fun _ q => some q.node) node with
      | none =>
        rw [hfold] at hrun
        obtain ⟨hpos, hnone⟩ := searchWalk_none hrun
        exact absurd hpos (hassigned hnone)
      | some p =>
        rw [hfold, ← hend] at hrun
        rw [← hend]
        refine ⟨⟨firstNode B i, i⟩, p, hrun, .inl ⟨hlow, rfl, ?_⟩⟩
        cases foldl_node A₂ i node with
        | inl hkept => exact hnode p (hkept.1.symm.trans hfold)
        | inr hmet =>
          obtain ⟨n, hn, -, hmet⟩ := hmet
          rw [← Option.some.inj (hmet.symm.trans hfold)]
          exact hne n (by simp [hn])
    · rw [if_neg hend] at hrun
      refine ⟨⟨firstNode B i, i⟩, firstNode B i, hwalk _ hrun, .inl ⟨hlow, rfl, ?_⟩⟩
      cases split_first (B := B) (i := i) with
      | inl hhigh => exact absurd (firstNode_ne hhigh (Nat.le_succ i)).symm hend
      | inr hsplit =>
        obtain ⟨B₁, n, B₂, rfl, h1, hn⟩ := hsplit
        rw [firstNode_append_cons h1 hn]
        exact hne n (by simp)

theorem searchLevels_spec (h : Chained c (A ++ (M ++ B))) (hA : ∀ n ∈ A, n.key < key)
    (hM : ∀ n ∈ M, n.key = key) (hB : ∀ n ∈ B, key < n.key) : ∀ (i : Nat) (node : Option Ptr),
    (∀ n ∈ M, n.height ≤ i) → (∀ p, node = some p → c.key p ≠ key) → Assigned c A B i node →
    ∃ r, searchLevels c key i ⟨lastNode A i, i - 1⟩ ⟨firstNode B i, i - 1⟩ node =
      .ok (r.map Node.ptr) ∧ Found M r
  | 0, node, hlow, _, _ => by
    refine ⟨none, rfl, List.eq_nil_iff_forall_not_mem.2 fun n hn => ?_⟩
    have h1 := hlow n hn
    have h2 := h.height n (by simp [hn])
    omega
  | i + 1, node, hlow, hnode, hassigned => by
    obtain ⟨end_, p, hwalk, hcases⟩ := h.searchWalk hA hM hB hlow hnode hassigned
    cases hcases with
    | inl hgo =>
      obtain ⟨hlow', rfl, hp⟩ := hgo
      have hprev : c.prev ⟨firstNode B i, i⟩ = ⟨lastNode A i, i⟩ := by
        rw [← firstNode_append_low hlow']
        exact h.prev_firstNode
      obtain ⟨r, hrun, hr⟩ := searchLevels_spec h hA hM hB i (some p) hlow'
        (fun q hq => Option.some.inj hq ▸ hp) nofun
      refine ⟨r, ?_, hr⟩
      simp only [searchLevels, Nat.add_sub_cancel, hwalk, if_neg hp, hprev]
      exact hrun
    | inr hfound =>
      obtain ⟨M₁, v, M₂, rfl, h1, hv, rfl⟩ := hfound
      have hkey : c.key v.ptr = key := by
        rw [h.key v (by simp), hM v (by simp)]
      refine ⟨some v, ?_, M₁, M₂, rfl, fun n hn => ?_, fun n hn => ?_⟩
      · simp only [searchLevels, Nat.add_sub_cancel, hwalk, if_pos hkey, Option.map_some]
      · exact (hlow n hn).trans hv
      · exact lt_of_le_of_lt (h1 n hn) hv

/-- A loop over the highest level has a round. -/
def TopLinked (c : Chains) (level : Nat) : Prop :=
  level = 0 ∨ c.next ⟨0, level - 1⟩ ≠ ⟨0, level - 1⟩

instance (c : Chains) (level : Nat) : Decidable (TopLinked c level) :=
  inferInstanceAs (Decidable (_ ∨ _))

/-- Without a round `node` has no value when its key is read. -/
theorem searchLevels_unset (hbrk : 0 < c.brk) {level : Nat} (h : ¬ TopLinked c level) :
    searchLevels c key level ⟨0, level - 1⟩ ⟨0, level - 1⟩ none = .error .unset := by
  obtain ⟨hlevel, hempty⟩ := not_or.1 h
  obtain ⟨i, rfl⟩ := Nat.exists_eq_succ_of_ne_zero hlevel
  have hnext : c.next ⟨0, i⟩ = ⟨0, i⟩ := not_not.1 hempty
  have hwalk : searchWalk c key ⟨0, i⟩ ⟨0, i⟩ none = some (⟨0, i⟩, none) := by
    unfold searchWalk
    rw [foreach_end hbrk]
    rfl
  simp only [searchLevels, Nat.succ_eq_add_one, Nat.add_sub_cancel, hnext, hwalk]

/-- **A search by key**, from the highest level. -/
theorem Chained.search {S : List Node} {level : Nat} (h : Chained c S)
    (hsorted : S.Pairwise (·.key ≤ ·.key)) (hlevel : ∀ n ∈ S, n.height ≤ level)
    (htop : TopLinked c level) (key : Int) :
    ∃ r, searchLevels c key level ⟨0, level - 1⟩ ⟨0, level - 1⟩ none = .ok (r.map Node.ptr) ∧
      match r with
      | none => ∀ n ∈ S, n.key ≠ key
      | some v => v ∈ S ∧ v.key = key := by
  obtain ⟨A, M, B, rfl, hA, hM, hB⟩ := sorted_split_key key hsorted
  cases htop with
  | inl hzero =>
    subst hzero
    refine ⟨none, rfl, fun n hn => ?_⟩
    have h1 := h.height n hn
    have h2 := hlevel n hn
    omega
  | inr htop =>
    have hlast : lastNode A level = 0 := lastNode_high fun n hn => hlevel n (by simp [hn])
    have hfirst : firstNode B level = 0 := firstNode_high fun n hn => hlevel n (by simp [hn])
    have hassigned : Assigned c A B level none := by
      intro _
      rw [hlast, hfirst]
      exact htop
    obtain ⟨r, hrun, hr⟩ := searchLevels_spec h hA hM hB level none
      (fun n hn => hlevel n (by simp [hn])) nofun hassigned
    rw [hlast, hfirst] at hrun
    refine ⟨r, hrun, ?_⟩
    cases r with
    | none =>
      have hr : M = [] := hr
      subst hr
      intro n hn
      cases List.mem_append.1 hn with
      | inl hn => exact (hA n hn).ne
      | inr hn => exact (hB n hn).ne'
    | some v =>
      obtain ⟨M₁, M₂, rfl, -, -⟩ := hr
      exact ⟨by simp, hM v (by simp)⟩

end

/-! ## The rank of a key -/

section
variable {l : Skiplist} {m : Mem} {A M B : List Node} {key : Int} {i : Nat}

/-- The walk for the rank is the walk of the search. -/
theorem keyRankWalk_map (m : Mem) (key : Int) (pos end_ : Link) (s : Option Ptr × BitVec 32) :
    (keyRankWalk m key pos end_ s).map (fun r => (r.1, r.2.1)) =
      searchWalk m.chains key pos end_ s.1 := by
  have hbody : ∀ p s, (keyRankBody m key p s).map Prod.fst Prod.fst =
      searchBody m.chains key p s.1 := by
    intro p s
    unfold keyRankBody searchBody
    by_cases hge : m.key p.node ≥ key
    · have hge' : m.chains.key p.node ≥ key := hge
      rw [if_pos hge, if_pos hge']
      rfl
    · have hge' : ¬ m.chains.key p.node ≥ key := hge
      rw [if_neg hge, if_neg hge']
      rfl
  unfold keyRankWalk searchWalk
  have hrun := foreach_map m.next end_ hbody m.brk pos s
  show _ = (foreach m.next (searchBody m.chains key) m.brk pos end_ s.1).map _
  rw [← hrun, Option.map_map, Option.map_map]
  congr 1
  funext r
  cases r <;> rfl

/-- The rank at the end of the walk. -/
theorem Linked.keyRankWalk (h : Linked l (A ++ (M ++ B))) (hS : Spans l.mem (A ++ (M ++ B)))
    (hA : ∀ n ∈ A, n.key < key) (hM : ∀ n ∈ M, n.key = key) (hB : ∀ n ∈ B, key < n.key)
    (hj : ∀ n ∈ M, n.height ≤ i + 1) {node : Option Ptr} {end_ : Link} {p : Ptr}
    (hwalk : searchWalk l.mem.chains key (l.mem.next ⟨lastNode A (i + 1), i⟩)
      ⟨firstNode B (i + 1), i⟩ node = some (end_, some p)) :
    SkipRank.keyRankWalk l.mem key (l.mem.next ⟨lastNode A (i + 1), i⟩) ⟨firstNode B (i + 1), i⟩
      (node, BitVec.ofNat 32 (rankAt A (i + 1))) =
        some (end_, some p, BitVec.ofNat 32 (rankAt A i)) := by
  obtain ⟨A₁, A₂, hA₁₂, hr, hscan⟩ := h.chained.scan (keyRankBody l.mem key)
    (f := fun s q => (some q.node, s.2 + l.mem.span q)) (g := fun q s => (q, s.2)) hA hM hB
    (Nat.le_succ i) hj (fun p s hp => if_neg (not_le.2 hp)) (fun p s hp => if_pos hp)
    (node, BitVec.ofNat 32 (rankAt A (i + 1)))
  have hfold : ∀ (X : List Link) (s : Option Ptr × BitVec 32),
      (X.foldl (fun s q => (some q.node, s.2 + l.mem.span q)) s).2 =
        X.foldl (fun r q => r + l.mem.span q) s.2 := by
    intro X
    induction X with
    | nil => exact fun _ => rfl
    | cons x X ih => exact fun s => ih _
  have hrank : ((row A₂ i).foldl (fun s q => (some q.node, s.2 + l.mem.span q))
      (node, BitVec.ofNat 32 (rankAt A (i + 1)))).2 = BitVec.ofNat 32 (rankAt A i) := by
    rw [hfold, ← hr, hS.sum (by rw [hA₁₂]), ← hA₁₂]
  have hmap := (keyRankWalk_map l.mem key (l.mem.next ⟨lastNode A (i + 1), i⟩)
    ⟨firstNode B (i + 1), i⟩ (node, BitVec.ofNat 32 (rankAt A (i + 1)))).trans hwalk
  obtain ⟨r, hrun, hrp⟩ := Option.map_eq_some_iff.1 hmap
  obtain ⟨e, q, rank⟩ := r
  obtain ⟨rfl, rfl⟩ := Prod.mk.inj hrp
  rw [hrun]
  have hthird : rank = BitVec.ofNat 32 (rankAt A i) := by
    unfold SkipRank.keyRankWalk at hrun
    obtain ⟨r, hr, he⟩ := Option.map_eq_some_iff.1 hrun
    rw [← hrank]
    have hcases : r = .inr ((row A₂ i).foldl (fun s q => (some q.node, s.2 + l.mem.span q))
        (node, BitVec.ofNat 32 (rankAt A (i + 1)))) ∨ ∃ q, r = .inl (q, ((row A₂ i).foldl
        (fun s q => (some q.node, s.2 + l.mem.span q))
          (node, BitVec.ofNat 32 (rankAt A (i + 1)))).2) := by
      cases hscan with
      | inl hlow =>
        have hr := hr.symm.trans hlow.2
        by_cases hend : firstNode B i = firstNode B (i + 1)
        · rw [if_pos hend] at hr
          exact .inl (Option.some.inj hr)
        · rw [if_neg hend] at hr
          exact .inr ⟨_, Option.some.inj hr⟩
      | inr hfound =>
        obtain ⟨M₁, v, M₂, -, -, -, hrun⟩ := hfound
        exact .inr ⟨_, Option.some.inj (hr.symm.trans hrun)⟩
    cases hcases with
    | inl hr =>
      rw [hr] at he
      exact (congrArg (fun x => x.2.2) he).symm
    | inr hr =>
      obtain ⟨q, hr⟩ := hr
      rw [hr] at he
      exact (congrArg (fun x => x.2.2) he).symm
  rw [hthird]

/-- The position of a node on the level it is found on. -/
theorem rank_found (A M₁ : List Node) (h1 : ∀ n ∈ M₁, n.height ≤ i) :
    rankAt A i + (gap (A ++ M₁) i + 1) = A.length + M₁.length + 1 := by
  have hgap := gap_le_length (A := A) (i := i)
  rw [gap_append_low h1]
  unfold rankAt
  omega

theorem keyRankLevels_spec (h : Linked l (A ++ (M ++ B))) (hS : Spans l.mem (A ++ (M ++ B)))
    (hA : ∀ n ∈ A, n.key < key) (hM : ∀ n ∈ M, n.key = key) (hB : ∀ n ∈ B, key < n.key) :
    ∀ (i : Nat) (node : Option Ptr),
    (∀ n ∈ M, n.height ≤ i) → (∀ p, node = some p → l.mem.key p ≠ key) →
    Assigned l.mem.chains A B i node →
    ∃ rank, keyRankLevels l.mem key i ⟨lastNode A i, i - 1⟩ ⟨firstNode B i, i - 1⟩
        (node, BitVec.ofNat 32 (rankAt A i)) = .ok (BitVec.ofNat 32 rank) ∧
      ((M = [] ∧ rank = 0) ∨ ∃ M₁ v M₂, M = M₁ ++ v :: M₂ ∧ rank = A.length + M₁.length + 1)
  | 0, node, hlow, _, _ => by
    refine ⟨0, rfl, .inl ⟨List.eq_nil_iff_forall_not_mem.2 fun n hn => ?_, rfl⟩⟩
    have h1 := hlow n hn
    have h2 := (h.height n (by simp [hn])).1
    omega
  | i + 1, node, hlow, hnode, hassigned => by
    obtain ⟨end_, p, hwalk, hcases⟩ := h.chained.searchWalk hA hM hB hlow hnode hassigned
    have hrank := h.keyRankWalk hS hA hM hB hlow hwalk
    cases hcases with
    | inl hgo =>
      obtain ⟨hlow', rfl, hp⟩ := hgo
      have hprev : l.mem.prev ⟨firstNode B i, i⟩ = ⟨lastNode A i, i⟩ := by
        rw [← firstNode_append_low hlow']
        exact h.chained.prev_firstNode
      obtain ⟨rank, hrun, hr⟩ := keyRankLevels_spec h hS hA hM hB i (some p) hlow'
        (fun q hq => Option.some.inj hq ▸ hp) nofun
      refine ⟨rank, ?_, hr⟩
      have hp : l.mem.key p ≠ key := hp
      simp only [keyRankLevels, Nat.add_sub_cancel, hrank, if_neg hp, hprev]
      exact hrun
    | inr hfound =>
      obtain ⟨M₁, v, M₂, rfl, h1, hv, rfl⟩ := hfound
      have hkey : l.mem.key v.ptr = key := by
        rw [h.key v (by simp), hM v (by simp)]
      have hspan := hS (A ++ M₁) v (M₂ ++ B) (by simp) i hv
      refine ⟨A.length + M₁.length + 1, ?_, .inr ⟨M₁, v, M₂, rfl, rfl⟩⟩
      simp only [keyRankLevels, Nat.add_sub_cancel, hrank, if_pos hkey, hspan]
      rw [← BitVec.ofNat_add, rank_found A M₁ h1]

end

end SkipRank
