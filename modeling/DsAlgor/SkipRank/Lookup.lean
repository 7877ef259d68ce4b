import DsAlgor.SkipRank.Built

/-!
# Keys and ranks

`skiplist_key_rank` gives the position of a key (`Linked.keyRank`).

`skiplist_search_by_rank` returns the node it has read last. When the walk over a level has reached
the rank and goes on to a node that is too far, this is not the node of the rank; it is right if and
only if no node of the same height comes before the next higher one (`searchByRank_iff`).
-/

namespace SkipRank

open Circular

/-! ## The rank of a key -/

section
variable {l : Skiplist} {S : List Node}

theorem Linked.keyRank (h : Linked l S) (hS : Spans l.mem S)
    (htop : TopLinked l.mem.chains l.level) (key : Int) :
    ∃ rank, skiplistKeyRank l key = .ok (BitVec.ofNat 32 rank) ∧
      ((∀ n ∈ S, n.key ≠ key) ∧ rank = 0 ∨
        ∃ (A : List Node) (v : Node) (B : List Node), S = A ++ v :: B ∧ v.key = key ∧
          rank = A.length + 1) := by
  obtain ⟨A, M, B, rfl, hA, hM, hB⟩ := sorted_split_key key h.sorted
  have hlevel : ∀ n ∈ A ++ (M ++ B), n.height ≤ l.level := fun n hn => (h.height n hn).2
  have hlast : lastNode A l.level = 0 := lastNode_high fun n hn => hlevel n (by simp [hn])
  have hfirst : firstNode B l.level = 0 := firstNode_high fun n hn => hlevel n (by simp [hn])
  have hassigned : Assigned l.mem.chains A B l.level none := by
    intro _
    rw [hlast, hfirst]
    exact htop.resolve_left (Nat.ne_zero_of_lt h.level.1)
  obtain ⟨rank, hrun, hrank⟩ := keyRankLevels_spec h hS hA hM hB l.level none
    (fun n hn => hlevel n (by simp [hn])) nofun hassigned
  rw [hlast, hfirst, rankAt_top fun n hn => hlevel n (by simp [hn])] at hrun
  refine ⟨rank, hrun, ?_⟩
  cases hrank with
  | inl hnil =>
    obtain ⟨rfl, hzero⟩ := hnil
    refine .inl ⟨fun n hn => ?_, hzero⟩
    cases List.mem_append.1 hn with
    | inl hn => exact (hA n hn).ne
    | inr hn => exact (hB n hn).ne'
  | inr hfound =>
    obtain ⟨M₁, v, M₂, rfl, hr⟩ := hfound
    exact .inr ⟨A ++ M₁, v, M₂ ++ B, by simp, hM v (by simp), by simpa using hr⟩

/-- The position of a key is the number of smaller keys. -/
theorem length_eq_countP {A B : List Node} {v : Node} (hs : (A ++ v :: B).Pairwise (·.key ≤ ·.key))
    (hd : ((A ++ v :: B).map Node.key).Nodup) :
    ((A ++ v :: B).map Node.key).countP (· < v.key) = A.length := by
  rw [List.Nodup, List.pairwise_map] at hd
  have hboth := hs.and hd
  obtain ⟨-, hB, hAB⟩ := List.pairwise_append.1 hboth
  have hsmall : ∀ a ∈ A, a.key < v.key := fun a ha =>
    lt_of_le_of_ne (hAB a ha v (by simp)).1 (hAB a ha v (by simp)).2
  have hgreat : ∀ b ∈ v :: B, ¬ b.key < v.key := by
    intro b hb
    cases List.mem_cons.1 hb with
    | inl he => exact he ▸ lt_irrefl _
    | inr hb => exact not_lt.2 ((List.pairwise_cons.1 hB).1 b hb).1
  have hA : A.countP ((fun k => decide (k < v.key)) ∘ Node.key) = A.length :=
    List.countP_eq_length.2 fun a ha => decide_eq_true (hsmall a ha)
  have hB : (v :: B).countP ((fun k => decide (k < v.key)) ∘ Node.key) = 0 :=
    List.countP_eq_zero.2 fun b hb hc => hgreat b hb (of_decide_eq_true hc)
  rw [List.countP_map, List.countP_append, hA, hB, Nat.add_zero]

end

/-! ## The node of a rank -/

/-- The body of the loop of `skiplist_search_by_rank` over one level; the state is `node` and
`traversed`. -/
def byRankBody (m : Mem) (rank : BitVec 32) (pos : Link) (s : Option Ptr × BitVec 32) :
    Link × BitVec 32 ⊕ Option Ptr × BitVec 32 :=
  if s.2 + m.span pos > rank then .inl (pos, s.2) else .inr (some pos.node, s.2 + m.span pos)

/-- The loop: the new `end`, `node` and `traversed`. -/
def byRankWalk (m : Mem) (rank : BitVec 32) (pos end_ : Link) (s : Option Ptr × BitVec 32) :
    Option (Link × Option Ptr × BitVec 32) :=
  (foreach m.next (byRankBody m rank) m.brk pos end_ s).map fun
    | .inl (pos, traversed) => (pos, some pos.node, traversed)
    | .inr s => (end_, s)

/-- The levels below `i`, from the top; `none` for `NULL`. -/
def byRankLevels (m : Mem) (rank : BitVec 32) :
    Nat → Link → Link → Option Ptr × BitVec 32 → Except SearchFault (Option Ptr)
  | 0, _, _, _ => .ok none
  | i + 1, pos, end_, s =>
    match byRankWalk m rank (m.next pos) end_ s with
    | none => .error .loop
    | some (end_, node, traversed) =>
      if rank = traversed then
        match node with
        | none => .error .unset
        | some node => .ok (some node)
      else byRankLevels m rank i (m.prev end_).dec end_.dec (node, traversed)

def skiplistSearchByRank (l : Skiplist) (rank : BitVec 32) : Except SearchFault (Option Ptr) :=
  if rank = 0 ∨ rank > BitVec.ofInt 32 l.count then .ok none
  else
    let head : Link := ⟨0, l.level - 1⟩
    byRankLevels l.mem rank l.level head head (none, 0)

section
variable {l : Skiplist} {A B : List Node} {x : Node} {i j : Nat}

/-- The walk over one level: it goes on to the last node that is not too far. -/
theorem Linked.byRankWalk (h : Linked l (A ++ B)) (hS : Spans l.mem (A ++ B))
    (hlen : (A ++ B).length < 2 ^ 32) (hij : i ≤ j) (node : Option Ptr) :
    ∃ A₁ A₂, A = A₁ ++ A₂ ∧ rankAt A₁ i = rankAt A j ∧
      SkipRank.byRankWalk l.mem (BitVec.ofNat 32 A.length) (l.mem.next ⟨lastNode A j, i⟩)
        ⟨firstNode B j, i⟩ (node, BitVec.ofNat 32 (rankAt A j)) =
          some (⟨firstNode B i, i⟩, if firstNode B i = firstNode B j then
            (row A₂ i).foldl (fun _ q => some q.node) node else some (firstNode B i),
            BitVec.ofNat 32 (rankAt A i)) := by
  let f : Option Ptr × BitVec 32 → Link → Option Ptr × BitVec 32 :=
    fun s q => (some q.node, s.2 + l.mem.span q)
  have hfold : ∀ (X : List Link) (s : Option Ptr × BitVec 32), X.foldl f s =
      (X.foldl (fun _ q => some q.node) s.1, X.foldl (fun r q => r + l.mem.span q) s.2) := by
    intro X
    induction X with
    | nil => exact fun _ => rfl
    | cons q X ih => exact fun s => ih _
  have hstate : ∀ A₁ C D, A = A₁ ++ (C ++ D) → rankAt A₁ i = rankAt A j →
      ((row C i).foldl f (node, BitVec.ofNat 32 (rankAt A j))).2 =
        BitVec.ofNat 32 (rankAt (A₁ ++ C) i) := by
    intro A₁ C D hA hr
    rw [hfold, ← hr]
    exact hS.sum (B := D ++ B) (by rw [hA]; simp)
  rw [List.length_append] at hlen
  obtain ⟨A₁, A₂, hA₁₂, hr, -, hrun⟩ := scan_row
    (byRankBody l.mem (BitVec.ofNat 32 A.length))
    (f := f) (g := fun q s => (q, s.2)) (s := (node, BitVec.ofNat 32 (rankAt A j))) (h.circular i)
    h.nodup (fun n hn => (h.bound n hn).1) h.length_lt hij
    (fun A₁ C n D hA hr hn => by
      -- the node is at a position up to the rank
      have hspan := hS (A₁ ++ C) n (D ++ B) (by rw [hA]; simp) i hn
      have hpos : (A₁ ++ C).length + 1 ≤ A.length := by
        rw [hA]
        simp only [List.length_append, List.length_cons]
        omega
      refine if_neg ?_
      rw [hstate A₁ C (n :: D) hA hr, hspan, ← BitVec.ofNat_add, ← Nat.add_assoc, rankAt_add_gap,
        gt_iff_lt, BitVec.lt_def, BitVec.toNat_ofNat, BitVec.toNat_ofNat,
        Nat.mod_eq_of_lt (by omega), Nat.mod_eq_of_lt (by omega)]
      omega)
    fun A₁ A₂ B₁ n B₂ hA hr hB h1 hn => by
      have hspan := hS (A ++ B₁) n B₂ (by rw [hB]; simp) i hn
      have hpos : A.length + B₁.length + 1 ≤ A.length + B.length := by
        rw [hB]
        simp only [List.length_append, List.length_cons]
        omega
      refine if_pos ?_
      rw [hstate A₁ A₂ [] (by simpa using hA) hr, ← hA, hspan, gap_append_low h1,
        ← BitVec.ofNat_add, show rankAt A i + (gap A i + B₁.length + 1) =
          rankAt A i + gap A i + B₁.length + 1 by omega, rankAt_add_gap,
        gt_iff_lt, BitVec.lt_def, BitVec.toNat_ofNat, BitVec.toNat_ofNat,
        Nat.mod_eq_of_lt (by omega), Nat.mod_eq_of_lt (by omega)]
      omega
  refine ⟨A₁, A₂, hA₁₂, hr, ?_⟩
  have hrank := hstate A₁ A₂ [] (by simpa using hA₁₂) hr
  rw [← hA₁₂] at hrank
  unfold SkipRank.byRankWalk
  rw [hrun]
  by_cases hend : firstNode B i = firstNode B j
  · rw [if_pos hend, if_pos hend, ← hrank, hfold, hend]
    rfl
  · rw [if_neg hend, if_neg hend, ← hrank]
    rfl

theorem byRankLevels_spec (h : Linked l (A ++ [x] ++ B)) (hS : Spans l.mem (A ++ [x] ++ B))
    (hlen : (A ++ [x] ++ B).length < 2 ^ 32) : ∀ (i : Nat) (node : Option Ptr), x.height ≤ i →
    byRankLevels l.mem (BitVec.ofNat 32 (A ++ [x]).length) i ⟨lastNode (A ++ [x]) i, i - 1⟩
      ⟨firstNode B i, i - 1⟩ (node, BitVec.ofNat 32 (rankAt (A ++ [x]) i)) =
        .ok (some (if firstNode B (x.height - 1) = firstNode B x.height then x.ptr
          else firstNode B (x.height - 1)))
  | 0, node, hi => by
    have := (h.height x (by simp)).1
    omega
  | i + 1, node, hi => by
    obtain ⟨A₁, A₂, hA, hr, hwalk⟩ := h.byRankWalk hS hlen (Nat.le_add_right i 1) node
    have hprev : l.mem.prev ⟨firstNode B i, i⟩ = ⟨lastNode (A ++ [x]) i, i⟩ :=
      h.chained.prev_firstNode
    have hsmall : (A ++ [x]).length < 2 ^ 32 := by
      rw [List.length_append] at hlen
      omega
    by_cases hxi : x.height ≤ i
    · -- the node is not on this level
      have hlt : rankAt (A ++ [x]) i < (A ++ [x]).length := by
        have hgap : gap (A ++ [x]) i = gap A i + 1 := by rw [gap_concat, if_pos hxi]
        have := rankAt_add_gap (A := A ++ [x]) (i := i)
        omega
      have hne : BitVec.ofNat 32 (A ++ [x]).length ≠ BitVec.ofNat 32 (rankAt (A ++ [x]) i) := by
        intro he
        have := congrArg BitVec.toNat he
        rw [BitVec.toNat_ofNat, BitVec.toNat_ofNat, Nat.mod_eq_of_lt hsmall,
          Nat.mod_eq_of_lt (by omega)] at this
        omega
      simp only [byRankLevels, Nat.add_sub_cancel, hwalk, if_neg hne, hprev]
      exact byRankLevels_spec h hS hlen i _ hxi
    · -- this is its highest level
      have hheight : x.height = i + 1 := by omega
      have hreach : rankAt (A ++ [x]) i = (A ++ [x]).length := by
        unfold rankAt
        rw [gap_concat, if_neg hxi, Nat.sub_zero]
      have hlast : ∃ C, A₂ = C ++ [x] := by
        cases A₂ using List.reverseRecOn with
        | nil =>
          rw [List.append_nil] at hA
          have hgap : gap (A ++ [x]) (i + 1) = gap A (i + 1) + 1 := by rw [gap_concat, if_pos hi]
          have := rankAt_add_gap (A := A ++ [x]) (i := i + 1)
          rw [← hA, hreach] at hr
          omega
        | append_singleton C y _ =>
          rw [← List.append_assoc] at hA
          obtain ⟨-, hxy⟩ := List.append_inj' hA rfl
          exact ⟨C, by rw [hxy]⟩
      obtain ⟨C, rfl⟩ := hlast
      have hnode : (row (C ++ [x]) i).foldl (fun _ q => some q.node) node = some x.ptr := by
        rw [row_append, row_cons, if_pos (not_le.1 hxi), List.foldl_append]
        rfl
      rw [hnode] at hwalk
      simp only [byRankLevels, Nat.add_sub_cancel, hwalk, hreach, if_true, hheight]
      by_cases hend : firstNode B i = firstNode B (i + 1)
      · rw [if_pos hend, if_pos hend]
      · rw [if_neg hend, if_neg hend]

/-- The first node behind that is at least as high as `x`. -/
def peer (x : Node) (B : List Node) : Option Node := B.find? (x.height ≤ ·.height)

/-- The walk over the highest level of `x` ends at the end of the level above it. -/
theorem firstNode_eq_iff (hx : 1 ≤ x.height) (hnd : (B.map Node.ptr).Nodup)
    (h0 : ∀ n ∈ B, 0 < n.ptr) : firstNode B (x.height - 1) = firstNode B x.height ↔
      ∀ y, peer x B = some y → x.height < y.height := by
  cases split_first (B := B) (i := x.height - 1) with
  | inl hlow =>
    refine iff_of_true (firstNode_ne hlow (Nat.sub_le _ _)).symm fun y hy => ?_
    unfold peer at hy
    have hle : x.height ≤ y.height := by simpa using List.find?_some hy
    have := hlow y (List.mem_of_find?_eq_some hy)
    omega
  | inr hsplit =>
    obtain ⟨B₁, n, B₂, rfl, h1, hn⟩ := hsplit
    have hpeer : peer x (B₁ ++ n :: B₂) = some n := by
      have hnone : B₁.find? (x.height ≤ ·.height) = none :=
        List.find?_eq_none.2 fun m hm hc => by
          have h2 := h1 m hm
          have h3 : x.height ≤ m.height := of_decide_eq_true hc
          omega
      have hge : x.height ≤ n.height := by omega
      unfold peer
      rw [List.find?_append, hnone, Option.none_or, List.find?_cons, decide_eq_true hge]
    rw [hpeer, firstNode_append_cons h1 hn]
    have hone : (∀ y, some n = some y → x.height < y.height) ↔ x.height < n.height :=
      ⟨fun h => h n rfl, fun h y hy => Option.some.inj hy ▸ h⟩
    rw [hone]
    by_cases hlt : x.height < n.height
    · refine iff_of_true (firstNode_append_cons (fun m hm => ?_) hlt).symm hlt
      have := h1 m hm
      omega
    · refine iff_of_false (fun he => ?_) hlt
      have hlow : firstNode (B₁ ++ n :: B₂) x.height = firstNode B₂ x.height := by
        rw [show B₁ ++ n :: B₂ = (B₁ ++ [n]) ++ B₂ by simp]
        refine firstNode_append_low fun m hm => ?_
        cases List.mem_append.1 hm with
        | inl hm =>
          have := h1 m hm
          omega
        | inr hm =>
          rw [List.mem_singleton.1 hm]
          exact not_lt.1 hlt
      rw [hlow] at he
      refine ne_firstNode (A := B₁ ++ [n]) (B := B₂) ?_ ?_ (by simp) he
      · simpa using hnd
      · simpa using h0

/-- **The node of a rank**, whatever the heights are. -/
theorem Linked.searchByRank (h : Linked l (A ++ [x] ++ B)) (hS : Spans l.mem (A ++ [x] ++ B)) :
    skiplistSearchByRank l (BitVec.ofNat 32 (A ++ [x]).length) = .ok (some x.ptr) ↔
      ∀ y, peer x B = some y → x.height < y.height := by
  have hcount := h.count
  have hmax := h.countMax
  unfold INT_MAX at hmax
  have hlen : (A ++ [x] ++ B).length < 2 ^ 32 := by omega
  have hr : (A ++ [x]).length ≤ (A ++ [x] ++ B).length := by simp
  have hpos : 0 < (A ++ [x]).length := by simp
  have hguard : ¬ (BitVec.ofNat 32 (A ++ [x]).length = 0 ∨
      BitVec.ofNat 32 (A ++ [x]).length > BitVec.ofInt 32 l.count) := by
    have hc : BitVec.ofInt 32 l.count = BitVec.ofNat 32 (A ++ [x] ++ B).length := by
      rw [hcount]
      exact BitVec.ofInt_natCast _ _
    intro hg
    cases hg with
    | inl hz =>
      have := congrArg BitVec.toNat hz
      rw [BitVec.toNat_ofNat, Nat.mod_eq_of_lt (by omega)] at this
      exact hpos.ne' this
    | inr hgt =>
      rw [hc, gt_iff_lt, BitVec.lt_def, BitVec.toNat_ofNat, BitVec.toNat_ofNat,
        Nat.mod_eq_of_lt hlen, Nat.mod_eq_of_lt (by omega)] at hgt
      omega
  have htop : ∀ n ∈ A ++ [x] ++ B, n.height ≤ l.level := fun n hn => (h.height n hn).2
  have hspec := byRankLevels_spec h hS hlen l.level none (htop x (by simp))
  rw [lastNode_high fun n hn => htop n (List.mem_append_left _ hn),
    firstNode_high fun n hn => htop n (List.mem_append_right _ hn),
    rankAt_top fun n hn => htop n (List.mem_append_left _ hn)] at hspec
  have hrun : skiplistSearchByRank l (BitVec.ofNat 32 (A ++ [x]).length) = .ok (some
      (if firstNode B (x.height - 1) = firstNode B x.height then x.ptr
        else firstNode B (x.height - 1))) := by
    unfold skiplistSearchByRank
    rw [if_neg hguard]
    exact hspec
  have hnd : (B.map Node.ptr).Nodup := by
    have hnd := h.nodup
    rw [List.map_append] at hnd
    exact (List.nodup_append.1 hnd).2.1
  rw [← firstNode_eq_iff (h.height x (by simp)).1 hnd fun n hn =>
    (h.bound n (List.mem_append_right _ hn)).1, hrun]
  by_cases hend : firstNode B (x.height - 1) = firstNode B x.height
  · rw [if_pos hend]
    exact iff_of_true rfl hend
  · rw [if_neg hend]
    refine iff_of_false (fun he => ?_) hend
    have hptr : firstNode B (x.height - 1) = x.ptr := Option.some.inj (Except.ok.inj he)
    exact ne_firstNode h.nodup (fun n hn => (h.bound n hn).1) (by simp) hptr.symm

end

/-- **When the node of a rank is returned**: when no node behind it has the same height as it and
comes before all higher ones. -/
theorem searchByRank_iff (xs : List Insertion) :
    ((xs.length : Int) ≤ INT_MAX → ∃ l, build xs = .ok l) ∧ ∀ l, build xs = .ok l →
      ∀ r : Nat, 1 ≤ r → (r : Int) ≤ l.count → ∃ p, (l.mem.chains.chain 0)[r - 1]? = some p ∧
        (skiplistSearchByRank l (BitVec.ofNat 32 r) = .ok (some p) ↔
          ∀ q, ((l.mem.chains.chain 0).drop r).find? (drawn xs p ≤ drawn xs ·) = some q →
            drawn xs p < drawn xs q) := by
  refine ⟨(build_spec xs).1, fun l hl r hr hcount => ?_⟩
  obtain ⟨hlinked, hspans⟩ := (build_spec xs).2 l hl
  have hheight : ∀ n ∈ placed xs, drawn xs n.ptr = n.height := fun n hn => drawn_eq hn
  rw [hlinked.chained.chain_zero]
  have hlt : r - 1 < (placed xs).length := by
    have := hlinked.count
    omega
  obtain ⟨A, x, B, hS, hA⟩ : ∃ A x B, placed xs = A ++ [x] ++ B ∧ A.length = r - 1 := by
    refine ⟨(placed xs).take (r - 1), (placed xs)[r - 1], (placed xs).drop r, ?_, ?_⟩
    · rw [List.append_assoc, List.singleton_append]
      conv_lhs => rw [← List.take_append_drop (r - 1) (placed xs)]
      rw [List.drop_eq_getElem_cons hlt, Nat.sub_add_cancel hr]
    · rw [List.length_take, Nat.min_eq_left hlt.le]
  rw [hS] at hlinked hspans hheight ⊢
  have hrank : r = (A ++ [x]).length := by
    rw [List.length_append, List.length_singleton]
    omega
  refine ⟨x.ptr, ?_, ?_⟩
  · rw [List.map_append, List.map_append, List.append_assoc, ← hA]
    simp
  · have hdrop : ((A ++ [x] ++ B).map Node.ptr).drop r = B.map Node.ptr := by
      rw [List.map_append, hrank, ← List.length_map (f := Node.ptr), List.drop_left]
    have hfind : B.find? ((drawn xs x.ptr ≤ drawn xs ·) ∘ Node.ptr) = peer x B := by
      unfold peer
      refine List.find?_congr fun n hn => ?_
      show decide (drawn xs x.ptr ≤ drawn xs n.ptr) = _
      rw [hheight x (by simp), hheight n (by simp [hn])]
    rw [hdrop, List.find?_map, hfind, hrank, hlinked.searchByRank hspans]
    constructor
    · intro hpeer q hq
      obtain ⟨y, hy, rfl⟩ := Option.map_eq_some_iff.1 hq
      rw [hheight x (by simp), hheight y (by simp [List.mem_of_find?_eq_some hy])]
      exact hpeer y hy
    · intro hpeer y hy
      have := hpeer y.ptr (Option.map_eq_some_iff.2 ⟨y, hy, rfl⟩)
      rwa [hheight x (by simp), hheight y (by simp [List.mem_of_find?_eq_some hy])] at this

/-- The keys 1 and 2, both on one level. -/
def levelInsertions : List Insertion := [⟨1, 0, ⟨1, drawn_one⟩⟩, ⟨2, 0, ⟨1, drawn_one⟩⟩]

theorem searchByRank_built : ∃ l, build levelInsertions = .ok l ∧
    ∃ p, (l.mem.chains.chain 0)[1]? = some p ∧ skiplistSearchByRank l 2 = .ok (some p) := by
  obtain ⟨hreturns, hspec⟩ := searchByRank_iff levelInsertions
  obtain ⟨l, hl⟩ := hreturns (by decide)
  have hlinked := ((build_spec levelInsertions).2 l hl).1
  have hcount : l.count = 2 := by
    rw [hlinked.count, placed_length]
    rfl
  obtain ⟨p, hp, hiff⟩ := hspec l hl 2 (by decide) (by rw [hcount]; decide)
  refine ⟨l, hl, p, hp, hiff.2 ?_⟩
  intro q hq
  have hnil : (l.mem.chains.chain 0).drop 2 = [] := by
    rw [hlinked.chained.chain_zero, List.drop_eq_nil_iff, List.length_map, placed_length]
    exact le_rfl
  rw [hnil] at hq
  cases hq

/-- The walk for rank 1 has read the second node when it stops. -/
theorem searchByRank_goes_on : ¬ ∀ xs l, build xs = .ok l → ∀ r : Nat, 1 ≤ r → (r : Int) ≤ l.count →
    ∃ p, (l.mem.chains.chain 0)[r - 1]? = some p ∧
      skiplistSearchByRank l (BitVec.ofNat 32 r) = .ok (some p) := by
  have hrun : ((build levelInsertions).map fun l => (l.count, (l.mem.chains.chain 0)[0]?,
      (skiplistSearchByRank l 1).toOption)).toOption = some (2, some 1, some (some 2)) := by
    decide +kernel
  intro h
  cases hl : build levelInsertions with
  | error e =>
    rw [hl] at hrun
    cases hrun
  | ok l =>
    rw [hl] at hrun
    obtain ⟨h1, h2⟩ := Prod.mk.inj (Option.some.inj hrun)
    obtain ⟨h2, h3⟩ := Prod.mk.inj h2
    obtain ⟨p, hp, hfound⟩ := h levelInsertions l hl 1 le_rfl (by rw [h1]; decide)
    have hone : p = 1 := Option.some.inj (hp.symm.trans h2)
    have hsearch : skiplistSearchByRank l 1 = .ok (some p) := hfound
    rw [hsearch, hone] at h3
    exact absurd h3 (by decide)

end SkipRank
