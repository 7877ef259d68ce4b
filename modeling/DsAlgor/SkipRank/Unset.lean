import DsAlgor.SkipList.Runs
import DsAlgor.SkipRank.Built
import DsAlgor.SkipRank.Lookup

/-!
# Searches that read an unset node

The searches by key test `node->key` behind the loop over each level. On the highest level `node`
has no value then if the level is empty, as in a new list, after removals and after an insertion
that got no memory. The search by rank reads `node` only when it has counted a span (`unset_iff`).

After insertions the searches are right when a node is as high as the highest level that was drawn
(`calls_searched_iff`, `calls_ranked_iff`).
-/

namespace SkipList

open SkipRank (Ptr Link Node Fault INT_MAX SearchFault Chains Chained searchLevels)

def Mem.chains (m : Mem) : Chains := ⟨m.next, m.prev, m.key, m.brk⟩

def skiplistSearch (l : Skiplist) (key : Int) : Except SearchFault (Option Ptr) :=
  let head : Link := ⟨0, l.level - 1⟩
  searchLevels l.mem.chains key l.level head head none

theorem Linked.chained {l : Skiplist} {S : List Node} (h : Linked l S) :
    Chained l.mem.chains S where
  circular := h.circular
  nodup := h.nodup
  positive n hn := (h.bound n hn).1
  fuel := h.length_lt
  key := h.key
  height n hn := (h.height n hn).1

end SkipList

namespace SkipRank

open Circular

section
variable {c : Chains} {m : Mem} {l : Skiplist} {S : List Node} {key : Int} {rank : BitVec 32}

theorem Chained.assigned_iff {level : Nat} (key : Int) (h : Chained c S)
    (hsorted : S.Pairwise (·.key ≤ ·.key)) (hlevel : ∀ n ∈ S, n.height ≤ level) :
    searchLevels c key level ⟨0, level - 1⟩ ⟨0, level - 1⟩ none ≠ .error .unset ↔
      TopLinked c level := by
  by_cases htop : TopLinked c level
  · refine iff_of_true ?_ htop
    obtain ⟨r, hrun, -⟩ := h.search hsorted hlevel htop key
    rw [hrun]
    exact nofun
  · exact iff_of_false (fun hne => hne (searchLevels_unset (Nat.zero_lt_of_lt h.fuel) htop)) htop

/-- The search for the rank ends as the search does. -/
theorem keyRankLevels_map : ∀ (i : Nat) (pos end_ : Link) (s : Option Ptr × BitVec 32),
    (keyRankLevels m key i pos end_ s).map (fun _ => ()) =
      (searchLevels m.chains key i pos end_ s.1).map (fun _ => ())
  | 0, _, _, _ => rfl
  | i + 1, pos, end_, s => by
    have hwalk := keyRankWalk_map m key (m.next pos) end_ s
    have hnext : m.chains.next pos = m.next pos := rfl
    unfold keyRankLevels searchLevels
    rw [hnext, ← hwalk]
    cases keyRankWalk m key (m.next pos) end_ s with
    | none => rfl
    | some r =>
      obtain ⟨e, node, rank⟩ := r
      cases node with
      | none => rfl
      | some p =>
        show Except.map _ (if m.key p = key then _ else _) =
          Except.map _ (if m.key p = key then _ else _)
        by_cases hp : m.key p = key
        · rw [if_pos hp, if_pos hp]
          rfl
        · rw [if_neg hp, if_neg hp]
          exact keyRankLevels_map i _ _ _

theorem keyRank_unset_iff : skiplistKeyRank l key ≠ .error .unset ↔
    skiplistSearchByKey l key ≠ .error .unset := by
  have hmap : (skiplistKeyRank l key).map (fun _ => ()) =
      (skiplistSearchByKey l key).map (fun _ => ()) := keyRankLevels_map _ _ _ _
  have hunset : ∀ {α : Type} (r : Except SearchFault α),
      r.map (fun _ => ()) = .error .unset ↔ r = .error .unset := by
    intro α r
    cases r with
    | ok a => exact ⟨nofun, nofun⟩
    | error e => exact ⟨fun h => congrArg _ (Except.error.inj h), fun h => congrArg _
        (Except.error.inj h)⟩
  rw [ne_eq, ne_eq, ← hunset, hmap, hunset]

/-- Until a span is counted, the rank is not reached. -/
theorem byRankLevels_unset : ∀ (i : Nat) (pos end_ : Link) (s : Option Ptr × BitVec 32),
    (s.1 = none → rank ≠ s.2) → byRankLevels m rank i pos end_ s ≠ .error .unset
  | 0, _, _, _, _ => nofun
  | i + 1, pos, end_, s, hs => by
    have hbody : ∀ p s s', byRankBody m rank p s = .inr s' → s'.1 ≠ none := by
      intro p s s' hb
      unfold byRankBody at hb
      split at hb
      · cases hb
      · rw [← Sum.inr.inj hb]
        exact Option.some_ne_none _
    cases hwalk : byRankWalk m rank (m.next pos) end_ s with
    | none =>
      simp only [byRankLevels, hwalk]
      intro hc
      cases hc
    | some r =>
      obtain ⟨e, node, traversed⟩ := r
      have hnode : node = none → rank ≠ traversed := by
        rintro rfl
        unfold byRankWalk at hwalk
        obtain ⟨r, hr, he⟩ := Option.map_eq_some_iff.1 hwalk
        cases r with
        | inl r => cases (Prod.mk.inj (Prod.mk.inj he).2).1
        | inr s' =>
          obtain ⟨-, hs'⟩ := Prod.mk.inj he
          cases foreach_rounds hbody hr with
          | inl hkept =>
            rw [hkept.2] at hs'
            rw [hs'] at hs
            exact hs rfl
          | inr hset => exact absurd (by rw [hs']) hset
      by_cases hrank : rank = traversed
      · cases node with
        | none => exact absurd hrank (hnode rfl)
        | some p =>
          simp only [byRankLevels, hwalk, if_pos hrank]
          intro hc
          cases hc
      · simp only [byRankLevels, hwalk, if_neg hrank]
        exact byRankLevels_unset i _ _ _ hnode

theorem searchByRank_assigned (l : Skiplist) (rank : BitVec 32) :
    skiplistSearchByRank l rank ≠ .error .unset := by
  unfold skiplistSearchByRank
  by_cases hguard : rank = 0 ∨ rank > BitVec.ofInt 32 l.count
  · rw [if_pos hguard]
    exact nofun
  · rw [if_neg hguard]
    exact byRankLevels_unset _ _ _ _ fun _ => (not_or.1 hguard).1

end

/-- **When the searches read an unset node**: those by key when the highest level of the list is
empty, the one by rank never. -/
theorem unset_iff (key : Int) (rank : BitVec 32) :
    (∀ ops l, SkipList.runOps SkipList.skiplistNew ops = .ok l →
      (SkipList.skiplistSearch l key ≠ .error .unset ↔
        l.level = 0 ∨ SkipList.listEmpty l.mem ⟨0, l.level - 1⟩ = false)) ∧
    ∀ ops l, runOps skiplistNew ops = .ok l →
      ((skiplistSearchByKey l key ≠ .error .unset ↔
        listEmpty l.mem ⟨0, l.level - 1⟩ = false) ∧
        (skiplistKeyRank l key ≠ .error .unset ↔ listEmpty l.mem ⟨0, l.level - 1⟩ = false)) ∧
      skiplistSearchByRank l rank ≠ .error .unset := by
  refine ⟨fun ops l hl => ?_, fun ops l hl => ⟨?_, searchByRank_assigned l rank⟩⟩
  · obtain ⟨S, hS⟩ := SkipList.runOps_linked hl
    have hsearch := hS.chained.assigned_iff key hS.sorted fun n hn => (hS.height n hn).2
    unfold SkipList.listEmpty
    rw [decide_eq_false_iff_not]
    exact hsearch
  · obtain ⟨S, hS⟩ := runOps_linked hl
    have hsearch := hS.chained.assigned_iff key hS.sorted fun n hn => (hS.height n hn).2
    have htop : TopLinked l.mem.chains l.level ↔ listEmpty l.mem ⟨0, l.level - 1⟩ = false := by
      unfold TopLinked listEmpty
      rw [decide_eq_false_iff_not, or_iff_right (Nat.ne_zero_of_lt hS.level.1)]
      rfl
    rw [htop] at hsearch
    exact ⟨hsearch, keyRank_unset_iff.trans hsearch⟩

/-- A search in a new list. -/
theorem new_unset : ¬ ((∀ ops l, SkipList.runOps SkipList.skiplistNew ops = .ok l → ∀ key,
      SkipList.skiplistSearch l key ≠ .error .unset) ∧
    ∀ ops l, runOps skiplistNew ops = .ok l →
      (∀ key, skiplistSearchByKey l key ≠ .error .unset ∧ skiplistKeyRank l key ≠ .error .unset) ∧
      ∀ rank, skiplistSearchByRank l rank ≠ .error .unset) := by
  intro h
  exact h.1 [] SkipList.skiplistNew rfl 5 (searchLevels_unset (c := SkipList.skiplistNew.mem.chains)
    Nat.zero_lt_one (by decide))

end SkipRank

/-! ## Searches after insertions -/

namespace SkipList

open SkipRank (Ptr Node Fault INT_MAX Insertion Call Calls CalledFrom inserted placed drawn)

def runCalls (calls : List Call) : Except Fault Skiplist :=
  calls.foldlM (fun l x => (skiplistInsert l x.key x.value x.level x.alloc).map Prod.snd)
    skiplistNew

/-- Every level has the nodes drawn above it, in the order of level 0 and in ascending order of
their keys, and a search finds a node with the key if there is one. -/
structure Searched (l : Skiplist) (xs : List Insertion) : Prop where
  count : l.count = xs.length
  nodes : (l.mem.chains.chain 0).Perm (List.range' 1 xs.length)
  key : ∀ i x, xs[i]? = some x → l.mem.key (i + 1) = x.key
  levels : ∀ i, l.mem.chains.chain i = (l.mem.chains.chain 0).filter (i < drawn xs ·)
  ascending : ∀ i, ((l.mem.chains.chain i).map l.mem.key).Pairwise (· ≤ ·)
  search : ∀ key, if key ∈ xs.map Insertion.key then
      ∃ p ∈ l.mem.chains.chain 0, skiplistSearch l key = .ok (some p) ∧ l.mem.key p = key
    else skiplistSearch l key = .ok none

section
variable {l : Skiplist} {S : List Node} {xs : List Insertion} {calls : List Call}

abbrev Called (calls : List Call) (l : Skiplist) : Prop :=
  CalledFrom Linked (·.mem.brk) (·.level) calls l

theorem skiplistInsert_calls : Calls
    (fun l x => (skiplistInsert l x.key x.value x.level x.alloc).map Prod.snd) Linked
    (·.mem.brk) (·.level) where
  returns h hlen x := by
    obtain ⟨-, -, hok⟩ := skiplistInsert_spec h x.key x.value x.level.2
    obtain ⟨A, B, l', -, -, -, hrun, -⟩ := hok (by rw [h.count]; omega)
    exact ⟨l', by rw [hrun]; rfl⟩
  inserts {l S x l'} h hl' := by
    obtain ⟨-, hover, hok⟩ := skiplistInsert_spec h x.key x.value x.level.2
    by_cases hcount : l.count = INT_MAX
    · rw [hover hcount] at hl'
      cases hl'
    · obtain ⟨A, B, l₁, rfl, hA, hB, hrun, h₁, -, hbrk, hlevel⟩ := hok hcount
      rw [hrun] at hl'
      cases hl'
      exact ⟨A, B, rfl, hA, hB, h₁, hbrk, hlevel⟩
  fails {l S} h x := by
    obtain ⟨⟨l', hrun, h', hmem, hlevel⟩, -⟩ := skiplistInsert_spec h x.key x.value x.level.2
    exact ⟨l', by rw [hrun]; rfl, h', by rw [hmem], hlevel⟩

theorem runCalls_spec (calls : List Call) :
    (((inserted calls).length : Int) ≤ INT_MAX → ∃ l, runCalls calls = .ok l) ∧
      ∀ l, runCalls calls = .ok l → Called calls l :=
  skiplistInsert_calls.run ⟨skiplistNew_linked, rfl, rfl⟩ calls

theorem Called.length_le (h : Called calls l) : ((inserted calls).length : Int) ≤ INT_MAX := by
  have h1 := h.nodes.count
  rw [SkipRank.placed_length] at h1
  exact h1 ▸ h.nodes.countMax

theorem Called.searched (h : Called calls l)
    (htop : ∃ x ∈ inserted calls, ∀ y ∈ calls, y.level ≤ x.level) :
    Searched l (inserted calls) where
  count := by rw [h.nodes.count, SkipRank.placed_length]
  nodes := by
    rw [h.nodes.chained.chain_zero]
    exact SkipRank.placed_perm _
  key i x hx := h.nodes.key ⟨i + 1, x.key, x.level⟩ (SkipRank.mem_placed.2 ⟨i, x, hx, rfl⟩)
  levels := h.nodes.chained.levels
  ascending i := by
    rw [h.nodes.chained.chain, SkipRank.ptrs, List.map_map, List.pairwise_map]
    refine (h.nodes.sorted.filter _).imp_of_mem fun ha hb hab => ?_
    show l.mem.key _ ≤ l.mem.key _
    rw [h.nodes.key _ (List.mem_filter.1 ha).1, h.nodes.key _ (List.mem_filter.1 hb).1]
    exact hab
  search key := by
    have hkey : key ∈ (inserted calls).map Insertion.key ↔
        ∃ n ∈ placed (inserted calls), n.key = key := by
      rw [← (SkipRank.placed_keys _).mem_iff, List.mem_map]
    obtain ⟨r, hrun, hr⟩ := h.nodes.chained.search h.nodes.sorted
      (fun n hn => (h.nodes.height n hn).2) ((h.topLinked_iff h.nodes.chained).2 htop) key
    cases r with
    | none =>
      rw [if_neg fun hm => ?_]
      · exact hrun
      · obtain ⟨n, hn, hk⟩ := hkey.1 hm
        exact hr n hn hk
    | some v =>
      rw [if_pos (hkey.2 ⟨v, hr.1, hr.2⟩)]
      refine ⟨v.ptr, ?_, hrun, (h.nodes.key v hr.1).trans hr.2⟩
      rw [h.nodes.chained.chain_zero]
      exact List.mem_map_of_mem hr.1

/-- **When searches after insertions are right**: when a call that got memory drew the highest
level. -/
theorem calls_searched_iff (calls : List Call) :
    (∃ l, runCalls calls = .ok l ∧ Searched l (inserted calls)) ↔
      ((inserted calls).length : Int) ≤ INT_MAX ∧
        ∃ x ∈ inserted calls, ∀ y ∈ calls, y.level ≤ x.level := by
  obtain ⟨hreturns, hcalled⟩ := runCalls_spec calls
  constructor
  · rintro ⟨l, hl, hsearched⟩
    have hc := hcalled l hl
    refine ⟨hc.length_le, ?_⟩
    by_contra htop
    have hsearch := hsearched.search 0
    have hrun : skiplistSearch l 0 = .error .unset :=
      SkipRank.searchLevels_unset (Nat.zero_lt_of_lt hc.nodes.length_lt)
        (mt (hc.topLinked_iff hc.nodes.chained).1 htop)
    split at hsearch
    · obtain ⟨p, -, hp, -⟩ := hsearch
      rw [hrun] at hp
      cases hp
    · rw [hrun] at hsearch
      cases hsearch
  · rintro ⟨hlen, htop⟩
    obtain ⟨l, hl⟩ := hreturns hlen
    exact ⟨l, hl, (hcalled l hl).searched htop⟩

end

/-- A node with the key 5 on one level; the call for the key 7 draws three and gets no memory. -/
def failedCalls : List Call :=
  [⟨⟨5, 0, ⟨1, SkipRank.drawn_one⟩⟩, true⟩, ⟨⟨7, 0, ⟨3, SkipRank.drawn_three⟩⟩, false⟩]

/-- The search for 5 starts on the third level, which is empty. -/
theorem calls_not_searched : ¬ ∀ calls : List Call, calls ≠ [] →
    ((inserted calls).length : Int) ≤ INT_MAX →
    ∃ l, runCalls calls = .ok l ∧ Searched l (inserted calls) := by
  have hrun : ((runCalls failedCalls).map fun l => (skiplistSearch l 5).toOption).toOption =
      some none := by
    decide +kernel
  intro h
  obtain ⟨l, hl, hsearched⟩ := h failedCalls (by decide) (by decide)
  have hmem : 5 ∈ (inserted failedCalls).map Insertion.key := by decide
  have hsearch := hsearched.search 5
  rw [if_pos hmem] at hsearch
  obtain ⟨p, -, hp, -⟩ := hsearch
  rw [hl] at hrun
  have hnone : (skiplistSearch l 5).toOption = none := Option.some.inj hrun
  rw [hp] at hnone
  cases hnone

end SkipList

namespace SkipRank

section
variable {l : Skiplist} {calls : List Call}

/-- The rank of every key is right. -/
def Ranked (l : Skiplist) (xs : List Insertion) : Prop := ∀ key,
  (skiplistKeyRank l key).map BitVec.toNat =
    .ok (if key ∈ xs.map Insertion.key then 1 + (xs.map Insertion.key).countP (· < key) else 0)

theorem Called.length_le (h : Called calls l) : ((inserted calls).length : Int) ≤ INT_MAX := by
  have h1 := h.nodes.1.count
  rw [placed_length] at h1
  exact h1 ▸ h.nodes.1.countMax

theorem Called.ranked (h : Called calls l) (hd : ((inserted calls).map Insertion.key).Nodup)
    (htop : ∃ x ∈ inserted calls, ∀ y ∈ calls, y.level ≤ x.level) :
    Ranked l (inserted calls) := by
  intro key
  obtain ⟨hlinked, hspans⟩ := h.nodes
  have hperm := placed_keys (inserted calls)
  obtain ⟨rank, hrun, hrank⟩ :=
    hlinked.keyRank hspans ((h.topLinked_iff hlinked.chained).2 htop) key
  have hsmall : (placed (inserted calls)).length < 2 ^ 32 := by
    have hlen := h.length_le
    rw [placed_length]
    unfold INT_MAX at hlen
    omega
  rw [hrun, ← hperm.countP_eq]
  show Except.ok (BitVec.ofNat 32 rank).toNat = _
  cases hrank with
  | inl hnone =>
    obtain ⟨hkey, rfl⟩ := hnone
    rw [if_neg fun hm => ?_]
    · rfl
    · obtain ⟨n, hn, hk⟩ := List.mem_map.1 (hperm.mem_iff.2 hm)
      exact hkey n hn hk
  | inr hfound =>
    obtain ⟨A, v, B, hS, rfl, rfl⟩ := hfound
    have hmem : v.key ∈ (inserted calls).map Insertion.key :=
      hperm.mem_iff.1 (List.mem_map_of_mem (by simp [hS]))
    have hcount := length_eq_countP (hS ▸ hlinked.sorted) (hS ▸ hperm.nodup_iff.2 hd)
    rw [hS] at hsmall
    rw [List.length_append, List.length_cons] at hsmall
    rw [if_pos hmem, hS, hcount, BitVec.toNat_ofNat, Nat.mod_eq_of_lt (by omega), Nat.add_comm]

/-- **When the rank of a key is right**, after insertions of different keys. -/
theorem calls_ranked_iff (calls : List Call) (hd : ((inserted calls).map Insertion.key).Nodup) :
    (∃ l, runCalls calls = .ok l ∧ Ranked l (inserted calls)) ↔
      ((inserted calls).length : Int) ≤ INT_MAX ∧
        ∃ x ∈ inserted calls, ∀ y ∈ calls, y.level ≤ x.level := by
  obtain ⟨hreturns, hcalled⟩ := runCalls_spec calls
  constructor
  · rintro ⟨l, hl, hranked⟩
    have hc := hcalled l hl
    refine ⟨hc.length_le, ?_⟩
    by_contra htop
    have hunset : skiplistSearchByKey l 0 = .error .unset :=
      searchLevels_unset (Nat.zero_lt_of_lt hc.nodes.1.chained.fuel)
        (mt (hc.topLinked_iff hc.nodes.1.chained).1 htop)
    have hrank : skiplistKeyRank l 0 = .error .unset := by
      by_contra hne
      exact keyRank_unset_iff.1 hne hunset
    have hright := hranked 0
    rw [hrank] at hright
    cases hright
  · rintro ⟨hlen, htop⟩
    obtain ⟨l, hl⟩ := hreturns hlen
    exact ⟨l, hl, (hcalled l hl).ranked hd htop⟩

end

/-- The keys 20, 5 and 10; a call for the key 7 in between gets no memory. -/
def rankedCalls : List Call :=
  [⟨⟨20, 0, ⟨1, drawn_one⟩⟩, true⟩, ⟨⟨5, 0, ⟨3, drawn_three⟩⟩, true⟩,
    ⟨⟨7, 0, ⟨2, drawn_two⟩⟩, false⟩, ⟨⟨10, 0, ⟨2, drawn_two⟩⟩, true⟩]

theorem calls_ranked_twenty : ∃ l, runCalls rankedCalls = .ok l ∧
    (skiplistKeyRank l 20).map BitVec.toNat = .ok 3 := by
  obtain ⟨l, hl, hranked⟩ := (calls_ranked_iff rankedCalls (by decide)).2 (by decide)
  exact ⟨l, hl, hranked 20⟩

/-- The rank of 5, after a call that drew three levels and got no memory. -/
theorem calls_not_ranked : ¬ ∀ calls : List Call, calls ≠ [] →
    ((inserted calls).length : Int) ≤ INT_MAX →
    (calls.map (·.key)).Nodup → ∃ l, runCalls calls = .ok l ∧ Ranked l (inserted calls) := by
  have hrun : ((runCalls SkipList.failedCalls).map fun l =>
      (skiplistKeyRank l 5).toOption).toOption = some none := by
    decide +kernel
  intro h
  obtain ⟨l, hl, hranked⟩ := h SkipList.failedCalls (by decide) (by decide) (by decide)
  have hright := hranked 5
  rw [hl] at hrun
  have hnone : (skiplistKeyRank l 5).toOption = none := Option.some.inj hrun
  cases hrank : skiplistKeyRank l 5 with
  | error e =>
    rw [hrank] at hright
    cases hright
  | ok rank =>
    rw [hrank] at hnone
    cases hnone

end SkipRank
