import DsAlgor.Bptree.Query
import DsAlgor.Bptree.Separators

/-!
# Samples

`bptreeGetSomeKeys` takes every `step`-th entry, from a random one of the first `step` on, along the
chain of leaves. The stride, the number of entries passed and the index in the current leaf have 32
bits. The array `des` has room for `count` entries. In an empty tree the stride is the quotient of 0
and 0, and in a large one it may be no number of 32 bits, or the index may wrap around;
`someKeys_right_iff` says exactly when the sample is right.
-/

namespace Bptree

open CArray

variable {K V α : Type}

section
variable (t : Tree K V)

/-- `while(node && index >= node->count)`, with a number of rounds: `node` and `index`. -/
def someKeysNode : Nat → Ptr → Nat → Option (Ptr × Nat)
  | 0, _, _ => none
  | r + 1, node, index =>
    if node ≠ 0 ∧ index ≥ (t.node node).count then someKeysNode r (t.node node).next
      (index - (t.node node).count)
    else some (node, index)

/-- The loop of `bptreeGetSomeKeys`, with `r` rounds left and `rounds` for the loop within: `stored`
and `des`, which has room for `size` entries. -/
def someKeysLoop (size step offset rounds : Nat) :
    Nat → Ptr → Nat → Nat → Nat → (Nat → Ptr) → Option (Nat × (Nat → Ptr))
  | 0, _, _, _, _, _ => none
  | r + 1, node, index, base, stored, des =>
    if (base + offset) % 2 ^ 32 < t.count.toNat then do
      let (node, index) ← someKeysNode t rounds node index
      if node = 0 ∨ (t.node node).count = 0 then return (stored, des)
      else if stored < size then
        someKeysLoop size step offset rounds r node ((index + step) % 2 ^ 32)
          ((base + step) % 2 ^ 32) (stored + 1)
          (Function.update des stored ((t.node node).entries index))
      else none
    else return (stored, des)

/-- `bptreeGetSomeKeys`, with the value of `random()`. Where the quotient is that of 0 and 0, or no
`unsigned int`, there is no result. -/
def bptreeGetSomeKeys (r random : Nat) (des : Nat → Ptr) (count : BitVec 32) :
    Option (Nat × (Nat → Ptr)) :=
  if count = 0 then some (0, des)
  else
    let c := if t.count.toNat < count.toNat then t.count.toNat else count.toNat
    let step := ceilDiv t.count.toNat c
    if c = 0 ∨ 2 ^ 32 ≤ step then none
    else someKeysLoop t count.toNat step (random % step) r r t.min (random % step) 0 0 des

end

/-- The function returns, with at most so many different entries of the tree, in ascending order. -/
def SamplesRight [LinearOrder α] (rank : K → α) (t : Tree K V) (es : List Ptr) (random : Nat)
    (des : Nat → Ptr) (count : BitVec 32) : Prop :=
  ∃ n stored des', (∀ r ≥ n, bptreeGetSomeKeys t r random des count = some (stored, des')) ∧
    stored ≤ min count.toNat es.length ∧ (∀ j < stored, des' j ∈ es) ∧
    ∀ i j, i < j → j < stored → rank (t.key (des' i)) < rank (t.key (des' j))

/-- The place of entry number `p` in its leaf. -/
def placeInLeaf : List (Ptr × List Ptr) → Nat → Nat
  | [], p => p
  | x :: ls, p => if p < x.2.length then p else placeInLeaf ls (p - x.2.length)

/-- After the entry `p` the index wraps around, and the loop goes on. -/
def Wraps (ls : List (Ptr × List Ptr)) (n step p : Nat) : Prop :=
  p < n ∧ 2 ^ 32 ≤ placeInLeaf ls p + step ∧ (p + step) % 2 ^ 32 < n

/-! ## The way to an entry -/

section
variable {t : Tree K V} {ls A B : List (Ptr × List Ptr)} {x : Ptr × List Ptr} {p : Ptr} {i j : Nat}

theorem placeInLeaf_append (i : Nat) :
    placeInLeaf (A ++ B) ((A.flatMap Prod.snd).length + i) = placeInLeaf B i := by
  induction A with
  | nil => rw [List.flatMap_nil, List.length_nil, Nat.zero_add, List.nil_append]
  | cons x A ih =>
    rw [List.cons_append, placeInLeaf, List.flatMap_cons, List.length_append,
      if_neg (by omega), ← ih]
    exact congrArg _ (by omega)

theorem placeInLeaf_cons (hi : i < x.2.length) : placeInLeaf (x :: ls) i = i := if_pos hi

/-- The leaf of entry number `i`. -/
theorem exists_leaf_of_lt (hi : i < (ls.flatMap Prod.snd).length) :
    ∃ A x B j, ls = A ++ x :: B ∧ i = (A.flatMap Prod.snd).length + j ∧ j < x.2.length := by
  induction ls generalizing i with
  | nil => cases hi
  | cons x ls ih =>
    by_cases hx : i < x.2.length
    · exact ⟨[], x, ls, i, rfl, (Nat.zero_add i).symm, hx⟩
    · rw [List.flatMap_cons, List.length_append] at hi
      obtain ⟨A, y, B, j, rfl, hij, hj⟩ := @ih (i - x.2.length) (by omega)
      refine ⟨x :: A, y, B, j, rfl, ?_, hj⟩
      rw [List.flatMap_cons, List.length_append]
      omega

theorem someKeysNode_found (h : Linked t p (A ++ x :: B)) (hj : j < x.2.length) {r : Nat}
    (hr : A.length < r) :
    someKeysNode t r p ((A.flatMap Prod.snd).length + j) = some (x.1, j) := by
  induction A generalizing p r with
  | nil =>
    obtain ⟨r, rfl⟩ := Nat.exists_eq_succ_of_ne_zero (Nat.ne_zero_of_lt hr)
    obtain ⟨rfl, -⟩ := h.cons
    have hcount := (h.entries x List.mem_cons_self).count
    rw [List.flatMap_nil, List.length_nil, Nat.zero_add, someKeysNode, hcount, if_neg fun hno =>
      absurd hno.2 (by omega)]
  | cons y A ih =>
    obtain ⟨r, rfl⟩ := Nat.exists_eq_succ_of_ne_zero (Nat.ne_zero_of_lt hr)
    obtain ⟨rfl, hls⟩ := h.cons
    have hcount := (h.entries y List.mem_cons_self).count
    rw [List.flatMap_cons, List.length_append, someKeysNode, hcount,
      if_pos ⟨h.pos y List.mem_cons_self, by omega⟩]
    rw [show y.2.length + (A.flatMap Prod.snd).length + j - y.2.length =
      (A.flatMap Prod.snd).length + j by omega]
    exact ih hls (Nat.lt_of_succ_lt_succ hr)

/-- Behind the last entry there is no leaf. -/
theorem someKeysNode_end (h : Linked t p ls) (hi : (ls.flatMap Prod.snd).length ≤ i) {r : Nat}
    (hr : ls.length < r) :
    ∃ i', someKeysNode t r p i = some (0, i') := by
  induction ls generalizing p i r with
  | nil =>
    obtain ⟨r, rfl⟩ := Nat.exists_eq_succ_of_ne_zero (Nat.ne_zero_of_lt hr)
    have hp : p = 0 := h.chain
    refine ⟨i, ?_⟩
    rw [someKeysNode, if_neg fun hno => hno.1 hp, hp]
  | cons y ls ih =>
    obtain ⟨r, rfl⟩ := Nat.exists_eq_succ_of_ne_zero (Nat.ne_zero_of_lt hr)
    obtain ⟨rfl, hls⟩ := h.cons
    have hcount := (h.entries y List.mem_cons_self).count
    rw [List.flatMap_cons, List.length_append] at hi
    rw [someKeysNode, hcount, if_pos ⟨h.pos y List.mem_cons_self, by omega⟩]
    exact ih hls (by omega) (Nat.lt_of_succ_lt_succ hr)

end

/-! ## The loop -/

/-- `index` counts from the leaf `p` on to entry number `P`. -/
def At (t : Tree K V) (ls : List (Ptr × List Ptr)) (p : Ptr) (index P : Nat) : Prop :=
  ∃ A B, ls = A ++ B ∧ Linked t p B ∧ P = (A.flatMap Prod.snd).length + index

/-- The numbers that the loop runs with. -/
structure Sampling (t : Tree K V) (ls : List (Ptr × List Ptr)) (size step rounds : Nat) : Prop where
  leaves : Leaves t ls
  count : t.count.toNat = (ls.flatMap Prod.snd).length
  step_pos : 0 < step
  step_lt : step < 2 ^ 32
  rounds : ls.length < rounds

section
variable {t : Tree K V} {ls : List (Ptr × List Ptr)}
  {size step offset rounds r base k P index : Nat} {p : Ptr} {des : Nat → Ptr}

/-- One round takes entry number `P`. -/
theorem Sampling.round (h : Sampling t ls size step rounds) (hat : At t ls p index P)
    (hP : P < (ls.flatMap Prod.snd).length) (hbase : (base + offset) % 2 ^ 32 = P % 2 ^ 32) :
    ∃ A x B j, ∃ hj : j < x.2.length, ls = A ++ x :: B ∧ P = (A.flatMap Prod.snd).length + j ∧
      placeInLeaf ls P = j ∧ (ls.flatMap Prod.snd)[P]? = some x.2[j] ∧ Linked t x.1 (x :: B) ∧
      someKeysLoop t size step offset rounds (r + 1) p index base k des =
        if k < size then
          someKeysLoop t size step offset rounds r x.1 ((j + step) % 2 ^ 32)
            ((base + step) % 2 ^ 32) (k + 1) (Function.update des k x.2[j])
        else none := by
  obtain ⟨A, B, rfl, hlinked, rfl⟩ := hat
  rw [List.flatMap_append, List.length_append] at hP
  obtain ⟨C, x, D, j, rfl, rfl, hj⟩ := @exists_leaf_of_lt B index (by omega)
  have hfound := someKeysNode_found hlinked hj (r := rounds) (by
    have := h.rounds
    rw [List.length_append, List.length_append] at this
    omega)
  have hx : x ∈ C ++ x :: D := by simp
  have hentries := hlinked.entries x hx
  have hget : (t.node x.1).entries j = x.2[j] := hentries.entry.get (List.getElem?_eq_getElem hj)
  have hcount : ¬ (x.1 = 0 ∨ (t.node x.1).count = 0) := by
    rw [hentries.count]
    rintro (h0 | h0)
    · exact hlinked.pos x hx h0
    · omega
  have hcond : (base + offset) % 2 ^ 32 < t.count.toNat := by
    rw [hbase, h.count, List.flatMap_append, List.length_append]
    exact lt_of_le_of_lt (Nat.mod_le _ _) hP
  refine ⟨A ++ C, x, D, j, hj, ?_, ?_, ?_, ?_, ?_, ?_⟩
  · rw [List.append_assoc]
  · rw [List.flatMap_append, List.length_append, Nat.add_assoc]
  · rw [placeInLeaf_append, placeInLeaf_append, placeInLeaf_cons hj]
  · rw [List.flatMap_append, List.getElem?_append_right (Nat.le_add_right _ _),
      Nat.add_sub_cancel_left, List.flatMap_append,
      List.getElem?_append_right (Nat.le_add_right _ _), Nat.add_sub_cancel_left, List.flatMap_cons,
      List.getElem?_append_left hj, List.getElem?_eq_getElem hj]
  · have hchain := hlinked.chain
    rw [List.map_append, Chain.append] at hchain
    obtain ⟨q, -, hq⟩ := hchain
    obtain ⟨-, hrest⟩ := hq
    exact ⟨⟨rfl, hrest⟩, fun y hy => hlinked.entries y (List.mem_append_right _ hy),
      fun y hy => hlinked.pos y (List.mem_append_right _ hy)⟩
  · rw [someKeysLoop, if_pos hcond, hfound]
    dsimp only [bind, Option.bind]
    rw [if_neg hcount, hget]

/-- The round behind the last entry. -/
theorem Sampling.last (h : Sampling t ls size step rounds) (hat : At t ls p index P)
    (hP : (ls.flatMap Prod.snd).length ≤ P) :
    someKeysLoop t size step offset rounds (r + 1) p index base k des = some (k, des) := by
  obtain ⟨A, B, rfl, hlinked, rfl⟩ := hat
  rw [List.flatMap_append, List.length_append] at hP
  obtain ⟨i', hend⟩ := @someKeysNode_end _ _ t B p index hlinked (by omega) rounds (by
    have := h.rounds
    rw [List.length_append] at this
    omega)
  rw [someKeysLoop, hend]
  have hnull : (0 : Ptr) = 0 ∨ (t.node 0).count = 0 := .inl rfl
  dsimp only [bind, Option.bind]
  rw [if_pos hnull]
  exact ite_self (some (k, des))

/-- The next position, where the index does not wrap around. -/
theorem At.advance {A B : List (Ptr × List Ptr)} {x : Ptr × List Ptr} {j : Nat}
    (hls : ls = A ++ x :: B) (hP : P = (A.flatMap Prod.snd).length + j)
    (hlinked : Linked t x.1 (x :: B)) (hj : j + step < 2 ^ 32) :
    At t ls x.1 ((j + step) % 2 ^ 32) (P + step) := by
  refine ⟨A, x :: B, hls, hlinked, ?_⟩
  rw [Nat.mod_eq_of_lt hj, hP, Nat.add_assoc]

theorem base_step (hbase : (base + offset) % 2 ^ 32 = P % 2 ^ 32) :
    ((base + step) % 2 ^ 32 + offset) % 2 ^ 32 = (P + step) % 2 ^ 32 := by
  omega

/-- The entries that have been taken. -/
def Taken (es : List Ptr) (step start k : Nat) (des : Nat → Ptr) : Prop :=
  ∀ i < k, es[start + i * step]? = some (des i)

theorem Taken.succ {es : List Ptr} {start : Nat} (h : Taken es step start k des) {e : Ptr}
    (he : es[start + k * step]? = some e) :
    Taken es step start (k + 1) (Function.update des k e) := by
  intro i hi
  by_cases hik : i = k
  · rw [hik, Function.update_self]
    exact he
  · rw [Function.update_of_ne hik]
    exact h i (by omega)

/-- They are entries of the tree, in ascending order. -/
theorem Taken.ascending [LinearOrder α] {rank : K → α} {es : List Ptr} {start : Nat}
    (h : Taken es step start k des) (hasc : Ascending rank t es) (hpos : 0 < step) {i j : Nat}
    (hij : i < j) (hj : j < k) :
    rank (t.key (des i)) < rank (t.key (des j)) := by
  obtain ⟨hi', hdi⟩ := List.getElem?_eq_some_iff.1 (h i (by omega))
  obtain ⟨hj', hdj⟩ := List.getElem?_eq_some_iff.1 (h j hj)
  rw [← hdi, ← hdj]
  exact List.pairwise_iff_getElem.1 hasc _ _ hi' hj'
    (Nat.add_lt_add_left (Nat.mul_lt_mul_of_pos_right hij hpos) start)

/-- As long as the index does not wrap around, the loop takes the entries at the positions of the
stride. -/
theorem Sampling.loop {start : Nat} (h : Sampling t ls size step rounds)
    (hgood : ∀ m, ¬ Wraps ls (ls.flatMap Prod.snd).length step (start + m * step))
    (hsize : ∀ m, start + m * step < (ls.flatMap Prod.snd).length → m < size)
    (hstate : At t ls p index (start + k * step) ∨
    (ls.flatMap Prod.snd).length ≤ (start + k * step) % 2 ^ 32)
    (hbase : (base + offset) % 2 ^ 32 = (start + k * step) % 2 ^ 32)
    (htaken : Taken (ls.flatMap Prod.snd) step start k des)
    (hr : (ls.flatMap Prod.snd).length - (start + k * step) < r) :
    ∃ stored des', someKeysLoop t size step offset rounds r p index base k des =
      some (stored, des') ∧ Taken (ls.flatMap Prod.snd) step start stored des' := by
  induction r generalizing p index base k des with
  | zero => cases hr
  | succ r ih =>
    by_cases hend : (ls.flatMap Prod.snd).length ≤ (start + k * step) % 2 ^ 32
    · refine ⟨k, des, ?_, htaken⟩
      rw [someKeysLoop, if_neg]
      · rfl
      · rw [hbase, h.count]
        exact not_lt.2 hend
    · have hat := hstate.resolve_right hend
      by_cases hP : start + k * step < (ls.flatMap Prod.snd).length
      · obtain ⟨A, x, B, j, hj, hls, hPj, hplace, hget, hlinked, hrun⟩ :=
          h.round hat hP hbase (r := r) (k := k)
        rw [hrun, if_pos (hsize k hP)]
        have hnext : start + k * step + step = start + (k + 1) * step := by ring
        have hpos := h.step_pos
        apply ih
        · by_cases hwrap : j + step < 2 ^ 32
          · rw [← hnext]
            exact .inl (At.advance hls hPj hlinked hwrap)
          · -- the index wraps around, so that this is the last round
            refine .inr (not_lt.1 fun hlt => hgood k ⟨hP, ?_, ?_⟩)
            · rw [hplace]
              exact not_lt.1 hwrap
            · rw [hnext]
              exact hlt
        · rw [← hnext]
          exact base_step hbase
        · exact htaken.succ hget
        · omega
      · exact ⟨k, des, h.last hat (not_lt.1 hP), htaken⟩

theorem someKeysNode_mono {x : Ptr × Nat} {r' : Nat} (h : someKeysNode t r p index = some x)
    (hr : r ≤ r') :
    someKeysNode t r' p index = some x := by
  induction r generalizing p index r' with
  | zero => cases h
  | succ r ih =>
    cases r' with
    | zero => cases hr
    | succ r' =>
      rw [someKeysNode] at h ⊢
      split_ifs at h ⊢
      · exact ih h (Nat.le_of_succ_le_succ hr)
      · exact h

/-- More rounds than are needed change nothing. -/
theorem someKeysLoop_mono {x : Nat × (Nat → Ptr)} {r' rounds' : Nat}
    (h : someKeysLoop t size step offset rounds r p index base k des = some x) (hr : r ≤ r')
    (hrounds : rounds ≤ rounds') :
    someKeysLoop t size step offset rounds' r' p index base k des = some x := by
  induction r generalizing p index base k des r' with
  | zero => cases h
  | succ r ih =>
    cases r' with
    | zero => cases hr
    | succ r' =>
      rw [someKeysLoop] at h ⊢
      by_cases hcond : (base + offset) % 2 ^ 32 < t.count.toNat
      · rw [if_pos hcond] at h ⊢
        obtain ⟨y, hy, h⟩ := Option.bind_eq_some_iff.1 h
        rw [someKeysNode_mono hy hrounds]
        dsimp only [bind, Option.bind] at h ⊢
        split_ifs at h ⊢
        · exact h
        · exact ih h (Nat.le_of_succ_le_succ hr)
      · rw [if_neg hcond] at h ⊢
        exact h

/-- What has been stored stays. -/
theorem someKeysLoop_keeps {stored : Nat} {des' : Nat → Ptr}
    (h : someKeysLoop t size step offset rounds r p index base k des = some (stored, des')) :
    k ≤ stored ∧ ∀ i < k, des' i = des i := by
  induction r generalizing p index base k des with
  | zero => cases h
  | succ r ih =>
    have hdone : some (k, des) = some (stored, des') → k ≤ stored ∧ ∀ i < k, des' i = des i := by
      intro heq
      obtain ⟨rfl, rfl⟩ := Prod.mk.inj (Option.some.inj heq)
      exact ⟨le_rfl, fun _ _ => rfl⟩
    rw [someKeysLoop] at h
    by_cases hcond : (base + offset) % 2 ^ 32 < t.count.toNat
    · rw [if_pos hcond] at h
      obtain ⟨x, -, h⟩ := Option.bind_eq_some_iff.1 h
      dsimp only at h
      split_ifs at h
      · exact hdone h
      · obtain ⟨hle, hkeep⟩ := ih h
        refine ⟨Nat.le_of_succ_le hle, fun i hi => ?_⟩
        rw [hkeep i (Nat.lt_succ_of_lt hi), Function.update_of_ne (Nat.ne_of_lt hi)]
    · rw [if_neg hcond] at h
      exact hdone h

/-- Where the index wraps around, an entry is followed by one that comes before it in its leaf. -/
theorem Sampling.wrapped_here [LinearOrder α] {rank : K → α} {stored : Nat} {des' : Nat → Ptr}
    (h : Sampling t ls size step rounds) (hasc : Ascending rank t (ls.flatMap Prod.snd))
    (hat : At t ls p index P)
    (hbase : (base + offset) % 2 ^ 32 = P % 2 ^ 32)
    (hwraps : Wraps ls (ls.flatMap Prod.snd).length step P)
    (hrun : someKeysLoop t size step offset rounds r p index base k des = some (stored, des')) :
    ∃ i, i + 1 < stored ∧ rank (t.key (des' (i + 1))) < rank (t.key (des' i)) := by
  have hlt := h.step_lt
  obtain ⟨hP, hwrap, hagain⟩ := hwraps
  cases r with
  | zero => cases hrun
  | succ r =>
    obtain ⟨A, x, B, j, hj, hls, hPj, hplace, -, hlinked, hround⟩ :=
      h.round hat hP hbase (r := r) (k := k)
    rw [hround] at hrun
    rw [hplace] at hwrap
    obtain ⟨j', hjj'⟩ : ∃ j', j + step = 2 ^ 32 + j' := ⟨j + step - 2 ^ 32, by omega⟩
    have hindex : (j + step) % 2 ^ 32 = j' := by
      have hmost : x.2.length ≤ 63 := h.leaves.most x (by rw [hls]; simp)
      rw [hjj', Nat.add_mod_left]
      exact Nat.mod_eq_of_lt (by omega)
    have hj' : j' < x.2.length := by omega
    have hjj : j' < j := by omega
    split_ifs at hrun
    cases r with
    | zero => cases hrun
    | succ r =>
      -- the second round stays in the leaf
      have hnode : someKeysNode t rounds x.1 j' = some (x.1, j') := by
        have hmid : Linked t x.1 ([] ++ x :: B) := hlinked
        have hfound := someKeysNode_found hmid hj' (r := rounds) (Nat.zero_lt_of_lt h.rounds)
        rw [List.flatMap_nil, List.length_nil, Nat.zero_add] at hfound
        exact hfound
      have hentries := hlinked.entries x List.mem_cons_self
      have hget : (t.node x.1).entries j' = x.2[j'] :=
        hentries.entry.get (List.getElem?_eq_getElem hj')
      have hcount : ¬ (x.1 = 0 ∨ (t.node x.1).count = 0) := by
        rw [hentries.count]
        rintro (h0 | h0)
        · exact hlinked.pos x List.mem_cons_self h0
        · omega
      have hcond : ((base + step) % 2 ^ 32 + offset) % 2 ^ 32 < t.count.toNat := by
        rw [base_step hbase, h.count]
        exact hagain
      rw [someKeysLoop, if_pos hcond, hindex, hnode] at hrun
      dsimp only [bind, Option.bind] at hrun
      rw [if_neg hcount, hget] at hrun
      split_ifs at hrun
      obtain ⟨hle, hkeep⟩ := someKeysLoop_keeps hrun
      refine ⟨k, hle, ?_⟩
      rw [hkeep (k + 1) (by omega), hkeep k (by omega), Function.update_self,
        Function.update_of_ne (by omega), Function.update_self]
      have hleaf : Ascending rank t x.2 := by
        rw [hls, List.flatMap_append, List.flatMap_cons] at hasc
        exact (List.pairwise_append.1 (List.pairwise_append.1 hasc).2.1).1
      exact List.pairwise_iff_getElem.1 hleaf j' j hj' hj hjj

theorem Sampling.wrapped [LinearOrder α] {rank : K → α} {m stored : Nat} {des' : Nat → Ptr}
    (h : Sampling t ls size step rounds) (hasc : Ascending rank t (ls.flatMap Prod.snd))
    (hat : At t ls p index P)
    (hbase : (base + offset) % 2 ^ 32 = P % 2 ^ 32)
    (hwraps : Wraps ls (ls.flatMap Prod.snd).length step (P + m * step))
    (hrun : someKeysLoop t size step offset rounds r p index base k des = some (stored, des')) :
    ∃ i, i + 1 < stored ∧ rank (t.key (des' (i + 1))) < rank (t.key (des' i)) := by
  -- on the number of rounds before the index wraps around
  induction m generalizing p index base k P des r with
  | zero =>
    rw [Nat.zero_mul, Nat.add_zero] at hwraps
    exact h.wrapped_here hasc hat hbase hwraps hrun
  | succ m ih =>
    by_cases hhere : Wraps ls (ls.flatMap Prod.snd).length step P
    · exact h.wrapped_here hasc hat hbase hhere hrun
    have hnext : P + (m + 1) * step = P + step + m * step := by ring
    rw [hnext] at hwraps
    have hPn : P + step < (ls.flatMap Prod.snd).length :=
      lt_of_le_of_lt (Nat.le_add_right _ _) hwraps.1
    cases r with
    | zero => cases hrun
    | succ r =>
      obtain ⟨A, x, B, j, hj, hls, hPj, hplace, -, hlinked, hround⟩ :=
        h.round hat (by omega) hbase (r := r) (k := k)
      rw [hround] at hrun
      split_ifs at hrun
      have hwrap : j + step < 2 ^ 32 := by
        by_contra hno
        refine hhere ⟨by omega, ?_, lt_of_le_of_lt (Nat.mod_le _ _) hPn⟩
        rw [hplace]
        exact not_lt.1 hno
      exact ih (At.advance hls hPj hlinked hwrap) (base_step hbase) hwraps hrun

end

/-! ## When a sample is right -/

section
variable [LinearOrder α] {rank : K → α} {t : Tree K V} {ls : List (Ptr × List Ptr)} {es : List Ptr}

theorem ceilDiv_pos {a b : Nat} (ha : 0 < a) (hb : 0 < b) : 0 < ceilDiv a b := by
  unfold ceilDiv
  exact Nat.div_pos (by omega) hb

/-- A stride of so many entries is taken at most `b` times. -/
theorem lt_of_mul_ceilDiv_lt {a b m start : Nat} (hb : 0 < b) (h : start + m * ceilDiv a b < a) :
    m < b := by
  have hle : a ≤ b * ceilDiv a b := by
    unfold ceilDiv
    have hdiv := Nat.div_add_mod (a + (b - 1)) b
    have hmod := Nat.mod_lt (a + (b - 1)) hb
    omega
  by_contra hno
  have hmul := Nat.mul_le_mul_right (ceilDiv a b) (not_lt.1 hno)
  omega

/-- The call as one of its loop. -/
theorem bptreeGetSomeKeys_eq {n : Nat} (hcount : t.count.toNat = n) {count : BitVec 32}
    (h0 : count ≠ 0) (r random : Nat) (des : Nat → Ptr) :
    bptreeGetSomeKeys t r random des count =
      if min count.toNat n = 0 ∨ 2 ^ 32 ≤ ceilDiv n (min count.toNat n) then none
      else someKeysLoop t count.toNat (ceilDiv n (min count.toNat n))
        (random % ceilDiv n (min count.toNat n)) r r t.min
        (random % ceilDiv n (min count.toNat n)) 0 0 des := by
  have hmin : (if t.count.toNat < count.toNat then t.count.toNat else count.toNat) =
    min count.toNat n := by
    rw [hcount]
    split_ifs with hlt
    · exact (min_eq_right hlt.le).symm
    · exact (min_eq_left (not_lt.1 hlt)).symm
  unfold bptreeGetSomeKeys
  rw [if_neg h0]
  dsimp only
  rw [hmin, hcount]

section
variable {random size step : Nat} {des : Nat → Ptr} {count : BitVec 32}

/-- The sample is right only when no index wraps around. -/
theorem Sampling.of_right
    (h : ∀ rounds, ls.length < rounds → Sampling t ls count.toNat step rounds)
    (hes : ls.flatMap Prod.snd = es) (hasc : Ascending rank t es)
    (hstart : At t ls t.min (random % step) (random % step))
    (hcall : ∀ r, bptreeGetSomeKeys t r random des count =
      someKeysLoop t count.toNat step (random % step) r r t.min (random % step) 0 0 des)
    (hright : SamplesRight rank t es random des count) (m : Nat) :
    ¬ Wraps ls es.length step (random % step + m * step) := by
  obtain ⟨n, stored, des', hrun, -, -, hascends⟩ := hright
  intro hwraps
  have hone := hrun (max n (ls.length + 1)) (le_max_left _ _)
  have hbase : (0 + random % step) % 2 ^ 32 = random % step % 2 ^ 32 := by rw [Nat.zero_add]
  rw [hcall] at hone
  rw [← hes] at hwraps hasc
  obtain ⟨i, hi, hlt⟩ :=
    (h _ (le_max_right n (ls.length + 1))).wrapped hasc hstart hbase hwraps hone
  exact lt_asymm hlt (hascends i (i + 1) (Nat.lt_succ_self i) hi)

/-- The sample is right when no index wraps around and the stride leaves no more than `size`
entries. -/
theorem Sampling.right
    (h : ∀ rounds, ls.length < rounds → Sampling t ls count.toNat step rounds)
    (hes : ls.flatMap Prod.snd = es) (hasc : Ascending rank t es)
    (hstart : At t ls t.min (random % step) (random % step))
    (hcall : ∀ r, bptreeGetSomeKeys t r random des count =
      someKeysLoop t count.toNat step (random % step) r r t.min (random % step) 0 0 des)
    (hsize : ∀ m, random % step + m * step < es.length → m < min count.toNat es.length)
    (hgood : ∀ m, ¬ Wraps ls es.length step (random % step + m * step)) :
    SamplesRight rank t es random des count := by
  have hfirst : Taken (ls.flatMap Prod.snd) step (random % step) 0 des :=
    fun i hi => (nomatch hi)
  have hbase : (0 + random % step) % 2 ^ 32 = (random % step + 0 * step) % 2 ^ 32 := by
    rw [Nat.zero_mul, Nat.add_comm]
  have hsampling := h (ls.length + 1) (Nat.lt_succ_self _)
  obtain ⟨stored, des', hrun, htaken⟩ := hsampling.loop (r := es.length + 1)
    (by rw [hes]; exact hgood) (by rw [hes]; exact fun m hm => (lt_min_iff.1 (hsize m hm)).1)
    (.inl (by rw [Nat.zero_mul, Nat.add_zero]; exact hstart)) hbase hfirst (by rw [hes]; omega)
  rw [hes] at htaken
  refine ⟨es.length + ls.length + 1, stored, des', fun r hr => ?_, ?_, fun j hj => ?_,
    fun i j hij hj => ?_⟩
  · rw [hcall]
    exact someKeysLoop_mono hrun (by omega) (by omega)
  · by_contra hmany
    have hmin : min count.toNat es.length < stored := not_le.1 hmany
    obtain ⟨hlast, -⟩ := List.getElem?_eq_some_iff.1 (htaken _ hmin)
    exact lt_irrefl _ (hsize _ hlast)
  · exact List.mem_of_getElem? (htaken j hj)
  · exact htaken.ascending hasc hsampling.step_pos hij hj

end

/-- **Samples.** The stride is the quotient `step`, the first entry is number `random % step`. -/
theorem someKeys_right_iff (rank : K → α) (t : Tree K V) (es : List Ptr) (h : Stands rank t es)
    (hcount : t.count.toNat = es.length) (random : Nat) (des : Nat → Ptr) (count : BitVec 32) :
    ∃ ls, Leaves t ls ∧ ls.flatMap Prod.snd = es ∧
      let step := ceilDiv es.length (min count.toNat es.length)
      (SamplesRight rank t es random des count ↔
        count = 0 ∨ es ≠ [] ∧ step < 2 ^ 32 ∧ ∀ m, ¬ Wraps ls es.length step
          (random % step + m * step)) := by
  obtain ⟨ls, hls, hes⟩ := h.leaves
  refine ⟨ls, hls, hes, ?_⟩
  dsimp only
  by_cases h0 : count = 0
  · refine iff_of_true ⟨0, 0, des, fun r _ => if_pos h0, Nat.zero_le _, fun j hj => (nomatch hj),
      fun i j _ hj => (nomatch hj)⟩ (.inl h0)
  rw [or_iff_right h0]
  have hc0 : 0 < count.toNat := by
    refine Nat.pos_of_ne_zero fun hzero => h0 (BitVec.eq_of_toNat_eq ?_)
    rw [hzero]
    rfl
  have hcall := fun r => bptreeGetSomeKeys_eq hcount h0 r random des
  by_cases hundef : min count.toNat es.length = 0 ∨
    2 ^ 32 ≤ ceilDiv es.length (min count.toNat es.length)
  · refine iff_of_false ?_ ?_
    · rintro ⟨n, stored, des', hrun, -⟩
      have hnone := hrun n le_rfl
      rw [hcall, if_pos hundef] at hnone
      cases hnone
    · rintro ⟨hne, hstep, -⟩
      have hlen := List.length_pos_of_ne_nil hne
      omega
  · obtain ⟨hc, hstep⟩ := not_or.1 hundef
    have hlen : 0 < es.length := by omega
    simp only [if_neg hundef] at hcall
    rw [and_iff_right (List.ne_nil_of_length_pos hlen), and_iff_right (not_le.1 hstep)]
    have hsize : ∀ m start, start + m * ceilDiv es.length (min count.toNat es.length) <
      es.length → m < min count.toNat es.length :=
      fun m start => lt_of_mul_ceilDiv_lt (Nat.pos_of_ne_zero hc)
    have hpos := ceilDiv_pos hlen (Nat.pos_of_ne_zero hc)
    generalize ceilDiv es.length (min count.toNat es.length) = step at *
    have hsampling : ∀ rounds, ls.length < rounds → Sampling t ls count.toNat step rounds :=
      fun rounds hr => ⟨hls, by rw [hes]; exact hcount, hpos, not_le.1 hstep, hr⟩
    have hstart : At t ls t.min (random % step) (random % step) :=
      ⟨[], ls, rfl, hls.toLinked, (Nat.zero_add _).symm⟩
    constructor
    · exact Sampling.of_right hsampling hes h.ascending hstart hcall
    · exact Sampling.right hsampling hes h.ascending hstart hcall fun m => hsize m _

end

theorem placeInLeaf_le (ls : List (Ptr × List Ptr)) (p : Nat) : placeInLeaf ls p ≤ p := by
  induction ls generalizing p with
  | nil => exact le_rfl
  | cons x ls ih =>
    rw [placeInLeaf]
    split_ifs
    · exact le_rfl
    · exact (ih _).trans (Nat.sub_le _ _)

theorem hundred_sampled : ∃ (t : Tree Nat Nat) (es : List Ptr), Stands id t es ∧
    t.count.toNat = es.length ∧ es.length = 100 ∧ SamplesRight id t es 7 (fun _ => 0) 10 := by
  obtain ⟨t, hstands, hcount, -⟩ := numbers_stand (show 0 < 100 by norm_num) (by norm_num)
  have hlen : ((List.range 100).map Nat.succ).length = 100 := by
    rw [List.length_map, List.length_range]
  have hexact : t.count.toNat = ((List.range 100).map Nat.succ).length := by
    rw [hlen]
    exact hcount
  obtain ⟨ls, -, -, hiff⟩ := someKeys_right_iff id t _ hstands hexact 7 (fun _ => 0) 10
  refine ⟨t, _, hstands, hexact, hlen, hiff.2 (.inr ⟨?_, ?_, ?_⟩)⟩
  · exact List.ne_nil_of_length_pos (by rw [hlen]; norm_num)
  · rw [hlen]
    decide
  · rw [hlen]
    rintro m ⟨hlt, hwrap, -⟩
    have hle := placeInLeaf_le ls (7 % ceilDiv 100 (min (10 : BitVec 32).toNat 100) + m * ceilDiv
      100 (min (10 : BitVec 32).toNat 100))
    have hstep : ceilDiv 100 (min (10 : BitVec 32).toNat 100) = 10 := by decide
    rw [hstep] at hle hlt hwrap
    omega

/-- In an empty tree the stride is the quotient of 0 and 0. -/
theorem empty_not_sampled : Stands id (bptreeCreate (numbered 1)) [] ∧
    (bptreeCreate (numbered 1)).count = 0 ∧
    ∀ random des, ¬ SamplesRight id (bptreeCreate (numbered 1)) [] random des 5 := by
  refine ⟨stands_create id Nat.zero_lt_one, rfl, ?_⟩
  rintro random des ⟨n, stored, des', hrun, -⟩
  have hnone : bptreeGetSomeKeys (bptreeCreate (numbered 1)) n random des 5 = none := by
    unfold bptreeGetSomeKeys
    rw [if_neg (by decide)]
    exact if_pos (.inl rfl)
  rw [hrun n le_rfl] at hnone
  cases hnone

end Bptree
