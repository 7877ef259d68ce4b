import DsAlgor.Bptree.InsertLeaf

/-!
# Bulk loading

`bptreeBulkLoad` spreads an array of entries over new leaves, and then, level by level, the nodes of
one level over new nodes of the next, until there is one node left. The quotients are taken as
exact; `index` has 32 bits, so that an entry number is read modulo `2 ^ 32`. A failed assertion is
`none`, and so is too small a number of rounds for the loop over the levels. Here are the loops and
the leaves they make (`bulkLeaves_spec`).
-/

namespace Bptree

open CArray

variable {K V : Type}

/-- `ceil(a/(double)b)`. -/
def ceilDiv (a b : Nat) : Nat := (a + (b - 1)) / b

/-- The loop over the leaves, with `r` of them to come: the tree, and the number of entries that are
left. -/
def bulkLeaves (e : Nat → Ptr) : Nat → Tree K V → Ptr → Nat → Nat → Tree K V × Nat
  | 0, t, _, count, _ => (t, count)
  | r + 1, t, node, count, index =>
    let (nn, t) := t.allocateNode true
    let t := if node ≠ 0 then t.setNode node { t.node node with next := nn } else
      { t with min := nn }
    let c := count / (r + 1) % 2 ^ 32
    let t := t.setNode nn { t.node nn with
      count := c
      entries := copy (fun i => e (i % 2 ^ 32)) c index 0 (t.node nn).entries }
    bulkLeaves e r t nn (count - c) ((index + c) % 2 ^ 32)

/-- The loop over the keys of a node of level 1: the next leaf, and the node. -/
def bulkChildren (t : Tree K V) : Nat → Nat → Ptr → Node K → Ptr × Node K
  | 0, _, leaf, n => (leaf, n)
  | r + 1, j, leaf, n =>
    bulkChildren t r (j + 1) (t.node leaf).next
      { n with
        keys := Function.update n.keys j (t.key ((t.node leaf).entries 0))
        children := Function.update n.children (j + 1) leaf }

/-- The loop over the nodes of level 1, with `r` of them to come: the tree and `nextlevel`. -/
def bulkParents : Nat → Nat → Tree K V → Ptr → Nat → (Nat → Ptr × K) → Tree K V × (Nat → Ptr × K)
  | 0, _, t, _, _, nextlevel => (t, nextlevel)
  | r + 1, i, t, leaf, leaves, nextlevel =>
    let (node, t) := t.allocateNode false
    let count := leaves / (r + 1) - 1
    let n := { t.node node with
      level := 1
      count := count
      children := Function.update (t.node node).children 0 leaf }
    let (leaf, n) := bulkChildren t count 0 (t.node leaf).next n
    let t := t.setNode node n
    let key := if leaf ≠ 0 then t.key ((t.node leaf).entries 0) else (nextlevel i).2
    bulkParents r (i + 1) t leaf (leaves - (count + 1)) (Function.update nextlevel i (node, key))

/-- The loop over the nodes of a higher level, with `r` of them to come: the tree, the number of
children that are left, and `nextlevel`. -/
def bulkLevel : Nat → Nat → Nat → Tree K V → Nat → (Nat → Ptr × K) → Tree K V × Nat ×
    (Nat → Ptr × K)
  | 0, _, _, t, children, nextlevel => (t, children, nextlevel)
  | r + 1, i, index, t, children, nextlevel =>
    let (node, t) := t.allocateNode false
    let count := children / (r + 1) - 1
    let t := t.setNode node { t.node node with
      level := (t.node (nextlevel index).1).level + 1
      count := count
      keys := copy (fun j => (nextlevel j).2) count index 0 (t.node node).keys
      children := Function.update (copy (fun j => (nextlevel j).1) count index 0
        (t.node node).children) count (nextlevel (index + count)).1 }
    bulkLevel r (i + 1) (index + count + 1) t (children - (count + 1))
      (Function.update nextlevel i (node, (nextlevel (index + count)).2))

/-- `while(parents != 1)`, with `r` rounds left. -/
def bulkLevels : Nat → Nat → Tree K V → (Nat → Ptr × K) → Option (Tree K V × (Nat → Ptr × K))
  | 0, _, _, _ => none
  | r + 1, parents, t, nextlevel =>
    if parents = 1 then some (t, nextlevel)
    else
      let parents' := ceilDiv parents t.innerOrder
      let (t, children, nextlevel) := bulkLevel parents' 0 0 t parents nextlevel
      if children = 0 then bulkLevels r parents' t nextlevel else none

/-- `bptreeBulkLoad`; `nextlevel` is what is in the memory of the array. The last `node` is that of
`nextlevel[0]`. -/
def bptreeBulkLoad (r : Nat) (t : Tree K V) (e : Nat → Ptr) (count : Nat)
    (nextlevel : Nat → Ptr × K) :
    Option (Tree K V) :=
  let leaves := ceilDiv count (t.leafOrder - 1) % 2 ^ 32
  let (t, rest) := bulkLeaves e leaves { t with count := BitVec.ofNat 64 count } 0 count 0
  if rest ≠ 0 then none
  else if leaves = 1 then some { t with root := t.min }
  else do
    let parents := ceilDiv leaves t.innerOrder
    let (t, nextlevel) := bulkParents parents 0 t t.min leaves nextlevel
    let (t, nextlevel) ← bulkLevels r parents t nextlevel
    return { t with root := (nextlevel 0).1 }

open PtrTree

/-! ## Shares -/

/-- What is left to `r` others, when one of `r + 1` has taken its share of at least `a` and at most
`b`. -/
theorem share {a b n r : Nat} (ha : a * (r + 1) ≤ n) (hb : n ≤ b * (r + 1)) :
    a ≤ n / (r + 1) ∧ n / (r + 1) ≤ b ∧ a * r ≤ n - n / (r + 1) ∧ n - n / (r + 1) ≤ b * r ∧ n /
      (r + 1) ≤ n := by
  have hq := Nat.div_add_mod n (r + 1)
  have hs := Nat.mod_lt n (Nat.succ_pos r)
  have haq : a ≤ n / (r + 1) := (Nat.le_div_iff_mul_le (Nat.succ_pos r)).2 ha
  have hqb : n / (r + 1) ≤ b := Nat.div_le_of_le_mul (by rwa [Nat.mul_comm])
  generalize n / (r + 1) = q at hq haq hqb ⊢
  generalize n % (r + 1) = s at hq hs
  have hmul : (r + 1) * q = r * q + q := by ring
  have har : a * r ≤ r * q := by
    rw [Nat.mul_comm]
    exact Nat.mul_le_mul_left r haq
  have hbr : r * q + s ≤ b * r := by
    rcases Nat.lt_or_eq_of_le hqb with hlt | heq
    · have := Nat.mul_le_mul_left r (Nat.succ_le_of_lt hlt)
      rw [Nat.mul_succ] at this
      rw [Nat.mul_comm b r]
      omega
    · subst heq
      have hb' : q * (r + 1) = r * q + q := by ring
      rw [Nat.mul_comm q r]
      omega
  refine ⟨haq, hqb, ?_, ?_, ?_⟩
  · omega
  · omega
  · omega

/-! ## Leaves -/

/-- The entries from number `i` on, as they are read. -/
def readEntries (e : Nat → Ptr) (i n : Nat) : List Ptr :=
  (List.range' i n).map fun j => e (j % 2 ^ 32)

/-- A row of `r` new leaves behind `node`, with at least `lo` and at most `hi` entries each. -/
structure Rowed (t t' : Tree K V) (node : Ptr) (r lo hi : Nat) (ls : List (Ptr × List Ptr)) :
    Prop where
  ptrs : ls.map Prod.fst = List.range' t.brk r
  leaf : ∀ x ∈ ls, Entries (t'.node x.1) x.2 ∧ (t'.node x.1).leaf = true ∧ (t'.node x.1).level = 0 ∧
    lo ≤ x.2.length ∧ x.2.length ≤ hi
  chain : Chain (fun p => (t'.node p).next) (if r = 0 then 0 else t.brk) (List.range' t.brk r) 0
  last : node ≠ 0 → t'.node node =
    { t.node node with next := if r = 0 then (t.node node).next else t.brk }
  min : t'.min = if node = 0 ∧ r ≠ 0 then t.brk else t.min
  node : ∀ p < t.brk, (node ≠ 0 → p ≠ node) → t'.node p = t.node p
  entry : t'.entry = t.entry
  count : t'.count = t.count
  root : t'.root = t.root
  innerOrder : t'.innerOrder = t.innerOrder
  leafOrder : t'.leafOrder = t.leafOrder
  path : t'.path = t.path
  brk : t'.brk = t.brk + r

section
variable {t t' : Tree K V} {e : Nat → Ptr}

theorem rep_copy_read (i c : Nat) (dst : Nat → Ptr) :
    Rep (copy (fun j => e (j % 2 ^ 32)) c (i % 2 ^ 32) 0 dst) (readEntries e i c) := by
  intro j hj
  unfold readEntries at hj ⊢
  rw [List.length_map, List.length_range'] at hj
  rw [List.getElem?_map, List.getElem?_range' hj, copy_apply, if_pos ⟨Nat.zero_le _, by omega⟩,
    Nat.sub_zero, Nat.mod_add_mod]
  simp

theorem readEntries_add (i c d : Nat) : readEntries e i (c + d) = readEntries e i c ++ readEntries e
    (i + c) d := by
  unfold readEntries
  rw [← List.map_append, List.range'_append_1]

/-- The heap after one leaf. -/
def oneLeaf (e : Nat → Ptr) (t : Tree K V) (node : Ptr) (c index : Nat) : Tree K V :=
  let t₁ := if node ≠ 0 then (t.allocateNode true).2.setNode node { t.node node with next := t.brk }
    else { (t.allocateNode true).2 with min := t.brk }
  t₁.setNode t.brk { (t.node t.brk).cleared true with
    count := c
    entries := copy (fun i => e (i % 2 ^ 32)) c index 0 (t.node t.brk).entries }

theorem bulkLeaves_succ {node : Ptr} {count index : Nat} (r : Nat) (hnode : node < t.brk) :
    bulkLeaves e (r + 1) t node count index =
      bulkLeaves e r (oneLeaf e t node (count / (r + 1) % 2 ^ 32) index) t.brk
        (count - count / (r + 1) % 2 ^ 32) ((index + count / (r + 1) % 2 ^ 32) % 2 ^ 32) := by
  have hne : t.brk ≠ node := ne_of_gt hnode
  rw [bulkLeaves]
  dsimp only
  rw [allocateNode_fst, allocateNode_of_ne hne.symm]
  unfold oneLeaf
  dsimp only
  by_cases h0 : node ≠ 0
  · rw [if_pos h0, setNode_of_ne hne, allocateNode_self]
    rfl
  · rw [if_neg h0, allocateNode_self]
    rfl

theorem oneLeaf_new {node : Ptr} {c index : Nat} :
    (oneLeaf e t node c index).node t.brk = { (t.node t.brk).cleared true with
      count := c
      entries := copy (fun i => e (i % 2 ^ 32)) c index 0 (t.node t.brk).entries } := by
  unfold oneLeaf
  exact setNode_self

theorem oneLeaf_last {node : Ptr} {c index : Nat} (hnode : node < t.brk) (h0 : node ≠ 0) :
    (oneLeaf e t node c index).node node = { t.node node with next := t.brk } := by
  unfold oneLeaf
  dsimp only
  rw [setNode_of_ne (ne_of_lt hnode), if_pos h0, setNode_self]

theorem oneLeaf_old {node p : Ptr} {c index : Nat} (hp : p < t.brk) (hne : node ≠ 0 → p ≠ node) :
    (oneLeaf e t node c index).node p = t.node p := by
  unfold oneLeaf
  dsimp only
  rw [setNode_of_ne (ne_of_lt hp)]
  split_ifs with h0
  · rw [setNode_of_ne (hne h0), allocateNode_of_ne (ne_of_lt hp)]
  · exact allocateNode_of_ne (ne_of_lt hp)

theorem oneLeaf_rest (t : Tree K V) (node : Ptr) (c index : Nat) :
    (oneLeaf e t node c index).min = (if node = 0 then t.brk else t.min) ∧
      (oneLeaf e t node c index).entry = t.entry ∧ (oneLeaf e t node c index).count = t.count ∧
      (oneLeaf e t node c index).root = t.root ∧ (oneLeaf e t node c index).innerOrder =
      t.innerOrder ∧
      (oneLeaf e t node c index).leafOrder = t.leafOrder ∧
      (oneLeaf e t node c index).path = t.path ∧
      (oneLeaf e t node c index).brk = t.brk + 1 := by
  unfold oneLeaf
  dsimp only
  by_cases h0 : node = 0
  · rw [if_neg (by simpa using h0), if_pos h0]
    exact ⟨rfl, rfl, rfl, rfl, rfl, rfl, rfl, rfl⟩
  · rw [if_pos h0, if_neg h0]
    exact ⟨rfl, rfl, rfl, rfl, rfl, rfl, rfl, rfl⟩

/-- **The leaves** of a bulk load. -/
theorem bulkLeaves_spec {node : Ptr} {r count lo hi : Nat} (hnode : node < t.brk)
    (hlo : lo * r ≤ count) (hhi : count ≤ hi * r) (hsmall : hi < 2 ^ 32) (i : Nat) :
    ∃ ls, (bulkLeaves e r t node count (i % 2 ^ 32)).2 = 0 ∧
      Rowed t (bulkLeaves e r t node count (i % 2 ^ 32)).1 node r lo hi ls ∧
      ls.flatMap Prod.snd = readEntries e i count := by
  induction r generalizing t node count i with
  | zero =>
    obtain rfl : count = 0 := Nat.le_zero.1 hhi
    refine ⟨[], rfl, ⟨rfl, fun x hx => (nomatch hx), rfl, fun _ => rfl, ?_, fun _ _ _ => rfl, rfl,
      rfl, rfl, rfl, rfl, rfl, rfl⟩, rfl⟩
    rw [if_neg (by simp)]
    rfl
  | succ r ih =>
    obtain ⟨hc1, hc2, hr1, hr2, hcn⟩ := share hlo hhi
    have hmod : count / (r + 1) % 2 ^ 32 = count / (r + 1) := Nat.mod_eq_of_lt (by omega)
    rw [bulkLeaves_succ r hnode, hmod, Nat.mod_add_mod]
    generalize count / (r + 1) = c at hc1 hc2 hr1 hr2 hcn ⊢
    obtain ⟨t₁, ht₁⟩ : ∃ t₁, t₁ = oneLeaf e t node c (i % 2 ^ 32) := ⟨_, rfl⟩
    obtain ⟨hmin, hentry, hcount, hroot, hio, hlo', hpath, hbrk⟩ :=
      oneLeaf_rest (e := e) t node c (i % 2 ^ 32)
    rw [← ht₁] at hmin hentry hcount hroot hio hlo' hpath hbrk ⊢
    have hnode₁ : t.brk < t₁.brk := by
      rw [hbrk]
      exact Nat.lt_succ_self _
    obtain ⟨ls, hrest, hrow, hread⟩ := ih hnode₁ hr1 hr2 (i + c)
    have hbrk0 : t.brk ≠ 0 := Nat.ne_of_gt (Nat.zero_lt_of_lt hnode)
    have hnew := hrow.last hbrk0
    rw [ht₁, oneLeaf_new, ← ht₁] at hnew
    refine ⟨(t.brk, readEntries e i c) :: ls, hrest,
      ⟨?_, ?_, ?_, ?_, ?_, ?_, hrow.entry.trans hentry, hrow.count.trans hcount,
      hrow.root.trans hroot, hrow.innerOrder.trans hio, hrow.leafOrder.trans hlo',
      hrow.path.trans hpath, ?_⟩, ?_⟩
    · rw [List.map_cons, hrow.ptrs, hbrk]
      rfl
    · intro x hx
      rcases List.mem_cons.1 hx with rfl | hx
      · have hlen : (readEntries e i c).length = c := by
          unfold readEntries
          rw [List.length_map, List.length_range']
        rw [hnew]
        exact ⟨⟨hlen.symm, rep_copy_read i c _⟩, rfl,
          rfl, by rw [hlen]; exact hc1, by rw [hlen]; exact hc2⟩
      · exact hrow.leaf x hx
    · refine ⟨rfl, ?_⟩
      have hchain := hrow.chain
      rw [hbrk] at hchain
      beta_reduce
      rw [hnew, hbrk]
      exact hchain
    · intro h0
      have hlt : node < t₁.brk := by
        rw [hbrk]
        exact hnode.trans (Nat.lt_succ_self _)
      rw [hrow.node node hlt (fun _ => ne_of_lt hnode), ht₁, oneLeaf_last hnode h0,
        if_neg (Nat.succ_ne_zero r)]
    · rw [hrow.min, hmin, if_neg (fun hand => hbrk0 hand.1)]
      by_cases h0 : node = 0
      · rw [if_pos h0, if_pos ⟨h0, Nat.succ_ne_zero r⟩]
      · rw [if_neg h0, if_neg (fun hand => h0 hand.1)]
    · intro p hp hne
      have hlt : p < t₁.brk := by
        rw [hbrk]
        exact hp.trans (Nat.lt_succ_self _)
      rw [hrow.node p hlt (fun _ => ne_of_lt hp), ht₁, oneLeaf_old hp hne]
    · rw [hrow.brk, hbrk, Nat.add_assoc, Nat.add_comm 1 r]
    · rw [List.flatMap_cons, hread, ← readEntries_add, Nat.add_sub_cancel' hcn]

end

end Bptree
