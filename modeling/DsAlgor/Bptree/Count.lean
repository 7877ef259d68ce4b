import DsAlgor.Bptree.Bare
import DsAlgor.Bptree.Malloc
import DsAlgor.Bptree.Split

/-!
# The count of the entries

`bptreeVerify` compares `t->count` with the number of entries on the chain of leaves. `bptreeCreate`
does not set the count, so a new tree has whatever was in its memory; every operation after that
keeps the difference, or sets the count. So the comparison is true in every state exactly when the
memory of the new tree happens to hold 0 (`count_exact_iff`), as long as `malloc` refuses no node
to an insertion: the insertion that cannot divide a leaf counts its entry nevertheless
(`refused_not_exact`). This does not depend on the order of the keys: `Firm` says what holds of the
nodes without them.
-/

namespace Bptree

variable {K V : Type}

/-- The loop of `bptreeVerify`, with `r` rounds left. -/
def verifyLoop (t : Tree K V) : Nat → Ptr → BitVec 64 → Option (BitVec 64)
  | 0, _, _ => none
  | r + 1, node, count =>
    if node = 0 then some count
    else verifyLoop t r (t.node node).next (count + BitVec.ofNat 64 (t.node node).count)

/-- `bptreeVerify` without `bptreeVerifyNode`, which returns nothing. -/
def bptreeVerify (r : Nat) (t : Tree K V) : Option Bool := do
  let count ← verifyLoop t r t.min 0
  return count == t.count

/-- `bptreeEmpty`; what is freed stays as it is. -/
def bptreeEmpty (r : Nat) (t : Tree K V) : Option (Tree K V) := do
  let t ← clearNode r t t.root
  return { t with root := 0, min := 0, count := 0 }

/-- One call on a tree. After a split, one goes on with one of the two trees. -/
inductive Act (K V : Type)
  | op (g : Malloc.Grants) (o : Op K V)
  | empty
  | bulkLoad (e : Nat → Ptr) (count : BitVec 64) (nextlevel : Nat → Ptr × K)
  | split (splitKey : Option K) (entries : Nat → Ptr) (nextlevel nextlevel' : Nat → Ptr × K)
      (second : Bool)

section
variable [DecidableEq K]

def Act.run (type : KeyType K V) (r : Nat) (t : Tree K V) : Act K V → Option (Tree K V)
  | .op g o => (Malloc.step type g t o).map Prod.snd
  | .empty => bptreeEmpty r t
  | .bulkLoad e count nextlevel => bptreeBulkLoad r t e count.toNat nextlevel
  | .split splitKey entries nextlevel nextlevel' second =>
    (bptreeSplit type r t splitKey entries nextlevel nextlevel').map fun (t, splitTree) =>
      if second then splitTree else t

/-- The largest number of entries whose number of leaves is a `uint32_t`. -/
def maxLoad : Nat := 63 * (2 ^ 32 - 1)

/-- No bulk load in the call has too many entries. -/
def Act.Loadable (type : KeyType K V) (t : Tree K V) : Act K V → Prop
  | .bulkLoad _ count _ => count.toNat ≤ maxLoad
  | .split splitKey _ _ _ _ => ∀ r index, splitIndex type r t splitKey = some index →
    index.toNat ≤ maxLoad ∧ (t.count - index).toNat ≤ maxLoad
  | _ => True

/-- No node is refused to an insertion. -/
def Act.Granted : Act K V → Prop
  | .op g _ => g.nodes = none
  | _ => True

/-- What calls make of a new tree in the memory `mem`, each of which meets the two conditions. -/
inductive Reachable (type : KeyType K V) (mem : Tree K V) : Tree K V → Prop
  | new : Reachable type mem (bptreeCreate mem)
  | call {t t' : Tree K V} {r : Nat} (act : Act K V) (ht : Reachable type mem t)
      (hact : act.Loadable type t) (hgranted : act.Granted) (hrun : act.run type r t = some t') :
      Reachable type mem t'

end

/-- The count is the number of entries, and `bptreeVerify` says so. -/
def CountExact (t : Tree K V) : Prop :=
  (∃ es, Lists t es ∧ t.count = BitVec.ofNat 64 es.length) ∧ ∃ n, ∀ r ≥ n,
    bptreeVerify r t = some true

open CArray PtrTree

/-- The nodes without their keys. -/
inductive Firm (t : Tree K V) : List Ptr → Prop
  | empty (root : t.root = 0) (min : t.min = 0) (innerOrder : t.innerOrder = 32)
      (leafOrder : t.leafOrder = 64) (brk : 0 < t.brk) : Firm t []
  | tree {L : Nat} {T : Shape} (h : Built t.bare L T) : Firm t T.elems

/-- The nodes and the count are right. -/
def Counted (t : Tree K V) : Prop := ∃ es, Firm t es ∧ t.count = BitVec.ofNat 64 es.length

/-! ## The comparison -/

section
variable {t t' : Tree K V} {es : List Ptr}

theorem verifyLoop_eq {p : Ptr} {ps : List Ptr} {r : Nat} (hpos : 0 ∉ ps)
    (hchain : Chain (fun q => (t.node q).next) p ps 0) (hr : ps.length < r) (c : BitVec 64) :
    verifyLoop t r p c =
      some (c + BitVec.ofNat 64 (ps.flatMap fun q => (t.node q).held).length) := by
  induction ps generalizing p r c with
  | nil =>
    obtain ⟨r, rfl⟩ := Nat.exists_eq_succ_of_ne_zero (Nat.ne_zero_of_lt hr)
    have hp : p = 0 := hchain
    rw [verifyLoop, if_pos hp]
    simp
  | cons q ps ih =>
    obtain ⟨r, rfl⟩ := Nat.exists_eq_succ_of_ne_zero (Nat.ne_zero_of_lt hr)
    obtain ⟨rfl, hchain⟩ := hchain
    rw [List.mem_cons, not_or] at hpos
    have hheld : (t.node p).held.length = (t.node p).count := by
      unfold Node.held
      rw [List.length_map, List.length_range]
    rw [verifyLoop, if_neg (Ne.symm hpos.1), ih hpos.2 hchain (Nat.lt_of_succ_lt_succ hr),
      List.flatMap_cons, List.length_append, hheld, BitVec.ofNat_add, BitVec.add_assoc]

theorem Lists.countExact_iff (h : Lists t es) :
    CountExact t ↔ t.count = BitVec.ofNat 64 es.length := by
  constructor
  · intro hexact
    obtain ⟨⟨es', hlists, hcount⟩, -⟩ := hexact
    rw [h.unique hlists]
    exact hcount
  · intro hcount
    refine ⟨⟨es, h, hcount⟩, ?_⟩
    obtain ⟨ps, hpos, hchain, rfl⟩ := h
    refine ⟨ps.length + 1, fun r hr => ?_⟩
    unfold bptreeVerify
    rw [verifyLoop_eq hpos hchain hr, hcount]
    simp

/-! ## The nodes -/

theorem Firm.lists (h : Firm t es) : Lists t es := by
  cases h with
  | empty _ min => exact ⟨[], List.not_mem_nil, min, rfl⟩
  | tree h => exact h.lists

theorem Counted.exact (h : Counted t) : CountExact t := by
  obtain ⟨es, hfirm, hcount⟩ := h
  exact hfirm.lists.countExact_iff.2 hcount

theorem Firm.innerOrder (h : Firm t es) : t.innerOrder = 32 := by
  cases h with
  | empty _ _ io => exact io
  | tree h => exact h.innerOrder

theorem Firm.leafOrder (h : Firm t es) : t.leafOrder = 64 := by
  cases h with
  | empty _ _ _ lo => exact lo
  | tree h => exact h.leafOrder

theorem Firm.brk_pos (h : Firm t es) : 0 < t.brk := by
  cases h with
  | empty _ _ _ _ brk => exact brk
  | @tree L T h => exact (h.bound _ (ptr_mem_ptrs T)).1.trans (h.bound _ (ptr_mem_ptrs T)).2

/-- Keys and values do not matter. -/
theorem Firm.congr (h : Firm t es) (hbare : t'.bare = t.bare) : Firm t' es := by
  cases h with
  | empty root min io lo brk =>
    exact .empty ((congrArg Tree.root hbare).trans root) ((congrArg Tree.min hbare).trans min)
      ((congrArg Tree.innerOrder hbare).trans io) ((congrArg Tree.leafOrder hbare).trans lo)
      (brk.trans_eq (congrArg Tree.brk hbare).symm)
  | @tree L T h =>
    rw [← hbare] at h
    exact .tree h

theorem Counted.congr (h : Counted t) (hbare : t'.bare = t.bare) : Counted t' := by
  obtain ⟨es, hfirm, hcount⟩ := h
  exact ⟨es, hfirm.congr hbare, (congrArg Tree.count hbare).trans hcount⟩

/-- An insertion that cannot divide a leaf makes the count wrong. -/
theorem refused_not_exact (h : Counted t) (hroot : t.root ≠ 0)
    {path : PathInfo} (hfull : (t.node (path.n 0)).count = t.leafOrder - 1) {e : Ptr} {c : Int}
    (hrun : Malloc.insertIntoLeafNode (some 0) t path e = some (c, t')) : ¬ CountExact t' := by
  obtain ⟨es, hfirm, hcount⟩ := h
  have heq : Malloc.insertIntoLeafNode (some 0) t path e =
      some (BPT_ERR, { t with count := t.count + 1 }) := by
    unfold Malloc.insertIntoLeafNode
    rw [if_neg hroot]
    exact if_pos hfull
  obtain ⟨-, rfl⟩ := Prod.mk.inj (Option.some.inj (heq.symm.trans hrun))
  have hlists : Lists { t with count := t.count + 1 } es := hfirm.lists
  rw [hlists.countExact_iff, ← hcount]
  show ¬ t.count + 1 = t.count
  bv_omega

/-! ## Insertion and deletion -/

variable [DecidableEq K] {type : KeyType K V} {key : K} {path path' : PathInfo} {x : Ptr}

/-- One entry more, wherever the search has led. -/
theorem Firm.insert (h : Firm t es) (hfind : bptreeFindEntry type t key path = some (x, path'))
    (e : Ptr) (f : Ptr → Entry K V) :
    ∃ t' es', insertIntoLeafNode { t with entry := f, brk := t.brk + 1 } path' e = some t' ∧
      Firm t' es' ∧ es'.length = es.length + 1 ∧ t'.count = t.count + 1 := by
  obtain ⟨s, hs⟩ : ∃ s : Tree K V, s = { t with entry := f, brk := t.brk + 1 } := ⟨_, rfl⟩
  rw [← hs]
  have hcount : s.count = t.count := by rw [hs]
  cases h with
  | empty root min io lo brk =>
    have hpath : path'.p 0 = 0 := by
      unfold bptreeFindEntry at hfind
      rw [if_pos root] at hfind
      obtain ⟨-, rfl⟩ := Prod.mk.inj (Option.some.inj hfind)
      exact Function.update_self 0 0 path.p
    have hroot : s.root = 0 := by rw [hs]; exact root
    have hbrk : 0 < s.brk := by rw [hs]; exact Nat.succ_pos _
    have hio : s.innerOrder = 32 := by rw [hs]; exact io
    have hlo : s.leafOrder = 64 := by rw [hs]; exact lo
    obtain ⟨t', L, T, hrun, hcount', hchanged⟩ :=
      insertIntoLeafNode_empty e hroot hbrk hio hlo hpath
    refine ⟨t', T.elems, hrun, .tree hchanged.toBuilt.bare, ?_, ?_⟩
    · rw [hchanged.elems]
      rfl
    · rw [hcount', hcount]
  | @tree L T h =>
    obtain ⟨gs, p, es, path'', x', hrun, hplaced, hle, -⟩ := bptreeFindEntry_placed type key h path
    obtain ⟨rfl, rfl⟩ := Prod.mk.inj (Option.some.inj (hfind.symm.trans hrun))
    have hnode : s.bare.node = t.bare.node := by rw [hs]; rfl
    have hplaced' : Placed s.bare T path' gs p es := hplaced.congr (fun _ _ => rfl) hnode
    have hbuilt : Built s.bare L T := by
      rw [hs]
      exact ⟨h.root, h.sub.congr (fun _ _ => rfl) fun _ _ => rfl, h.nodup,
        fun q hq => (h.bound q hq).imp_right fun hlt => hlt.trans (Nat.lt_succ_self _), h.chain,
        h.innerOrder, h.leafOrder⟩
    have hroot : s.root ≠ 0 := by
      have hroot : s.root = T.ptr := hbuilt.root
      rw [hroot]
      exact Nat.ne_of_gt (hbuilt.bound _ (ptr_mem_ptrs T)).1
    obtain ⟨u, L', T', hrun', hcount', hchanged⟩ :=
      insertIntoLeafNode_spec (e := e) hplaced' hbuilt rfl hle hplaced'.around
    rw [insertIntoLeafNode_bare s path' hroot] at hrun'
    obtain ⟨t', hrun'', rfl⟩ := Option.map_eq_some_iff.1 hrun'
    refine ⟨t', T'.elems, hrun'', .tree hchanged.toBuilt, ?_, ?_⟩
    · rw [hchanged.elems, hplaced.elems, List.length_append, List.length_append,
        List.length_insertIdx_of_le_length hle, List.length_append, List.length_append]
      omega
    · have hcount'' : t'.count = s.count + 1 := hcount'
      rw [hcount'', hcount]

/-- One entry less. -/
theorem Firm.delete (h : Firm t es) (hfind : bptreeFindEntry type t key path = some (x, path'))
    (hx : x ≠ 0) :
    ∃ t' es', deleteFromLeafNode type t path' key = some t' ∧ Firm t' es' ∧
      es'.length + 1 = es.length ∧ t'.count = t.count - 1 := by
  cases h with
  | empty root =>
    unfold bptreeFindEntry at hfind
    rw [if_pos root] at hfind
    exact absurd (congrArg Prod.fst (Option.some.inj hfind)).symm hx
  | @tree L T h =>
    obtain ⟨gs, p, es, path'', x', hrun, hplaced, -, hlt⟩ := bptreeFindEntry_placed type key h path
    obtain ⟨rfl, rfl⟩ := Prod.mk.inj (Option.some.inj (hfind.symm.trans hrun))
    have hpos := hlt hx
    have hequal : bareKeys.compareKeys () (t.bare.key es[path'.p 0]) = 0 := rfl
    obtain ⟨u, L', T', hrun', hcount, hchanged⟩ := deleteFromLeafNode_spec hplaced h rfl hpos hequal
    rw [deleteFromLeafNode_bare t path' type key] at hrun'
    obtain ⟨t', hrun'', rfl⟩ := Option.map_eq_some_iff.1 hrun'
    refine ⟨t', T'.elems, hrun'', .tree hchanged.toBuilt, ?_, hcount⟩
    have hlen := List.length_eraseIdx_of_lt hpos
    rw [hchanged.elems, hplaced.elems, List.length_append, List.length_append, hlen,
      List.length_append, List.length_append]
    omega

/-! ## The calls -/

theorem Counted.insert (h : Counted t) (hfind : bptreeFindEntry type t key path = some (x, path'))
    {e : Ptr} {f : Ptr → Entry K V} {c : Int}
    (hrun : Malloc.insertIntoLeafNode none { t with entry := f, brk := t.brk + 1 } path' e =
      some (c, t')) :
    Counted t' := by
  rw [Malloc.insertIntoLeafNode_granted] at hrun
  obtain ⟨t₁, hinsert, heq⟩ := Option.map_eq_some_iff.1 hrun
  obtain ⟨-, rfl⟩ := Prod.mk.inj heq
  obtain ⟨es, hfirm, hcount⟩ := h
  obtain ⟨t'', es', hrun', hfirm', hlen, hcount'⟩ := hfirm.insert hfind e f
  obtain rfl : t₁ = t'' := Option.some.inj (hinsert.symm.trans hrun')
  refine ⟨es', hfirm', ?_⟩
  rw [hcount', hcount, hlen, BitVec.ofNat_add]
  rfl

theorem Counted.addRaw (h : Counted t) {g : Malloc.Grants} (hg : g.nodes = none) {e : Ptr}
    (hrun : Malloc.bptreeAddRaw type g t key = some (e, t')) : Counted t' := by
  unfold Malloc.bptreeAddRaw at hrun
  obtain ⟨⟨x, path⟩, hfind, hrun⟩ := Option.bind_eq_some_iff.1 hrun
  dsimp only at hrun
  rw [hg] at hrun
  split_ifs at hrun with hx
  · obtain ⟨-, rfl⟩ := Prod.mk.inj (Option.some.inj hrun)
    exact h
  · obtain ⟨-, rfl⟩ := Prod.mk.inj (Option.some.inj hrun)
    exact h
  · obtain ⟨⟨c, t₁⟩, hinsert, hrun⟩ := Option.bind_eq_some_iff.1 hrun
    obtain ⟨-, rfl⟩ := Prod.mk.inj (Option.some.inj hrun)
    exact h.insert hfind hinsert

theorem Counted.op (h : Counted t) {g : Malloc.Grants} (hg : g.nodes = none) (o : Op K V)
    {res : Result} (hrun : Malloc.step type g t o = some (res, t')) : Counted t' := by
  cases o with
  | add key val =>
    obtain ⟨⟨c, t₁⟩, hcall, heq⟩ := Option.map_eq_some_iff.1 hrun
    obtain ⟨-, rfl⟩ := Prod.mk.inj heq
    obtain ⟨⟨e, t₂⟩, hraw, hcall⟩ := Option.bind_eq_some_iff.1 hcall
    have hcounted := h.addRaw hg hraw
    dsimp only at hcall
    split_ifs at hcall
    · obtain ⟨-, rfl⟩ := Prod.mk.inj (Option.some.inj hcall)
      exact hcounted
    · obtain ⟨-, rfl⟩ := Prod.mk.inj (Option.some.inj hcall)
      exact hcounted.congr rfl
  | addRaw key =>
    obtain ⟨⟨e, t₁⟩, hcall, heq⟩ := Option.map_eq_some_iff.1 hrun
    obtain ⟨-, rfl⟩ := Prod.mk.inj heq
    exact h.addRaw hg hcall
  | replace key val =>
    obtain ⟨⟨c, t₁⟩, hcall, heq⟩ := Option.map_eq_some_iff.1 hrun
    obtain ⟨-, rfl⟩ := Prod.mk.inj heq
    obtain ⟨⟨x, path⟩, hfind, hcall⟩ := Option.bind_eq_some_iff.1 hcall
    dsimp only at hcall
    rw [hg] at hcall
    split_ifs at hcall
    · obtain ⟨-, rfl⟩ := Prod.mk.inj (Option.some.inj hcall)
      exact h.congr rfl
    · obtain ⟨-, rfl⟩ := Prod.mk.inj (Option.some.inj hcall)
      exact h
    · obtain ⟨⟨c, t₂⟩, hinsert, hcall⟩ := Option.bind_eq_some_iff.1 hcall
      obtain ⟨-, rfl⟩ := Prod.mk.inj (Option.some.inj hcall)
      exact h.insert hfind hinsert
  | replaceRaw key =>
    obtain ⟨⟨e, t₁⟩, hcall, heq⟩ := Option.map_eq_some_iff.1 hrun
    obtain ⟨-, rfl⟩ := Prod.mk.inj heq
    obtain ⟨⟨x, path⟩, hfind, hcall⟩ := Option.bind_eq_some_iff.1 hcall
    dsimp only at hcall
    rw [hg] at hcall
    split_ifs at hcall
    · obtain ⟨-, rfl⟩ := Prod.mk.inj (Option.some.inj hcall)
      exact h
    · obtain ⟨-, rfl⟩ := Prod.mk.inj (Option.some.inj hcall)
      exact h
    · obtain ⟨⟨c, t₂⟩, hinsert, hcall⟩ := Option.bind_eq_some_iff.1 hcall
      obtain ⟨-, rfl⟩ := Prod.mk.inj (Option.some.inj hcall)
      exact h.insert hfind hinsert
  | delete key =>
    obtain ⟨⟨c, t₁⟩, hcall, heq⟩ := Option.map_eq_some_iff.1 hrun
    obtain ⟨-, rfl⟩ := Prod.mk.inj heq
    obtain ⟨⟨x, path⟩, hfind, hcall⟩ := Option.bind_eq_some_iff.1 hcall
    dsimp only at hcall
    split_ifs at hcall with hx
    · obtain ⟨-, rfl⟩ := Prod.mk.inj (Option.some.inj hcall)
      exact h
    · obtain ⟨t₂, hdelete, hcall⟩ := Option.bind_eq_some_iff.1 hcall
      obtain ⟨-, rfl⟩ := Prod.mk.inj (Option.some.inj hcall)
      obtain ⟨es, hfirm, hcount⟩ := h
      obtain ⟨t₃, es', hdelete', hfirm', hlen, hcount'⟩ := hfirm.delete hfind hx
      obtain rfl : t₂ = t₃ := Option.some.inj (hdelete.symm.trans hdelete')
      refine ⟨es', hfirm', ?_⟩
      rw [hcount', hcount, ← hlen, BitVec.ofNat_add]
      exact BitVec.add_sub_cancel _ _
  | find key =>
    obtain ⟨e, -, heq⟩ := Option.map_eq_some_iff.1 hrun
    obtain ⟨-, rfl⟩ := Prod.mk.inj heq
    exact h

end

/-! ## Tearing down and loading -/

section
variable {t t' s s' : Tree K V} {es : List Ptr} {e : Nat → Ptr} {nl nl' : Nat → Ptr × K}
  {r count : Nat} {p : Ptr}

theorem clearChildren_eq {clear : Tree K V → Ptr → Option (Tree K V)}
    (hclear : ∀ t p t', clear t p = some t' → t' = { t with node := t'.node }) {n i : Nat}
    (h : clearChildren clear p n i t = some t') : t' = { t with node := t'.node } := by
  induction n generalizing i t with
  | zero =>
    obtain rfl : t = t' := Option.some.inj h
    rfl
  | succ n ih =>
    obtain ⟨t₁, hrun, hrest⟩ := Option.bind_eq_some_iff.1 h
    rw [ih hrest, hclear _ _ _ hrun]
    rfl

/-- Only nodes are written. -/
theorem clearNode_eq (h : clearNode r t p = some t') : t' = { t with node := t'.node } := by
  induction r generalizing t p t' with
  | zero => cases h
  | succ r ih =>
    rw [clearNode] at h
    dsimp only at h
    by_cases h0 : p = 0
    · rw [if_pos h0] at h
      obtain rfl : t = t' := Option.some.inj h
      rfl
    rw [if_neg h0] at h
    by_cases hleaf : (t.node p).leaf = true
    · rw [if_pos hleaf] at h
      rw [← Option.some.inj h]
      rfl
    · rw [if_neg hleaf] at h
      exact clearChildren_eq (fun t p t' hrun => ih hrun) h

theorem clearChildren_bare {clear : Tree K V → Ptr → Option (Tree K V)}
    {clear' : Tree Unit Unit → Ptr → Option (Tree Unit Unit)}
    (hclear : ∀ t p, clear' t.bare p = (clear t p).map Tree.bare) (n i : Nat) (t : Tree K V) :
    clearChildren clear' p n i t.bare = (clearChildren clear p n i t).map Tree.bare := by
  induction n generalizing i t with
  | zero => rfl
  | succ n ih =>
    rw [clearChildren, clearChildren, hclear]
    show Option.bind ((clear t ((t.node p).children i)).map Tree.bare) _ = _
    cases clear t ((t.node p).children i) with
    | none => rfl
    | some t₁ =>
      refine Eq.trans ?_ (ih _ _)
      exact congrArg (clearChildren clear' p n (i + 1)) (setNode_bare rfl)

theorem clearNode_bare (r : Nat) (t : Tree K V) (p : Ptr) :
    clearNode r t.bare p = (clearNode r t p).map Tree.bare := by
  induction r generalizing t p with
  | zero => rfl
  | succ r ih =>
    rw [clearNode, clearNode]
    dsimp only
    by_cases h0 : p = 0
    · rw [if_pos h0, if_pos h0]
      rfl
    rw [if_neg h0, if_neg h0]
    by_cases hleaf : (t.node p).leaf = true
    · rw [if_pos hleaf, if_pos (show (t.bare.node p).leaf = true from hleaf)]
      exact congrArg some (setNode_bare rfl)
    · rw [if_neg hleaf, if_neg (show ¬ (t.bare.node p).leaf = true from hleaf)]
      exact clearChildren_bare ih _ _ _

/-- A bulk load of any entries. -/
theorem loaded_built (h : bptreeBulkLoad r t e count nl = some t') (hio : t.innerOrder = 32)
    (hlo : t.leafOrder = 64) (hbrk : 0 < t.brk) (hcount : count ≤ maxLoad) :
    ∃ L T, t'.count = BitVec.ofNat 64 T.elems.length ∧ Changed t t' [] L T
      (readEntries e 0 count) := by
  have h0 : 0 < count := by
    refine Nat.pos_of_ne_zero fun h0 => ?_
    rw [h0, bptreeBulkLoad_zero] at h
    cases h
  obtain ⟨L, T, hnum, hchanged⟩ := changed_of_bulkLoad h hio hlo hbrk h0 hcount
  refine ⟨L, T, ?_, hchanged⟩
  rw [hchanged.elems, readEntries, List.length_map, List.length_range']
  exact hnum

theorem Counted.bulkLoad (h : Counted t) (hcount : count ≤ maxLoad)
    (hrun : bptreeBulkLoad r t e count nl = some t') : Counted t' := by
  obtain ⟨es, hfirm, -⟩ := h
  obtain ⟨L, T, hnum, hchanged⟩ :=
    loaded_built hrun hfirm.innerOrder hfirm.leafOrder hfirm.brk_pos hcount
  exact ⟨T.elems, .tree hchanged.toBuilt.bare, hnum⟩

theorem Counted.empty (h : Counted t) (hrun : bptreeEmpty r t = some t') : Counted t' := by
  obtain ⟨es, hfirm, -⟩ := h
  obtain ⟨t₁, hclear, heq⟩ := Option.bind_eq_some_iff.1 hrun
  rw [← Option.some.inj heq, clearNode_eq hclear]
  exact ⟨[], .empty rfl rfl hfirm.innerOrder hfirm.leafOrder hfirm.brk_pos, rfl⟩

/-- Tearing the tree down leaves the other nodes as they are. -/
theorem Firm.clear (h : Firm t es) (hnode : ∀ p < t.brk, s.node p = t.node p)
    (hrun : clearNode r (t.withHeap s) t.root = some t') :
    ∀ p ≥ t.brk, t'.bare.node p = s.bare.node p := by
  intro p hp
  cases h with
  | empty root =>
    rw [root] at hrun
    cases r with
    | zero => cases hrun
    | succ r =>
      rw [clearNode, if_pos rfl] at hrun
      rw [← Option.some.inj hrun]
      rfl
  | @tree L T h =>
    have hnode' : ∀ p < t.bare.brk, s.bare.node p = t.bare.node p :=
      fun p hp => congrArg Node.bare (hnode p hp)
    have hentry : s.bare.entry = t.bare.entry := rfl
    obtain ⟨u, hclear, hwithin⟩ :=
      h.clear hentry hnode' (Nat.lt_of_lt_of_le (Nat.lt_succ_self L) (le_max_right r (L + 1)))
    have hbare := clearNode_bare (max r (L + 1)) (t.withHeap s) t.root
    rw [clearNode_mono hrun (le_max_left r (L + 1))] at hbare
    obtain rfl : u = t'.bare := Option.some.inj (hclear.symm.trans hbare)
    exact hwithin.node p fun hmem => absurd (h.bound p hmem).2 (not_lt.2 hp)

theorem Firm.splitLoad (h : Firm t es) {index : BitVec 64} (hindex : index.toNat ≤ maxLoad)
    (hrest : (t.count - index).toNat ≤ maxLoad)
    (hrun : splitLoad r t e index nl nl' = some (t', s')) : Counted t' ∧ Counted s' := by
  obtain ⟨s, t₁, hrun₁, hclear, hrun₂, rfl⟩ := splitLoad_cases hrun
  obtain ⟨L₁, T₁, hnum₁, hchanged₁⟩ := loaded_built hrun₁ rfl rfl h.brk_pos hrest
  have hbrk : t.brk ≤ s.brk := hchanged₁.brk
  have hheap := clearNode_eq hclear
  have hio : t₁.innerOrder = 32 := by
    rw [hheap]
    exact h.innerOrder
  have hlo : t₁.leafOrder = 64 := by
    rw [hheap]
    exact h.leafOrder
  have hbrk₁ : t₁.brk = s.brk := by
    rw [hheap]
    rfl
  obtain ⟨L₂, T₂, hnum₂, hchanged₂⟩ :=
    loaded_built hrun₂ hio hlo (h.brk_pos.trans_le (hbrk.trans_eq hbrk₁.symm)) hindex
  have hkept : ∀ p ∈ T₁.ptrs, t'.bare.node p = s.bare.node p := by
    intro p hp
    have hge : t.brk ≤ p := (hchanged₁.fresh p hp).resolve_left List.not_mem_nil
    have hlt : p < t₁.brk := (hchanged₁.bound p hp).2.trans_eq hbrk₁.symm
    have hnode : t'.bare.node p = t₁.bare.node p :=
      congrArg Node.bare (hchanged₂.node p hlt List.not_mem_nil)
    rw [hnode]
    exact h.clear (fun q hq => hchanged₁.node q hq List.not_mem_nil) hclear p hge
  have hsecond : Built (s.withHeap t').bare L₁ T₁ :=
    hchanged₁.toBuilt.bare.withHeap hkept rfl (hbrk₁.symm.trans_le hchanged₂.brk)
  exact ⟨⟨T₂.elems, .tree hchanged₂.toBuilt.bare, hnum₂⟩, T₁.elems, .tree hsecond, hnum₁⟩

end

/-! ## Every run -/

section
variable [DecidableEq K] {type : KeyType K V} {t t' mem : Tree K V}

theorem Counted.call (h : Counted t) {act : Act K V} (hact : act.Loadable type t)
    (hgranted : act.Granted) {r : Nat} (hrun : act.run type r t = some t') : Counted t' := by
  cases act with
  | op g o =>
    obtain ⟨⟨res, t₁⟩, hstep, rfl⟩ := Option.map_eq_some_iff.1 hrun
    exact h.op hgranted o hstep
  | empty => exact h.empty hrun
  | bulkLoad e count nextlevel => exact h.bulkLoad hact hrun
  | split splitKey entries nl nl' second =>
    obtain ⟨⟨t₁, s⟩, hsplit, heq⟩ := Option.map_eq_some_iff.1 hrun
    obtain ⟨⟨n, output⟩, -, hsplit⟩ := Option.bind_eq_some_iff.1 hsplit
    dsimp only at hsplit
    split_ifs at hsplit
    obtain ⟨index, hindex, hload⟩ := Option.bind_eq_some_iff.1 hsplit
    obtain ⟨es, hfirm, -⟩ := h
    obtain ⟨hfirst, hrest⟩ := hact r index hindex
    obtain ⟨hleft, hright⟩ := hfirm.splitLoad hfirst hrest hload
    rw [← heq]
    cases second with
    | false => exact hleft
    | true => exact hright

theorem Reachable.counted (hmem : 0 < mem.brk) (hcount : mem.count = 0) (h : Reachable type mem t) :
    Counted t := by
  induction h with
  | new => exact ⟨[], .empty rfl rfl rfl rfl hmem, hcount⟩
  | call act _ hact hgranted hrun ih => exact ih.call hact hgranted hrun

end

/-- **The count** is right in every state of the runs whose calls all meet the conditions exactly
when the memory of the new tree held 0. -/
theorem count_exact_iff [DecidableEq K] (type : KeyType K V) (mem : Tree K V) (hmem : 0 < mem.brk) :
    (∀ t, Reachable type mem t → CountExact t) ↔ mem.count = 0 := by
  constructor
  · intro h
    have hlists : Lists (bptreeCreate mem) [] := ⟨[], List.not_mem_nil, rfl, rfl⟩
    exact hlists.countExact_iff.1 (h _ .new)
  · intro hcount t ht
    exact (ht.counted hmem hcount).exact

theorem numbers_counted : 0 < (numbered 1).brk ∧ (numbered 1).count = 0 ∧
    ∀ t, Reachable numberKeys (numbered 1) t → CountExact t :=
  ⟨Nat.zero_lt_one, rfl, (count_exact_iff numberKeys (numbered 1) Nat.zero_lt_one).2 rfl⟩

/-- A new tree in a memory with something else. -/
theorem new_not_exact : ∃ t, Reachable numberKeys { numbered 1 with count := 5 } t ∧
    ¬ CountExact t := by
  refine ⟨_, .new, fun hexact => ?_⟩
  have hlists : Lists (bptreeCreate { numbered 1 with count := 5 }) [] :=
    ⟨[], List.not_mem_nil, rfl, rfl⟩
  exact absurd (hlists.countExact_iff.1 hexact) (by decide)

end Bptree
