import DsAlgor.Bptree.Query
import DsAlgor.Bptree.Separators

/-!
# Scanning with a cursor

`bptreeScan` passes one entry to the callback and returns a cursor, the number of the leaf and a
position in it, with which the next call goes on; the cursor 0 is the beginning and the end. Both
numbers have 32 bits. In a tree of more than `2 ^ 32` leaves the number of the leaf wraps around,
and the scan goes on in the first leaf, without end. In all other trees it passes every entry once,
in order (`scan_right_iff`).
-/

namespace Bptree

open CArray

variable {K V α : Type}

/-- `struct scanObject`, the cursor. -/
structure ScanObject where
  pos : BitVec 32
  node : BitVec 32
  deriving DecidableEq

section
variable (t : Tree K V)

/-- `while(node && i < s->node)`, with so many rounds to come. -/
def scanNode : Nat → Ptr → Ptr
  | 0, node => node
  | r + 1, node => if node = 0 then node else scanNode r (t.node node).next

/-- `fn(privdata, entries[s->pos]); ++s->pos`. -/
def scanEntry (node : Ptr) (s : ScanObject) : Option Ptr × ScanObject :=
  (some ((t.node node).entries s.pos.toNat), { s with pos := s.pos + 1 })

/-- `bptreeScan`: the entry that the callback gets, and the new cursor. -/
def bptreeScan (s : ScanObject) : Option Ptr × ScanObject :=
  let node := scanNode t s.node.toNat t.min
  if node = 0 then (none, ⟨0, 0⟩)
  else if s.pos.toNat ≥ (t.node node).count then
    if (t.node node).next = 0 then (none, ⟨0, 0⟩)
    else scanEntry t (t.node node).next { pos := 0, node := s.node + 1 }
  else scanEntry t node s

/-- Calls, until the cursor is 0: the entries and the number of calls; `none` if this does not
happen in so many calls. -/
def scanAll : Nat → ScanObject → Option (List Ptr × Nat)
  | 0, _ => none
  | r + 1, s =>
    let (e, s') := bptreeScan t s
    if s' = ⟨0, 0⟩ then some (e.toList, 1) else (scanAll r s').map fun (es, calls) =>
      (e.toList ++ es, calls + 1)

/-- From the cursor 0, one call more than there are entries passes all of them, in ascending
order. -/
def ScanRight [LinearOrder α] (rank : K → α) : Prop :=
  ∃ es r, scanAll t r ⟨0, 0⟩ = some (es, es.length + 1) ∧ Lists t es ∧ Ascending rank t es

end

section
variable {t : Tree K V} {p : Ptr} {ls A B : List (Ptr × List Ptr)} {x : Ptr × List Ptr}
  {s : ScanObject}

theorem scanNode_eq (h : Linked t p ls) (n : Nat) :
    scanNode t n p = ((ls.map Prod.fst)[n]?).getD 0 := by
  induction n generalizing p ls with
  | zero =>
    cases ls with
    | nil => exact h.chain
    | cons x ls => exact h.chain.1
  | succ n ih =>
    cases ls with
    | nil =>
      have hp : p = 0 := h.chain
      rw [scanNode, if_pos hp, hp]
      rfl
    | cons x ls =>
      obtain ⟨rfl, hls⟩ := h.cons
      rw [scanNode, if_neg (h.pos x List.mem_cons_self), ih hls]
      rfl

theorem Linked.next (h : Linked t p (A ++ x :: B)) :
    (t.node x.1).next = ((B.map Prod.fst).head?).getD 0 := by
  have hchain := h.chain
  rw [List.map_append, Chain.append] at hchain
  obtain ⟨q, -, -, hchain⟩ := hchain
  cases B with
  | nil => exact hchain
  | cons y B => exact hchain.1

/-- The call finds the leaf of the cursor. -/
theorem scanNode_mid (h : Linked t p (A ++ x :: B)) : scanNode t A.length p = x.1 := by
  rw [scanNode_eq h, List.map_append, List.getElem?_append_right (by simp)]
  simp

/-- A call in the middle of a leaf. -/
theorem bptreeScan_inside {K₁ K₂ : List Ptr} {e : Ptr} (h : Linked t t.min (A ++ x :: B))
    (hnode : s.node.toNat = A.length) (hpos : s.pos.toNat = K₁.length) (hx : x.2 = K₁ ++ e :: K₂) :
    bptreeScan t s = (some e, { s with pos := s.pos + 1 }) := by
  have hmem : x ∈ A ++ x :: B := by simp
  have hentries := h.entries x hmem
  have hcount : ¬ s.pos.toNat ≥ (t.node x.1).count := by
    rw [hentries.count, hx, hpos, List.length_append, List.length_cons]
    omega
  have hget : (t.node x.1).entries s.pos.toNat = e := by
    apply hentries.entry.get
    rw [hx, hpos]
    simp
  unfold bptreeScan
  dsimp only
  rw [hnode, scanNode_mid h, if_neg (h.pos x hmem), if_neg hcount, scanEntry, hget]

/-- A call at the end of a leaf goes on to the first entry of the next one. -/
theorem bptreeScan_next {y : Ptr × List Ptr} {e : Ptr} {K₂ : List Ptr}
    (h : Linked t t.min (A ++ x :: y :: B)) (hnode : s.node.toNat = A.length)
    (hpos : s.pos.toNat ≥ x.2.length) (hy : y.2 = e :: K₂) :
    bptreeScan t s = (some e, { pos := 1, node := s.node + 1 }) := by
  have hx : x ∈ A ++ x :: y :: B := by simp
  have hmem : y ∈ A ++ x :: y :: B := by simp
  have hnext : (t.node x.1).next = y.1 := h.next
  have hget : (t.node y.1).entries 0 = e := by
    apply (h.entries y hmem).entry.get
    rw [hy]
    rfl
  unfold bptreeScan
  dsimp only
  rw [hnode, scanNode_mid h, if_neg (h.pos x hx), (h.entries x hx).count, if_pos hpos, hnext,
    if_neg (h.pos y hmem), scanEntry]
  exact congrArg (fun e => (some e, _)) hget

/-- A call at the end of the last leaf. -/
theorem bptreeScan_end (h : Linked t t.min (A ++ [x])) (hnode : s.node.toNat = A.length)
    (hpos : s.pos.toNat ≥ x.2.length) :
    bptreeScan t s = (none, ⟨0, 0⟩) := by
  have hx : x ∈ A ++ [x] := by simp
  have hnext : (t.node x.1).next = 0 := h.next
  unfold bptreeScan
  dsimp only
  rw [hnode, scanNode_mid h, if_neg (h.pos x hx), (h.entries x hx).count, if_pos hpos, if_pos hnext]

end

/-! ## Whole scans -/

section
variable {t : Tree K V} {ls A B : List (Ptr × List Ptr)} {x : Ptr × List Ptr}
  {s s' : ScanObject} {e : Ptr}

theorem Leaves.two_le {y : Ptr × List Ptr} (h : Leaves t (A ++ x :: y :: B)) :
    ∀ z ∈ A ++ x :: y :: B, 32 ≤ z.2.length := by
  apply h.least
  simp only [List.length_append, List.length_cons]
  omega

/-- `++` on a number of 32 bits. -/
theorem toNat_succ {a : BitVec 32} {n : Nat} (h : a.toNat = n) (hn : n + 1 < 2 ^ 32) :
    (a + 1).toNat = n + 1 := by
  rw [BitVec.toNat_add, h]
  exact Nat.mod_eq_of_lt hn

theorem scanAll_step {r : Nat} {es : List Ptr} {calls : Nat} (hcall : bptreeScan t s = (some e, s'))
    (hs' : s' ≠ ⟨0, 0⟩) (hrest : scanAll t r s' = some (es, calls)) :
    scanAll t (r + 1) s = some (e :: es, calls + 1) := by
  rw [scanAll, hcall]
  dsimp only
  rw [if_neg hs', hrest]
  rfl

/-- From a cursor in the tree on, where there are not too many leaves. -/
theorem scanAll_spec {K₁ K₂ : List Ptr} (h : Leaves t (A ++ x :: B))
    (hlen : (A ++ x :: B).length ≤ 2 ^ 32) (hnode : s.node.toNat = A.length)
    (hpos : s.pos.toNat = K₁.length) (hx : x.2 = K₁ ++ K₂) :
    scanAll t ((K₂ ++ B.flatMap Prod.snd).length + 1) s =
      some (K₂ ++ B.flatMap Prod.snd, (K₂ ++ B.flatMap Prod.snd).length + 1) := by
  have hmost : x.2.length ≤ 63 := h.most x (by simp)
  rw [List.length_append, List.length_cons] at hlen
  -- on the entries that are still to come
  induction hn : (K₂ ++ B.flatMap Prod.snd).length generalizing A x B K₁ K₂ s with
  | zero =>
    obtain ⟨rfl, hB⟩ := List.append_eq_nil_iff.1 (List.length_eq_zero_iff.1 hn)
    rw [List.append_nil] at hx
    obtain rfl : B = [] := by
      cases B with
      | nil => rfl
      | cons y B =>
        have hy : 32 ≤ y.2.length := h.two_le y (by simp)
        rw [List.flatMap_cons] at hB
        rw [(List.append_eq_nil_iff.1 hB).1] at hy
        exact absurd hy (by norm_num)
    have hcall := bptreeScan_end h.toLinked hnode (by rw [hx, hpos])
    rw [scanAll, hcall]
    rfl
  | succ n ih =>
    cases K₂ with
    | cons e K₂ =>
      have hcall := bptreeScan_inside h.toLinked hnode hpos hx
      have hlt : K₁.length < 63 := by
        rw [hx, List.length_append, List.length_cons] at hmost
        omega
      have hnat : (s.pos + 1).toNat = (K₁ ++ [e]).length := by
        rw [List.length_append, List.length_singleton]
        exact toNat_succ hpos (by omega)
      rw [List.cons_append, List.length_cons, Nat.add_right_cancel_iff] at hn
      refine scanAll_step hcall ?_ ?_
      · intro hzero
        rw [(ScanObject.mk.inj hzero).1] at hnat
        rw [List.length_append, List.length_singleton] at hnat
        exact absurd hnat (Nat.succ_ne_zero _).symm
      · apply @ih A B x { s with pos := s.pos + 1 } (K₁ ++ [e]) K₂ h hlen hnode hnat _ hmost hn
        rw [hx, List.append_assoc]
        rfl
    | nil =>
      cases B with
      | nil => cases hn
      | cons y B =>
        have hy : 32 ≤ y.2.length := h.two_le y (by simp)
        obtain ⟨e, K, hyK⟩ := List.exists_cons_of_length_pos (lt_of_lt_of_le (by norm_num) hy)
        rw [List.append_nil] at hx
        have hcall := bptreeScan_next h.toLinked hnode (by rw [hx, hpos]) hyK
        have hnat : (s.node + 1).toNat = (A ++ [x]).length := by
          rw [List.length_append, List.length_singleton]
          rw [List.length_cons] at hlen
          exact toNat_succ hnode (by omega)
        rw [List.nil_append, List.flatMap_cons, hyK, List.cons_append] at hn ⊢
        rw [List.length_cons, Nat.add_right_cancel_iff] at hn
        refine scanAll_step hcall ?_ ?_
        · intro hzero
          exact absurd (ScanObject.mk.inj hzero).1 (by decide)
        · have hleaves : Leaves t ((A ++ [x]) ++ y :: B) := by
            rw [List.append_assoc]
            exact h
          apply @ih (A ++ [x]) B y { pos := 1, node := s.node + 1 } [e] K hleaves _ hnat rfl hyK
            (h.most y (by simp)) hn
          rw [List.length_cons] at hlen
          rw [List.length_append, List.length_singleton]
          omega

/-- With too many leaves there is no end, whatever the cursor. -/
theorem scanAll_none (h : Leaves t ls) (hlen : 2 ^ 32 < ls.length) (r : Nat) (s : ScanObject) :
    scanAll t r s = none := by
  induction r generalizing s with
  | zero => rfl
  | succ r ih =>
    have hlt : s.node.toNat + 1 < ls.length := by
      have := s.node.isLt
      omega
    -- the leaf of the cursor and the next one
    obtain ⟨A, x, y, B, rfl, hA⟩ : ∃ A x y B, ls = A ++ x :: y :: B ∧ A.length = s.node.toNat := by
      refine ⟨ls.take s.node.toNat, ls[s.node.toNat], ls[s.node.toNat + 1],
        ls.drop (s.node.toNat + 2), ?_, ?_⟩
      · rw [← List.drop_eq_getElem_cons hlt, ← List.drop_eq_getElem_cons (Nat.lt_of_succ_lt hlt),
          List.take_append_drop]
      · exact List.length_take_of_le (by omega)
    obtain ⟨e, s', hcall, hs'⟩ : ∃ e s', bptreeScan t s = (some e, s') ∧ s' ≠ ⟨0, 0⟩ := by
      by_cases hpos : s.pos.toNat < x.2.length
      · have hsplit : x.2 = x.2.take s.pos.toNat ++ x.2[s.pos.toNat] :: x.2.drop
          (s.pos.toNat + 1) := by
          rw [← List.drop_eq_getElem_cons hpos, List.take_append_drop]
        refine ⟨_, _, bptreeScan_inside h.toLinked hA.symm (List.length_take_of_le hpos.le).symm
          hsplit, fun hzero => ?_⟩
        have hmost := h.most x (by simp)
        have hnat : (s.pos + 1).toNat = s.pos.toNat + 1 := toNat_succ rfl (by omega)
        rw [(ScanObject.mk.inj hzero).1] at hnat
        exact absurd hnat (Nat.succ_ne_zero _).symm
      · have hy : 32 ≤ y.2.length := h.two_le y (by simp)
        obtain ⟨e, K, hyK⟩ := List.exists_cons_of_length_pos (lt_of_lt_of_le (by norm_num) hy)
        refine ⟨e, _, bptreeScan_next h.toLinked hA.symm (not_lt.1 hpos) hyK, fun hzero => ?_⟩
        exact absurd (ScanObject.mk.inj hzero).1 (by decide)
    rw [scanAll, hcall]
    dsimp only
    rw [if_neg hs', ih s']
    rfl

variable [LinearOrder α] {rank : K → α} {es : List Ptr}

theorem Stands.scan_iff (h : Stands rank t es) (hls : Leaves t ls)
    (hes : ls.flatMap Prod.snd = es) :
    ScanRight t rank ↔ ls.length ≤ 2 ^ 32 := by
  constructor
  · rintro ⟨es, r, hrun, -, -⟩
    by_contra hlen
    rw [scanAll_none hls (not_le.1 hlen)] at hrun
    cases hrun
  · intro hlen
    refine ⟨es, es.length + 1, ?_, h.lists, h.ascending⟩
    rw [← hes]
    cases ls with
    | nil =>
      have hmin : t.min = 0 := hls.chain
      rw [scanAll, show bptreeScan t ⟨0, 0⟩ = (none, ⟨0, 0⟩) from if_pos hmin]
      rfl
    | cons x B =>
      have hleaves : Leaves t ([] ++ x :: B) := hls
      exact scanAll_spec hleaves hlen rfl rfl (List.nil_append x.2).symm

/-- **Scanning** passes every entry exactly once, in order, exactly when the number of leaves fits
the cursor. -/
theorem scan_right_iff (rank : K → α) (t : Tree K V) (es : List Ptr) (h : Stands rank t es) :
    ∃ ls, Leaves t ls ∧ ls.flatMap Prod.snd = es ∧ (ScanRight t rank ↔ ls.length ≤ 2 ^ 32) := by
  obtain ⟨ls, hls, hes⟩ := h.leaves
  exact ⟨ls, hls, hes, h.scan_iff hls hes⟩

end

/-! ## Trees of every size -/

section
variable [DecidableEq K] {type : KeyType K V} {t t' : Tree K V}

theorem runOps_concat {ops : List (Op K V)} {op : Op K V} {r : Result} {t'' : Tree K V}
    (h : runOps type t ops = some t') (hop : op.step type t' = some (r, t'')) :
    runOps type t (ops ++ [op]) = some t'' := by
  induction ops generalizing t with
  | nil =>
    rw [runOps, Option.some.injEq] at h
    rw [List.nil_append, runOps, h, hop]
    rfl
  | cons o ops ih =>
    rw [runOps] at h
    obtain ⟨x, hx, h⟩ := Option.bind_eq_some_iff.1 h
    rw [List.cons_append, runOps, hx]
    exact ih h

end

/-- The entries of a map of the numbers below `n`. -/
theorem Entered.length {t : Tree Nat Nat} {es : List Ptr} {m : Nat → Option (Ptr × Nat)} {n : Nat}
    (h : Entered id t es m) (hasc : Ascending id t es) (hm : ∀ a, m a ≠ none ↔ a < n) :
    es.length = n := by
  have hperm : (es.map t.key).Perm (List.range n) := by
    refine (List.perm_ext_iff_of_nodup ?_ List.nodup_range).2 fun a => ?_
    · exact List.pairwise_map.2 (hasc.imp fun hlt => ne_of_lt hlt)
    · rw [List.mem_range, ← hm a, List.mem_map]
      constructor
      · rintro ⟨e, he, rfl⟩ hnone
        have hsome := h.present he (show id (t.key e) = t.key e from rfl)
        rw [hnone] at hsome
        cases hsome
      · intro hsome
        obtain ⟨x, hx⟩ := Option.ne_none_iff_exists'.1 hsome
        obtain ⟨he, hkey, -⟩ := (h a x.1 x.2).1 hx
        exact ⟨x.1, he, hkey⟩
  rw [← List.length_range (n := n), ← hperm.length_eq, List.length_map]

/-- The numbers below `n`, added to a new tree. -/
theorem numbers_added (n : Nat) : ∃ ops t es, runOps numberKeys
    (bptreeCreate (numbered 1)) ops = some t ∧ Stands id t es ∧ es.length = n := by
  have hall : ∃ ops t es m, runOps numberKeys (bptreeCreate (numbered 1)) ops = some t ∧
    Stands id t es ∧ Entered id t es m ∧ ∀ a, m a ≠ none ↔ a < n := by
    induction n with
    | zero =>
      refine ⟨[], _, [], fun _ => none, rfl, stands_create id Nat.zero_lt_one, fun a e v => ?_,
        fun a => by simp⟩
      exact ⟨fun hno => (nomatch hno), fun he => (nomatch he.1)⟩
    | succ n ih =>
      obtain ⟨ops, t, es, m, hrun, hstands, hm, hn⟩ := ih
      have hnone : m n = none := by
        by_contra hsome
        exact lt_irrefl n ((hn n).1 hsome)
      obtain ⟨c, t', es', m', hadd, hspec, hstands', hm'⟩ := hstands.add numberKeys_order hm n 0
      obtain ⟨-, e, brk, -, rfl⟩ := hspec.1 hnone
      refine ⟨ops ++ [.add n 0], t', es', _, runOps_concat hrun (by rw [Op.step, hadd]; rfl),
        hstands', hm', fun a => ?_⟩
      rcases eq_or_ne a n with rfl | hne
      · simp [Function.update_self]
      · rw [show id n = n from rfl, Function.update_of_ne hne, hn]
        omega
  obtain ⟨ops, t, es, m, hrun, hstands, hm, hn⟩ := hall
  exact ⟨ops, t, es, hrun, hstands, hm.length hstands.ascending hn⟩

theorem hundred_scanned : ∃ ops t es, runOps numberKeys (bptreeCreate (numbered 1)) ops = some t ∧
    es.length = 100 ∧ Stands id t es ∧ ∃ ls, Leaves t ls ∧ ls.flatMap Prod.snd = es ∧
      (ScanRight t id ↔ ls.length ≤ 2 ^ 32) := by
  obtain ⟨ops, t, es, hrun, hstands, hlen⟩ := numbers_added 100
  exact ⟨ops, t, es, hrun, hlen, hstands, scan_right_iff id t es hstands⟩

/-- In a tree of `2 ^ 38` entries there are too many leaves. -/
theorem scan_endless : ∃ ops t es, runOps numberKeys (bptreeCreate (numbered 1)) ops = some t ∧
    Stands id t es ∧ ¬ ScanRight t id := by
  obtain ⟨ops, t, es, hrun, hstands, hlen⟩ := numbers_added (2 ^ 38)
  obtain ⟨ls, hls, hes⟩ := hstands.leaves
  refine ⟨ops, t, es, hrun, hstands, ?_⟩
  rw [hstands.scan_iff hls hes, not_le]
  have hle : (ls.flatMap Prod.snd).length ≤ ls.length * 63 := by
    rw [List.length_flatMap]
    have hsum := List.sum_le_card_nsmul (ls.map fun x => x.2.length) 63 (by
      intro c hc
      obtain ⟨x, hx, rfl⟩ := List.mem_map.1 hc
      exact hls.most x hx)
    rw [List.length_map, smul_eq_mul] at hsum
    exact hsum
  rw [hes, hlen] at hle
  omega

end Bptree
