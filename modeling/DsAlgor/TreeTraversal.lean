import DsAlgor.Class4.ConvertToList

/-!
# `tree_traversal.java`

A turn of the loop rotates the tree at `parent` to the right, so that `current` is above it; the
inorder stays what it was (`rotate_spec`). `traverse` starts at the left child of the root: a root
without one is not walked at all (`traverse_iff`).
-/

namespace TreeTraversal

open Pointers Class4

/-- The links between the two nodes are turned around. -/
def rotate (h : Heap) (current parent : Ptr) : Except Fault Heap := do
  if parent ≠ 0 then
    let h := { h with left := ← store h.left parent (← load h.right current) }
    return { h with right := ← store h.right current parent }
  else return h

/-- The nodes printed are added to `out`. -/
def traverseFrom : Nat → Heap → Ptr → Ptr → List Ptr → Except Fault (List Ptr × Heap)
  | 0, _, _, _, _ => .error .loop
  | fuel + 1, h, current, parent, out => do
    if current ≠ 0 then
      let h ← rotate h current parent
      if (← load h.left current) ≠ 0 then
        traverseFrom fuel h (← load h.left current) current out
      else
        traverseFrom fuel h (← load h.right current) 0 (out ++ [current])
    else return (out, h)

def traverse (fuel : Nat) (h : Heap) (root : Ptr) : Except Fault (List Ptr × Heap) := do
  traverseFrom fuel h (← load h.left root) root []

/-! ## One turn -/

/-- `t` is still to be walked. It is the tree at `parent`, or the one at `current` if there is no
`parent`. -/
inductive Pending (h : Heap) : Ptr → Ptr → BinaryTree Ptr → Prop
  | free {current : Ptr} {t : BinaryTree Ptr} : Stored h current t → Pending h current 0 t
  | below {c p : Ptr} {a b d : BinaryTree Ptr} :
      Stored h p (.node p (.node c a b) d) → Pending h c p (.node p (.node c a b) d)

/-- A rotation takes one node off the left. -/
def weight : BinaryTree Ptr → Nat
  | .nil => 0
  | .node _ l r => 2 * l.numNodes + 1 + weight r

section
variable {h : Heap} {current parent : Ptr} {t : BinaryTree Ptr}

/-- How many turns there are at most. -/
def turns (parent : Ptr) (t : BinaryTree Ptr) : Nat := 2 * weight t + if parent = 0 then 1 else 0

theorem rotate_below {c p : Ptr} {a b d : BinaryTree Ptr}
    (hst : Stored h p (.node p (.node c a b) d))
    (hnd : (BinaryTree.node p (.node c a b) d).preorder.Nodup) :
    ∃ h', rotate h c p = .ok h' ∧ Stored h' c (.node c a (.node p b d)) := by
  obtain ⟨-, hp, ⟨hc, hc0, ha, hb⟩, hd⟩ := hst
  simp only [BinaryTree.preorder, List.cons_append, List.append_assoc, List.nodup_cons,
    List.mem_cons, List.mem_append, not_or] at hnd
  obtain ⟨⟨hpc, hpa, hpb, hpd⟩, ⟨hca, hcb, hcd⟩, -⟩ := hnd
  refine ⟨⟨Function.update h.left p (h.right c), Function.update h.right c p⟩, ?_, ?_⟩
  · simp [rotate, hp, hc0, load_ok, store_ok, bind, Except.bind, pure, Except.pure]
  · have hframe : Frame h ⟨Function.update h.left p (h.right c), Function.update h.right c p⟩
        [p, c] := by
      refine ⟨fun q hq => ?_, fun q hq => ?_⟩
      · exact Function.update_of_ne (List.ne_of_not_mem_cons hq) _ _
      · exact Function.update_of_ne
          (List.ne_of_not_mem_cons (List.not_mem_of_not_mem_cons hq)) _ _
    have hout : ∀ {s : BinaryTree Ptr}, p ∉ s.preorder → c ∉ s.preorder →
        ∀ q ∈ s.preorder, q ∉ [p, c] := by
      intro s hps hcs q hq hmem
      simp only [List.mem_cons, List.not_mem_nil, or_false] at hmem
      cases hmem with
      | inl heq => exact hps (heq ▸ hq)
      | inr heq => exact hcs (heq ▸ hq)
    refine ⟨rfl, hc0, ?_, ?_⟩
    · simpa [Ne.symm hpc] using ha.frame hframe (hout hpa hca)
    · refine ⟨by simp, hp, ?_, ?_⟩
      · simpa using hb.frame hframe (hout hpb hcb)
      · simpa [hpc] using hd.frame hframe (hout hpd hcd)

/-- After the rotation what is still to be walked is the tree at `current`. -/
theorem rotate_spec (hpend : Pending h current parent t) (hnd : t.preorder.Nodup)
    (hcur : current ≠ 0) : ∃ h' l r, rotate h current parent = .ok h' ∧
      Stored h' current (.node current l r) ∧
      t.inorder = (BinaryTree.node current l r).inorder ∧
      2 * weight (.node current l r) < turns parent t := by
  cases hpend with
  | free hst =>
    cases t with
    | nil => exact absurd hst hcur
    | node a l r =>
      obtain ⟨rfl, _⟩ := id hst
      exact ⟨h, l, r, rfl, hst, rfl, by simp [turns]⟩
  | below hst =>
    obtain ⟨h', hrun, hst'⟩ := rotate_below hst hnd
    refine ⟨h', _, _, hrun, hst', ?_, ?_⟩
    · simp [BinaryTree.inorder]
    · simp only [turns, weight, BinaryTree.numNodes]
      omega

/-! ## The loop -/

variable (out : List Ptr) {h₁ : Heap} {l r : BinaryTree Ptr} {fuel : Nat}

/-- Nothing is on the left: `current` is printed. -/
theorem traverseFrom_print (hrot : rotate h current parent = .ok h₁)
    (hst : Stored h₁ current (.node current .nil r)) :
    traverseFrom (fuel + 1) h current parent out =
      traverseFrom fuel h₁ (h₁.right current) 0 (out ++ [current]) := by
  obtain ⟨-, hcur, hl, -⟩ := hst
  have hl0 : h₁.left current = 0 := hl
  simp [traverseFrom, hcur, hrot, hl0, load_ok, bind, Except.bind]

theorem traverseFrom_descend {c : Ptr} {a b : BinaryTree Ptr}
    (hrot : rotate h current parent = .ok h₁)
    (hst : Stored h₁ current (.node current (.node c a b) r)) :
    traverseFrom (fuel + 1) h current parent out = traverseFrom fuel h₁ c current out := by
  obtain ⟨-, hcur, ⟨hl, hc, -⟩, -⟩ := hst
  simp [traverseFrom, hcur, hrot, hl, hc, load_ok, bind, Except.bind]

theorem traverseFrom_halts (hpend : Pending h current parent t) (hnd : t.preorder.Nodup) :
    ∃ h', Halts (fun fuel => traverseFrom fuel h current parent out)
      (.ok (out ++ t.inorder, h')) := by
  induction hn : turns parent t using Nat.strong_induction_on
    generalizing h current parent t out with
  | _ n ih =>
    subst hn
    by_cases hcur : current = 0
    · cases hpend with
      | below hst => exact absurd hcur hst.2.2.1.2.1
      | free hst =>
        cases t with
        | node a l r => exact absurd (hst.1.symm.trans hcur) hst.2.1
        | nil =>
          refine ⟨h, .succ ?_⟩
          simpa [traverseFrom, hcur, BinaryTree.inorder] using .const _
    · obtain ⟨h₁, l, r, hrot, hst, hsame, hless⟩ := rotate_spec hpend hnd hcur
      have hnd₁ : (BinaryTree.node current l r).preorder.Nodup := by
        rw [← (BinaryTree.inorder_perm _).nodup_iff, ← hsame]
        exact (BinaryTree.inorder_perm t).nodup_iff.2 hnd
      cases l with
      | nil =>
        have hndr : r.preorder.Nodup := (List.nodup_cons.1 hnd₁).2
        have hless' : turns 0 r < turns parent t := by
          simp only [weight, BinaryTree.numNodes] at hless
          simp only [turns, if_true] at hless ⊢
          omega
        obtain ⟨h', hrun⟩ := ih _ hless' (out ++ [current]) (.free hst.2.2.2) hndr rfl
        refine ⟨h', .succ ?_⟩
        simp only [traverseFrom_print _ hrot hst, hsame]
        simpa [BinaryTree.inorder] using hrun
      | node c a b =>
        have hless' : turns current (.node current (.node c a b) r) < turns parent t := by
          simpa [turns, hcur] using hless
        obtain ⟨h', hrun⟩ := ih _ hless' out (.below hst) hnd₁ rfl
        refine ⟨h', .succ ?_⟩
        simpa only [traverseFrom_descend _ hrot hst, hsame] using hrun

end

/-! ## `traverse` -/

section
variable {h : Heap} {root : Ptr} {t : BinaryTree Ptr}

/-- The nodes of `t` are printed in inorder. -/
def InOrder (h : Heap) (root : Ptr) (t : BinaryTree Ptr) : Prop :=
  ∃ h', Halts (fun fuel => traverse fuel h root) (.ok (t.inorder, h'))

theorem traverse_unrooted (hroot : root ≠ 0) (hleft : h.left root = 0) :
    Halts (fun fuel => traverse fuel h root) (.ok ([], h)) := by
  refine .succ ?_
  simpa [traverse, traverseFrom, load_ok hroot, hleft, bind, Except.bind] using .const _

/-- **The traversal** goes through the tree if the root has a left child. -/
theorem traverse_iff (hst : Stored h root t) (hnd : t.preorder.Nodup) (hroot : root ≠ 0) :
    InOrder h root t ↔ h.left root ≠ 0 := by
  cases t with
  | nil => exact absurd hst hroot
  | node a l r =>
    obtain ⟨rfl, _⟩ := id hst
    constructor
    · rintro ⟨h', hrun⟩ hleft
      have hsame := Except.ok.inj (hrun.unique (traverse_unrooted hroot hleft))
      have hempty : (BinaryTree.node root l r).inorder = [] := congrArg Prod.fst hsame
      simp [BinaryTree.inorder] at hempty
    · intro hleft
      cases l with
      | nil => exact absurd hst.2.2.1 hleft
      | node c a b =>
        obtain ⟨h', hrun⟩ := traverseFrom_halts [] (.below hst) hnd
        refine ⟨h', ?_⟩
        simpa [traverse, load_ok hroot, hst.2.2.1.1, bind, Except.bind] using hrun

end

/-- Node 2 with 1 on the left and 3 on the right. -/
def threeNodes : Heap where
  left q := if q = 2 then 1 else 0
  right q := if q = 2 then 3 else 0

theorem traverse_threeNodes :
    InOrder threeNodes 2 (.node 2 (.node 1 .nil .nil) (.node 3 .nil .nil)) :=
  (traverse_iff (by simp [Stored, threeNodes]) (by decide) (by decide)).2 (by decide)

/-- A root without children is not printed. -/
theorem traverse_misses : ∃ (h : Heap) (root : Ptr) (t : BinaryTree Ptr),
    Stored h root t ∧ t.preorder.Nodup ∧ root ≠ 0 ∧ ¬ InOrder h root t := by
  refine ⟨⟨fun _ => 0, fun _ => 0⟩, 1, .node 1 .nil .nil, by simp [Stored], by decide, by decide,
    ?_⟩
  rintro ⟨h', hrun⟩
  have hsame := hrun.unique (traverse_unrooted (by decide) rfl)
  exact List.cons_ne_nil 1 [] (congrArg Prod.fst (Except.ok.inj hsame))

end TreeTraversal
