import DsAlgor.Lib.LevelOrder

/-!
# `lca.c`

The labels of a tree are its nodes, each of which is in the tree once, and `nil` is `NULL`. The two
functions are the same for nodes of the tree (`lowestCommonAncestor_eq`), and what they return is
the deepest node above both (`commonAncestor_lowest`).
-/

namespace BinaryTree

variable {α : Type*}

/-- `p` is in the subtree of the node `a`. -/
def Above : BinaryTree α → α → α → Prop
  | nil, _, _ => False
  | node b l r, a, p => a = b ∧ p ∈ (node b l r).preorder ∨ l.Above a p ∨ r.Above a p

/-- `a` is the deepest node that has `p` and `q` in its subtree. -/
structure Lowest (t : BinaryTree α) (p q a : α) : Prop where
  left : t.Above a p
  right : t.Above a q
  deepest : ∀ b, t.Above b p → t.Above b q → b ≠ a →
    ∀ m n, b ∈ t.level m → a ∈ t.level n → m < n

section
variable {t l r : BinaryTree α} {a b p q : α}

theorem Above.mem (h : t.Above a p) : a ∈ t.preorder ∧ p ∈ t.preorder := by
  induction t with
  | nil => exact h.elim
  | node b l r ihl ihr =>
    obtain ⟨rfl, hp⟩ | h | h := h
    · exact ⟨List.mem_cons_self, hp⟩
    · exact ⟨List.mem_cons_of_mem _ (List.mem_append_left _ (ihl h).1),
        List.mem_cons_of_mem _ (List.mem_append_left _ (ihl h).2)⟩
    · exact ⟨List.mem_cons_of_mem _ (List.mem_append_right _ (ihr h).1),
        List.mem_cons_of_mem _ (List.mem_append_right _ (ihr h).2)⟩

/-- `s` is one of the two subtrees of `t`, whose root is `b`. -/
structure Branch (t : BinaryTree α) (b : α) (s : BinaryTree α) : Prop where
  up : ∀ {c x}, s.Above c x → t.Above c x
  down : ∀ {c x}, x ∈ s.preorder → t.Above c x → c ≠ b → s.Above c x
  root : ∀ {n}, b ∈ t.level n → n = 0
  level : ∀ {c n}, c ∈ s.preorder → c ∈ t.level n → ∃ m, n = m + 1 ∧ c ∈ s.level m

theorem Apart.branch_left (h : Apart b l r) : Branch (node b l r) b l where
  up h := .inr (.inl h)
  down hx hc hcb := by
    refine (hc.resolve_left fun hroot => hcb hroot.1).resolve_right fun hr => ?_
    exact h.sides _ hx hr.mem.2
  root := h.level_zero
  level {c n} hc hn := by
    cases n with
    | zero => exact absurd (List.mem_singleton.1 hn ▸ hc) h.root_left
    | succ m =>
      refine ⟨m, rfl, (List.mem_append.1 hn).resolve_right fun hr => ?_⟩
      exact h.sides c hc (mem_preorder_of_level hr)

theorem Apart.branch_right (h : Apart b l r) : Branch (node b l r) b r where
  up h := .inr (.inr h)
  down hx hc hcb := by
    refine (hc.resolve_left fun hroot => hcb hroot.1).resolve_left fun hl => ?_
    exact h.sides _ hl.mem.2 hx
  root := h.level_zero
  level {c n} hc hn := by
    cases n with
    | zero => exact absurd (List.mem_singleton.1 hn ▸ hc) h.root_right
    | succ m =>
      refine ⟨m, rfl, (List.mem_append.1 hn).resolve_left fun hl => ?_⟩
      exact h.sides c (mem_preorder_of_level hl) hc

theorem Lowest.of_branch {s : BinaryTree α} (h : Branch t b s) (hs : s.Lowest p q a) :
    t.Lowest p q a := by
  refine ⟨h.up hs.left, h.up hs.right, fun c hp hq hca m n hm hn => ?_⟩
  obtain ⟨n, rfl, hn'⟩ := h.level hs.left.mem.1 hn
  by_cases hcb : c = b
  · obtain rfl : m = 0 := h.root (hcb ▸ hm)
    exact Nat.succ_pos n
  · have hp : s.Above c p := h.down hs.left.mem.2 hp hcb
    have hq : s.Above c q := h.down hs.right.mem.2 hq hcb
    obtain ⟨m, rfl, hm'⟩ := h.level hp.mem.1 hm
    exact Nat.succ_lt_succ (hs.deepest c hp hq hca m n hm' hn')

/-- No other node than the root is above both. -/
theorem Apart.lowest (h : Apart b l r) (hp : p ∈ (node b l r).preorder)
    (hq : q ∈ (node b l r).preorder) (hl : ¬ (p ∈ l.preorder ∧ q ∈ l.preorder))
    (hr : ¬ (p ∈ r.preorder ∧ q ∈ r.preorder)) : (node b l r).Lowest p q b := by
  refine ⟨.inl ⟨rfl, hp⟩, .inl ⟨rfl, hq⟩, fun c hcp hcq hcb => ?_⟩
  exfalso
  obtain hcp | hcp := hcp.resolve_left fun hroot => hcb hroot.1
  · obtain hcq | hcq := hcq.resolve_left fun hroot => hcb hroot.1
    · exact hl ⟨hcp.mem.2, hcq.mem.2⟩
    · exact h.sides c hcp.mem.1 hcq.mem.1
  · obtain hcq | hcq := hcq.resolve_left fun hroot => hcb hroot.1
    · exact h.sides c hcq.mem.1 hcp.mem.1
    · exact hr ⟨hcp.mem.2, hcq.mem.2⟩

end

end BinaryTree

namespace Class4

section
variable {α : Type} [DecidableEq α]

def covers : BinaryTree α → α → Bool
  | .nil, _ => false
  | .node root left right, p => if root = p then true else covers left p || covers right p

/-- `none`: an access through `NULL`. -/
def commonAncestor : BinaryTree α → α → α → Option α
  | .nil, _, _ => none
  | .node root left right, p, q =>
    if covers left p && covers left q then commonAncestor left q p
    else if covers right p && covers right q then commonAncestor right q p
    else some root

/-- `none`: the function returns `NULL`. -/
def lowestCommonAncestor : BinaryTree α → α → α → Option α
  | .nil, _, _ => none
  | .node root left right, A, B =>
    if root = A ∨ root = B then some root
    else
      let l := lowestCommonAncestor left A B
      let r := lowestCommonAncestor right A B
      if l ≠ none ∧ r ≠ none then some root else if l ≠ none then l else r

variable {t : BinaryTree α} {p q : α}

@[simp] theorem covers_iff : covers t p = true ↔ p ∈ t.preorder := by
  induction t with
  | nil => simp [covers, BinaryTree.preorder]
  | node b l r ihl ihr =>
    by_cases hb : b = p
    · simp [covers, BinaryTree.preorder, hb]
    · simp [covers, BinaryTree.preorder, hb, Ne.symm hb, ihl, ihr]

theorem commonAncestor_swap (t : BinaryTree α) (p q : α) :
    commonAncestor t p q = commonAncestor t q p := by
  induction t with
  | nil => rfl
  | node b l r ihl ihr =>
    simp only [commonAncestor, Bool.and_comm (covers _ p), ihl, ihr]

/-- The way down. -/
theorem commonAncestor_lowest (hnd : t.preorder.Nodup) (hp : p ∈ t.preorder)
    (hq : q ∈ t.preorder) : ∃ a, commonAncestor t p q = some a ∧ t.Lowest p q a := by
  induction t with
  | nil => cases hp
  | node b l r ihl ihr =>
    have hapart := BinaryTree.apart_of_nodup hnd
    simp only [commonAncestor, Bool.and_eq_true, covers_iff]
    by_cases hl : p ∈ l.preorder ∧ q ∈ l.preorder
    · obtain ⟨a, hrun, hlow⟩ := ihl hapart.left hl.1 hl.2
      rw [commonAncestor_swap] at hrun
      exact ⟨a, by rw [if_pos hl, hrun], hlow.of_branch hapart.branch_left⟩
    by_cases hr : p ∈ r.preorder ∧ q ∈ r.preorder
    · obtain ⟨a, hrun, hlow⟩ := ihr hapart.right hr.1 hr.2
      rw [commonAncestor_swap] at hrun
      exact ⟨a, by rw [if_neg hl, if_pos hr, hrun], hlow.of_branch hapart.branch_right⟩
    · exact ⟨b, by rw [if_neg hl, if_neg hr], hapart.lowest hp hq hl hr⟩

/-- A subtree with neither of the two nodes gives `NULL`. -/
theorem lowestCommonAncestor_eq_none_iff :
    lowestCommonAncestor t p q = none ↔ p ∉ t.preorder ∧ q ∉ t.preorder := by
  induction t with
  | nil => simp [lowestCommonAncestor, BinaryTree.preorder]
  | node b l r ihl ihr =>
    by_cases hb : b = p ∨ b = q
    · simp only [lowestCommonAncestor, if_pos hb, BinaryTree.preorder, List.mem_cons]
      grind
    · simp only [lowestCommonAncestor, if_neg hb, BinaryTree.preorder, List.mem_cons,
        List.mem_append]
      grind

/-- The way up finds what the way down finds. -/
theorem lowestCommonAncestor_eq (hnd : t.preorder.Nodup) (hp : p ∈ t.preorder)
    (hq : q ∈ t.preorder) : lowestCommonAncestor t p q = commonAncestor t p q := by
  induction t with
  | nil => cases hp
  | node b l r ihl ihr =>
    have hapart := BinaryTree.apart_of_nodup hnd
    have hsame : ∀ s : BinaryTree α, commonAncestor s q p = commonAncestor s p q := fun s =>
      commonAncestor_swap s q p
    simp only [commonAncestor, Bool.and_eq_true, covers_iff, lowestCommonAncestor]
    by_cases hroot : b = p ∨ b = q
    · -- the root is one of the two
      have hl : ¬ (p ∈ l.preorder ∧ q ∈ l.preorder) := fun hmem =>
        hroot.elim (fun heq => hapart.root_left (heq ▸ hmem.1)) fun heq =>
          hapart.root_left (heq ▸ hmem.2)
      have hr : ¬ (p ∈ r.preorder ∧ q ∈ r.preorder) := fun hmem =>
        hroot.elim (fun heq => hapart.root_right (heq ▸ hmem.1)) fun heq =>
          hapart.root_right (heq ▸ hmem.2)
      rw [if_pos hroot, if_neg hl, if_neg hr]
    rw [if_neg hroot]
    obtain ⟨hbp, hbq⟩ := not_or.1 hroot
    have hp' : p ∈ l.preorder ∨ p ∈ r.preorder :=
      List.mem_append.1 ((List.mem_cons.1 hp).resolve_left (Ne.symm hbp))
    have hq' : q ∈ l.preorder ∨ q ∈ r.preorder :=
      List.mem_append.1 ((List.mem_cons.1 hq).resolve_left (Ne.symm hbq))
    have hout : ∀ x ∈ r.preorder, x ∉ l.preorder := fun x hr hl => hapart.sides x hl hr
    have hsome : ∀ s : BinaryTree α, p ∈ s.preorder ∨ q ∈ s.preorder →
        lowestCommonAncestor s p q ≠ none := fun s hs hnone =>
      hs.elim (lowestCommonAncestor_eq_none_iff.1 hnone).1
        (lowestCommonAncestor_eq_none_iff.1 hnone).2
    obtain hpl | hpr := hp' <;> obtain hql | hqr := hq'
    · have hright : lowestCommonAncestor r p q = none :=
        lowestCommonAncestor_eq_none_iff.2 ⟨hapart.sides p hpl, hapart.sides q hql⟩
      have hleft := hsome l (.inl hpl)
      rw [hright, if_neg fun hboth => hboth.2 rfl, if_pos hleft, if_pos ⟨hpl, hql⟩, hsame]
      exact ihl hapart.left hpl hql
    · rw [if_pos ⟨hsome l (.inl hpl), hsome r (.inr hqr)⟩,
        if_neg fun hboth => hout q hqr hboth.2, if_neg fun hboth => hapart.sides p hpl hboth.1]
    · rw [if_pos ⟨hsome l (.inr hql), hsome r (.inl hpr)⟩,
        if_neg fun hboth => hout p hpr hboth.1, if_neg fun hboth => hapart.sides q hql hboth.2]
    · have hleft : lowestCommonAncestor l p q = none :=
        lowestCommonAncestor_eq_none_iff.2 ⟨hout p hpr, hout q hqr⟩
      rw [hleft, if_neg fun hboth => hboth.1 rfl, if_neg fun hno => hno rfl,
        if_neg fun hboth => hout p hpr hboth.1, if_pos ⟨hpr, hqr⟩, hsame]
      exact ihr hapart.right hpr hqr

/-- **Both algorithms find the deepest node above `p` and `q`.** -/
theorem commonAncestor_agree (hnd : t.preorder.Nodup) (hp : p ∈ t.preorder)
    (hq : q ∈ t.preorder) : ∃ a, commonAncestor t p q = some a ∧
      lowestCommonAncestor t p q = some a ∧ t.Lowest p q a := by
  obtain ⟨a, hrun, hlow⟩ := commonAncestor_lowest hnd hp hq
  exact ⟨a, hrun, (lowestCommonAncestor_eq hnd hp hq).trans hrun, hlow⟩

end

theorem commonAncestor_cousins : ∃ a,
    commonAncestor (.node 1 (.node 2 (.node 3 .nil .nil) (.node 4 .nil .nil)) .nil) 3 4 = some a ∧
    lowestCommonAncestor (.node 1 (.node 2 (.node 3 .nil .nil) (.node 4 .nil .nil)) .nil) 3 4 =
      some a ∧ BinaryTree.Lowest
        (.node 1 (.node 2 (.node 3 .nil .nil) (.node 4 .nil .nil)) .nil) 3 4 a :=
  commonAncestor_agree (by decide) (by decide) (by decide)

end Class4
