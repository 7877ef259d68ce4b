import DsAlgor.Lib.Traversals

/-!
# `is_bst.c`

`helper` lets `INT_MAX` without a right child pass any upper bound, and `INT_MIN` without a left
child any lower one. So a value on the wrong side of another one is not seen behind `INT_MAX` on the
left, or `INT_MIN` on the right. The answer is right exactly when no extreme value is there, or some
value that is seen is misplaced (`isValidBST_iff`).
-/

namespace BinaryTree

variable {α : Type*}

/-- `P` holds of every node with its two subtrees. -/
def Each (P : α → BinaryTree α → BinaryTree α → Prop) : BinaryTree α → Prop
  | nil => True
  | node a l r => P a l r ∧ l.Each P ∧ r.Each P

/-- What is reached from the root without a step on `a`. -/
def upTo [DecidableEq α] (a : α) : BinaryTree α → List α
  | nil => []
  | node b l r => if b = a then [] else b :: (l.upTo a ++ r.upTo a)

theorem mem_upTo [DecidableEq α] {a b x : α} {l r : BinaryTree α} :
    x ∈ (node b l r).upTo a ↔ b ≠ a ∧ (x = b ∨ x ∈ l.upTo a ∨ x ∈ r.upTo a) := by
  rw [upTo]
  split_ifs with h <;> simp [h]

theorem mem_of_mem_upTo [DecidableEq α] {a x : α} {t : BinaryTree α} (h : x ∈ t.upTo a) :
    x ∈ t.inorder ∧ x ≠ a := by
  induction t with
  | nil => cases h
  | node b l r ihl ihr =>
    obtain ⟨hb, rfl | hx | hx⟩ := mem_upTo.1 h
    · exact ⟨by simp [inorder], hb⟩
    · exact ⟨by simp [inorder, (ihl hx).1], (ihl hx).2⟩
    · exact ⟨by simp [inorder, (ihr hx).1], (ihr hx).2⟩

theorem pairwise_inorder [LT α] {a : α} {l r : BinaryTree α} :
    (node a l r).inorder.Pairwise (· < ·) ↔ l.inorder.Pairwise (· < ·) ∧
      r.inorder.Pairwise (· < ·) ∧ (∀ x ∈ l.inorder, x < a) ∧ (∀ x ∈ r.inorder, a < x) ∧
      ∀ x ∈ l.inorder, ∀ y ∈ r.inorder, x < y := by
  rw [inorder, List.pairwise_append, List.pairwise_cons]
  constructor
  · rintro ⟨hl, ⟨har, hr⟩, hlr⟩
    exact ⟨hl, hr, fun x hx => hlr x hx a List.mem_cons_self, har, fun x hx y hy =>
      hlr x hx y (List.mem_cons_of_mem _ hy)⟩
  · rintro ⟨hl, hr, hla, har, hlr⟩
    refine ⟨hl, ⟨har, hr⟩, fun x hx y hy => ?_⟩
    cases List.mem_cons.1 hy with
    | inl heq => exact heq ▸ hla x hx
    | inr hy => exact hlr x hx y hy

end BinaryTree

namespace Class4

def INT_MIN : Int := -2 ^ 31

def INT_MAX : Int := 2 ^ 31 - 1

def helper : BinaryTree Int → Int → Int → Bool
  | .nil, _, _ => true
  | .node val left right, min, max =>
    if (val < max ∨ val = INT_MAX ∧ right = .nil) ∧ (val > min ∨ val = INT_MIN ∧ left = .nil) ∧
        helper left min val ∧ helper right val max then true
    else false

def isValidBST (root : BinaryTree Int) : Bool := helper root INT_MIN INT_MAX

/-! ## What is refused -/

/-- A node has a value that is not smaller on its left, without `INT_MAX` on the way to it, or one
that is not greater on its right, without `INT_MIN` on the way; or it is an extreme value with a
child on the other side of it. -/
def Misplaced : BinaryTree Int → Prop
  | .nil => False
  | .node v l r => (∃ w ∈ l.upTo INT_MAX, v ≤ w) ∨ (∃ w ∈ r.upTo INT_MIN, w ≤ v) ∨
    v = INT_MAX ∧ r ≠ .nil ∨ v = INT_MIN ∧ l ≠ .nil ∨ Misplaced l ∨ Misplaced r

section
variable {l r : BinaryTree Int} {v : Int}

/-- A node at which nothing is misplaced. -/
theorem not_misplaced_node : ¬ Misplaced (.node v l r) ↔ (∀ w ∈ l.upTo INT_MAX, w < v) ∧
    (∀ w ∈ r.upTo INT_MIN, v < w) ∧ (v = INT_MAX → r = .nil) ∧ (v = INT_MIN → l = .nil) ∧
    ¬ Misplaced l ∧ ¬ Misplaced r := by
  simp only [Misplaced, not_or, not_exists, not_and, not_le, ne_eq, not_not]

end

theorem helper_iff {t : BinaryTree Int} {min max : Int} (hmax : max ≤ INT_MAX)
    (hmin : INT_MIN ≤ min)
    (hint : ∀ v ∈ t.inorder, INT_MIN ≤ v ∧ v ≤ INT_MAX) : helper t min max = true ↔
      (∀ w ∈ t.upTo INT_MAX, w < max) ∧ (∀ w ∈ t.upTo INT_MIN, min < w) ∧ ¬ Misplaced t := by
  induction t generalizing min max with
  | nil => simp [helper, BinaryTree.upTo, Misplaced]
  | node v l r ihl ihr =>
    simp only [BinaryTree.inorder, List.mem_append, List.mem_cons] at hint
    obtain ⟨hlow, hhigh⟩ := hint v (.inr (.inl rfl))
    rw [helper, Bool.if_false_right, Bool.and_true, decide_eq_true_eq,
      ihl hhigh hmin fun x hx => hint x (.inl hx),
      ihr hmax hlow fun x hx => hint x (.inr (.inr hx)), not_misplaced_node]
    simp only [BinaryTree.mem_upTo]
    constructor
    · rintro ⟨hupper, hlower, ⟨hlv, hlmin, hl⟩, hrmax, hvr, hr⟩
      refine ⟨?_, ?_, hlv, hvr, fun heq => ?_, fun heq => ?_, hl, hr⟩
      · rintro w ⟨hv, hw⟩
        have hvmax : v < max := hupper.resolve_right fun h => hv h.1
        rcases hw with rfl | hw | hw
        · exact hvmax
        · exact (hlv w hw).trans hvmax
        · exact hrmax w hw
      · rintro w ⟨hv, hw⟩
        have hvmin : min < v := hlower.resolve_right fun h => hv h.1
        rcases hw with rfl | hw | hw
        · exact hvmin
        · exact hlmin w hw
        · exact hvmin.trans (hvr w hw)
      · exact (hupper.resolve_left fun h => absurd (heq ▸ h) hmax.not_gt).2
      · exact (hlower.resolve_left fun h => absurd (heq ▸ h) hmin.not_gt).2
    · rintro ⟨hunder, hover, hlv, hvr, hright, hleft, hl, hr⟩
      refine ⟨?_, ?_, ⟨hlv, fun w hw => ?_, hl⟩, fun w hw => ?_, hvr, hr⟩
      · by_cases hv : v = INT_MAX
        · exact .inr ⟨hv, hright hv⟩
        · exact .inl (hunder v ⟨hv, .inl rfl⟩)
      · by_cases hv : v = INT_MIN
        · exact .inr ⟨hv, hleft hv⟩
        · exact .inl (hover v ⟨hv, .inl rfl⟩)
      · refine hover w ⟨fun hv => ?_, .inr (.inl hw)⟩
        rw [hleft hv] at hw
        cases hw
      · refine hunder w ⟨fun hv => ?_, .inr (.inr hw)⟩
        rw [hright hv] at hw
        cases hw

theorem isValidBST_refuses {t : BinaryTree Int}
    (hint : ∀ v ∈ t.inorder, INT_MIN ≤ v ∧ v ≤ INT_MAX) :
    isValidBST t = true ↔ ¬ Misplaced t := by
  rw [isValidBST, helper_iff le_rfl le_rfl hint, and_iff_right, and_iff_right]
  · intro w hw
    obtain ⟨hmem, hne⟩ := BinaryTree.mem_of_mem_upTo hw
    exact lt_of_le_of_ne (hint w hmem).1 hne.symm
  · intro w hw
    obtain ⟨hmem, hne⟩ := BinaryTree.mem_of_mem_upTo hw
    exact lt_of_le_of_ne (hint w hmem).2 hne

/-! ## When the answer is right -/

/-- No node has `INT_MAX` on its left or `INT_MIN` on its right. -/
def NoneInside (t : BinaryTree Int) : Prop :=
  t.Each fun _ l r => INT_MAX ∉ l.inorder ∧ INT_MIN ∉ r.inorder

section
variable {t : BinaryTree Int} {min max : Int}

theorem helper_of_ascending (min max : Int) (hasc : t.inorder.Pairwise (· < ·))
    (hint : ∀ v ∈ t.inorder, INT_MIN ≤ v ∧ v ≤ INT_MAX)
    (hmax : ∀ x ∈ t.inorder, x < max ∨ max = INT_MAX)
    (hmin : ∀ x ∈ t.inorder, min < x ∨ min = INT_MIN) : helper t min max = true := by
  induction t generalizing min max with
  | nil => rfl
  | node v l r ihl ihr =>
    obtain ⟨hl, hr, hlv, hvr, _⟩ := BinaryTree.pairwise_inorder.1 hasc
    simp only [BinaryTree.inorder, List.mem_append, List.mem_cons] at hint hmax hmin
    have hleft := ihl min v hl (fun x hx => hint x (.inl hx))
      (fun x hx => .inl (hlv x hx)) fun x hx => hmin x (.inl hx)
    have hright := ihr v max hr (fun x hx => hint x (.inr (.inr hx)))
      (fun x hx => hmax x (.inr (.inr hx))) fun x hx => .inl (hvr x hx)
    obtain ⟨hlow, hhigh⟩ := hint v (.inr (.inl rfl))
    have hupper : v < max ∨ v = INT_MAX ∧ r = .nil := by
      obtain hlt | rfl := hmax v (.inr (.inl rfl))
      · exact .inl hlt
      refine hhigh.lt_or_eq.imp_right fun heq => ⟨heq, ?_⟩
      -- what is on the right of `INT_MAX` would be greater
      cases r with
      | nil => rfl
      | node x r r' =>
        have hx : x ∈ (BinaryTree.node x r r').inorder := by simp [BinaryTree.inorder]
        exact absurd (hvr x hx) (heq ▸ (hint x (.inr (.inr hx))).2).not_gt
    have hlower : v > min ∨ v = INT_MIN ∧ l = .nil := by
      obtain hlt | rfl := hmin v (.inr (.inl rfl))
      · exact .inl hlt
      refine hlow.lt_or_eq.imp_right fun heq => ⟨heq.symm, ?_⟩
      cases l with
      | nil => rfl
      | node x l l' =>
        have hx : x ∈ (BinaryTree.node x l l').inorder := by simp [BinaryTree.inorder]
        exact absurd (hlv x hx) (heq ▸ (hint x (.inl hx)).1).not_gt
    rw [helper, if_pos ⟨hupper, hlower, hleft, hright⟩]

theorem ascending_of_helper (h : helper t min max = true) (hin : NoneInside t)
    (hmax : INT_MAX ∈ t.inorder → max = INT_MAX) (hmin : INT_MIN ∈ t.inorder → min = INT_MIN) :
    t.inorder.Pairwise (· < ·) ∧ (∀ x ∈ t.inorder, x < max ∨ x = INT_MAX) ∧
      ∀ x ∈ t.inorder, min < x ∨ x = INT_MIN := by
  induction t generalizing min max with
  | nil => exact ⟨List.Pairwise.nil, nofun, nofun⟩
  | node v l r ihl ihr =>
    obtain ⟨⟨hnomax, hnomin⟩, hinl, hinr⟩ := hin
    rw [helper, Bool.if_false_right, Bool.and_true, decide_eq_true_eq] at h
    obtain ⟨hupper, hlower, hleft, hright⟩ := h
    simp only [BinaryTree.inorder, List.mem_append, List.mem_cons] at hmax hmin ⊢
    obtain ⟨hascl, hlv, hminl⟩ := ihl hleft hinl (fun hx => absurd hx hnomax)
      fun hx => hmin (.inl hx)
    obtain ⟨hascr, hmaxr, hvr⟩ := ihr hright hinr (fun hx => hmax (.inr (.inr hx)))
      fun hx => absurd hx hnomin
    have hlv : ∀ x ∈ l.inorder, x < v := fun x hx =>
      (hlv x hx).resolve_right fun heq => hnomax (heq ▸ hx)
    have hvr : ∀ x ∈ r.inorder, v < x := fun x hx =>
      (hvr x hx).resolve_right fun heq => hnomin (heq ▸ hx)
    have hv : v < max ∨ v = INT_MAX := hupper.imp_right And.left
    have hv' : min < v ∨ v = INT_MIN := hlower.imp_right And.left
    refine ⟨BinaryTree.pairwise_inorder.2 ⟨hascl, hascr, hlv, hvr, fun x hx y hy =>
      (hlv x hx).trans (hvr y hy)⟩, ?_, ?_⟩
    · rintro x (hx | rfl | hx)
      · cases hv with
        | inl hv => exact .inl ((hlv x hx).trans hv)
        | inr hv => exact .inl (hmax (.inr (.inl hv.symm)) ▸ hv ▸ hlv x hx)
      · exact hv
      · exact hmaxr x hx
    · rintro x (hx | rfl | hx)
      · exact hminl x hx
      · exact hv'
      · cases hv' with
        | inl hv => exact .inl (hv.trans (hvr x hx))
        | inr hv => exact .inl (hmin (.inr (.inl hv.symm)) ▸ hv ▸ hvr x hx)

theorem noneInside_of_ascending (hasc : t.inorder.Pairwise (· < ·))
    (hint : ∀ v ∈ t.inorder, INT_MIN ≤ v ∧ v ≤ INT_MAX) : NoneInside t := by
  induction t with
  | nil => trivial
  | node v l r ihl ihr =>
    obtain ⟨hl, hr, hlv, hvr, _⟩ := BinaryTree.pairwise_inorder.1 hasc
    simp only [BinaryTree.inorder, List.mem_append, List.mem_cons] at hint
    obtain ⟨hlow, hhigh⟩ := hint v (.inr (.inl rfl))
    exact ⟨⟨fun hx => (hlv _ hx).not_ge hhigh, fun hx => (hvr _ hx).not_ge hlow⟩,
      ihl hl fun x hx => hint x (.inl hx), ihr hr fun x hx => hint x (.inr (.inr hx))⟩

end

/-- **When the answer is right**: where no extreme value is on the wrong side of a node, or some
other value is misplaced. -/
theorem isValidBST_iff (root : BinaryTree Int)
    (hint : ∀ v ∈ root.inorder, INT_MIN ≤ v ∧ v ≤ INT_MAX) :
    (isValidBST root = true ↔ root.inorder.Pairwise (· < ·)) ↔
      NoneInside root ∨ Misplaced root := by
  have hcomplete : root.inorder.Pairwise (· < ·) → isValidBST root = true := fun hasc =>
    helper_of_ascending _ _ hasc hint (fun _ _ => .inr rfl) fun _ _ => .inr rfl
  constructor
  · intro h
    by_cases hmis : Misplaced root
    · exact .inr hmis
    · exact .inl (noneInside_of_ascending (h.1 ((isValidBST_refuses hint).2 hmis)) hint)
  · rintro (hin | hmis)
    · exact ⟨fun h => (ascending_of_helper h hin (fun _ => rfl) fun _ => rfl).1, hcomplete⟩
    · exact ⟨fun h => absurd hmis ((isValidBST_refuses hint).1 h), hcomplete⟩

theorem isValidBST_plain : isValidBST (.node 5 (.node 3 .nil .nil) .nil) = true ↔
    (BinaryTree.node 5 (.node 3 .nil .nil) .nil : BinaryTree Int).inorder.Pairwise (· < ·) :=
  (isValidBST_iff (.node 5 (.node 3 .nil .nil) .nil) (by decide)).2
    (.inl ⟨⟨by decide, by decide⟩, ⟨⟨by decide, by decide⟩, trivial, trivial⟩, trivial⟩)

/-- `INT_MAX` on the left of 5 is accepted. -/
theorem isValidBST_wrong : ∃ root : BinaryTree Int,
    (∀ v ∈ root.inorder, INT_MIN ≤ v ∧ v ≤ INT_MAX) ∧
      ¬ (isValidBST root = true ↔ root.inorder.Pairwise (· < ·)) :=
  ⟨.node 5 (.node INT_MAX .nil .nil) .nil, by decide, by decide⟩

end Class4
