import DsAlgor.Lib.LevelOrder
import DsAlgor.Lib.Pointers

/-!
# `findRightNeighbor.c`

The way up ends at the lowest ancestor that has the node on its left and has a right child; the way
down from there takes the left child wherever there is one. `Hangs` lists all subtrees that could
have the next node of the level, and the answer is right exactly when the node is the last one or
the next one lies in the first of them and such a way leads to it; the levels that the way up counts
are an `int` (`findRightNeighbor_iff`).
-/

namespace BinaryTree

variable {α : Type*}

/-- The node `n` levels down, to the left wherever there is a left child. -/
def straight : BinaryTree α → ℕ → Option α
  | nil, _ => none
  | node a _ _, 0 => some a
  | node _ l r, n + 1 => if l.isNil then r.straight n else l.straight n

/-- `x` is `n` levels down, and the way to it goes to the right only where there is no left child.
-/
inductive Leads (x : α) : BinaryTree α → ℕ → Prop
  | here (l r : BinaryTree α) : Leads x (node x l r) 0
  | left {l : BinaryTree α} {n : ℕ} (a : α) (r : BinaryTree α) :
      Leads x l n → Leads x (node a l r) (n + 1)
  | right {r : BinaryTree α} {n : ℕ} (a : α) : Leads x r n → Leads x (node a nil r) (n + 1)

/-- `x` is at depth `d`. `rs` has the right subtrees of the ancestors with `x` on their left, from
the lowest one on, each with the depth at which it is level with `x`. -/
inductive Hangs (x : α) : BinaryTree α → ℕ → List (ℕ × BinaryTree α) → Prop
  | here (l r : BinaryTree α) : Hangs x (node x l r) 0 []
  | left {l : BinaryTree α} {d : ℕ} {rs : List (ℕ × BinaryTree α)} (a : α) (r : BinaryTree α) :
      Hangs x l d rs → Hangs x (node a l r) (d + 1) (rs ++ [(d, r)])
  | right {r : BinaryTree α} {d : ℕ} {rs : List (ℕ × BinaryTree α)} (a : α) (l : BinaryTree α) :
      Hangs x r d rs → Hangs x (node a l r) (d + 1) rs

section
variable {t : BinaryTree α} {x : α} {d n : ℕ} {rs : List (ℕ × BinaryTree α)}

theorem exists_hangs (hx : x ∈ t.preorder) : ∃ d rs, Hangs x t d rs := by
  induction t with
  | nil => cases hx
  | node a l r ihl ihr =>
    simp only [preorder, List.mem_cons, List.mem_append] at hx
    obtain rfl | hx | hx := hx
    · exact ⟨0, [], .here l r⟩
    · obtain ⟨d, rs, h⟩ := ihl hx
      exact ⟨d + 1, _, h.left a r⟩
    · obtain ⟨d, rs, h⟩ := ihr hx
      exact ⟨d + 1, rs, h.right a l⟩

theorem Hangs.mem (h : Hangs x t d rs) : x ∈ t.preorder := by
  induction h with
  | here => exact List.mem_cons_self
  | left a r _ ih => exact List.mem_cons_of_mem _ (List.mem_append_left _ ih)
  | right a l _ ih => exact List.mem_cons_of_mem _ (List.mem_append_right _ ih)

/-- What comes behind `x` on its level. -/
theorem Hangs.level (h : Hangs x t d rs) :
    ∃ A, t.level d = A ++ x :: rs.flatMap fun y => y.2.level y.1 := by
  induction h with
  | here => exact ⟨[], rfl⟩
  | left a r _ ih =>
    obtain ⟨A, hA⟩ := ih
    exact ⟨A, by simp [hA]⟩
  | @right r d rs a l _ ih =>
    obtain ⟨A, hA⟩ := ih
    exact ⟨l.level d ++ A, by simp [hA]⟩

theorem straight_eq_some_iff {a : α} : t.straight n = some a ↔ Leads a t n := by
  constructor
  · intro h
    induction n generalizing t with
    | zero =>
      cases t with
      | nil => cases h
      | node b l r =>
        cases h
        exact .here l r
    | succ n ih =>
      cases t with
      | nil => cases h
      | node b l r =>
        cases l with
        | nil => exact .right b (ih h)
        | node c l l' => exact .left b r (ih h)
  · intro h
    induction h with
    | here l r => rfl
    | @left l n b r hl ih =>
      cases l with
      | nil => cases hl
      | node c l l' => exact ih
    | right b _ ih => exact ih

theorem head?_level_of_straight {a : α} (h : t.straight n = some a) :
    (t.level n).head? = some a := by
  induction n generalizing t with
  | zero =>
    cases t with
    | nil => cases h
    | node b l r => exact h
  | succ n ih =>
    cases t with
    | nil => cases h
    | node b l r =>
      cases l with
      | nil => simpa using ih h
      | node c l l' => rw [level_succ, List.head?_append, ih h, Option.some_or]

end

end BinaryTree

namespace Class4

open Pointers
open Signed (intMax)

structure Family where
  left : Ptr → Ptr
  right : Ptr → Ptr
  parent : Ptr → Ptr

def descend (h : Family) : Nat → Ptr → Except Fault Ptr
  | 0, node => return node
  | level + 1, node => do
    if node = 0 then return node
    else if (← load h.left node) ≠ 0 then descend h level (← load h.left node)
    else if (← load h.right node) ≠ 0 then descend h level (← load h.right node)
    else descend h level 0

def isLeftChild (h : Family) (node parent : Ptr) : Except Fault Bool :=
  return (← load h.left parent) = node

/-- The loop: `parent` and `level` behind it. -/
def climb (h : Family) : Nat → Ptr → Ptr → Int → Except Fault (Ptr × Int)
  | 0, _, _, _ => .error .loop
  | fuel + 1, node, parent, level => do
    if parent = 0 then return (parent, level)
    else if (← isLeftChild h node parent) && (← load h.right parent) ≠ 0 then
      return (parent, level)
    else
      let level ← increment level
      climb h fuel parent (← load h.parent parent) level

def findRightNeighbor (fuel : Nat) (h : Family) (node : Ptr) : Except Fault Ptr := do
  let parent ← load h.parent node
  if node = 0 then return 0
  else
    let (parent, level) ← climb h fuel node parent 0
    if parent = 0 then return 0 else descend h level.toNat (← load h.right parent)

/-- The tree at `p`, whose parent is `par`. -/
def Held (h : Family) : Ptr → Ptr → BinaryTree Ptr → Prop
  | _, p, .nil => p = 0
  | par, p, .node q l r =>
    p = q ∧ q ≠ 0 ∧ h.parent q = par ∧ Held h q (h.left q) l ∧ Held h q (h.right q) r

section
variable {h : Family} {par p x : Ptr} {t : BinaryTree Ptr} {d : Nat}
  {rs : List (Nat × BinaryTree Ptr)}

theorem Held.ne_zero (hst : Held h par p t) : ∀ q ∈ t.preorder, q ≠ 0 := by
  induction t generalizing par p with
  | nil => exact nofun
  | node a l r ihl ihr =>
    obtain ⟨_, ha, _, hl, hr⟩ := hst
    intro q hq
    simp only [BinaryTree.preorder, List.mem_cons, List.mem_append] at hq
    obtain rfl | hq | hq := hq
    · exact ha
    · exact ihl hl q hq
    · exact ihr hr q hq

/-- The root, if there is one. -/
theorem Held.eq_zero_iff (hst : Held h par p t) : p = 0 ↔ t.isNil = true := by
  cases t with
  | nil => exact iff_of_true hst rfl
  | node a l r => exact iff_of_false (fun hp => hst.2.1 (hst.1 ▸ hp)) nofun

theorem Held.root_mem (hst : Held h par p t) (hp : p ≠ 0) : p ∈ t.preorder := by
  cases t with
  | nil => exact absurd hst hp
  | node a l r => exact hst.1 ▸ List.mem_cons_self

/-- The way down. -/
theorem descend_eq (n : Nat) (hst : Held h par p t) :
    descend h n p = .ok ((t.straight n).getD 0) := by
  induction n generalizing t par p with
  | zero =>
    cases t with
    | nil => exact congrArg Except.ok hst
    | node a l r => exact congrArg Except.ok hst.1
  | succ n ih =>
    cases t with
    | nil =>
      obtain rfl : p = 0 := hst
      rfl
    | node a l r =>
      obtain ⟨rfl, hp, _, hl, hr⟩ := hst
      simp only [descend, if_neg hp, load_ok hp, bind, Except.bind, BinaryTree.straight]
      by_cases hleft : h.left p = 0
      · by_cases hright : h.right p = 0
        · rw [if_neg (not_not.2 hleft), if_neg (not_not.2 hright),
            if_pos (hl.eq_zero_iff.1 hleft)]
          have hnext := ih hr
          rwa [hright] at hnext
        · rw [if_neg (not_not.2 hleft), if_pos hright, if_pos (hl.eq_zero_iff.1 hleft)]
          exact ih hr
      · rw [if_pos hleft, if_neg fun hnil => hleft (hl.eq_zero_iff.2 hnil)]
        exact ih hl

/-- What `r` is as long as `level` is an `int`. -/
def counted {β : Type} (level : Nat) (r : Except Fault β) : Except Fault β :=
  if (level : Int) ≤ intMax then r else .error .overflow

theorem counted_ok {β : Type} {level : Nat} (hlevel : (level : Int) ≤ intMax) (r : Except Fault β) :
    counted level r = r := if_pos hlevel

theorem counted_eq_ok {β : Type} {level : Nat} {b b' : β} (heq : counted level (.ok b) = .ok b') :
    (level : Int) ≤ intMax ∧ b = b' := by
  unfold counted at heq
  split at heq
  · exact ⟨by assumption, Except.ok.inj heq⟩
  · cases heq

theorem counted_increment {β : Type} (level : Nat) (k : Int → Except Fault β) :
    (increment level).bind k = counted (level + 1) (k (level + 1 : Nat)) := by
  by_cases hlevel : ((level + 1 : Nat) : Int) ≤ intMax
  · have hlt : (level : Int) < intMax := by
      push_cast at hlevel
      exact Int.lt_of_add_one_le hlevel
    rw [counted_ok hlevel, increment_ok hlt, Nat.cast_succ]
    rfl
  · have hge : intMax ≤ level := by
      push_cast at hlevel
      exact Int.not_lt.1 hlevel
    rw [counted, if_neg hlevel, increment_overflow hge]
    rfl

theorem counted_counted {β : Type} (level : Nat) (r : Except Fault β) :
    counted level (counted (level + 1) r) = counted (level + 1) r := by
  by_cases hlevel : ((level + 1 : Nat) : Int) ≤ intMax
  · exact counted_ok (by push_cast at hlevel; exact (Int.lt_of_add_one_le hlevel).le) _
  · unfold counted
    rw [if_neg hlevel, ite_self]

theorem climb_eq {a : Ptr} (ha : a ≠ 0) (fuel node : Nat) (level : Int) :
    climb h (fuel + 1) node a level =
      if h.left a = node ∧ h.right a ≠ 0 then .ok (a, level)
      else (increment level).bind fun i => climb h fuel a (h.parent a) i := by
  rw [climb]
  generalize increment level = r
  simp only [if_neg ha, isLeftChild, load_ok ha, bind, Except.bind, pure, Except.pure,
    Bool.and_eq_true, decide_eq_true_eq]

theorem climb_step {a : Ptr} (ha : a ≠ 0) (fuel node level : Nat) :
    climb h (fuel + 1) node a level =
      if h.left a = node ∧ h.right a ≠ 0 then .ok (a, (level : Int))
      else counted (level + 1) (climb h fuel a (h.parent a) (level + 1 : Nat)) := by
  rw [climb_eq ha, counted_increment]

/-- The way up ends below the first subtree of `rs` that has a node, or leaves the tree. -/
theorem climb_hangs (hx : BinaryTree.Hangs x t d rs) (hst : Held h par p t)
    (hnd : t.preorder.Nodup) :
    (rs.find? (fun y => !y.2.isNil) = none ∧ ∃ k, ∀ fuel,
      climb h (fuel + k) x (h.parent x) 0 = counted d (climb h fuel p par d)) ∨
    ∃ m r a k, rs.find? (fun y => !y.2.isNil) = some (m, r) ∧ a ≠ 0 ∧
      Held h a (h.right a) r ∧ ∀ fuel,
        climb h (fuel + k) x (h.parent x) 0 = counted m (.ok (a, (m : Int))) := by
  induction hx generalizing par p with
  | here l r =>
    obtain ⟨rfl, _, hpar, _⟩ := hst
    exact .inl ⟨rfl, 0, fun fuel => by
      rw [hpar, Nat.add_zero]
      exact (counted_ok (by decide) _).symm⟩
  | @left l d rs a r _ ih =>
    obtain ⟨rfl, hp, hpar, hl, hr⟩ := hst
    rw [List.find?_append]
    obtain ⟨hnone, k, hrun⟩ | ⟨m, s, a, k, hsome, ha, hs, hrun⟩ :=
      ih hl (BinaryTree.apart_of_nodup hnd).left
    · rw [hnone, Option.none_or]
      by_cases hright : h.right p = 0
      · left
        refine ⟨by simp [hr.eq_zero_iff.1 hright], k + 1, fun fuel => ?_⟩
        rw [Nat.add_comm k, ← Nat.add_assoc, hrun, climb_step hp, if_neg fun hc => hc.2 hright,
          counted_counted, hpar]
      · right
        have hnil : r.isNil = false := by
          rw [← Bool.not_eq_true, ← hr.eq_zero_iff]
          exact hright
        refine ⟨d, r, p, k + 1, by simp [hnil], hp, hr, fun fuel => ?_⟩
        rw [Nat.add_comm k, ← Nat.add_assoc, hrun, climb_step hp, if_pos ⟨rfl, hright⟩]
    · right
      exact ⟨m, s, a, k, by rw [hsome, Option.some_or], ha, hs, hrun⟩
  | @right r d rs a l hx ih =>
    obtain ⟨rfl, hp, hpar, hl, hr⟩ := hst
    have hapart := BinaryTree.apart_of_nodup hnd
    obtain ⟨hnone, k, hrun⟩ | hfound := ih hr hapart.right
    · left
      -- a right child is not the left child
      have hne : h.left p ≠ h.right p := by
        intro heq
        have hright : h.right p ≠ 0 := by
          intro hzero
          have hnil := hr.eq_zero_iff.1 hzero
          cases r with
          | nil => cases hx
          | node => cases hnil
        exact hapart.sides _ (hl.root_mem (heq ▸ hright)) (heq ▸ hr.root_mem hright)
      refine ⟨hnone, k + 1, fun fuel => ?_⟩
      rw [Nat.add_comm k, ← Nat.add_assoc, hrun, climb_step hp, if_neg fun hc => hne hc.1,
        counted_counted, hpar]
    · exact .inr hfound

end

/-- `y` comes next to `x` on its level, or `x` is the last and `y` is `NULL`. -/
def NextOnLevel (t : BinaryTree Ptr) (x y : Ptr) : Prop :=
  ∃ d A B, t.level d = A ++ x :: B ∧ y = B.head?.getD 0

def LastOnLevel (t : BinaryTree Ptr) (x : Ptr) : Prop := ∃ d A, t.level d = A ++ [x]

/-- In the right subtree of the lowest ancestor that has `x` on its left and has a right child, a
way that goes to the right only where there is no left child leads to the node next to `x`. The
levels up to the ancestor, or to the root when there is none, are an `int`. -/
def Leading (t : BinaryTree Ptr) (x : Ptr) : Prop :=
  ∃ d rs, BinaryTree.Hangs x t d rs ∧
    match rs.find? fun y => !y.2.isNil with
    | none => (d : Int) ≤ intMax
    | some (m, r) => (m : Int) ≤ intMax ∧
        (LastOnLevel t x ∨ ∃ y, NextOnLevel t x y ∧ BinaryTree.Leads y r m)

section
variable {h : Family} {root x : Ptr} {t : BinaryTree Ptr} {d : Nat}
  {rs : List (Nat × BinaryTree Ptr)}

/-- What is returned. -/
theorem findRightNeighbor_halts (hx : BinaryTree.Hangs x t d rs) (hst : Held h 0 root t)
    (hnd : t.preorder.Nodup) : Halts (fun fuel => findRightNeighbor fuel h x)
      (match rs.find? fun y => !y.2.isNil with
        | none => counted d (.ok 0)
        | some (m, r) => counted m (.ok ((r.straight m).getD 0))) := by
  have hx0 : x ≠ 0 := hst.ne_zero x hx.mem
  obtain ⟨hnone, k, hrun⟩ | ⟨m, r, a, k, hsome, ha, hr, hrun⟩ := climb_hangs hx hst hnd
  · refine Halts.after (k + 1) (fun fuel => ?_) (Halts.const _)
    have hend : climb h (fuel + 1) root 0 d = .ok (0, (d : Int)) := rfl
    have hloop := hrun (fuel + 1)
    rw [Nat.add_assoc, Nat.add_comm 1 k, hend] at hloop
    simp only [findRightNeighbor, load_ok hx0, if_neg hx0, hloop, hnone, counted, bind, Except.bind]
    by_cases hd : (d : Int) ≤ intMax
    · simp only [if_pos hd]
      rfl
    · simp only [if_neg hd]
  · refine Halts.after k (fun fuel => ?_) (Halts.const _)
    simp only [findRightNeighbor, load_ok hx0, if_neg hx0, hrun, hsome, counted, bind, Except.bind]
    by_cases hm : (m : Int) ≤ intMax
    · simp only [if_pos hm, if_neg ha, load_ok ha, Int.toNat_natCast, descend_eq m hr]
    · simp only [if_neg hm]

/-- The first node behind `x` that a straight way down leads to. -/
theorem head?_beside {y : Ptr} {m : Nat} {r : BinaryTree Ptr}
    (hfind : rs.find? (fun y => !y.2.isNil) = some (m, r)) (hy : r.straight m = some y) :
    (rs.flatMap fun y => y.2.level y.1).head? = some y := by
  induction rs with
  | nil => cases hfind
  | cons z rs ih =>
    obtain ⟨k, s⟩ := z
    cases s with
    | nil => simpa [BinaryTree.isNil] using ih (by simpa [BinaryTree.isNil] using hfind)
    | node a l r' =>
      cases hfind
      have hhead := BinaryTree.head?_level_of_straight hy
      rw [List.flatMap_cons, List.head?_append, hhead, Option.some_or]

theorem beside_of_find?_none (hnone : rs.find? (fun y => !y.2.isNil) = none) :
    rs.flatMap (fun y => y.2.level y.1) = [] := by
  refine List.flatMap_eq_nil_iff.2 fun y hy => ?_
  have hnil := List.find?_eq_none.1 hnone y hy
  cases hr : y.2 with
  | nil => exact BinaryTree.level_nil _
  | node a l r => exact absurd (by rw [hr]; rfl) hnil

/-- The level of a node has one part behind it. -/
theorem behind_unique {A B A' B' : List Ptr} {d' : Nat} (hnd : t.preorder.Nodup)
    (hd : t.level d = A ++ x :: B) (hd' : t.level d' = A' ++ x :: B') : B' = B := by
  obtain rfl : d' = d := BinaryTree.depth_unique hnd (x := x) (by simp [hd']) (by simp [hd])
  have hnd' := BinaryTree.level_nodup hnd d'
  rw [hd'] at hnd'
  obtain ⟨_, hB, hA⟩ := List.nodup_append.1 hnd'
  exact ((List.append_cons_inj_of_notMem (fun hx => hA x hx x List.mem_cons_self rfl)
    (List.nodup_cons.1 hB).1).1 (hd'.symm.trans hd)).2.2

/-- **When the answer is right**: for the last nodes of the levels, and where a straight way leads
to the next node. -/
theorem findRightNeighbor_iff (hst : Held h 0 root t) (hnd : t.preorder.Nodup)
    (hx : x ∈ t.preorder) :
    (∃ y, Halts (fun fuel => findRightNeighbor fuel h x) (.ok y) ∧ NextOnLevel t x y) ↔
      Leading t x := by
  constructor
  · rintro ⟨y, hrun, hnext⟩
    obtain ⟨d, rs, hangs⟩ := BinaryTree.exists_hangs hx
    refine ⟨d, rs, hangs, ?_⟩
    have hresult := hrun.unique (findRightNeighbor_halts hangs hst hnd)
    cases hfind : rs.find? fun y => !y.2.isNil with
    | none =>
      rw [hfind] at hresult
      exact (counted_eq_ok hresult.symm).1
    | some z =>
      obtain ⟨m, r⟩ := z
      rw [hfind] at hresult
      obtain ⟨hm, hval⟩ := counted_eq_ok hresult.symm
      refine ⟨hm, ?_⟩
      cases hr : r.straight m with
      | some a =>
        rw [hr] at hval
        cases hval
        exact .inr ⟨a, hnext, BinaryTree.straight_eq_some_iff.1 hr⟩
      | none =>
        left
        rw [hr] at hval
        cases hval
        obtain ⟨d', A, B, hlevel, hy⟩ := hnext
        cases B with
        | nil => exact ⟨d', A, hlevel⟩
        | cons b B =>
          have hb : b ∈ t.preorder := BinaryTree.mem_preorder_of_level (n := d') (by simp [hlevel])
          exact absurd hy.symm (hst.ne_zero b hb)
  · rintro ⟨d, rs, hangs, hcond⟩
    obtain ⟨A, hlevel⟩ := hangs.level
    have hhalts := findRightNeighbor_halts hangs hst hnd
    cases hfind : rs.find? fun y => !y.2.isNil with
    | none =>
      rw [hfind] at hcond hhalts
      refine ⟨0, ?_, d, A, _, hlevel, ?_⟩
      · exact counted_ok hcond (.ok 0 : Except Fault Ptr) ▸ hhalts
      · rw [beside_of_find?_none hfind]
        rfl
    | some z =>
      obtain ⟨m, r⟩ := z
      rw [hfind] at hcond hhalts
      obtain ⟨hm, hlast⟩ := hcond
      have hok : Halts (fun fuel => findRightNeighbor fuel h x) (.ok ((r.straight m).getD 0)) :=
        counted_ok hm (.ok ((r.straight m).getD 0)) ▸ hhalts
      refine ⟨_, hok, d, A, _, hlevel, ?_⟩
      cases hr : r.straight m with
      | some a => rw [head?_beside hfind hr]
      | none =>
        rcases hlast with ⟨d', A', hlevel'⟩ | ⟨y, -, hleads⟩
        · rw [behind_unique hnd hlevel' hlevel]
          rfl
        · rw [BinaryTree.straight_eq_some_iff.2 hleads] at hr
          cases hr

end

/-- The root 1 has the children 2 and 3, with the left child 4 and the right child 5. -/
def cousins : Family where
  left q := [0, 2, 4].getD q 0
  right q := [0, 3, 0, 5].getD q 0
  parent q := [0, 0, 1, 1, 2, 3].getD q 0

theorem findRightNeighbor_cousin : ∃ y,
    Halts (fun fuel => findRightNeighbor fuel cousins 4) (.ok y) ∧
      NextOnLevel (.node 1 (.node 2 (.node 4 .nil .nil) .nil) (.node 3 .nil (.node 5 .nil .nil)))
        4 y := by
  have hst : Held cousins 0 1
      (.node 1 (.node 2 (.node 4 .nil .nil) .nil) (.node 3 .nil (.node 5 .nil .nil))) := by
    simp [Held, cousins]
  refine (findRightNeighbor_iff hst (by decide) (by decide)).2
    ⟨2, _, .left 1 _ (.left 2 .nil (.here .nil .nil)), ?_⟩
  exact ⟨by decide, .inr ⟨5, ⟨2, [], [5], rfl, rfl⟩, .right 3 (.here .nil .nil)⟩⟩

/-- On the right of node 1 the way down ends at node 5, and node 8 is not found. -/
theorem findRightNeighbor_dead_end : ∃ (h : Family) (t : BinaryTree Ptr) (root x : Ptr),
    Held h 0 root t ∧ t.preorder.Nodup ∧ x ∈ t.preorder ∧
      ¬ ∃ y, Halts (fun fuel => findRightNeighbor fuel h x) (.ok y) ∧ NextOnLevel t x y := by
  let h : Family := {
    left := fun q => [0, 2, 4, 5, 7, 0, 8].getD q 0
    right := fun q => [0, 3, 0, 6].getD q 0
    parent := fun q => [0, 0, 1, 1, 2, 3, 3, 4, 6].getD q 0 }
  let l : BinaryTree Ptr := .node 2 (.node 4 (.node 7 .nil .nil) .nil) .nil
  let r : BinaryTree Ptr := .node 3 (.node 5 .nil .nil) (.node 6 (.node 8 .nil .nil) .nil)
  have hheld : Held h 0 1 (.node 1 l r) := by simp [Held, h, l, r]
  have hnd : (BinaryTree.node 1 l r).preorder.Nodup := by decide
  refine ⟨h, .node 1 l r, 1, 7, hheld, hnd, by decide, ?_⟩
  rintro ⟨y, hrun, d, A, B, hlevel, hy⟩
  have hangs : BinaryTree.Hangs 7 (.node 1 l r) 3 [(0, .nil), (1, .nil), (2, r)] :=
    .left 1 r (.left 2 .nil (.left 4 .nil (.here .nil .nil)))
  have hzero : y = 0 := Except.ok.inj (hrun.unique (findRightNeighbor_halts hangs hheld hnd))
  have hrow : (BinaryTree.node 1 l r).level 3 = [] ++ 7 :: [8] := rfl
  obtain rfl := behind_unique hnd hrow hlevel
  exact absurd (hzero.symm.trans hy) (by decide)

end Class4
