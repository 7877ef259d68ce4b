import Mathlib.Data.List.Basic
import Mathlib.Data.List.Pairwise
import Mathlib.Order.WithBot
import Mathlib.Tactic

/-!
# Search trees as stacks of levels

A multiway search tree whose leaves have one depth is a stack of levels. An *item* is a node with
the separator on its left (`⊥` for the leftmost node of the level). A *group* is an inner node:
its address and the items of its children, the first of which carries the separator that stands
to the left of the node itself. `Tower Ok root i items Gss` says that the levels `Gss`, lowest
first, stand on the level `items`: the groups of each level, read left to right, are the level
below (`flat`), each level satisfies `Ok` at its height, and the top is the single node `root`.

Splitting, borrowing and merging nodes only move the borders between the groups of a level, so
`flat` is the same before and after; what is inserted or erased is one item of the level below.
-/

namespace Levels

variable {K P : Type*}

/-- A node of a level with the separator on its left. -/
abbrev Item (K P : Type*) := WithBot K × P

/-- An inner node: its address and its children's items. -/
structure Group (K P : Type*) where
  ptr : P
  items : List (Item K P)

/-- The separator on the left of a node is the one on the left of its first child. -/
def Group.lo (g : Group K P) : WithBot K := (g.items.head?.map Prod.fst).getD ⊥

/-- The item of the node itself, on its own level. -/
def Group.item (g : Group K P) : Item K P := (g.lo, g.ptr)

/-- The level below. -/
def flat (Gs : List (Group K P)) : List (Item K P) := Gs.flatMap Group.items

/-- The level's own items. -/
def heads (Gs : List (Group K P)) : List (Item K P) := Gs.map Group.item

/-- The addresses of a level's nodes. -/
def ptrs (Gs : List (Group K P)) : List P := Gs.map Group.ptr

/-- The addresses of all nodes of a stack of levels. -/
def allPtrs (Gss : List (List (Group K P))) : List P := Gss.flatMap ptrs

/-- The stack of levels `Gss` on `items` (module doc); `Ok` is told the level's height and whether
it is the topmost one. -/
def Tower (Ok : Nat → Bool → List (Group K P) → Prop) (root : P) :
    Nat → List (Item K P) → List (List (Group K P)) → Prop
  | _, items, [] => ∃ lo, items = [(lo, root)]
  | i, items, Gs :: rest =>
    flat Gs = items ∧ (∀ g ∈ Gs, g.items ≠ []) ∧ Ok i rest.isEmpty Gs ∧
      Tower Ok root (i + 1) (heads Gs) rest

/-! ## Groups, levels and their items -/

variable {Gs : List (Group K P)} {X Y items I₁ I₂ : List (Item K P)} {c : Item K P} {g : Group K P}

@[simp] theorem Group.lo_cons (p : P) (c : Item K P) (I : List (Item K P)) :
    (Group.mk p (c :: I)).lo = c.1 := rfl

@[simp] theorem Group.item_fst (g : Group K P) : g.item.1 = g.lo := rfl

@[simp] theorem Group.item_snd (g : Group K P) : g.item.2 = g.ptr := rfl

@[simp] theorem flat_nil : flat ([] : List (Group K P)) = [] := rfl

@[simp] theorem flat_cons (g : Group K P) (Gs : List (Group K P)) :
    flat (g :: Gs) = g.items ++ flat Gs := rfl

@[simp] theorem flat_append (A B : List (Group K P)) : flat (A ++ B) = flat A ++ flat B := by
  simp [flat]

@[simp] theorem heads_nil : heads ([] : List (Group K P)) = [] := rfl

@[simp] theorem heads_cons (g : Group K P) (Gs : List (Group K P)) :
    heads (g :: Gs) = g.item :: heads Gs := rfl

@[simp] theorem heads_append (A B : List (Group K P)) : heads (A ++ B) = heads A ++ heads B := by
  simp [heads]

@[simp] theorem ptrs_nil : ptrs ([] : List (Group K P)) = [] := rfl

@[simp] theorem ptrs_cons (g : Group K P) (Gs : List (Group K P)) :
    ptrs (g :: Gs) = g.ptr :: ptrs Gs := rfl

@[simp] theorem ptrs_append (A B : List (Group K P)) : ptrs (A ++ B) = ptrs A ++ ptrs B := by
  simp [ptrs]

@[simp] theorem allPtrs_nil : allPtrs ([] : List (List (Group K P))) = [] := rfl

@[simp] theorem allPtrs_cons (Gs : List (Group K P)) (Gss : List (List (Group K P))) :
    allPtrs (Gs :: Gss) = ptrs Gs ++ allPtrs Gss := rfl

theorem map_snd_heads (Gs : List (Group K P)) : (heads Gs).map Prod.snd = ptrs Gs := by
  simp [heads, ptrs, Function.comp_def]

theorem mem_flat : c ∈ flat Gs ↔ ∃ g ∈ Gs, c ∈ g.items := by simp [flat]

/-- The group a child belongs to. -/
theorem flat_eq_mid (h : flat Gs = X ++ c :: Y) :
    ∃ A g B I₁ I₂, Gs = A ++ g :: B ∧ g.items = I₁ ++ c :: I₂ ∧ X = flat A ++ I₁ ∧
      Y = I₂ ++ flat B := by
  induction Gs generalizing X with
  | nil => simp at h
  | cons g Gs ih =>
    rw [flat_cons, List.append_eq_append_iff] at h
    rcases h with ⟨X', rfl, h⟩ | ⟨Y', hg, h⟩
    · obtain ⟨A, g', B, I₁, I₂, rfl, hg, rfl, rfl⟩ := ih h
      exact ⟨g :: A, g', B, I₁, I₂, rfl, hg, by simp, rfl⟩
    · cases Y' with
      | nil =>
        obtain ⟨A, g', B, I₁, I₂, rfl, hg', hX, rfl⟩ := ih (X := []) (by simpa using h.symm)
        refine ⟨g :: A, g', B, I₁, I₂, rfl, hg', ?_, rfl⟩
        rw [flat_cons, List.append_assoc, ← hX, hg]
        simp
      | cons d Y' =>
        simp only [List.cons_append, List.cons.injEq] at h
        obtain ⟨rfl, rfl⟩ := h
        exact ⟨[], g, Gs, X, Y', rfl, hg, by simp, rfl⟩

/-- The node an item of a level belongs to. -/
theorem heads_eq_mid (h : heads Gs = X ++ c :: Y) :
    ∃ A g B, Gs = A ++ g :: B ∧ heads A = X ∧ g.item = c ∧ heads B = Y := by
  obtain ⟨A, B', rfl, hA, hB⟩ := List.map_eq_append_iff.1 h
  obtain ⟨g, B, rfl, hg, hB⟩ := List.map_eq_cons_iff.1 hB
  exact ⟨A, g, B, rfl, hA, hg, hB⟩

theorem lo_of_items {I : List (Item K P)} (h : g.items = c :: I) :
    g.lo = c.1 := by simp [Group.lo, h]

/-- A level's separators occur on the level below. -/
theorem lo_mem_flat (hne : ∀ g ∈ Gs, g.items ≠ []) (hg : g ∈ Gs) :
    ∃ c ∈ flat Gs, c ∈ g.items ∧ c.1 = g.lo := by
  obtain ⟨c, I, hI⟩ := List.exists_cons_of_ne_nil (hne g hg)
  exact ⟨c, mem_flat.2 ⟨g, hg, by simp [hI]⟩, by simp [hI], (lo_of_items hI).symm⟩

/-! ## Order -/

section
variable [LinearOrder K]

/-- The separators of a level ascend. -/
def Sorted (items : List (Item K P)) : Prop := items.Pairwise fun a b => a.1 < b.1

theorem Sorted.sublist (h : Sorted Y) (hs : X.Sublist Y) : Sorted X :=
  List.Pairwise.sublist hs h

/-- A separator between those of two neighbours. -/
theorem Sorted.insert {k : WithBot K} {p : P} (h : Sorted (X ++ c :: Y)) (hlo : c.1 < k)
    (hhi : ∀ y ∈ Y, k < y.1) : Sorted (X ++ c :: (k, p) :: Y) := by
  obtain ⟨h1, h2, h3⟩ := List.pairwise_append.1 h
  obtain ⟨h4, h5⟩ := List.pairwise_cons.1 h2
  refine List.pairwise_append.2 ⟨h1, List.pairwise_cons.2 ⟨?_, List.pairwise_cons.2 ⟨hhi, h5⟩⟩, ?_⟩
  · intro b hb
    rcases List.mem_cons.1 hb with rfl | hb
    · exact hlo
    · exact h4 b hb
  · intro a ha b hb
    have hac := h3 a ha c List.mem_cons_self
    rcases List.mem_cons.1 hb with rfl | hb
    · exact hac
    rcases List.mem_cons.1 hb with rfl | hb
    · exact hac.trans hlo
    · exact h3 a ha b (List.mem_cons_of_mem _ hb)

theorem sorted_items (h : Sorted (flat Gs)) (hg : g ∈ Gs) : Sorted g.items := by
  obtain ⟨A, B, rfl⟩ := List.append_of_mem hg
  refine h.sublist ?_
  rw [flat_append, flat_cons]
  exact (List.sublist_append_left _ _).trans (List.sublist_append_right _ _)

theorem sorted_heads (hne : ∀ g ∈ Gs, g.items ≠ []) (h : Sorted (flat Gs)) : Sorted (heads Gs) := by
  induction Gs with
  | nil => simp [Sorted]
  | cons g Gs ih =>
    have hne' : ∀ g ∈ Gs, g.items ≠ [] := fun g' hg' => hne g' (List.mem_cons_of_mem _ hg')
    rw [flat_cons] at h
    obtain ⟨-, h2, h3⟩ := List.pairwise_append.1 h
    refine List.pairwise_cons.2 ⟨fun b hb => ?_, ih hne' h2⟩
    obtain ⟨g', hg', rfl⟩ := List.mem_map.1 hb
    obtain ⟨c, hc, -, hlo⟩ := lo_mem_flat hne' hg'
    obtain ⟨d, I, hI⟩ := List.exists_cons_of_ne_nil (hne g List.mem_cons_self)
    have := h3 d (by simp [hI]) c hc
    rwa [hlo, ← lo_of_items hI] at this

/-- `k` belongs under `c`: the separators up to `c` are at most `k`, those after it are above. -/
structure Located (k : K) (X : List (Item K P)) (c : Item K P) (Y : List (Item K P)) : Prop where
  before : ∀ a ∈ X, a.1 ≤ (k : WithBot K)
  here : c.1 ≤ (k : WithBot K)
  after : ∀ b ∈ Y, (k : WithBot K) < b.1

theorem located_exists (k : K) (hs : Sorted items) :
    ∀ {c : Item K P} {I : List (Item K P)}, items = c :: I → c.1 ≤ (k : WithBot K) →
      ∃ X d Y, items = X ++ d :: Y ∧ Located k X d Y := by
  induction items with
  | nil => simp
  | cons a items ih =>
    intro c I hI hc
    obtain ⟨rfl, rfl⟩ := List.cons.inj hI
    have hs' := List.pairwise_cons.1 hs
    cases items with
    | nil => exact ⟨[], a, [], rfl, by simp, hc, by simp⟩
    | cons b items =>
      rcases le_or_gt b.1 (k : WithBot K) with hb | hb
      · obtain ⟨X, d, Y, h, hl⟩ := ih hs'.2 rfl hb
        refine ⟨a :: X, d, Y, by rw [h]; rfl, ?_, hl.here, hl.after⟩
        intro a' ha'
        rcases List.mem_cons.1 ha' with rfl | ha'
        · exact hc
        · exact hl.before a' ha'
      · refine ⟨[], a, b :: items, rfl, by simp, hc, fun b' hb' => ?_⟩
        rcases List.mem_cons.1 hb' with rfl | hb'
        · exact hb
        · exact hb.trans ((List.pairwise_cons.1 hs'.2).1 b' hb')

/-- In a group whose left separator is at most `k` and whose right neighbours are above it, the
child `k` belongs under is the one on the level below. -/
theorem Located.flat {k : K} {A B : List (Group K P)} (hne : ∀ x ∈ A ++ g :: B, x.items ≠ [])
    (hs : Sorted (flat (A ++ g :: B))) (hl : Located k (heads A) g.item (heads B))
    (hg : g.items = I₁ ++ c :: I₂) (hi : Located k I₁ c I₂) :
    Located k (flat A ++ I₁) c (I₂ ++ Levels.flat B) := by
  refine ⟨fun a ha => ?_, hi.here, fun b hb => ?_⟩
  · rcases List.mem_append.1 ha with ha | ha
    · rw [flat_append, flat_cons, hg] at hs
      have := (List.pairwise_append.1 hs).2.2 a ha c (by simp)
      exact this.le.trans hi.here
    · exact hi.before a ha
  · rcases List.mem_append.1 hb with hb | hb
    · exact hi.after b hb
    · obtain ⟨g', hg', hb'⟩ := mem_flat.1 hb
      have hlt : (k : WithBot K) < g'.lo := hl.after g'.item (List.mem_map_of_mem hg')
      have hsg : Sorted g'.items := sorted_items hs (by simp [hg'])
      obtain ⟨d, I, hI⟩ := List.exists_cons_of_ne_nil (hne g' (by simp [hg']))
      rw [lo_of_items hI] at hlt
      rw [hI] at hb' hsg
      rcases List.mem_cons.1 hb' with rfl | hb'
      · exact hlt
      · exact hlt.trans ((List.pairwise_cons.1 hsg).1 b hb')

end

/-! ## Towers -/

section
variable {Ok Ok' : Nat → Bool → List (Group K P) → Prop} {root : P}

/-- A level's condition may change as long as the levels of the tower satisfy the new one. -/
theorem Tower.mono : ∀ {i : Nat} {items : List (Item K P)} {Gss : List (List (Group K P))},
    (∀ j ≥ i, ∀ b Gs, Gs ∈ Gss → Ok j b Gs → Ok' j b Gs) → Tower Ok root i items Gss →
      Tower Ok' root i items Gss
  | _, _, [], _, h => h
  | i, _, Gs :: _, hOk, ⟨hf, hne, ho, ht⟩ =>
    ⟨hf, hne, hOk i le_rfl _ Gs List.mem_cons_self ho,
      ht.mono fun j hj b G hG => hOk j (Nat.le_of_succ_le hj) b G (List.mem_cons_of_mem _ hG)⟩

theorem Tower.sorted [LinearOrder K] {i : Nat} {rest : List (List (Group K P))}
    (h : Tower Ok root i items (Gs :: rest)) (hs : Sorted items) : Sorted (heads Gs) :=
  sorted_heads h.2.1 (h.1 ▸ hs)

/-- **Descent**: a step function that finds the child `k` belongs under in every node leads, in as
many steps as there are levels, from the root to the item `k` belongs under. -/
theorem Tower.descend [LinearOrder K] {k : K} {step : P → P} :
    ∀ {i : Nat} {items : List (Item K P)} {Gss : List (List (Group K P))},
    Tower Ok root i items Gss → Sorted items →
    (∀ c I, items = c :: I → c.1 ≤ (k : WithBot K)) →
    (∀ Gs ∈ Gss, ∀ g ∈ Gs, ∀ I₁ c I₂, g.items = I₁ ++ c :: I₂ → Sorted g.items →
      Located k I₁ c I₂ → step g.ptr = c.2) →
    ∃ X c Y, items = X ++ c :: Y ∧ Located k X c Y ∧ step^[Gss.length] root = c.2
  | _, items, [], ⟨lo, h⟩, _, hk, _ =>
    ⟨[], (lo, root), [], h, ⟨by simp, hk _ _ h, by simp⟩, rfl⟩
  | i, items, Gs :: rest, h, hs, hk, hstep => by
    obtain ⟨hf, hne, -, ht⟩ := h
    subst hf
    have hk' : ∀ c I, heads Gs = c :: I → c.1 ≤ (k : WithBot K) := by
      intro c I hc
      obtain ⟨g, Gs', rfl, rfl, -⟩ := List.map_eq_cons_iff.1 hc
      obtain ⟨d, J, hJ⟩ := List.exists_cons_of_ne_nil (hne g List.mem_cons_self)
      have := hk d (J ++ flat Gs') (by simp [hJ])
      rwa [← lo_of_items hJ] at this
    obtain ⟨X, c, Y, hX, hl, hit⟩ := ht.descend (sorted_heads hne hs) hk'
      (fun Gs' hGs' => hstep Gs' (List.mem_cons_of_mem _ hGs'))
    obtain ⟨A, g, B, rfl, rfl, rfl, rfl⟩ := heads_eq_mid hX
    have hg : g ∈ A ++ g :: B := by simp
    have hsg := sorted_items hs hg
    obtain ⟨d, J, hJ⟩ := List.exists_cons_of_ne_nil (hne g hg)
    obtain ⟨I₁, e, I₂, hI, hi⟩ := located_exists k hsg hJ (by
      rw [← lo_of_items hJ]; exact hl.here)
    refine ⟨flat A ++ I₁, e, I₂ ++ flat B, by simp [hI], hl.flat hne hs hI hi, ?_⟩
    rw [List.length_cons, Function.iterate_succ_apply', hit]
    exact hstep _ List.mem_cons_self g hg I₁ e I₂ hI hsg hi

end

end Levels
