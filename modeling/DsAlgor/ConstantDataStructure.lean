import Mathlib.Data.Finset.Card
import Mathlib.Logic.Function.Basic
import Mathlib.Tactic

/-!
# The set with random removal in constant time

The class `ConstantDataStructure`. A reference is an `Option`, with `none` for `null`; a map of the
source is a function to `Option`, and its `get` gives `null` for a missing key. `remove` stops with
an exception (`none`) when it unboxes `null`. Sizes and indices are `Nat`: the source's `int` holds
them as long as there are at most `2 ^ 31 - 1` elements, and a `HashSet` does not count more.

`remove` fills the hole with the element of the last index, which it reads after it has taken the
hole out of `_indexMap`. When the hole is itself the last index and not the only one, it reads
`null`, and the index stays in the map (`remove_last_breaks`). All other operations keep the two
maps inverse to each other (`indices_iff`).
-/

namespace ConstantDataStructure

variable {T : Type} [DecidableEq T]

structure State (T : Type) where
  elementSet : Finset (Option T)
  indexMap : Nat → Option (Option T)
  reverseIndexMap : Option T → Option Nat

namespace State

def new : State T := ⟨∅, fun _ => none, fun _ => none⟩

def size (s : State T) : Nat := s.elementSet.card

def add (s : State T) (element : Option T) : Bool × State T :=
  if element ∉ s.elementSet then
    let s := { s with elementSet := insert element s.elementSet }
    (true, { s with
      indexMap := Function.update s.indexMap (s.size - 1) (some element)
      reverseIndexMap := Function.update s.reverseIndexMap element (some (s.size - 1)) })
  else (false, s)

/-- The branch of `remove` that moves the last element to `index`. -/
def fill (s : State T) (index : Nat) : State T :=
  let lastElement := (s.indexMap (s.size - 1)).getD none
  { s with
    indexMap := Function.update (Function.update s.indexMap (s.size - 1) none) index
      (some lastElement)
    reverseIndexMap := Function.update s.reverseIndexMap lastElement (some index) }

def remove (s : State T) (element : Option T) : Option (Bool × State T) :=
  if element ∈ s.elementSet then do
    let index ← s.reverseIndexMap element
    let s := { s with
      indexMap := Function.update s.indexMap index none
      reverseIndexMap := Function.update s.reverseIndexMap element none }
    let s := if s.size > 1 then s.fill index else s
    return (true, { s with elementSet := s.elementSet.erase element })
  else some (false, s)

/-- `removeRandomElement`, where `nextInt` gives `random` modulo its bound. -/
def removeRandomElement (s : State T) (random : Nat) : Option (Option T × State T) :=
  if s.size = 0 then some (none, s)
  else do
    let element := (s.indexMap (random % s.size)).getD none
    let (_, s) ← s.remove element
    return (element, s)

end State

open State

inductive Op (T : Type) where
  | add (element : Option T)
  | remove (element : Option T)
  | removeRandom (random : Nat)

def Op.run (s : State T) : Op T → Option (State T)
  | .add element => some (s.add element).2
  | .remove element => (s.remove element).map Prod.snd
  | .removeRandom random => (s.removeRandomElement random).map Prod.snd

/-! ## What is promised, and when it is kept -/

/-- `_indexMap` is a bijection from the first indices to the set, and `_reverseIndexMap` its
inverse. -/
structure Inv (s : State T) : Prop where
  dom : ∀ i, (s.indexMap i).isSome ↔ i < s.size
  mem : ∀ i e, s.indexMap i = some e → e ∈ s.elementSet
  onto : ∀ e ∈ s.elementSet, ∃ i, s.indexMap i = some e
  inverse : ∀ e i, s.reverseIndexMap e = some i ↔ s.indexMap i = some e

/-- A removal from a set that is not empty returns an element of it and removes this one. -/
def Draws (s : State T) (random : Nat) : Prop :=
  s.size ≠ 0 → ∃ e s', s.removeRandomElement random = some (e, s') ∧ e ∈ s.elementSet ∧
    s'.elementSet = s.elementSet.erase e

/-- The operations return and keep the maps, one after the other. -/
def Keeps : State T → List (Op T) → Prop
  | s, [] => Inv s
  | s, op :: ops => Inv s ∧ (∀ random, op = .removeRandom random → Draws s random) ∧
      ∃ s', op.run s = some s' ∧ Keeps s' ops

/-- The operation removes the element of the last index, and it is not the only one. -/
def TakesLast (s : State T) : Op T → Prop
  | .add _ => False
  | .remove element => 1 < s.size ∧ s.indexMap (s.size - 1) = some element
  | .removeRandom random => 1 < s.size ∧ random % s.size = s.size - 1

/-- No operation of the run takes the last element. -/
def Spared : State T → List (Op T) → Prop
  | _, [] => True
  | s, op :: ops => ¬TakesLast s op ∧ ∀ s', op.run s = some s' → Spared s' ops

/-! ## The operations -/

section
variable {s : State T} {e : Option T} {i : Nat}

omit [DecidableEq T] in
theorem inv_new : Inv (new : State T) :=
  ⟨fun i => by simp [new, size], nofun, nofun, fun e i => by simp [new]⟩

omit [DecidableEq T] in
theorem Inv.injective (h : Inv s) {j : Nat} (hi : s.indexMap i = some e)
    (hj : s.indexMap j = some e) : i = j := by
  have hi' := (h.inverse e i).2 hi
  have hj' := (h.inverse e j).2 hj
  rw [hi'] at hj'
  exact Option.some.inj hj'

omit [DecidableEq T] in
theorem Inv.lt (h : Inv s) (hi : s.indexMap i = some e) : i < s.size := by
  rw [← h.dom, hi]
  rfl

theorem Inv.add (h : Inv s) (e : Option T) : Inv (s.add e).2 := by
  unfold State.add
  by_cases he : e ∈ s.elementSet
  · rw [if_neg (not_not.2 he)]
    exact h
  · rw [if_pos he]
    have hsize : (insert e s.elementSet).card - 1 = s.size := by
      rw [Finset.card_insert_of_notMem he]
      rfl
    have hnone : ∀ i, s.indexMap i ≠ some e := fun i hi => he (h.mem i e hi)
    dsimp only [size]
    rw [hsize]
    refine ⟨fun i => ?_, fun i x hi => ?_, fun x hx => ?_, fun x i => ?_⟩
    · have hcard : (insert e s.elementSet).card = s.size + 1 := Finset.card_insert_of_notMem he
      show (Function.update s.indexMap s.size (some e) i).isSome ↔ i < (insert e s.elementSet).card
      rw [hcard]
      by_cases hi : i = s.size
      · rw [hi, Function.update_self]
        simp
      · rw [Function.update_of_ne hi, h.dom]
        omega
    · dsimp only at hi ⊢
      rw [Finset.mem_insert]
      by_cases hin : i = s.size
      · rw [hin, Function.update_self] at hi
        exact .inl (Option.some.inj hi).symm
      · rw [Function.update_of_ne hin] at hi
        exact .inr (h.mem i x hi)
    · dsimp only at hx ⊢
      rcases Finset.mem_insert.1 hx with rfl | hx
      · exact ⟨s.size, Function.update_self _ _ _⟩
      · obtain ⟨i, hi⟩ := h.onto x hx
        exact ⟨i, by rw [Function.update_of_ne (ne_of_lt (h.lt hi)), hi]⟩
    · dsimp only
      by_cases hx : x = e
      · rw [hx, Function.update_self]
        by_cases hi : i = s.size
        · rw [hi, Function.update_self]
          simp
        · rw [Function.update_of_ne hi]
          simp only [Option.some.injEq]
          exact ⟨fun heq => absurd heq.symm hi, fun heq => absurd heq (hnone i)⟩
      · rw [Function.update_of_ne hx, h.inverse]
        by_cases hi : i = s.size
        · rw [hi, Function.update_self]
          simp only [Option.some.injEq]
          exact ⟨fun heq => absurd (h.lt heq) (lt_irrefl _), fun heq => absurd heq.symm hx⟩
        · rw [Function.update_of_ne hi]

theorem remove_only_eq (hmem : e ∈ s.elementSet) (hi : s.reverseIndexMap e = some i)
    (hsize : ¬1 < s.size) :
    s.remove e = some (true, ⟨s.elementSet.erase e, Function.update s.indexMap i none,
      Function.update s.reverseIndexMap e none⟩) := by
  unfold size at hsize
  simp [State.remove, hmem, hi, size, hsize]

theorem remove_eq (hmem : e ∈ s.elementSet) (hi : s.reverseIndexMap e = some i) (hsize : 1 < s.size)
    {x : Option T} (hx : (Function.update s.indexMap i none (s.size - 1)).getD none = x) :
    s.remove e = some (true, ⟨s.elementSet.erase e,
      Function.update (Function.update (Function.update s.indexMap i none) (s.size - 1) none) i
        (some x),
      Function.update (Function.update s.reverseIndexMap e none) x (some i)⟩) := by
  unfold size at hsize hx
  simp [State.remove, hmem, hi, size, hsize, fill, hx]

/-- The removal of the only element. -/
theorem Inv.remove_only (h : Inv s) (hi : s.indexMap i = some e) (hsize : s.size = 1) :
    ∃ s', s.remove e = some (true, s') ∧ Inv s' ∧ s'.elementSet = s.elementSet.erase e := by
  have hmem := h.mem i e hi
  have hcard : (s.elementSet.erase e).card = 0 := by
    rw [Finset.card_erase_of_mem hmem]
    exact Nat.sub_eq_zero_of_le hsize.le
  have hi0 : i = 0 := by
    have := h.lt hi
    omega
  have hnone : ∀ j, Function.update s.indexMap i none j = none := by
    intro j
    by_cases hj : j = i
    · rw [hj, Function.update_self]
    · rw [Function.update_of_ne hj, ← Option.not_isSome_iff_eq_none, h.dom]
      omega
  refine ⟨_, remove_only_eq hmem ((h.inverse e i).2 hi) (by omega),
    ⟨fun j => ?_, fun j x hj => ?_, fun x hx => ?_, fun x j => ?_⟩, rfl⟩
  · show (Function.update s.indexMap i none j).isSome ↔ j < (s.elementSet.erase e).card
    rw [hcard, hnone]
    simp
  · dsimp only at hj
    rw [hnone] at hj
    cases hj
  · dsimp only at hx
    rw [Finset.card_eq_zero.1 hcard] at hx
    cases hx
  · dsimp only
    rw [hnone]
    by_cases hx : x = e
    · rw [hx, Function.update_self]
      simp
    · rw [Function.update_of_ne hx, h.inverse]
      simp only [reduceCtorEq, iff_false]
      intro hj
      have hj0 : j = i := by
        have := h.lt hj
        omega
      rw [hj0, hi] at hj
      exact hx (Option.some.inj hj).symm

/-- The removal of an element that is not the last one: the last one takes its place. -/
theorem Inv.remove_inner (h : Inv s) (hi : s.indexMap i = some e) (hlast : i ≠ s.size - 1) :
    ∃ s', s.remove e = some (true, s') ∧ Inv s' ∧ s'.elementSet = s.elementSet.erase e := by
  have hmem := h.mem i e hi
  have hlt := h.lt hi
  have hcard : (s.elementSet.erase e).card = s.size - 1 := Finset.card_erase_of_mem hmem
  obtain ⟨x, hx⟩ : ∃ x, s.indexMap (s.size - 1) = some x := by
    rw [← Option.isSome_iff_exists, h.dom]
    omega
  have hxe : x ≠ e := by
    intro heq
    rw [heq] at hx
    exact hlast (h.injective hi hx)
  have hindex : ∀ j y,
    Function.update (Function.update (Function.update s.indexMap i none) (s.size - 1) none) i
    (some x) j = some y ↔ (j = i ∧ y = x) ∨ (j ≠ i ∧ j ≠ s.size - 1 ∧ s.indexMap j = some y) := by
    intro j y
    simp only [Function.update_apply]
    split_ifs with h1 h2
    · simp [h1, eq_comm]
    · constructor
      · nofun
      · rintro (⟨heq, -⟩ | ⟨-, hn, -⟩)
        · exact absurd heq h1
        · exact absurd h2 hn
    · simp [h1, h2]
  refine ⟨_, remove_eq hmem ((h.inverse e i).2 hi) (by omega)
    (by rw [Function.update_of_ne (Ne.symm hlast), hx, Option.getD_some]),
    ⟨fun j => ?_, fun j y hj => ?_, fun y hy => ?_, fun y j => ?_⟩, rfl⟩
  · rw [Option.isSome_iff_exists]
    simp only [hindex]
    rw [show State.size (T := T) ⟨s.elementSet.erase e, _, _⟩ =
      (s.elementSet.erase e).card from rfl, hcard]
    constructor
    · rintro ⟨y, ⟨rfl, -⟩ | ⟨-, hjl, hj⟩⟩
      · omega
      · have := h.lt hj
        omega
    · intro hj
      by_cases hji : j = i
      · exact ⟨x, .inl ⟨hji, rfl⟩⟩
      · obtain ⟨y, hy⟩ := Option.isSome_iff_exists.1 ((h.dom j).2 (by omega))
        exact ⟨y, .inr ⟨hji, by omega, hy⟩⟩
  · dsimp only at hj ⊢
    rw [Finset.mem_erase]
    rcases (hindex j y).1 hj with ⟨-, rfl⟩ | ⟨hji, -, hj'⟩
    · exact ⟨hxe, h.mem _ _ hx⟩
    · refine ⟨fun heq => ?_, h.mem j y hj'⟩
      rw [heq] at hj'
      exact hji (h.injective hj' hi)
  · dsimp only at hy ⊢
    rw [Finset.mem_erase] at hy
    obtain ⟨j, hj⟩ := h.onto y hy.2
    by_cases hjl : j = s.size - 1
    · rw [hjl, hx] at hj
      exact ⟨i, (hindex i y).2 (.inl ⟨rfl, (Option.some.inj hj).symm⟩)⟩
    · refine ⟨j, (hindex j y).2 (.inr ⟨fun hji => ?_, hjl, hj⟩)⟩
      rw [hji, hi] at hj
      exact hy.1 (Option.some.inj hj).symm
  · dsimp only
    rw [hindex]
    by_cases hyx : y = x
    · rw [hyx, Function.update_self, Option.some.injEq]
      constructor
      · exact fun heq => .inl ⟨heq.symm, rfl⟩
      · rintro (⟨heq, -⟩ | ⟨-, hjl, hj⟩)
        · exact heq.symm
        · exact absurd (h.injective hj hx) hjl
    · rw [Function.update_of_ne hyx]
      by_cases hye : y = e
      · rw [hye, Function.update_self]
        simp only [reduceCtorEq, false_iff]
        rintro (⟨-, heq⟩ | ⟨hji, -, hj⟩)
        · exact hxe heq.symm
        · exact hji (h.injective hj hi)
      · rw [Function.update_of_ne hye, h.inverse]
        constructor
        · intro hj
          refine .inr ⟨fun hji => ?_, fun hjl => ?_, hj⟩
          · rw [hji, hi] at hj
            exact hye (Option.some.inj hj).symm
          · rw [hjl, hx] at hj
            exact hyx (Option.some.inj hj).symm
        · rintro (⟨-, heq⟩ | ⟨-, -, hj⟩)
          · exact absurd heq hyx
          · exact hj

/-- The removal of the last element, when it is not the only one: its index stays in the map. -/
theorem Inv.remove_last (h : Inv s) (hi : s.indexMap (s.size - 1) = some e) (hsize : 1 < s.size) :
    ∃ s', s.remove e = some (true, s') ∧ ¬Inv s' := by
  have hmem := h.mem _ e hi
  have hcard : (s.elementSet.erase e).card = s.size - 1 := Finset.card_erase_of_mem hmem
  refine ⟨_, remove_eq hmem ((h.inverse e _).2 hi) hsize rfl, fun hinv => ?_⟩
  have hdom := (hinv.dom (s.size - 1)).1 (by dsimp only; rw [Function.update_self]; rfl)
  rw [show (State.size (T := T) ⟨s.elementSet.erase e, _, _⟩) =
    (s.elementSet.erase e).card from rfl, hcard] at hdom
  exact lt_irrefl _ hdom

/-- The removal of an element by its index. -/
theorem Inv.remove_iff (h : Inv s) (hi : s.indexMap i = some e) :
    (∃ s', s.remove e = some (true, s') ∧ Inv s' ∧ s'.elementSet = s.elementSet.erase e) ↔
      ¬(1 < s.size ∧ i = s.size - 1) := by
  have hlt := h.lt hi
  constructor
  · rintro ⟨s', hrun, hinv, -⟩ ⟨hsize, rfl⟩
    obtain ⟨s₁, hrun₁, hbad⟩ := h.remove_last hi hsize
    rw [hrun] at hrun₁
    cases hrun₁
    exact hbad hinv
  · intro hn
    by_cases hsize : s.size = 1
    · exact h.remove_only hi hsize
    · exact h.remove_inner hi fun heq => hn ⟨by omega, heq⟩

/-- The operation returns and keeps the maps, and a random removal draws an element. -/
def Meets (s : State T) (op : Op T) : Prop :=
  (∀ random, op = .removeRandom random → Draws s random) ∧ ∃ s', op.run s = some s' ∧ Inv s'

theorem removeRandomElement_eq {random : Nat} (hsize : s.size ≠ 0)
    (he : s.indexMap (random % s.size) = some e) :
    s.removeRandomElement random = (s.remove e).map fun r => (e, r.2) := by
  unfold removeRandomElement
  rw [if_neg hsize, he, Option.getD_some]
  dsimp only
  cases s.remove e <;> rfl

theorem Inv.step_iff (h : Inv s) (op : Op T) : Meets s op ↔ ¬TakesLast s op := by
  cases op with
  | add element => exact ⟨fun _ => id, fun _ => ⟨nofun, _, rfl, h.add element⟩⟩
  | remove element =>
    by_cases hmem : element ∈ s.elementSet
    · obtain ⟨i, hi⟩ := h.onto element hmem
      have hlast : s.indexMap (s.size - 1) = some element ↔ i = s.size - 1 :=
        ⟨fun hl => h.injective hi hl, fun heq => heq ▸ hi⟩
      unfold TakesLast
      dsimp only
      rw [hlast, ← h.remove_iff hi]
      constructor
      · rintro ⟨-, s', hrun, hinv⟩
        by_contra hn
        rw [h.remove_iff hi, not_not] at hn
        obtain ⟨s₁, hrun₁, hbad⟩ := h.remove_last (hn.2 ▸ hi) hn.1
        unfold Op.run at hrun
        dsimp only at hrun
        rw [hrun₁] at hrun
        cases hrun
        exact hbad hinv
      · rintro ⟨s', hrun, hinv, -⟩
        refine ⟨nofun, s', ?_, hinv⟩
        unfold Op.run
        dsimp only
        rw [hrun]
        rfl
    · refine ⟨fun _ hlast => hmem (h.mem _ _ hlast.2), fun _ => ⟨nofun, s, ?_, h⟩⟩
      unfold Op.run State.remove
      dsimp only
      rw [if_neg hmem]
      rfl
  | removeRandom random =>
    by_cases hsize : s.size = 0
    · refine ⟨fun _ hlast => ?_, fun _ => ⟨fun _ _ hn => absurd hsize hn, s, ?_, h⟩⟩
      · have := hlast.1
        omega
      · unfold Op.run removeRandomElement
        dsimp only
        rw [if_pos hsize]
        rfl
    · obtain ⟨e, he⟩ :=
        Option.isSome_iff_exists.1
        ((h.dom (random % s.size)).2 (Nat.mod_lt _ (Nat.pos_of_ne_zero hsize)))
      have hdraw := removeRandomElement_eq hsize he
      unfold TakesLast
      dsimp only
      rw [← h.remove_iff he]
      constructor
      · rintro ⟨-, s', hrun, hinv⟩
        by_contra hn
        rw [h.remove_iff he, not_not] at hn
        obtain ⟨s₁, hrun₁, hbad⟩ := h.remove_last (hn.2 ▸ he) hn.1
        unfold Op.run at hrun
        dsimp only at hrun
        rw [hdraw, hrun₁] at hrun
        cases hrun
        exact hbad hinv
      · rintro ⟨s', hrun, hinv, hset⟩
        rw [hrun] at hdraw
        refine ⟨fun r hr hne => ?_, s', ?_, hinv⟩
        · cases hr
          exact ⟨e, s', hdraw, h.mem _ _ he, hset⟩
        · unfold Op.run
          dsimp only
          rw [hdraw]
          rfl

theorem Inv.run_iff (h : Inv s) (ops : List (Op T)) : Keeps s ops ↔ Spared s ops := by
  induction ops generalizing s with
  | nil => exact ⟨fun _ => trivial, fun _ => h⟩
  | cons op ops ih =>
    have hstep := h.step_iff op
    constructor
    · rintro ⟨-, hdraws, s', hrun, hkeeps⟩
      have hinv : Inv s' := by
        cases ops with
        | nil => exact hkeeps
        | cons => exact hkeeps.1
      refine ⟨hstep.1 ⟨hdraws, s', hrun, hinv⟩, fun s₁ hrun₁ => ?_⟩
      rw [hrun] at hrun₁
      cases hrun₁
      exact (ih hinv).1 hkeeps
    · rintro ⟨hspares, hspared⟩
      obtain ⟨hdraws, s', hrun, hinv⟩ := hstep.2 hspares
      exact ⟨h, hdraws, s', hrun, (ih hinv).2 (hspared s' hrun)⟩

end

/-- **The index maps**: they stay a bijection and its inverse in the runs that never take the last
of several elements, and in no others. -/
theorem indices_iff (ops : List (Op T)) : Keeps new ops ↔ Spared new ops := inv_new.run_iff ops

/-- Two elements; the second one is removed. -/
theorem remove_last_breaks :
    ¬Keeps new [Op.add (some 'a'), .add (some 'b'), .remove (some 'b')] := by
  intro h
  have hspared := (inv_new.run_iff _).1 h
  exact ((hspared.2 _ rfl).2 _ rfl).1 ⟨by decide, by decide⟩

end ConstantDataStructure
