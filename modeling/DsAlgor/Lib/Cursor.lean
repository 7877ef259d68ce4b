import Mathlib.Data.List.Basic
import Mathlib.Data.Set.Insert
import Mathlib.Order.RelClasses

/-!
# Cursors over a set of keys

A cursor stands at a key of the set or nowhere, and keys come in while it moves. The keys are
ordered by `r`; the other direction is `Function.swap r`, so that every fact is stated once.
`Scan` is the loop that visits the keys from a position on: the visited keys ascend
(`Scan.pairwise`), and they are the keys that were there when the loop began and those that came in
ahead of the cursor (`Scan.mem_iff`).
-/

namespace Cursor

variable {α : Type*} (r : α → α → Prop)

/-- The first key with the property `P`. -/
def Least (P : α → Prop) : Option α → Prop
  | none => ∀ a, ¬ P a
  | some m => P m ∧ ∀ a, P a → ¬ r a m

structure State (α : Type*) where
  keys : Set α
  pos : Option α

inductive Op (α : Type*)
  | insert (a : α)
  | seekToFirst
  | seekToLast
  | seek (a : α)
  | next
  | prev

/-- The moves that need a position. -/
inductive Op.Moves : Op α → Prop
  | next : Moves .next
  | prev : Moves .prev

/-- The key that comes in. -/
def Op.key : Op α → Option α
  | .insert a => some a
  | _ => none

inductive Step : State α → Op α → State α → Prop
  | insert {s : State α} {a : α} : a ∉ s.keys → Step s (.insert a) ⟨insert a s.keys, s.pos⟩
  | seekToFirst {s : State α} {o : Option α} : Least r (· ∈ s.keys) o →
      Step s .seekToFirst ⟨s.keys, o⟩
  | seekToLast {s : State α} {o : Option α} : Least (Function.swap r) (· ∈ s.keys) o →
      Step s .seekToLast ⟨s.keys, o⟩
  | seek {s : State α} {a : α} {o : Option α} : Least r (fun b => b ∈ s.keys ∧ ¬ r b a) o →
      Step s (.seek a) ⟨s.keys, o⟩
  | next {s : State α} {a : α} {o : Option α} : s.pos = some a →
      Least r (fun b => b ∈ s.keys ∧ r a b) o → Step s .next ⟨s.keys, o⟩
  | prev {s : State α} {a : α} {o : Option α} : s.pos = some a →
      Least (Function.swap r) (fun b => b ∈ s.keys ∧ r b a) o → Step s .prev ⟨s.keys, o⟩

inductive Run : State α → List (Op α) → State α → Prop
  | nil {s : State α} : Run s [] s
  | concat {s s' s'' : State α} {ops : List (Op α)} {op : Op α} : Run s ops s' →
      Step r s' op s'' → Run s (ops ++ [op]) s''

/-- A loop from position `o` on: `ks` are the keys that it visits, and while it visits the key
number `i`, the keys of the list number `i` of `bs` come in. -/
inductive Scan : Set α → Option α → List (List α) → List α → Prop
  | done {K : Set α} {bs : List (List α)} : Scan K none bs []
  | visit {K K' : Set α} {k : α} {o : Option α} {bs : List (List α)} {ks : List α} :
      (∀ a, a ∈ K' ↔ a ∈ K ∨ a ∈ bs.headD []) → Least r (fun a => a ∈ K' ∧ r k a) o →
      Scan K' o bs.tail ks → Scan K (some k) bs (k :: ks)

/-- How many keys a loop will visit if nothing comes in. -/
def ahead [DecidableRel r] (K : List α) : Option α → Nat
  | none => 0
  | some k => K.countP (r k ·) + 1

section
variable {r} {P Q : α → Prop} {K : Set α} {k : α} {o : Option α} {bs : List (List α)}
  {ks A B : List α}

theorem Least.congr (h : Least r P o) (hiff : ∀ a, P a ↔ Q a) : Least r Q o := by
  cases o with
  | none => exact fun a ha => h a ((hiff a).2 ha)
  | some m => exact ⟨(hiff m).1 h.1, fun a ha => h.2 a ((hiff a).2 ha)⟩

/-! ## Runs -/

theorem Step.keys {s s' : State α} {op : Op α} (h : Step r s op s') (a : α) :
    a ∈ s'.keys ↔ a ∈ s.keys ∨ op.key = some a := by
  cases h with
  | @insert b _ =>
    show a = b ∨ a ∈ s.keys ↔ a ∈ s.keys ∨ some b = some a
    rw [Option.some.injEq, or_comm, eq_comm]
  | seekToFirst => simp [Op.key]
  | seekToLast => simp [Op.key]
  | seek => simp [Op.key]
  | next => simp [Op.key]
  | prev => simp [Op.key]

theorem Run.keys {s s' : State α} {ops : List (Op α)} (h : Run r s ops s') (a : α) :
    a ∈ s'.keys ↔ a ∈ s.keys ∨ a ∈ ops.filterMap Op.key := by
  induction h with
  | nil => simp
  | concat _ hstep ih => rw [hstep.keys, ih, List.filterMap_append]; simp [or_assoc]

/-! ## Sorted lists -/

theorem least_head [Std.Asymm r] (h : A.Pairwise r) : Least r (· ∈ A) A.head? := by
  cases A with
  | nil => exact fun a => List.not_mem_nil
  | cons m A =>
    refine ⟨List.mem_cons_self, fun a ha => ?_⟩
    cases List.mem_cons.1 ha with
    | inl heq =>
      rw [heq]
      exact fun hm => Std.Asymm.asymm m m hm hm
    | inr hmem => exact Std.Asymm.asymm m a ((List.pairwise_cons.1 h).1 a hmem)

theorem least_getLast [Std.Asymm r] (h : A.Pairwise r) :
    Least (Function.swap r) (· ∈ A) A.getLast? := by
  have hrev : A.reverse.Pairwise (Function.swap r) := List.pairwise_reverse.2 h
  rw [← List.head?_reverse]
  exact (least_head hrev).congr fun a => List.mem_reverse

theorem mem_above [Std.Asymm r] (h : (A ++ k :: B).Pairwise r) (a : α) :
    a ∈ B ↔ a ∈ A ++ k :: B ∧ r k a := by
  obtain ⟨-, hB, hAB⟩ := List.pairwise_append.1 h
  constructor
  · exact fun ha => ⟨by simp [ha], (List.pairwise_cons.1 hB).1 a ha⟩
  · rintro ⟨ha, hlt⟩
    cases List.mem_append.1 ha with
    | inl ha => exact absurd hlt (Std.Asymm.asymm a k (hAB a ha k List.mem_cons_self))
    | inr ha =>
      cases List.mem_cons.1 ha with
      | inl heq => exact absurd hlt fun hlt => Std.Asymm.asymm k a hlt (heq ▸ heq ▸ hlt)
      | inr hmem => exact hmem

theorem mem_below [Std.Asymm r] (h : (A ++ k :: B).Pairwise r) (a : α) :
    a ∈ A ↔ a ∈ A ++ k :: B ∧ r a k := by
  have hsplit : (A ++ k :: B).reverse = B.reverse ++ k :: A.reverse := by simp
  have hrev : (B.reverse ++ k :: A.reverse).Pairwise (Function.swap r) :=
    hsplit ▸ List.pairwise_reverse.2 h
  have hmem := mem_above hrev a
  rwa [← hsplit, List.mem_reverse, List.mem_reverse] at hmem

/-! ## Scans -/

section
variable [IsStrictTotalOrder α r] {F : α → Prop}

/-- A position takes its key away from those that are ahead. -/
theorem ahead_le [DecidableRel r] {K : List α} {p : α → Bool}
    (h : Least r (fun a => a ∈ K ∧ p a = true) o)
    (hup : ∀ a b, p a = true → r a b → p b = true) : ahead r K o ≤ K.countP p := by
  cases o with
  | none => exact Nat.zero_le _
  | some k =>
    obtain ⟨⟨hk, hp⟩, -⟩ := h
    obtain ⟨A, B, rfl⟩ := List.append_of_mem hk
    have hmono : ∀ L : List α, L.countP (r k ·) ≤ L.countP p := fun L =>
      List.countP_mono_left fun a _ ha => hup k a hp (of_decide_eq_true ha)
    have hA := hmono A
    have hB := hmono B
    have hself : ¬ r k k := irrefl_of r k
    show (A ++ k :: B).countP (r k ·) + 1 ≤ (A ++ k :: B).countP p
    rw [List.countP_append, List.countP_append, List.countP_cons, List.countP_cons, hp,
      decide_eq_false hself, if_pos rfl, if_neg Bool.false_ne_true]
    omega

/-- A scan stays in a set of keys that is closed upwards. -/
theorem Scan.ahead (h : Scan r K o bs ks) (hfirst : Least r (fun a => a ∈ K ∧ F a) o)
    (hup : ∀ a b, F a → r a b → F b) : ∀ a ∈ ks, F a := by
  induction h generalizing F with
  | done => exact fun a ha => absurd ha List.not_mem_nil
  | @visit K K' k o bs ks hK hnext _ ih =>
    have hk : F k := hfirst.1.2
    intro a ha
    cases List.mem_cons.1 ha with
    | inl heq => exact heq ▸ hk
    | inr hmem => exact hup k a hk (ih hnext (fun _ _ => trans_of r) a hmem)

theorem Scan.pairwise (h : Scan r K o bs ks) : ks.Pairwise r := by
  induction h with
  | done => exact List.Pairwise.nil
  | visit _ hnext hscan ih =>
    exact List.pairwise_cons.2 ⟨hscan.ahead hnext fun _ _ => trans_of r, ih⟩

/-- **A scan** visits the keys ahead of it, and those that come in ahead of the key that it is
visiting. -/
theorem Scan.mem_iff (h : Scan r K o bs ks) (hfirst : Least r (fun a => a ∈ K ∧ F a) o)
    (hup : ∀ a b, F a → r a b → F b) (a : α) :
    a ∈ ks ↔ (a ∈ K ∧ F a) ∨
      ∃ (i : Nat) (k : α) (b : List α), ks[i]? = some k ∧ bs[i]? = some b ∧ a ∈ b ∧ r k a := by
  induction h generalizing F with
  | done =>
    refine ⟨fun ha => absurd ha List.not_mem_nil, fun hor => ?_⟩
    cases hor with
    | inl ha => exact absurd ha (hfirst a)
    | inr hin =>
      obtain ⟨i, k, b, hk, -⟩ := hin
      cases hk
  | @visit K K' k o bs ks hK hnext hscan ih =>
    obtain ⟨⟨hkK, hkF⟩, hleast⟩ := hfirst
    have hrest := ih hnext fun _ _ => trans_of r
    rw [List.mem_cons, hrest, hK]
    constructor
    · rintro (rfl | ⟨ha | ha, hka⟩ | ⟨i, k', b, hk', hb, ha, hlt⟩)
      · exact .inl ⟨hkK, hkF⟩
      · exact .inl ⟨ha, hup k a hkF hka⟩
      · -- it came in while `k` was visited
        cases bs with
        | nil => cases ha
        | cons b bs => exact .inr ⟨0, k, b, rfl, rfl, ha, hka⟩
      · refine .inr ⟨i + 1, k', b, hk', ?_, ha, hlt⟩
        rw [← hb, List.getElem?_tail]
    · rintro (⟨ha, haF⟩ | ⟨i, k', b, hk', hb, ha, hlt⟩)
      · rcases trichotomous_of r a k with hak | heq | hka
        · exact absurd hak (hleast a ⟨ha, haF⟩)
        · exact .inl heq
        · exact .inr (.inl ⟨.inl ha, hka⟩)
      · cases i with
        | zero =>
          obtain rfl : k = k' := Option.some.inj hk'
          cases bs with
          | nil => cases hb
          | cons b' bs =>
            obtain rfl : b' = b := Option.some.inj hb
            exact .inr (.inl ⟨.inr ha, hlt⟩)
        | succ i =>
          refine .inr (.inr ⟨i, k', b, hk', ?_, ha, hlt⟩)
          rw [← hb, List.getElem?_tail]

end

end

end Cursor
