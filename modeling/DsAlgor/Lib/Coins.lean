import DsAlgor.Lib.Enumerate
import Mathlib.Algebra.Order.BigOperators.Group.Multiset
import Mathlib.Algebra.BigOperators.Group.List.Basic

/-!
# Paying with coins

A sum is paid with a multiset of coins (`Pays`), or with a sequence of them (`InOrder`), where the
order counts. There are as many of one kind as of the other if every payment is with coins of one
value (`length_eq_ncard_iff`).
-/

namespace Coins

open Enumerate

structure Pays (S : List Int) (n : Int) (t : Multiset Int) : Prop where
  mem : ∀ s ∈ t, s ∈ S
  sum : t.sum = n

/-- Paying coin by coin. -/
def InOrder (S : List Int) (n : Int) (l : List Int) : Prop := Pays S n l

section
variable {S : List Int} {n s : Int} {t : Multiset Int} {l l' : List Int}

theorem pays_cons : Pays S n (s ::ₘ t) ↔ s ∈ S ∧ Pays S (n - s) t := by
  constructor
  · intro h
    have hsum := h.sum
    rw [Multiset.sum_cons] at hsum
    exact ⟨h.mem s (Multiset.mem_cons_self s t),
      fun x hx => h.mem x (Multiset.mem_cons_of_mem hx), by omega⟩
  · rintro ⟨hs, ht⟩
    refine ⟨fun x hx => ?_, ?_⟩
    · cases Multiset.mem_cons.1 hx with
      | inl heq => exact heq ▸ hs
      | inr hx => exact ht.mem x hx
    · rw [Multiset.sum_cons, ht.sum]
      omega

theorem inOrder_cons : InOrder S n (s :: l) ↔ s ∈ S ∧ InOrder S (n - s) l := by
  rw [InOrder, ← Multiset.cons_coe, pays_cons]
  rfl

theorem InOrder.perm (h : InOrder S n l) (hperm : l.Perm l') : InOrder S n l' := by
  rw [InOrder] at h ⊢
  rwa [← Multiset.coe_eq_coe.2 hperm]

theorem Pays.nonneg (h : Pays S n t) (hpos : ∀ s ∈ S, 0 < s) : 0 ≤ n := by
  rw [← h.sum]
  exact Multiset.sum_nonneg fun s hs => (hpos s (h.mem s hs)).le

theorem pays_zero (hpos : ∀ s ∈ S, 0 < s) : Pays S 0 t ↔ t = 0 := by
  constructor
  · intro h
    induction t using Multiset.induction_on with
    | empty => rfl
    | cons s t _ =>
      obtain ⟨hs, ht⟩ := pays_cons.1 h
      have h1 := hpos s hs
      have h2 := ht.nonneg hpos
      omega
  · rintro rfl
    exact ⟨nofun, Multiset.sum_zero⟩

theorem pays_nil : Pays [] n t ↔ n = 0 ∧ t = 0 := by
  constructor
  · intro h
    have ht : t = 0 := Multiset.eq_zero_of_forall_notMem fun s hs => nomatch h.mem s hs
    refine ⟨?_, ht⟩
    rw [← h.sum, ht, Multiset.sum_zero]
  · rintro ⟨rfl, rfl⟩
    exact ⟨nofun, Multiset.sum_zero⟩

/-- There are not more coins than the sum says. -/
theorem Pays.card_le (h : Pays S n t) (hpos : ∀ s ∈ S, 0 < s) : (t.card : Int) ≤ n := by
  induction t using Multiset.induction_on generalizing n with
  | empty => exact h.nonneg hpos
  | cons s t ih =>
    obtain ⟨hs, ht⟩ := pays_cons.1 h
    have h1 := hpos s hs
    have h2 := ih ht
    rw [Multiset.card_cons]
    push_cast
    omega

/-- The numbers of coins that a sum can be paid with. -/
def costs (S : List Int) (n : Int) : Set Int := {c | ∃ t, Pays S n t ∧ (t.card : Int) = c}

theorem costs_zero (hpos : ∀ s ∈ S, 0 < s) : costs S 0 = {0} := by
  ext c
  simp only [costs, pays_zero hpos]
  simp [eq_comm]

theorem costs_neg (hpos : ∀ s ∈ S, 0 < s) (hn : n < 0) : costs S n = ∅ :=
  Set.eq_empty_of_forall_notMem fun _ ⟨_, ht, _⟩ => (ht.nonneg hpos).not_gt hn

theorem le_of_mem_costs (hpos : ∀ s ∈ S, 0 < s) {c : Int} (hc : c ∈ costs S n) :
    0 ≤ c ∧ c ≤ n := by
  obtain ⟨t, ht, rfl⟩ := hc
  exact ⟨Int.natCast_nonneg _, ht.card_le hpos⟩

/-- One coin is paid first. -/
theorem mem_costs (hn : n ≠ 0) {c : Int} : c ∈ costs S n ↔ ∃ s ∈ S, c - 1 ∈ costs S (n - s) := by
  constructor
  · rintro ⟨t, ht, rfl⟩
    have hne : t ≠ 0 := by
      rintro rfl
      exact hn (ht.sum.symm.trans Multiset.sum_zero)
    obtain ⟨s, hs⟩ := Multiset.exists_mem_of_ne_zero hne
    obtain ⟨u, rfl⟩ := Multiset.exists_cons_of_mem hs
    obtain ⟨hs, hu⟩ := pays_cons.1 ht
    refine ⟨s, hs, u, hu, ?_⟩
    rw [Multiset.card_cons]
    push_cast
    omega
  · rintro ⟨s, hs, u, hu, hc⟩
    refine ⟨s ::ₘ u, pays_cons.2 ⟨hs, hu⟩, ?_⟩
    rw [Multiset.card_cons]
    push_cast
    omega

/-! ## Counting -/

/-- The sequences by their first coins. -/
theorem enumerates_inOrder (hnodup : S.Nodup) (hpos : ∀ s ∈ S, 0 < s) (hn : 0 < n)
    {out : Int → List (List Int)}
    (hout : ∀ s ∈ S, s ≤ n → Enumerates (out s) (InOrder S (n - s))) :
    Enumerates ((S.filter (· ≤ n)).flatMap fun s => (out s).map (s :: ·)) (InOrder S n) := by
  refine .heads id (by simpa using hnodup.filter _) (fun s hs => ?_) (fun h => ?_)
    fun s l h => ?_
  · obtain ⟨hs, hle⟩ := List.mem_filter.1 hs
    refine (hout s hs (of_decide_eq_true hle)).congr fun l => ?_
    rw [inOrder_cons]
    exact (and_iff_right hs).symm
  · have hsum := h.sum
    rw [Multiset.coe_nil, Multiset.sum_zero] at hsum
    omega
  · obtain ⟨hs, hl⟩ := inOrder_cons.1 h
    have hle := hl.nonneg hpos
    rw [List.map_id, List.mem_filter, decide_eq_true_iff]
    exact ⟨hs, by omega⟩

/-- The multisets with a last kind of coin `s`, and those without it. -/
theorem enumerates_pays (hs : s ∉ S) {ls ls' : List (Multiset Int)}
    (h : Enumerates ls (Pays (S ++ [s]) (n - s))) (h' : Enumerates ls' (Pays S n)) :
    Enumerates (ls.map (s ::ₘ ·) ++ ls') (Pays (S ++ [s]) n) := by
  have hnot : ∀ {t}, t ∈ ls' → s ∉ t := fun ht hst => hs (((h'.mem _).1 ht).mem s hst)
  constructor
  · refine List.nodup_append.2 ⟨h.nodup.map fun _ _ => (Multiset.cons_inj_right s).1, h'.nodup, ?_⟩
    rintro _ ht t ht' rfl
    obtain ⟨u, -, rfl⟩ := List.mem_map.1 ht
    exact hnot ht' (Multiset.mem_cons_self s u)
  · intro t
    rw [List.mem_append, List.mem_map]
    constructor
    · rintro (⟨u, hu, rfl⟩ | ht)
      · exact pays_cons.2 ⟨by simp, (h.mem u).1 hu⟩
      · have ht := (h'.mem t).1 ht
        exact ⟨fun x hx => List.mem_append_left _ (ht.mem x hx), ht.sum⟩
    · intro ht
      by_cases hst : s ∈ t
      · obtain ⟨u, rfl⟩ := Multiset.exists_cons_of_mem hst
        exact .inl ⟨u, (h.mem u).2 (pays_cons.1 ht).2, rfl⟩
      · refine .inr ((h'.mem t).2 ⟨fun x hx => ?_, ht.sum⟩)
        have hx' := ht.mem x hx
        rw [List.mem_append, List.mem_singleton] at hx'
        exact hx'.resolve_right fun heq => hst (heq ▸ hx)

/-- All coins of a payment have one value. -/
def OneValue (S : List Int) (n : Int) : Prop := ∀ t, Pays S n t → ∀ a ∈ t, ∀ b ∈ t, a = b

/-- A multiset can be put in order in one way only if its elements are equal. -/
theorem injOn_inOrder_iff :
    Set.InjOn (fun l : List Int => (l : Multiset Int)) {l | InOrder S n l} ↔ OneValue S n := by
  constructor
  · intro hinj t ht a ha b hb
    by_contra hab
    obtain ⟨u, rfl⟩ := Multiset.exists_cons_of_mem ha
    obtain ⟨v, rfl⟩ := Multiset.exists_cons_of_mem
      ((Multiset.mem_cons.1 hb).resolve_left (Ne.symm hab))
    have hfirst : InOrder S n (a :: b :: v.toList) := by
      rw [InOrder, ← Multiset.cons_coe, ← Multiset.cons_coe, Multiset.coe_toList]
      exact ht
    have hperm : (a :: b :: v.toList).Perm (b :: a :: v.toList) := List.Perm.swap ..
    have heq := hinj hfirst (hfirst.perm hperm) (Multiset.coe_eq_coe.2 hperm)
    exact hab (List.cons.inj heq).1
  · intro hone l hl l' _ heq
    have hperm : l.Perm l' := Multiset.coe_eq_coe.1 heq
    cases l with
    | nil => exact hperm.nil_eq
    | cons a l =>
      have hrep : a :: l = List.replicate (l.length + 1) a :=
        List.eq_replicate_iff.2
          ⟨rfl, fun b hb => (hone _ hl a (by simp) b (by simpa using hb)).symm⟩
      rw [hrep] at hperm ⊢
      exact (List.perm_replicate.1 hperm.symm).symm

/-- There are as many sequences as multisets. -/
theorem length_eq_ncard_iff {ls : List (List Int)} (h : Enumerates ls (InOrder S n)) :
    ls.length = {t | Pays S n t}.ncard ↔ OneValue S n := by
  have himage : {t | Pays S n t} =
      Set.image (fun l : List Int => (l : Multiset Int)) {l | InOrder S n l} := by
    ext t
    constructor
    · intro ht
      refine ⟨t.toList, ?_, Multiset.coe_toList t⟩
      rwa [Set.mem_ofPred_eq, InOrder, Multiset.coe_toList]
    · rintro ⟨l, hl, rfl⟩
      exact hl
  have hfinite : {l | InOrder S n l}.Finite := by
    refine (List.finite_toSet ls).subset fun l hl => ?_
    exact (h.mem l).2 hl
  rw [himage, ← h.ncard, ← injOn_inOrder_iff, eq_comm, Set.ncard_image_iff hfinite]

end

end Coins
