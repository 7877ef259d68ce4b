import Mathlib.Data.List.Basic
import Mathlib.Data.List.Nodup
import Mathlib.Tactic

/-!
# Lists in the order of last use

A list of keys with their values, most recently used first. `touch` is a use of a key: it comes to
the front. A cache of capacity `c` need not remember more than the first `c` entries: a use of the
whole list and one of its first `c` entries have the same first `c` entries (`take_touch`).
-/

namespace Recency

variable {K V : Type*}

def keys (l : List (K × V)) : List K := l.map Prod.fst

variable [DecidableEq K]

def touch (k : K) (v : V) (l : List (K × V)) : List (K × V) := (k, v) :: l.filter (·.1 ≠ k)

variable {l A B : List (K × V)} {k : K} {v w : V}

omit [DecidableEq K] in
theorem keys_append : keys (A ++ B) = keys A ++ keys B := List.map_append

omit [DecidableEq K] in
theorem mem_keys : k ∈ keys l ↔ ∃ v, (k, v) ∈ l := by
  unfold keys
  rw [List.mem_map]
  constructor
  · rintro ⟨⟨k, v⟩, hmem, rfl⟩
    exact ⟨v, hmem⟩
  · rintro ⟨v, hmem⟩
    exact ⟨(k, v), hmem, rfl⟩

theorem filter_of_notMem (h : k ∉ keys l) : l.filter (·.1 ≠ k) = l := by
  rw [List.filter_eq_self]
  intro x hx
  rw [decide_eq_true_eq]
  exact fun heq => h (heq ▸ List.mem_map_of_mem hx)

theorem touch_of_notMem (h : k ∉ keys l) : touch k v l = (k, v) :: l := by
  unfold touch
  rw [filter_of_notMem h]

omit [DecidableEq K] in
theorem nodup_middle (h : (keys (A ++ (k, w) :: B)).Nodup) :
    k ∉ keys A ∧ k ∉ keys B ∧ (keys (A ++ B)).Nodup := by
  rw [keys_append] at h
  have hmid := List.nodup_cons.1 (List.nodup_middle.1 h)
  rw [List.mem_append, not_or] at hmid
  exact ⟨hmid.1.1, hmid.1.2, by rw [keys_append]; exact hmid.2⟩

theorem filter_middle (h : (keys (A ++ (k, w) :: B)).Nodup) :
    (A ++ (k, w) :: B).filter (·.1 ≠ k) = A ++ B := by
  obtain ⟨hA, hB, -⟩ := nodup_middle h
  rw [List.filter_append, filter_of_notMem hA, List.filter_cons_of_neg (by simp),
    filter_of_notMem hB]

theorem touch_middle (h : (keys (A ++ (k, w) :: B)).Nodup) :
    touch k v (A ++ (k, w) :: B) = (k, v) :: (A ++ B) := by
  unfold touch
  rw [filter_middle h]

omit [DecidableEq K] in
theorem exists_middle (h : k ∈ keys l) : ∃ A w B, l = A ++ (k, w) :: B := by
  obtain ⟨w, hmem⟩ := mem_keys.1 h
  obtain ⟨A, B, heq⟩ := List.append_of_mem hmem
  exact ⟨A, w, B, heq⟩

theorem nodup_touch (h : (keys l).Nodup) : (keys (touch k v l)).Nodup := by
  by_cases hk : k ∈ keys l
  · obtain ⟨A, w, B, rfl⟩ := exists_middle hk
    obtain ⟨hA, hB, hAB⟩ := nodup_middle h
    rw [touch_middle h]
    refine List.nodup_cons.2 ⟨fun hmem => ?_, hAB⟩
    rw [← keys, keys_append, List.mem_append] at hmem
    exact hmem.elim hA hB
  · rw [touch_of_notMem hk]
    exact List.nodup_cons.2 ⟨hk, h⟩

/-- Only the first `c` entries matter for the first `c` entries after a use. -/
theorem take_touch (h : (keys l).Nodup) (c : Nat) :
    (touch k v l).take c = (touch k v (l.take c)).take c := by
  cases c with
  | zero => rfl
  | succ c =>
    by_cases hk : k ∈ keys l
    · obtain ⟨A, w, B, rfl⟩ := exists_middle hk
      obtain ⟨hA, hB, -⟩ := nodup_middle h
      rw [touch_middle h, List.take_succ_cons]
      by_cases hlt : A.length < c + 1
      · -- the entry is one of the first
        have htake : (A ++ (k, w) :: B).take (c + 1) = A ++ (k, w) :: B.take (c - A.length) := by
          rw [List.take_append, List.take_of_length_le (by omega), show c + 1 - A.length =
            c - A.length + 1 by omega, List.take_succ_cons]
        have hnodup : (keys (A ++ (k, w) :: B.take (c - A.length))).Nodup := by
          refine h.sublist (List.Sublist.map _ ?_)
          exact (List.Sublist.refl A).append (List.Sublist.cons_cons _ (List.take_sublist _ _))
        rw [htake, touch_middle hnodup, List.take_succ_cons, List.take_append, List.take_append,
          List.take_take, Nat.min_self]
      · have htake : (A ++ (k, w) :: B).take (c + 1) = A.take (c + 1) :=
          List.take_append_of_le_length (by omega)
        have hnot : k ∉ keys (A.take (c + 1)) :=
          fun hmem => hA (List.Sublist.subset ((List.take_sublist _ _).map _) hmem)
        rw [htake, touch_of_notMem hnot, List.take_succ_cons, List.take_take,
          Nat.min_eq_left (by omega), List.take_append_of_le_length (by omega)]
    · have hnot : k ∉ keys (l.take (c + 1)) :=
        fun hmem => hk (List.Sublist.subset ((List.take_sublist _ _).map _) hmem)
      rw [touch_of_notMem hk, touch_of_notMem hnot, List.take_succ_cons, List.take_succ_cons,
        List.take_take, Nat.min_eq_left (by omega)]

theorem lookup_middle (h : k ∉ keys A) : (A ++ (k, w) :: B).lookup k = some w := by
  induction A with
  | nil => simp
  | cons x A ih =>
    obtain ⟨hx, hA⟩ := not_or.1 (fun hor => h (List.mem_cons.2 hor))
    have hne : (k == x.1) = false := beq_false_of_ne hx
    rw [List.cons_append, List.lookup_cons, hne]
    exact ih hA

theorem lookup_of_notMem (h : k ∉ keys l) : l.lookup k = none := by
  induction l with
  | nil => rfl
  | cons x l ih =>
    obtain ⟨hx, hl⟩ := not_or.1 (fun hor => h (List.mem_cons.2 hor))
    have hne : (k == x.1) = false := beq_false_of_ne hx
    rw [List.lookup_cons, hne]
    exact ih hl

end Recency
