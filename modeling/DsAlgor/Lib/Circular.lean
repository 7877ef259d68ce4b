import Mathlib.Data.List.Basic
import Mathlib.Tactic

/-!
# Circular doubly linked lists

`Segment next prev a b xs`: the nodes `xs` are linked in this order between the ends `a` and `b`.
`Circular next prev h xs`: both ends are the list head `h`. `lastOr a A` and `headOr b B` are the
neighbours at a place between `A` and `B`.

`foreach` is a loop `for (; pos != end; pos = pos->next)` whose body may leave it (`foreach_spec`).
-/

namespace Circular

variable {P : Type*}

def headOr (h : P) (xs : List P) : P := xs.head?.getD h

def lastOr (h : P) (xs : List P) : P := xs.getLast?.getD h

section
variable {h x : P} {xs ys : List P}

@[simp] theorem headOr_nil : headOr h [] = h := rfl

@[simp] theorem headOr_cons : headOr h (x :: xs) = x := rfl

@[simp] theorem lastOr_nil : lastOr h [] = h := rfl

@[simp] theorem lastOr_concat : lastOr h (xs ++ [x]) = x := by simp [lastOr]

@[simp] theorem lastOr_append_cons : lastOr h (xs ++ x :: ys) = lastOr x ys := by
  cases ys using List.reverseRecOn with
  | nil => simp
  | append_singleton ys y _ =>
    rw [lastOr_concat, ← List.cons_append, ← List.append_assoc, lastOr_concat]

@[simp] theorem lastOr_cons : lastOr h (x :: ys) = lastOr x ys := by
  rw [← List.nil_append (x :: ys), lastOr_append_cons]

theorem headOr_mem : headOr h xs ∈ h :: xs := by
  cases xs <;> simp

theorem lastOr_mem : lastOr h xs ∈ h :: xs := by
  cases xs using List.reverseRecOn <;> simp

theorem headOr_map {Q : Type*} (f : P → Q) : headOr (f h) (xs.map f) = f (headOr h xs) := by
  cases xs <;> rfl

theorem lastOr_map {Q : Type*} (f : P → Q) : lastOr (f h) (xs.map f) = f (lastOr h xs) := by
  cases xs using List.reverseRecOn <;> simp

end

end Circular

open Circular in
/-- The nodes `xs` form a circle with the head `h`. -/
def Circular {P : Type*} (next prev : P → P) (h : P) (xs : List P) : Prop :=
  ∀ A B, xs = A ++ B → next (lastOr h A) = headOr h B ∧ prev (headOr h B) = lastOr h A

open Circular in
/-- The nodes `xs` are linked between the ends `a` and `b`. -/
def Segment {P : Type*} (next prev : P → P) (a b : P) (xs : List P) : Prop :=
  ∀ A B, xs = A ++ B → next (lastOr a A) = headOr b B ∧ prev (headOr b B) = lastOr a A

/-! ## Places of a list without repetitions -/

namespace Circular

variable {P : Type*} {h a b : P} {A₁ A₂ B₁ B₂ : List P}

/-- The last node before a place is not the last one before a later place. -/
theorem lastOr_ne (hnd : (h :: (A₁ ++ a :: A₂)).Nodup) :
    lastOr h A₁ ≠ lastOr h (A₁ ++ a :: A₂) := by
  rw [lastOr_append_cons]
  intro he
  have h1 : lastOr a A₂ ∈ a :: A₂ := lastOr_mem
  have h2 : lastOr h A₁ ∈ h :: A₁ := lastOr_mem
  rw [he] at h2
  rw [← List.cons_append] at hnd
  exact (List.nodup_append.1 hnd).2.2 _ h2 _ h1 rfl

/-- The first node behind a place is not the first one behind an earlier place. -/
theorem headOr_ne (hnd : (h :: (b :: B₁ ++ B₂)).Nodup) : headOr h B₂ ≠ b := by
  intro he
  have h1 : headOr h B₂ ∈ h :: B₂ := headOr_mem
  rw [he] at h1
  rw [List.nodup_cons, List.cons_append, List.nodup_cons] at hnd
  rcases List.mem_cons.1 h1 with rfl | h1
  · exact hnd.1 (by simp)
  · exact hnd.2.1 (List.mem_append_right _ h1)

end Circular

/-! ## Insertion and removal -/

namespace Segment

open Circular

variable {P : Type*} {next prev next' prev' : P → P} {a b x : P} {xs A B : List P}

theorem next_eq (hs : Segment next prev a b (A ++ B)) : next (lastOr a A) = headOr b B :=
  (hs A B rfl).1

theorem prev_eq (hs : Segment next prev a b (A ++ B)) : prev (headOr b B) = lastOr a A :=
  (hs A B rfl).2

theorem next_start (hs : Segment next prev a b xs) : next a = headOr b xs := (hs [] xs rfl).1

theorem next_mid (hs : Segment next prev a b (A ++ x :: B)) : next x = headOr b B := by
  have := next_eq (A := A ++ [x]) (by simpa using hs)
  rwa [lastOr_concat] at this

theorem prev_mid (hs : Segment next prev a b (A ++ x :: B)) : prev x = lastOr a A :=
  hs.prev_eq

/-- Of the pointers, only those of the nodes and of the ends matter. -/
theorem congr (hs : Segment next prev a b xs) (hn : ∀ q ∈ a :: xs, next' q = next q)
    (hp : ∀ q ∈ b :: xs, prev' q = prev q) : Segment next' prev' a b xs := by
  rintro A B rfl
  refine ⟨?_, ?_⟩
  · rw [hn _ ?_]
    · exact hs.next_eq
    · exact List.cons_subset_cons _ (List.subset_append_left _ _) lastOr_mem
  · rw [hp _ ?_]
    · exact hs.prev_eq
    · exact List.cons_subset_cons _ (List.subset_append_right _ _) headOr_mem

theorem nil (hn : next a = b) (hp : prev b = a) : Segment next prev a b [] := by
  intro A B hAB
  obtain ⟨rfl, rfl⟩ := List.append_eq_nil_iff.1 hAB.symm
  exact ⟨hn, hp⟩

/-- `list_add`: `x` comes before the first node of `B`. -/
theorem insert (hs : Segment next prev a b (A ++ B)) (hnda : (a :: (A ++ B)).Nodup)
    (hndb : (b :: (A ++ B)).Nodup) (hxa : x ∉ a :: (A ++ B)) (hxb : x ∉ b :: (A ++ B))
    (hnx : next' x = headOr b B) (hpx : prev' x = lastOr a A)
    (hnl : next' (lastOr a A) = x) (hph : prev' (headOr b B) = x)
    (hn : ∀ q ≠ x, q ≠ lastOr a A → next' q = next q)
    (hp : ∀ q ≠ x, q ≠ headOr b B → prev' q = prev q) :
    Segment next' prev' a b (A ++ x :: B) := by
  intro C D hCD
  have hnea : ∀ q ∈ a :: (A ++ B), q ≠ x := fun q hq he => hxa (he ▸ hq)
  have hneb : ∀ q ∈ b :: (A ++ B), q ≠ x := fun q hq he => hxb (he ▸ hq)
  rcases List.append_eq_append_iff.1 hCD with ⟨B', rfl, hD⟩ | ⟨A', rfl, hD⟩
  · -- the place is in `x :: B`
    cases B' with
    | nil =>
      obtain rfl : D = x :: B := by simpa using hD.symm
      simpa using ⟨hnl, hpx⟩
    | cons y B₁ =>
      obtain ⟨rfl, rfl⟩ : x = y ∧ B = B₁ ++ D := by simpa using hD
      rw [lastOr_append_cons]
      cases B₁ with
      | nil => exact ⟨hnx, hph⟩
      | cons z B₁ =>
        have hnd' : (b :: (z :: B₁ ++ D)).Nodup :=
          hndb.sublist (List.Sublist.cons_cons _ (List.sublist_append_right _ _))
        have hsplit : Segment next prev a b ((A ++ z :: B₁) ++ D) := by simpa using hs
        rw [lastOr_cons]
        have hl : lastOr z B₁ = lastOr a (A ++ z :: B₁) := lastOr_append_cons.symm
        rw [hl, hn, hp]
        · exact ⟨hsplit.next_eq, hsplit.prev_eq⟩
        · refine hneb _ (List.cons_subset_cons _ ?_ headOr_mem)
          intro q hq
          simp [hq]
        · exact headOr_ne hnd'
        · rw [← hl]
          refine hnea _
            (List.mem_cons_of_mem _ (List.mem_append_right _ (List.mem_append_left _ lastOr_mem)))
        · have hnd'' : (a :: (A ++ z :: B₁)).Nodup :=
            hnda.sublist (List.Sublist.cons_cons _ (by simp))
          exact (lastOr_ne hnd'').symm
  · -- the place is before the last node of `A`
    cases A' with
    | nil =>
      obtain rfl : D = x :: B := by simpa using hD
      simp only [List.append_nil] at hnl hpx
      exact ⟨hnl, hpx⟩
    | cons z A₂ =>
      obtain rfl : D = z :: A₂ ++ x :: B := hD
      have hsplit : Segment next prev a b (C ++ (z :: A₂ ++ B)) := by simpa using hs
      have hnd' : (a :: (C ++ z :: A₂)).Nodup :=
        hnda.sublist (List.Sublist.cons_cons _ (List.sublist_append_left _ _))
      have hnd'' : (b :: (z :: A₂ ++ B)).Nodup :=
        hndb.sublist (List.Sublist.cons_cons _ (by simp))
      rw [hn, List.cons_append, headOr_cons, hp]
      · exact ⟨hsplit.next_eq, hsplit.prev_eq⟩
      · exact hneb _ (by simp)
      · exact (headOr_ne hnd'').symm
      · exact hnea _ (List.cons_subset_cons _ (by simp) lastOr_mem)
      · exact lastOr_ne hnd'

/-- `list_del`. -/
theorem remove (hs : Segment next prev a b (A ++ x :: B)) (hnda : (a :: (A ++ x :: B)).Nodup)
    (hndb : (b :: (A ++ x :: B)).Nodup) (hnl : next' (lastOr a A) = headOr b B)
    (hph : prev' (headOr b B) = lastOr a A) (hn : ∀ q ≠ x, q ≠ lastOr a A → next' q = next q)
    (hp : ∀ q ≠ x, q ≠ headOr b B → prev' q = prev q) : Segment next' prev' a b (A ++ B) := by
  intro C D hCD
  have hne : ∀ e, (e :: (A ++ x :: B)).Nodup → ∀ q ∈ e :: (A ++ B), q ≠ x := by
    rintro e hnd q hq rfl
    have := List.nodup_middle.1 (by simpa using hnd : ((e :: A) ++ q :: B).Nodup)
    exact (List.nodup_cons.1 this).1 (by simpa using hq)
  have hnea := hne a hnda
  have hneb := hne b hndb
  rcases List.append_eq_append_iff.1 hCD with ⟨B₁, rfl, rfl⟩ | ⟨A', rfl, rfl⟩
  · cases B₁ with
    | nil => simpa using ⟨hnl, hph⟩
    | cons z B₁ =>
      have hsplit : Segment next prev a b ((A ++ x :: z :: B₁) ++ D) := by simpa using hs
      have hnd' : (b :: (z :: B₁ ++ D)).Nodup :=
        hndb.sublist (List.Sublist.cons_cons _ (by simp))
      have hnd'' : (a :: (A ++ z :: B₁)).Nodup :=
        hnda.sublist (List.Sublist.cons_cons _ (by simp))
      have hl : lastOr a (A ++ z :: B₁) = lastOr a (A ++ x :: z :: B₁) := by simp
      rw [hn, hp, hl]
      · exact ⟨hsplit.next_eq, hsplit.prev_eq⟩
      · exact hneb _ (List.cons_subset_cons _ (fun q hq => by simp [hq]) headOr_mem)
      · exact headOr_ne hnd'
      · exact hnea _ (List.cons_subset_cons _ (by rw [hCD]; exact List.subset_append_left _ _)
          lastOr_mem)
      · exact (lastOr_ne hnd'').symm
  · cases A' with
    | nil =>
      simp only [List.append_nil] at hnl hph
      exact ⟨hnl, hph⟩
    | cons z A₂ =>
      have hsplit : Segment next prev a b (C ++ (z :: A₂ ++ x :: B)) := by simpa using hs
      have hnd' : (a :: (C ++ z :: A₂)).Nodup :=
        hnda.sublist (List.Sublist.cons_cons _ (List.sublist_append_left _ _))
      have hnd'' : (b :: (z :: A₂ ++ B)).Nodup :=
        hndb.sublist (List.Sublist.cons_cons _ (by simp))
      rw [hn, List.cons_append, headOr_cons, hp]
      · exact ⟨hsplit.next_eq, hsplit.prev_eq⟩
      · exact hneb _ (by simp)
      · exact (headOr_ne hnd'').symm
      · exact hnea _ (List.cons_subset_cons _ (by simp) lastOr_mem)
      · exact lastOr_ne hnd'

end Segment

/-! ## Circles -/

namespace Circular

variable {P : Type*} {next prev next' prev' : P → P} {h x : P} {xs A B : List P}

theorem next_eq (hc : Circular next prev h (A ++ B)) : next (lastOr h A) = headOr h B :=
  Segment.next_eq hc

theorem prev_eq (hc : Circular next prev h (A ++ B)) : prev (headOr h B) = lastOr h A :=
  Segment.prev_eq hc

theorem next_head (hc : Circular next prev h xs) : next h = headOr h xs := Segment.next_start hc

theorem next_mid (hc : Circular next prev h (A ++ x :: B)) : next x = headOr h B :=
  Segment.next_mid hc

theorem prev_mid (hc : Circular next prev h (A ++ x :: B)) : prev x = lastOr h A :=
  Segment.prev_mid hc

/-- The circle the other way round. -/
theorem reverse (hc : Circular next prev h xs) : Circular prev next h xs.reverse := by
  intro A B hAB
  have hxs : xs = B.reverse ++ A.reverse := by
    rw [← List.reverse_append, ← hAB, List.reverse_reverse]
  have hlast : ∀ C : List P, lastOr h C.reverse = headOr h C := fun C => by simp [lastOr, headOr]
  have hhead : ∀ C : List P, headOr h C.reverse = lastOr h C := fun C => by simp [lastOr, headOr]
  obtain ⟨hn, hp⟩ := hc _ _ hxs
  rw [hlast, hhead] at hn hp
  exact ⟨hp, hn⟩

theorem congr (hc : Circular next prev h xs) (hn : ∀ q ∈ h :: xs, next' q = next q)
    (hp : ∀ q ∈ h :: xs, prev' q = prev q) : Circular next' prev' h xs :=
  Segment.congr hc hn hp

theorem nil (hn : next h = h) (hp : prev h = h) : Circular next prev h [] := Segment.nil hn hp

theorem insert (hc : Circular next prev h (A ++ B)) (hnd : (h :: (A ++ B)).Nodup)
    (hx : x ∉ h :: (A ++ B)) (hnx : next' x = headOr h B) (hpx : prev' x = lastOr h A)
    (hnl : next' (lastOr h A) = x)
    (hph : prev' (headOr h B) = x) (hn : ∀ q ≠ x, q ≠ lastOr h A → next' q = next q)
    (hp : ∀ q ≠ x, q ≠ headOr h B → prev' q = prev q) : Circular next' prev' h (A ++ x :: B) :=
  Segment.insert hc hnd hnd hx hx hnx hpx hnl hph hn hp

theorem remove (hc : Circular next prev h (A ++ x :: B)) (hnd : (h :: (A ++ x :: B)).Nodup)
    (hnl : next' (lastOr h A) = headOr h B) (hph : prev' (headOr h B) = lastOr h A)
    (hn : ∀ q ≠ x, q ≠ lastOr h A → next' q = next q)
    (hp : ∀ q ≠ x, q ≠ headOr h B → prev' q = prev q) : Circular next' prev' h (A ++ B) :=
  Segment.remove hc hnd hnd hnl hph hn hp

/-! ## Iterating `next` -/

/-- `next` stays in the circle. -/
theorem iterate_mem (hc : Circular next prev h xs) (k : Nat) : next^[k] h ∈ h :: xs := by
  induction k with
  | zero => simp
  | succ k ih =>
    rw [Function.iterate_succ_apply']
    rcases List.mem_cons.1 ih with he | hm
    · rw [he, hc.next_head]
      exact headOr_mem
    · obtain ⟨A, B, hAB⟩ := List.append_of_mem hm
      rw [hAB] at hc ⊢
      rw [hc.next_mid]
      exact List.cons_subset_cons _ (by simp) headOr_mem

theorem iterate_lastOr {X : List P} (hc : Circular next prev h (A ++ X ++ B)) :
    next^[X.length] (lastOr h A) = lastOr h (A ++ X) := by
  induction X using List.reverseRecOn generalizing B with
  | nil => simp
  | append_singleton X x ih =>
    have hsplit : Circular next prev h (A ++ X ++ ([x] ++ B)) := by simpa using hc
    rw [List.length_append, List.length_singleton, Function.iterate_succ_apply', ih hsplit,
      hsplit.next_eq, ← List.append_assoc, lastOr_concat]
    rfl

/-- The node behind `X` is reached after `X.length + 1` steps and not before. -/
theorem iterate_eq_iff {X : List P} (hc : Circular next prev h (A ++ X ++ x :: B))
    (hnd : (h :: (A ++ X ++ x :: B)).Nodup) (n : Nat) :
    (next^[n] (lastOr h A) = x ∧ ∀ k < n, next^[k] (lastOr h A) ≠ x) ↔ n = X.length + 1 := by
  have hreach : next^[X.length + 1] (lastOr h A) = x := by
    have := iterate_lastOr (A := A) (X := X ++ [x]) (B := B) (by simpa using hc)
    rwa [← List.append_assoc, lastOr_concat, List.length_append] at this
  have hbefore : ∀ k < X.length + 1, next^[k] (lastOr h A) ≠ x := by
    intro k hk he
    have hsplit : Circular next prev h (A ++ X.take k ++ (X.drop k ++ x :: B)) := by
      have hX : A ++ X.take k ++ (X.drop k ++ x :: B) = A ++ X ++ x :: B := by
        rw [← List.append_assoc, List.append_assoc A, List.take_append_drop]
      rwa [hX]
    have hlast := iterate_lastOr hsplit
    rw [List.length_take_of_le (by omega), he] at hlast
    have hm : x ∈ h :: (A ++ X) := by
      rw [hlast]
      refine List.cons_subset_cons _ ?_ lastOr_mem
      refine List.append_subset.2 ⟨by simp, fun q hq => ?_⟩
      exact List.mem_append_right _ (List.mem_of_mem_take hq)
    have := List.nodup_middle.1 (by simpa using hnd : ((h :: (A ++ X)) ++ x :: B).Nodup)
    exact (List.nodup_cons.1 this).1 (List.mem_append_left _ hm)
  constructor
  · rintro ⟨h1, h2⟩
    rcases Nat.lt_trichotomy n (X.length + 1) with hlt | heq | hgt
    · exact absurd h1 (hbefore n hlt)
    · exact heq
    · exact absurd hreach (h2 _ hgt)
  · rintro rfl
    exact ⟨hreach, hbefore⟩

/-! ## Loops -/

/-- `for (; pos != end; pos = pos->next)`: the body goes on with a new state (`.inr`) or leaves the
loop (`.inl`). -/
def foreach [DecidableEq P] {σ ρ : Type*} (next : P → P) (body : P → σ → ρ ⊕ σ) :
    Nat → P → P → σ → Option (ρ ⊕ σ)
  | 0, _, _, _ => none
  | fuel + 1, pos, end_, s =>
    if pos = end_ then some (.inr s)
    else
      match body pos s with
      | .inl r => some (.inl r)
      | .inr s => foreach next body fuel (next pos) end_ s

section
variable [DecidableEq P] {σ ρ : Type*} {body : P → σ → ρ ⊕ σ} {f : σ → P → σ} {end_ : P}

/-- The loop goes on over `X`, whatever the state it has then, and arrives at the node behind. -/
theorem foreach_front : ∀ {X A : List P} {fuel : Nat} {s : σ},
    Circular next prev h (A ++ (X ++ B)) → X.length < fuel → (∀ x ∈ X, x ≠ end_) →
    (∀ (X₁ : List P) (x : P) (X₂ : List P), X = X₁ ++ x :: X₂ →
    body x (X₁.foldl f s) = .inr (f (X₁.foldl f s) x)) →
    foreach next body fuel (headOr h (X ++ B)) end_ s =
      foreach next body (fuel - X.length) (headOr h B) end_ (X.foldl f s)
  | [], _, _, _, _, _, _, _ => rfl
  | x :: X, A, 0, s, _, hf, _, _ => by simp at hf
  | x :: X, A, fuel + 1, s, hc, hf, hend, hX => by
    have hx : body x s = .inr (f s x) := hX [] x X rfl
    have hnext : next x = headOr h (X ++ B) := next_mid (A := A) (by simpa using hc)
    simp only [List.cons_append, headOr_cons, foreach, if_neg (hend x List.mem_cons_self), hx,
      hnext]
    rw [foreach_front (A := A ++ [x]) (by simpa using hc) (by simpa using hf)
      (fun y hy => hend y (List.mem_cons_of_mem _ hy)) fun X₁ y X₂ hy => hX (x :: X₁) y X₂ (by
        rw [hy]
        rfl)]
    simp

theorem foreach_end {fuel : Nat} {s : σ} (hf : 0 < fuel) :
    foreach next body fuel end_ end_ s = some (.inr s) := by
  obtain ⟨n, rfl⟩ := Nat.exists_eq_succ_of_ne_zero hf.ne'
  simp [foreach]

theorem foreach_break {fuel : Nat} {s : σ} {r : ρ} (hf : 0 < fuel) (hne : x ≠ end_)
    (hb : body x s = .inl r) : foreach next body fuel x end_ s = some (.inl r) := by
  obtain ⟨n, rfl⟩ := Nat.exists_eq_succ_of_ne_zero hf.ne'
  simp [foreach, hne, hb]

/-- A loop whose state and result are a part of those of another loop. -/
theorem foreach_map {σ' ρ' : Type*} {body' : P → σ' → ρ' ⊕ σ'} {π : σ → σ'} {κ : ρ → ρ'}
    (next : P → P) (end_ : P) (hbody : ∀ p s, (body p s).map κ π = body' p (π s)) :
    ∀ (fuel : Nat) (pos : P) (s : σ),
      (foreach next body fuel pos end_ s).map (Sum.map κ π) =
        foreach next body' fuel pos end_ (π s)
  | 0, _, _ => rfl
  | fuel + 1, pos, s => by
    unfold foreach
    by_cases hend : pos = end_
    · rw [if_pos hend, if_pos hend]
      rfl
    · rw [if_neg hend, if_neg hend, ← hbody]
      cases body pos s with
      | inl r => rfl
      | inr s => exact foreach_map next end_ hbody fuel (next pos) s

/-- What every round establishes holds at the end of a loop that has had a round. -/
theorem foreach_rounds {P' : σ → Prop} {next : P → P}
    (hbody : ∀ p s s', body p s = .inr s' → P' s') :
    ∀ {fuel : Nat} {pos : P} {s s' : σ}, foreach next body fuel pos end_ s = some (.inr s') →
      (pos = end_ ∧ s' = s) ∨ P' s'
  | 0, _, _, _, h => nomatch h
  | fuel + 1, pos, s, s', h => by
    unfold foreach at h
    by_cases hend : pos = end_
    · rw [if_pos hend] at h
      exact .inl ⟨hend, (Sum.inr.inj (Option.some.inj h)).symm⟩
    · rw [if_neg hend] at h
      cases hround : body pos s with
      | inl r =>
        rw [hround] at h
        cases h
      | inr s₁ =>
        rw [hround] at h
        cases foreach_rounds hbody h with
        | inl h => exact .inr (h.2 ▸ hbody _ _ _ hround)
        | inr h => exact .inr h

end

end Circular
