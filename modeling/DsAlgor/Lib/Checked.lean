import Mathlib.Data.List.Basic
import Mathlib.Tactic

/-!
# Arrays with checked accesses, and programs with fuel

`Arr α` is an array whose first index may be any number; an access outside of it is a fault. The
lemmas about accesses are for an array that is split at the index, `A ++ x :: B`.

A program that may run for ever is a function of its fuel. `Ends f r`: with enough fuel it returns
`r`. When more fuel does not change what is returned (`Steady f`), there is one result only.
-/

namespace Checked

inductive Fault
  /-- An access outside an array. -/
  | outOfBounds
  /-- A read of a cell that has no value yet. -/
  | unset
  /-- The fuel is used up. -/
  | loop
deriving DecidableEq

/-! ## Arrays -/

structure Arr (α : Type) where
  first : Int
  elems : List α
deriving DecidableEq

section
variable {α : Type}

/-- `a[i]` -/
def Arr.get (a : Arr α) (i : Int) : Except Fault α :=
  if i < a.first then .error .outOfBounds
  else
    match a.elems[(i - a.first).toNat]? with
    | none => .error .outOfBounds
    | some x => .ok x

/-- `a[i] = x` -/
def Arr.set (a : Arr α) (i : Int) (x : α) : Except Fault (Arr α) :=
  if i < a.first ∨ a.first + a.elems.length ≤ i then .error .outOfBounds
  else .ok { a with elems := a.elems.set (i - a.first).toNat x }

/-- `a[i]` of an array whose cells may have no value yet. -/
def Arr.read (a : Arr (Option α)) (i : Int) : Except Fault α := do
  match ← a.get i with
  | none => .error .unset
  | some x => return x

/-- `std::swap(a[i], a[j])` -/
def Arr.swap (a : Arr α) (i j : Int) : Except Fault (Arr α) := do
  let x ← a.get i
  let y ← a.get j
  let a ← a.set i y
  a.set j x

variable {f i j : Int} {A B C : List α} {x y z : α}

@[simp] theorem get_at (hi : i = f + A.length) :
    (⟨f, A ++ x :: B⟩ : Arr α).get i = .ok x := by
  subst hi
  have h1 : ¬ f + (A.length : Int) < f := by omega
  have h2 : (f + (A.length : Int) - f).toNat = A.length := by omega
  simp only [Arr.get, if_neg h1, h2]
  simp

@[simp] theorem set_at (hi : i = f + A.length) :
    (⟨f, A ++ x :: B⟩ : Arr α).set i y = .ok ⟨f, A ++ y :: B⟩ := by
  subst hi
  have h1 : ¬ (f + (A.length : Int) < f ∨
      f + ((A ++ x :: B).length : Int) ≤ f + A.length) := by
    simp only [List.length_append, List.length_cons]
    omega
  have h2 : (f + (A.length : Int) - f).toNat = A.length := by omega
  rw [Arr.set, if_neg h1, h2]
  simp

/-- The split behind the first of two elements. -/
theorem get_second (hj : j = f + A.length + 1 + B.length) :
    (⟨f, A ++ x :: (B ++ y :: C)⟩ : Arr α).get j = .ok y := by
  have hsplit : A ++ x :: (B ++ y :: C) = (A ++ x :: B) ++ y :: C := by simp
  rw [hsplit, get_at]
  simp only [List.length_append, List.length_cons]
  omega

theorem set_second (hj : j = f + A.length + 1 + B.length) :
    (⟨f, A ++ x :: (B ++ y :: C)⟩ : Arr α).set j z = .ok ⟨f, A ++ x :: (B ++ z :: C)⟩ := by
  have hsplit : ∀ w, A ++ x :: (B ++ w :: C) = (A ++ x :: B) ++ w :: C := by simp
  rw [hsplit, set_at, hsplit]
  simp only [List.length_append, List.length_cons]
  omega

theorem swap_at (hi : i = f + A.length) (hj : j = f + A.length + 1 + B.length) :
    (⟨f, A ++ x :: (B ++ y :: C)⟩ : Arr α).swap i j =
      .ok ⟨f, A ++ y :: (B ++ x :: C)⟩ := by
  simp only [Arr.swap, get_at hi, get_second hj, set_at hi, bind, Except.bind]
  exact set_second hj

/-- The same with the indices the other way round. -/
theorem swap_at_rev (hi : i = f + A.length) (hj : j = f + A.length + 1 + B.length) :
    (⟨f, A ++ x :: (B ++ y :: C)⟩ : Arr α).swap j i = .ok ⟨f, A ++ y :: (B ++ x :: C)⟩ := by
  simp only [Arr.swap, get_at hi, get_second hj, set_second hj, bind, Except.bind]
  exact set_at hi

theorem swap_self (hi : i = f + A.length) :
    (⟨f, A ++ x :: B⟩ : Arr α).swap i i = .ok ⟨f, A ++ x :: B⟩ := by
  simp only [Arr.swap, get_at hi, set_at hi, bind, Except.bind]

/-- An element changes places with the first of those in front of it. -/
theorem swap_behind (hi : i = f + A.length) (hj : j = i + B.length) : ∃ B',
    (⟨f, A ++ (B ++ x :: C)⟩ : Arr α).swap i j = .ok ⟨f, A ++ x :: (B' ++ C)⟩ ∧
      (⟨f, A ++ (B ++ x :: C)⟩ : Arr α).swap j i = .ok ⟨f, A ++ x :: (B' ++ C)⟩ ∧ B'.Perm B := by
  cases B with
  | nil =>
    obtain rfl : j = i := by
      rw [List.length_nil] at hj
      omega
    exact ⟨[], swap_self hi, swap_self hi, List.Perm.refl _⟩
  | cons y B =>
    have hj' : j = f + A.length + 1 + B.length := by
      rw [List.length_cons] at hj
      omega
    have hjoin : A ++ x :: ((B ++ [y]) ++ C) = A ++ x :: (B ++ y :: C) := by simp
    refine ⟨B ++ [y], ?_, ?_, List.perm_append_singleton y B⟩
    · rw [hjoin]
      exact swap_at hi hj'
    · rw [hjoin]
      exact swap_at_rev hi hj'

/-- An array from 0 is its list. -/
theorem get_nat {l : List α} {k : Nat} (h : l[k]? = some x) : (⟨0, l⟩ : Arr α).get k = .ok x := by
  have hpos : ¬ (k : Int) < 0 := by omega
  simp only [Arr.get, if_neg hpos, Int.sub_zero, Int.toNat_natCast, h]

theorem get_pred {l : List α} {k : Nat} (hk : 1 ≤ k) (h : l[k - 1]? = some x) :
    (⟨0, l⟩ : Arr α).get (k - 1) = .ok x := by
  have hpred : (k : Int) - 1 = (k - 1 : Nat) := by omega
  rw [hpred]
  exact get_nat h

theorem set_nat {l : List α} {k : Nat} (h : k < l.length) :
    (⟨0, l⟩ : Arr α).set k x = .ok ⟨0, l.set k x⟩ := by
  have hpos : ¬ ((k : Int) < 0 ∨ 0 + (l.length : Int) ≤ k) := by omega
  simp only [Arr.set, if_neg hpos, Int.sub_zero, Int.toNat_natCast]

end

/-! ## Arrays from 1 -/

section
variable {α : Type} {n i j : Nat} {f g : Nat → α} {x : α}

/-- The array `a[1..n]` with `a[i] = f i`. -/
def table (n : Nat) (f : Nat → α) : Arr α := ⟨1, (List.range' 1 n).map f⟩

theorem table_of_list (a : List α) (d : α) :
    (⟨1, a⟩ : Arr α) = table a.length fun i => (a[i - 1]?).getD d := by
  refine congrArg (Arr.mk 1) (List.ext_getElem (by simp) fun i h1 h2 => ?_)
  have hi : i < a.length := h1
  simp [hi]

/-- The elements change their places at some indices only. -/
theorem perm_map_of_off {l r : List Nat} (hl : l.Nodup) (hr : r.Nodup) (hsub : ∀ i ∈ l, i ∈ r)
    (hperm : (l.map g).Perm (l.map f)) (hoff : ∀ i ∈ r, i ∉ l → g i = f i) :
    (r.map g).Perm (r.map f) := by
  have hinner : (r.filter (· ∈ l)).Perm l := by
    refine (List.perm_ext_iff_of_nodup (hr.filter _) hl).2 fun i => ?_
    simpa using hsub i
  have hsplit : (l ++ r.filter (· ∉ l)).Perm r := by
    refine (hinner.symm.append_right _).trans ?_
    simpa using List.filter_append_perm (fun i => decide (i ∈ l)) r
  have hother : (r.filter (· ∉ l)).map g = (r.filter (· ∉ l)).map f := by
    refine List.map_congr_left fun i hi => ?_
    have hi := List.mem_filter.1 hi
    exact hoff i hi.1 (of_decide_eq_true hi.2)
  refine (hsplit.symm.map g).trans (List.Perm.trans ?_ (hsplit.map f))
  rw [List.map_append, List.map_append, hother]
  exact hperm.append_right _

theorem get_table (h1 : 1 ≤ i) (hn : i ≤ n) : (table n f).get i = .ok (f i) := by
  have hpos : ¬ (i : Int) < 1 := by omega
  have hidx : ((i : Int) - 1).toNat = i - 1 := by omega
  have hlt : i - 1 < n := by omega
  have hback : 1 + (i - 1) = i := by omega
  simp only [table, Arr.get, if_neg hpos, hidx, List.getElem?_map]
  simp [hlt, hback]

theorem set_table (h1 : 1 ≤ i) (hn : i ≤ n) :
    (table n f).set i x = .ok (table n (Function.update f i x)) := by
  have hpos : ¬ ((i : Int) < 1 ∨ 1 + (n : Int) ≤ i) := by omega
  have hidx : ((i : Int) - 1).toNat = i - 1 := by omega
  have hset : ((List.range' 1 n).map f).set (i - 1) x =
      (List.range' 1 n).map (Function.update f i x) := by
    refine List.ext_getElem (by simp) fun k hk _ => ?_
    by_cases hki : i - 1 = k
    · have hi : 1 + k = i := by omega
      simp [hki, hi]
    · have hi : 1 + k ≠ i := by omega
      simp [List.getElem_set_of_ne hki, hi]
  simp only [table, Arr.set, List.length_map, List.length_range', if_neg hpos, hidx, hset]

theorem swap_table (hi : 1 ≤ i) (hin : i ≤ n) (hj : 1 ≤ j) (hjn : j ≤ n) :
    (table n f).swap i j =
      .ok (table n (Function.update (Function.update f i (f j)) j (f i))) := by
  simp only [Arr.swap, get_table hi hin, get_table hj hjn, set_table hi hin, bind, Except.bind]
  exact set_table hj hjn

end

/-! ## Counted loops -/

section
variable {σ ε : Type} {P : Nat → σ → Prop} {f : σ → Nat → Except ε σ} {m n : Nat} {s : σ}

/-- `for (k = m; k < m + n; k++)` -/
theorem upward (h : ∀ k, m ≤ k → k < m + n → ∀ s, P k s → ∃ s', f s k = .ok s' ∧ P (k + 1) s')
    (hs : P m s) : ∃ s', (List.range' m n).foldlM f s = .ok s' ∧ P (m + n) s' := by
  induction n generalizing m s with
  | zero => exact ⟨s, rfl, hs⟩
  | succ n ih =>
    obtain ⟨s', hbody, hs'⟩ := h m le_rfl (by omega) s hs
    obtain ⟨r, hrest, hr⟩ := ih (m := m + 1)
      (fun k hk hkn => h k (Nat.le_of_succ_le hk) (by omega)) hs'
    refine ⟨r, ?_, ?_⟩
    · rw [List.range'_succ, List.foldlM_cons, hbody]
      exact hrest
    · rwa [Nat.add_right_comm, Nat.add_assoc] at hr

/-- `for (k = n - 1; k >= 0; k--)` -/
theorem downward (h : ∀ k < n, ∀ s, P (k + 1) s → ∃ s', f s k = .ok s' ∧ P k s')
    (hs : P n s) : ∃ s', (List.range n).reverse.foldlM f s = .ok s' ∧ P 0 s' := by
  induction n generalizing s with
  | zero => exact ⟨s, rfl, hs⟩
  | succ n ih =>
    obtain ⟨s', hbody, hs'⟩ := h n (Nat.lt_succ_self n) s hs
    obtain ⟨r, hrest, hr⟩ := ih (fun k hk => h k (Nat.lt_succ_of_lt hk)) hs'
    refine ⟨r, ?_, hr⟩
    rw [List.range_succ, List.reverse_append, List.reverse_singleton, List.singleton_append,
      List.foldlM_cons, hbody]
    exact hrest

end

/-! ## Loops over lists -/

section
variable {α β ε : Type} {l : List α}

/-- A loop that appends what each round gives. -/
theorem collect {out : α → List β} {body : List β → α → Except ε (List β)}
    (h : ∀ vs, ∀ x ∈ l, body vs x = .ok (vs ++ out x)) (vs : List β) :
    l.foldlM body vs = .ok (vs ++ l.flatMap out) := by
  induction l generalizing vs with
  | nil => simp [pure, Except.pure]
  | cons x l ih =>
    rw [List.foldlM_cons, h vs x List.mem_cons_self, List.flatMap_cons, ← List.append_assoc]
    exact ih (fun vs y hy => h vs y (List.mem_cons_of_mem x hy)) (vs ++ out x)

/-- A loop that stops at the first success. -/
theorem anyM_ok {f : α → Except ε Bool} {P : α → Prop}
    (h : ∀ x ∈ l, ∃ b, f x = .ok b ∧ (b = true ↔ P x)) :
    ∃ b, l.anyM f = .ok b ∧ (b = true ↔ ∃ x ∈ l, P x) := by
  induction l with
  | nil => exact ⟨false, rfl, by simp⟩
  | cons x l ih =>
    obtain ⟨b, hx, hb⟩ := h x List.mem_cons_self
    rw [List.anyM, hx]
    cases b with
    | true => exact ⟨true, rfl, iff_of_true rfl ⟨x, List.mem_cons_self, hb.1 rfl⟩⟩
    | false =>
      obtain ⟨c, hrest, hc⟩ := ih fun y hy => h y (List.mem_cons_of_mem x hy)
      have hnot : ¬P x := fun hx => by cases hb.2 hx
      refine ⟨c, hrest, hc.trans ?_⟩
      simp [hnot]

end

/-! ## Fuel -/

section
variable {ε α β : Type} {f g : Nat → Except ε α} {r r' : α}

/-- With enough fuel `r` is returned. -/
def Ends (f : Nat → Except ε α) (r : α) : Prop := ∃ n, ∀ fuel ≥ n, f fuel = .ok r

/-- What `x` returns `y` returns. -/
def Below (x y : Except ε α) : Prop := ∀ r, x = .ok r → y = .ok r

/-- More fuel does not change what is returned. -/
def Steady (f : Nat → Except ε α) : Prop := ∀ n, Below (f n) (f (n + 1))

theorem Steady.le (h : Steady f) {n m : Nat} (hnm : n ≤ m) (hr : f n = .ok r) : f m = .ok r := by
  induction hnm with
  | refl => exact hr
  | step _ ih => exact h _ _ ih

theorem Steady.ends (h : Steady f) {n : Nat} (hr : f n = .ok r) : Ends f r :=
  ⟨n, fun _ hm => h.le hm hr⟩

theorem Ends.unique (h : Ends f r) (h' : Ends f r') : r = r' := by
  obtain ⟨n, hn⟩ := h
  obtain ⟨m, hm⟩ := h'
  have h1 := hn (max n m) (Nat.le_max_left n m)
  rw [hm (max n m) (Nat.le_max_right n m)] at h1
  exact (Except.ok.inj h1).symm

theorem Steady.eq (h : Steady f) (hends : Ends f r) {n : Nat} (hr : f n = .ok r') : r' = r :=
  (h.ends hr).unique hends

theorem Ends.exists (h : Ends f r) : ∃ n, f n = .ok r ∧ f (n + 1) = .ok r := by
  obtain ⟨n, hn⟩ := h
  exact ⟨n, hn n le_rfl, hn (n + 1) (Nat.le_succ n)⟩

theorem Ends.from (h : Ends f r) (m : Nat) : ∃ fuel ≥ m, f fuel = .ok r := by
  obtain ⟨n, hn⟩ := h
  exact ⟨max n m, le_max_right n m, hn _ (le_max_left n m)⟩

variable {k : Nat → α → Except ε β}

/-- One program after the other. -/
theorem Ends.bind {b : β} (h : Ends f r) (hk : Ends (k · r) b) :
    Ends (fun fuel => f fuel >>= k fuel) b := by
  obtain ⟨n, hn⟩ := h
  obtain ⟨m, hm⟩ := hk
  refine ⟨max n m, fun fuel hf => ?_⟩
  show f fuel >>= k fuel = .ok b
  rw [hn fuel (le_trans (Nat.le_max_left n m) hf)]
  exact hm fuel (le_trans (Nat.le_max_right n m) hf)

theorem Ends.pure (b : β) : Ends (fun _ => (.ok b : Except ε β)) b := ⟨0, fun _ _ => rfl⟩

/-- A program that spends a unit of fuel first. -/
theorem Ends.succ (h : Ends (fun fuel => f (fuel + 1)) r) : Ends f r := by
  obtain ⟨n, hn⟩ := h
  refine ⟨n + 1, fun fuel hf => ?_⟩
  obtain ⟨m, rfl⟩ := Nat.exists_eq_succ_of_ne_zero (Nat.ne_zero_of_lt hf)
  exact hn m (Nat.le_of_succ_le_succ hf)

theorem ok_bind (a : α) (k : α → Except ε β) : (Except.ok a >>= k) = k a := rfl

/-- What a program returned has come from its two parts. -/
theorem bind_eq_ok {m : Except ε α} {k : α → Except ε β} {b : β}
    (h : m >>= k = .ok b) : ∃ a, m = .ok a ∧ k a = .ok b := by
  cases m with
  | error e => cases h
  | ok a => exact ⟨a, rfl, h⟩

theorem Below.refl (x : Except ε α) : Below x x := fun _ hr => hr

theorem Below.bind {x y : Except ε α} {k l : α → Except ε β} (h : Below x y)
    (hk : ∀ a, Below (k a) (l a)) : Below (x >>= k) (y >>= l) := by
  intro r hr
  obtain ⟨a, ha, hr⟩ := bind_eq_ok hr
  rw [h a ha]
  exact hk a r hr

theorem Below.ite {c : Prop} [Decidable c] {x y x' y' : Except ε α} (h : Below x y)
    (h' : Below x' y') : Below (if c then x else x') (if c then y else y') := by
  split
  · exact h
  · exact h'

theorem Steady.bind (h : Steady f) (hk : ∀ a, Steady (k · a)) :
    Steady fun fuel => f fuel >>= k fuel :=
  fun n => (h n).bind fun a => hk a n

/-- A result of two programs is one of the second on the result of the first. -/
theorem Ends.bind_iff {b : β} (h : Steady f) (hk : ∀ a, Steady (k · a)) :
    Ends (fun fuel => f fuel >>= k fuel) b ↔ ∃ a, Ends f a ∧ Ends (k · a) b := by
  refine ⟨fun hb => ?_, fun hb => ?_⟩
  · obtain ⟨n, hn, _⟩ := hb.exists
    obtain ⟨a, ha, hb⟩ := bind_eq_ok hn
    exact ⟨a, h.ends ha, (hk a).ends hb⟩
  · obtain ⟨a, ha, hb⟩ := hb
    exact ha.bind hb

theorem Ends.succ_iff : Ends (fun fuel => f (fuel + 1)) r ↔ Ends f r := by
  refine ⟨Ends.succ, fun h => ?_⟩
  obtain ⟨n, hn⟩ := h
  exact ⟨n, fun fuel hf => hn (fuel + 1) (Nat.le_succ_of_le hf)⟩

/-- A program that spends no fuel. -/
theorem Ends.const_iff {x : Except ε α} : Ends (fun _ => x) r ↔ x = .ok r :=
  ⟨fun h => let ⟨n, hn⟩ := h; hn n le_rfl, fun h => ⟨0, fun _ _ => h⟩⟩

theorem Steady.const (x : Except ε α) : Steady fun _ => x := fun _ => Below.refl x

end

/-! ## Segments -/

section
variable {α : Type} {le : α → α → Prop} {A s s' B a : List α} {left right : Nat}

/-- `a[left..right]` -/
def segment (a : List α) (left right : Nat) : List α := (a.drop left).take (right + 1 - left)

/-- `a'` is `a` with `a[left..right]` in order. -/
structure Sorts (le : α → α → Prop) (left right : Nat) (a a' : List α) : Prop where
  before : a'.take left = a.take left
  behind : a'.drop (right + 1) = a.drop (right + 1)
  perm : (segment a' left right).Perm (segment a left right)
  sorted : (segment a' left right).Pairwise le

theorem segment_append (hA : A.length = left) (hs : left + s.length = right + 1) :
    segment (A ++ (s ++ B)) left right = s := by
  have hlen : right + 1 - left = s.length := by omega
  rw [segment, ← hA, List.drop_left, hA, hlen, List.take_left]

theorem drop_segment (hA : A.length = left) (hs : left + s.length = right + 1) :
    (A ++ (s ++ B)).drop (right + 1) = B := by
  rw [← hs, ← hA, ← List.append_assoc, ← List.length_append, List.drop_left]

/-- An array is split at the ends of a segment. -/
theorem segment_split (hle : left ≤ right) (hlen : right < a.length) :
    ∃ A s B, a = A ++ (s ++ B) ∧ A.length = left ∧ left + s.length = right + 1 := by
  refine ⟨a.take left, (a.drop left).take (right + 1 - left),
    (a.drop left).drop (right + 1 - left), ?_, ?_, ?_⟩
  · rw [List.take_append_drop, List.take_append_drop]
  · rw [List.length_take]
    omega
  · rw [List.length_take, List.length_drop]
    omega

theorem Sorts.of_split (hA : A.length = left) (hs : left + s.length = right + 1)
    (hperm : s'.Perm s) (hsorted : s'.Pairwise le) :
    Sorts le left right (A ++ (s ++ B)) (A ++ (s' ++ B)) := by
  have hs' : left + s'.length = right + 1 := by rw [hperm.length_eq, hs]
  have hseg : segment (A ++ (s' ++ B)) left right = s' := segment_append hA hs'
  refine ⟨?_, ?_, ?_, ?_⟩
  · rw [← hA, List.take_left, List.take_left]
  · rw [drop_segment hA hs', drop_segment hA hs]
  · rw [hseg, segment_append hA hs]
    exact hperm
  · rw [hseg]
    exact hsorted

end

end Checked
