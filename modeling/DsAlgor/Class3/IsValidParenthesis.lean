import DsAlgor.Lib.Brackets
import DsAlgor.Lib.Signed

/-!
# `isValidParenthesis.c`

`isMatchParentheses` assigns where it should compare, so an opening brace is closed by anything that
is not an opening bracket. `isValidParentheses` accepts the balanced strings, and those in which a
closing brace has been replaced. Its index is an `int`, which overflows in a string of `2 ^ 31` and
more characters unless one of the first ones is refused (`isValidParentheses_iff`).
-/

namespace Class3

open Brackets
open Signed (Undefined add add_ok add_overflow intMax)

def isLeftParentheses (input : Char) : Bool := input = '(' || input = '[' || input = '{'

def isMatchParentheses (left right : Char) : Bool :=
  match left with
  | '(' => right = ')'
  | '[' => right = ']'
  | '{' =>
    -- an assignment, which has the value assigned
    let right := '}'
    right.toNat ≠ 0
  | _ => false

/-- The loop of `isValidParentheses` from index `i` on, with the stack of the open brackets. -/
def validLoop (i : Nat) : List Char → List Char → Except Undefined Bool
  | parenthesesStack, [] => return parenthesesStack.isEmpty
  | parenthesesStack, c :: input =>
    if isLeftParentheses c then do
      let _ ← add i 1
      validLoop (i + 1) (c :: parenthesesStack) input
    else
      match parenthesesStack with
      | [] => return false
      | top :: parenthesesStack =>
        if isMatchParentheses top c then do
          let _ ← add i 1
          validLoop (i + 1) parenthesesStack input
        else return false

def isValidParentheses (input : List Char) : Except Undefined Bool := validLoop 0 [] input

/-- The three kinds of brackets. -/
def Pair (l r : Char) : Prop := (l, r) ∈ [('(', ')'), ('[', ']'), ('{', '}')]

instance : DecidableRel Pair := fun l r =>
  inferInstanceAs (Decidable ((l, r) ∈ [('(', ')'), ('[', ']'), ('{', '}')]))

/-- Some closing braces of `t` are replaced in `s`, by what is not an opening bracket. -/
def Replaced (t s : List Char) : Prop :=
  List.Forall₂ (fun a b => b = a ∨ a = '}' ∧ isLeftParentheses b = false) t s

section
variable {stack s t : List Char} {l r a b c : Char}

/-- The scan with the comparison that is meant. -/
def scanPairs (stack s : List Char) : Bool :=
  scan isLeftParentheses (fun l r => decide (Pair l r)) stack s

theorem isLeft_iff : isLeftParentheses c = true ↔ c = '(' ∨ c = '[' ∨ c = '{' := by
  simp [isLeftParentheses, or_assoc]

theorem pair_iff : Pair l r ↔ l = '(' ∧ r = ')' ∨ l = '[' ∧ r = ']' ∨ l = '{' ∧ r = '}' := by
  simp [Pair]

theorem fits_iff : Fits isLeftParentheses (fun l r => decide (Pair l r)) l r ↔ Pair l r := by
  refine ⟨fun h => of_decide_eq_true h.2.2, fun h => ⟨?_, ?_, decide_eq_true h⟩⟩
  · rcases pair_iff.1 h with ⟨rfl, _⟩ | ⟨rfl, _⟩ | ⟨rfl, _⟩ <;> decide
  · rcases pair_iff.1 h with ⟨_, rfl⟩ | ⟨_, rfl⟩ | ⟨_, rfl⟩ <;> decide

theorem scanPairs_iff : scanPairs [] s = true ↔ Balanced Pair s := by
  have hpair : Fits isLeftParentheses (fun l r => decide (Pair l r)) = Pair := by
    funext l r
    exact propext fits_iff
  rw [scanPairs, scan_iff, hpair]

theorem scanPairs_right (hc : isLeftParentheses c = false) :
    scanPairs (l :: stack) (c :: s) = true ↔ Pair l c ∧ scanPairs stack s = true := by
  rw [scanPairs, scan_right hc]
  by_cases hpair : Pair l c
  · rw [decide_eq_true hpair]
    exact (and_iff_right hpair).symm
  · rw [decide_eq_false hpair]
    exact iff_of_false Bool.false_ne_true fun h => hpair h.1

/-- What the loop does is a scan, with the pairs that `isMatchParentheses` takes. -/
def scanMatches (stack s : List Char) : Bool :=
  scan isLeftParentheses isMatchParentheses stack s

/-- The loop with an index that does not overflow. -/
theorem validLoop_short {i : Nat} (h : i + s.length ≤ intMax) :
    validLoop i stack s = .ok (scanMatches stack s) := by
  induction s generalizing i stack with
  | nil => cases stack <;> rfl
  | cons c s ih =>
    rw [List.length_cons] at h
    push_cast at h
    have hnext : add i 1 = .ok ((i : Int) + 1) :=
      add_ok (Int.natCast_nonneg i) Int.one_nonneg (by omega)
    have ih : ∀ stack, validLoop (i + 1) stack s = .ok (scanMatches stack s) := fun stack =>
      ih (by push_cast; omega)
    unfold scanMatches at ih ⊢
    cases stack with
    | nil =>
      simp only [validLoop, scan, hnext, Signed.ok_bind, ih]
      split_ifs <;> rfl
    | cons top stack =>
      simp only [validLoop, scan, hnext, Signed.ok_bind, ih]
      split_ifs <;> rfl

/-- The loop with `n` rounds to go before the index overflows. -/
theorem validLoop_long {i n : Nat} (hn : (i : Int) + n = intMax) (hlen : n < s.length) :
    validLoop i stack s =
      match openAfter isLeftParentheses isMatchParentheses stack (s.take (n + 1)) with
      | none => .ok false
      | some _ => .error .overflow := by
  induction s generalizing i n stack with
  | nil => cases hlen
  | cons c s ih =>
    -- the rounds behind this one
    have hrest : ∀ stack, (add i 1 >>= fun _ => validLoop (i + 1) stack s) =
        match openAfter isLeftParentheses isMatchParentheses stack (s.take n) with
        | none => .ok false
        | some _ => .error .overflow := by
      intro stack
      cases n with
      | zero =>
        rw [add_overflow (by push_cast at hn; omega), List.take_zero]
        rfl
      | succ n =>
        rw [List.length_cons] at hlen
        rw [add_ok (Int.natCast_nonneg i) Int.one_nonneg (by push_cast at hn; omega),
          Signed.ok_bind]
        exact ih (by push_cast at hn ⊢; omega) (by omega)
    rw [List.take_succ_cons]
    cases stack with
    | nil =>
      simp only [validLoop, openAfter, hrest]
      split_ifs <;> rfl
    | cons top stack =>
      simp only [validLoop, openAfter, hrest]
      split_ifs <;> rfl

theorem pair_unique (h : Pair l a) (h' : Pair l b) : a = b := by
  rcases pair_iff.1 h with ⟨rfl, rfl⟩ | ⟨rfl, rfl⟩ | ⟨rfl, rfl⟩ <;>
    simpa [pair_iff, eq_comm] using h'

/-- What `isMatchParentheses` takes for an open bracket. -/
theorem isMatch_iff (hl : isLeftParentheses l = true) (hc : isLeftParentheses c = false) :
    isMatchParentheses l c = true ↔
      ∃ a, Pair l a ∧ (c = a ∨ a = '}' ∧ isLeftParentheses c = false) := by
  rcases isLeft_iff.1 hl with rfl | rfl | rfl
  · simp [isMatchParentheses, pair_iff]
  · simp [isMatchParentheses, pair_iff]
  · simp [isMatchParentheses, pair_iff, hc]

/-- Where a brace may have been replaced, both characters are on the same side. -/
theorem left_eq (h : c = a ∨ a = '}' ∧ isLeftParentheses c = false) :
    isLeftParentheses a = isLeftParentheses c := by
  rcases h with rfl | ⟨rfl, hc⟩
  · rfl
  · rw [hc]
    rfl

theorem left_cons (hstack : ∀ l ∈ stack, isLeftParentheses l = true)
    (hc : isLeftParentheses c = true) : ∀ l ∈ c :: stack, isLeftParentheses l = true := by
  intro l hl
  cases List.mem_cons.1 hl with
  | inl heq => exact heq ▸ hc
  | inr hl => exact hstack l hl

/-- The loop accepts what the scan that is meant accepts, and this with braces replaced. -/
theorem valid_iff (hstack : ∀ l ∈ stack, isLeftParentheses l = true) :
    scanMatches stack s = true ↔ ∃ t, scanPairs stack t = true ∧ Replaced t s := by
  unfold scanMatches
  induction s generalizing stack with
  | nil =>
    refine ⟨fun h => ⟨[], ?_, .nil⟩, fun h => ?_⟩
    · cases stack <;> exact h
    · obtain ⟨t, ht, hrep⟩ := h
      cases hrep
      cases stack <;> exact ht
  | cons c s ih =>
    cases hc : isLeftParentheses c with
    | true =>
      rw [scan_left hc, ih (left_cons hstack hc)]
      refine ⟨fun h => ?_, fun h => ?_⟩
      · obtain ⟨t, ht, hrep⟩ := h
        refine ⟨c :: t, ?_, .cons (.inl rfl) hrep⟩
        rw [scanPairs, scan_left hc]
        exact ht
      · obtain ⟨t, ht, hrep⟩ := h
        cases hrep with
        | cons hac hrep =>
          cases hac with
          | inl heq =>
            subst heq
            rw [scanPairs, scan_left hc] at ht
            exact ⟨_, ht, hrep⟩
          | inr hbrace =>
            rw [hc] at hbrace
            cases hbrace.2
    | false =>
      cases stack with
      | nil =>
        rw [scan_empty hc]
        refine iff_of_false Bool.false_ne_true fun h => ?_
        obtain ⟨t, ht, hrep⟩ := h
        cases hrep with
        | cons hac hrep =>
          rw [scanPairs, scan_empty ((left_eq hac).trans hc)] at ht
          cases ht
      | cons top stack =>
        have htop := hstack top List.mem_cons_self
        have hrest : ∀ l ∈ stack, isLeftParentheses l = true := fun l hl =>
          hstack l (List.mem_cons_of_mem _ hl)
        have hstep : scan isLeftParentheses isMatchParentheses (top :: stack) (c :: s) = true ↔
            isMatchParentheses top c = true ∧
              scan isLeftParentheses isMatchParentheses stack s = true := by
          rw [scan_right hc]
          by_cases hfits : isMatchParentheses top c = true
          · rw [if_pos hfits]
            exact (and_iff_right hfits).symm
          · rw [if_neg hfits]
            exact iff_of_false Bool.false_ne_true fun h => hfits h.1
        rw [hstep, isMatch_iff htop hc, ih hrest]
        refine ⟨fun h => ?_, fun h => ?_⟩
        · obtain ⟨⟨a, ha, hac⟩, t, ht, hrep⟩ := h
          refine ⟨a :: t, ?_, .cons (hac.imp_right fun h => ⟨h.1, hc⟩) hrep⟩
          exact (scanPairs_right ((left_eq hac).trans hc)).2 ⟨ha, ht⟩
        · obtain ⟨t, ht, hrep⟩ := h
          cases hrep with
          | cons hac hrep =>
            obtain ⟨ha, ht⟩ := (scanPairs_right ((left_eq hac).trans hc)).1 ht
            exact ⟨⟨_, ha, hac⟩, _, ht, hrep⟩

/-- With a brace replaced a string is not balanced any more. -/
theorem replaced_eq (ht : scanPairs stack t = true) (hs : scanPairs stack s = true)
    (h : Replaced t s) : t = s := by
  induction h generalizing stack with
  | nil => rfl
  | @cons a c t s hac h ih =>
    cases hc : isLeftParentheses c with
    | true =>
      have hsame : c = a := hac.resolve_right fun hbrace => by
        rw [hc] at hbrace
        cases hbrace.2
      subst hsame
      rw [scanPairs, scan_left hc] at ht hs
      rw [ih ht hs]
    | false =>
      have ha := (left_eq hac).trans hc
      cases stack with
      | nil =>
        rw [scanPairs, scan_empty hc] at hs
        cases hs
      | cons top stack =>
        obtain ⟨hpa, ht⟩ := (scanPairs_right ha).1 ht
        obtain ⟨hpc, hs⟩ := (scanPairs_right hc).1 hs
        rw [ih ht hs, pair_unique hpa hpc]

theorem scanMatches_iff : scanMatches [] s = true ↔ ∃ t, Balanced Pair t ∧ Replaced t s := by
  have hvalid := valid_iff (s := s) fun l hl => absurd hl List.not_mem_nil
  simpa only [scanPairs_iff] using hvalid

/-- The start of a string is not refused exactly when something can follow. -/
theorem openAfter_iff : openAfter isLeftParentheses isMatchParentheses [] s ≠ none ↔
    ∃ u t, Balanced Pair t ∧ Replaced t (s ++ u) := by
  simp only [← scanMatches_iff, scanMatches, scan_append]
  cases h : openAfter isLeftParentheses isMatchParentheses [] s with
  | none => exact iff_of_false (fun hne => hne rfl) fun ⟨u, hu⟩ => Bool.false_ne_true hu
  | some stack =>
    have hleft := left_of_openAfter nofun h
    refine iff_of_true nofun (exists_scan fun l hl => ?_)
    rcases isLeft_iff.1 (hleft l hl) with rfl | rfl | rfl
    · exact ⟨')', rfl, rfl, rfl⟩
    · exact ⟨']', rfl, rfl, rfl⟩
    · exact ⟨'}', rfl, rfl, rfl⟩

end

/-- The answer for `s` says whether it is balanced. -/
def Answers (s : List Char) : Prop :=
  ∃ b, isValidParentheses s = .ok b ∧ (b = true ↔ Balanced Pair s)

theorem scanMatches_right (s : List Char) : (scanMatches [] s = true ↔ Balanced Pair s) ↔
    ¬ ∃ t, Balanced Pair t ∧ Replaced t s ∧ t ≠ s := by
  have hrefl : ∀ l : List Char, Replaced l l := fun l => List.forall₂_same.2 fun c _ => .inl rfl
  rw [scanMatches_iff]
  refine ⟨fun h hbad => ?_, fun h => ⟨fun hex => ?_, fun hs => ⟨s, hs, hrefl s⟩⟩⟩
  · obtain ⟨t, ht, hrep, hne⟩ := hbad
    exact hne (replaced_eq (scanPairs_iff.2 ht) (scanPairs_iff.2 (h.1 ⟨t, ht, hrep⟩)) hrep)
  · obtain ⟨t, ht, hrep⟩ := hex
    by_contra hno
    exact h ⟨t, ht, hrep, fun heq => hno (heq ▸ ht)⟩

/-- **The condition**: the string is not a balanced one with a brace replaced, and the index does
not overflow; or its first `2 ^ 31` characters do not begin such a string. -/
theorem isValidParentheses_iff (s : List Char) : Answers s ↔
    s.length ≤ intMax ∧ (¬ ∃ t, Balanced Pair t ∧ Replaced t s ∧ t ≠ s) ∨
    intMax < s.length ∧ ¬ ∃ u t, Balanced Pair t ∧ Replaced t (s.take (2 ^ 31) ++ u) := by
  unfold Answers isValidParentheses
  by_cases hlen : s.length ≤ intMax
  · have hrun : validLoop 0 [] s = .ok (scanMatches [] s) :=
      validLoop_short (by rw [Nat.cast_zero, Int.zero_add]; exact hlen)
    rw [hrun, or_iff_left (fun h => absurd hlen h.1.not_ge), and_iff_right hlen,
      ← scanMatches_right]
    exact ⟨fun ⟨b, hb, hiff⟩ => Except.ok.inj hb ▸ hiff, fun h => ⟨_, rfl, h⟩⟩
  · have hlong : 2 ^ 31 - 1 < s.length := by
      unfold intMax at hlen
      omega
    have hcount : ((0 : Nat) : Int) + (2 ^ 31 - 1 : Nat) = intMax := by decide
    have hrun := @validLoop_long [] s 0 _ hcount hlong
    rw [Nat.sub_add_cancel Nat.one_le_two_pow] at hrun
    rw [hrun, or_iff_right (fun h => hlen h.1), and_iff_right (not_le.1 hlen), ← openAfter_iff]
    cases hopen : openAfter isLeftParentheses isMatchParentheses [] (s.take (2 ^ 31)) with
    | some stack => exact iff_of_false nofun fun h => h nofun
    | none =>
      refine iff_of_true ⟨false, rfl, iff_of_false Bool.false_ne_true fun hs => ?_⟩ fun h => h rfl
      refine (openAfter_iff (s := s.take (2 ^ 31))).2 ⟨s.drop (2 ^ 31), s, hs, ?_⟩ hopen
      rw [List.take_append_drop]
      exact List.forall₂_same.2 fun c _ => .inl rfl

/-- A brace that a parenthesis closes. -/
theorem not_answers_brace : ¬ Answers ['{', ')'] := by
  rintro ⟨b, hrun, hiff⟩
  have htrue : isValidParentheses ['{', ')'] = .ok true := by decide
  cases htrue.symm.trans hrun
  rw [← scanPairs_iff] at hiff
  exact absurd hiff (by decide)

end Class3
