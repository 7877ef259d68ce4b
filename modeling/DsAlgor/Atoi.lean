import DsAlgor.Lib.CInt

/-!
# `atoi`

`atoi` of `Solution.java`, and what its comment asks for (`expected`). The rest of the string from
`index` on stands for `index`. The loop over the blanks has no check of the index, and the loop over
the digits only stops at a number too great for an `int` when there is no minus sign, so that the
value of a long negative number is taken modulo 2 ^ 64 (`atoi_iff`).
-/

namespace Atoi

inductive Exception
  | stringIndexOutOfBounds
deriving DecidableEq

def MAX_VALUE : Int := 2147483647

def MIN_VALUE : Int := -2147483648

/-- `while (str.charAt(index) == ' ')` -/
def skipBlanks : List Char → Except Exception (List Char)
  | [] => .error .stringIndexOutOfBounds
  | c :: str => if c = ' ' then skipBlanks str else return c :: str

/-- The loop over the digits. -/
def digitsLoop (sign : Int) : List Char → Int → Int
  | [], num => num
  | c :: str, num =>
    if c < '0' ∨ c > '9' then num
    else
      let num := int64 (int64 (num * 10) + (c.toNat - '0'.toNat : Int))
      if num > MAX_VALUE ∧ sign = 1 then num else digitsLoop sign str num

def atoi (str : List Char) : Except Exception Int :=
  if str.length < 1 then return 0
  else do
    let str ← skipBlanks str
    let (sign, str) ← match str with
      | [] => Except.error .stringIndexOutOfBounds
      | c :: rest =>
        if c = '+' then Except.ok ((1 : Int), rest)
        else if c = '-' then Except.ok (-1, rest)
        else Except.ok (1, c :: rest)
    let num := digitsLoop sign str 0
    if int64 (num * sign) > MAX_VALUE then return MAX_VALUE
    else if int64 (num * sign) < MIN_VALUE then return MIN_VALUE
    else return int32 (int32 num * sign)

/-! ## What is asked for -/

/-- The sign, and what is behind it. -/
def splitSign : List Char → Int × List Char
  | '+' :: str => (1, str)
  | '-' :: str => (-1, str)
  | str => (1, str)

/-- The value of the digits in front. -/
def value (str : List Char) : Nat := Nat.ofDigitChars 10 (str.takeWhile Char.isDigit) 0

def clamp (n : Int) : Int := max MIN_VALUE (min n MAX_VALUE)

def expected (str : List Char) : Int :=
  let (sign, rest) := splitSign (str.dropWhile (· = ' '))
  clamp (sign * value rest)

/-- When `atoi` returns what is asked for. -/
def Meets (str : List Char) : Prop :=
  (str = [] ∨ ∃ c ∈ str, c ≠ ' ') ∧ ∀ rest, splitSign (str.dropWhile (· = ' ')) = (-1, rest) →
    value rest < 2 ^ 31 ∨ 2 ^ 31 ≤ value rest % 2 ^ 64 ∧ value rest % 2 ^ 64 ≤ 2 ^ 63

/-! ## The digits -/

section
variable {str : List Char} {c : Char} {n : Nat}

/-- The value of the digits in front when `n` has been read. -/
def valueFrom (n : Nat) (str : List Char) : Nat :=
  Nat.ofDigitChars 10 (str.takeWhile Char.isDigit) n

def digit (c : Char) : Nat := c.toNat - '0'.toNat

theorem digit_iff : ¬ (c < '0' ∨ c > '9') ↔ c.isDigit = true := by
  rw [Char.isDigit_iff_toNat]
  show ¬ (c.toNat < 48 ∨ 57 < c.toNat) ↔ 48 ≤ c.toNat ∧ c.toNat ≤ 57
  omega

theorem valueFrom_digit (hc : c.isDigit = true) :
    valueFrom n (c :: str) = valueFrom (10 * n + digit c) str := by
  rw [valueFrom, List.takeWhile_cons_of_pos hc, Nat.ofDigitChars_cons]
  rfl

theorem valueFrom_stop (hc : ¬ c.isDigit = true) : valueFrom n (c :: str) = n := by
  rw [valueFrom, List.takeWhile_cons_of_neg hc, Nat.ofDigitChars_nil]

theorem le_valueFrom : n ≤ valueFrom n str := by
  induction str generalizing n with
  | nil => exact le_rfl
  | cons c str ih =>
    by_cases hc : c.isDigit = true
    · rw [valueFrom_digit hc]
      exact le_trans (by omega) ih
    · rw [valueFrom_stop hc]

theorem digit_le (hc : c.isDigit = true) : digit c ≤ 9 := by
  have hrange : 48 ≤ c.toNat ∧ c.toNat ≤ 57 := Char.isDigit_iff_toNat.1 hc
  show c.toNat - 48 ≤ 9
  omega

/-- One step of the accumulator. -/
theorem accumulate (num : Int) (hc : c.isDigit = true) :
    int64 (int64 (num * 10) + (c.toNat - '0'.toNat : Int)) =
      int64 (10 * num + digit c) := by
  have hrange : 48 ≤ c.toNat ∧ c.toNat ≤ 57 := Char.isDigit_iff_toNat.1 hc
  have hdigit : (c.toNat : Int) - ('0'.toNat : Int) = (digit c : Int) := by
    show (c.toNat : Int) - 48 = ((c.toNat - 48 : Nat) : Int)
    omega
  rw [hdigit, int64, int64, int64, Int.bmod_add_bmod, Int.mul_comm]

/-- Without a minus sign the number stays small until it is too great for an `int`. -/
theorem digitsLoop_pos (str : List Char) (hn : (n : Int) ≤ MAX_VALUE) :
    ((valueFrom n str : Int) ≤ MAX_VALUE → digitsLoop 1 str n = valueFrom n str) ∧
      (MAX_VALUE < (valueFrom n str : Int) →
        MAX_VALUE < digitsLoop 1 str n ∧ digitsLoop 1 str n < 2 ^ 63) := by
  induction str generalizing n with
  | nil => exact ⟨fun _ => rfl, fun hlt => absurd hn (not_le.2 hlt)⟩
  | cons c str ih =>
    by_cases hc : c.isDigit = true
    · have hdigit := digit_le hc
      rw [MAX_VALUE] at hn
      have hsmall : int64 (10 * (n : Int) + digit c) = (10 * n + digit c : Nat) := by
        unfold int64
        rw [Int.bmod_eq_of_le] <;> push_cast <;> omega
      rw [digitsLoop, if_neg (digit_iff.2 hc), accumulate _ hc, hsmall, valueFrom_digit hc]
      by_cases hbig : ((10 * n + digit c : Nat) : Int) > MAX_VALUE
      · rw [if_pos ⟨hbig, rfl⟩]
        have hle : 10 * n + digit c ≤ valueFrom (10 * n + digit c) str :=
          le_valueFrom
        refine ⟨fun hle' => ?_, fun _ => ⟨hbig, by omega⟩⟩
        omega
      · rw [if_neg fun h => hbig h.1]
        exact ih (not_lt.1 hbig)
    · rw [digitsLoop, if_pos (not_not.1 fun h => hc (digit_iff.1 h)), valueFrom_stop hc]
      exact ⟨fun _ => rfl, fun hlt => absurd hn (not_le.2 hlt)⟩

/-- With a minus sign it is taken modulo 2 ^ 64. -/
theorem digitsLoop_neg {num : Int} (hnum : num = int64 n) :
    digitsLoop (-1) str num = int64 (valueFrom n str) := by
  induction str generalizing n num with
  | nil => exact hnum
  | cons c str ih =>
    by_cases hc : c.isDigit = true
    · rw [digitsLoop, if_neg (digit_iff.2 hc), accumulate _ hc, valueFrom_digit hc]
      rw [if_neg fun h => absurd h.2 (by decide)]
      refine ih ?_
      rw [hnum, int64, int64, int64, ← Int.bmod_add_bmod, Int.mul_bmod_bmod, Int.bmod_add_bmod]
      push_cast
      rfl
    · rw [digitsLoop, if_pos (not_not.1 fun h => hc (digit_iff.1 h)), valueFrom_stop hc, hnum]

/-! ## The result -/

/-- What `atoi` makes of the number. -/
def result (sign num : Int) : Int :=
  if int64 (num * sign) > MAX_VALUE then MAX_VALUE
  else if int64 (num * sign) < MIN_VALUE then MIN_VALUE
  else int32 (int32 num * sign)

theorem result_pos {num : Int} (h0 : 0 ≤ num) (h : num < 2 ^ 63) : result 1 num = clamp num := by
  have hlong : int64 (num * 1) = num := by
    unfold int64
    rw [Int.bmod_eq_of_le] <;> omega
  unfold result clamp MIN_VALUE MAX_VALUE
  rw [hlong]
  split
  · omega
  · have hint : int32 num = num := by
      unfold int32
      rw [Int.bmod_eq_of_le] <;> omega
    rw [hint, Int.mul_one, hint]
    omega

/-- Without a minus sign the result is right. -/
theorem result_digits (rest : List Char) :
    result 1 (digitsLoop 1 rest 0) = clamp (1 * value rest) := by
  obtain ⟨hsmall, hbig⟩ := digitsLoop_pos rest (n := 0) (by decide)
  rw [Nat.cast_zero] at hsmall hbig
  rw [Int.one_mul]
  show result 1 (digitsLoop 1 rest 0) = clamp (valueFrom 0 rest)
  rcases le_or_gt (valueFrom 0 rest : Int) MAX_VALUE with hle | hlt
  · have hnum : digitsLoop 1 rest 0 = valueFrom 0 rest := hsmall hle
    rw [hnum]
    refine result_pos (Int.natCast_nonneg _) ?_
    rw [MAX_VALUE] at hle
    omega
  · obtain ⟨hgt, hlong⟩ := hbig hlt
    have hpos : 0 ≤ digitsLoop 1 rest 0 := le_trans (by decide) hgt.le
    rw [result_pos hpos hlong]
    rw [clamp, clamp, min_eq_right hgt.le, min_eq_right hlt.le]

theorem result_neg (num : Int) : result (-1) num = clamp (int64 (-num)) := by
  unfold result clamp MIN_VALUE MAX_VALUE
  rw [Int.mul_neg_one]
  split
  · omega
  · split
    · omega
    · -- in range, the 32 bits are those of the 64
      have hbits : int32 (int32 num * -1) = int32 (int64 (-num)) := by
        unfold int32 int64
        rw [Int.bmod_mul_bmod, Int.mul_neg_one, Int.bmod_bmod_of_dvd (by decide)]
      have hint : int32 (int64 (-num)) = int64 (-num) := by
        unfold int32
        rw [Int.bmod_eq_of_le] <;> omega
      rw [hbits, hint]
      omega

theorem clamp_neg_iff : clamp (int64 (-int64 n)) = clamp (-n) ↔
    n < 2 ^ 31 ∨ 2 ^ 31 ≤ n % 2 ^ 64 ∧ n % 2 ^ 64 ≤ 2 ^ 63 := by
  have hneg : int64 (-int64 n) = int64 (-n) := by
    unfold int64
    rw [← Int.mul_neg_one, Int.bmod_mul_bmod, Int.mul_neg_one]
  rw [hneg]
  unfold clamp int64 MIN_VALUE MAX_VALUE
  rw [Int.bmod_def]
  omega

/-! ## The whole string -/

theorem skipBlanks_error (h : ∀ c ∈ str, c = ' ') :
    skipBlanks str = .error .stringIndexOutOfBounds := by
  induction str with
  | nil => rfl
  | cons c str ih =>
    rw [skipBlanks, if_pos (h c List.mem_cons_self)]
    exact ih fun d hd => h d (List.mem_cons_of_mem _ hd)

theorem skipBlanks_ok (h : ∃ c ∈ str, c ≠ ' ') : ∃ c rest,
    str.dropWhile (· = ' ') = c :: rest ∧ skipBlanks str = .ok (c :: rest) := by
  induction str with
  | nil =>
    obtain ⟨c, hc, _⟩ := h
    cases hc
  | cons c str ih =>
    by_cases hc : c = ' '
    · subst hc
      obtain ⟨d, hd, hne⟩ := h
      obtain ⟨c, rest, hdrop, hskip⟩ := ih ⟨d, (List.mem_cons.1 hd).resolve_left hne, hne⟩
      exact ⟨c, rest, by simpa using hdrop, by simpa [skipBlanks] using hskip⟩
    · exact ⟨c, str, by simp [hc], by simp [skipBlanks, hc, pure, Except.pure]⟩

theorem returned (sign num : Int) : (Except.ok (result sign num) : Except Exception Int) =
    if int64 (num * sign) > MAX_VALUE then return MAX_VALUE
    else if int64 (num * sign) < MIN_VALUE then return MIN_VALUE
    else return int32 (int32 num * sign) := by
  unfold result
  split
  · rfl
  · split <;> rfl

theorem atoi_ok (h : ∃ c ∈ str, c ≠ ' ') : ∃ sign rest,
    splitSign (str.dropWhile (· = ' ')) = (sign, rest) ∧ (sign = 1 ∨ sign = -1) ∧
      atoi str = .ok (result sign (digitsLoop sign rest 0)) := by
  obtain ⟨c, rest, hdrop, hskip⟩ := skipBlanks_ok h
  have hlen : ¬ str.length < 1 := by
    obtain ⟨d, hd, _⟩ := h
    have hpos := List.length_pos_of_mem hd
    omega
  rw [hdrop, atoi, if_neg hlen, hskip]
  by_cases hplus : c = '+'
  · subst hplus
    exact ⟨1, rest, rfl, .inl rfl, (returned _ _).symm⟩
  by_cases hminus : c = '-'
  · subst hminus
    exact ⟨-1, rest, rfl, .inr rfl, (returned _ _).symm⟩
  refine ⟨1, c :: rest, ?_, .inl rfl, ?_⟩
  · unfold splitSign
    split
    next heq => exact absurd (List.cons.inj heq).1 hplus
    next heq => exact absurd (List.cons.inj heq).1 hminus
    next => rfl
  · simp only [if_neg hplus, if_neg hminus, bind, Except.bind]
    exact (returned _ _).symm

end

/-- `atoi` returns what its comment asks for, unless the string is blank, or its number is negative
and does not get its sign back from the last 64 bits. -/
theorem atoi_iff (str : List Char) : atoi str = .ok (expected str) ↔ Meets str := by
  by_cases hblank : ∃ c ∈ str, c ≠ ' '
  · obtain ⟨sign, rest, hsplit, hsign, hatoi⟩ := atoi_ok hblank
    have hexpected : expected str = clamp (sign * value rest) := by
      rw [expected, hsplit]
    have hmeets : Meets str ↔ (sign = -1 →
        value rest < 2 ^ 31 ∨ 2 ^ 31 ≤ value rest % 2 ^ 64 ∧ value rest % 2 ^ 64 ≤ 2 ^ 63) := by
      rw [Meets, hsplit]
      refine ⟨fun h hs => h.2 rest (by rw [hs]), fun h => ⟨.inr hblank, fun rest' heq => ?_⟩⟩
      obtain ⟨rfl, rfl⟩ := Prod.mk.inj heq
      exact h rfl
    rw [hatoi, hexpected, hmeets, Except.ok.injEq]
    cases hsign with
    | inl hpos =>
      subst hpos
      refine iff_of_true ?_ (fun h => absurd h (by decide))
      exact result_digits rest
    | inr hneg =>
      subst hneg
      have hdigits : digitsLoop (-1) rest 0 = int64 (value rest) := digitsLoop_neg rfl
      rw [hdigits, result_neg, Int.neg_one_mul, imp_iff_right rfl]
      exact clamp_neg_iff
  · have hall : ∀ c ∈ str, c = ' ' := fun c hc => by
      by_contra hne
      exact hblank ⟨c, hc, hne⟩
    cases str with
    | nil => exact iff_of_true rfl ⟨.inl rfl, fun rest heq => nomatch heq⟩
    | cons c str =>
      have hlen : ¬ (c :: str).length < 1 := by
        rw [List.length_cons]
        omega
      rw [atoi, if_neg hlen, skipBlanks_error hall]
      exact iff_of_false nofun fun h => hblank (h.1.resolve_left (List.cons_ne_nil c str))

/-- A string of one blank. -/
theorem atoi_blank : ¬ atoi [' '] = .ok (expected [' ']) := by
  decide

end Atoi
