import DsAlgor.Lib.CInt
import DsAlgor.Lib.Covering
import DsAlgor.Lib.Grid

/-!
# The shortest substring with all characters

`minWindow`, read with the blanks that the file has lost. A string is an array of characters that
ends with 0, and a table with 256 counters is indexed by characters. Once the characters up to
`end` cover `T`, the inner loop moves `begin` to the last place from where they still do. A
window as long as `INT_MAX` is not shorter than the first `minWindowLen`, and its ends are not
stored. The lengths of the strings are taken for `int`s, and only that many characters are looked
at (`minWindow_correct_iff`).
-/

namespace FindShortestSubstring

open Checked Covering Grid

def INT_MAX : Nat := 2 ^ 31 - 1

/-! ## The program -/

/-- `table[c]++` -/
def increment (table : Arr Nat) (c : Nat) : Except Fault (Arr Nat) := do
  let x ← table.get c
  table.set c (x + 1)

/-- A string with the 0 at its end. -/
def chars (S : List Nat) : Arr Nat := ⟨0, S ++ [0]⟩

/-- The first loop. -/
def countNeeded (T : Arr Nat) (tLen : Int) : Except Fault (Arr Nat) :=
  (List.range' 0 tLen.toNat).foldlM (fun needToFind (i : Nat) => do
    let c ← T.get i
    increment needToFind c) ⟨0, List.replicate 256 0⟩

/-- The inner loop: `begin` and `hasFound`. -/
def advance (S needToFind : Arr Nat) : Nat → Nat → Arr Nat → Except Fault (Nat × Arr Nat)
  | 0, _, _ => .error .loop
  | fuel + 1, first, hasFound => do
    let c ← S.get first
    let need ← needToFind.get c
    let found ← hasFound.get c
    if need = 0 ∨ found > need then
      if found > need then do
        let hasFound ← hasFound.set c (found - 1)
        advance S needToFind fuel (first + 1) hasFound
      else advance S needToFind fuel (first + 1) hasFound
    else return (first, hasFound)

/-- The variables of the outer loop; `first` is `begin`. -/
structure State where
  first : Nat
  hasFound : Arr Nat
  count : Nat
  minWindowLen : Nat
  minWindowBegin : Int
  minWindowEnd : Int

/-- The body of the outer loop for `end`. -/
def visit (S needToFind : Arr Nat) (tLen : Int) (fuel : Nat) (s : State) (last : Nat) :
    Except Fault State := do
  let c ← S.get last
  let need ← needToFind.get c
  if need = 0 then return s
  else do
    let hasFound ← increment s.hasFound c
    let found ← hasFound.get c
    let count := if found ≤ need then s.count + 1 else s.count
    if count = tLen then do
      let (first, hasFound) ← advance S needToFind fuel s.first hasFound
      let windowLen := last - first + 1
      if windowLen < s.minWindowLen then
        return ⟨first, hasFound, count, windowLen, first, last⟩
      else return { s with first := first, hasFound := hasFound, count := count }
    else return { s with hasFound := hasFound, count := count }

/-- The state after the characters before `stop`. -/
def runTo (S T : Arr Nat) (tLen begin₀ end₀ : Int) (stop fuel : Nat) : Except Fault State := do
  let needToFind ← countNeeded T tLen
  (List.range' 0 stop).foldlM (visit S needToFind tLen fuel)
    ⟨0, ⟨0, List.replicate 256 0⟩, 0, INT_MAX, begin₀, end₀⟩

/-- The result with `minWindowBegin` and `minWindowEnd`, which are `begin₀` and `end₀` before. -/
def minWindow (S T : List Nat) (begin₀ end₀ : Int) (fuel : Nat) :
    Except Fault (Bool × Int × Int) := do
  let sLen := int32 S.length
  let tLen := int32 T.length
  let s ← runTo (chars S) (chars T) tLen begin₀ end₀ sLen.toNat fuel
  return (s.count = tLen, s.minWindowBegin, s.minWindowEnd)

/-! ## What is claimed -/

/-- The characters of a string have seven bits. -/
def IsString (S : List Nat) : Prop := ∀ c ∈ S, 0 < c ∧ c < 128

/-- The result says whether there is a window, and a shortest one is stored. -/
structure Finds (S T : List Nat) (r : Bool × Int × Int) : Prop where
  found : r.1 = true ↔ ∃ b e, Window S T b e
  least : r.1 = true → ∃ b e : Nat, r.2 = ((b : Int), (e : Int)) ∧ Window S T b e ∧
    ∀ b' e', Window S T b' e' → e - b ≤ e' - b'

/-- Whatever the two positions are before. -/
structure Correct (S T : List Nat) : Prop where
  finds : ∀ begin₀ end₀, ∃ r, Ends (minWindow S T begin₀ end₀) r ∧ Finds S T r
  /-- The inner loop for `end = last` stops at `last` or before. -/
  first_le : ∀ begin₀ end₀ (last : Nat), last < int32 S.length → ∃ s s' : State,
    Ends (runTo (chars S) (chars T) (int32 T.length) begin₀ end₀ last) s ∧
    Ends (runTo (chars S) (chars T) (int32 T.length) begin₀ end₀ (last + 1)) s' ∧
      s.first ≤ s'.first ∧ s'.first ≤ last

/-! ## The tables -/

section
variable {S T A W R rest rest' : List Nat} {c i stop : Nat} {f : Nat → Nat} {begin₀ end₀ : Int}

/-- A table with the counters `f`. -/
def row (f : Nat → Nat) : Arr Nat := ⟨0, gridRow 256 f⟩

theorem get_row (hc : c < 256) : (row f).get c = .ok (f c) := get_gridRow hc

theorem increment_row (hc : c < 256) :
    increment (row f) c = .ok (row (Function.update f c (f c + 1))) := by
  rw [increment, get_row hc]
  exact set_gridRow hc

theorem countNeeded_ok (hT : IsString T) :
    countNeeded ⟨0, T ++ rest'⟩ T.length = .ok (row fun c => T.count c) := by
  have hstart : (⟨0, List.replicate 256 0⟩ : Arr Nat) = row fun c => (T.take 0).count c := by
    rw [replicate_gridRow, row]
    rfl
  have hstep : ∀ i, 0 ≤ i → i < 0 + T.length → ∀ table : Arr Nat,
      table = row (fun c => (T.take i).count c) → ∃ table',
        (do
          let c ← Arr.get ⟨0, T ++ rest'⟩ i
          increment table c) = .ok table' ∧ table' = row fun c => (T.take (i + 1)).count c := by
    rintro i - hi _ rfl
    have hi' : i < T.length := by omega
    have hget : Arr.get ⟨0, T ++ rest'⟩ i = .ok T[i] :=
      get_nat (by rw [List.getElem?_append_left hi', List.getElem?_eq_getElem hi'])
    have hlt := hT T[i] (List.getElem_mem hi')
    refine ⟨_, ?_, rfl⟩
    rw [hget, ok_bind, increment_row (by omega), List.take_succ_eq_append_getElem hi']
    refine congrArg (fun g => Except.ok (row g)) (funext fun c => ?_)
    rw [List.count_append, List.count_singleton]
    grind
  obtain ⟨_, hrun, rfl⟩ := upward hstep hstart
  rw [countNeeded, Int.toNat_natCast, hrun, Nat.zero_add, List.take_length]

/-- The counters of `hasFound` for the characters `W`. -/
def found (T W : List Nat) (c : Nat) : Nat := if T.count c = 0 then 0 else W.count c

theorem found_concat (hc : T.count c ≠ 0) :
    Function.update (found T W) c (found T W c + 1) = found T (W ++ [c]) := by
  funext x
  by_cases hx : x = c
  · subst hx
    rw [Function.update_self, found, found, if_neg hc, if_neg hc, List.count_append,
      List.count_singleton_self]
  · rw [Function.update_of_ne hx, found, found, List.count_append, List.count_singleton]
    grind

theorem found_cons_of_zero (hc : T.count c = 0) : found T (c :: W) = found T W := by
  funext x
  rw [found, found, List.count_cons]
  grind

theorem found_cons (hc : T.count c ≠ 0) :
    Function.update (found T (c :: W)) c (found T (c :: W) c - 1) = found T W := by
  funext x
  by_cases hx : x = c
  · subst hx
    rw [Function.update_self, found, if_neg hc, List.count_cons_self, found, if_neg hc,
      Nat.add_sub_cancel]
  · rw [Function.update_of_ne hx, found, found, List.count_cons_of_ne fun h => hx h.symm]

/-! ## The inner loop -/

/-- A character of the string has a counter, and is where it is. -/
theorem get_char (hS : IsString S) (hsplit : S = A ++ c :: R) :
    c < 256 ∧ Arr.get ⟨0, S ++ rest⟩ A.length = .ok c := by
  have hc := hS c (by rw [hsplit]; simp)
  refine ⟨by omega, ?_⟩
  rw [hsplit, List.append_assoc, List.cons_append]
  exact get_at (by omega)

theorem advance_ok (hT : T ≠ []) (hS : IsString S) (hsplit : S = A ++ (W ++ R))
    (hcov : Covers T W) : ∃ A' W', A ++ W = A' ++ W' ∧ A.length ≤ A'.length ∧ Tight T W' ∧
      ∀ fuel > W.length, advance ⟨0, S ++ rest⟩ (row fun c => T.count c) fuel A.length
        (row (found T W)) = .ok (A'.length, row (found T W')) := by
  induction W generalizing A with
  | nil => exact absurd rfl (hcov.ne_nil hT)
  | cons c W ih =>
    obtain ⟨hlt, hget⟩ := get_char hS hsplit
    have hnext : A ++ c :: W = (A ++ [c]) ++ W := by simp
    have hsplit' : S = (A ++ [c]) ++ (W ++ R) := by simp [hsplit]
    have hlen : (A ++ [c]).length = A.length + 1 := by simp
    have hunfold : ∀ fuel, advance ⟨0, S ++ rest⟩ (row fun c => T.count c) (fuel + 1) A.length
        (row (found T (c :: W))) =
        if T.count c = 0 ∨ found T (c :: W) c > T.count c then
          if found T (c :: W) c > T.count c then do
            let hasFound ← (row (found T (c :: W))).set c (found T (c :: W) c - 1)
            advance ⟨0, S ++ rest⟩ (row fun c => T.count c) fuel (A.length + 1) hasFound
          else advance ⟨0, S ++ rest⟩ (row fun c => T.count c) fuel (A.length + 1)
            (row (found T (c :: W)))
        else .ok (A.length, row (found T (c :: W))) := by
      intro fuel
      rw [advance, hget, ok_bind, get_row hlt, ok_bind, get_row hlt, ok_bind]
      rfl
    by_cases hzero : T.count c = 0
    · -- the character is not needed
      have hcov' : Covers T W := covers_cons_of_lt hcov (by rw [hzero, List.count_cons_self]; omega)
      obtain ⟨A', W', heq, hle, htight, hrun⟩ := ih hsplit' hcov'
      refine ⟨A', W', hnext.trans heq, by omega, htight, fun fuel hfuel => ?_⟩
      obtain ⟨fuel, rfl⟩ := Nat.exists_eq_succ_of_ne_zero (Nat.ne_zero_of_lt hfuel)
      have hfound : ¬found T (c :: W) c > T.count c := by
        rw [found, if_pos hzero]
        omega
      rw [hunfold, if_pos (.inl hzero), if_neg hfound, found_cons_of_zero hzero, ← hlen]
      exact hrun fuel (Nat.lt_of_succ_lt_succ hfuel)
    · have hfound : found T (c :: W) c = (c :: W).count c := if_neg hzero
      by_cases hmore : T.count c < (c :: W).count c
      · -- there are enough of them
        obtain ⟨A', W', heq, hle, htight, hrun⟩ := ih hsplit' (covers_cons_of_lt hcov hmore)
        refine ⟨A', W', hnext.trans heq, by omega, htight, fun fuel hfuel => ?_⟩
        obtain ⟨fuel, rfl⟩ := Nat.exists_eq_succ_of_ne_zero (Nat.ne_zero_of_lt hfuel)
        have hset : (row (found T (c :: W))).set c (found T (c :: W) c - 1) =
            .ok (row (found T W)) :=
          (set_gridRow hlt).trans (congrArg (fun g => Except.ok (row g)) (found_cons hzero))
        rw [hunfold, if_pos (.inr (hfound ▸ hmore)), if_pos (hfound ▸ hmore), hset, ok_bind,
          ← hlen]
        exact hrun fuel (Nat.lt_of_succ_lt_succ hfuel)
      · refine ⟨A, c :: W, rfl, le_rfl, ⟨hcov, not_covers_tail (not_lt.1 hmore)⟩,
          fun fuel hfuel => ?_⟩
        obtain ⟨fuel, rfl⟩ := Nat.exists_eq_succ_of_ne_zero (Nat.ne_zero_of_lt hfuel)
        rw [hunfold, if_neg (by rw [hfound]; exact not_or.2 ⟨hzero, hmore⟩)]

/-! ## The outer loop -/

/-- What is stored once the windows that end before `stop` are seen: the ends of a shortest one,
or what was there before as long as none is shorter than `INT_MAX`. -/
structure Stored (S T : List Nat) (begin₀ end₀ : Int) (stop len : Nat) (mb me : Int) : Prop where
  least : ∀ b e, Window S T b e → e < stop → len ≤ e + 1 - b
  ends : len = INT_MAX ∧ mb = begin₀ ∧ me = end₀ ∨
    ∃ b e : Nat, mb = b ∧ me = e ∧ Window S T b e ∧ len = e + 1 - b ∧ len < INT_MAX

/-- The characters `A` are behind the window `W`, and `R` is still to come. -/
structure Inv (S T : List Nat) (begin₀ end₀ : Int) (A W R : List Nat) (s : State) : Prop where
  split : S = A ++ (W ++ R)
  first : s.first = A.length
  hasFound : s.hasFound = row (found T W)
  count : s.count = matched T W
  tight : Covers T W → ¬Covers T W.tail
  start : ¬Covers T W → A = []
  stored : Stored S T begin₀ end₀ (A.length + W.length) s.minWindowLen s.minWindowBegin
    s.minWindowEnd

/-- No window ends with the next character. -/
theorem Stored.skip {len : Nat} {mb me : Int} (h : Stored S T begin₀ end₀ stop len mb me)
    (hno : ∀ b, Window S T b stop → ∃ e < stop, Window S T b e) :
    Stored S T begin₀ end₀ (stop + 1) len mb me := by
  refine ⟨fun b e hwin he => ?_, h.ends⟩
  rcases Nat.lt_succ_iff_lt_or_eq.1 he with he | rfl
  · exact h.least b e hwin he
  · obtain ⟨e', he', hwin'⟩ := hno b hwin
    have hlen := h.least b e' hwin' he'
    omega

variable {s : State}

/-- A character that is not in `T`. -/
theorem Inv.skip (h : Inv S T begin₀ end₀ A W (c :: R) s) (hT : T ≠ []) (hc : c ∉ T) :
    Inv S T begin₀ end₀ A (W ++ [c]) R s := by
  obtain ⟨hsplit, hfirst, hfound, hcount, htight, hstart, hstored⟩ := h
  have hat : S[A.length + W.length]? = some c := by
    rw [hsplit, ← List.append_assoc, ← List.length_append, List.getElem?_append_right le_rfl,
      Nat.sub_self, List.getElem?_cons_zero]
  refine ⟨by simp [hsplit], hfirst, ?_, ?_, fun hcov => ?_, fun hcov => ?_, ?_⟩
  · rw [hfound]
    refine congrArg row (funext fun x => ?_)
    rw [found, found, List.count_append, List.count_singleton]
    have hzero := List.count_eq_zero.2 hc
    grind
  · rw [hcount, matched_concat, List.count_eq_zero.2 hc]
    rfl
  · rw [covers_concat_of_notMem hc] at hcov
    rw [List.tail_append_of_ne_nil (hcov.ne_nil hT), covers_concat_of_notMem hc]
    exact htight hcov
  · rw [covers_concat_of_notMem hc] at hcov
    exact hstart hcov
  · rw [List.length_append, List.length_singleton, ← Nat.add_assoc]
    refine hstored.skip fun b hwin => ?_
    obtain ⟨hlt, hwin'⟩ := hwin.shorten hT hat hc
    exact ⟨_, by omega, hwin'⟩

/-- With the character the window does not cover `T` yet. -/
theorem Inv.more (h : Inv S T begin₀ end₀ A W (c :: R) s) (hcov : ¬Covers T (W ++ [c])) :
    Inv S T begin₀ end₀ A (W ++ [c]) R
      { s with hasFound := row (found T (W ++ [c])), count := matched T (W ++ [c]) } := by
  obtain ⟨hsplit, hfirst, hfound, hcount, htight, hstart, hstored⟩ := h
  have hA : A = [] := hstart fun h => hcov (h.of_sublist (List.sublist_append_left W [c]))
  refine ⟨by simp [hsplit], hfirst, rfl, rfl, fun h => absurd h hcov, fun _ => hA, ?_⟩
  rw [List.length_append, List.length_singleton, ← Nat.add_assoc]
  refine hstored.skip fun b hwin => absurd (hwin.covers.of_sublist ?_) hcov
  have htake : S.take (A.length + W.length + 1) = W ++ [c] := by
    rw [hsplit, hA, List.nil_append, List.length_nil, Nat.zero_add, List.take_append,
      List.take_of_length_le (Nat.le_succ _), Nat.add_sub_cancel_left, List.take_one]
    rfl
  rw [segment_eq_drop, htake]
  exact List.drop_sublist _ _

/-- The shortest window with a new end. -/
theorem Stored.add {len last first : Nat} {mb me : Int}
    (h : Stored S T begin₀ end₀ last len mb me) (hwin : Window S T first last)
    (hfirst : ∀ b, Window S T b last → b ≤ first) :
    if last - first + 1 < len then
      Stored S T begin₀ end₀ (last + 1) (last - first + 1) first last
    else Stored S T begin₀ end₀ (last + 1) len mb me := by
  have hle := hwin.le
  have hnew : ∀ b e, Window S T b e → e < last + 1 →
      len ≤ e + 1 - b ∨ last - first + 1 ≤ e + 1 - b := by
    intro b e hwin' he
    rcases Nat.lt_succ_iff_lt_or_eq.1 he with he | rfl
    · exact .inl (h.least b e hwin' he)
    · have hb := hfirst b hwin'
      omega
  have hmax : len ≤ INT_MAX := by
    rcases h.ends with ⟨rfl, -⟩ | ⟨b, e, -, -, -, -, hlt⟩
    · exact le_rfl
    · exact hlt.le
  split_ifs with hlt
  · refine ⟨fun b e hwin' he => ?_, .inr ⟨first, last, rfl, rfl, hwin, by omega, by omega⟩⟩
    have hlen := hnew b e hwin' he
    omega
  · refine ⟨fun b e hwin' he => ?_, h.ends⟩
    have hlen := hnew b e hwin' he
    omega

/-- The state with a tight window. -/
theorem Inv.shrink {A' W' : List Nat} (h : Inv S T begin₀ end₀ A W (c :: R) s) (hT : T ≠ [])
    (heq : A ++ (W ++ [c]) = A' ++ W') (htight : Tight T W') : Inv S T begin₀ end₀ A' W' R
      (if A.length + W.length - A'.length + 1 < s.minWindowLen then
        ⟨A'.length, row (found T W'), T.length, A.length + W.length - A'.length + 1, A'.length,
          (A.length + W.length : Nat)⟩
      else { s with first := A'.length, hasFound := row (found T W'), count := T.length }) := by
  have hsplit : S = A' ++ (W' ++ R) := by
    rw [← List.append_assoc, ← heq, h.split]
    simp
  have hlen := congrArg List.length heq
  simp only [List.length_append, List.length_singleton] at hlen
  have hne := htight.1.ne_nil hT
  have hpos := List.length_pos_iff.2 hne
  have hlast : A'.length + W'.length - 1 = A.length + W.length := by omega
  have hwin : Window S T A'.length (A.length + W.length) := by
    have hwin := window_of_split (A := A') (R := R) hne htight.1
    rwa [← hsplit, hlast] at hwin
  have hstored := h.stored.add hwin fun b hwin' => by
    rw [hsplit] at hwin'
    exact htight.begins_le hwin' (by omega)
  have hstop : A.length + W.length + 1 = A'.length + W'.length := by omega
  rw [hstop] at hstored
  have hcount := (matched_eq_length_iff.2 htight.1).symm
  have hno : ¬Covers T W' → A' = [] := fun hcov => absurd htight.1 hcov
  split_ifs with hlt
  · rw [if_pos hlt] at hstored
    exact ⟨hsplit, rfl, rfl, hcount, fun _ => htight.2, hno, hstored⟩
  · rw [if_neg hlt] at hstored
    exact ⟨hsplit, rfl, rfl, hcount, fun _ => htight.2, hno, hstored⟩

/-- A round with a character that is needed. -/
theorem Inv.visit_needed (h : Inv S T begin₀ end₀ A W (c :: R) s) (hS : IsString S)
    (hc : T.count c ≠ 0) (fuel : Nat) :
    visit ⟨0, S ++ rest⟩ (row fun c => T.count c) T.length fuel s (A.length + W.length : Nat) =
      if matched T (W ++ [c]) = T.length then do
        let (first, hasFound) ← advance ⟨0, S ++ rest⟩ (row fun c => T.count c) fuel s.first
          (row (found T (W ++ [c])))
        if A.length + W.length - first + 1 < s.minWindowLen then
          return ⟨first, hasFound, matched T (W ++ [c]), A.length + W.length - first + 1, first,
            (A.length + W.length : Nat)⟩
        else return { s with first := first, hasFound := hasFound,
                             count := matched T (W ++ [c]) }
      else .ok { s with hasFound := row (found T (W ++ [c])), count := matched T (W ++ [c]) } := by
  obtain ⟨hlt, hget⟩ := get_char hS (h.split.trans (List.append_assoc A W (c :: R)).symm)
  rw [List.length_append] at hget
  have hincr : increment s.hasFound c = .ok (row (found T (W ++ [c]))) := by
    rw [h.hasFound, increment_row hlt, found_concat hc]
  have hfound : found T (W ++ [c]) c = W.count c + 1 := by
    rw [found, if_neg hc, List.count_append, List.count_singleton_self]
  have hcount : (if found T (W ++ [c]) c ≤ T.count c then s.count + 1 else s.count) =
      matched T (W ++ [c]) := by
    rw [matched_concat, hfound, h.count]
    split_ifs <;> omega
  rw [visit, hget, ok_bind, get_row hlt, ok_bind, if_neg hc, hincr, ok_bind, get_row hlt, ok_bind]
  dsimp only
  rw [hcount]
  exact if_congr Nat.cast_inj rfl rfl

theorem Inv.step (h : Inv S T begin₀ end₀ A W (c :: R) s) (hT : T ≠ []) (hS : IsString S) :
    ∃ s' A' W', A ++ (W ++ [c]) = A' ++ W' ∧ A.length ≤ A'.length ∧
      A'.length ≤ A.length + W.length ∧ Inv S T begin₀ end₀ A' W' R s' ∧
      ∀ fuel > S.length, visit ⟨0, S ++ rest⟩ (row fun c => T.count c) T.length fuel s
        (A.length + W.length : Nat) = .ok s' := by
  have hsplit : S = A ++ ((W ++ [c]) ++ R) := by
    rw [h.split]
    simp
  by_cases hzero : T.count c = 0
  · refine ⟨s, A, W ++ [c], rfl, le_rfl, Nat.le_add_right _ _,
      h.skip hT (List.count_eq_zero.1 hzero), fun fuel _ => ?_⟩
    obtain ⟨hlt, hget⟩ := get_char hS (h.split.trans (List.append_assoc A W (c :: R)).symm)
    rw [List.length_append] at hget
    rw [visit, hget, ok_bind, get_row hlt, ok_bind, if_pos hzero]
    rfl
  · by_cases hcov : Covers T (W ++ [c])
    · obtain ⟨A', W', heq, hle, htight, hadvance⟩ := advance_ok hT hS hsplit hcov
      have hne := List.length_pos_iff.2 (htight.1.ne_nil hT)
      have hlen := congrArg List.length heq
      simp only [List.length_append, List.length_singleton] at hlen
      refine ⟨_, A', W', heq, hle, by omega, h.shrink hT heq htight, fun fuel hfuel => ?_⟩
      have hfuel' : (W ++ [c]).length < fuel := by
        rw [hsplit] at hfuel
        simp only [List.length_append] at hfuel ⊢
        omega
      rw [h.visit_needed hS hzero, matched_eq_length_iff.2 hcov, if_pos rfl, h.first,
        hadvance fuel hfuel', ok_bind]
      dsimp only
      split_ifs <;> rfl
    · refine ⟨_, A, W ++ [c], rfl, le_rfl, Nat.le_add_right _ _, h.more hcov,
        fun fuel _ => ?_⟩
      rw [h.visit_needed hS hzero, if_neg (mt matched_eq_length_iff.1 hcov)]

/-- One character more. -/
theorem Inv.next (h : Inv S T begin₀ end₀ A W R s) (hT : T ≠ []) (hS : IsString S)
    (hT' : IsString T) (hlen : A.length + W.length = stop) (hstop : stop < S.length)
    (hrun : ∀ fuel > S.length, runTo ⟨0, S ++ rest⟩ ⟨0, T ++ rest'⟩ T.length begin₀ end₀ stop fuel =
      .ok s) :
    ∃ s' A' W' R', A'.length + W'.length = stop + 1 ∧ Inv S T begin₀ end₀ A' W' R' s' ∧
      (∀ fuel > S.length, runTo ⟨0, S ++ rest⟩ ⟨0, T ++ rest'⟩ T.length begin₀ end₀
        (stop + 1) fuel = .ok s') ∧
      s.first ≤ s'.first ∧ s'.first ≤ stop := by
  cases R with
  | nil =>
    have hsplit := congrArg List.length h.split
    rw [List.append_nil, List.length_append] at hsplit
    omega
  | cons c R =>
    obtain ⟨s', A', W', heq, hle, hlast, hinv, hvisit⟩ := h.step hT hS
    refine ⟨s', A', W', R, ?_, hinv, fun fuel hfuel => ?_, ?_, ?_⟩
    · have hlen' := congrArg List.length heq
      simp only [List.length_append, List.length_singleton] at hlen'
      omega
    · have hbefore := hrun fuel hfuel
      have hnext := hvisit fuel hfuel
      rw [hlen] at hnext
      rw [runTo, countNeeded_ok hT', ok_bind] at hbefore ⊢
      rw [List.range'_1_concat, List.foldlM_append, hbefore, ok_bind, List.foldlM_cons,
        Nat.zero_add, hnext]
      rfl
    · rw [h.first, hinv.first]
      exact hle
    · rw [hinv.first, ← hlen]
      exact hlast

/-- The state after the characters `A ++ W`. -/
theorem runTo_ok (hT : T ≠ []) (hS : IsString S) (hT' : IsString T) (begin₀ end₀ : Int)
    (hstop : stop ≤ S.length) : ∃ s A W R, A.length + W.length = stop ∧
      Inv S T begin₀ end₀ A W R s ∧
      ∀ fuel > S.length, runTo ⟨0, S ++ rest⟩ ⟨0, T ++ rest'⟩ T.length begin₀ end₀ stop fuel =
        .ok s := by
  induction stop with
  | zero =>
    refine ⟨_, [], [], S, rfl, ?_, fun fuel _ => by rw [runTo, countNeeded_ok hT', ok_bind]; rfl⟩
    refine ⟨rfl, rfl, ?_, matched_nil.symm, fun h => absurd rfl (h.ne_nil hT), fun _ => rfl,
      fun b e _ he => absurd he (Nat.not_lt_zero e), .inl ⟨rfl, rfl, rfl⟩⟩
    rw [replicate_gridRow, row]
    refine congrArg (fun g => Arr.mk 0 (gridRow 256 g)) (funext fun c => ?_)
    rw [found, List.count_nil, ite_self]
  | succ stop ih =>
    obtain ⟨s, A, W, R, hlen, hinv, hrun⟩ := ih (Nat.le_of_succ_le hstop)
    obtain ⟨s', A', W', R', hlen', hinv', hrun', -⟩ := hinv.next hT hS hT' hlen hstop hrun
    exact ⟨s', A', W', R', hlen', hinv', hrun'⟩

/-- There is a window if all characters cover `T`. -/
theorem covers_iff (hT : T ≠ []) : Covers T S ↔ ∃ b e, Window S T b e := by
  constructor
  · intro h
    have hwin := window_of_split (A := []) (R := []) (h.ne_nil hT) h
    rw [List.append_nil, List.nil_append] at hwin
    exact ⟨_, _, hwin⟩
  · rintro ⟨b, e, h⟩
    exact h.covers.of_sublist segment_sublist

theorem Inv.found_iff (h : Inv S T begin₀ end₀ A W [] s) (hT : T ≠ []) :
    s.count = T.length ↔ ∃ b e, Window S T b e := by
  have hsplit := h.split
  rw [List.append_nil] at hsplit
  rw [h.count, matched_eq_length_iff, ← covers_iff hT]
  refine ⟨fun hcov => hcov.of_sublist (hsplit ▸ List.sublist_append_right A W), fun hcov => ?_⟩
  by_contra hno
  rw [h.start hno, List.nil_append] at hsplit
  exact hno (hsplit ▸ hcov)

/-- What is stored in the end: the ends of a window, or none of them is shorter than `INT_MAX`. -/
theorem runTo_end (hT : T ≠ []) (hS : IsString S) (hT' : IsString T) (begin₀ end₀ : Int) :
    ∃ s, Ends (runTo ⟨0, S ++ rest⟩ ⟨0, T ++ rest'⟩ T.length begin₀ end₀ S.length) s ∧
      (s.count = T.length ↔ ∃ b e, Window S T b e) ∧
      ((s.minWindowBegin = begin₀ ∧ s.minWindowEnd = end₀ ∧
          ∀ b e, Window S T b e → INT_MAX ≤ e + 1 - b) ∨
        ∃ b e : Nat, s.minWindowBegin = b ∧ s.minWindowEnd = e ∧ Window S T b e ∧
          e + 1 - b < INT_MAX ∧ ∀ b' e', Window S T b' e' → e - b ≤ e' - b') := by
  obtain ⟨s, A, W, R, hlen, hinv, hrun⟩ :=
    runTo_ok hT hS hT' begin₀ end₀ (le_refl S.length)
  have hsplit := congrArg List.length hinv.split
  simp only [List.length_append] at hsplit
  obtain rfl : R = [] := List.eq_nil_of_length_eq_zero (by omega)
  refine ⟨s, ⟨S.length + 1, hrun⟩, hinv.found_iff hT, ?_⟩
  have hleast : ∀ b e, Window S T b e → s.minWindowLen ≤ e + 1 - b :=
    fun b e hwin => hinv.stored.least b e hwin (hlen ▸ hwin.lt)
  rcases hinv.stored.ends with ⟨hmax, hb, he⟩ | ⟨b, e, hb, he, hwin, hlen', hlt⟩
  · exact .inl ⟨hb, he, hmax ▸ hleast⟩
  · refine .inr ⟨b, e, hb, he, hwin, hlen' ▸ hlt, fun b' e' hwin' => ?_⟩
    have hle := hleast b' e' hwin'
    have hbe := hwin.le
    have hbe' := hwin'.le
    omega

theorem runTo_first (hT : T ≠ []) (hS : IsString S) (hT' : IsString T) (begin₀ end₀ : Int)
    {last : Nat} (hlast : last < S.length) : ∃ s s' : State,
      Ends (runTo ⟨0, S ++ rest⟩ ⟨0, T ++ rest'⟩ T.length begin₀ end₀ last) s ∧
      Ends (runTo ⟨0, S ++ rest⟩ ⟨0, T ++ rest'⟩ T.length begin₀ end₀ (last + 1)) s' ∧
        s.first ≤ s'.first ∧ s'.first ≤ last := by
  obtain ⟨s, A, W, R, hlen, hinv, hrun⟩ := runTo_ok hT hS hT' begin₀ end₀ hlast.le
  obtain ⟨s', A', W', R', -, -, hrun', hle, hle'⟩ := hinv.next hT hS hT' hlen hlast hrun
  exact ⟨s, s', ⟨S.length + 1, hrun⟩, ⟨S.length + 1, hrun'⟩, hle, hle'⟩

/-! ## The lengths -/

/-- The characters that are looked at. -/
def seen (S : List Nat) : List Nat := S.take (int32 S.length).toNat

theorem sLen_le : (int32 S.length).toNat ≤ S.length := Int.toNat_le.2 (int32_natCast_le _)

theorem length_seen : (seen S).length = (int32 S.length).toNat := List.length_take_of_le sLen_le

theorem chars_eq : chars S = ⟨0, seen S ++ (S.drop (int32 S.length).toNat ++ [0])⟩ := by
  rw [chars, seen, ← List.append_assoc, List.take_append_drop]

theorem IsString.seen (hS : IsString S) : IsString (seen S) :=
  fun c hc => hS c (List.mem_of_mem_take hc)

theorem window_seen {b e : Nat} : Window (seen S) T b e ↔ Window S T b e ∧ e < int32 S.length := by
  have hsegment (he : e < (int32 S.length).toNat) :
      Checked.segment (seen S) b e = Checked.segment S b e := by
    rw [segment_eq_drop, segment_eq_drop, seen, List.take_take, Nat.min_eq_left he]
  constructor
  · rintro ⟨hle, hlt, hcov⟩
    rw [length_seen] at hlt
    rw [hsegment hlt] at hcov
    exact ⟨⟨hle, hlt.trans_le sLen_le, hcov⟩, Int.lt_toNat.1 hlt⟩
  · rintro ⟨⟨hle, -, hcov⟩, hlt⟩
    have hlt := Int.lt_toNat.2 hlt
    exact ⟨hle, length_seen ▸ hlt, by rwa [hsegment hlt]⟩

/-- A run with a positive `tLen`. -/
theorem minWindow_pos (hS : IsString S) (hT : IsString T) (hpos : 0 < int32 T.length)
    (begin₀ end₀ : Int) : ∃ found mb me, Ends (minWindow S T begin₀ end₀) (found, mb, me) ∧
      (found = true ↔ ∃ b e, Window (seen S) (seen T) b e) ∧
      ((mb = begin₀ ∧ me = end₀ ∧ ∀ b e, Window (seen S) (seen T) b e → INT_MAX ≤ e + 1 - b) ∨
        ∃ b e : Nat, mb = b ∧ me = e ∧ Window (seen S) (seen T) b e ∧ e + 1 - b < INT_MAX ∧
          ∀ b' e', Window (seen S) (seen T) b' e' → e - b ≤ e' - b') := by
  have htLen : int32 T.length = ((seen T).length : Int) := by
    rw [length_seen, Int.toNat_of_nonneg hpos.le]
  have hne : seen T ≠ [] := List.ne_nil_of_length_pos (by omega)
  obtain ⟨s, ⟨n, hrun⟩, hfound, hstored⟩ := runTo_end hne hS.seen hT.seen begin₀ end₀
  refine ⟨s.count = int32 T.length, s.minWindowBegin, s.minWindowEnd, ⟨n, fun fuel hfuel => ?_⟩,
    ?_, hstored⟩
  · rw [minWindow, chars_eq, chars_eq, ← length_seen, htLen]
    exact congrArg (· >>= _) (hrun fuel hfuel)
  · rw [decide_eq_true_iff, htLen, Nat.cast_inj]
    exact hfound

theorem first_le_pos (hS : IsString S) (hT : IsString T) (hpos : 0 < int32 T.length)
    (begin₀ end₀ : Int) {last : Nat} (hlast : last < int32 S.length) : ∃ s s' : State,
      Ends (runTo (chars S) (chars T) (int32 T.length) begin₀ end₀ last) s ∧
      Ends (runTo (chars S) (chars T) (int32 T.length) begin₀ end₀ (last + 1)) s' ∧
        s.first ≤ s'.first ∧ s'.first ≤ last := by
  have htLen : int32 T.length = ((seen T).length : Int) := by
    rw [length_seen, Int.toNat_of_nonneg hpos.le]
  have hne : seen T ≠ [] := List.ne_nil_of_length_pos (by omega)
  rw [chars_eq, chars_eq, htLen]
  exact runTo_first hne hS.seen hT.seen begin₀ end₀ (by rw [length_seen]; omega)

/-- Without a positive `tLen` no character is needed, and nothing happens. -/
theorem runTo_none (hS : IsString S) {tLen : Int} (hneg : tLen ≤ 0) (begin₀ end₀ : Int)
    (hstop : stop ≤ S.length) (fuel : Nat) :
    runTo (chars S) (chars T) tLen begin₀ end₀ stop fuel =
      .ok ⟨0, ⟨0, List.replicate 256 0⟩, 0, INT_MAX, begin₀, end₀⟩ := by
  have hcount : countNeeded (chars T) tLen = .ok (row fun _ => 0) := by
    rw [countNeeded, Int.toNat_eq_zero.2 hneg, replicate_gridRow]
    rfl
  rw [runTo, hcount, ok_bind]
  induction stop with
  | zero => rfl
  | succ stop ih =>
    have hlt := hS S[stop] (List.getElem_mem hstop)
    have hget : (chars S).get stop = .ok S[stop] :=
      get_nat (by rw [List.getElem?_append_left hstop, List.getElem?_eq_getElem hstop])
    rw [List.range'_1_concat, List.foldlM_append, ih (Nat.le_of_succ_le hstop), ok_bind,
      List.foldlM_cons, visit, Nat.zero_add, hget, ok_bind, get_row (by omega), ok_bind,
      if_pos rfl]
    rfl

theorem minWindow_none (hS : IsString S) (hneg : int32 T.length ≤ 0) (begin₀ end₀ : Int) :
    ∃ found, Ends (minWindow S T begin₀ end₀) (found, begin₀, end₀) ∧
      (found = true ↔ int32 T.length = 0) := by
  refine ⟨decide (((0 : Nat) : Int) = int32 T.length), ⟨0, fun fuel _ => ?_⟩, ?_⟩
  · rw [minWindow, runTo_none hS hneg begin₀ end₀ sLen_le]
    rfl
  · rw [decide_eq_true_iff, Nat.cast_zero]
    exact eq_comm

end

section
variable {S T : List Nat}

/-- A shortest window is looked at, and is shorter than `INT_MAX`. -/
def ShortestSeen (S T : List Nat) : Prop := ∃ b e, Window S T b e ∧ e < int32 S.length ∧
  e + 1 - b < INT_MAX ∧ ∀ b' e', Window S T b' e' → e - b ≤ e' - b'

/-- There is no window, and the characters that are looked at do not feign one. -/
def NoneSeen (S T : List Nat) : Prop := (∀ b e, ¬Window S T b e) ∧ int32 T.length ≠ 0 ∧
  (0 < int32 T.length → ∀ b e, ¬Window (seen S) (seen T) b e)

/-- A window with less than `INT_MAX` characters is one of a short string. -/
theorem length_of_window {b e : Nat} (h : Window S T b e) (hlt : e + 1 - b < INT_MAX) :
    int32 T.length = T.length ∧ seen T = T := by
  have hsub : T.Subperm (Checked.segment S b e) := List.subperm_ext_iff.2 fun c _ => h.covers c
  have hlen := hsub.length_le
  rw [Checked.segment, List.length_take] at hlen
  have hint : int32 T.length = T.length := int32_natCast (by unfold INT_MAX at hlt; omega)
  refine ⟨hint, ?_⟩
  rw [seen, hint, Int.toNat_natCast, List.take_length]

theorem Correct.seen_or (h : Correct S T) (hS : IsString S) (hT : IsString T) :
    ShortestSeen S T ∨ NoneSeen S T := by
  obtain ⟨r, hends, hfinds⟩ := h.finds (-1) 0
  by_cases hpos : 0 < int32 T.length
  · obtain ⟨found, mb, me, hends', hfound, hstored⟩ := minWindow_pos hS hT hpos (-1) 0
    obtain rfl := hends'.unique hends
    cases found with
    | true =>
      obtain ⟨b, e, heq, hwin, hleast⟩ := hfinds.least rfl
      obtain ⟨rfl, rfl⟩ := Prod.mk.inj heq
      rcases hstored with ⟨hneg, -⟩ | ⟨b', e', hb, he, hwin', hlt, -⟩
      · omega
      · obtain rfl := Int.ofNat_inj.1 hb
        obtain rfl := Int.ofNat_inj.1 he
        rw [window_seen] at hwin'
        exact .inl ⟨b, e, hwin, hwin'.2, hlt, hleast⟩
    | false =>
      refine .inr ⟨fun b e hwin => ?_, hpos.ne', fun _ b e hwin => ?_⟩
      · exact absurd (hfinds.found.2 ⟨b, e, hwin⟩) Bool.false_ne_true
      · exact absurd (hfound.2 ⟨b, e, hwin⟩) Bool.false_ne_true
  · obtain ⟨found, hends', hfound⟩ := minWindow_none hS (not_lt.1 hpos) (-1) 0
    obtain rfl := hends'.unique hends
    cases found with
    | true =>
      obtain ⟨b, e, heq, -⟩ := hfinds.least rfl
      have hneg : (-1 : Int) = b := congrArg Prod.fst heq
      omega
    | false =>
      refine .inr ⟨fun b e hwin => ?_, fun hzero => ?_, fun h => absurd h hpos⟩
      · exact absurd (hfinds.found.2 ⟨b, e, hwin⟩) Bool.false_ne_true
      · exact absurd (hfound.2 hzero) Bool.false_ne_true

/-- **What is claimed** holds where a shortest window is seen, or none is there and none is seen. -/
theorem minWindow_correct_iff (hT : T ≠ []) (hS : IsString S) (hT' : IsString T) :
    Correct S T ↔ ShortestSeen S T ∨ NoneSeen S T := by
  refine ⟨fun h => h.seen_or hS hT', fun h => ?_⟩
  by_cases hpos : 0 < int32 T.length
  · refine ⟨fun begin₀ end₀ => ?_, fun begin₀ end₀ last hlast =>
      first_le_pos hS hT' hpos begin₀ end₀ hlast⟩
    obtain ⟨found, mb, me, hends, hfound, hstored⟩ := minWindow_pos hS hT' hpos begin₀ end₀
    refine ⟨_, hends, ?_⟩
    rcases h with ⟨b, e, hwin, he, hlt, hleast⟩ | ⟨hnone, -, hseen⟩
    · obtain ⟨-, hsame⟩ := length_of_window hwin hlt
      rw [hsame] at hfound hstored
      have hwin' := window_seen.2 ⟨hwin, he⟩
      refine ⟨iff_of_true (hfound.2 ⟨b, e, hwin'⟩) ⟨b, e, hwin⟩, fun _ => ?_⟩
      rcases hstored with ⟨-, -, hlong⟩ | ⟨b', e', rfl, rfl, hwin₂, -, hleast₂⟩
      · exact absurd hlt (not_lt.2 (hlong b e hwin'))
      · refine ⟨b', e', rfl, (window_seen.1 hwin₂).1, fun b'' e'' hwin'' => ?_⟩
        exact (hleast₂ b e hwin').trans (hleast b'' e'' hwin'')
    · have hno : ¬found = true := fun h => by
        obtain ⟨b, e, hwin⟩ := hfound.1 h
        exact hseen hpos b e hwin
      exact ⟨iff_of_false hno fun ⟨b, e, hwin⟩ => hnone b e hwin, fun h => absurd h hno⟩
  · have hneg := not_lt.1 hpos
    have hnone : NoneSeen S T := by
      refine h.resolve_left ?_
      rintro ⟨b, e, hwin, -, hlt, -⟩
      have hlen := (length_of_window hwin hlt).1
      have hlen' := List.length_pos_iff.2 hT
      omega
    refine ⟨fun begin₀ end₀ => ?_, fun begin₀ end₀ last hlast => ?_⟩
    · obtain ⟨found, hends, hfound⟩ := minWindow_none hS hneg begin₀ end₀
      have hno : ¬found = true := mt hfound.1 hnone.2.1
      exact ⟨_, hends, iff_of_false hno fun ⟨b, e, hwin⟩ => hnone.1 b e hwin,
        fun h => absurd h hno⟩
    · have hle := sLen_le (S := S)
      refine ⟨_, _, ⟨0, fun fuel _ => runTo_none hS hneg begin₀ end₀ (by omega) fuel⟩,
        ⟨0, fun fuel _ => runTo_none hS hneg begin₀ end₀ (by omega) fuel⟩, le_rfl, Nat.zero_le _⟩

end

/-- `"abcab"` and `"ca"` -/
theorem minWindow_correct_iff_abcab : Correct [97, 98, 99, 97, 98] [99, 97] ↔
    ShortestSeen [97, 98, 99, 97, 98] [99, 97] ∨ NoneSeen [97, 98, 99, 97, 98] [99, 97] :=
  minWindow_correct_iff (by decide) (by unfold IsString; decide) (by unfold IsString; decide)

/-! ## A window as long as `INT_MAX` -/

/-- `"a"`, `n` times `"b"`, and `"c"` -/
def wide (n : Nat) : List Nat := 97 :: (List.replicate n 98 ++ [99])

/-- Both ends are needed. -/
theorem window_wide {n b e : Nat} (h : Window (wide n) [97, 99] b e) : b = 0 ∧ n < e := by
  have hmem : ∀ c ∈ [97, 99], c ∈ Checked.segment (wide n) b e := by
    intro c hc
    have hpos := List.count_pos_iff.2 hc
    exact List.count_pos_iff.1 (hpos.trans_le (h.covers c))
  constructor
  · by_contra hb
    obtain ⟨b, rfl⟩ := Nat.exists_eq_succ_of_ne_zero hb
    have ha := List.mem_of_mem_take (hmem 97 (by simp))
    rw [wide, List.drop_succ_cons] at ha
    have ha := List.mem_of_mem_drop ha
    simp at ha
  · by_contra he
    have hc := hmem 99 (by simp)
    rw [segment_eq_drop] at hc
    have hc := List.mem_of_mem_drop hc
    rw [wide, List.take_succ_cons, List.take_append_of_le_length (by simpa using he)] at hc
    simp at hc

theorem not_correct_wide : IsString (wide 2147483645) ∧ ¬Correct (wide 2147483645) [97, 99] := by
  have hstring : IsString (wide 2147483645) := by
    intro c hc
    rcases List.mem_cons.1 hc with rfl | hc
    · decide
    · rcases List.mem_append.1 hc with hc | hc
      · rw [List.eq_of_mem_replicate hc]
        decide
      · rw [List.mem_singleton.1 hc]
        decide
  have hcov : Covers [97, 99] (wide 2147483645) := by
    have hsub : [97, 99].Sublist (wide 2147483645) :=
      List.Sublist.cons_cons 97 (List.sublist_append_right _ _)
    exact fun c => hsub.count_le c
  refine ⟨hstring, fun h => ?_⟩
  have hwin := (covers_iff (by decide)).1 hcov
  rcases h.seen_or hstring (by unfold IsString; decide) with ⟨b, e, hwin', -, hlt, -⟩ | ⟨hnone, -⟩
  · obtain ⟨rfl, hlong⟩ := window_wide hwin'
    have hmax : INT_MAX = 2147483647 := by decide
    omega
  · obtain ⟨b, e, hwin⟩ := hwin
    exact hnone b e hwin

end FindShortestSubstring
