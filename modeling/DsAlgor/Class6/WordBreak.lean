import DsAlgor.Lib.Enumerate
import DsAlgor.Lib.Grid
import DsAlgor.Lib.Pointers
import DsAlgor.Lib.Signed

/-!
# `wordBreak.cpp`, `wordBreak2.cpp`

The table of the former says which beginnings of `s` can be cut into words of the dictionary; one
pass over it is enough (`pass_spec`), and the later ones leave it as it is. The recursion of the
latter goes through the ways to cut `s` by their first words; its cache has the right answers only
(`CacheOk`). The indices and lengths are `int`s, and so is the index of a segment
(`breaksAgree_iff`).
-/

namespace WordBreak

open Checked Grid Enumerate
open Signed (Undefined access forEach forFrom intMax)

/-- `s.substr(pos, len)` -/
def substr (s : List Char) (pos len : Nat) : List Char := (s.drop pos).take len

section
variable (s : List Char) (dict : Finset (List Char))

/-- The loop over `begin`; `stop` is `end`. -/
def tryBegins (stop : Nat) : List Nat → Arr Bool → Except Fault (Arr Bool)
  | [], words => return words
  | start :: starts, words => do
    if (← words.get start) && substr s start (stop - start + 1) ∈ dict then
      words.set (stop + 1) true
    else tryBegins stop starts words

/-- The loop over `end`. -/
def pass (words : Arr Bool) : Except Undefined (Arr Bool) :=
  forEach (fun words stop => access (tryBegins s dict stop (List.range (stop + 1)) words)) words
    (List.range' 0 s.length)

def wordBreak : Except Undefined Bool := do
  let words : Arr Bool := ⟨0, List.replicate (s.length + 1) false⟩
  let words ← access (words.set 0 true)
  let words ← forFrom (fun words i => do
    let words ← access (words.set (i : Nat) false)
    pass s dict words) 1 words (List.range' 1 s.length)
  access (words.get s.length)

end

/-! ## The table -/

section
variable {s : List Char} {dict : Finset (List Char)} {f : Nat → Bool} {stop n : Nat}

/-- A beginning of `s` that can be cut into words. -/
def Breaks (s : List Char) (dict : Finset (List Char)) (n : Nat) : Prop :=
  Cuttable (· ∈ dict) (s.take n)

theorem tryBegins_spec (dict : Finset (List Char)) (f : Nat → Bool) (hstop : stop < s.length)
    (starts : List Nat) (hstarts : ∀ b ∈ starts, b ≤ stop) : ∃ f',
    tryBegins s dict stop starts ⟨0, gridRow (s.length + 1) f⟩ =
        .ok ⟨0, gridRow (s.length + 1) f'⟩ ∧
      (∀ k, k ≠ stop + 1 → f' k = f k) ∧
      (f' (stop + 1) = true ↔ f (stop + 1) = true ∨
        ∃ b ∈ starts, f b = true ∧ substr s b (stop - b + 1) ∈ dict) := by
  induction starts with
  | nil => exact ⟨f, rfl, fun _ _ => rfl, by simp⟩
  | cons start starts ih =>
    have hle : start ≤ stop := hstarts start List.mem_cons_self
    have hget : Arr.get ⟨0, gridRow (s.length + 1) f⟩ start = .ok (f start) :=
      get_gridRow (by omega)
    by_cases hhit : f start = true ∧ substr s start (stop - start + 1) ∈ dict
    · refine ⟨Function.update f (stop + 1) true, ?_, fun k hk => Function.update_of_ne hk _ _, ?_⟩
      · simp only [tryBegins, hget, ok_bind, hhit]
        exact set_gridRow (j := stop + 1) (by omega)
      · rw [Function.update_self]
        exact iff_of_true rfl (.inr ⟨start, List.mem_cons_self, hhit⟩)
    · obtain ⟨f', hrun, hother, hlast⟩ :=
        ih fun b hb => hstarts b (List.mem_cons_of_mem _ hb)
      refine ⟨f', ?_, hother, ?_⟩
      · have hno : (f start && decide (substr s start (stop - start + 1) ∈ dict)) = false := by
          simpa using hhit
        simp only [tryBegins, hget, ok_bind, hno]
        exact hrun
      · rw [hlast, List.exists_mem_cons_iff]
        simp only [hhit, false_or]

/-- The entries up to `n` are complete, and all are sound. -/
structure TableOk (s : List Char) (dict : Finset (List Char)) (n : Nat) (words : Arr Bool)
    (f : Nat → Bool) : Prop where
  eq : words = ⟨0, gridRow (s.length + 1) f⟩
  zero : f 0 = true
  sound : ∀ k ≤ s.length, f k = true → Breaks s dict k
  complete : ∀ k, k ≤ n → k ≤ s.length → Breaks s dict k → f k = true

theorem breaks_zero : Breaks s dict 0 := cuttable_nil

/-- The table with the first entry set. -/
theorem tableOk_start (s : List Char) (dict : Finset (List Char)) :
    TableOk s dict 0 ⟨0, gridRow (s.length + 1) (Function.update (fun _ => false) 0 true)⟩
      (Function.update (fun _ => false) 0 true) := by
  refine ⟨rfl, Function.update_self .., fun k _ hf => ?_, fun k hk _ _ => ?_⟩
  · by_cases hk : k = 0
    · exact hk ▸ breaks_zero
    · rw [Function.update_of_ne hk] at hf
      cases hf
  · rw [Nat.le_zero.1 hk, Function.update_self]

/-- Resetting an entry behind the first one. -/
theorem TableOk.reset {words : Arr Bool} {i : Nat} (h : TableOk s dict n words f) (hi : 1 ≤ i) :
    TableOk s dict 0 ⟨0, gridRow (s.length + 1) (Function.update f i false)⟩
      (Function.update f i false) := by
  have hzero : Function.update f i false 0 = true := by
    rw [Function.update_of_ne (by omega)]
    exact h.zero
  refine ⟨rfl, hzero, fun k hk hf => ?_, fun k hk _ _ => ?_⟩
  · by_cases hki : k = i
    · rw [hki, Function.update_self] at hf
      cases hf
    · rw [Function.update_of_ne hki] at hf
      exact h.sound k hk hf
  · rwa [Nat.le_zero.1 hk]

/-- One pass makes the table complete. -/
theorem pass_spec {words : Arr Bool} (hlen : s.length ≤ intMax) (h : TableOk s dict 0 words f) :
    ∃ words' f', pass s dict words = .ok words' ∧ TableOk s dict s.length words' f' := by
  have hloop : ∃ words', pass s dict words = .ok words' ∧
      ∃ f', TableOk s dict (0 + s.length) words' f' := by
    rw [pass, Signed.forEach_eq (by rwa [List.length_range'])]
    refine upward (P := fun n words => ∃ f, TableOk s dict n words f) ?_ ⟨f, h⟩
    rintro stop - hstop words ⟨f, rfl, hzero, hsound, hcomplete⟩
    rw [Nat.zero_add] at hstop
    obtain ⟨f', hrun, hother, hlast⟩ := tryBegins_spec dict f hstop
      (List.range (stop + 1)) fun b hb => Nat.le_of_lt_succ (List.mem_range.1 hb)
    refine ⟨_, congrArg access hrun, f', rfl, (hother 0 (by omega)).trans hzero, fun k hk hf => ?_,
      fun k hkn hk hbreaks => ?_⟩
    all_goals by_cases hkstop : k = stop + 1
    · subst hkstop
      rcases hlast.1 hf with hf | ⟨b, hb, hfb, hword⟩
      · exact hsound _ hk hf
      · rw [List.mem_range] at hb
        exact (cuttable_take_succ hstop).2
          ⟨b, by omega, hsound b (by omega) hfb, hword⟩
    · exact hsound k hk ((hother k hkstop).symm.trans hf)
    · subst hkstop
      obtain ⟨b, hb, hbreak, hword⟩ := (cuttable_take_succ hstop).1 hbreaks
      exact hlast.2 (.inr ⟨b, List.mem_range.2 (by omega),
        hcomplete b hb (by omega) hbreak, hword⟩)
    · exact (hother k hkstop).trans (hcomplete k (by omega) hk hbreaks)
  obtain ⟨words', hrun, f', hok⟩ := hloop
  rw [Nat.zero_add] at hok
  exact ⟨words', f', hrun, hok⟩

theorem wordBreak_spec (hs : s ≠ []) (hlen : s.length < intMax) (dict : Finset (List Char)) :
    ∃ b, wordBreak s dict = .ok b ∧ (b = true ↔ Cuttable (· ∈ dict) s) := by
  have hpos := List.length_pos_iff.2 hs
  have hstart : ∃ words, Arr.set ⟨0, List.replicate (s.length + 1) false⟩ 0 true = .ok words ∧
      ∃ f, TableOk s dict 0 words f := by
    rw [replicate_gridRow]
    exact ⟨_, set_gridRow (j := 0) (Nat.succ_pos _), _, tableOk_start s dict⟩
  obtain ⟨words₁, hset, f₁, hok₁⟩ := hstart
  obtain ⟨words₂, hloop, f₂, hok₂⟩ : ∃ words₂, (List.range' 1 s.length).foldlM
      (fun words i => do
        let words ← access (words.set (i : Nat) false)
        pass s dict words) words₁ = .ok words₂ ∧
      ∃ f, TableOk s dict (if 1 < 1 + s.length then s.length else 0) words₂ f := by
    refine upward
      (P := fun i words => ∃ f, TableOk s dict (if 1 < i then s.length else 0) words f) ?_
      ⟨f₁, hok₁⟩
    rintro i hi1 hin words ⟨f, hok⟩
    obtain ⟨words', f', hrun, hok'⟩ := pass_spec hlen.le (hok.reset hi1)
    refine ⟨words', ?_, f', ?_⟩
    · rw [hok.eq, set_gridRow (by omega)]
      exact hrun
    · rwa [if_pos (by omega)]
  rw [if_pos (by omega)] at hok₂
  refine ⟨f₂ s.length, ?_, ?_⟩
  · rw [wordBreak, hset, Signed.access_ok, Signed.ok_bind, Signed.forFrom_eq (by
      rw [List.length_range']
      push_cast
      omega), hloop, Signed.ok_bind, hok₂.eq, get_gridRow (Nat.lt_succ_self _)]
    rfl
  · have hbreaks : Breaks s dict s.length ↔ Cuttable (· ∈ dict) s := by
      rw [Breaks, List.take_length]
    rw [← hbreaks]
    exact ⟨hok₂.sound _ le_rfl, hok₂.complete _ le_rfl le_rfl⟩

/-- Where something is returned, the length and 1 more are `int`s. -/
theorem length_of_ok {b : Bool} (hs : s ≠ []) (h : wordBreak s dict = .ok b) :
    s.length < intMax := by
  have hpos := List.length_pos_iff.2 hs
  have hset : ∃ words, Arr.set ⟨0, List.replicate (s.length + 1) false⟩ 0 true = .ok words := by
    rw [replicate_gridRow]
    exact ⟨_, set_gridRow (j := 0) (Nat.succ_pos _)⟩
  obtain ⟨words, hset⟩ := hset
  rw [wordBreak, hset, Signed.access_ok, Signed.ok_bind] at h
  cases hloop : forFrom (fun words i => do
      let words ← access (words.set (i : Nat) false)
      pass s dict words) 1 words (List.range' 1 s.length) with
  | error e =>
    rw [hloop] at h
    cases h
  | ok words' =>
    have hle := (Signed.forFrom_eq_ok_iff.1 hloop).1
    rw [List.range'_eq_nil_iff, List.length_range', Nat.cast_one] at hle
    omega

end

end WordBreak

/-! ## The recursion with the cache -/

namespace WordBreak2

open Checked Enumerate
open Pointers (Halts)
open Signed (Undefined add forEach intMax)

abbrev Cache := List Char → Option (List (List Char))

/-- The words joined by blanks. -/
def joined (words : List (List Char)) : List Char := [' '].intercalate words

/-- What is stored for a segment of the suffix; `pre` is `prefix`. -/
def extend (pre segment : List Char) : List Char :=
  if segment.isEmpty then pre else pre ++ [' '] ++ segment

section
variable (dict : Finset (List Char))

/-- The loop over `len`, with the recursive call `solve`. -/
def tryLens (solve : List Char → Cache → Except Undefined (List (List Char) × Cache))
    (s : List Char) :
    List Nat → List (List Char) → Cache → Except Undefined (List (List Char) × Cache)
  | [], vs, cache => return (vs, cache)
  | len :: lens, vs, cache => do
    let pre := s.take len
    if pre ∈ dict then do
      let (segments, cache) ← solve (s.drop len) cache
      let vs ← forEach (fun vs segment => return vs ++ [extend pre segment]) vs segments
      let _ ← add len 1
      tryLens solve s lens vs cache
    else do
      let _ ← add len 1
      tryLens solve s lens vs cache

def wordBreakCached : Nat → List Char → Cache → Except Undefined (List (List Char) × Cache)
  | 0, _, _ => .error (.fault .loop)
  | fuel + 1, s, cache =>
    match cache s with
    | some vs => return (vs, cache)
    | none =>
      if s.isEmpty then return ([[]], cache)
      else do
        let (vs, cache) ←
          tryLens dict (wordBreakCached fuel) s (List.range' 1 s.length) [] cache
        return (vs, Function.update cache s (some vs))

def wordBreak (fuel : Nat) (s : List Char) : Except Undefined (List (List Char)) := do
  if s.isEmpty then return []
  let (vs, _) ← wordBreakCached dict fuel s fun _ => none
  return vs

end

section
variable {dict : Finset (List Char)} {s pre : List Char} {words : List (List Char)}

theorem joined_cons (h : ∀ w ∈ words, w ≠ []) :
    joined (pre :: words) = extend pre (joined words) := by
  cases words with
  | nil => simp [joined, extend, List.intercalate_singleton, List.intercalate_nil]
  | cons w words =>
    have hne : joined (w :: words) ≠ [] := by
      have hw := h w List.mem_cons_self
      cases words with
      | nil => simpa [joined, List.intercalate_singleton] using hw
      | cons v words => simp [joined, List.intercalate_cons_cons, hw]
    have hempty : (joined (w :: words)).isEmpty = false := by
      rwa [Bool.eq_false_iff, ne_eq, List.isEmpty_iff]
    rw [extend, hempty, joined, joined, List.intercalate_cons_cons]
    simp

/-- The words can be read off again, as none has a blank. -/
theorem joined_inj {words' : List (List Char)} (h : ∀ w ∈ words, ' ' ∉ w)
    (h' : ∀ w ∈ words', ' ' ∉ w) (hne : words ≠ []) (hne' : words' ≠ [])
    (heq : joined words = joined words') : words = words' := by
  rw [← List.splitOn_intercalate ' ' h hne, ← List.splitOn_intercalate ' ' h' hne']
  exact congrArg (List.splitOn ' ') heq

/-- The answer for `s`. -/
def answer (dict : Finset (List Char)) (s : List Char) : List (List Char) :=
  (cuts (· ∈ dict) s).map joined

/-- Whenever words are cut off, the rest can be cut in as many ways as an `int` counts. -/
def Countable (dict : Finset (List Char)) (s : List Char) : Prop :=
  ∀ t u, s = t ++ u → t ≠ [] → Cuttable (· ∈ dict) t → (cuts (· ∈ dict) u).length ≤ intMax

theorem countable_iff : Countable dict s ↔ ∀ w u, s = w ++ u → w ≠ [] → w ∈ dict →
    (cuts (· ∈ dict) u).length ≤ intMax ∧ Countable dict u := by
  constructor
  · intro h w u hs hne hw
    refine ⟨h w u hs hne ⟨[w], cut_cons.2 ⟨hne, hw, [], by simp, cut_nil.2 rfl⟩⟩, ?_⟩
    rintro t u' rfl ht ⟨pieces, hcut⟩
    refine h (w ++ t) u' (by rw [hs, List.append_assoc]) (by simp [hne])
      ⟨w :: pieces, cut_cons.2 ⟨hne, hw, t, rfl, hcut⟩⟩
  · rintro h t u rfl hne ⟨pieces, hcut⟩
    cases pieces with
    | nil => exact absurd hcut (not_cut_nil hne)
    | cons w pieces =>
      obtain ⟨hw, hmem, t', rfl, hcut'⟩ := cut_cons.1 hcut
      obtain ⟨hlen, hrest⟩ := h w (t' ++ u) (List.append_assoc w t' u) hw hmem
      by_cases ht : t' = []
      · rwa [ht] at hlen
      · exact hrest t' u rfl ht ⟨pieces, hcut'⟩

/-- **The invariant of the cache.** -/
def CacheOk (dict : Finset (List Char)) (cache : Cache) : Prop :=
  ∀ s vs, cache s = some vs → vs = answer dict s ∧ Countable dict s

/-- The call `solve` for `s` gives the answer and keeps the invariant, where it can count. -/
def Solves (dict : Finset (List Char))
    (solve : List Char → Cache → Except Undefined (List (List Char) × Cache)) (s : List Char) :
    Prop :=
  ∀ cache, CacheOk dict cache →
    (Countable dict s ∧ ∃ cache', solve s cache = .ok (answer dict s, cache') ∧
      CacheOk dict cache') ∨
    (¬ Countable dict s ∧ ∃ e, solve s cache = .error e)

/-- The ways that begin with `s.take n`. -/
def waysFrom (dict : Finset (List Char)) (s : List Char) (n : Nat) : List (List (List Char)) :=
  (cuts (· ∈ dict) (s.drop n)).map (s.take n :: ·)

theorem map_extend (n : Nat) :
    (answer dict (s.drop n)).map (extend (s.take n)) = (waysFrom dict s n).map joined := by
  rw [answer, waysFrom, List.map_map, List.map_map]
  refine List.map_congr_left fun words hwords => ?_
  have hcut := ((enumerates_cuts (· ∈ dict) (s.drop n)).mem words).1 hwords
  exact (joined_cons fun w hw => (hcut.piece w hw).1).symm

/-- The lengths `lens` can be tried. -/
def Tried (dict : Finset (List Char)) (s : List Char) (lens : List Nat) : Prop :=
  ∀ n ∈ lens, s.take n ∈ dict →
    (cuts (· ∈ dict) (s.drop n)).length ≤ intMax ∧ Countable dict (s.drop n)

theorem tried_iff : Tried dict s (List.range' 1 s.length) ↔ Countable dict s := by
  rw [countable_iff]
  constructor
  · rintro h w u rfl hne hw
    have hmem : w.length ∈ List.range' 1 (w ++ u).length := by
      have hpos := List.length_pos_iff.2 hne
      rw [List.mem_range'_1, List.length_append]
      omega
    have htry := h w.length hmem
    rw [List.take_left, List.drop_left] at htry
    exact htry hw
  · intro h n hn hw
    rw [List.mem_range'_1] at hn
    refine h (s.take n) (s.drop n) (List.take_append_drop n s).symm ?_ hw
    rw [← List.length_pos_iff, List.length_take]
    omega

theorem segments_eq (pre : List Char) (vs segments : List (List Char)) :
    segments.foldlM (fun vs segment => (return vs ++ [extend pre segment] : Except Undefined _)) vs
      = .ok (vs ++ segments.map (extend pre)) := by
  induction segments generalizing vs with
  | nil => simp [pure, Except.pure]
  | cons segment segments ih =>
    rw [List.foldlM_cons, List.map_cons]
    refine (ih _).trans ?_
    rw [List.append_assoc]
    rfl

theorem tryLens_spec {solve : List Char → Cache → Except Undefined (List (List Char) × Cache)}
    {lens : List Nat} (hlens : ∀ n ∈ lens, n < intMax)
    (hsolve : ∀ n ∈ lens, Solves dict solve (s.drop n)) {cache : Cache}
    (hcache : CacheOk dict cache) (vs : List (List Char)) :
    (Tried dict s lens ∧ ∃ cache', tryLens dict solve s lens vs cache = .ok (vs ++
      ((lens.filter (s.take · ∈ dict)).flatMap (waysFrom dict s)).map joined, cache') ∧
      CacheOk dict cache') ∨
    (¬ Tried dict s lens ∧ ∃ e, tryLens dict solve s lens vs cache = .error e) := by
  induction lens generalizing vs cache with
  | nil => exact .inl ⟨nofun, cache, by simp [tryLens, pure, Except.pure], hcache⟩
  | cons n lens ih =>
    have hlens' : ∀ m ∈ lens, m < intMax := fun m hm => hlens m (List.mem_cons_of_mem n hm)
    have hsolve' : ∀ m ∈ lens, Solves dict solve (s.drop m) :=
      fun m hm => hsolve m (List.mem_cons_of_mem n hm)
    have hadd : add n 1 = .ok ((n : Int) + 1) := by
      have hn := hlens n List.mem_cons_self
      exact Signed.add_ok (Int.natCast_nonneg n) Int.one_nonneg (by omega)
    have htried : Tried dict s (n :: lens) ↔ (s.take n ∈ dict →
        (cuts (· ∈ dict) (s.drop n)).length ≤ intMax ∧ Countable dict (s.drop n)) ∧
        Tried dict s lens := List.forall_mem_cons
    rw [htried]
    by_cases hn : s.take n ∈ dict
    · rw [imp_iff_right hn]
      rcases hsolve n List.mem_cons_self cache hcache with
        ⟨hcount, cache₁, hrun, hcache₁⟩ | ⟨hcount, e, hrun⟩
      · by_cases hlen : (cuts (· ∈ dict) (s.drop n)).length ≤ intMax
        · have hloop : forEach (fun vs segment =>
              (return vs ++ [extend (s.take n) segment] : Except Undefined _)) vs
              (answer dict (s.drop n)) =
                .ok (vs ++ (answer dict (s.drop n)).map (extend (s.take n))) :=
            Signed.forEach_eq_ok_iff.2 ⟨by rwa [answer, List.length_map], segments_eq _ _ _⟩
          have hstep : tryLens dict solve s (n :: lens) vs cache =
              tryLens dict solve s lens (vs ++ (answer dict (s.drop n)).map (extend (s.take n)))
                cache₁ := by
            rw [tryLens, if_pos hn, hrun, Signed.ok_bind]
            dsimp only
            rw [hloop, Signed.ok_bind, hadd, Signed.ok_bind]
          rw [hstep]
          rcases ih hlens' hsolve' hcache₁ (vs ++ (answer dict (s.drop n)).map
            (extend (s.take n))) with
            ⟨hall, cache₂, hrun₂, hcache₂⟩ | ⟨hall, e, hrun₂⟩
          · refine .inl ⟨⟨⟨hlen, hcount⟩, hall⟩, cache₂, ?_, hcache₂⟩
            rw [hrun₂, map_extend]
            simp [hn]
          · exact .inr ⟨fun h => hall h.2, e, hrun₂⟩
        · refine .inr ⟨fun h => hlen h.1.1, ?_⟩
          cases hloop : forEach (fun vs segment =>
              (return vs ++ [extend (s.take n) segment] : Except Undefined _)) vs
              (answer dict (s.drop n)) with
          | ok r =>
            have hle := (Signed.forEach_eq_ok_iff.1 hloop).1
            rw [answer, List.length_map] at hle
            exact absurd hle hlen
          | error e =>
            refine ⟨e, ?_⟩
            rw [tryLens, if_pos hn, hrun, Signed.ok_bind]
            dsimp only
            rw [hloop]
            rfl
      · refine .inr ⟨fun h => hcount h.1.2, e, ?_⟩
        rw [tryLens, if_pos hn, hrun]
        rfl
    · have hstep : tryLens dict solve s (n :: lens) vs cache =
          tryLens dict solve s lens vs cache := by
        rw [tryLens, if_neg hn, hadd, Signed.ok_bind]
      rw [hstep]
      rcases ih hlens' hsolve' hcache vs with ⟨hall, cache₁, hrun₁, hcache₁⟩ | ⟨hall, e, hrun₁⟩
      · refine .inl ⟨⟨fun h => absurd h hn, hall⟩, cache₁, ?_, hcache₁⟩
        rw [hrun₁]
        simp [hn]
      · exact .inr ⟨fun h => hall h.2, e, hrun₁⟩

theorem countable_nil : Countable dict [] := fun _ _ hs ht =>
  absurd (List.append_eq_nil_iff.1 hs.symm).1 ht

theorem wordBreakCached_solves (dict : Finset (List Char)) (fuel : Nat) (s : List Char)
    (hlen : s.length < intMax) (hfuel : s.length < fuel) :
    Solves dict (wordBreakCached dict fuel) s := by
  induction fuel generalizing s with
  | zero => cases hfuel
  | succ fuel ih =>
    intro cache hcache
    cases hhit : cache s with
    | some vs =>
      obtain ⟨rfl, hcount⟩ := hcache s vs hhit
      refine .inl ⟨hcount, cache, ?_, hcache⟩
      simp only [wordBreakCached, hhit]
      rfl
    | none =>
      by_cases hs : s = []
      · subst hs
        refine .inl ⟨countable_nil, cache, ?_, hcache⟩
        simp only [wordBreakCached, hhit, answer, cuts_nil]
        rfl
      · have hempty : s.isEmpty = false := by rwa [Bool.eq_false_iff, ne_eq, List.isEmpty_iff]
        have hlens : ∀ n ∈ List.range' 1 s.length, n < intMax := by
          intro n hn
          rw [List.mem_range'_1] at hn
          omega
        have hsolve : ∀ n ∈ List.range' 1 s.length,
            Solves dict (wordBreakCached dict fuel) (s.drop n) := by
          intro n hn
          rw [List.mem_range'_1] at hn
          have hdrop := List.length_drop (l := s) (i := n)
          exact ih _ (by omega) (by omega)
        rcases tryLens_spec hlens hsolve hcache [] with
          ⟨htried, cache', hloop, hcache'⟩ | ⟨htried, e, hloop⟩
        · have hanswer : [] ++ (((List.range' 1 s.length).filter (s.take · ∈ dict)).flatMap
              (waysFrom dict s)).map joined = answer dict s := by
            rw [List.nil_append, answer, cuts_eq _ hs]
            rfl
          have hcount := tried_iff.1 htried
          rw [hanswer] at hloop
          refine .inl ⟨hcount, Function.update cache' s (some (answer dict s)), ?_,
            fun t vs ht => ?_⟩
          · simp only [wordBreakCached, hhit, hempty, Bool.false_eq_true, if_false, hloop,
              Signed.ok_bind]
            rfl
          · by_cases hts : t = s
            · rw [hts, Function.update_self] at ht
              rw [hts]
              exact ⟨(Option.some.inj ht).symm, hcount⟩
            · rw [Function.update_of_ne hts] at ht
              exact hcache' t vs ht
        · refine .inr ⟨fun h => htried (tried_iff.2 h), e, ?_⟩
          simp only [wordBreakCached, hhit, hempty, Bool.false_eq_true, if_false, hloop]
          rfl

theorem wordBreak_halts (hs : s ≠ []) (hlen : s.length < intMax) (h : Countable dict s) :
    Halts (wordBreak dict · s) (.ok (answer dict s)) := by
  refine ⟨s.length + 1, fun fuel hfuel => ?_⟩
  have hempty : s.isEmpty = false := by rwa [Bool.eq_false_iff, ne_eq, List.isEmpty_iff]
  rcases wordBreakCached_solves dict fuel s hlen hfuel (fun _ => none) nofun with
    ⟨-, _, hrun, -⟩ | ⟨hno, -⟩
  · simp only [wordBreak, hempty, hrun]
    rfl
  · exact absurd h hno

theorem countable_of_halts {vs : List (List Char)} (hs : s ≠ []) (hlen : s.length < intMax)
    (h : Halts (wordBreak dict · s) (.ok vs)) : Countable dict s := by
  obtain ⟨n, hn⟩ := h
  have hrun := hn (max n (s.length + 1)) (Nat.le_max_left _ _)
  have hempty : s.isEmpty = false := by rwa [Bool.eq_false_iff, ne_eq, List.isEmpty_iff]
  rcases wordBreakCached_solves dict (max n (s.length + 1)) s hlen (Nat.le_max_right _ _)
    (fun _ => none) nofun with ⟨hcount, -⟩ | ⟨-, e, herr⟩
  · exact hcount
  · simp only [wordBreak, hempty, herr] at hrun
    cases hrun

theorem nodup_answer (hs : s ≠ []) (hdict : ∀ w ∈ dict, ' ' ∉ w) : (answer dict s).Nodup := by
  have henum := enumerates_cuts (· ∈ dict) s
  have hword : ∀ {words}, words ∈ cuts (· ∈ dict) s → words ≠ [] ∧ ∀ w ∈ words, ' ' ∉ w := by
    intro words hwords
    have hcut := (henum.mem words).1 hwords
    exact ⟨fun hnil => not_cut_nil hs (hnil ▸ hcut), fun w hw => hdict w (hcut.piece w hw).2⟩
  refine henum.nodup.map_on fun words h words' h' heq => ?_
  exact joined_inj (hword h).2 (hword h').2 (hword h).1 (hword h').1 heq

/-- **Both versions agree**: `wordBreak.cpp` says whether there are ways to write `s`, and
`wordBreak2.cpp` lists all of them, each once. -/
def BreaksAgree (dict : Finset (List Char)) (s : List Char) : Prop := ∃ b ways,
  WordBreak.wordBreak s dict = .ok b ∧ Halts (wordBreak dict · s) (.ok (ways.map joined)) ∧
    (b = true ↔ ways.map joined ≠ []) ∧ Enumerates ways (Cut (· ∈ dict) s) ∧
    (ways.map joined).Nodup

/-- **The condition**: `int`s are enough for the lengths and for the ways to write each rest. -/
theorem breaksAgree_iff (hs : s ≠ []) (hdict : ∀ w ∈ dict, w ≠ [] ∧ ' ' ∉ w) :
    BreaksAgree dict s ↔ s.length < intMax ∧ Countable dict s := by
  constructor
  · rintro ⟨b, ways, hrun, hhalts, -⟩
    have hlen := WordBreak.length_of_ok hs hrun
    exact ⟨hlen, countable_of_halts hs hlen hhalts⟩
  · rintro ⟨hlen, hcount⟩
    obtain ⟨b, hrun, hb⟩ := WordBreak.wordBreak_spec hs hlen dict
    have henum := enumerates_cuts (· ∈ dict) s
    refine ⟨b, cuts (· ∈ dict) s, hrun, wordBreak_halts hs hlen hcount, hb.trans ?_, henum,
      nodup_answer hs fun w hw => (hdict w hw).2⟩
    rw [ne_eq, List.map_eq_nil_iff, henum.eq_nil_iff, not_forall_not]
    rfl

theorem breaksAgree_iff_catsanddog :
    BreaksAgree {"cat".toList, "cats".toList, "and".toList, "sand".toList} "catsand".toList ↔
      "catsand".toList.length < intMax ∧
        Countable {"cat".toList, "cats".toList, "and".toList, "sand".toList} "catsand".toList :=
  breaksAgree_iff (by decide) (by decide)

end

/-! ## Too many ways -/

/-- `"a"` and `"aa"` -/
def ones : Finset (List Char) := {['a'], ['a', 'a']}

theorem mem_ones {n : Nat} : List.replicate n 'a' ∈ ones ↔ n = 1 ∨ n = 2 := by
  simp only [ones, Finset.mem_insert, Finset.mem_singleton]
  refine ⟨fun h => h.imp (fun h => ?_) fun h => ?_, ?_⟩
  · simpa using congrArg List.length h
  · simpa using congrArg List.length h
  · rintro (rfl | rfl)
    · exact .inl rfl
    · exact .inr rfl

theorem cutLens_ones (n : Nat) :
    cutLens (· ∈ ones) (List.replicate (n + 2) 'a') = [1, 2] := by
  have hshort : ∀ k ≤ n + 2, ((List.replicate (n + 2) 'a').take k ∈ ones ↔ k = 1 ∨ k = 2) := by
    intro k hk
    rw [List.take_replicate, Nat.min_eq_left hk, mem_ones]
  have hrest : (List.range' 3 n).filter (fun k => (List.replicate (n + 2) 'a').take k ∈ ones) =
      [] := by
    refine List.filter_eq_nil_iff.2 fun k hk => ?_
    rw [List.mem_range'_1] at hk
    rw [decide_eq_true_iff, hshort k (by omega)]
    omega
  have hone := (hshort 1 (by omega)).2 (.inl rfl)
  have htwo := (hshort 2 (by omega)).2 (.inr rfl)
  rw [cutLens, List.length_replicate, List.range'_succ, List.range'_succ]
  simp only [List.filter_cons, hone, htwo, decide_true, if_true, hrest]

theorem length_cuts_ones (n : Nat) :
    (cuts (· ∈ ones) (List.replicate n 'a')).length = Nat.fib (n + 1) := by
  induction n using Nat.twoStepInduction with
  | zero => simp
  | one =>
    have hlens : cutLens (· ∈ ones) (List.replicate 1 'a') = [1] := by decide
    rw [cuts_eq _ (by decide), hlens]
    simp
  | more n ih ih' =>
    have hdrop : ∀ k, (List.replicate (n + 2) 'a').drop k = List.replicate (n + 2 - k) 'a' :=
      fun k => List.drop_replicate
    rw [cuts_eq _ (by simp), cutLens_ones]
    simp only [List.flatMap_cons, List.flatMap_nil, List.append_nil, List.length_append,
      List.length_map, hdrop]
    rw [show n + 2 - 1 = n + 1 from rfl, show n + 2 - 2 = n from rfl, ih, ih', Nat.add_comm]
    exact Nat.fib_add_two.symm

/-- The last 46 of 47 letters can be written in 2971215073 ways. -/
theorem not_breaksAgree_ones : ¬ BreaksAgree ones (List.replicate 47 'a') := by
  rintro ⟨b, ways, -, hhalts, -⟩
  have hcount := countable_of_halts (by decide) (by decide) hhalts
  have hle := hcount ['a'] (List.replicate 46 'a') rfl (by decide)
    ⟨[['a']], cut_cons.2 ⟨by decide, by decide, [], rfl, cut_nil.2 rfl⟩⟩
  rw [length_cuts_ones] at hle
  exact absurd hle (by decide)

end WordBreak2
