import DsAlgor.Class7.PalindromePartition
import DsAlgor.Lib.Grid

/-!
# `palindrome_cut.c`

`minCut` goes from the end of the string to its beginning. `Filled done` is the invariant of both
tables: `done k l` says that the part from `k` to `l` has been looked at.
-/

namespace PalindromeCut

open Checked Grid Enumerate PalindromePartition

section
variable (s : List Char)

/-- `palin` and `minCut` -/
abbrev Tables := List (List Bool) × Arr Int

/-- `s[i] == s[j] && (j - i <= 1 || palin[i + 1][j - 1])` -/
def isPalin (palin : List (List Bool)) (i j : Nat) : Except Fault Bool := do
  if (← Arr.get ⟨0, s⟩ i) == (← Arr.get ⟨0, s⟩ j) then
    if (j : Int) - i ≤ 1 then return true
    cell palin (i + 1) (j - 1)
  else return false

/-- The body of the loop over `j`. -/
def tryEnd (i : Nat) (tables : Tables) (j : Nat) : Except Fault Tables := do
  let (palin, cuts) := tables
  if ← isPalin s palin i j then
    let palin ← setCell palin i j true
    let rest ← cuts.get (j + 1)
    let old ← cuts.get i
    let cuts ← cuts.set i (min (rest + 1) old)
    return (palin, cuts)
  else return (palin, cuts)

/-- The loop over `j`. -/
def tryRow (tables : Tables) (i : Nat) : Except Fault Tables :=
  (List.range' i (s.length - i)).foldlM (tryEnd s i) tables

def minCut : Except Fault Int := do
  if s.isEmpty then return 0
  let n := s.length
  let palin := List.replicate n (List.replicate n false)
  let cuts : Arr Int := ⟨0, List.replicate (n + 1) 0⟩
  let cuts ← (List.range' 0 (n + 1)).foldlM (fun cuts i => cuts.set (i : Nat) (n - i - 1)) cuts
  let (_, cuts) ← (List.range n).reverse.foldlM (tryRow s) (palin, cuts)
  cuts.get 0

end

/-! ## Parts of the string -/

section
variable {s : List Char} {i j k n : Nat}

theorem substr_succ_succ (h : i + (n + 1) < s.length) :
    substr s i (n + 2) = s[i] :: (substr s (i + 1) n ++ [s[i + (n + 1)]]) := by
  have hlast : (s.drop (i + 1))[n]? = some s[i + (n + 1)] := by
    rw [List.getElem?_drop]
    have hidx : i + 1 + n = i + (n + 1) := by omega
    simp only [hidx, List.getElem?_eq_getElem h]
  rw [substr, List.drop_eq_getElem_cons (by omega), List.take_succ_cons, List.take_add_one, hlast]
  rfl

theorem substr_one (h : i < s.length) : substr s i 1 = [s[i]] := by
  rw [substr, List.drop_eq_getElem_cons h, List.take_succ_cons, List.take_zero]

theorem palindrome_substr_succ_succ (h : i + (n + 1) < s.length) :
    (substr s i (n + 2)).Palindrome ↔ s[i] = s[i + (n + 1)] ∧ (substr s (i + 1) n).Palindrome := by
  rw [substr_succ_succ h, palindrome_ends, eq_comm]

/-- Cutting `s.drop i` behind its first `n` letters. -/
theorem cut_substr {rest : List (List Char)} (h : i + n < s.length) :
    Cut List.Palindrome (s.drop i) (substr s i (n + 1) :: rest) ↔
      (substr s i (n + 1)).Palindrome ∧ Cut List.Palindrome (s.drop (i + n + 1)) rest := by
  have hle : n + 1 ≤ (s.drop i).length := by
    rw [List.length_drop]
    omega
  rw [substr, cut_take (Nat.succ_pos n) hle, List.drop_drop]
  rfl

theorem cut_singletons (s : List Char) : Cut List.Palindrome s (s.map fun c => [c]) := by
  constructor
  · induction s with
    | nil => rfl
    | cons c s ih => rw [List.map_cons, List.flatten_cons, ih, List.singleton_append]
  · intro w hw
    obtain ⟨c, _, rfl⟩ := List.mem_map.1 hw
    exact ⟨List.cons_ne_nil c [], .singleton c⟩

end

/-! ## The tables -/

section
variable {s : List Char} {i j : Nat} {tables : Tables} {done done' : Nat → Nat → Prop}
  {f : Nat → Nat → Bool} {g : Nat → Int}

/-- `s` can be cut into `k` palindromes. -/
def Pieces (s : List Char) (k : Int) : Prop :=
  ∃ pieces, Cut List.Palindrome s pieces ∧ (pieces.length : Int) = k

structure Filled (s : List Char) (done : Nat → Nat → Prop) (tables : Tables)
    (f : Nat → Nat → Bool) (g : Nat → Int) : Prop where
  palin : tables.1 = grid s.length s.length f
  cuts : tables.2 = ⟨0, gridRow (s.length + 1) g⟩
  flag : ∀ k n, k + n < s.length →
    (f k (k + n) = true ↔ done k (k + n) ∧ (substr s k (n + 1)).Palindrome)
  pieces : ∀ k ≤ s.length, Pieces (s.drop k) (g k + 1)
  least : ∀ k n, k + n < s.length → done k (k + n) → ∀ rest,
    Cut List.Palindrome (s.drop k) (substr s k (n + 1) :: rest) → g k ≤ rest.length

theorem Filled.congr (h : Filled s done tables f g)
    (hdone : ∀ k l, k ≤ l → l < s.length → (done k l ↔ done' k l)) :
    Filled s done' tables f g where
  palin := h.palin
  cuts := h.cuts
  flag k n hn := by rw [h.flag k n hn, hdone k (k + n) (Nat.le_add_right k n) hn]
  pieces := h.pieces
  least k n hn hd := h.least k n hn ((hdone k (k + n) (Nat.le_add_right k n) hn).2 hd)

/-- An entry of `minCut` is least when its row is done. -/
theorem Filled.le_of_cut (h : Filled s done tables f g) {k : Nat} (hk : k ≤ s.length)
    (hrow : ∀ l, k ≤ l → l < s.length → done k l) {pieces : List (List Char)}
    (hcut : Cut List.Palindrome (s.drop k) pieces) : g k + 1 ≤ pieces.length := by
  cases pieces with
  | nil =>
    have hnil : s.drop k = [] := hcut.flatten.symm
    obtain ⟨pieces, hp, hlen⟩ := h.pieces k hk
    rw [hnil, cut_nil] at hp
    rw [← hlen, hp]
  | cons w rest =>
    obtain ⟨h1, hle, htake⟩ := cut_head hcut
    rw [List.length_drop] at hle
    have hlen : w.length - 1 + 1 = w.length := Nat.sub_add_cancel h1
    have hlt : k + (w.length - 1) < s.length := by omega
    have hw : substr s k (w.length - 1 + 1) = w := by rw [hlen, substr, htake]
    have hleast := h.least k (w.length - 1) hlt (hrow _ (Nat.le_add_right k _) hlt) rest
      (hw.symm ▸ hcut)
    rw [List.length_cons]
    push_cast
    omega

/-- The rows behind `i` are done, and row `i` up to `j`. -/
def Upto (i j k l : Nat) : Prop := i < k ∨ k = i ∧ l < j

theorem isPalin_ok {n : Nat} (hn : i + n < s.length)
    (h : Filled s (Upto i (i + n)) tables f g) :
    isPalin s tables.1 i (i + n) = .ok (decide (substr s i (n + 1)).Palindrome) := by
  have hi : Arr.get ⟨0, s⟩ i = .ok s[i] := get_nat (List.getElem?_eq_getElem _)
  have hj : Arr.get ⟨0, s⟩ (i + n : Nat) = .ok s[i + n] := get_nat (List.getElem?_eq_getElem hn)
  simp only [isPalin, hi, hj, ok_bind]
  cases n with
  | zero =>
    simp only [Nat.add_zero, beq_self_eq_true, if_true, sub_self, zero_le_one]
    rw [decide_eq_true]
    · rfl
    · have hone : substr s i 1 = [s[i]] := substr_one hn
      rw [Nat.zero_add, hone]
      exact .singleton _
  | succ n =>
    simp only [palindrome_substr_succ_succ hn]
    by_cases hends : s[i] = s[i + (n + 1)]
    · simp only [hends, beq_self_eq_true, if_true, true_and]
      cases n with
      | zero =>
        have hshort : ((i + (0 + 1) : Nat) : Int) - i ≤ 1 := by omega
        have hnil : (substr s (i + 1) 0).Palindrome := .nil
        rw [if_pos hshort, decide_eq_true hnil]
        rfl
      | succ n =>
        have hlong : ¬ ((i + (n + 1 + 1) : Nat) : Int) - i ≤ 1 := by omega
        have hlt : i + 1 + n < s.length := by omega
        have hcell : cell tables.1 (i + 1) ((i + (n + 1 + 1) : Nat) - 1) =
            .ok (f (i + 1) (i + 1 + n)) := by
          have hidx : ((i + (n + 1 + 1) : Nat) : Int) - 1 = (i + 1 + n : Nat) := by omega
          rw [h.palin, hidx]
          exact cell_grid (i := i + 1) (by omega) hlt
        have hflag := h.flag (i + 1) n hlt
        rw [and_iff_right (.inl (Nat.lt_succ_self i))] at hflag
        rw [if_neg hlong, hcell]
        refine congrArg Except.ok ?_
        rw [Bool.eq_iff_iff, hflag, decide_eq_true_iff]
    · simp only [beq_eq_false_iff_ne.2 hends, Bool.false_eq_true, if_false, hends, false_and,
        decide_false]
      rfl

theorem upto_succ {n k l : Nat} :
    Upto i (i + n + 1) k l ↔ Upto i (i + n) k l ∨ k = i ∧ l = i + n := by
  unfold Upto
  omega

/-- The part from `i` to `i + n` is no palindrome. -/
theorem Filled.miss {n : Nat} (h : Filled s (Upto i (i + n)) tables f g) (hn : i + n < s.length)
    (hpal : ¬ (substr s i (n + 1)).Palindrome) : Filled s (Upto i (i + n + 1)) tables f g := by
  refine ⟨h.palin, h.cuts, fun k m hm => ?_, h.pieces, fun k m hm hd rest hcut => ?_⟩
  · rw [h.flag k m hm, upto_succ]
    by_cases hkm : k = i ∧ k + m = i + n
    · obtain ⟨rfl, hkm⟩ := hkm
      obtain rfl : m = n := by omega
      simp [hpal]
    · rw [or_iff_left hkm]
  · refine h.least k m hm ((upto_succ.1 hd).resolve_right fun heq => ?_) rest hcut
    obtain ⟨rfl, hkm⟩ := heq
    obtain rfl : m = n := by omega
    exact hpal ((cut_substr hn).1 hcut).1

/-- The part from `i` to `i + n` is a palindrome. -/
theorem Filled.hit {n : Nat} (h : Filled s (Upto i (i + n)) tables f g) (hn : i + n < s.length)
    (hpal : (substr s i (n + 1)).Palindrome) {f' : Nat → Nat → Bool} {g' : Nat → Int}
    (hf : f' = Function.update f i (Function.update (f i) (i + n) true))
    (hg : g' = Function.update g i (min (g (i + n + 1) + 1) (g i))) :
    Filled s (Upto i (i + n + 1)) (grid s.length s.length f', ⟨0, gridRow (s.length + 1) g'⟩)
      f' g' := by
  have hgi : g' i = min (g (i + n + 1) + 1) (g i) := by rw [hg, Function.update_self]
  have hgk : ∀ k, k ≠ i → g' k = g k := fun k hk => by rw [hg, Function.update_of_ne hk]
  refine ⟨rfl, rfl, fun k m hm => ?_, fun k hk => ?_, fun k m hm hd rest hcut => ?_⟩
  · by_cases hkm : k = i ∧ k + m = i + n
    · obtain ⟨rfl, hkm⟩ := hkm
      obtain rfl : m = n := by omega
      rw [hf, upto_succ]
      simp [hpal]
    · have hsame : f' k (k + m) = f k (k + m) := by
        by_cases hki : k = i
        · subst hki
          rw [hf, Function.update_self, Function.update_of_ne (by omega)]
        · rw [hf, Function.update_of_ne hki]
      rw [hsame, h.flag k m hm, upto_succ, or_iff_left hkm]
  · by_cases hki : k = i
    · subst hki
      rw [hgi]
      rcases min_choice (g (k + n + 1) + 1) (g k) with hmin | hmin
      · obtain ⟨pieces, hcut, hlen⟩ := h.pieces (k + n + 1) (by omega)
        refine ⟨substr s k (n + 1) :: pieces, (cut_substr hn).2 ⟨hpal, hcut⟩, ?_⟩
        rw [hmin, List.length_cons, ← hlen]
        rfl
      · rw [hmin]
        exact h.pieces k hk
    · rw [hgk k hki]
      exact h.pieces k hk
  · by_cases hki : k = i
    · subst hki
      rw [hgi]
      rcases upto_succ.1 hd with hd | ⟨_, hkm⟩
      · exact (min_le_right _ _).trans (h.least k m hm hd rest hcut)
      · obtain rfl : m = n := by omega
        exact (min_le_left _ _).trans
          (h.le_of_cut (by omega) (fun l _ _ => .inl (by omega)) ((cut_substr hn).1 hcut).2)
    · rw [hgk k hki]
      exact h.least k m hm ((upto_succ.1 hd).resolve_right fun heq => hki heq.1) rest hcut

theorem tryEnd_spec {n : Nat} (hn : i + n < s.length)
    (h : Filled s (Upto i (i + n)) tables f g) : ∃ tables',
    tryEnd s i tables (i + n) = .ok tables' ∧
      ∃ f' g', Filled s (Upto i (i + n + 1)) tables' f' g' := by
  by_cases hpal : (substr s i (n + 1)).Palindrome
  · have hset : setCell tables.1 i (i + n : Nat) true = .ok (grid s.length s.length
        (Function.update f i (Function.update (f i) (i + n) true))) := by
      rw [h.palin]
      exact setCell_grid (by omega) hn
    have hrest : tables.2.get ((i + n : Nat) + 1) = .ok (g (i + n + 1)) := by
      rw [h.cuts]
      exact get_gridRow (j := i + n + 1) (by omega)
    have hold : tables.2.get i = .ok (g i) := by
      rw [h.cuts]
      exact get_gridRow (by omega)
    have hput : tables.2.set i (min (g (i + n + 1) + 1) (g i)) =
        .ok ⟨0, gridRow (s.length + 1) (Function.update g i (min (g (i + n + 1) + 1) (g i)))⟩ := by
      rw [h.cuts]
      exact set_gridRow (by omega)
    refine ⟨_, ?_, _, _, h.hit hn hpal rfl rfl⟩
    simp only [tryEnd, isPalin_ok hn h, decide_eq_true hpal, ok_bind, if_true, hset, hrest, hold,
      hput]
    rfl
  · refine ⟨tables, ?_, f, g, h.miss hn hpal⟩
    simp only [tryEnd, isPalin_ok hn h, decide_eq_false hpal, ok_bind]
    rfl

theorem tryRow_spec (hi : i < s.length) (h : Filled s (fun k _ => i + 1 ≤ k) tables f g) :
    ∃ tables', tryRow s tables i = .ok tables' ∧
      ∃ f' g', Filled s (fun k _ => i ≤ k) tables' f' g' := by
  have hstart : Filled s (Upto i i) tables f g := by
    refine h.congr fun k l hkl _ => ?_
    unfold Upto
    omega
  obtain ⟨tables', hrun, f', g', hok⟩ : ∃ tables', tryRow s tables i = .ok tables' ∧
      ∃ f' g', Filled s (Upto i (i + (s.length - i))) tables' f' g' := by
    refine upward (P := fun j tables => ∃ f g, Filled s (Upto i j) tables f g) ?_ ⟨f, g, hstart⟩
    rintro j hij hj tables ⟨f, g, hinv⟩
    obtain ⟨n, rfl⟩ := Nat.exists_eq_add_of_le hij
    exact tryEnd_spec (by omega) hinv
  refine ⟨tables', hrun, f', g', hok.congr fun k l hkl hl => ?_⟩
  unfold Upto
  omega

theorem init_spec (n : Nat) :
    (List.range' 0 (n + 1)).foldlM (fun (cuts : Arr Int) i => cuts.set (i : Nat) (n - i - 1))
        ⟨0, List.replicate (n + 1) 0⟩ =
      Except.ok ⟨0, gridRow (n + 1) fun k => n - k - 1⟩ := by
  obtain ⟨cuts, hrun, g, rfl, hg⟩ : ∃ cuts : Arr Int, (List.range' 0 (n + 1)).foldlM
      (fun (cuts : Arr Int) i => cuts.set (i : Nat) (n - i - 1))
        ⟨0, List.replicate (n + 1) 0⟩ = Except.ok (ε := Fault) cuts ∧
      ∃ g : Nat → Int, cuts = ⟨0, gridRow (n + 1) g⟩ ∧
        ∀ k < 0 + (n + 1), g k = n - k - 1 := by
    refine upward (P := fun i (cuts : Arr Int) => ∃ g : Nat → Int,
      cuts = ⟨0, gridRow (n + 1) g⟩ ∧ ∀ k < i, g k = n - k - 1) ?_
        ⟨fun _ => 0, by rw [replicate_gridRow], nofun⟩
    rintro i - hi _ ⟨g, rfl, hg⟩
    rw [Nat.zero_add] at hi
    refine ⟨_, set_gridRow hi, _, rfl, fun k hk => ?_⟩
    by_cases hki : k = i
    · rw [hki, Function.update_self]
    · rw [Function.update_of_ne hki]
      exact hg k (by omega)
  rw [hrun]
  refine congrArg (fun l => Except.ok (Arr.mk 0 l)) (List.map_congr_left fun k hk => ?_)
  exact hg k (by rw [List.mem_range] at hk; omega)

theorem minCut_spec (hs : s ≠ []) : ∃ m, minCut s = .ok m ∧
    IsLeast {k | Pieces s k} (m + 1) := by
  have hstart : Filled s (fun k _ => s.length ≤ k) (List.replicate s.length
      (List.replicate s.length false), ⟨0, gridRow (s.length + 1) fun k => s.length - k - 1⟩)
      (fun _ _ => false) (fun k => s.length - k - 1) := by
    refine ⟨?_, rfl, fun k n hn => ?_, fun k hk => ?_, fun k n hn hd => ?_⟩
    · simp only [replicate_gridRow]
      rfl
    · exact iff_of_false Bool.false_ne_true fun h => by omega
    · refine ⟨_, cut_singletons _, ?_⟩
      rw [List.length_map, List.length_drop]
      omega
    · omega
  obtain ⟨tables, hrun, f, g, hok⟩ : ∃ tables,
      (List.range s.length).reverse.foldlM (tryRow s) (List.replicate s.length
        (List.replicate s.length false), ⟨0, gridRow (s.length + 1) fun k => s.length - k - 1⟩) =
          .ok tables ∧ ∃ f g, Filled s (fun k _ => 0 ≤ k) tables f g := by
    refine downward (P := fun i tables => ∃ f g, Filled s (fun k _ => i ≤ k) tables f g) ?_
      ⟨_, _, hstart⟩
    rintro i hi tables ⟨f, g, hinv⟩
    exact tryRow_spec hi hinv
  have hempty : s.isEmpty = false := by rwa [Bool.eq_false_iff, ne_eq, List.isEmpty_iff]
  refine ⟨g 0, ?_, hok.pieces 0 (Nat.zero_le _), ?_⟩
  · simp only [minCut, hempty, Bool.false_eq_true, if_false, init_spec, ok_bind, hrun, hok.cuts]
    exact get_gridRow (j := 0) (Nat.succ_pos _)
  · rintro _ ⟨pieces, hcut, rfl⟩
    exact hok.le_of_cut (Nat.zero_le _) (fun _ _ _ => Nat.zero_le _) hcut

/-- **`partition` and `minCut` agree**: the former lists the ways to cut the string into
palindromes, and the latter is one less than their least number of pieces. -/
theorem minCut_partition (hs : s ≠ []) : ∃ ways m, Ends (partition s) ways ∧
    Enumerates ways (Cut List.Palindrome s) ∧ minCut s = .ok m ∧
    IsLeast {k : Int | ∃ pieces ∈ ways, (pieces.length : Int) = k} (m + 1) := by
  obtain ⟨m, hrun, hleast⟩ := minCut_spec hs
  have henum := enumerates_cuts List.Palindrome s
  refine ⟨_, m, partition_ends s, henum, hrun, ?_⟩
  simp only [henum.mem]
  exact hleast

theorem minCut_partition_aab : ∃ ways m, Ends (partition "aab".toList) ways ∧
    Enumerates ways (Cut List.Palindrome "aab".toList) ∧ minCut "aab".toList = .ok m ∧
    IsLeast {k : Int | ∃ pieces ∈ ways, (pieces.length : Int) = k} (m + 1) :=
  minCut_partition (by decide)

end

end PalindromeCut
