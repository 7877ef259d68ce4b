import DsAlgor.Class4.IsBst
import DsAlgor.Lib.Enumerate
import DsAlgor.Lib.Grid
import DsAlgor.Lib.Pointers
import DsAlgor.Lib.Signed
import Mathlib.Combinatorics.Enumerative.Catalan.Basic

/-!
# Search trees with given values

`generateTrees` of `unique_binary_tree2.c`, where the subtrees are shared, and `numTrees` of
`unique_binary_tree.c`. The trees of an interval are put together from those of the two intervals
beside the root. Both the trees of an interval and the entries of the table of `numTrees` are
counted by the Catalan numbers.

The subtrees are gone through with `int`s, which count those of 19 values, but not those of 20
(`treesAgree_iff`).
-/

namespace UniqueBinaryTree

open Checked Enumerate Grid
open Pointers (Halts)
open Signed (Undefined add sub forEach intMax)

/-! ## The two programs -/

/-- `for (i = start; i <= stop; i++)` -/
def interval (start stop : Int) : List Int :=
  (List.range (stop + 1 - start).toNat).map fun k : Nat => start + k

/-- The loops over the subtrees. -/
def attach (i : Int) (ls rs vs : List (BinaryTree Int)) :
    Except Undefined (List (BinaryTree Int)) :=
  forEach (fun vs x => forEach (fun vs y => return vs ++ [.node i x y]) vs rs) vs ls

def generate : Nat → Int → Int → Except Undefined (List (BinaryTree Int))
  | 0, _, _ => .error (.fault .loop)
  | fuel + 1, start, stop =>
    if start > stop then return [.nil]
    else (interval start stop).foldlM (fun vs i => do
      let l ← generate fuel start (← sub i 1)
      let r ← generate fuel (← add i 1) stop
      let vs ← attach i l r vs
      let _ ← add i 1
      return vs) []

def generateTrees (n : Int) (fuel : Nat) : Except Undefined (List (BinaryTree Int)) :=
  generate fuel 1 n

/-- The body of the inner loop. -/
def addProduct (i : Nat) (dp : Arr Int) (j : Nat) : Except Fault (Arr Int) := do
  let sum ← dp.get i
  let left ← dp.get j
  let right ← dp.get (i - j - 1)
  dp.set i (sum + left * right)

def numTrees (n : Nat) : Except Fault Int := do
  let dp ← Arr.set ⟨0, List.replicate (n + 1) 0⟩ 0 1
  let dp ← dp.set 1 1
  let dp ← (List.range' 2 (n - 1)).foldlM
    (fun dp i => (List.range' 0 i).foldlM (addProduct i) dp) dp
  dp.get n

/-! ## The search trees of an interval -/

/-- A search tree with the values from `start` to `stop`. -/
structure SearchTree (start stop : Int) (t : BinaryTree Int) : Prop where
  ascending : t.inorder.Pairwise (· < ·)
  mem : ∀ x, x ∈ t.inorder ↔ start ≤ x ∧ x ≤ stop

section
variable {start stop i : Int} {t l r : BinaryTree Int} {n m fuel : Nat}

theorem searchTree_nil (h : stop < start) : SearchTree start stop t ↔ t = .nil := by
  constructor
  · intro ht
    cases t with
    | nil => rfl
    | node a l r =>
      have ha := (ht.mem a).1 (by simp [BinaryTree.inorder])
      omega
  · rintro rfl
    exact ⟨List.Pairwise.nil, fun x => by simp [BinaryTree.inorder]; omega⟩

theorem searchTree_node : SearchTree start stop (.node i l r) ↔
    (start ≤ i ∧ i ≤ stop) ∧ SearchTree start (i - 1) l ∧ SearchTree (i + 1) stop r := by
  have hmem : ∀ x, x ∈ (BinaryTree.node i l r).inorder ↔
      x ∈ l.inorder ∨ x = i ∨ x ∈ r.inorder := by
    intro x
    rw [BinaryTree.inorder, List.mem_append, List.mem_cons]
  constructor
  · rintro ⟨hasc, hall⟩
    obtain ⟨hl, hr, hlt, hgt, -⟩ := BinaryTree.pairwise_inorder.1 hasc
    have hin : ∀ x, x ∈ l.inorder ∨ x = i ∨ x ∈ r.inorder ↔ start ≤ x ∧ x ≤ stop :=
      fun x => (hmem x).symm.trans (hall x)
    have hi := (hin i).1 (.inr (.inl rfl))
    refine ⟨hi, ⟨hl, fun x => ?_⟩, ⟨hr, fun x => ?_⟩⟩
    · have hx := hin x
      have hx' := hlt x
      have hx'' := hgt x
      grind
    · have hx := hin x
      have hx' := hlt x
      have hx'' := hgt x
      grind
  · rintro ⟨hi, hl, hr⟩
    have hsides : ∀ x ∈ l.inorder, ∀ y ∈ r.inorder, x < y := by
      intro x hx y hy
      have hx := (hl.mem x).1 hx
      have hy := (hr.mem y).1 hy
      omega
    refine ⟨BinaryTree.pairwise_inorder.2 ⟨hl.ascending, hr.ascending, fun x hx => ?_,
      fun x hx => ?_, hsides⟩, fun x => ?_⟩
    · have hx := (hl.mem x).1 hx
      omega
    · have hx := (hr.mem x).1 hx
      omega
    · rw [hmem, hl.mem, hr.mem]
      omega

/-! ## The enumeration -/

theorem mem_interval : i ∈ interval start stop ↔ start ≤ i ∧ i ≤ stop := by
  rw [interval, List.mem_map]
  constructor
  · rintro ⟨k, hk, rfl⟩
    have hk := List.mem_range.1 hk
    omega
  · intro h
    exact ⟨(i - start).toNat, List.mem_range.2 (by omega), by omega⟩

theorem nodup_interval : (interval start stop).Nodup := by
  refine List.nodup_range.map fun k k' hkk => ?_
  have heq : (k : Int) = k' := add_left_cancel hkk
  exact Int.ofNat_inj.1 heq

/-- The trees with the given subtrees. -/
def joined (i : Int) (ls rs : List (BinaryTree Int)) : List (BinaryTree Int) :=
  ls.flatMap fun x => rs.map fun y => .node i x y

theorem mem_joined {ls rs : List (BinaryTree Int)} :
    t ∈ joined i ls rs ↔ ∃ l ∈ ls, ∃ r ∈ rs, t = .node i l r := by
  simp only [joined, List.mem_flatMap, List.mem_map, eq_comm]

theorem length_joined {ls rs : List (BinaryTree Int)} :
    (joined i ls rs).length = ls.length * rs.length := by
  simp [joined, List.length_flatMap]

theorem nodup_joined {ls rs : List (BinaryTree Int)} (hls : ls.Nodup) (hrs : rs.Nodup) :
    (joined i ls rs).Nodup := by
  refine List.nodup_flatMap.2 ⟨fun x _ => hrs.map fun y y' h => ?_, hls.imp fun hne t ht ht' => ?_⟩
  · exact (BinaryTree.node.inj h).2.2
  · obtain ⟨y, _, rfl⟩ := List.mem_map.1 ht
    obtain ⟨y', _, heq⟩ := List.mem_map.1 ht'
    exact hne (BinaryTree.node.inj heq).2.1.symm

theorem attach_eq {ls rs vs : List (BinaryTree Int)} (hl : ls.length ≤ intMax)
    (hr : rs.length ≤ intMax) : attach i ls rs vs = .ok (vs ++ joined i ls rs) := by
  rw [attach, Signed.forEach_eq hl]
  refine collect (fun vs x _ => ?_) vs
  have hinner : rs.foldlM (fun vs y => (return vs ++ [.node i x y] : Except Undefined _)) vs =
      .ok (vs ++ rs.flatMap fun y => [.node i x y]) := collect (fun _ _ _ => rfl) vs
  rw [Signed.forEach_eq hr, hinner, ← List.map_eq_flatMap]

/-- The trees by their roots. -/
theorem enumerates_roots (h : start ≤ stop) {ls rs : Int → List (BinaryTree Int)}
    (hls : ∀ i, start ≤ i → i ≤ stop → Enumerates (ls i) (SearchTree start (i - 1)))
    (hrs : ∀ i, start ≤ i → i ≤ stop → Enumerates (rs i) (SearchTree (i + 1) stop)) :
    Enumerates ((interval start stop).flatMap fun i => joined i (ls i) (rs i))
      (SearchTree start stop) := by
  constructor
  · refine List.nodup_flatMap.2 ⟨fun i hi => ?_, nodup_interval.imp fun hne t ht ht' => ?_⟩
    · obtain ⟨hle, hge⟩ := mem_interval.1 hi
      exact nodup_joined (hls i hle hge).nodup (hrs i hle hge).nodup
    · obtain ⟨l, _, r, _, rfl⟩ := mem_joined.1 ht
      obtain ⟨l', _, r', _, heq⟩ := mem_joined.1 ht'
      exact hne (BinaryTree.node.inj heq).1
  · intro t
    rw [List.mem_flatMap]
    constructor
    · rintro ⟨i, hi, ht⟩
      obtain ⟨hle, hge⟩ := mem_interval.1 hi
      obtain ⟨l, hl, r, hr, rfl⟩ := mem_joined.1 ht
      exact searchTree_node.2
        ⟨⟨hle, hge⟩, ((hls i hle hge).mem l).1 hl, ((hrs i hle hge).mem r).1 hr⟩
    · intro ht
      cases t with
      | nil => simpa [BinaryTree.inorder, h] using ht.mem start
      | node i l r =>
        obtain ⟨⟨hle, hge⟩, hl, hr⟩ := searchTree_node.1 ht
        exact ⟨i, mem_interval.2 ⟨hle, hge⟩, mem_joined.2
          ⟨l, ((hls i hle hge).mem l).2 hl, r, ((hrs i hle hge).mem r).2 hr, rfl⟩⟩

theorem catalan_mono : Monotone catalan := by
  refine monotone_nat_of_le_succ fun n => ?_
  rw [catalan_succ]
  have hterm := Finset.single_le_sum (f := fun i : Fin n.succ => catalan i * catalan (n - i))
    (fun i _ => Nat.zero_le _) (Finset.mem_univ 0)
  simpa using hterm

theorem catalan_nineteen : catalan 19 = 1767263190 := by
  rw [catalan_eq_centralBinom_div, Nat.centralBinom_eq_two_mul_choose]
  rfl

theorem catalan_twenty : catalan 20 = 6564120420 := by
  rw [catalan_eq_centralBinom_div, Nat.centralBinom_eq_two_mul_choose]
  rfl

theorem catalan_le (h : m ≤ 19) : catalan m ≤ intMax := by
  have hle := catalan_mono h
  rw [catalan_nineteen] at hle
  unfold intMax
  omega

/-- What `generate` returns for `m` values. -/
structure Generates (start : Int) (m : Nat) (vs : List (BinaryTree Int)) : Prop where
  run : ∀ fuel > m, generate fuel start (start + m - 1) = .ok vs
  enumerates : Enumerates vs (SearchTree start (start + m - 1))
  length : vs.length = catalan m

theorem Generates.nil (start : Int) : Generates start 0 [.nil] := by
  refine ⟨fun fuel hfuel => ?_, .singleton fun t => searchTree_nil (by omega), catalan_zero.symm⟩
  obtain ⟨fuel, rfl⟩ := Nat.exists_eq_succ_of_ne_zero (Nat.ne_zero_of_lt hfuel)
  rw [generate, if_pos (by omega)]
  rfl

/-- From the trees to the left and to the right of each root. -/
theorem Generates.succ {ls rs : Int → List (BinaryTree Int)} (hm : m ≤ 19) (hstart : 0 ≤ start)
    (hmax : start + m + 1 ≤ intMax)
    (hls : ∀ i, start ≤ i → i ≤ start + m → Generates start (i - start).toNat (ls i))
    (hrs : ∀ i, start ≤ i → i ≤ start + m → Generates (i + 1) (start + m - i).toNat (rs i)) :
    Generates start (m + 1)
      ((interval start (start + m)).flatMap fun i => joined i (ls i) (rs i)) := by
  have hstop : start + (m + 1 : Nat) - 1 = start + m := by omega
  have hleft : ∀ i, start ≤ i → start + (i - start).toNat - 1 = i - 1 := fun i hle => by omega
  have hright : ∀ i, i ≤ start + m → i + 1 + (start + m - i).toNat - 1 = start + m :=
    fun i hge => by omega
  refine ⟨fun fuel hfuel => ?_, ?_, ?_⟩
  · obtain ⟨fuel, rfl⟩ := Nat.exists_eq_succ_of_ne_zero (Nat.ne_zero_of_lt hfuel)
    rw [hstop, generate, if_neg (by omega)]
    refine collect (fun vs i hi => ?_) []
    obtain ⟨hle, hge⟩ := mem_interval.1 hi
    have hl := (hls i hle hge).run fuel (by omega)
    have hr := (hrs i hle hge).run fuel (by omega)
    have hlen : (ls i).length ≤ intMax := (hls i hle hge).length ▸ catalan_le (by omega)
    have hlen' : (rs i).length ≤ intMax := (hrs i hle hge).length ▸ catalan_le (by omega)
    have hmin : -intMax - 1 ≤ -1 := by decide
    rw [hleft i hle] at hl
    rw [hright i hge] at hr
    rw [Signed.sub_eq (by omega) (by omega), Signed.ok_bind, hl, Signed.ok_bind,
      Signed.add_ok (by omega) Int.one_nonneg (by omega), Signed.ok_bind, hr, Signed.ok_bind,
      attach_eq hlen hlen']
    rfl
  · rw [hstop]
    apply enumerates_roots (by omega)
    · exact fun i hle hge => hleft i hle ▸ (hls i hle hge).enumerates
    · exact fun i hle hge => hright i hge ▸ (hrs i hle hge).enumerates
  · have hlen : (start + m + 1 - start).toNat = m + 1 := by omega
    rw [interval, hlen, List.flatMap_map, List.length_flatMap, catalan_succ,
      ← Finset.sum_range fun k => catalan k * catalan (m - k)]
    refine congrArg List.sum (List.map_congr_left fun k hk => ?_)
    have hk := List.mem_range.1 hk
    have hl := (hls (start + k) (by omega) (by omega)).length
    have hr := (hrs (start + k) (by omega) (by omega)).length
    have hk' : (start + (k : Int) - start).toNat = k := by omega
    have hmk : (start + m - (start + (k : Int))).toNat = m - k := by omega
    rw [length_joined, hl, hr, hk', hmk]

theorem exists_generates (hm : m ≤ 20) (hstart : 0 ≤ start) (hmax : start + m ≤ intMax) :
    ∃ vs, Generates start m vs := by
  induction m using Nat.strong_induction_on generalizing start with
  | _ m ih =>
    cases m with
    | zero => exact ⟨_, .nil start⟩
    | succ m =>
      push_cast at hmax
      have hleft : ∀ i, start ≤ i → i ≤ start + m → ∃ vs, Generates start (i - start).toNat vs :=
        fun i hle hge => ih _ (by omega) (by omega) hstart (by omega)
      have hright : ∀ i, start ≤ i → i ≤ start + m →
          ∃ vs, Generates (i + 1) (start + m - i).toNat vs :=
        fun i hle hge => ih _ (by omega) (by omega) (by omega) (by omega)
      choose! ls hls using hleft
      choose! rs hrs using hright
      exact ⟨_, .succ (by omega) hstart (by omega) hls hrs⟩

/-- The first root has all other values on its right. -/
theorem right_of_ok {vs : List (BinaryTree Int)} (hle : start ≤ stop)
    (h : generate (fuel + 1) start stop = .ok vs) :
    start + 1 ≤ intMax ∧ ∃ r, generate fuel (start + 1) stop = .ok r ∧ r.length ≤ intMax := by
  have hlen : (stop + 1 - start).toNat = (stop - start).toNat + 1 := by omega
  rw [generate, if_neg (by omega), interval, hlen, List.range_succ_eq_map, List.map_cons,
    List.foldlM_cons, Nat.cast_zero, Int.add_zero] at h
  cases hsub : sub start 1 with
  | error e =>
    rw [hsub] at h
    cases h
  | ok left =>
    obtain rfl : left = start - 1 := by
      have hval := (Signed.add_eq_ok hsub).1
      omega
    cases fuel with
    | zero =>
      rw [hsub] at h
      cases h
    | succ fuel =>
      have hl : generate (fuel + 1) start (start - 1) = .ok [.nil] := by
        rw [generate, if_pos (by omega)]
        rfl
      rw [hsub, Signed.ok_bind, hl, Signed.ok_bind] at h
      cases hadd : add start 1 with
      | error e =>
        rw [hadd] at h
        cases h
      | ok right =>
        obtain ⟨rfl, hmax⟩ := Signed.add_eq_ok hadd
        rw [hadd, Signed.ok_bind] at h
        refine ⟨hmax, ?_⟩
        cases hr : generate (fuel + 1) (start + 1) stop with
        | error e =>
          rw [hr] at h
          cases h
        | ok r =>
          refine ⟨r, rfl, ?_⟩
          rw [hr, Signed.ok_bind] at h
          cases hjoin : attach start [.nil] r [] with
          | error e =>
            rw [hjoin] at h
            cases h
          | ok vs =>
            have hrun := (Signed.forEach_eq_ok_iff.1 hjoin).2
            rw [List.foldlM_cons] at hrun
            cases hinner : forEach (fun vs y =>
                (return vs ++ [BinaryTree.node start .nil y] : Except Undefined _)) [] r with
            | error e =>
              rw [hinner] at hrun
              cases hrun
            | ok vs => exact (Signed.forEach_eq_ok_iff.1 hinner).1

theorem max_of_ok {vs : List (BinaryTree Int)} (hm : 1 ≤ m)
    (h : generate fuel start (start + m - 1) = .ok vs) : start + m ≤ intMax := by
  induction m, hm using Nat.le_induction generalizing fuel start vs with
  | base =>
    cases fuel with
    | zero => cases h
    | succ fuel => exact (right_of_ok (by omega) h).1
  | succ m hm ih =>
    cases fuel with
    | zero => cases h
    | succ fuel =>
      obtain ⟨-, r, hr, -⟩ := right_of_ok (by omega) h
      have hstop : start + ((m + 1 : Nat) : Int) - 1 = start + 1 + m - 1 := by omega
      rw [hstop] at hr
      have hmax := ih hr
      omega

/-- The trees of 20 values are too many to be put below a root. -/
theorem not_ok {vs : List (BinaryTree Int)} (hm : 21 ≤ m) (hstart : 0 ≤ start) (hfuel : m < fuel) :
    generate fuel start (start + m - 1) ≠ .ok vs := by
  intro h
  obtain ⟨fuel, rfl⟩ := Nat.exists_eq_succ_of_ne_zero (Nat.ne_zero_of_lt hfuel)
  have hmax := max_of_ok (by omega) h
  obtain ⟨-, r, hr, hlen⟩ := right_of_ok (by omega) h
  induction m, hm using Nat.le_induction generalizing fuel start vs r with
  | base =>
    have hrest : ∃ vs', Generates (start + 1) 20 vs' :=
      exists_generates le_rfl (by omega) (by omega)
    obtain ⟨vs', hgen⟩ := hrest
    have hstop : start + ((21 : Nat) : Int) - 1 = start + 1 + (20 : Nat) - 1 := by omega
    rw [hstop, hgen.run fuel (by omega)] at hr
    obtain rfl := Except.ok.inj hr
    rw [hgen.length, catalan_twenty] at hlen
    exact absurd hlen (by decide)
  | succ m hm ih =>
    have hstop : start + ((m + 1 : Nat) : Int) - 1 = start + 1 + m - 1 := by omega
    rw [hstop] at hr
    obtain ⟨fuel, rfl⟩ := Nat.exists_eq_succ_of_ne_zero (n := fuel) (by omega)
    obtain ⟨-, r', hr', hlen'⟩ := right_of_ok (by omega) hr
    exact ih (by omega) fuel (by omega) hr (by omega) r' hr' hlen'

/-! ## The table -/

/-- The first `j` products. -/
def products (i j : Nat) : Int := ∑ k ∈ Finset.range j, (catalan k * catalan (i - 1 - k) : Nat)

theorem products_self (hm : 1 ≤ m) : products m m = catalan m := by
  obtain ⟨k, rfl⟩ := Nat.exists_eq_succ_of_ne_zero (Nat.ne_zero_of_lt hm)
  rw [products, catalan_succ, ← Finset.sum_range fun i => catalan i * catalan (k - i),
    Nat.cast_sum]
  rfl

/-- The inner loop adds up the products. -/
theorem addProduct_run {f : Nat → Int} (hm : 1 ≤ m) (hmn : m ≤ n)
    (hf : ∀ k < m, f k = catalan k) (hzero : f m = 0) :
    (List.range' 0 m).foldlM (addProduct m) ⟨0, gridRow (n + 1) f⟩ =
      .ok ⟨0, gridRow (n + 1) (Function.update f m (catalan m))⟩ := by
  have hstart : (⟨0, gridRow (n + 1) f⟩ : Arr Int) =
      ⟨0, gridRow (n + 1) (Function.update f m (products m 0))⟩ := by
    rw [products, Finset.sum_range_zero, ← hzero, Function.update_eq_self]
  have hstep : ∀ j, 0 ≤ j → j < 0 + m → ∀ dp : Arr Int,
      dp = ⟨0, gridRow (n + 1) (Function.update f m (products m j))⟩ → ∃ dp',
        addProduct m dp j = .ok dp' ∧
          dp' = ⟨0, gridRow (n + 1) (Function.update f m (products m (j + 1)))⟩ := by
    rintro j - hj _ rfl
    have hother : (m : Int) - j - 1 = (m - 1 - j : Nat) := by omega
    have hsum : products m (j + 1) =
        products m j + (catalan j : Int) * (catalan (m - 1 - j) : Int) := by
      rw [products, Finset.sum_range_succ, ← products, Nat.cast_mul]
    refine ⟨_, ?_, rfl⟩
    rw [addProduct, get_current (by omega), ok_bind, get_gridRow (by omega), ok_bind, hother,
      get_gridRow (by omega), ok_bind, set_current (by omega), Function.update_of_ne (by omega),
      Function.update_of_ne (by omega), hf j (by omega), hf (m - 1 - j) (by omega), hsum]
  obtain ⟨_, hrun, rfl⟩ := upward hstep hstart
  rw [hrun, Nat.zero_add, products_self hm]

theorem numTrees_eq (hn : 1 ≤ n) : numTrees n = .ok (catalan n) := by
  have hstart : ∃ f, (⟨0, gridRow (n + 1)
        (Function.update (Function.update (fun _ => 0) 0 1) 1 1)⟩ : Arr Int) =
      ⟨0, gridRow (n + 1) f⟩ ∧ (∀ k < 2, f k = catalan k) ∧ ∀ k ≥ 2, f k = 0 := by
    refine ⟨_, rfl, fun k hk => ?_, fun k hk => ?_⟩
    · rcases Nat.le_one_iff_eq_zero_or_eq_one.1 (Nat.le_of_lt_succ hk) with rfl | rfl
      · simp
      · simp
    · rw [Function.update_of_ne (by omega), Function.update_of_ne (by omega)]
  have hstep : ∀ i, 2 ≤ i → i < 2 + (n - 1) → ∀ dp : Arr Int,
      (∃ f, dp = ⟨0, gridRow (n + 1) f⟩ ∧ (∀ k < i, f k = catalan k) ∧ ∀ k ≥ i, f k = 0) →
      ∃ dp', (List.range' 0 i).foldlM (addProduct i) dp = .ok dp' ∧
        ∃ f, dp' = ⟨0, gridRow (n + 1) f⟩ ∧ (∀ k < i + 1, f k = catalan k) ∧
          ∀ k ≥ i + 1, f k = 0 := by
    rintro i hi hin _ ⟨f, rfl, hf, hzero⟩
    refine ⟨_, addProduct_run (by omega) (by omega) hf (hzero i le_rfl), _, rfl,
      fun k hk => ?_, fun k hk => ?_⟩
    · by_cases hki : k = i
      · rw [hki, Function.update_self]
      · rw [Function.update_of_ne hki, hf k (by omega)]
    · rw [Function.update_of_ne (by omega), hzero k (by omega)]
  obtain ⟨_, hrun, f, rfl, hf, -⟩ := upward hstep hstart
  have hset0 : Arr.set ⟨0, List.replicate (n + 1) (0 : Int)⟩ 0 1 =
      .ok ⟨0, gridRow (n + 1) (Function.update (fun _ => 0) 0 1)⟩ := by
    rw [replicate_gridRow]
    exact set_gridRow (j := 0) (by omega)
  have hset1 : Arr.set ⟨0, gridRow (n + 1) (Function.update (fun _ => (0 : Int)) 0 1)⟩ 1 1 =
      .ok ⟨0, gridRow (n + 1) (Function.update (Function.update (fun _ => 0) 0 1) 1 1)⟩ :=
    set_gridRow (j := 1) (by omega)
  rw [numTrees, hset0, ok_bind, hset1, ok_bind, hrun, ok_bind, get_gridRow (by omega),
    hf n (by omega)]

end

/-- All search trees are generated, each once, and counted. -/
def TreesAgree (n : Nat) : Prop :=
  ∃ vs, Halts (generateTrees n) (.ok vs) ∧ Enumerates vs (SearchTree 1 n) ∧
    numTrees n = .ok vs.length

theorem TreesAgree.le {n : Nat} (h : TreesAgree n) : n ≤ 20 := by
  obtain ⟨vs, ⟨k, hrun⟩, -⟩ := h
  by_contra hlt
  have hstop : (1 : Int) + n - 1 = n := by omega
  have hok := hrun (max k (n + 1)) (Nat.le_max_left _ _)
  rw [generateTrees, ← hstop] at hok
  exact not_ok (by omega) Int.one_nonneg (Nat.le_max_right _ _) hok

/-- **The condition**: at most 20 values. -/
theorem treesAgree_iff {n : Nat} (hn : 1 ≤ n) : TreesAgree n ↔ n ≤ 20 := by
  refine ⟨TreesAgree.le, fun hle => ?_⟩
  have hmax : 21 ≤ intMax := by decide
  obtain ⟨vs, hrun, henum, hlen⟩ := exists_generates hle Int.one_nonneg (by omega)
  have hstop : (1 : Int) + n - 1 = n := by omega
  rw [hstop] at hrun henum
  refine ⟨vs, ⟨n + 1, fun fuel hfuel => hrun fuel hfuel⟩, henum, ?_⟩
  rw [numTrees_eq hn, hlen]

theorem treesAgree_iff_three : TreesAgree 3 ↔ 3 ≤ 20 := treesAgree_iff (by decide)

theorem not_treesAgree_twentyOne : ¬ TreesAgree 21 := fun h => absurd h.le (by decide)

end UniqueBinaryTree
