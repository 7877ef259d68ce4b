import DsAlgor.Lib.CInt
import DsAlgor.Lib.Checked
import DsAlgor.Lib.Buckets

/-!
# `radixSort.c`

The radix sort of the exercise. `TempArray` and `count` are what `new int[]` gives, so their cells
have no value before they are written. The product `Radix *= radix` has 32 bits; the last one, which
may not fit, is not used.
-/

namespace RadixSort

open Checked

/-- `(Array[j] / Radix) % radix` -/
def digit (Radix radix x : Int) : Int := (x.tdiv Radix).tmod radix

/-- `for (j = 0; j < radix; j++) count[j] = 0;` -/
def clear (radix : Nat) (count : Arr (Option Int)) : Except Fault (Arr (Option Int)) :=
  (List.range' 0 radix).foldlM (fun count (j : Nat) => count.set j (some 0)) count

/-- Puts the elements into buckets. -/
def fill (array : Arr Int) (n : Nat) (radix Radix : Int) (count : Arr (Option Int)) :
    Except Fault (Arr (Option Int)) :=
  (List.range' 0 n).foldlM (fun count (j : Nat) => do
    let k := digit Radix radix (← array.get j)
    count.set k (some ((← count.read k) + 1))) count

/-- Counts the elements in the buckets. -/
def sums (radix : Nat) (count : Arr (Option Int)) : Except Fault (Arr (Option Int)) :=
  (List.range' 1 (radix - 1)).foldlM (fun count (j : Nat) => do
    let before ← count.read (j - 1)
    let here ← count.read j
    count.set j (some (before + here))) count

/-- An element goes to the last free cell of its bucket. -/
def place (array : Arr Int) (radix Radix : Int) (s : Arr (Option Int) × Arr (Option Int))
    (j : Nat) :
    Except Fault (Arr (Option Int) × Arr (Option Int)) := do
  let (count, TempArray) := s
  let x ← array.get j
  let k := digit Radix radix x
  let count ← count.set k (some ((← count.read k) - 1))
  let TempArray ← TempArray.set (← count.read k) (some x)
  return (count, TempArray)

/-- The bucket sort: `count` and `TempArray`. -/
def bucketSort (array : Arr Int) (n : Nat) (radix Radix : Int)
    (s : Arr (Option Int) × Arr (Option Int)) :
    Except Fault (Arr (Option Int) × Arr (Option Int)) :=
  (List.range n).reverse.foldlM (place array radix Radix) s

/-- Copies the data back to the array. -/
def copyBack (TempArray : Arr (Option Int)) (n : Nat) (array : Arr Int) : Except Fault (Arr Int) :=
  (List.range' 0 n).foldlM (fun array (j : Nat) => do array.set j (← TempArray.read j)) array

structure State where
  array : Arr Int
  TempArray : Arr (Option Int)
  count : Arr (Option Int)
  Radix : Int

/-- The body of the loop for the `i`th digit. -/
def pass (n radix : Nat) (s : State) : Except Fault State := do
  let count ← clear radix s.count
  let count ← fill s.array n radix s.Radix count
  let count ← sums radix count
  let (count, TempArray) ← bucketSort s.array n radix s.Radix (count, s.TempArray)
  let array ← copyBack TempArray n s.array
  return { array, TempArray, count, Radix := int32 (s.Radix * radix) }

def radixSort (array : Arr Int) (n digits radix : Nat) : Except Fault (Arr Int) := do
  let s : State :=
    { array, TempArray := ⟨0, List.replicate n none⟩, count := ⟨0, List.replicate radix none⟩,
      Radix := 1 }
  let s ← (List.range' 1 digits).foldlM (fun s _ => pass n radix s) s
  return s.array

/-! ## One pass of `radixSort`

A pass puts the elements into buckets by one digit and keeps their order in a bucket: on natural
numbers it is `Buckets.pass` (`pass_spec`). `start c` is where bucket `c` begins. The backward scan
keeps that `count[c]` is `start c` and the elements of bucket `c` that are still to come, and that
the last cells of the bucket have the elements that have come, in their order.
-/

open Buckets

variable {radix R n : Nat} {l : List Nat}

/-- The digit of a natural number. -/
def key (R radix x : Nat) : Nat := x / R % radix

theorem digit_cast (x : Nat) : digit R radix x = (key R radix x : Nat) := by
  rw [digit, key, ← Int.ofNat_tdiv, ← Int.ofNat_tmod]

theorem key_lt (hradix : 0 < radix) (x : Nat) : key R radix x < radix := Nat.mod_lt _ hradix

/-- The elements of `l` with the digit `c`. -/
def bucket (R radix : Nat) (l : List Nat) (c : Nat) : List Nat :=
  l.filter fun x => key R radix x = c

def start (R radix : Nat) (l : List Nat) (c : Nat) : Nat := (rows c (bucket R radix l)).length

theorem bucket_append (l l' : List Nat) (c : Nat) :
    bucket R radix (l ++ l') c = bucket R radix l c ++ bucket R radix l' c :=
  List.filter_append ..

theorem bucket_singleton (x c : Nat) :
    bucket R radix [x] c = if key R radix x = c then [x] else [] := by
  by_cases h : key R radix x = c
  · simp [bucket, h]
  · simp [bucket, h]

theorem start_succ (c : Nat) : start R radix l (c + 1) =
    start R radix l c + (bucket R radix l c).length := by
  rw [start, rows_succ, List.length_append, start]

/-- An element comes into its bucket. -/
theorem bucket_take_succ (R radix : Nat) {x j : Nat} (hx : l[j]? = some x) (c : Nat) :
    bucket R radix (l.take (j + 1)) c =
      bucket R radix (l.take j) c ++ if key R radix x = c then [x] else [] := by
  obtain ⟨hj, rfl⟩ := List.getElem?_eq_some_iff.1 hx
  rw [List.take_succ_eq_append_getElem hj, bucket_append, bucket_singleton]

theorem bucket_drop (R radix : Nat) {x j : Nat} (hx : l[j]? = some x) (c : Nat) :
    bucket R radix (l.drop j) c =
      (if key R radix x = c then [x] else []) ++ bucket R radix (l.drop (j + 1)) c := by
  obtain ⟨hj, rfl⟩ := List.getElem?_eq_some_iff.1 hx
  rw [List.drop_eq_getElem_cons hj, ← List.singleton_append, bucket_append, bucket_singleton]

/-! ## The counters -/

/-- `count[c]` is `f c`. -/
def counts (radix : Nat) (f : Nat → Int) : Arr (Option Int) :=
  ⟨0, (List.range radix).map fun c => some (f c)⟩

variable {f g : Nat → Int} {c : Nat}

theorem counts_congr (h : ∀ c < radix, f c = g c) : counts radix f = counts radix g := by
  refine congrArg (Arr.mk 0) (List.map_congr_left fun c hc => ?_)
  rw [h c (List.mem_range.1 hc)]

theorem read_counts (hc : c < radix) : (counts radix f).read c = .ok (f c) := by
  rw [Arr.read, counts, get_nat (x := some (f c)) (by simp [hc])]
  rfl

theorem set_counts {v : Int} (hc : c < radix) : (counts radix f).set c (some v) =
    .ok (counts radix (Function.update f c v)) := by
  rw [counts, set_nat (by simpa using hc)]
  refine congrArg (fun l => Except.ok (Arr.mk 0 l)) (List.ext_getElem (by simp) fun k hk _ => ?_)
  by_cases hkc : c = k
  · subst hkc
    simp
  · simp [List.getElem_set_of_ne hkc, Function.update_of_ne (Ne.symm hkc)]

theorem clear_spec {C : List (Option Int)} (hC : C.length = radix) :
    clear radix ⟨0, C⟩ = .ok (counts radix fun _ => 0) := by
  obtain ⟨s, hs, rest, rfl, hrest⟩ :=
    upward (m := 0) (n := radix) (s := (⟨0, C⟩ : Arr (Option Int))) (f := fun count j =>
      count.set j (some 0))
    (P := fun k s => ∃ rest, s = ⟨0, List.replicate k (some 0) ++ rest⟩ ∧ rest.length + k = radix)
    (fun k _ hk s hs => by
      obtain ⟨rest, rfl, hrest⟩ := hs
      cases rest with
      | nil =>
        rw [List.length_nil] at hrest
        omega
      | cons x rest =>
        refine ⟨_, set_at (by simp), rest, ?_, by rw [List.length_cons] at hrest; omega⟩
        rw [List.replicate_succ', List.append_assoc]
        rfl)
    ⟨C, rfl, hC⟩
  have hnil : rest = [] := List.length_eq_zero_iff.1 (by omega)
  have hzero : (List.range radix).map (fun _ => some (0 : Int)) = List.replicate radix
    (some 0) := by
    simp
  rw [clear, hs, counts, hzero, hnil, List.append_nil, Nat.zero_add]

theorem get_cast {j : Nat} (hj : j < l.length) :
    ∃ x, l[j]? = some x ∧ (⟨0, l.map Nat.cast⟩ : Arr Int).get j = .ok (x : Int) := by
  refine ⟨l[j], List.getElem?_eq_getElem hj, get_nat ?_⟩
  rw [List.getElem?_map, List.getElem?_eq_getElem hj]
  rfl

theorem fill_spec (hradix : 0 < radix) :
    fill ⟨0, l.map Nat.cast⟩ l.length radix R (counts radix fun _ => 0) =
      .ok (counts radix fun c => (bucket R radix l c).length) := by
  obtain ⟨s, hs, rfl⟩ := upward (m := 0) (n := l.length) (s := counts radix fun _ => 0)
    (f := fun count j => do
      let k := digit R radix (← (⟨0, l.map Nat.cast⟩ : Arr Int).get j)
      count.set k (some ((← count.read k) + 1)))
    (P := fun j s => s = counts radix fun c => (bucket R radix (l.take j) c).length)
    (fun j _ hj s hs => by
      subst hs
      obtain ⟨x, hx, hget⟩ := get_cast (l := l) (j := j) (by omega)
      have hkey : key R radix x < radix := key_lt hradix x
      refine ⟨_, ?_, rfl⟩
      simp only [hget, digit_cast, read_counts hkey, set_counts hkey, bind, Except.bind]
      refine congrArg Except.ok (counts_congr fun c _ => ?_)
      rw [bucket_take_succ R radix hx, List.length_append]
      by_cases hc : key R radix x = c
      · subst hc
        simp
      · simp [Function.update_of_ne (Ne.symm hc), hc])
    (counts_congr fun c _ => by simp [bucket])
  rw [fill, hs, Nat.zero_add, List.take_length]

theorem sums_spec (hradix : 0 < radix) :
    sums radix (counts radix fun c => (bucket R radix l c).length) =
      .ok (counts radix fun c => start R radix l (c + 1)) := by
  obtain ⟨s, hs, rfl⟩ := upward (m := 1) (n := radix - 1)
    (s := counts radix fun c => (bucket R radix l c).length)
    (f := fun count (j : Nat) => do
      let before ← count.read (j - 1)
      let here ← count.read j
      count.set j (some (before + here)))
    (P := fun j s => s = counts radix fun c =>
      if c < j then (start R radix l (c + 1) : Int) else (bucket R radix l c).length)
    (fun j hj hjr s hs => by
      subst hs
      have hpred : (j : Int) - 1 = (j - 1 : Nat) := by omega
      have hback : j - 1 + 1 = j := by omega
      refine ⟨_, ?_, rfl⟩
      simp only [hpred, read_counts (show j - 1 < radix by omega),
        read_counts (show j < radix by omega), set_counts (show j < radix by omega), bind,
        Except.bind]
      refine congrArg Except.ok (counts_congr fun c _ => ?_)
      by_cases hc : c = j
      · subst hc
        rw [Function.update_self, if_pos (show c - 1 < c by omega), if_neg (Nat.lt_irrefl c),
          if_pos (Nat.lt_succ_self c), hback, start_succ]
        push_cast
        rfl
      · have hiff : c < j ↔ c < j + 1 := by omega
        rw [Function.update_of_ne hc]
        simp only [hiff])
    (counts_congr fun c _ => by
      by_cases hc : c < 1
      · obtain rfl : c = 0 := by omega
        rw [if_pos hc, start_succ]
        simp [start, rows]
      · rw [if_neg hc])
  rw [sums, hs]
  refine congrArg Except.ok (counts_congr fun c hc => ?_)
  rw [if_pos (by omega)]

/-! ## The scan -/

/-- What is in bucket `c` of `TempArray` when the elements from `j` on have come. -/
def cell (R radix : Nat) (l : List Nat) (j : Nat) (X : Nat → List (Option Int)) (c : Nat) :
    List (Option Int) :=
  X c ++ (bucket R radix (l.drop j) c).map fun x : Nat => some (x : Int)

/-- The state of the scan in front of index `j`; `X c` is what the free cells of bucket `c` hold. -/
structure Scan (R radix : Nat) (l : List Nat) (j : Nat)
    (s : Arr (Option Int) × Arr (Option Int)) (X : Nat → List (Option Int)) : Prop where
  count : s.1 = counts radix fun c =>
    (start R radix l c : Int) + (bucket R radix (l.take j) c).length
  temp : s.2 = ⟨0, rows radix (cell R radix l j X)⟩
  free : ∀ c < radix, (X c).length = (bucket R radix (l.take j) c).length

theorem bucket_length (j c : Nat) : (bucket R radix (l.take j) c).length +
    (bucket R radix (l.drop j) c).length = (bucket R radix l c).length := by
  rw [← List.length_append, ← bucket_append, List.take_append_drop]

/-- The free cells of the bucket of the next element: the last one is where it goes. -/
theorem Scan.last {s : Arr (Option Int) × Arr (Option Int)} {X : Nat → List (Option Int)}
    {j x : Nat} (h : Scan R radix l (j + 1) s X) (hradix : 0 < radix) (hx : l[j]? = some x) :
    ∃ X' junk, X (key R radix x) = X' ++ [junk] ∧
      X'.length = (bucket R radix (l.take j) (key R radix x)).length := by
  have hlen := h.free (key R radix x) (key_lt hradix x)
  rw [bucket_take_succ R radix hx, if_pos rfl, List.length_append, List.length_singleton] at hlen
  obtain hnil | ⟨X', junk, hX⟩ := List.eq_nil_or_concat' (X (key R radix x))
  · rw [hnil] at hlen
    simp at hlen
  · rw [hX, List.length_append, List.length_singleton] at hlen
    exact ⟨X', junk, hX, Nat.add_right_cancel hlen⟩

theorem place_step {s : Arr (Option Int) × Arr (Option Int)} {X : Nat → List (Option Int)} {j : Nat}
    (hradix : 0 < radix) (hj : j < l.length) (h : Scan R radix l (j + 1) s X) :
    ∃ s' X', place ⟨0, l.map Nat.cast⟩ radix R s j = .ok s' ∧ Scan R radix l j s' X' := by
  obtain ⟨x, hx, hget⟩ := get_cast hj
  obtain ⟨X', junk, hXb, hX'⟩ := h.last hradix hx
  obtain ⟨count, temp⟩ := s
  obtain ⟨hcount, htemp, hX⟩ := h
  simp only at hcount htemp
  subst hcount htemp
  have htake := fun c => bucket_take_succ R radix hx c
  have hdrop := fun c => bucket_drop R radix hx c
  have hbr : key R radix x < radix := key_lt hradix x
  generalize hb : key R radix x = b at *
  generalize hF : cell R radix l (j + 1) X = F
  generalize hseen : ((bucket R radix (l.drop (j + 1)) b).map fun x : Nat => some (x : Int)) = seen
  obtain ⟨rest, hrest⟩ := rows_update F hbr
  have hFb : F b = X' ++ junk :: seen := by
    rw [← hF, cell, hXb, hseen, List.append_assoc]
    rfl
  have hrows : rows radix F = (rows b F ++ X') ++ junk :: (seen ++ rest) := by
    have hself := hrest (F b)
    rw [Function.update_eq_self, hFb] at hself
    rw [hself]
    simp only [List.append_assoc, List.cons_append]
  have hstart : (rows b F ++ X').length =
      start R radix l b + (bucket R radix (l.take j) b).length := by
    have hbefore : (rows b F).length = start R radix l b := rows_length fun c hc => by
      rw [← hF, cell, List.length_append, List.length_map, hX c (by omega), bucket_length]
    rw [List.length_append, hX', hbefore]
  have hnew : (start R radix l b : Int) + (bucket R radix (l.take (j + 1)) b).length - 1 =
      start R radix l b + (bucket R radix (l.take j) b).length := by
    rw [htake, if_pos rfl, List.length_append, List.length_singleton]
    push_cast
    omega
  have hset := set_at (f := 0) (A := rows b F ++ X') (x := junk) (B := seen ++ rest)
    (i := (start R radix l b : Int) + (bucket R radix (l.take j) b).length) (y := some (x : Int))
    (by rw [hstart]; push_cast; omega)
  refine ⟨(_, _), Function.update X b X', ?_, ⟨rfl, rfl, fun c hc => ?_⟩⟩
  · simp only [place, hget, digit_cast, hb, read_counts hbr, set_counts hbr, Function.update_self,
      hnew, hrows, hset, bind, Except.bind, pure, Except.pure]
    refine congrArg Except.ok (Prod.ext (counts_congr fun c _ => ?_) (congrArg (Arr.mk 0) ?_))
    · by_cases hcb : c = b
      · rw [hcb, Function.update_self]
      · rw [Function.update_of_ne hcb, htake, if_neg (Ne.symm hcb), List.append_nil]
    · have hplaced := hrest (X' ++ some (x : Int) :: seen)
      rw [List.append_assoc, ← List.cons_append, ← List.append_assoc X', ← hplaced]
      refine rows_congr fun c _ => ?_
      by_cases hcb : c = b
      · rw [hcb, Function.update_self, cell, Function.update_self, hdrop, if_pos rfl, ← hseen]
        rfl
      · rw [Function.update_of_ne hcb, cell, Function.update_of_ne hcb, hdrop,
          if_neg (Ne.symm hcb), ← hF]
        rfl
  · by_cases hcb : c = b
    · rw [hcb, Function.update_self, hX']
    · rw [Function.update_of_ne hcb, hX c hc, htake, if_neg (Ne.symm hcb), List.append_nil]

theorem bucketSort_spec {T : List (Option Int)} (hradix : 0 < radix) (hT : T.length = l.length) :
    ∃ count, bucketSort ⟨0, l.map Nat.cast⟩ l.length radix R
        (counts radix fun c => start R radix l (c + 1), ⟨0, T⟩) =
      .ok (counts radix count,
        ⟨0, (Buckets.pass radix (key R radix) l).map fun x : Nat => some (x : Int)⟩) := by
  have hsize : T.length = (rows radix (bucket R radix l)).length := by
    rw [hT]
    exact (pass_perm fun x _ => key_lt hradix x).length_eq.symm
  obtain ⟨X, hX, hTX⟩ := exists_rows (bucket R radix l) hsize
  have hinit : Scan R radix l l.length (counts radix fun c => start R radix l (c + 1),
    ⟨0, T⟩) X := by
    refine ⟨counts_congr fun c _ => ?_, ?_, fun c hc => ?_⟩
    · rw [List.take_length, start_succ]
      push_cast
      rfl
    · rw [← hTX]
      refine congrArg (Arr.mk 0) (rows_congr fun c _ => ?_)
      simp [cell, bucket]
    · rw [List.take_length]
      exact hX c hc
  obtain ⟨⟨count, temp⟩, hs, Y, hcount, htemp, hY⟩ := downward
    (P := fun j s => ∃ X, Scan R radix l j s X)
    (fun j hj s hs => by
      obtain ⟨X, hX⟩ := hs
      obtain ⟨s', X', hstep, hs'⟩ := place_step hradix hj hX
      exact ⟨s', hstep, X', hs'⟩) ⟨X, hinit⟩
  refine ⟨_, hs.trans (congrArg Except.ok (Prod.ext hcount (htemp.trans (congrArg (Arr.mk 0) ?_))))⟩
  rw [Buckets.pass, rows, rows, List.map_flatMap]
  refine List.flatMap_congr fun c hc => ?_
  have hnil : Y c = [] := by
    have hlen := hY c (List.mem_range.1 hc)
    simpa [bucket] using hlen
  rw [cell, hnil, List.nil_append, List.drop_zero]
  rfl

theorem copyBack_spec (xs : List Int) {a : List Int} (ha : a.length = xs.length) :
    copyBack ⟨0, xs.map some⟩ xs.length ⟨0, a⟩ = .ok ⟨0, xs⟩ := by
  obtain ⟨s, hs, rest, rfl, hrest⟩ := upward (m := 0) (n := xs.length) (s := (⟨0, a⟩ : Arr Int))
    (f := fun array j => do array.set j (← (⟨0, xs.map some⟩ : Arr (Option Int)).read j))
    (P := fun k s => ∃ rest, s = ⟨0, xs.take k ++ rest⟩ ∧ rest.length + k = xs.length)
    (fun k _ hk s hs => by
      obtain ⟨rest, rfl, hrest⟩ := hs
      have hkx : k < xs.length := by omega
      have hread : (⟨0, xs.map some⟩ : Arr (Option Int)).read k = .ok xs[k] := by
        rw [Arr.read, get_nat (x := some xs[k]) (by simp [hkx])]
        rfl
      cases rest with
      | nil =>
        rw [List.length_nil] at hrest
        omega
      | cons x rest =>
        refine ⟨_, ?_, rest, rfl, by rw [List.length_cons] at hrest; omega⟩
        simp only [hread, bind, Except.bind]
        rw [set_at (by rw [List.length_take]; omega), List.take_succ_eq_append_getElem hkx,
          List.append_assoc]
        rfl)
    ⟨a, rfl, ha⟩
  have hnil : rest = [] := List.length_eq_zero_iff.1 (by omega)
  rw [copyBack, hs, hnil, List.append_nil, Nat.zero_add, List.take_length]

/-- A pass, on whatever values `TempArray` and `count` have. -/
theorem pass_spec {T C : List (Option Int)} (hradix : 0 < radix) (hT : T.length = l.length)
    (hC : C.length = radix) :
    ∃ T' C', T'.length = l.length ∧ C'.length = radix ∧
      pass l.length radix ⟨⟨0, l.map Nat.cast⟩, ⟨0, T⟩, ⟨0, C⟩, R⟩ =
        .ok ⟨⟨0, (Buckets.pass radix (key R radix) l).map Nat.cast⟩, ⟨0, T'⟩, ⟨0, C'⟩,
          int32 (R * radix)⟩ := by
  obtain ⟨count, hsort⟩ := bucketSort_spec (R := R) hradix hT
  have hperm : (Buckets.pass radix (key R radix) l).length = l.length :=
    (pass_perm fun x _ => key_lt hradix x).length_eq
  have hcopy := copyBack_spec ((Buckets.pass radix (key R radix) l).map Nat.cast)
    (a := l.map Nat.cast) (by rw [List.length_map, List.length_map, hperm])
  rw [List.length_map, hperm, List.map_map] at hcopy
  refine ⟨(Buckets.pass radix (key R radix) l).map fun x : Nat => some (x : Int),
    (List.range radix).map fun c => some (count c), ?_, ?_, ?_⟩
  · rw [List.length_map, hperm]
  · rw [List.length_map, List.length_range]
  · simp only [pass, clear_spec hC, fill_spec hradix, sums_spec hradix, hsort, bind, Except.bind]
    rw [show (fun x : Nat => some (x : Int)) = some ∘ Nat.cast from rfl, hcopy]
    rfl

end RadixSort

/-! ## What `radixSort` sorts

After `i` passes the elements are in order by the value of their lowest `i` digits, `x % radix ^ i`.
-/

namespace RadixSort

open Checked Buckets

variable {radix R digits : Nat} {l : List Nat}

/-- A pass by the next digit, on elements that are in order by the lower ones. -/
theorem pass_sorted (radix : Nat) (h : l.Pairwise fun x y => x % R ≤ y % R) :
    (Buckets.pass radix (key R radix) l).Pairwise fun x y => x % (R * radix) ≤ y % (R * radix) := by
  refine (pass_pairwise h).imp fun {x y} hxy => ?_
  rw [Nat.mod_mul, Nat.mod_mul]
  rcases hxy with hlt | ⟨heq, hle⟩
  · -- a greater digit outweighs all the lower ones
    have hR : 0 < R := by
      rcases Nat.eq_zero_or_pos R with rfl | hR
      · simp [key] at hlt
      · exact hR
    have hx : x % R < R := Nat.mod_lt x hR
    calc x % R + R * (x / R % radix) ≤ R + R * (x / R % radix) := by omega
      _ = R * (key R radix x + 1) := by rw [key, Nat.mul_succ, Nat.add_comm]
      _ ≤ R * key R radix y := Nat.mul_le_mul_left R hlt
      _ ≤ y % R + R * (y / R % radix) := Nat.le_add_left ..
  · have heq : x / R % radix = y / R % radix := heq
    rw [heq]
    exact Nat.add_le_add_right hle _

/-- The state in front of pass `i`, when `l` was to be sorted. -/
def Sorted (radix digits : Nat) (l : List Nat) (i : Nat) (s : State) : Prop :=
  ∃ (l' : List Nat) (T C : List (Option Int)), l'.Perm l ∧
    (l'.Pairwise fun x y => x % radix ^ (i - 1) ≤ y % radix ^ (i - 1)) ∧
    T.length = l.length ∧ C.length = radix ∧ s.array = ⟨0, l'.map Nat.cast⟩ ∧
    s.TempArray = ⟨0, T⟩ ∧ s.count = ⟨0, C⟩ ∧
    (i ≤ digits → s.Radix = (radix ^ (i - 1) : Nat))

theorem Sorted.step {s : State} {i : Nat} (hradix : 2 ≤ radix)
    (hfit : radix ^ (digits - 1) < 2 ^ 31) (hi : 1 ≤ i) (hid : i ≤ digits)
    (h : Sorted radix digits l i s) :
    ∃ s', pass l.length radix s = .ok s' ∧ Sorted radix digits l (i + 1) s' := by
  obtain ⟨array, temp, count, R⟩ := s
  obtain ⟨l', T, C, hperm, hsorted, hT, hC, harray, htemp, hcount, hweight⟩ := h
  have hR := hweight hid
  simp only at harray htemp hcount hR
  subst harray htemp hcount hR
  obtain ⟨T', C', hT', hC', hpass⟩ := pass_spec (R := radix ^ (i - 1)) (l := l') (T := T) (C := C)
    (by omega) (by rw [hT, hperm.length_eq]) hC
  rw [hperm.length_eq] at hpass
  have hpow : radix ^ (i - 1) * radix = radix ^ i := by
    rw [← pow_succ, Nat.sub_add_cancel hi]
  refine ⟨_, hpass, _, T', C', (pass_perm fun x _ => key_lt (by omega) x).trans hperm, ?_,
    by rw [hT', hperm.length_eq], hC', rfl, rfl, rfl, fun hnext => ?_⟩
  · have hnext := pass_sorted radix hsorted
    rwa [hpow] at hnext
  · have hle : radix ^ i ≤ radix ^ (digits - 1) := Nat.pow_le_pow_right (by omega) (by omega)
    have hlt : radix ^ i < 2 ^ 31 := lt_of_le_of_lt hle hfit
    have hcast : ((radix ^ (i - 1) : Nat) : Int) * radix = (radix ^ i : Nat) := by
      exact_mod_cast congrArg Nat.cast hpow
    simp only [hcast, int32_natCast hlt, Nat.add_sub_cancel]

/-- `radixSort` sorts the arrays of numbers of `digits` digits, when the weight of the highest digit
fits in an `int`; no index is out of bounds, and no cell is read that has not been written. -/
theorem radixSort_sorts (radix digits : Nat) (a : List Int) (hradix : 2 ≤ radix)
    (hfit : radix ^ (digits - 1) < 2 ^ 31) (ha : ∀ x ∈ a, 0 ≤ x ∧ x < radix ^ digits) :
    ∃ a', radixSort ⟨0, a⟩ a.length digits radix = .ok ⟨0, a'⟩ ∧ a'.Perm a ∧
      a'.Pairwise (· ≤ ·) := by
  obtain ⟨l, rfl⟩ : ∃ l : List Nat, l.map Nat.cast = a := by
    lift a to List Nat using fun x hx => (ha x hx).1
    exact ⟨a, rfl⟩
  have hbound : ∀ x ∈ l, x < radix ^ digits := fun x hx => by
    exact_mod_cast (ha x (List.mem_map_of_mem hx)).2
  have hinit : Sorted radix digits l 1
      ⟨⟨0, l.map Nat.cast⟩, ⟨0, List.replicate l.length none⟩, ⟨0, List.replicate radix none⟩,
      1⟩ := by
    refine ⟨l, _, _, List.Perm.refl l, ?_, List.length_replicate .., List.length_replicate .., rfl,
      rfl, rfl, fun _ => rfl⟩
    exact List.pairwise_of_forall fun x y => by simp [Nat.mod_one]
  obtain ⟨s, hs, l', T, C, hperm, hsorted, _, _, harray, _⟩ := upward (n := digits)
    (f := fun s _ => pass l.length radix s)
    (fun i hi hid s hs => Sorted.step hradix hfit hi (by omega) hs) hinit
  refine ⟨l'.map Nat.cast, ?_, hperm.map _, ?_⟩
  · rw [radixSort, List.length_map, hs, ← harray]
    rfl
  · rw [Nat.add_sub_cancel_left] at hsorted
    refine List.pairwise_map.2 (hsorted.imp_of_mem fun {x y} hx hy hxy => ?_)
    rw [Nat.mod_eq_of_lt (hbound x (hperm.subset hx)),
      Nat.mod_eq_of_lt (hbound y (hperm.subset hy))] at hxy
    exact_mod_cast hxy

theorem radixSort_sorts_small : ∃ a', radixSort ⟨0, [21, 3, 12]⟩ 3 2 10 = .ok ⟨0, a'⟩ ∧
    a'.Perm [21, 3, 12] ∧ a'.Pairwise (· ≤ ·) :=
  radixSort_sorts 10 2 [21, 3, 12] (by decide) (by decide) (by decide)

end RadixSort
