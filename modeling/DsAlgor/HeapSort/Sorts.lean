import DsAlgor.HeapSort.Chain

/-!
# What `heapsort` sorts

In the second loop the chain of 1 is all of the heap: the greatest of its elements goes to `a[n]`,
and what was there comes to its place in the chain, if `n` is not a power of two. An element that is
no power of two's waits at its index till then, so it must not be greater than the element that will
be in front of it in the sorted array.
-/

namespace HeapSort

open Checked

section
variable {N n k : Nat} {f g F s : Nat → Int}

/-! ## The chain of a shorter heap -/

theorem chain_sublist (n : Nat) : ∀ {k : Nat}, (chain n k).Sublist (chain (n + 1) k) := by
  intro k
  induction hlen : n + 1 - k using Nat.strong_induction_on generalizing k with
  | h len ih =>
    by_cases hk : 1 ≤ k ∧ k ≤ n
    · rw [chain_cons hk.1 hk.2, chain_cons hk.1 (Nat.le_succ_of_le hk.2)]
      exact (ih _ (by omega) rfl).cons_cons k
    · rw [chain, dif_neg hk]
      exact List.nil_sublist _

/-- The first element of the chain is the greatest. -/
theorem le_first (hn : 1 ≤ n) (hdesc : ((chain n 1).map f).Pairwise (· ≥ ·)) {i : Nat}
    (hi : i ∈ chain n 1) : f i ≤ f 1 := by
  rw [chain_cons le_rfl hn] at hi hdesc
  cases List.mem_cons.1 hi with
  | inl he => rw [he]
  | inr hi => exact (List.pairwise_cons.1 hdesc).1 _ (List.mem_map_of_mem hi)

/-! ## A step -/

/-- A step of the second loop with the heap `a[1..n+1]`, from `f` to `g`. -/
structure Step (n : Nat) (f g : Nat → Int) : Prop where
  top : g (n + 1) = f 1
  behind : ∀ i, n + 1 < i → g i = f i
  waiting : ∀ i, 1 ≤ i → i ≤ n → i ∉ chain n 1 → g i = f i
  entered : f (n + 1) ≤ g 1
  desc : ((chain n 1).map g).Pairwise (· ≥ ·)
  perm : ((List.range' 1 (n + 1)).map g).Perm ((List.range' 1 (n + 1)).map f)

theorem sortLoop_step (hn : 1 ≤ n) (hN : n + 1 ≤ N)
    (hdesc : ((chain (n + 1) 1).map f).Pairwise (· ≥ ·)) : ∃ g : Nat → Int, Step n f g ∧
      ∀ r, Ends (fun fuel => sortLoop fuel (table N g) n) r →
        Ends (fun fuel => sortLoop fuel (table N f) ((n + 1 : Nat) : Int)) r := by
  let h := Function.update (Function.update f 1 (f (n + 1))) (n + 1) (f 1)
  have h1 : h 1 = f (n + 1) := by
    rw [show h 1 = Function.update f 1 (f (n + 1)) 1 from Function.update_of_ne (by omega) _ _,
      Function.update_self]
  have hlast : h (n + 1) = f 1 := Function.update_self _ _ _
  have hoff : ∀ i, i ≠ 1 → i ≠ n + 1 → h i = f i := fun i h1 hn =>
    (Function.update_of_ne hn _ _).trans (Function.update_of_ne h1 _ _)
  obtain ⟨g, hends, hchain, hkeep, hperm⟩ := downheap_ends (f := h) (Nat.le_of_succ_le hN) le_rfl hn
  have hbehind : ∀ i, n < i → i ∉ chain n 1 := fun i hi hc =>
    absurd (chain_le le_rfl hc).2 (not_le.2 hi)
  have hrest : (chain n (2 * 1)).map h = (chain n (2 * 1)).map f := by
    refine List.map_congr_left fun i hi => ?_
    have := chain_le (by omega) hi
    exact hoff i (by omega) (by omega)
  have hrestdesc : ((chain n (2 * 1)).map f).Pairwise (· ≥ ·) := by
    rw [chain_cons le_rfl (Nat.le_add_left 1 n), List.map_cons] at hdesc
    exact (List.pairwise_cons.1 hdesc).2.sublist ((chain_sublist n).map f)
  rw [hrest, h1] at hchain
  have hgdesc : ((chain n 1).map g).Pairwise (· ≥ ·) := by
    rw [hchain]
    exact hrestdesc.orderedInsert _ _
  refine ⟨g, ⟨?_, fun i hi => ?_, fun i h1 hi hc => ?_, ?_, hgdesc, ?_⟩, fun r hr => ?_⟩
  · rw [hkeep _ (hbehind _ (Nat.lt_succ_self n)), hlast]
  · rw [hkeep i (hbehind i (by omega)), hoff i (by omega) (by omega)]
  · have hi1 : i ≠ 1 := fun he => hc (by rw [he, chain_cons le_rfl hn]; exact List.mem_cons_self)
    rw [hkeep i hc, hoff i hi1 (by omega)]
  · have hmem : f (n + 1) ∈ (chain n 1).map g := by
      rw [hchain]
      exact (List.mem_orderedInsert _).2 (.inl rfl)
    obtain ⟨i, hi, he⟩ := List.mem_map.1 hmem
    rw [← he]
    exact le_first hn hgdesc hi
  · refine (hperm (n + 1) (Nat.le_succ n)).trans ?_
    refine perm_map_of_off (l := [1, n + 1]) (by simp; omega) List.nodup_range' (fun i hi => ?_) ?_
      fun i _ hi => hoff i (fun hc => hi (by simp [hc])) fun hc => hi (by simp [hc])
    · rw [List.mem_range'_1]
      simp only [List.mem_cons, List.not_mem_nil, or_false] at hi
      omega
    · simp only [List.map_cons, List.map_nil, h1, hlast]
      exact List.Perm.swap _ _ _
  · refine Ends.succ ?_
    have hgo : ((n + 1 : Nat) : Int) > 1 := by omega
    have hprev : ((n + 1 : Nat) : Int) - 1 = n := by omega
    have hswap : (table N f).swap 1 ((n + 1 : Nat) : Int) = .ok (table N h) :=
      swap_table (i := 1) le_rfl (by omega) (by omega) hN
    simp only [sortLoop, if_pos hgo, hswap, hprev]
    exact hends.bind hr

/-! ## A run -/

/-- What the second loop makes of the heap `a[1..n]`, from `f` to `F`. -/
structure Run (n : Nat) (f F : Nat → Int) : Prop where
  behind : ∀ i, n < i → F i = f i
  top : 1 ≤ n → F n = f 1
  perm : ((List.range' 1 n).map F).Perm ((List.range' 1 n).map f)
  /-- What waits goes in front of its index. -/
  front : ∀ i, 1 ≤ i → i ≤ n → i ∉ chain n 1 → f i ≤ F (i - 1)
  /-- The elements come in the order `s`, if those that wait are small enough. -/
  sorted : ∀ s : Nat → Int, ((List.range' 1 n).map f).Perm ((List.range' 1 n).map s) →
    (∀ i j, 1 ≤ i → i ≤ j → j ≤ n → s i ≤ s j) →
    (∀ i, 1 ≤ i → i ≤ n → i ∉ chain n 1 → f i ≤ s (i - 1)) → ∀ i, 1 ≤ i → i ≤ n → F i = s i

/-- As many elements are at least `s (n+1)` in `a[1..n+1]` as in `s`, and of those that wait there
is one less: the first element of the chain is one of them. -/
theorem first_eq (hdesc : ((chain (n + 1) 1).map f).Pairwise (· ≥ ·))
    (hperm : ((List.range' 1 (n + 1)).map f).Perm ((List.range' 1 (n + 1)).map s))
    (hmono : ∀ i j, 1 ≤ i → i ≤ j → j ≤ n + 1 → s i ≤ s j)
    (hwait : ∀ i, 1 ≤ i → i ≤ n + 1 → i ∉ chain (n + 1) 1 → f i ≤ s (i - 1)) :
    f 1 = s (n + 1) := by
  refine le_antisymm ?_ (not_lt.1 fun hlt => ?_)
  · have hmem : f 1 ∈ (List.range' 1 (n + 1)).map f :=
      List.mem_map_of_mem (List.mem_range'_1.2 ⟨le_rfl, by omega⟩)
    obtain ⟨j, hj, he⟩ := List.mem_map.1 (hperm.mem_iff.1 hmem)
    have hj := List.mem_range'_1.1 hj
    rw [← he]
    exact hmono j (n + 1) hj.1 (by omega) le_rfl
  · have hcount := hperm.countP_eq (s (n + 1) ≤ ·)
    rw [List.countP_map, List.countP_map] at hcount
    have hfront : List.range' 1 (n + 1) = 1 :: (List.range' 1 n).map (1 + ·) := by
      rw [List.map_add_range', List.range'_succ]
    have hback : List.range' 1 (n + 1) = List.range' 1 n ++ [n + 1] := by
      rw [List.range'_1_concat, Nat.add_comm 1 n]
    have hleft : (List.range' 1 (n + 1)).countP ((fun x => decide (s (n + 1) ≤ x)) ∘ f) =
        (List.range' 1 n).countP fun i => decide (s (n + 1) ≤ f (1 + i)) := by
      rw [hfront, List.countP_cons_of_neg (by simpa using hlt), List.countP_map]
      rfl
    have hright : (List.range' 1 (n + 1)).countP ((fun x => decide (s (n + 1) ≤ x)) ∘ s) =
        (List.range' 1 n).countP (fun i => decide (s (n + 1) ≤ s i)) + 1 := by
      rw [hback, List.countP_append]
      simp [Function.comp_def]
    have hle : (List.range' 1 n).countP (fun i => decide (s (n + 1) ≤ f (1 + i))) ≤
        (List.range' 1 n).countP fun i => decide (s (n + 1) ≤ s i) := by
      refine List.countP_mono_left fun i hi hsi => ?_
      have hi := List.mem_range'_1.1 hi
      have hsi := of_decide_eq_true hsi
      have hnot : 1 + i ∉ chain (n + 1) 1 := fun hc =>
        absurd (hsi.trans (le_first (Nat.le_add_left 1 n) hdesc hc)) (not_le.2 hlt)
      have hw := hwait (1 + i) (by omega) (by omega) hnot
      rw [Nat.add_sub_cancel_left] at hw
      exact decide_eq_true (hsi.trans hw)
    omega

theorem Run.stop (hn : n ≤ 1) : Run n f f where
  behind _ _ := rfl
  top h := by rw [Nat.le_antisymm hn h]
  perm := List.Perm.refl _
  front i h1 hi hc := absurd (by
    rw [show i = 1 by omega, chain_cons le_rfl (by omega)]
    exact List.mem_cons_self) hc
  sorted s hperm _ _ i h1 hi := by
    have hn1 : n = 1 := by omega
    subst hn1
    rw [show i = 1 by omega]
    exact List.singleton_perm_singleton.1 hperm

theorem Run.step (hn : 1 ≤ n) (hdesc : ((chain (n + 1) 1).map f).Pairwise (· ≥ ·))
    (hstep : Step n f g) (hrun : Run n g F) : Run (n + 1) f F := by
  have hlast : F (n + 1) = g (n + 1) := hrun.behind _ (Nat.lt_succ_self n)
  have hback : ∀ u : Nat → Int,
      (List.range' 1 (n + 1)).map u = (List.range' 1 n).map u ++ [u (n + 1)] := by
    intro u
    rw [List.range'_1_concat, Nat.add_comm 1 n, List.map_append]
    rfl
  have hwaits : ∀ {i}, i ∉ chain (n + 1) 1 → i ∉ chain n 1 := fun hc hm =>
    hc ((chain_sublist n).subset hm)
  refine ⟨fun i hi => ?_, fun _ => ?_, ?_, fun i h1 hi hc => ?_,
    fun s hperm hmono hwait i h1 hi => ?_⟩
  · rw [hrun.behind i (by omega), hstep.behind i hi]
  · rw [hlast, hstep.top]
  · refine List.Perm.trans ?_ hstep.perm
    rw [hback, hback, hlast]
    exact hrun.perm.append_right _
  · by_cases hin : i = n + 1
    · rw [hin, Nat.add_sub_cancel, hrun.top hn]
      exact hstep.entered
    · rw [← hstep.waiting i h1 (by omega) (hwaits hc)]
      exact hrun.front i h1 (by omega) (hwaits hc)
  · have hfirst := first_eq hdesc hperm hmono hwait
    by_cases hin : i = n + 1
    · rw [hin, hlast, hstep.top, hfirst]
    · refine hrun.sorted s ?_ (fun i j h1 hij hj => hmono i j h1 hij (by omega))
        (fun i h1 hi hc => ?_) i h1 (by omega)
      · have hperm' := hstep.perm.trans hperm
        rw [hback, hback, hstep.top, hfirst] at hperm'
        exact (List.perm_append_right_iff _).1 hperm'
      · rw [hstep.waiting i h1 hi hc]
        refine hwait i h1 (by omega) fun hm => hc ?_
        exact (mem_chain le_rfl).2 ⟨hi, ((mem_chain le_rfl).1 hm).2⟩

theorem sortLoop_ends : ∀ (n : Nat) {f : Nat → Int}, n ≤ N →
    ((chain n 1).map f).Pairwise (· ≥ ·) → ∃ F : Nat → Int,
      Ends (fun fuel => sortLoop fuel (table N f) n) (table N F) ∧ Run n f F
  | 0, f, _, _ => ⟨f, Ends.succ (Ends.pure _), Run.stop (Nat.zero_le 1)⟩
  | 1, f, _, _ => ⟨f, Ends.succ (Ends.pure _), Run.stop le_rfl⟩
  | n + 2, f, hN, hdesc => by
    obtain ⟨g, hstep, hrest⟩ := sortLoop_step (Nat.succ_pos n) hN hdesc
    obtain ⟨F, hF, hrun⟩ := sortLoop_ends (n + 1) (f := g) (Nat.le_of_succ_le hN) hstep.desc
    exact ⟨F, hrest _ hF, hrun.step (Nat.succ_pos n) hdesc hstep⟩

/-! ## The sort -/

/-- `a[i]` of `a[1..]` -/
def elemAt (a : List Int) (i : Nat) : Int := (a[i - 1]?).getD 0

/-- The arrays that `heapsort` sorts: with every chain sorted, the greatest first, no element at an
index `n` that is not a power of two is greater than the element number `n - 1` in ascending
order. -/
def HeapOk (a : List Int) : Prop :=
  ∀ m, m % 2 = 1 → m ≠ 1 → List.Forall₂ (· ≤ ·) (descending a.length (elemAt a) m)
    ((chain a.length m).map fun n => elemAt (a.insertionSort (· ≤ ·)) (n - 1))

theorem map_elemAt (a : List Int) : (List.range' 1 a.length).map (elemAt a) = a :=
  (congrArg Arr.elems (table_of_list a 0)).symm

theorem pairwise_map_range' : ((List.range' 1 n).map s).Pairwise (· ≤ ·) ↔
    ∀ i j, 1 ≤ i → i ≤ j → j ≤ n → s i ≤ s j := by
  rw [List.pairwise_map, List.pairwise_iff_getElem]
  refine ⟨fun h i j h1 hij hj => ?_, fun h i j hi hj hij => ?_⟩
  · cases Nat.eq_or_lt_of_le hij with
    | inl he => rw [he]
    | inr hlt =>
      have hs := h (i - 1) (j - 1) (by simp; omega) (by simp; omega) (by omega)
      simpa [Nat.add_sub_cancel' h1, Nat.add_sub_cancel' (h1.trans hij)] using hs
  · rw [List.length_range'] at hi hj
    simp only [List.getElem_range']
    exact h _ _ (by omega) (by omega) (by omega)

/-- The condition on an array whose chains are sorted. -/
theorem heapOk_iff {a : List Int} {B : Nat → Int}
    (hB : ∀ i, i % 2 = 1 → (chain a.length i).map B = descending a.length (elemAt a) i) :
    HeapOk a ↔ ∀ i, 1 ≤ i → i ≤ a.length → i ∉ chain a.length 1 →
      B i ≤ elemAt (a.insertionSort (· ≤ ·)) (i - 1) := by
  have hchain : ∀ m, m % 2 = 1 → (List.Forall₂ (· ≤ ·) (descending a.length (elemAt a) m)
        ((chain a.length m).map fun n => elemAt (a.insertionSort (· ≤ ·)) (n - 1)) ↔
      ∀ i ∈ chain a.length m, B i ≤ elemAt (a.insertionSort (· ≤ ·)) (i - 1)) := by
    intro m hm
    rw [← hB m hm, List.forall₂_map_left_iff, List.forall₂_map_right_iff, List.forall₂_same]
  refine ⟨fun h i h1 hi hc => ?_, fun h m hm hm1 => (hchain m hm).2 fun i hi => ?_⟩
  · obtain ⟨t, m, hodd, rfl⟩ := Nat.exists_eq_two_pow_mul_odd (Nat.pos_iff_ne_zero.1 h1)
    have hm := Nat.odd_iff.1 hodd
    have hm1 : m ≠ 1 := fun he =>
      hc ((mem_chain le_rfl).2 ⟨hi, t, by rw [he, Nat.mul_one, Nat.one_mul]⟩)
    exact (hchain m hm).1 (h m hm hm1) _ ((mem_chain (by omega)).2 ⟨hi, t, Nat.mul_comm _ _⟩)
  · have hle := chain_le (by omega) hi
    refine h i (by omega) hle.2 fun hc => hm1 ?_
    obtain ⟨_, t, ht⟩ := (mem_chain (by omega)).1 hi
    obtain ⟨_, u, hu⟩ := (mem_chain le_rfl).1 hc
    have hdvd : m ∣ 2 ^ u := ⟨2 ^ t, by rw [← ht, hu, Nat.one_mul]⟩
    have hcop : Nat.Coprime m (2 ^ u) :=
      Nat.Coprime.pow_right u (Nat.coprime_two_right.2 (Nat.odd_iff.2 hm))
    exact Nat.Coprime.eq_one_of_dvd hcop hdvd

/-- **`heapsort`** always returns a permutation, and this is in order exactly for `HeapOk`
arrays. -/
theorem heapsort_iff (a : List Int) :
    (∃ a' : List Int, Ends (fun fuel => heapsort fuel ⟨1, a⟩ a.length) ⟨1, a'⟩ ∧ a'.Perm a) ∧
    ((∃ a' : List Int, Ends (fun fuel => heapsort fuel ⟨1, a⟩ a.length) ⟨1, a'⟩ ∧ a'.Perm a ∧
      a'.Pairwise (· ≤ ·)) ↔ HeapOk a) := by
  obtain ⟨B, hbuild, hB, hpermB⟩ := build_ends a.length (elemAt a)
  have hdesc : ((chain a.length 1).map B).Pairwise (· ≥ ·) := by
    rw [hB 1 rfl]
    exact List.pairwise_insertionSort _ _
  obtain ⟨F, hsort, hrun⟩ := sortLoop_ends a.length le_rfl hdesc
  have hends : Ends (fun fuel => heapsort fuel ⟨1, a⟩ a.length)
      ⟨1, (List.range' 1 a.length).map F⟩ := by
    rw [show (⟨1, a⟩ : Arr Int) = table a.length (elemAt a) from table_of_list a 0]
    exact hbuild.bind hsort
  rw [map_elemAt] at hpermB
  have hperm := hrun.perm.trans hpermB
  refine ⟨⟨_, hends, hperm⟩, ?_⟩
  have hlen : (a.insertionSort (· ≤ ·)).length = a.length := List.length_insertionSort _ _
  have hs : (List.range' 1 a.length).map (elemAt (a.insertionSort (· ≤ ·))) =
      a.insertionSort (· ≤ ·) := by
    rw [← hlen]
    exact map_elemAt _
  have hsorted : (a.insertionSort (· ≤ ·)).Pairwise (· ≤ ·) := List.pairwise_insertionSort _ _
  have hperms : (a.insertionSort (· ≤ ·)).Perm a := List.perm_insertionSort _ _
  rw [heapOk_iff hB]
  refine ⟨fun h i h1 hi hc => ?_, fun h => ⟨_, hends, hperm, ?_⟩⟩
  · obtain ⟨a', hends', _, hsorted'⟩ := h
    obtain rfl : a' = (List.range' 1 a.length).map F := (Arr.mk.inj (hends'.unique hends)).2
    have heq := (hperm.trans hperms.symm).eq_of_pairwise' hsorted' hsorted
    rw [← hs] at heq
    have hi1 : i ≠ 1 := fun he => hc (by
      rw [he, chain_cons le_rfl (he ▸ hi)]
      exact List.mem_cons_self)
    have hat := (List.map_inj_left.1 heq) (i - 1) (List.mem_range'_1.2 ⟨by omega, by omega⟩)
    rw [← hat]
    exact hrun.front i h1 hi hc
  · have hF := hrun.sorted (elemAt (a.insertionSort (· ≤ ·))) (by
      rw [hs]
      exact hpermB.trans hperms.symm) (pairwise_map_range'.1 (by rw [hs]; exact hsorted)) h
    have heq : (List.range' 1 a.length).map F = a.insertionSort (· ≤ ·) := by
      rw [← hs]
      refine List.map_congr_left fun i hi => ?_
      have hi := List.mem_range'_1.1 hi
      exact hF i hi.1 (by omega)
    rw [heq]
    exact hsorted

/-- The right child is never looked at. -/
theorem heapsort_wrong : ¬ ∀ a : List Int, ∃ a' : List Int,
    Ends (fun fuel => heapsort fuel ⟨1, a⟩ a.length) ⟨1, a'⟩ ∧ a'.Perm a ∧ a'.Pairwise (· ≤ ·) := by
  intro h
  obtain ⟨a', hends, _, hsorted⟩ := h [1, 2, 3]
  have hrun : heapsort 9 ⟨1, [1, 2, 3]⟩ ([1, 2, 3] : List Int).length = .ok ⟨1, [1, 3, 2]⟩ := by rfl
  cases heapsort_steady.eq hends hrun
  exact absurd hsorted (by decide)

end

end HeapSort
