import DsAlgor.Lib.Checked

/-!
# `heapSort.c`

The heapsort of the exercise, on an array `a[1..N]`. The fuel bounds every loop.
-/

namespace HeapSort

open Checked

/-- `j = k+k; if (j<k && a[j] < a[j+1]) j++;` -/
def child (a : Arr Int) (k : Int) : Except Fault Int := do
  let j := k + k
  if j < k then
    if (← a.get j) < (← a.get (j + 1)) then return j + 1 else return j
  else return j

/-- The loop of `downheap`: the array and `k`. -/
def downheapLoop (v n : Int) : Nat → Arr Int → Int → Except Fault (Arr Int × Int)
  | 0, _, _ => .error .loop
  | fuel + 1, a, k =>
    if k ≤ n / 2 then do
      let j ← child a k
      let x ← a.get j
      if v ≥ x then return (a, k) else downheapLoop v n fuel (← a.set k x) j
    else return (a, k)

def downheap (fuel : Nat) (a : Arr Int) (n k : Int) : Except Fault (Arr Int) := do
  let v ← a.get k
  let (a, k) ← downheapLoop v n fuel a k
  a.set k v

/-- `for (k = N/2; k>=1; k--)` -/
def buildLoop (n : Int) : Nat → Arr Int → Int → Except Fault (Arr Int)
  | 0, _, _ => .error .loop
  | fuel + 1, a, k =>
    if k ≥ 1 then do buildLoop n fuel (← downheap fuel a n k) (k - 1) else return a

/-- `while (N>1)` -/
def sortLoop : Nat → Arr Int → Int → Except Fault (Arr Int)
  | 0, _, _ => .error .loop
  | fuel + 1, a, n =>
    if n > 1 then do
      let a ← a.swap 1 n
      sortLoop fuel (← downheap fuel a (n - 1) 1) (n - 1)
    else return a

def heapsort (fuel : Nat) (a : Arr Int) (n : Int) : Except Fault (Arr Int) := do
  let a ← buildLoop n fuel a (n / 2)
  sortLoop fuel a n

/-! ## What `downheap` does

`j < k` is never true, so `downheap` never looks at the right child: it goes down the left children
`k`, `2k`, `4k`, … and puts `a[k]` in its place among their elements. The first loop of `heapsort`
so sorts the elements of every such chain by insertion, the greatest first.
-/

/-! ## Fuel -/

section
variable {a : Arr Int} {v n k : Int}

theorem downheapLoop_steady : ∀ {a : Arr Int} {k : Int},
    Steady fun fuel => downheapLoop v n fuel a k := by
  intro a k fuel
  induction fuel generalizing a k with
  | zero => exact nofun
  | succ fuel ih =>
    exact ((Below.refl _).bind fun j => (Below.refl _).bind fun x =>
      (Below.refl _).ite ((Below.refl _).bind fun a => ih)).ite (Below.refl _)

theorem downheap_steady : Steady fun fuel => downheap fuel a n k := fun fuel =>
  (Below.refl _).bind fun _ => (downheapLoop_steady fuel).bind fun _ => Below.refl _

theorem buildLoop_steady : ∀ {a : Arr Int} {k : Int}, Steady fun fuel => buildLoop n fuel a k := by
  intro a k fuel
  induction fuel generalizing a k with
  | zero => exact nofun
  | succ fuel ih => exact ((downheap_steady fuel).bind fun a => ih).ite (Below.refl _)

theorem sortLoop_steady : ∀ {a : Arr Int} {n : Int}, Steady fun fuel => sortLoop fuel a n := by
  intro a n fuel
  induction fuel generalizing a n with
  | zero => exact nofun
  | succ fuel ih =>
    exact ((Below.refl _).bind fun a => (downheap_steady fuel).bind fun a => ih).ite (Below.refl _)

theorem heapsort_steady : Steady fun fuel => heapsort fuel a n :=
  buildLoop_steady.bind fun _ => sortLoop_steady

end

/-! ## Chains -/

/-- The indices `k`, `2k`, `4k`, … up to `n`. -/
def chain (n k : Nat) : List Nat :=
  if h : 1 ≤ k ∧ k ≤ n then k :: chain n (2 * k) else []
termination_by n + 1 - k
decreasing_by omega

section
variable {n k m i : Nat}

theorem chain_cons (h1 : 1 ≤ k) (hn : k ≤ n) : chain n k = k :: chain n (2 * k) := by
  rw [chain, dif_pos ⟨h1, hn⟩]

theorem chain_behind (hn : n < k) : chain n k = [] := by
  rw [chain, dif_neg fun h => not_lt.2 h.2 hn]

theorem mem_chain : ∀ {k : Nat}, 1 ≤ k → (i ∈ chain n k ↔ i ≤ n ∧ ∃ t, i = k * 2 ^ t) := by
  intro k
  induction hlen : n + 1 - k using Nat.strong_induction_on generalizing k with
  | h len ih =>
    intro h1
    by_cases hn : k ≤ n
    · rw [chain_cons h1 hn, List.mem_cons, ih _ (by omega) rfl (by omega)]
      refine ⟨fun h => ?_, fun h => ?_⟩
      · cases h with
        | inl he => exact ⟨he ▸ hn, 0, by simp [he]⟩
        | inr h =>
          obtain ⟨hi, t, rfl⟩ := h
          exact ⟨hi, t + 1, by ring⟩
      · obtain ⟨hi, t, rfl⟩ := h
        cases t with
        | zero => exact .inl (by simp)
        | succ t => exact .inr ⟨hi, t, by ring⟩
    · rw [chain_behind (by omega)]
      refine ⟨fun h => absurd h List.not_mem_nil, fun h => ?_⟩
      obtain ⟨hi, t, rfl⟩ := h
      have hle : k * 1 ≤ k * 2 ^ t := Nat.mul_le_mul_left k Nat.one_le_two_pow
      omega

theorem chain_le (h1 : 1 ≤ k) (hi : i ∈ chain n k) : k ≤ i ∧ i ≤ n := by
  obtain ⟨hn, t, rfl⟩ := (mem_chain h1).1 hi
  exact ⟨Nat.le_mul_of_pos_right k (by positivity), hn⟩

theorem not_mem_chain_double (h1 : 1 ≤ k) : k ∉ chain n (2 * k) := fun hc => by
  have := (chain_le (by omega) hc).1
  omega

theorem chain_nodup : ∀ {k : Nat}, 1 ≤ k → (chain n k).Nodup := by
  intro k
  induction hlen : n + 1 - k using Nat.strong_induction_on generalizing k with
  | h len ih =>
    intro h1
    by_cases hn : k ≤ n
    · rw [chain_cons h1 hn]
      exact List.nodup_cons.2 ⟨not_mem_chain_double h1, ih _ (by omega) rfl (by omega)⟩
    · rw [chain_behind (by omega)]
      exact List.nodup_nil

end

/-! ## `downheap` -/

section
variable {N n k : Nat} {v : Int} {f : Nat → Int}

theorem child_eq (a : Arr Int) (k : Nat) : child a k = .ok ((2 * k : Nat) : Int) := by
  have hdouble : (k : Int) + k = ((2 * k : Nat) : Int) := by omega
  have hnot : ¬ ((2 * k : Nat) : Int) < k := by omega
  simp only [child, hdouble, if_neg hnot]
  rfl

/-- The loop with the hole at `k`: `v` would come to its place in the chain. -/
theorem downheapLoop_ends (v : Int) (hN : n ≤ N) : ∀ {k : Nat} {f : Nat → Int}, 1 ≤ k → k ≤ n →
    ∃ (g : Nat → Int) (i : Nat),
      Ends (fun fuel => downheapLoop v n fuel (table N f) k) (table N g, (i : Int)) ∧
        i ∈ chain n k ∧
      (chain n k).map (Function.update g i v) =
        ((chain n (2 * k)).map f).orderedInsert (· ≥ ·) v ∧
      ∀ m, m ∉ chain n k → g m = f m := by
  intro k
  induction hlen : n - k using Nat.strong_induction_on generalizing k with
  | h len ih =>
    intro f h1 hn
    have hmap : ∀ (g : Nat → Int) (x : Int),
        (chain n (2 * k)).map (Function.update g k x) = (chain n (2 * k)).map g := fun g x =>
      List.map_congr_left fun i hi => Function.update_of_ne
        (fun hc => not_mem_chain_double h1 (hc ▸ hi)) x g
    by_cases hk : 2 * k ≤ n
    · have hinner : (k : Int) ≤ n / 2 := by omega
      by_cases hv : v ≥ f (2 * k)
      · refine ⟨f, k, ?_, by simp [chain_cons h1 hn], ?_, fun _ _ => rfl⟩
        · refine Ends.succ ?_
          simp only [downheapLoop, if_pos hinner, child_eq, bind, Except.bind,
            get_table (f := f) (by omega : 1 ≤ 2 * k) (by omega : 2 * k ≤ N), if_pos hv]
          exact Ends.pure _
        · rw [chain_cons h1 hn, List.map_cons, Function.update_self, hmap,
            chain_cons (by omega) hk, List.map_cons, List.orderedInsert_cons_of_le _ _ hv]
      · obtain ⟨g, i, hends, hi, hchain, hkeep⟩ := ih (n - 2 * k) (by omega) rfl
          (f := Function.update f k (f (2 * k))) (by omega) hk
        have hik : i ≠ k := fun hc => not_mem_chain_double h1 (hc ▸ hi)
        refine ⟨g, i, ?_, ?_, ?_, fun m hm => ?_⟩
        · refine Ends.succ ?_
          simp only [downheapLoop, if_pos hinner, child_eq, bind, Except.bind,
            get_table (f := f) (by omega : 1 ≤ 2 * k) (by omega : 2 * k ≤ N), if_neg hv,
            set_table (f := f) h1 (by omega : k ≤ N)]
          exact hends
        · rw [chain_cons h1 hn]
          exact List.mem_cons_of_mem k hi
        · have hgk : g k = f (2 * k) := by
            rw [hkeep k (not_mem_chain_double h1), Function.update_self]
          have hrest : (chain n (2 * (2 * k))).map (Function.update f k (f (2 * k))) =
              (chain n (2 * (2 * k))).map f := by
            refine List.map_congr_left fun m hm => Function.update_of_ne (fun hc => ?_) _ f
            have := (chain_le (by omega) hm).1
            omega
          rw [chain_cons h1 hn, List.map_cons, Function.update_of_ne hik.symm, hgk, hchain, hrest,
            chain_cons (by omega) hk, List.map_cons, List.orderedInsert_cons, if_neg hv]
        · rw [chain_cons h1 hn, List.mem_cons, not_or] at hm
          rw [hkeep m hm.2, Function.update_of_ne hm.1]
    · have hleaf : ¬ (k : Int) ≤ n / 2 := by omega
      refine ⟨f, k, ?_, by simp [chain_cons h1 hn], ?_, fun _ _ => rfl⟩
      · refine Ends.succ ?_
        simp only [downheapLoop, if_neg hleaf]
        exact Ends.pure _
      · rw [chain_cons h1 hn, chain_behind (by omega : n < 2 * k)]
        simp

/-- **`downheap`**: `a[k]` comes to its place in the chain. -/
theorem downheap_ends (hN : n ≤ N) (h1 : 1 ≤ k) (hn : k ≤ n) : ∃ g : Nat → Int,
    Ends (fun fuel => downheap fuel (table N f) n k) (table N g) ∧
      (chain n k).map g = ((chain n (2 * k)).map f).orderedInsert (· ≥ ·) (f k) ∧
      (∀ m, m ∉ chain n k → g m = f m) ∧
      ∀ M, n ≤ M → ((List.range' 1 M).map g).Perm ((List.range' 1 M).map f) := by
  obtain ⟨g, i, hends, hi, hchain, hkeep⟩ := downheapLoop_ends (f k) hN (f := f) h1 hn
  have hle := chain_le h1 hi
  have hkeep' : ∀ m, m ∉ chain n k → Function.update g i (f k) m = f m := by
    intro m hm
    have hne : m ≠ i := fun hc => hm (hc.symm ▸ hi)
    rw [Function.update_of_ne hne]
    exact hkeep m hm
  refine ⟨Function.update g i (f k), ?_, hchain, hkeep', fun M hM => ?_⟩
  · simp only [downheap, get_table (f := f) h1 (hn.trans hN)]
    refine hends.bind ?_
    simp only [set_table (f := g) (h1.trans hle.1) (hle.2.trans hN)]
    exact Ends.pure _
  · refine perm_map_of_off (chain_nodup h1) List.nodup_range' (fun m hm => ?_) ?_
      fun m _ hm => hkeep' m hm
    · have := chain_le h1 hm
      exact List.mem_range'_1.2 ⟨by omega, by omega⟩
    · rw [hchain, chain_cons h1 hn, List.map_cons]
      exact List.perm_orderedInsert _ _ _

/-! ## The first loop -/

/-- A chain whose first index is not in the chain of `k`. -/
theorem chain_disjoint {i m : Nat} (h1 : 1 ≤ k) (hk : k < i) (hi : i % 2 = 1 ∨ i < 2 * k)
    (hm : m ∈ chain n i) : m ∉ chain n k := by
  intro hmk
  obtain ⟨_, t, rfl⟩ := (mem_chain (by omega)).1 hm
  obtain ⟨_, u, hu⟩ := (mem_chain h1).1 hmk
  by_cases htu : t < u
  · -- `i = k * 2 ^ (u - t)`
    obtain ⟨d, rfl⟩ := Nat.exists_eq_add_of_lt htu
    have heq : i * 2 ^ t = 2 * (k * 2 ^ d) * 2 ^ t := by rw [hu]; ring
    have hi' := Nat.eq_of_mul_eq_mul_right (by positivity) heq
    have hpow : k * 1 ≤ k * 2 ^ d := Nat.mul_le_mul_left k Nat.one_le_two_pow
    omega
  · obtain ⟨d, rfl⟩ := Nat.exists_eq_add_of_le (not_lt.1 htu)
    have heq : k * 2 ^ u = i * 2 ^ d * 2 ^ u := by rw [← hu]; ring
    have hk' := Nat.eq_of_mul_eq_mul_right (by positivity) heq
    have hpow : i * 1 ≤ i * 2 ^ d := Nat.mul_le_mul_left i Nat.one_le_two_pow
    omega

/-- The elements of the chain from `i`, the greatest first. -/
def descending (n : Nat) (f : Nat → Int) (i : Nat) : List Int :=
  ((chain n i).map f).insertionSort (· ≥ ·)

/-- From `k` on down: the chains that begin behind `k` are sorted, the elements up to `k` are those
of the array at the start. -/
theorem buildLoop_ends {f₀ : Nat → Int} : ∀ {k : Nat} {f : Nat → Int}, k ≤ N →
    (∀ i, k < i → (i % 2 = 1 ∨ i ≤ 2 * k + 1) → (chain N i).map f = descending N f₀ i) →
    (∀ i, i ≤ k → f i = f₀ i) → ∃ g : Nat → Int,
      Ends (fun fuel => buildLoop N fuel (table N f) k) (table N g) ∧
        (∀ i, i % 2 = 1 → (chain N i).map g = descending N f₀ i) ∧
        ((List.range' 1 N).map g).Perm ((List.range' 1 N).map f) := by
  intro k
  induction k with
  | zero =>
    intro f _ hchains _
    refine ⟨f, Ends.succ ?_, fun i hi => hchains i (by omega) (.inl hi), List.Perm.refl _⟩
    have hstop : ¬ ((0 : Nat) : Int) ≥ 1 := by omega
    simp only [buildLoop, if_neg hstop]
    exact Ends.pure _
  | succ k ih =>
    intro f hk hchains hkeep
    obtain ⟨g, hends, hchain, hother, hperm⟩ :=
      downheap_ends (N := N) (f := f) le_rfl (Nat.succ_pos k) hk
    have hfirst : (chain N (k + 1)).map g = descending N f₀ (k + 1) := by
      rw [hchain, hchains (2 * (k + 1)) (by omega) (.inr (by omega)), hkeep (k + 1) le_rfl,
        descending, descending, chain_cons (Nat.succ_pos k) hk, List.map_cons,
        List.insertionSort_cons]
    have hheads : ∀ i, k < i → (i % 2 = 1 ∨ i ≤ 2 * k + 1) →
        (chain N i).map g = descending N f₀ i := by
      intro i hi hhead
      by_cases hik : i = k + 1
      · rw [hik, hfirst]
      · have hhead' : i % 2 = 1 ∨ i < 2 * (k + 1) := hhead.imp_right (by omega)
        rw [← hchains i (by omega) (hhead.imp_right (by omega))]
        exact List.map_congr_left fun m hm =>
          hother m (chain_disjoint (Nat.succ_pos k) (by omega) hhead' hm)
    have hfront : ∀ i, i ≤ k → g i = f₀ i := by
      intro i hi
      rw [← hkeep i (by omega)]
      refine hother i fun hc => ?_
      have := (chain_le (Nat.succ_pos k) hc).1
      omega
    obtain ⟨r, hrest, hr, hpermr⟩ := ih (Nat.le_of_succ_le hk) hheads hfront
    refine ⟨r, Ends.succ ?_, hr, hpermr.trans (hperm N le_rfl)⟩
    have hgo : ((k + 1 : Nat) : Int) ≥ 1 := by omega
    have hnext : ((k + 1 : Nat) : Int) - 1 = k := by omega
    simp only [buildLoop, if_pos hgo, hnext]
    exact hends.bind hrest

/-- **The first loop of `heapsort`**: every chain is sorted, the greatest element first. -/
theorem build_ends (N : Nat) (f : Nat → Int) : ∃ g : Nat → Int,
    Ends (fun fuel => buildLoop N fuel (table N f) (N / 2)) (table N g) ∧
      (∀ i, i % 2 = 1 → (chain N i).map g = descending N f i) ∧
      ((List.range' 1 N).map g).Perm ((List.range' 1 N).map f) := by
  have hhalf : (N : Int) / 2 = ((N / 2 : Nat) : Int) := by omega
  rw [hhalf]
  refine buildLoop_ends (Nat.div_le_self N 2) (fun i hi _ => ?_) fun _ _ => rfl
  by_cases hN : i ≤ N
  · rw [descending, chain_cons (by omega) hN, chain_behind (by omega : N < 2 * i)]
    rfl
  · rw [descending, chain_behind (not_le.1 hN)]
    rfl

end

end HeapSort
