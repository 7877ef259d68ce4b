import DsAlgor.BplusTree.Defs
import DsAlgor.Lib.Levels

/-!
# Searching in a node

`keyBinarySearch_eq`: on an array whose elements below `target` are the first `p`, the search
returns `p` if `target` is there and `-p - 1` if not. `keyBinarySearch_upper`: the child index that
search, insertion and deletion make of the result is the number of keys `≤ target`.
-/

namespace BplusTree

open CArray Levels

variable {arr : Nat → Int} {len p : Nat} {target k : Int} {n : NonLeaf}
  {I I₁ I₂ : List (Item Int Ptr)} {c : Item Int Ptr} {h : Heap}

/-- The loop keeps `low` on the elements below `target` and `high` past them. -/
theorem keyBinarySearchLoop_eq (hp : p ≤ len) (h : ∀ m < len, arr m < target ↔ m < p) :
    ∀ (fuel : Nat) (low high : Int), -1 ≤ low → low < p → p ≤ high → high ≤ len →
      high - low ≤ fuel → keyBinarySearchLoop arr target fuel low high = p
  | 0, low, high, _, _, _, _, _ => by omega
  | fuel + 1, low, high, h1, h2, h3, h4, h5 => by
    rw [keyBinarySearchLoop]
    split
    · have hm := h (low + (high - low) / 2).toNat (by omega)
      dsimp only
      split
      · exact keyBinarySearchLoop_eq hp h fuel _ high (by omega) (by omega) h3 h4 (by omega)
      · exact keyBinarySearchLoop_eq hp h fuel low _ h1 h2 (by omega) (by omega) (by omega)
    · omega

theorem keyBinarySearch_eq (hp : p ≤ len) (h : ∀ m < len, arr m < target ↔ m < p) :
    keyBinarySearch arr len target = if p < len ∧ arr p = target then (p : Int) else -p - 1 := by
  unfold keyBinarySearch
  rw [keyBinarySearchLoop_eq hp h (len + 1) (-1) len (by omega) (by omega) (by omega) le_rfl
    (by omega)]
  dsimp only
  rw [Int.toNat_natCast]
  by_cases hf : p < len ∧ arr p = target
  · rw [if_pos hf, if_neg (by rintro (h | h); exacts [by omega, h hf.2])]
  · rw [if_neg hf, if_pos]
    by_contra hc
    push Not at hc
    exact hf ⟨by omega, hc.2⟩

/-- A target that is not in the array. -/
theorem keyBinarySearch_absent (hp : p ≤ len) (h : ∀ m < len, arr m < target ↔ m < p)
    (hne : ∀ m < len, arr m ≠ target) : keyBinarySearch arr len target = -p - 1 := by
  rw [keyBinarySearch_eq hp h, if_neg fun hf => hne p hf.1 hf.2]

/-- The child index made of the result: the number of keys `≤ target`. -/
theorem keyBinarySearch_upper {q : Nat} (hq : q ≤ len)
    (hs : ∀ i j, i < j → j < len → arr i < arr j) (h : ∀ m < len, arr m ≤ target ↔ m < q) :
    (if keyBinarySearch arr len target ≥ 0 then (keyBinarySearch arr len target + 1).toNat
      else (-keyBinarySearch arr len target - 1).toNat) = q := by
  by_cases hf : 0 < q ∧ arr (q - 1) = target
  · have hlt : ∀ m < len, arr m < target ↔ m < q - 1 := by
      intro m hm
      constructor
      · intro hlt
        rcases Nat.lt_trichotomy m (q - 1) with h1 | h1 | h1
        · exact h1
        · rw [h1] at hlt; omega
        · have := hs _ _ h1 hm; omega
      · intro hmq
        have := hs m (q - 1) hmq (by omega)
        omega
    have he : keyBinarySearch arr len target = ((q - 1 : Nat) : Int) := by
      rw [keyBinarySearch_eq (by omega) hlt, if_pos ⟨by omega, hf.2⟩]
    rw [he, if_pos (by omega)]
    omega
  · have hlt : ∀ m < len, arr m < target ↔ m < q := by
      intro m hm
      refine ⟨fun hlt => (h m hm).1 hlt.le, fun hmq => ?_⟩
      refine lt_of_le_of_ne ((h m hm).2 hmq) fun he => ?_
      rcases Nat.lt_or_ge m (q - 1) with h1 | h1
      · have h2 := hs m (q - 1) h1 (by omega)
        have h3 := (h (q - 1) (by omega)).2 (by omega)
        omega
      · exact hf ⟨by omega, by rw [show q - 1 = m by omega]; exact he⟩
    have hne : ∀ m < len, arr m ≠ target := by
      intro m hm he
      have := (hlt m hm).2 ((h m hm).1 he.le)
      omega
    rw [keyBinarySearch_absent hq hlt hne, if_neg (by omega)]
    omega

/-! ## Inner nodes -/

/-- The arrays of an inner node hold the items of a group: `sub_ptr` its children, `key` the
separators between them. The separator on the left of the first child is not in the node. -/
structure Body (n : NonLeaf) (I : List (Item Int Ptr)) : Prop where
  children : n.children = I.length
  sub : Rep n.subPtr (I.map Prod.snd)
  key : Rep (fun j => (n.key j : WithBot Int)) (I.tail.map Prod.fst)

theorem Body.sub_at (h : Body n I) {j : Nat} (hc : I[j]? = some c) : n.subPtr j = c.2 :=
  h.sub.get (by rw [List.getElem?_map, hc, Option.map_some])

theorem Body.key_at (h : Body n I) {j : Nat} (hc : I[j + 1]? = some c) :
    (n.key j : WithBot Int) = c.1 :=
  h.key.get (by rw [List.getElem?_map, List.getElem?_tail, hc, Option.map_some])

theorem Body.key_lt (h : Body n I) {j : Nat} (hj : j + 1 < I.length) :
    ∃ c, I[j + 1]? = some c ∧ (n.key j : WithBot Int) = c.1 := by
  have hc := List.getElem?_eq_getElem hj
  exact ⟨_, hc, h.key_at hc⟩

theorem Sorted.lt (h : Sorted I) {i j : Nat} {d : Item Int Ptr} (hij : i < j)
    (hc : I[i]? = some c) (hd : I[j]? = some d) : c.1 < d.1 := by
  obtain ⟨hi, rfl⟩ := List.getElem?_eq_some_iff.1 hc
  obtain ⟨hj, rfl⟩ := List.getElem?_eq_some_iff.1 hd
  exact List.pairwise_iff_getElem.1 h i j hi hj hij

theorem Body.key_sorted (h : Body n I) (hs : Sorted I) (i j : Nat) (hij : i < j)
    (hj : j < n.children - 1) : n.key i < n.key j := by
  rw [h.children] at hj
  obtain ⟨c, hc, hci⟩ := h.key_lt (j := i) (by omega)
  obtain ⟨d, hd, hdj⟩ := h.key_lt (j := j) (by omega)
  have := Sorted.lt hs (by omega) hc hd
  rwa [← hci, ← hdj, WithBot.coe_lt_coe] at this

/-- The number of keys `≤ k` is the index of the child `k` belongs under. -/
theorem Body.key_le_iff (h : Body n (I₁ ++ c :: I₂)) (hl : Located k I₁ c I₂) (m : Nat)
    (hm : m < n.children - 1) : n.key m ≤ k ↔ m < I₁.length := by
  rw [h.children] at hm
  obtain ⟨d, hd, hk⟩ := h.key_lt (j := m) (by omega)
  rw [← WithBot.coe_le_coe, hk]
  rcases Nat.lt_trichotomy (m + 1) I₁.length with h1 | h1 | h1
  · rw [List.getElem?_append_left h1] at hd
    exact iff_of_true (hl.before d (List.mem_of_getElem? hd)) (by omega)
  · rw [List.getElem?_append_right h1.ge, h1, Nat.sub_self] at hd
    simp only [List.getElem?_cons_zero, Option.some.injEq] at hd
    subst hd
    exact iff_of_true hl.here (by omega)
  · rw [List.getElem?_append_right h1.le, show m + 1 - I₁.length = (m - I₁.length) + 1 by omega,
      List.getElem?_cons_succ] at hd
    exact iff_of_false (not_le.2 (hl.after d (List.mem_of_getElem? hd))) (by omega)

/-- **The child index** search, insertion and deletion compute. -/
theorem Body.search (h : Body n (I₁ ++ c :: I₂)) (hs : Sorted (I₁ ++ c :: I₂))
    (hl : Located k I₁ c I₂) : (if keyBinarySearch n.key (n.children - 1) k ≥ 0
      then (keyBinarySearch n.key (n.children - 1) k + 1).toNat
      else (-keyBinarySearch n.key (n.children - 1) k - 1).toNat) = I₁.length :=
  keyBinarySearch_upper (by rw [h.children]; simp) (h.key_sorted hs) (h.key_le_iff hl)

/-- The search for a key strictly between the separators around `c`. -/
theorem Body.search_absent (h : Body n (I₁ ++ c :: I₂)) (hl : Located k I₁ c I₂)
    (hne : ∀ d ∈ I₁ ++ c :: I₂, d.1 ≠ (k : WithBot Int)) :
    keyBinarySearch n.key (n.children - 1) k = -I₁.length - 1 := by
  have hk : ∀ m < n.children - 1, n.key m ≠ k := by
    intro m hm he
    rw [h.children] at hm
    obtain ⟨d, hd, hk⟩ := h.key_lt (j := m) (by omega)
    exact hne d (List.mem_of_getElem? hd) (by rw [← hk, he])
  refine keyBinarySearch_absent (by rw [h.children]; simp) (fun m hm => ?_) hk
  rw [← h.key_le_iff hl m hm]
  exact ⟨le_of_lt, fun hle => lt_of_le_of_ne hle (hk m hm)⟩

theorem childFor_eq {p : Ptr} (hb : Body (h.nonLeaf p) (I₁ ++ c :: I₂))
    (hs : Sorted (I₁ ++ c :: I₂)) (hl : Located k I₁ c I₂) : childFor h k p = c.2 := by
  have hi := hb.search hs hl
  unfold childFor
  dsimp only
  rw [← apply_ite (h.nonLeaf p).subPtr, hi]
  exact hb.sub_at (by simp)

/-- The search loop follows inner nodes and stops at a leaf. -/
theorem findLeaf_iterate : ∀ {n fuel : Nat} {p : Ptr},
    n < fuel → (∀ m < n, (childFor h k)^[m] p ≠ 0 ∧ h.type ((childFor h k)^[m] p) = .nonLeaf) →
    (childFor h k)^[n] p ≠ 0 → h.type ((childFor h k)^[n] p) = .leaf →
    findLeaf h k fuel p = .ok ((childFor h k)^[n] p)
  | 0, fuel + 1, p, _, _, h0, ht => by
    rw [findLeaf, if_neg (by simpa using h0)]
    simp only [Function.iterate_zero, id_eq] at ht ⊢
    rw [ht]
  | n + 1, fuel + 1, p, hf, hn, h0, ht => by
    have hp := hn 0 (by omega)
    simp only [Function.iterate_zero, id_eq] at hp
    rw [findLeaf, if_neg hp.1, hp.2]
    rw [Function.iterate_succ_apply] at h0 ht ⊢
    exact findLeaf_iterate (by omega)
      (fun m hm => by
        have := hn (m + 1) (by omega)
        rwa [Function.iterate_succ_apply] at this) h0 ht

end BplusTree
