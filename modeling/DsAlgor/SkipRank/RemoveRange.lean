import DsAlgor.SkipRank.Sweep

/-!
# Removing a range of keys

`remove_in_range` gives up when `key_in_range` says that there is something to remove, and it takes
out the keys that `key_gte_min` and `key_lte_max` let pass. `removeInRange_iff` says when these are
the keys in the range.
-/

namespace SkipRank

open Circular

/-! ## The code -/

/-- The body of the loop of `remove_in_range`. -/
def rangeJudge (range : RangeSpec) (m : Mem) (pos : Link) (_ : Unit) : Verdict Unit :=
  if !keyLteMax (m.key pos.node) range then .stop
  else if keyGteMin (m.key pos.node) range then .remove
  else .keep ()

def removeInRange (l : Skiplist) (range : RangeSpec) : Except Fault (Skiplist × BitVec 32) :=
  if keyInRange l range then .ok (l, 0) else sweepList (rangeJudge range) l ()

/-! ## The keys that are taken out -/

/-- The body of the loop, by the key of the node. -/
def keyJudge (range : RangeSpec) (n : Node) (_ : Unit) : Verdict Unit :=
  if !keyLteMax n.key range then .stop
  else if keyGteMin n.key range then .remove
  else .keep ()

/-- The key passes both comparisons. -/
def passes (range : RangeSpec) (key : Int) : Bool := keyLteMax key range && keyGteMin key range

section
variable {range : RangeSpec} {M : List Node} {i : Nat}

/-- A loop over a level takes out nodes that pass, and stops before nodes that do not. -/
theorem sweepNodes_key (range : RangeSpec) (i : Nat) : ∀ {M : List Node}, M.Pairwise
    (·.key ≤ ·.key) → let r := sweepNodes (keyJudge range) i () M
    (∀ n ∈ r.rest, keyLteMax n.key range = false) ∧
      (∀ n ∈ r.kept, i < n.height → keyGteMin n.key range = false) ∧
      M.filter (fun n => !passes range n.key) =
        r.kept.filter (fun n => !passes range n.key) ++ r.rest
  | [], _ => ⟨nofun, nofun, rfl⟩
  | n :: M, h => by
    obtain ⟨hn, hM⟩ := List.pairwise_cons.1 h
    obtain ⟨hrest, hkept, hfilter⟩ := sweepNodes_key range i hM
    rw [sweepNodes]
    by_cases hlow : n.height ≤ i
    · rw [if_pos hlow]
      refine ⟨hrest, fun m hm hi => ?_, ?_⟩
      · cases List.mem_cons.1 hm with
        | inl he =>
          rw [he] at hi
          omega
        | inr hm => exact hkept m hm hi
      · rw [List.filter_cons, List.filter_cons, hfilter]
        split <;> rfl
    · rw [if_neg hlow]
      cases hlte : keyLteMax n.key range with
      | false =>
        have hall : ∀ m ∈ n :: M, keyLteMax m.key range = false := by
          intro m hm
          cases List.mem_cons.1 hm with
          | inl he => exact he ▸ hlte
          | inr hm =>
            by_contra hc
            rw [keyLteMax_mono (hn m hm) (eq_true_of_ne_false hc)] at hlte
            cases hlte
        have hjudge : keyJudge range n () = .stop := by simp [keyJudge, hlte]
        rw [hjudge]
        refine ⟨hall, fun m hm => absurd hm List.not_mem_nil, List.filter_eq_self.2 fun m hm => ?_⟩
        simp [passes, hall m hm]
      | true =>
        cases hgte : keyGteMin n.key range with
        | true =>
          have hjudge : keyJudge range n () = .remove := by simp [keyJudge, hlte, hgte]
          have hpass : ¬ (!passes range n.key) = true := by simp [passes, hlte, hgte]
          rw [hjudge, List.filter_cons, if_neg hpass]
          exact ⟨hrest, hkept, hfilter⟩
        | false =>
          have hjudge : keyJudge range n () = .keep () := by simp [keyJudge, hlte, hgte]
          have hpass : (!passes range n.key) = true := by simp [passes, hgte]
          rw [hjudge]
          refine ⟨hrest, fun m hm hi => ?_, ?_⟩
          · cases List.mem_cons.1 hm with
            | inl he => exact he ▸ hgte
            | inr hm => exact hkept m hm hi
          · rw [List.filter_cons, if_pos hpass, List.filter_cons, if_pos hpass, hfilter]
            rfl

/-- The nodes before one with a key that is too small do not pass. -/
theorem upTo_key (h : M.Pairwise (·.key ≤ ·.key))
    (hM : ∀ n ∈ M, i < n.height → keyGteMin n.key range = false) :
    (upTo i M).filter (fun n => !passes range n.key) = upTo i M := by
  have hpre : upTo i M <+: M := List.rdropWhile_prefix _ _
  have hs := h.sublist hpre.sublist
  cases (show StartsAt (upTo i M) i from (StartsAt.upTo (.inl rfl) M)) with
  | inl hnil =>
    rw [hnil]
    rfl
  | inr hlast =>
    obtain ⟨C, p, hC, hp⟩ := hlast
    rw [hC] at hs
    have hgte : keyGteMin p.key range = false := hM p (hpre.subset (by simp [hC])) hp
    rw [hC]
    refine List.filter_eq_self.2 fun n hn => ?_
    have hle : n.key ≤ p.key := by
      cases List.mem_append.1 hn with
      | inl hn => exact (List.pairwise_append.1 hs).2.2 n hn p (by simp)
      | inr hn => exact List.mem_singleton.1 hn ▸ le_rfl
    have hsmall : keyGteMin n.key range = false := by
      by_contra hc
      rw [keyGteMin_mono hle (eq_true_of_ne_false hc)] at hgte
      cases hgte
    simp [passes, hsmall]

theorem sweep_key : ∀ {i : Nat} {M : List Node}, M.Pairwise (·.key ≤ ·.key) →
    (∀ n ∈ M, 1 ≤ n.height ∧ n.height ≤ i) →
    (sweep (keyJudge range) i () M).1 = M.filter fun n => !passes range n.key
  | 0, M, _, hM => by
    have hnil : M = [] := List.eq_nil_iff_forall_not_mem.2 fun n hn => by
      have := hM n hn
      omega
    rw [hnil]
    rfl
  | i + 1, M, h, hM => by
    obtain ⟨-, hkept, hfilter⟩ := sweepNodes_key range i h
    have hsub := (sweepNodes_sublist (keyJudge range) i M ()).1
    have hsubkept := (List.sublist_append_left _ _).trans hsub
    have hbehind : behind i (sweepNodes (keyJudge range) i () M).kept <:+
        (sweepNodes (keyJudge range) i () M).kept := List.rtakeWhile_suffix _ _
    have hsubbehind := hbehind.sublist.trans hsubkept
    have ih := sweep_key (h.sublist hsubbehind) fun n hn =>
      ⟨(hM n (hsubbehind.subset hn)).1, mem_behind hn⟩
    rw [hfilter]
    conv_rhs => rw [← upTo_append_behind i (sweepNodes (keyJudge range) i () M).kept]
    rw [List.filter_append, upTo_key (h.sublist hsubkept) hkept, ← ih]
    rfl

end

section
variable {l : Skiplist} {S : List Node} {range : RangeSpec}

/-- The keys in the range are taken out. -/
abbrev RemovesRange (l : Skiplist) (range : RangeSpec) : Prop :=
  RemovesExactly l (removeInRange l range) fun p => range.Contains (l.mem.key p)

theorem passes_proper {k : Int} (h : range.Proper) (hk : passes range k = true) :
    range.Contains k := by
  obtain ⟨hlte, hgte⟩ := Bool.and_eq_true_iff.1 hk
  rw [keyLteMax_iff] at hlte
  rw [keyGteMin_iff] at hgte
  unfold RangeSpec.Proper at h
  unfold RangeSpec.Contains
  by_cases hmin : range.minex ≠ 0
  · rw [if_pos hmin] at hlte
    by_cases hmax : range.maxex ≠ 0
    · rw [if_pos hmax] at hgte
      omega
    · rw [if_neg hmax] at hgte
      omega
  · rw [if_neg hmin] at hlte ⊢
    by_cases hmax : range.maxex ≠ 0
    · rw [if_pos hmax] at hgte ⊢
      omega
    · rw [if_neg hmax] at hgte ⊢
      omega

theorem rangeJudge_local (range : RangeSpec) : Local (rangeJudge range) := by
  intro m m' q st hkey _
  unfold rangeJudge
  rw [hkey]

/-- **`remove_in_range`** is right on the keys that are neither in the range nor pass. -/
theorem Linked.removeInRange (h : Linked l S) : RemovesRange l range ↔
    ∀ n ∈ S, ¬ range.Contains n.key ∧ passes range n.key = false := by
  have hkeys : S.filter (fun n => !decide (range.Contains (l.mem.key n.ptr))) =
      S.filter fun n => !decide (range.Contains n.key) :=
    List.filter_congr fun n hn => by rw [h.key n hn]
  by_cases hin : keyInRange l range = true
  · have hproper := (h.keyInRange_iff.1 hin).1
    have hrun : SkipRank.removeInRange l range = .ok (l, BitVec.ofNat 32 0) := if_pos hin
    rw [RemovesRange, hrun, removesExactly_iff h h (List.Sublist.refl _) (Nat.add_zero _), hkeys]
    constructor
    · intro hS n hn
      rw [hS] at hn
      have hnot : ¬ range.Contains n.key := by simpa using (List.mem_filter.1 hn).2
      exact ⟨hnot, eq_false_of_ne_true fun hp => hnot (passes_proper hproper hp)⟩
    · intro hnone
      refine (List.filter_eq_self.2 fun n hn => ?_).symm
      simpa using (hnone n hn).1
  · obtain ⟨l', hrun, hl'⟩ := h.sweepList (keyJudge range) (rangeJudge_local range)
      (fun n hn _ => by
        unfold rangeJudge keyJudge
        rw [h.key n hn]) ()
    obtain ⟨hsub, hlen⟩ := sweep_sublist (keyJudge range) l.level S ()
    have hrun : SkipRank.removeInRange l range = _ := (if_neg hin).trans hrun
    rw [RemovesRange, hrun, removesExactly_iff h hl' hsub hlen, hkeys, sweep_key h.sorted h.height]
    constructor
    · intro hS n hn
      have hiff : n ∈ S.filter (fun n => !passes range n.key) ↔
          n ∈ S.filter fun n => !decide (range.Contains n.key) := by rw [hS]
      rw [List.mem_filter, List.mem_filter, and_iff_right hn, and_iff_right hn] at hiff
      -- a key that is in the range and passes would have made `key_in_range` true
      have hnot : ¬ (range.Contains n.key ∧ passes range n.key = true) := by
        intro hc
        obtain ⟨hlte, hgte⟩ := Bool.and_eq_true_iff.1 hc.2
        exact hin (h.keyInRange_iff.2 ⟨hc.1.proper, ⟨n, hn, hlte⟩, n, hn, hgte⟩)
      cases hp : passes range n.key with
      | true => simp_all
      | false => simp_all
    · intro hnone
      refine List.filter_congr fun n hn => ?_
      obtain ⟨h1, h2⟩ := hnone n hn
      simp [h1, h2]

end

end SkipRank
