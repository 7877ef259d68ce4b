import DsAlgor.Cuckoo.Table

/-!
# `cuckoo_hash_collide`

`Arranged n home t`: every entry of the table is at one of its places, and no two slots have the
same offset; `home` gives the hashes of the entry at an offset. A kick-out chain that passes through
no deleted slot (`kicksDeleted`) adds the new entry to such a table, and loses one entry when it
fails (`cuckooHashCollide_spec`).
-/

namespace Cuckoo

structure Arranged (n : Nat) (home : Nat → Nat × Nat) (t : HashTable) : Prop where
  shape : Shape t n
  fits : ∀ p < ASSOC_WAY * n, (t.slots p).status ≠ .availible →
    (p, (t.slots p).tag) ∈ places (home (t.slots p).offset).1 (home (t.slots p).offset).2
  inj : ∀ p < ASSOC_WAY * n, ∀ q < ASSOC_WAY * n, (t.slots p).status ≠ .availible →
    (t.slots q).status ≠ .availible → (t.slots p).offset = (t.slots q).offset → p = q

/-- An occupied slot has the offset. -/
def Occupies (t : HashTable) (n o : Nat) : Prop :=
  ∃ p < ASSOC_WAY * n, (t.slots p).status = .occupied ∧ (t.slots p).offset = o

/-- The deleted slots are the same. -/
def SameDeleted (n : Nat) (t t' : HashTable) : Prop :=
  ∀ p < ASSOC_WAY * n, ((t'.slots p).status = .deleted ↔ (t.slots p).status = .deleted) ∧
    ((t.slots p).status = .deleted → t'.slots p = t.slots p)

/-- The chain exchanges the entry of a deleted slot. -/
def kicksDeletedFrom : Nat → Kick → Bool
  | 0, _ => false
  | fuel + 1, s =>
    match kickOut s with
    | .ok (.inl s') => (s.table.slots s.victim).status = .deleted || kicksDeletedFrom fuel s'
    | _ => false

def kicksDeleted (t : HashTable) (tag0 tag1 offset : Nat) : Bool :=
  (t.slots (ASSOC_WAY * tag0)).status = .deleted ||
    kicksDeletedFrom (512 + ASSOC_WAY) (firstKick t tag0 tag1 offset)

/-! ## Writing a slot -/

section
variable {n : Nat} {home : Nat → Nat × Nat} {t : HashTable} {p o : Nat} {s : Slot}

/-- An entry that is in no slot comes to one of its places. -/
theorem Arranged.set (h : Arranged n home t) (hp : p < ASSOC_WAY * n)
    (hs : (p, s.tag) ∈ places (home s.offset).1 (home s.offset).2)
    (hnew : ∀ q < ASSOC_WAY * n, q ≠ p → (t.slots q).status ≠ .availible →
    (t.slots q).offset ≠ s.offset) :
    Arranged n home (t.set p s) := by
  refine ⟨h.shape.set p s, fun q hq hne => ?_, fun q hq r hr hqa hra he => ?_⟩
  · by_cases hqp : q = p
    · subst hqp
      rwa [set_slots_self]
    · rw [set_slots_of_ne hqp] at hne ⊢
      exact h.fits q hq hne
  · by_cases hqp : q = p
    · by_cases hrp : r = p
      · rw [hqp, hrp]
      · rw [set_slots_of_ne hrp] at hra he
        rw [hqp, set_slots_self] at he
        exact absurd he.symm (hnew r hr hrp hra)
    · rw [set_slots_of_ne hqp] at hqa he
      by_cases hrp : r = p
      · rw [hrp, set_slots_self] at he
        exact absurd he (hnew q hq hqp hqa)
      · rw [set_slots_of_ne hrp] at hra he
        exact h.inj q hq r hr hqa hra he

/-- The occupied slots after a free slot is taken. -/
theorem occupies_take (hp : p < ASSOC_WAY * n) (hfree : (t.slots p).status = .availible)
    (hs : s.status = .occupied) : Occupies (t.set p s) n o ↔ Occupies t n o ∨ o = s.offset := by
  constructor
  · rintro ⟨q, hq, hqs, hqo⟩
    by_cases hqp : q = p
    · subst hqp
      rw [set_slots_self] at hqo
      exact .inr hqo.symm
    · rw [set_slots_of_ne hqp] at hqs hqo
      exact .inl ⟨q, hq, hqs, hqo⟩
  · rintro (⟨q, hq, hqs, hqo⟩ | rfl)
    · have hqp : q ≠ p := by
        rintro rfl
        rw [hfree] at hqs
        cases hqs
      exact ⟨q, hq, by rw [set_slots_of_ne hqp, hqs], by rw [set_slots_of_ne hqp, hqo]⟩
    · exact ⟨p, hp, by rw [set_slots_self, hs], by rw [set_slots_self]⟩

theorem SameDeleted.refl (n : Nat) (t : HashTable) : SameDeleted n t t :=
  fun _ _ => ⟨Iff.rfl, fun _ => rfl⟩

theorem SameDeleted.trans {t' t'' : HashTable} (h : SameDeleted n t t')
    (h' : SameDeleted n t' t'') :
    SameDeleted n t t'' := by
  intro q hq
  obtain ⟨h1, h2⟩ := h q hq
  obtain ⟨h3, h4⟩ := h' q hq
  exact ⟨h3.trans h1, fun hd => (h4 (h1.2 hd)).trans (h2 hd)⟩

theorem SameDeleted.set (ht : (t.slots p).status ≠ .deleted) (hs : s.status ≠ .deleted) :
    SameDeleted n t (t.set p s) := by
  intro q _
  by_cases hqp : q = p
  · subst hqp
    rw [set_slots_self]
    exact ⟨iff_of_false hs ht, fun hd => absurd hd ht⟩
  · rw [set_slots_of_ne hqp]
    exact ⟨Iff.rfl, fun _ => rfl⟩

end

/-! ## The chain -/

/-- The new entry is the first one that is carried. -/
def startKick (t : HashTable) (tag0 tag1 offset : Nat) : Kick :=
  { table := t, oldTag := fun b => if b then tag1 else tag0, oldOffset := offset, offset, i := false
    k := 0, altCnt := 0 }

theorem startKick_victim {t : HashTable} {tag0 tag1 offset : Nat} :
    (startKick t tag0 tag1 offset).victim = ASSOC_WAY * tag0 := by
  simp [Kick.victim, startKick]

theorem startKick_swap {t : HashTable} {tag0 tag1 offset : Nat} :
    { (startKick t tag0 tag1 offset).swap with altCnt := 0 } = firstKick t tag0 tag1 offset := by
  simp only [Kick.swap, firstKick, startKick_victim]
  simp only [startKick, Kick.mk.injEq, Bool.not_false, and_true, true_and]
  refine ⟨rfl, ?_, by simp⟩
  funext b
  cases b <;> rfl

/-- The entry that is carried along: it is in no slot, and `oldTag` are its hashes. -/
structure KickOk (n : Nat) (home : Nat → Nat × Nat) (t : HashTable) (o : Nat) (s : Kick) :
    Prop where
  arranged : Arranged n home s.table
  same : SameDeleted n t s.table
  availible : ∀ p < ASSOC_WAY * n, (s.table.slots p).status = .availible →
    (t.slots p).status = .availible
  tags : home s.oldOffset = (s.oldTag s.i, s.oldTag !s.i) ∨
    home s.oldOffset = (s.oldTag !s.i, s.oldTag s.i)
  carried : ∀ p < ASSOC_WAY * n, (s.table.slots p).status ≠ .availible →
    (s.table.slots p).offset ≠ s.oldOffset
  occupies : ∀ x, (Occupies s.table n x ∨ x = s.oldOffset) ↔ Occupies t n x ∨ x = o
  offset : s.offset = o
  count : s.k = s.altCnt - 512 ∧ s.altCnt ≤ 515

/-- A table with the new entry, from which an entry may be lost. -/
structure CollidePost (n : Nat) (home : Nat → Nat × Nat) (t : HashTable) (o : Nat) (fail : Bool)
    (t' : HashTable) : Prop where
  arranged : Arranged n home t'
  same : SameDeleted n t t'
  availible : ∀ p < ASSOC_WAY * n, (t'.slots p).status = .availible →
    (t.slots p).status = .availible
  sub : ∀ x, Occupies t' n x → Occupies t n x ∨ x = o
  occupies : fail = false → ∀ x, Occupies t' n x ↔ Occupies t n x ∨ x = o

section
variable {n : Nat} {home : Nat → Nat × Nat} {t : HashTable} {o : Nat} {s : Kick}

theorem KickOk.tag_lt (h : KickOk n home t o s) (hh : ∀ x, (home x).1 < n ∧ (home x).2 < n)
    (b : Bool) :
    s.oldTag b < n := by
  have h1 := hh s.oldOffset
  have hb : b = s.i ∨ b = !s.i := by cases b <;> cases s.i <;> simp
  rcases h.tags with he | he <;> rw [he] at h1 <;> rcases hb with rfl | rfl
  · exact h1.1
  · exact h1.2
  · exact h1.2
  · exact h1.1

/-- A slot of the next bucket is a place of the entry. -/
theorem KickOk.place (h : KickOk n home t o s) {p : Nat} (hp : p / ASSOC_WAY = s.oldTag s.i) :
    (p, s.oldTag !s.i) ∈ places (home s.oldOffset).1 (home s.oldOffset).2 := by
  rw [mem_places]
  rcases h.tags with he | he <;> rw [he]
  · exact .inl ⟨hp, rfl⟩
  · exact .inr ⟨hp, rfl⟩

/-- The first free slot of a bucket. -/
theorem firstFree_bucket {tag b : Nat} {x : Nat × Nat}
    (hx : firstFree t ((List.range' (ASSOC_WAY * b) ASSOC_WAY).map (·, tag)) = some x) :
    x.1 / ASSOC_WAY = b ∧ x.2 = tag ∧ (t.slots x.1).status = .availible := by
  have hm := List.mem_of_find?_eq_some hx
  have hs := List.find?_some hx
  obtain ⟨p, hp, rfl⟩ := List.mem_map.1 hm
  rw [List.mem_range'_1, ASSOC_WAY] at hp
  refine ⟨?_, rfl, by simpa using hs⟩
  show p / ASSOC_WAY = b
  rw [ASSOC_WAY]
  omega

theorem KickOk.take (h : KickOk n home t o s) (hh : ∀ x, (home x).1 < n ∧ (home x).2 < n) {p : Nat}
    (hp : p / ASSOC_WAY = s.oldTag s.i) (hfree : (s.table.slots p).status = .availible) :
    CollidePost n home t o false
      (s.table.set p ⟨toTag (s.oldTag !s.i), .occupied, s.oldOffset⟩) := by
  have hb := h.tag_lt hh s.i
  have hpn : p < ASSOC_WAY * n := by
    rw [ASSOC_WAY] at hp ⊢
    omega
  have hsd : SameDeleted n t (s.table.set p ⟨toTag (s.oldTag !s.i), .occupied, s.oldOffset⟩) :=
    h.same.trans (SameDeleted.set (by rw [hfree]; decide) (by simp))
  have hocc : ∀ x, Occupies (s.table.set p ⟨toTag (s.oldTag !s.i), .occupied, s.oldOffset⟩) n x ↔
      Occupies t n x ∨ x = o := fun x => (occupies_take hpn hfree rfl).trans (h.occupies x)
  refine ⟨h.arranged.set hpn ?_ fun q hq _ hqa => h.carried q hq hqa, hsd, fun q hq hqa => ?_,
    fun x => (hocc x).1, fun _ => hocc⟩
  · rw [h.arranged.shape.toTag_eq (h.tag_lt hh _)]
    exact h.place hp
  · by_cases hqp : q = p
    · rw [hqp, set_slots_self] at hqa
      cases hqa
    · rw [set_slots_of_ne hqp] at hqa
      exact h.availible q hq hqa

/-- The victim index moves only after 512 rounds. -/
theorem count_step {k alt : Nat} (h : k = alt - 512 ∧ alt ≤ 515)
    (hgo : ¬ (alt + 1 > 512 ∧ k = ASSOC_WAY - 1)) :
    (if alt + 1 > 512 then k + 1 else k) = alt + 1 - 512 ∧ alt + 1 ≤ 515 := by
  rw [ASSOC_WAY] at hgo
  by_cases hlate : alt + 1 > 512
  · rw [if_pos hlate]
    constructor <;> omega
  · rw [if_neg hlate]
    constructor <;> omega

/-- The exchange with an occupied slot. -/
theorem KickOk.swap (h : KickOk n home t o s) (hh : ∀ x, (home x).1 < n ∧ (home x).2 < n)
    (hv : s.victim / ASSOC_WAY = s.oldTag s.i) (hocc : (s.table.slots s.victim).status = .occupied)
    (hgo : ¬ (s.altCnt + 1 > 512 ∧ s.k = ASSOC_WAY - 1)) : KickOk n home t o s.swap := by
  have hb := h.tag_lt hh s.i
  have hvn : s.victim < ASSOC_WAY * n := by
    rw [ASSOC_WAY] at hv ⊢
    omega
  have hne : (s.table.slots s.victim).status ≠ .availible := by
    rw [hocc]
    decide
  have htag : toTag (s.oldTag !s.i) = s.oldTag !s.i := h.arranged.shape.toTag_eq (h.tag_lt hh _)
  have hslot : ∀ q, q ≠ s.victim → s.swap.table.slots q = s.table.slots q :=
    fun q hq => set_slots_of_ne hq
  have hself : s.swap.table.slots s.victim =
      ⟨s.oldTag !s.i, .occupied, s.oldOffset⟩ := by
    show (s.table.set _ _).slots _ = _
    rw [set_slots_self, htag, ← hocc]
  refine ⟨?_, ?_, fun q hq hqa => ?_, ?_, fun q hq hqa => ?_, fun x => ?_, h.offset, ?_⟩
  · show Arranged n home (s.table.set _ _)
    refine h.arranged.set hvn ?_ fun q hq _ hqa => h.carried q hq hqa
    show (s.victim, toTag _) ∈ _
    rw [htag]
    exact h.place hv
  · refine h.same.trans (SameDeleted.set (by rw [hocc]; decide) ?_)
    show (s.table.slots s.victim).status ≠ .deleted
    rw [hocc]
    decide
  · by_cases hqv : q = s.victim
    · rw [hqv, hself] at hqa
      cases hqa
    · rw [hslot q hqv] at hqa
      exact h.availible q hq hqa
  · -- the victim's entry was at a place of its own
    have hfit := h.arranged.fits s.victim hvn hne
    rw [mem_places] at hfit
    have htags : s.swap.oldTag s.swap.i = (s.table.slots s.victim).tag ∧
        s.swap.oldTag (!s.swap.i) = s.victim / ASSOC_WAY := by
      refine ⟨Function.update_self _ _ _, ?_⟩
      rw [hv]
      show Function.update s.oldTag (!s.i) _ (!!s.i) = _
      rw [Bool.not_not]
      exact Function.update_of_ne (by cases s.i <;> decide) _ _
    rw [htags.1, htags.2]
    show home (s.table.slots s.victim).offset = _ ∨ _
    rcases hfit with ⟨h1, h2⟩ | ⟨h1, h2⟩
    · exact .inr (Prod.ext h1.symm h2.symm)
    · exact .inl (Prod.ext h2.symm h1.symm)
  · show (s.swap.table.slots q).offset ≠ (s.table.slots s.victim).offset
    by_cases hqv : q = s.victim
    · rw [hqv, hself]
      exact (h.carried s.victim hvn hne).symm
    · rw [hslot q hqv] at hqa ⊢
      exact fun he => hqv (h.arranged.inj q hq s.victim hvn hqa hne he)
  · rw [← h.occupies x]
    constructor
    · rintro (⟨q, hq, hqs, rfl⟩ | rfl)
      · by_cases hqv : q = s.victim
        · rw [hqv, hself]
          exact .inr rfl
        · rw [hslot q hqv] at hqs ⊢
          exact .inl ⟨q, hq, hqs, rfl⟩
      · exact .inl ⟨s.victim, hvn, hocc, rfl⟩
    · rintro (⟨q, hq, hqs, rfl⟩ | rfl)
      · by_cases hqv : q = s.victim
        · exact .inr (by rw [hqv]; rfl)
        · exact .inl ⟨q, hq, by rw [hslot q hqv, hqs], by rw [hslot q hqv]⟩
      · exact .inl ⟨s.victim, hvn, by rw [hself], by rw [hself]⟩
  · exact count_step h.count hgo

/-- A bucket without a free slot. -/
theorem firstFree_bucket_none {tag b p : Nat}
    (hx : firstFree t ((List.range' (ASSOC_WAY * b) ASSOC_WAY).map (·, tag)) = none)
    (hp : p / ASSOC_WAY = b) : (t.slots p).status ≠ .availible := by
  have hm : (p, tag) ∈ (List.range' (ASSOC_WAY * b) ASSOC_WAY).map (·, tag) := by
    refine List.mem_map_of_mem ?_
    rw [ASSOC_WAY] at hp
    rw [List.mem_range'_1, ASSOC_WAY]
    omega
  simpa using List.find?_eq_none.1 hx _ hm

/-- The slot of the victim is in the bucket, unless the chain gives up. -/
theorem Kick.victim_bucket {s : Kick} (hcount : s.k = s.altCnt - 512 ∧ s.altCnt ≤ 515)
    (hgive : ¬ (s.altCnt + 1 > 512 ∧ s.k = ASSOC_WAY - 1)) :
    s.victim / ASSOC_WAY = s.oldTag s.i := by
  rw [Kick.victim]
  rw [ASSOC_WAY] at hgive ⊢
  by_cases hlate : s.altCnt + 1 > 512
  · rw [if_pos hlate]
    omega
  · rw [if_neg hlate]
    omega

/-- One round: the entry finds a slot, the chain gives up, or it goes on with the victim's entry. -/
theorem KickOk.kickOut (h : KickOk n home t o s) (ho : o ≠ INVALID_OFFSET)
    (hh : ∀ x, (home x).1 < n ∧ (home x).2 < n) :
    (∃ t', Cuckoo.kickOut s = .ok (.inr (false, t', o)) ∧ CollidePost n home t o false t') ∨
      (Cuckoo.kickOut s = .ok (.inr (true, s.table, o)) ∧ CollidePost n home t o true s.table) ∨
      (Cuckoo.kickOut s = .ok (.inl s.swap) ∧
        ((s.table.slots s.victim).status ≠ .deleted → KickOk n home t o s.swap)) := by
  have hbucket := h.arranged.shape.bucket (h.tag_lt hh s.i)
  simp only [Cuckoo.kickOut, hbucket, bind, Except.bind, takeSlot_eq (h.offset ▸ ho)]
  cases hfree : firstFree s.table ((List.range' (ASSOC_WAY * s.oldTag s.i) ASSOC_WAY).map
    (·, s.oldTag !s.i)) with
  | some x =>
    obtain ⟨hx, hxt, hxs⟩ := firstFree_bucket hfree
    refine .inl ⟨_, ?_, h.take hh hx hxs⟩
    rw [← hxt, h.offset]
    rfl
  | none =>
    by_cases hgive : s.altCnt + 1 > 512 ∧ s.k = ASSOC_WAY - 1
    · refine .inr (.inl ⟨?_, h.arranged, h.same, h.availible, fun x hx =>
        (h.occupies x).1 (.inl hx), by simp⟩)
      rw [← h.offset]
      exact if_pos hgive
    · have hv := Kick.victim_bucket h.count hgive
      refine .inr (.inr ⟨if_neg hgive, fun hd => h.swap hh hv ?_ hgive⟩)
      have hne := firstFree_bucket_none hfree hv
      cases hst : (s.table.slots s.victim).status with
      | availible => exact absurd hst hne
      | occupied => rfl
      | deleted => exact absurd hst hd

theorem kickLoop_spec (ho : o ≠ INVALID_OFFSET) (hh : ∀ x, (home x).1 < n ∧ (home x).2 < n) :
    ∀ (fuel : Nat) (s : Kick), KickOk n home t o s → s.altCnt + fuel = 516 →
    kicksDeletedFrom fuel s = false →
    ∃ fail t', kickLoop fuel s = .ok (fail, t', o) ∧ CollidePost n home t o fail t'
  | 0, s, h, hf, _ => by
    -- the chain gives up before
    have := h.count.2
    omega
  | fuel + 1, s, h, hf, hk => by
    rcases h.kickOut ho hh with ⟨t', hrun, hpost⟩ | ⟨hrun, hpost⟩ | ⟨hrun, hnext⟩
    · refine ⟨false, t', ?_, hpost⟩
      simp only [kickLoop, hrun, bind, Except.bind, pure, Except.pure]
    · refine ⟨true, s.table, ?_, hpost⟩
      simp only [kickLoop, hrun, bind, Except.bind, pure, Except.pure]
    · simp only [kicksDeletedFrom, hrun, Bool.or_eq_false_iff, decide_eq_false_iff_not] at hk
      obtain ⟨fail, t', hrun', hpost⟩ := kickLoop_spec ho hh fuel s.swap (hnext hk.1) (by
        show s.altCnt + 1 + fuel = 516
        omega) hk.2
      refine ⟨fail, t', ?_, hpost⟩
      simp only [kickLoop, hrun, bind, Except.bind]
      exact hrun'

/-- **`cuckoo_hash_collide`** of an entry whose buckets are full. -/
theorem cuckooHashCollide_spec (h : Arranged n home t) (ho : o ≠ INVALID_OFFSET)
    (hh : ∀ x, (home x).1 < n ∧ (home x).2 < n)
    (hfull : ∀ p, p / ASSOC_WAY = (home o).1 → (t.slots p).status ≠ .availible)
    (hnew : ∀ p < ASSOC_WAY * n, (t.slots p).status ≠ .availible → (t.slots p).offset ≠ o)
    (hk : kicksDeleted t (home o).1 (home o).2 o = false) :
    ∃ fail t', cuckooHashCollide t (home o).1 (home o).2 o = .ok (fail, t', o) ∧
      CollidePost n home t o fail t' := by
  simp only [kicksDeleted, Bool.or_eq_false_iff, decide_eq_false_iff_not] at hk
  have hp0 : ASSOC_WAY * (home o).1 / ASSOC_WAY = (home o).1 :=
    Nat.mul_div_cancel_left _ (by decide)
  have hocc : (t.slots (ASSOC_WAY * (home o).1)).status = .occupied := by
    cases hst : (t.slots (ASSOC_WAY * (home o).1)).status with
    | availible => exact absurd hst (hfull _ hp0)
    | occupied => rfl
    | deleted => exact absurd hst hk.1
  have hp0n : ASSOC_WAY * (home o).1 < ASSOC_WAY * n :=
    Nat.mul_lt_mul_of_pos_left (hh o).1 (by decide)
  have hne : (t.slots (ASSOC_WAY * (home o).1)).status ≠ .availible := hfull _ hp0
  have hstart : KickOk n home t o (startKick t (home o).1 (home o).2 o) :=
    ⟨h, SameDeleted.refl n t, fun _ _ => id, .inl rfl, hnew, fun _ => Iff.rfl, rfl,
      by simp [startKick]⟩
  have hswap := hstart.swap hh (by rw [startKick_victim, hp0]; rfl)
    (by rw [startKick_victim]; exact hocc) (by simp [startKick])
  have hkick : KickOk n home t o (firstKick t (home o).1 (home o).2 o) := by
    rw [← startKick_swap]
    exact { hswap with count := by simp [Kick.swap, startKick] }
  obtain ⟨fail, t', hrun, hpost⟩ := kickLoop_spec ho hh (512 + ASSOC_WAY) _ hkick rfl hk.2
  refine ⟨fail, t', ?_, hpost⟩
  rw [cuckooHashCollide, h.shape.bucket (hh o).1]
  exact hrun

end

end Cuckoo
