import DsAlgor.Cuckoo.Address

/-!
# Failure paths of `cuckoo_filter_put`

A put that does not get what it asks for leaves the store broken (`failed_put_not_intact`). Without
room in the log it has taken a slot before it finds out, which stays occupied with `INVALID_OFFSET`:
through any kick-out chain, since the new entry can only be carried while the chain kicks first
slots (`Marked.kickLoop`). Without memory for a larger table, `slot_num` is doubled and the slots
are the old ones (`Doubled`).
-/

namespace Cuckoo

/-! ## What should hold -/

/-- The counts are those of the arrays. -/
def Consistent (t : HashTable) : Prop :=
  t.slotsLen = t.slotNum ∧ t.bucketsLen = t.bucketNum ∧ t.slotNum = ASSOC_WAY * t.bucketNum

/-- The store after a failed put. -/
structure Intact (st st' : State) : Prop where
  consistent : Consistent st'.table
  written : ∀ p < st'.table.slotsLen, (st'.table.slots p).status = .occupied →
    ∃ e < st'.logEntries, (st'.table.slots p).offset = e * SECTOR_SIZE
  gets : ∀ key, cuckooFilterGet st' key = cuckooFilterGet st key

/-- The states of a run, whatever the allocations in it do. -/
inductive Reachable : State → Prop
  | init (size : Nat) (flash : Nat → LogEntry) : Reachable (cuckooFilterInit size flash)
  | put {st st' : State} {key : Key} {value : Option Data} {alloc : Alloc} {fs : List Failure}
    (h : Reachable st) (hrun : cuckooFilterPut st key value alloc = .ok (fs, st')) : Reachable st'

/-! ## The slot without an entry -/

/-- An occupied slot without an offset. -/
def Marked (t : HashTable) : Prop :=
  ∃ p < t.slotsLen, (t.slots p).status = .occupied ∧ (t.slots p).offset = INVALID_OFFSET

/-- The new entry in a chain: among the first slots of its bucket, or carried along by a chain that
kicks first slots. -/
def MarkedKick (s : Kick) : Prop :=
  (∃ p < s.table.slotsLen, p % ASSOC_WAY ≤ s.k ∧ (s.table.slots p).status = .occupied ∧
    (s.table.slots p).offset = INVALID_OFFSET) ∨
  s.k = 0 ∧ s.oldOffset = INVALID_OFFSET

section
variable {t : HashTable} {s : Kick} {key : Key}

theorem bucket_ok {tag : Nat} {ps : List Nat} (h : t.bucket tag = .ok ps) :
    ps = List.range' (ASSOC_WAY * tag) ASSOC_WAY ∧ ASSOC_WAY * tag + ASSOC_WAY ≤ t.slotsLen := by
  unfold HashTable.bucket at h
  split at h
  next hin =>
    cases h
    exact ⟨rfl, hin.2⟩
  next => cases h

/-- The slot that is taken without an offset: a deleted one, or a free one. -/
theorem takeSlot_invalid {tag o' : Nat} {ps : List Nat} {r : HashTable × Nat}
    (h : takeSlot t tag o' INVALID_OFFSET ps = some r) :
    ∃ p ∈ ps, (t.slots p).status ≠ .occupied ∧
      (r = (t.set p { t.slots p with status := .occupied, tag := toTag tag }, (t.slots p).offset) ∨
        r = (t.set p ⟨toTag tag, .occupied, o'⟩, INVALID_OFFSET)) := by
  induction ps with
  | nil => cases h
  | cons p ps ih =>
    rw [takeSlot] at h
    split at h
    next hdel =>
      cases h
      exact ⟨p, by simp, by rw [hdel.2]; decide, .inl rfl⟩
    next =>
      split at h
      next hav =>
        cases h
        exact ⟨p, by simp, by rw [hav]; decide, .inr rfl⟩
      next =>
        obtain ⟨q, hq, hrest⟩ := ih h
        exact ⟨q, List.mem_cons_of_mem _ hq, hrest⟩

/-- No slot is taken: all are occupied. -/
theorem takeSlot_invalid_none {tag o' : Nat} {ps : List Nat}
    (h : takeSlot t tag o' INVALID_OFFSET ps = none) :
    ∀ p ∈ ps, (t.slots p).status = .occupied := by
  induction ps with
  | nil => simp
  | cons p ps ih =>
    rw [takeSlot] at h
    split at h
    next => cases h
    next hdel =>
      split at h
      next => cases h
      next hav =>
        intro q hq
        rcases List.mem_cons.1 hq with rfl | hq
        · cases hs : (t.slots q).status with
          | availible => exact absurd hs hav
          | occupied => rfl
          | deleted => exact absurd ⟨rfl, hs⟩ hdel
        · exact ih h q hq

/-- A slot of a bucket. -/
theorem mem_bucket {b p : Nat} : p ∈ List.range' (ASSOC_WAY * b) ASSOC_WAY ↔
    ∃ j < ASSOC_WAY, p = ASSOC_WAY * b + j := by
  rw [List.mem_range'_1]
  constructor
  · intro h
    exact ⟨p - ASSOC_WAY * b, by omega, by omega⟩
  · rintro ⟨j, hj, rfl⟩
    omega

/-- The exchange keeps track of the new entry. -/
theorem MarkedKick.swap (h : MarkedKick s) (hk : s.k = s.altCnt - 512)
    (hv : s.victim < s.table.slotsLen) (hvm : s.victim % ASSOC_WAY = s.swap.k)
    (hocc : (s.table.slots s.victim).status = .occupied) : MarkedKick s.swap := by
  have hself : s.swap.table.slots s.victim =
      { s.table.slots s.victim with tag := toTag (s.oldTag !s.i), offset := s.oldOffset } :=
          set_slots_self
  have hother : ∀ q, q ≠ s.victim → s.swap.table.slots q = s.table.slots q :=
    fun q hq => set_slots_of_ne hq
  have hle : s.k ≤ s.swap.k := by
    show s.k ≤ if s.altCnt + 1 > 512 then s.k + 1 else s.k
    split <;> omega
  rcases h with ⟨p, hp, hpk, hps, hpo⟩ | ⟨hk0, ho⟩
  · by_cases hpv : p = s.victim
    · -- only a first slot is kicked again
      have hsk : s.swap.k = 0 := by
        have hsk : s.swap.k = if s.altCnt + 1 > 512 then s.k + 1 else s.k := rfl
        rw [← hvm, ← hpv]
        rw [← hpv] at hvm
        split at hsk <;> omega
      refine .inr ⟨hsk, ?_⟩
      show (s.table.slots s.victim).offset = _
      rw [← hpv, hpo]
    · refine .inl ⟨p, hp, hpk.trans hle, ?_, ?_⟩
      · rw [hother p hpv, hps]
      · rw [hother p hpv, hpo]
  · refine .inl ⟨s.victim, hv, hvm.le, ?_, ?_⟩
    · rw [hself]
      exact hocc
    · rw [hself]
      exact ho

theorem MarkedKick.kickLoop : ∀ (fuel : Nat) (s : Kick), MarkedKick s → s.offset = INVALID_OFFSET →
    s.k = s.altCnt - 512 ∧ s.altCnt ≤ 515 →
    OnOk (Cuckoo.kickLoop fuel s) fun r => r.2.2 = INVALID_OFFSET → Marked r.2.1
  | 0, _, _, _, _ => trivial
  | fuel + 1, s, h, ho, hk => by
    simp only [Cuckoo.kickLoop, kickOut]
    cases hb : s.table.bucket (s.oldTag s.i) with
    | error e => trivial
    | ok ps =>
      obtain ⟨rfl, hlen⟩ := bucket_ok hb
      simp only [bind, Except.bind, ho]
      cases htake : takeSlot s.table (s.oldTag !s.i) s.oldOffset INVALID_OFFSET
          (List.range' (ASSOC_WAY * s.oldTag s.i) ASSOC_WAY) with
      | some r =>
        obtain ⟨p, hp, hps, hr⟩ := takeSlot_invalid htake
        obtain ⟨j, hj, rfl⟩ := mem_bucket.1 hp
        have hplt : ASSOC_WAY * s.oldTag s.i + j < s.table.slotsLen := by omega
        rcases hr with rfl | rfl
        · -- a deleted slot that has no offset either
          intro hoff
          exact ⟨_, hplt, by rw [set_slots_self], by rw [set_slots_self]; exact hoff⟩
        · intro _
          rcases h with ⟨q, hq, -, hqs, hqo⟩ | ⟨-, hold⟩
          · have hne : q ≠ ASSOC_WAY * s.oldTag s.i + j := by
              rintro rfl
              exact hps hqs
            exact ⟨q, hq, by rw [set_slots_of_ne hne, hqs], by rw [set_slots_of_ne hne, hqo]⟩
          · exact ⟨_, hplt, by rw [set_slots_self], by rw [set_slots_self, hold]⟩
      | none =>
        simp only
        by_cases hgive : s.altCnt + 1 > 512 ∧ s.k = ASSOC_WAY - 1
        · rw [if_pos hgive]
          intro _
          rcases h with ⟨q, hq, -, hqs, hqo⟩ | ⟨hk0, -⟩
          · exact ⟨q, hq, hqs, hqo⟩
          · have := hgive.2
            rw [ASSOC_WAY] at this
            omega
        · rw [if_neg hgive]
          have hcount : s.swap.k = s.swap.altCnt - 512 ∧ s.swap.altCnt ≤ 515 := count_step hk hgive
          have hvic : s.victim = ASSOC_WAY * s.oldTag s.i + s.swap.k := rfl
          have hlt : s.swap.k < ASSOC_WAY := by
            rw [hcount.1, ASSOC_WAY]
            omega
          refine kickLoop fuel s.swap (h.swap hk.1 ?_ ?_ ?_) ho hcount
          · omega
          · rw [hvic, Nat.mul_add_mod]
            exact Nat.mod_eq_of_lt hlt
          · exact takeSlot_invalid_none htake _ (mem_bucket.2 ⟨_, hlt, hvic⟩)

/-- **`cuckoo_hash_put` without an offset** that gets none on the way. -/
theorem cuckooHashPut_marked (t : HashTable) (key : Key) :
    OnOk (cuckooHashPut t key INVALID_OFFSET) fun r => r.2.2 = INVALID_OFFSET → Marked r.2.1 := by
  have htaken : ∀ {tag b : Nat} {r : HashTable × Nat}, ASSOC_WAY * b + ASSOC_WAY ≤ t.slotsLen →
      takeSlot t tag INVALID_OFFSET INVALID_OFFSET (List.range' (ASSOC_WAY * b) ASSOC_WAY) =
      some r →
      r.2 = INVALID_OFFSET → Marked r.1 := by
    intro tag b r hlen htake ho
    obtain ⟨p, hp, -, hr⟩ := takeSlot_invalid htake
    obtain ⟨j, hj, rfl⟩ := mem_bucket.1 hp
    have hlt : ASSOC_WAY * b + j < t.slotsLen := by omega
    rcases hr with rfl | rfl
    · exact ⟨ASSOC_WAY * b + j, hlt, by rw [set_slots_self], by rw [set_slots_self]; exact ho⟩
    · exact ⟨ASSOC_WAY * b + j, hlt, by rw [set_slots_self], by rw [set_slots_self]⟩
  simp only [cuckooHashPut]
  cases hb₀ : t.bucket (cuckooHashLsb key t.bucketNum) with
  | error e => trivial
  | ok ps =>
    obtain ⟨rfl, hlen₀⟩ := bucket_ok hb₀
    simp only [bind, Except.bind]
    cases htake₀ : takeSlot t (cuckooHashMsb key t.bucketNum) INVALID_OFFSET INVALID_OFFSET
        (List.range' (ASSOC_WAY * cuckooHashLsb key t.bucketNum) ASSOC_WAY) with
    | some r => exact htaken hlen₀ htake₀
    | none =>
      simp only
      cases hb₁ : t.bucket (cuckooHashMsb key t.bucketNum) with
      | error e => trivial
      | ok ps =>
        obtain ⟨rfl, hlen₁⟩ := bucket_ok hb₁
        simp only
        cases htake₁ : takeSlot t (cuckooHashLsb key t.bucketNum) INVALID_OFFSET INVALID_OFFSET
            (List.range' (ASSOC_WAY * cuckooHashMsb key t.bucketNum) ASSOC_WAY) with
        | some r => exact htaken hlen₁ htake₁
        | none =>
          simp only [cuckooHashCollide, hb₀, bind, Except.bind]
          have hfirst : (t.slots (ASSOC_WAY * cuckooHashLsb key t.bucketNum)).status = .occupied :=
            takeSlot_invalid_none htake₀ _ (mem_bucket.2 ⟨0, by decide, rfl⟩)
          refine MarkedKick.kickLoop _ _
            (.inl ⟨ASSOC_WAY * cuckooHashLsb key t.bucketNum, ?_, ?_, ?_, ?_⟩) rfl
            ⟨(Nat.zero_sub 512).symm, Nat.zero_le _⟩
          · show _ < t.slotsLen
            rw [ASSOC_WAY] at hlen₀ ⊢
            omega
          · rw [Nat.mul_mod_right]
            exact Nat.zero_le _
          · show ((t.set _ _).slots _).status = _
            rw [set_slots_self]
            exact hfirst
          · show ((t.set _ _).slots _).offset = _
            rw [set_slots_self]

end

/-! ## The size of the arrays -/

/-- The slots are as many as some earlier value of `slot_num`, which is a power of two or has
wrapped. -/
def Sized (t : HashTable) : Prop := t.slotsLen = 0 ∨ ∃ a i, t.slotsLen = 2 ^ a ∧ t.slotNum = 2 ^
    (a + i) % 2 ^ 32

section
variable {t t' : HashTable} {st : State}

theorem Sized.counts (h : Sized t) (hc : SameCounts t t') : Sized t' := by
  rw [Sized, hc.1, hc.2.2.1]
  exact h

theorem double_pow (a i : Nat) : 2 ^ (a + i) % 2 ^ 32 * 2 % 2 ^ 32 = 2 ^
    (a + (i + 1)) % 2 ^ 32 := by
  rw [Nat.mod_mul_mod, ← Nat.pow_succ]
  rfl

/-- A rehash without memory: `slot_num` has left the size of the array behind. -/
theorem Sized.doubled (h : Sized t) (hpos : 0 < t.slotsLen) (h' : t'.slotsLen = t.slotsLen)
    (hnum : t'.slotNum = t.slotNum * 2 % 2 ^ 32) : Sized t' ∧ t'.slotsLen ≠ t'.slotNum := by
  rcases h with h0 | ⟨a, i, ha, hi⟩
  · omega
  · rw [hi, double_pow] at hnum
    refine ⟨.inr ⟨a, i + 1, h'.trans ha, hnum⟩, ?_⟩
    rw [h', ha, hnum]
    by_cases hsmall : a + (i + 1) < 32
    · rw [Nat.mod_eq_of_lt (Nat.pow_lt_pow_right (by decide) hsmall)]
      exact Nat.ne_of_lt (Nat.pow_lt_pow_right (by decide) (by omega))
    · rw [Nat.mod_eq_zero_of_dvd (Nat.pow_dvd_pow 2 (by omega))]
      exact Nat.ne_of_gt (Nat.two_pow_pos a)

theorem Sized.grown (h : Sized t) (hpos : 0 < t.slotsLen) : Sized (grown t) := by
  rcases h with h0 | ⟨a, i, -, hi⟩
  · omega
  · by_cases hsmall : a + (i + 1) < 32
    · have hlt : 2 ^ (a + (i + 1)) < 2 ^ 32 := Nat.pow_lt_pow_right (by decide) hsmall
      have hnum : (Cuckoo.grown t).slotNum = 2 ^ (a + (i + 1)) % 2 ^ 32 := by
        rw [← double_pow, ← hi]
        rfl
      exact .inr ⟨a + (i + 1), 0, hnum.trans (Nat.mod_eq_of_lt hlt), hnum⟩
    · refine .inl ?_
      show t.slotNum * 2 % 2 ^ 32 = 0
      rw [hi, double_pow, Nat.mod_eq_zero_of_dvd (Nat.pow_dvd_pow 2 (by omega))]

/-- A put that returns has found a slot. -/
theorem cuckooHashPut_pos (t : HashTable) (key : Key) (o : Nat) :
    OnOk (cuckooHashPut t key o) fun _ => 0 < t.slotsLen := by
  simp only [cuckooHashPut]
  cases hb : t.bucket (cuckooHashLsb key t.bucketNum) with
  | error e => trivial
  | ok ps =>
    obtain ⟨-, hlen⟩ := bucket_ok hb
    rw [ASSOC_WAY] at hlen
    exact OnOk.intro fun _ _ => by omega

/-! ## Puts -/

/-- What is left of a rehash: an array whose size is not its count, when it has failed. -/
theorem Sized.cuckooRehash (h : Sized st.table) (hpos : 0 < st.table.slotsLen) (alloc : Alloc) :
    OnOk (Cuckoo.cuckooRehash st alloc) fun r => Sized r.2 ∧
      (r.1 ≠ none → r.2.slotsLen ≠ r.2.slotNum) := by
  rw [Cuckoo.cuckooRehash]
  split
  · obtain ⟨h1, h2⟩ :=
      @Sized.doubled st.table { st.table with slotNum := st.table.slotNum * 2 % 2 ^ 32 }
      h hpos rfl rfl
    exact ⟨h1, fun _ => h2⟩
  · split
    · obtain ⟨h1, h2⟩ := @Sized.doubled st.table { st.table with
        slotNum := st.table.slotNum * 2 % 2 ^ 32, bucketNum := st.table.bucketNum * 2 % 2 ^ 32 }
          h hpos rfl rfl
      exact ⟨h1, fun _ => h2⟩
    · refine Outcome.bind (rehashLog_counts st st.table (Cuckoo.grown st.table) st.logEntries)
        fun t ht => ?_
      exact ⟨(h.grown hpos).counts ht, fun hc => absurd rfl hc⟩

theorem Sized.insertKey (h : Sized st.table) (key : Key) (o : Nat) (alloc : Alloc) :
    OnOk (Cuckoo.insertKey st key o alloc) fun r =>
      Sized r.2.1 ∧ (r.1 ≠ none → r.2.1.slotsLen ≠ r.2.1.slotNum) ∧
        (r.2.2 = INVALID_OFFSET → Marked r.2.1) := by
  -- a put that ends without an offset has begun without one
  have hmark : ∀ (t : HashTable) (r : Bool × HashTable × Nat),
    Cuckoo.cuckooHashPut t key o = .ok r → r.2.2 = INVALID_OFFSET → Marked r.2.1 := by
    intro t r hr hinv
    have hframe := cuckooHashPut_frame t key o
    rw [hr] at hframe
    have ho : o = INVALID_OFFSET := by
      by_contra hne
      exact hne ((hframe.2 (.inl hne)).symm.trans hinv)
    subst ho
    have := cuckooHashPut_marked t key
    rw [hr] at this
    exact this hinv
  have hframe := cuckooHashPut_frame st.table key o
  have hpos := cuckooHashPut_pos st.table key o
  simp only [Cuckoo.insertKey]
  cases hput : Cuckoo.cuckooHashPut st.table key o with
  | error f => trivial
  | ok r =>
    rw [hput] at hframe hpos
    obtain ⟨fail, t₁, o₁⟩ := r
    have ht₁ : Sized t₁ := h.counts hframe.1
    have hpos₁ : 0 < t₁.slotsLen := by
      rw [hframe.1.1]
      exact hpos
    simp only [bind, Except.bind]
    cases fail with
    | false => exact ⟨ht₁, fun hc => absurd rfl hc, hmark _ _ hput⟩
    | true =>
      obtain rfl : o₁ = o := hframe.2 (.inr rfl)
      have hrehash := @Sized.cuckooRehash { st with table := t₁ } ht₁ hpos₁ alloc
      simp only [if_true]
      cases hre : Cuckoo.cuckooRehash { st with table := t₁ } alloc with
      | error f => trivial
      | ok q =>
        obtain ⟨failure, t₂⟩ := q
        rw [hre] at hrehash
        have hframe₂ := cuckooHashPut_frame t₂ key o₁
        simp only
        cases hput₂ : Cuckoo.cuckooHashPut t₂ key o₁ with
        | error f => trivial
        | ok r =>
          rw [hput₂] at hframe₂
          refine ⟨hrehash.1.counts hframe₂.1, fun hc => ?_, hmark _ _ hput₂⟩
          show r.2.1.slotsLen ≠ r.2.1.slotNum
          rw [hframe₂.1.1, hframe₂.1.2.2.1]
          exact hrehash.2 hc

/-- **One put**: the sizes stay as described, and a failure leaves a slot without an entry or an
array whose size is not its count. -/
theorem Sized.cuckooFilterPut (h : Sized st.table) (key : Key) (value : Option Data)
    (alloc : Alloc) :
    OnOk (Cuckoo.cuckooFilterPut st key value alloc) fun r =>
      Sized r.2.table ∧ (r.1 ≠ [] → Marked r.2.table ∨ r.2.table.slotsLen ≠ r.2.table.slotNum) := by
  cases value with
  | none =>
    refine Outcome.bind (cuckooHashStatusSet_counts st.table key .deleted) fun t ht => ?_
    exact ⟨h.counts ht, fun hc => absurd rfl hc⟩
  | some value =>
    refine Outcome.bind (P := fun _ => True) (OnOk.intro fun _ _ => trivial) fun r _ => ?_
    obtain ⟨status, o⟩ := r
    cases status with
    | occupied => exact ⟨h, fun hc => absurd rfl hc⟩
    | deleted =>
      refine Outcome.bind (cuckooHashStatusSet_counts st.table key .occupied) fun t ht => ?_
      exact ⟨h.counts ht, fun hc => absurd rfl hc⟩
    | availible =>
      refine Outcome.bind (h.insertKey key (nextEntryOffset st) alloc) fun r hr => ?_
      obtain ⟨failure, t, o⟩ := r
      obtain ⟨hsized, hfail, hmark⟩ := hr
      simp only
      split
      next ho => exact ⟨hsized, fun _ => .inl (hmark ho)⟩
      next =>
        split
        · refine ⟨hsized, fun hc => .inr (hfail ?_)⟩
          rintro rfl
          exact hc rfl
        · trivial

theorem init_sized (size : Nat) (flash : Nat → LogEntry) :
    Sized (cuckooFilterInit size flash).table := by
  by_cases h0 : (size / DAT_LEN + 1) * SECTOR_SIZE % 2 ^ 32 = 0
  · refine .inl ?_
    show nextPowOf2 _ / SECTOR_SIZE / 4 = 0
    rw [h0]
    decide
  · obtain ⟨j, hj, hpow, -, -⟩ := nextPowOf2_spec (Nat.pos_of_ne_zero h0) (Nat.mod_lt _ (by decide))
    have hlen : (cuckooFilterInit size flash).table.slotsLen = 2 ^ j % 2 ^ 32 / 128 := by
      show nextPowOf2 _ / SECTOR_SIZE / 4 = _
      rw [hpow, Nat.div_div_eq_div_mul]
      rfl
    by_cases hj7 : 7 ≤ j ∧ j < 32
    · have hlt : 2 ^ j < 2 ^ 32 := Nat.pow_lt_pow_right (by decide) hj7.2
      have hdiv : 2 ^ j % 2 ^ 32 / 128 = 2 ^ (j - 7) := by
        rw [Nat.mod_eq_of_lt hlt, show 128 = 2 ^ 7 by rfl, Nat.pow_div hj7.1 (by decide)]
      have hlt' : 2 ^ (j - 7) < 2 ^ 32 := Nat.pow_lt_pow_right (by decide) (by omega)
      rw [hdiv] at hlen
      exact .inr ⟨j - 7, 0, hlen, hlen.trans (Nat.mod_eq_of_lt hlt').symm⟩
    · refine .inl ?_
      rw [hlen]
      by_cases hj32 : j = 32
      · rw [hj32]
        decide
      · have : 2 ^ j ≤ 2 ^ 6 := Nat.pow_le_pow_right (by decide) (by omega)
        rw [Nat.mod_eq_of_lt (by omega)]
        exact Nat.div_eq_of_lt (by omega)

theorem Reachable.sized (h : Reachable st) : Sized st.table := by
  induction h with
  | init size flash => exact init_sized size flash
  | @put st st' key value alloc fs _ hrun ih =>
    have hput := ih.cuckooFilterPut key value alloc
    rw [hrun] at hput
    exact hput.1

end

/-- A slot without an entry, or an array whose size is not its count: the store is not intact. -/
theorem not_intact {st st' : State}
    (h : Marked st'.table ∨ st'.table.slotsLen ≠ st'.table.slotNum) :
    ¬ Intact st st' := by
  intro hi
  rcases h with ⟨p, hp, hs, ho⟩ | hne
  · obtain ⟨e, -, he⟩ := hi.written p hp hs
    rw [ho, INVALID_OFFSET, SECTOR_SIZE] at he
    omega
  · exact hne hi.consistent.1

/-- **No failed put leaves the store intact.** -/
theorem failed_put_not_intact (st st' : State) (key : Key) (value : Data) (alloc : Alloc)
    (fs : List Failure) (h : Reachable st)
    (hrun : cuckooFilterPut st key (some value) alloc = .ok (fs, st')) (hfail : fs ≠ []) :
    ¬ Intact st st' := by
  have hput := h.sized.cuckooFilterPut key (some value) alloc
  rw [hrun] at hput
  exact not_intact (hput.2 hfail)

/-! ## A full table -/

/-- Every slot is taken. -/
def Full (t : HashTable) : Prop := ∀ p < t.slotsLen, (t.slots p).status = .occupied

section
variable {t : HashTable}

theorem Full.takeSlot (h : Full t) {tag o' o b : Nat}
    (hlen : ASSOC_WAY * b + ASSOC_WAY ≤ t.slotsLen) :
    Cuckoo.takeSlot t tag o' o (List.range' (ASSOC_WAY * b) ASSOC_WAY) = none := by
  have hps : ∀ p ∈ List.range' (ASSOC_WAY * b) ASSOC_WAY, (t.slots p).status = .occupied := by
    intro p hp
    obtain ⟨j, hj, rfl⟩ := mem_bucket.1 hp
    exact h _ (by omega)
  generalize List.range' (ASSOC_WAY * b) ASSOC_WAY = ps at hps
  induction ps with
  | nil => rfl
  | cons p ps ih =>
    have hp := hps p (by simp)
    rw [Cuckoo.takeSlot, hp, if_neg (by simp), if_neg (by decide)]
    exact ih fun q hq => hps q (List.mem_cons_of_mem _ hq)

theorem Full.set (h : Full t) {p : Nat} {s : Slot} (hs : s.status = (t.slots p).status) :
    Full (t.set p s) := by
  intro q hq
  by_cases hqp : q = p
  · rw [hqp, set_slots_self, hs]
    exact h p (hqp ▸ hq)
  · rw [set_slots_of_ne hqp]
    exact h q hq

theorem Full.kickLoop : ∀ (fuel : Nat) (s : Kick), Full s.table →
    OnOk (Cuckoo.kickLoop fuel s) fun r => r.1 = true ∧ Full r.2.1
  | 0, _, _ => trivial
  | fuel + 1, s, h => by
    simp only [Cuckoo.kickLoop, kickOut]
    cases hb : s.table.bucket (s.oldTag s.i) with
    | error e => trivial
    | ok ps =>
      obtain ⟨rfl, hlen⟩ := bucket_ok hb
      simp only [bind, Except.bind, h.takeSlot hlen]
      by_cases hgive : s.altCnt + 1 > 512 ∧ s.k = ASSOC_WAY - 1
      · rw [if_pos hgive]
        exact ⟨rfl, h⟩
      · rw [if_neg hgive]
        exact kickLoop fuel s.swap (h.set rfl)

/-- A put into a full table fails. -/
theorem Full.cuckooHashPut (h : Full t) (key : Key) (o : Nat) :
    OnOk (Cuckoo.cuckooHashPut t key o) fun r => r.1 = true ∧ Full r.2.1 := by
  simp only [Cuckoo.cuckooHashPut]
  cases hb₀ : t.bucket (cuckooHashLsb key t.bucketNum) with
  | error e => trivial
  | ok ps =>
    obtain ⟨rfl, hlen₀⟩ := bucket_ok hb₀
    simp only [bind, Except.bind, h.takeSlot hlen₀]
    cases hb₁ : t.bucket (cuckooHashMsb key t.bucketNum) with
    | error e => trivial
    | ok ps =>
      obtain ⟨rfl, hlen₁⟩ := bucket_ok hb₁
      simp only [h.takeSlot hlen₁, cuckooHashCollide, hb₀, bind, Except.bind]
      exact Full.kickLoop _ _ (h.set rfl)

end

/-- A put into a full table, without memory for a larger one. -/
theorem full_put_callocNull {st : State} {n : Nat} (h : Bounded st.nvromSize n st.table)
    (hfull : Full st.table) {key : Key} (hget : cuckooHashGet st st.table key = .ok (.availible, 0))
    {o : Nat} (hoff : nextEntryOffset st = o)
    (ho : o ≠ INVALID_OFFSET) (hN : o + SECTOR_SIZE ≤ st.nvromSize) (value : Data) :
    ∃ st', cuckooFilterPut st key (some value) ⟨false, true⟩ = .ok ([.callocNull], st') := by
  have hfail := hfull.cuckooHashPut key o
  obtain ⟨⟨fail, t₁, o₁⟩, hput, ht₁, ho₁⟩ := (h.cuckooHashPut key ho hN).eq_ok
  simp only at ho₁ ht₁
  rw [hput] at hfail
  obtain rfl : fail = true := hfail.1
  have ht₂ : Bounded st.nvromSize n { t₁ with slotNum := t₁.slotNum * 2 % 2 ^ 32 } :=
    ⟨ht₁.pow, ht₁.bucketNum, ht₁.bucketsLen, ht₁.slotsLen, ht₁.slots⟩
  obtain ⟨⟨fail, t₃, o₃⟩, hput₃, -, ho₃⟩ := (ht₂.cuckooHashPut key ho hN).eq_ok
  simp only at ho₃
  refine ⟨{ st with
    table := t₃
    flash := Function.update st.flash (o / SECTOR_SIZE) ⟨key, value⟩
    logEntries := (st.logEntries + 1) % 2 ^ 32 }, ?_⟩
  simp only [cuckooFilterPut, hget, hoff, insertKey, hput, cuckooRehash, bind, Except.bind, pure,
    Except.pure, if_true, Bool.not_false, ho₁, hput₃, ho₃, if_neg ho, if_pos hN]
  rfl

/-- Four keys in a table of one bucket. -/
def fullPuts : List Op :=
  [.put (sampleKey 0 1 0) 1, .put (sampleKey 0 1 1) 2, .put (sampleKey 0 1 2) 3,
    .put (sampleKey 0 1 3) 4]

/-- The fifth put, without memory. -/
theorem fullPuts_callocNull :
    ∃ st st', run (cuckooFilterInit 96 fun _ => ⟨sampleKey 0 0 0, 0⟩) fullPuts = .ok st ∧
      cuckooFilterPut st (sampleKey 0 1 4) (some 5) ⟨false, true⟩ = .ok ([.callocNull], st') := by
  have hrun : Returns (run (cuckooFilterInit 96 fun _ => ⟨sampleKey 0 0 0, 0⟩) fullPuts) fun st =>
      (st.table.bucketNum = 1 ∧ st.table.bucketsLen = 1 ∧ st.table.slotsLen = 4 ∧
        st.nvromSize = 512 ∧ nextEntryOffset st = 128) ∧
      (∀ p < 4, (st.table.slots p).status = .occupied ∧ (st.table.slots p).tag < 1 ∧
        (st.table.slots p).offset + SECTOR_SIZE ≤ 512) ∧
      (cuckooHashGet st st.table (sampleKey 0 1 4)).toOption = some (.availible, 0) := by
    decide +kernel
  obtain ⟨st, hst, ⟨h1, h2, h3, h4, h5⟩, hslots, hget⟩ := hrun.eq_ok
  have hget : cuckooHashGet st st.table (sampleKey 0 1 4) = .ok (.availible, 0) := by
    cases hg : cuckooHashGet st st.table (sampleKey 0 1 4) with
    | error f =>
      rw [hg] at hget
      cases hget
    | ok r =>
      rw [hg] at hget
      cases hget
      rfl
  obtain ⟨st', hput⟩ := full_put_callocNull (n := 1)
    ⟨⟨0, by decide, rfl⟩, h1, h2, h3, fun p hp => by rw [h4]; exact (hslots p hp).2⟩
    (fun p hp => (hslots p (h3 ▸ hp)).1) hget h5 (by decide) (by rw [h4]; decide) 5
  exact ⟨st, st', hst, hput⟩

theorem Reachable.run {st st' : State} {ops : List Op} (h : Reachable st)
    (hrun : Cuckoo.run st ops = .ok st') :
    Reachable st' := by
  induction ops generalizing st with
  | nil =>
    cases hrun
    exact h
  | cons op ops ih =>
    rw [Cuckoo.run, List.foldlM_cons] at hrun
    cases hstep : Cuckoo.step st op with
    | error f =>
      rw [hstep] at hrun
      cases hrun
    | ok st₁ =>
      rw [hstep] at hrun
      refine ih ?_ hrun
      have hmap : ∀ {key value}, (cuckooFilterPut st key value .full).map Prod.snd = .ok st₁ →
        Reachable st₁ := by
        intro key value hmap
        cases hput : cuckooFilterPut st key value .full with
        | error f =>
          rw [hput] at hmap
          cases hmap
        | ok r =>
          rw [hput] at hmap
          cases hmap
          exact .put h hput
      cases op with
      | put key value => exact hmap hstep
      | delete key => exact hmap hstep

theorem failed_put_not_intact_sample : ∃ st st', Reachable st ∧
    cuckooFilterPut st (sampleKey 0 1 4) (some 5) ⟨false, true⟩ = .ok ([.callocNull], st') ∧
      ¬ Intact st st' := by
  obtain ⟨st, st', hst, hput⟩ := fullPuts_callocNull
  have hreach := (Reachable.init 96 fun _ => ⟨sampleKey 0 0 0, 0⟩).run hst
  exact ⟨st, st', hreach, hput, failed_put_not_intact st st' _ _ _ _ hreach hput (by decide)⟩

/-- The fifth put into a table of one bucket, without memory for a larger one. -/
theorem callocNull_breaks_store :
    ∃ st st', run (cuckooFilterInit 96 fun _ => ⟨sampleKey 0 0 0, 0⟩) fullPuts = .ok st ∧
      cuckooFilterPut st (sampleKey 0 1 4) (some 5) ⟨false, true⟩ = .ok ([.callocNull], st') ∧
        ¬ Intact st st' := by
  obtain ⟨st, st', hst, hput⟩ := fullPuts_callocNull
  have hsized := (((Reachable.init 96 fun _ => ⟨sampleKey 0 0 0, 0⟩).run hst).sized).cuckooFilterPut
    (sampleKey 0 1 4) (some 5) ⟨false, true⟩
  rw [hput] at hsized
  exact ⟨st, st', hst, hput, not_intact (hsized.2 (by simp))⟩

end Cuckoo
