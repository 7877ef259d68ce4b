import DsAlgor.Cuckoo.Runs

/-!
# Addressing

`Bounded N n t`: the table `t` has `n` buckets, a power of two, every tag is a bucket and every
offset is that of an entry in a log of `N` bytes. No operation on such a table is out of bounds,
whatever the statuses of its slots are. `slot_num` is not part of it: no access depends on it.
-/

namespace Cuckoo

/-! ## The counts -/

/-- The slots are the only part of a table that a put or a change of status writes. -/
def SameCounts (t t' : HashTable) : Prop :=
  t'.slotsLen = t.slotsLen ∧ t'.bucketsLen = t.bucketsLen ∧ t'.slotNum = t.slotNum ∧
    t'.bucketNum = t.bucketNum

section
variable {t t' t'' : HashTable}

theorem SameCounts.refl (t : HashTable) : SameCounts t t := ⟨rfl, rfl, rfl, rfl⟩

theorem SameCounts.trans (h : SameCounts t t') (h' : SameCounts t' t'') : SameCounts t t'' :=
  ⟨h'.1.trans h.1, h'.2.1.trans h.2.1, h'.2.2.1.trans h.2.2.1, h'.2.2.2.trans h.2.2.2⟩

variable {r : HashTable × Nat}

theorem takeSlot_counts {tag o o' : Nat} {ps : List Nat} (h : takeSlot t tag o' o ps = some r) :
    SameCounts t r.1 := by
  induction ps with
  | nil => cases h
  | cons p ps ih =>
    rw [takeSlot] at h
    split at h
    · cases h
      exact SameCounts.refl t
    · split at h
      · cases h
        exact SameCounts.refl t
      · exact ih h

theorem takeSlot_offset {tag o o' : Nat} {ps : List Nat} (ho : o ≠ INVALID_OFFSET)
    (h : takeSlot t tag o' o ps = some r) : r.2 = o := by
  rw [takeSlot_eq ho] at h
  obtain ⟨x, -, rfl⟩ := Option.map_eq_some_iff.1 h
  rfl

/-- What a put leaves as it is: the counts, and the offset when there is one or when the put
fails. -/
def PutFrame (t : HashTable) (o : Nat) (r : Bool × HashTable × Nat) : Prop :=
  SameCounts t r.2.1 ∧ (o ≠ INVALID_OFFSET ∨ r.1 = true → r.2.2 = o)

theorem putFrame_take {tag o o' : Nat} {ps : List Nat} (h : takeSlot t tag o' o ps = some r) :
    PutFrame t o (false, r) := by
  refine ⟨takeSlot_counts h, ?_⟩
  rintro (ho | hc)
  · exact takeSlot_offset ho h
  · cases hc

theorem kickLoop_frame : ∀ (fuel : Nat) (s : Kick), OnOk (kickLoop fuel s)
    (PutFrame s.table s.offset)
  | 0, _ => trivial
  | fuel + 1, s => by
    simp only [kickLoop, kickOut]
    cases s.table.bucket (s.oldTag s.i) with
    | error e => trivial
    | ok ps =>
      simp only [bind, Except.bind]
      cases htake : takeSlot s.table (s.oldTag !s.i) s.oldOffset s.offset ps with
      | some r => exact putFrame_take htake
      | none =>
        simp only
        by_cases hgive : s.altCnt + 1 > 512 ∧ s.k = ASSOC_WAY - 1
        · rw [if_pos hgive]
          exact ⟨SameCounts.refl _, fun _ => rfl⟩
        · rw [if_neg hgive]
          exact kickLoop_frame fuel s.swap

theorem cuckooHashPut_frame (t : HashTable) (key : Key) (o : Nat) :
    OnOk (cuckooHashPut t key o) (PutFrame t o) := by
  simp only [cuckooHashPut]
  cases hb₀ : t.bucket (cuckooHashLsb key t.bucketNum) with
  | error e => trivial
  | ok ps =>
    simp only [bind, Except.bind]
    cases htake₀ : takeSlot t (cuckooHashMsb key t.bucketNum) o o ps with
    | some r => exact putFrame_take htake₀
    | none =>
      simp only
      cases t.bucket (cuckooHashMsb key t.bucketNum) with
      | error e => trivial
      | ok ps =>
        simp only
        cases htake₁ : takeSlot t (cuckooHashLsb key t.bucketNum) o o ps with
        | some r => exact putFrame_take htake₁
        | none =>
          simp only [cuckooHashCollide, hb₀, bind, Except.bind]
          exact kickLoop_frame _ _

theorem cuckooHashStatusSet_counts (t : HashTable) (key : Key) (status : Status) :
    OnOk (cuckooHashStatusSet t key status) (SameCounts t) := by
  refine OnOk.intro fun t' h => ?_
  simp only [cuckooHashStatusSet, bind, Except.bind] at h
  split at h
  · cases h
  · split at h
    · cases h
      exact SameCounts.refl t
    · split at h
      · cases h
      · split at h
        · cases h
          exact SameCounts.refl t
        · cases h
          exact SameCounts.refl t

theorem rehashLog_counts (st : State) (old t : HashTable) (e : Nat) :
    OnOk (rehashLog st old e t) (SameCounts t) := by
  induction e with
  | zero => exact SameCounts.refl t
  | succ e ih =>
    refine Outcome.bind ih fun t₁ h₁ => ?_
    rw [rehashEntry]
    split
    · refine Outcome.bind (cuckooHashPut_frame t₁ _ _) fun r h₂ => ?_
      obtain ⟨fail, t₂, o⟩ := r
      cases fail with
      | true => trivial
      | false =>
        refine Outcome.bind (P := fun _ => True) (OnOk.intro fun _ _ => trivial) fun r _ => ?_
        obtain ⟨status, o'⟩ := r
        cases status with
        | availible => exact h₁.trans h₂.1
        | occupied => exact h₁.trans h₂.1
        | deleted =>
          exact (cuckooHashStatusSet_counts t₂ _ _).mono (fun t₃ h₃ => (h₁.trans h₂.1).trans h₃)
            fun _ => id
    · trivial

end

/-! ## Tables in bounds -/

structure Bounded (N n : Nat) (t : HashTable) : Prop where
  pow : ∃ b ≤ 29, n = 2 ^ b
  bucketNum : t.bucketNum = n
  bucketsLen : t.bucketsLen = n
  slotsLen : t.slotsLen = ASSOC_WAY * n
  slots : ∀ p < ASSOC_WAY * n, (t.slots p).tag < n ∧ (t.slots p).offset + SECTOR_SIZE ≤ N

section
variable {N n : Nat} {t : HashTable} {key : Key}

/-- With the count that goes with it, the table has its shape. -/
theorem Bounded.shape (h : Bounded N n t) : Shape { t with slotNum := ASSOC_WAY * n } n :=
  ⟨h.pow, h.bucketNum, h.bucketsLen, rfl, h.slotsLen⟩

theorem Bounded.bucket (h : Bounded N n t) {tag : Nat} (ht : tag < n) :
    t.bucket tag = .ok (List.range' (ASSOC_WAY * tag) ASSOC_WAY) :=
  h.shape.bucket ht

theorem Bounded.set (h : Bounded N n t) {p : Nat} {s : Slot} (htag : s.tag < n)
    (ho : s.offset + SECTOR_SIZE ≤ N) : Bounded N n (t.set p s) := by
  refine ⟨h.pow, h.bucketNum, h.bucketsLen, h.slotsLen, fun q hq => ?_⟩
  by_cases hqp : q = p
  · rw [hqp, set_slots_self]
    exact ⟨htag, ho⟩
  · rw [set_slots_of_ne hqp]
    exact h.slots q hq

theorem bucket_lt {b p : Nat} (hb : b < n) (hp : p ∈ List.range' (ASSOC_WAY * b) ASSOC_WAY) :
    p < ASSOC_WAY * n := by
  rw [List.mem_range'_1, ASSOC_WAY] at hp
  rw [ASSOC_WAY]
  omega

theorem Bounded.toTag_lt (h : Bounded N n t) {m : Nat} (hm : m < n) : toTag m < n := by
  rw [h.shape.toTag_eq hm]
  exact hm

/-! ## Kick-out chains -/

theorem Bounded.takeSlot (h : Bounded N n t) {tag o o' : Nat} {ps : List Nat} {r : HashTable × Nat}
    (ho : o ≠ INVALID_OFFSET) (htag : tag < n) (ho' : o' + SECTOR_SIZE ≤ N)
    (hr : Cuckoo.takeSlot t tag o' o ps = some r) : Bounded N n r.1 ∧ r.2 = o := by
  rw [takeSlot_eq ho] at hr
  obtain ⟨x, hx, rfl⟩ := Option.map_eq_some_iff.1 hr
  obtain ⟨p, -, rfl⟩ := List.mem_map.1 (List.mem_of_find?_eq_some hx)
  exact ⟨h.set (h.toTag_lt htag) ho', rfl⟩

/-- The chain and the entry it carries. -/
structure BoundedKick (N n o : Nat) (s : Kick) : Prop where
  table : Bounded N n s.table
  oldTag : ∀ b, s.oldTag b < n
  oldOffset : s.oldOffset + SECTOR_SIZE ≤ N
  offset : s.offset = o
  count : s.k = s.altCnt - 512 ∧ s.altCnt ≤ 515

theorem BoundedKick.swap {o : Nat} {s : Kick} (h : BoundedKick N n o s)
    (hgo : ¬ (s.altCnt + 1 > 512 ∧ s.k = ASSOC_WAY - 1)) : BoundedKick N n o s.swap := by
  have hcount : s.swap.k = s.swap.altCnt - 512 ∧ s.swap.altCnt ≤ 515 := count_step h.count hgo
  have hk : s.swap.k < ASSOC_WAY := by
    rw [hcount.1, ASSOC_WAY]
    omega
  have hv : s.victim < ASSOC_WAY * n := by
    refine bucket_lt (h.oldTag s.i) (List.mem_range'_1.2 ?_)
    have : s.victim = ASSOC_WAY * s.oldTag s.i + s.swap.k := rfl
    omega
  obtain ⟨htag, hoff⟩ := h.table.slots _ hv
  refine ⟨h.table.set (h.table.toTag_lt (h.oldTag _)) h.oldOffset, fun b => ?_, hoff,
    h.offset, hcount⟩
  show Function.update s.oldTag (!s.i) _ b < n
  by_cases hb : b = !s.i
  · rw [hb, Function.update_self]
    exact htag
  · rw [Function.update_of_ne hb]
    exact h.oldTag b

theorem BoundedKick.kickLoop {o : Nat} (ho : o ≠ INVALID_OFFSET) : ∀ (fuel : Nat) (s : Kick),
    BoundedKick N n o s → s.altCnt + fuel = 516 →
    Returns (Cuckoo.kickLoop fuel s) fun r => Bounded N n r.2.1 ∧ r.2.2 = o
  | 0, s, h, hf => by
    have := h.count.2
    omega
  | fuel + 1, s, h, hf => by
    simp only [Cuckoo.kickLoop, kickOut, h.table.bucket (h.oldTag s.i), bind, Except.bind]
    cases htake : Cuckoo.takeSlot s.table (s.oldTag !s.i) s.oldOffset s.offset
        (List.range' (ASSOC_WAY * s.oldTag s.i) ASSOC_WAY) with
    | some r =>
      obtain ⟨hr, hro⟩ := h.table.takeSlot (h.offset ▸ ho) (h.oldTag _) h.oldOffset htake
      exact ⟨hr, hro.trans h.offset⟩
    | none =>
      simp only
      by_cases hgive : s.altCnt + 1 > 512 ∧ s.k = ASSOC_WAY - 1
      · rw [if_pos hgive]
        exact ⟨h.table, h.offset⟩
      · rw [if_neg hgive]
        refine kickLoop ho fuel s.swap (h.swap hgive) ?_
        show s.altCnt + 1 + fuel = 516
        omega

/-- **`cuckoo_hash_put`** returns. -/
theorem Bounded.cuckooHashPut (h : Bounded N n t) (key : Key) {o : Nat} (ho : o ≠ INVALID_OFFSET)
    (hN : o + SECTOR_SIZE ≤ N) :
    Returns (Cuckoo.cuckooHashPut t key o) fun r => Bounded N n r.2.1 ∧ r.2.2 = o := by
  have hlt := h.shape.hashes_lt key
  simp only [hashes] at hlt
  simp only [Cuckoo.cuckooHashPut, h.bucketNum, h.bucket hlt.1, h.bucket hlt.2, bind, Except.bind]
  cases htake₀ : Cuckoo.takeSlot t (cuckooHashMsb key n) o o
      (List.range' (ASSOC_WAY * cuckooHashLsb key n) ASSOC_WAY) with
  | some r => exact h.takeSlot ho hlt.2 hN htake₀
  | none =>
    simp only
    cases htake₁ : Cuckoo.takeSlot t (cuckooHashLsb key n) o o
        (List.range' (ASSOC_WAY * cuckooHashMsb key n) ASSOC_WAY) with
    | some r => exact h.takeSlot ho hlt.1 hN htake₁
    | none =>
      simp only [cuckooHashCollide, h.bucket hlt.1, bind, Except.bind]
      obtain ⟨htag, hoff⟩ := h.slots (ASSOC_WAY * cuckooHashLsb key n)
        (Nat.mul_lt_mul_of_pos_left hlt.1 (by decide))
      refine BoundedKick.kickLoop ho _ _ ⟨h.set (h.toTag_lt hlt.2) hN, fun b => ?_, hoff, rfl,
        (Nat.zero_sub 512).symm, Nat.zero_le _⟩ rfl
      show (if b then (t.slots (ASSOC_WAY * cuckooHashLsb key n)).tag else cuckooHashLsb key n) < n
      split
      · exact htag
      · exact hlt.1

/-! ## Searching, deletion and recovery -/

theorem Bounded.getLoop (h : Bounded N n t) {st : State} (hN : st.nvromSize = N)
    (key : Key) (tag : Nat) {ps : List Nat} (hps : ∀ p ∈ ps, p < ASSOC_WAY * n) :
    Returns (Cuckoo.getLoop st t key tag ps) fun _ => True := by
  induction ps with
  | nil => trivial
  | cons p ps ih =>
    have ih := ih fun q hq => hps q (List.mem_cons_of_mem _ hq)
    rw [Cuckoo.getLoop]
    split
    · cases (t.slots p).status with
      | availible => exact ih
      | deleted => trivial
      | occupied =>
        have hin := (h.slots p (hps p (by simp))).2
        simp only [keyVerify, hN, if_pos hin, bind, Except.bind]
        split
        · trivial
        · exact ih
    · exact ih

/-- **`cuckoo_hash_get`** returns. -/
theorem Bounded.cuckooHashGet (h : Bounded N n t) {st : State} (hN : st.nvromSize = N) (key : Key) :
    Returns (Cuckoo.cuckooHashGet st t key) fun _ => True := by
  have hlt := h.shape.hashes_lt key
  simp only [hashes] at hlt
  obtain ⟨r₀, hr₀, -⟩ :=
    (h.getLoop hN key (cuckooHashMsb key n) fun p hp => bucket_lt hlt.1 hp).eq_ok
  obtain ⟨r₁, hr₁, -⟩ :=
    (h.getLoop hN key (cuckooHashLsb key n) fun p hp => bucket_lt hlt.2 hp).eq_ok
  simp only [Cuckoo.cuckooHashGet, h.bucketNum, h.bucket hlt.1, h.bucket hlt.2, bind,
    Except.bind, hr₀]
  cases r₀ with
  | some r => trivial
  | none =>
    simp only [hr₁]
    cases r₁ <;> trivial

/-- **`cuckoo_hash_status_set`** returns. -/
theorem Bounded.cuckooHashStatusSet (h : Bounded N n t) (key : Key) (status : Status) :
    Returns (Cuckoo.cuckooHashStatusSet t key status) (Bounded N n) := by
  have hlt := h.shape.hashes_lt key
  simp only [hashes] at hlt
  have hset : ∀ {b tag p : Nat}, b < n →
    findTag t tag (List.range' (ASSOC_WAY * b) ASSOC_WAY) = some p →
    Bounded N n (t.setStatus p status) := by
    intro b tag p hb hp
    have := h.slots p (bucket_lt hb (List.mem_of_find?_eq_some hp))
    exact h.set this.1 this.2
  simp only [Cuckoo.cuckooHashStatusSet, h.bucketNum, h.bucket hlt.1, h.bucket hlt.2,
    bind, Except.bind]
  cases h₀ : findTag t (cuckooHashMsb key n)
    (List.range' (ASSOC_WAY * cuckooHashLsb key n) ASSOC_WAY) with
  | some p => exact hset hlt.1 h₀
  | none =>
    simp only
    cases h₁ : findTag t (cuckooHashLsb key n)
      (List.range' (ASSOC_WAY * cuckooHashMsb key n) ASSOC_WAY) with
    | some p => exact hset hlt.2 h₁
    | none => exact h

end

/-! ## Growth -/

section
variable {st : State} {n : Nat}

/-- What is addressed: the table, and the entries of the log. -/
structure InBounds (st : State) (n : Nat) : Prop where
  table : Bounded st.nvromSize n st.table
  slotNum : st.table.slotNum = ASSOC_WAY * n
  size : st.nvromSize ≤ 2 ^ 31
  log : st.logEntries < 2 ^ 32 - 1

/-- The errors of a run that stays in bounds. -/
def NotOutOfBounds (f : Fault) : Prop := f ≠ .outOfBounds

variable {t : HashTable}

theorem Bounded.rehashLog {N : Nat} {old : HashTable} (hold : Bounded N n old) {n' : Nat}
    (h : Bounded N n' t) (hN : st.nvromSize = N) (hsize : N ≤ 2 ^ 31) : ∀ e, e * SECTOR_SIZE ≤ N →
    Outcome (Cuckoo.rehashLog st old e t) (Bounded N n') NotOutOfBounds
  | 0, _ => h
  | e + 1, he => by
    have hle : e * SECTOR_SIZE + SECTOR_SIZE ≤ N := by
      rw [SECTOR_SIZE] at he ⊢
      omega
    have hvalid : e * SECTOR_SIZE ≠ INVALID_OFFSET := by
      rw [INVALID_OFFSET]
      rw [SECTOR_SIZE] at hle ⊢
      omega
    refine Outcome.bind (hold.rehashLog h hN hsize e (by omega)) fun t ht => ?_
    rw [rehashEntry, hN, if_pos he]
    obtain ⟨⟨fail, t', o⟩, hput, ht', -⟩ := (ht.cuckooHashPut (st.flash e).sha1 hvalid hle).eq_ok
    obtain ⟨⟨status, o'⟩, hget, -⟩ := (hold.cuckooHashGet hN (st.flash e).sha1).eq_ok
    simp only [hput, hget, bind, Except.bind]
    cases fail with
    | true =>
      intro hc
      cases hc
    | false =>
      cases status with
      | availible => exact ht'
      | occupied => exact ht'
      | deleted => exact (Bounded.cuckooHashStatusSet ht' _ _).outcome

/-- A new table twice as large. -/
theorem Bounded.grown {N : Nat} (h : Bounded N n t) (hs : t.slotNum = ASSOC_WAY * n)
    (hgrow : t.slotNum * 2 < 2 ^ 32) (hN : SECTOR_SIZE ≤ N) : Bounded N (2 * n) (grown t) := by
  have hshape : Shape (Cuckoo.grown t) (2 * n) :=
    Shape.grown ⟨h.pow, h.bucketNum, h.bucketsLen, hs, h.slotsLen⟩ hgrow
  refine ⟨hshape.pow, hshape.bucketNum, hshape.bucketsLen, hshape.slotsLen, fun p _ =>
    ⟨hshape.pos, ?_⟩⟩
  show 0 + SECTOR_SIZE ≤ N
  omega

/-! ## Puts -/

/-- Of the places of a key, the first that is not occupied is deleted, and has its log entry. -/
def Reuses (t : HashTable) (key : Key) : Prop :=
  ∃ x ∈ (places (hashes t.bucketNum key).1 (hashes t.bucketNum key).2).find?
    (fun x => (t.slots x.1).status ≠ .occupied), (t.slots x.1).status = .deleted

instance (t : HashTable) (key : Key) : Decidable (Reuses t key) :=
  inferInstanceAs (Decidable (∃ x ∈ List.find? _ _, _))

/-- A key that is not there is put while the log has room and memory can be had, or into a deleted
slot. -/
def LogStep (st : State) : Op → Prop
  | .put key _ => OnOk (cuckooHashGet st st.table key) fun r => r.1 = .availible →
    nextEntryOffset st ≠ INVALID_OFFSET ∧ Allocates st key ∨
      nextEntryOffset st = INVALID_OFFSET ∧ Reuses st.table key ∧ st.logEntries + 1 < 2 ^ 32 - 1
  | .delete _ => True

instance (st : State) : (op : Op) → Decidable (LogStep st op)
  | .put _ _ => inferInstanceAs (Decidable (OnOk _ _))
  | .delete _ => isTrue trivial

/-- Without a log entry of its own, the key takes a deleted slot with the slot's entry. -/
theorem takeSlot_reuses {tag o' : Nat} (ps : List Nat) : takeSlot t tag o' INVALID_OFFSET ps =
      (ps.find? fun p => (t.slots p).status ≠ .occupied).map fun p =>
        if (t.slots p).status = .deleted then
          (t.set p { t.slots p with status := .occupied, tag := toTag tag }, (t.slots p).offset)
        else (t.set p ⟨toTag tag, .occupied, o'⟩, INVALID_OFFSET) := by
  induction ps with
  | nil => rfl
  | cons p ps ih =>
    rw [takeSlot, List.find?_cons]
    cases hs : (t.slots p).status with
    | availible => simp [hs]
    | occupied => simp [ih]
    | deleted => simp [hs]

theorem Bounded.reuse {N : Nat} (h : Bounded N n t) {key : Key} (hr : Reuses t key) :
    ∃ t' o, Cuckoo.cuckooHashPut t key INVALID_OFFSET = .ok (false, t', o) ∧ Bounded N n t' ∧
      o + SECTOR_SIZE ≤ N := by
  have hlt := h.shape.hashes_lt key
  rw [Reuses, h.bucketNum] at hr
  obtain ⟨⟨p, tag⟩, hx, hdel⟩ := hr
  have hmem := List.mem_of_find?_eq_some hx
  have hp := h.shape.place_lt hmem
  have htag : tag < n := by
    rcases mem_places.1 hmem with ⟨-, rfl⟩ | ⟨-, rfl⟩
    · exact hlt.2
    · exact hlt.1
  refine ⟨t.set p { t.slots p with status := .occupied, tag := toTag tag }, (t.slots p).offset, ?_,
    h.set (h.toTag_lt htag) (h.slots p hp).2, (h.slots p hp).2⟩
  have hpair : ∀ {b tag : Nat} {x : Nat × Nat},
      ((List.range' (ASSOC_WAY * b) ASSOC_WAY).map (·, tag)).find?
      (fun x => (t.slots x.1).status ≠ .occupied) = some x →
      (List.range' (ASSOC_WAY * b) ASSOC_WAY).find? (fun p => (t.slots p).status ≠ .occupied) =
      some x.1 ∧ x.2 = tag := by
    intro b tag x hx
    refine ⟨?_, ?_⟩
    · rw [← find?_map_pair _ fun x => (t.slots x.1).status ≠ .occupied, hx, Option.map_some]
    · obtain ⟨q, -, rfl⟩ := List.mem_map.1 (List.mem_of_find?_eq_some hx)
      rfl
  rw [hashes] at hx hlt
  simp only [Cuckoo.cuckooHashPut, h.bucketNum, h.bucket hlt.1, h.bucket hlt.2, bind, Except.bind,
    takeSlot_reuses]
  rw [places, Option.mem_def, List.find?_append] at hx
  cases hf : ((List.range' (ASSOC_WAY * cuckooHashLsb key n) ASSOC_WAY).map
    (·, cuckooHashMsb key n)).find? (fun x => (t.slots x.1).status ≠ .occupied) with
  | some x =>
    rw [hf, Option.some_or, Option.some.injEq] at hx
    obtain ⟨hq, htag'⟩ := hpair hf
    rw [hx] at hq htag'
    simp only [hq, Option.map_some, if_pos hdel]
    rw [show tag = cuckooHashMsb key n from htag']
    rfl
  | none =>
    rw [hf, Option.none_or] at hx
    obtain ⟨hq, htag'⟩ := hpair hx
    have hno : (List.range' (ASSOC_WAY * cuckooHashLsb key n) ASSOC_WAY).find?
        (fun p => (t.slots p).status ≠ .occupied) = none := by
      rw [← find?_map_pair _ fun x => (t.slots x.1).status ≠ .occupied, hf, Option.map_none]
    simp only [hno, Option.map_none, hq, Option.map_some, if_pos hdel]
    rw [show tag = cuckooHashLsb key n from htag']
    rfl

/-- The put of a key that is not there, with room in the log. -/
theorem InBounds.insertKey (h : InBounds st n) {key : Key} {o : Nat} (hoff : nextEntryOffset st = o)
    (ho : o ≠ INVALID_OFFSET) (hN : o + SECTOR_SIZE ≤ st.nvromSize)
    (hlog : st.logEntries * SECTOR_SIZE ≤ st.nvromSize) (halloc : Allocates st key) :
    Outcome (Cuckoo.insertKey st key o .full)
      (fun r => (∃ n', Bounded st.nvromSize n' r.2.1 ∧ r.2.1.slotNum = ASSOC_WAY * n') ∧ r.2.2 = o)
      NotOutOfBounds := by
  have hframe := cuckooHashPut_frame st.table key o
  obtain ⟨⟨fail, t₁, o₁⟩, hput, ht₁, rfl⟩ := (h.table.cuckooHashPut key ho hN).eq_ok
  rw [Allocates, hoff, hput] at halloc
  rw [hput] at hframe
  have hnum : t₁.slotNum = st.table.slotNum := hframe.1.2.2.1
  simp only [Cuckoo.insertKey, hput, bind, Except.bind]
  cases fail with
  | false => exact ⟨⟨n, ht₁, hnum.trans h.slotNum⟩, rfl⟩
  | true =>
    have hgrown : Bounded st.nvromSize (2 * n) (grown t₁) := by
      refine ht₁.grown (hnum.trans h.slotNum) ?_ (by omega)
      rw [hnum]
      exact halloc rfl
    have hcounts := rehashLog_counts { st with table := t₁ } t₁ (grown t₁) st.logEntries
    have hrehash : Outcome (Cuckoo.rehashLog { st with table := t₁ } t₁ st.logEntries (grown t₁))
        (Bounded st.nvromSize (2 * n)) NotOutOfBounds :=
      ht₁.rehashLog hgrown (show ({ st with table := t₁ } : State).nvromSize = _ from rfl)
        h.size _ hlog
    have hnum₂ : (grown t₁).slotNum = ASSOC_WAY * (2 * n) := hgrown.slotsLen
    simp only [if_true, cuckooRehash, Alloc.full, Bool.not_true, Bool.false_eq_true, if_false,
      bind, Except.bind]
    cases hrun : Cuckoo.rehashLog { st with table := t₁ } t₁ st.logEntries (grown t₁) with
    | error f =>
      rw [hrun] at hrehash
      exact hrehash
    | ok t₂ =>
      rw [hrun] at hrehash hcounts
      have hframe₃ := cuckooHashPut_frame t₂ key o₁
      obtain ⟨⟨fail, t₃, o₃⟩, hput₃, ht₃, ho₃⟩ := (Bounded.cuckooHashPut hrehash key ho hN).eq_ok
      rw [hput₃] at hframe₃
      simp only [pure, Except.pure, hput₃]
      exact ⟨⟨2 * n, ht₃, hframe₃.1.2.2.1.trans (hcounts.2.2.1.trans hnum₂)⟩, ho₃⟩

/-- **One step** stays in bounds. -/
theorem InBounds.step (h : InBounds st n) {op : Op} (hc : LogStep st op) :
    Outcome (Cuckoo.step st op) (fun st' => st'.nvromSize = st.nvromSize ∧ ∃ n', InBounds st' n')
      NotOutOfBounds := by
  have hstatus : ∀ key status, Returns (Cuckoo.cuckooHashStatusSet st.table key status) fun t' =>
      InBounds { st with table := t' } n := by
    intro key status
    have hcounts := cuckooHashStatusSet_counts st.table key status
    obtain ⟨t', hrun, ht'⟩ := (h.table.cuckooHashStatusSet key status).eq_ok
    rw [hrun] at hcounts
    rw [hrun]
    exact ⟨ht', hcounts.2.2.1.trans h.slotNum, h.size, h.log⟩
  cases op with
  | delete key =>
    obtain ⟨t', hrun, ht'⟩ := (hstatus key .deleted).eq_ok
    simp only [Cuckoo.step, cuckooFilterPut, cuckooHashDelete, hrun, bind, Except.bind]
    exact ⟨rfl, n, ht'⟩
  | put key value =>
    rw [LogStep] at hc
    obtain ⟨⟨status, o⟩, hget, -⟩ := (h.table.cuckooHashGet rfl key).eq_ok
    rw [hget] at hc
    simp only [Cuckoo.step, cuckooFilterPut, hget, bind, Except.bind]
    cases status with
    | occupied => exact ⟨rfl, n, h⟩
    | deleted =>
      obtain ⟨t', hrun, ht'⟩ := (hstatus key .occupied).eq_ok
      simp only [cuckooHashRecover, hrun]
      exact ⟨rfl, n, ht'⟩
    | availible =>
      have hsize := h.size
      have hlog := h.log
      rcases hc rfl with ⟨hroom, halloc⟩ | ⟨hfull, hreuse, hcount⟩
      · -- the new entry is the next of the log
        have hnext : nextEntryOffset st = st.logEntries * SECTOR_SIZE ∧
            (st.logEntries + 1) * SECTOR_SIZE ≤ st.nvromSize := by
          refine nextEntryOffset_eq ?_ hsize hroom
          by_contra hgt
          refine hroom (if_pos ?_)
          rw [Nat.mod_eq_of_lt (by omega), SECTOR_SIZE] at *
          omega
        have hN : nextEntryOffset st + SECTOR_SIZE ≤ st.nvromSize := by
          rw [hnext.1]
          have := hnext.2
          rw [SECTOR_SIZE] at this ⊢
          omega
        have hL : st.logEntries * SECTOR_SIZE ≤ st.nvromSize := by
          rw [← hnext.1]
          omega
        have hins := h.insertKey rfl hroom hN hL halloc
        cases hrun : Cuckoo.insertKey st key (nextEntryOffset st) .full with
        | error f =>
          rw [hrun] at hins
          exact hins
        | ok r =>
          rw [hrun] at hins
          obtain ⟨failure, t', o'⟩ := r
          obtain ⟨⟨n', ht', hnum⟩, rfl⟩ := hins
          simp only [if_neg hroom, if_pos hN]
          refine ⟨rfl, n', ht', hnum, hsize, ?_⟩
          show (st.logEntries + 1) % 2 ^ 32 < 2 ^ 32 - 1
          rw [SECTOR_SIZE] at hL
          omega
      · -- the new entry takes the place of a deleted one
        have hframe := cuckooHashPut_frame st.table key INVALID_OFFSET
        obtain ⟨t', o', hput, ht', hN⟩ := h.table.reuse hreuse
        rw [hput] at hframe
        have ho' : o' ≠ INVALID_OFFSET := by
          rw [INVALID_OFFSET]
          omega
        simp only [Cuckoo.insertKey, hfull, hput, bind, Except.bind, pure, Except.pure,
          Bool.false_eq_true, if_false, if_neg ho', if_pos hN]
        refine ⟨rfl, n, ht', hframe.1.2.2.1.trans h.slotNum, hsize, ?_⟩
        show (st.logEntries + 1) % 2 ^ 32 < 2 ^ 32 - 1
        omega

end

/-! ## Runs -/

/-- Every index and every offset that the operations compute is in bounds. -/
structure Addressed (st : State) : Prop where
  buckets : ∃ b, st.table.bucketNum = 2 ^ b
  slotNum : st.table.slotNum = ASSOC_WAY * st.table.bucketNum
  hashes : ∀ key, cuckooHashLsb key st.table.bucketNum < st.table.bucketNum ∧
    cuckooHashMsb key st.table.bucketNum < st.table.bucketNum
  tags : ∀ p < st.table.slotNum, (st.table.slots p).tag < st.table.bucketNum
  next : nextEntryOffset st ≠ INVALID_OFFSET → nextEntryOffset st + SECTOR_SIZE ≤ st.nvromSize
  gets : ∀ key, cuckooFilterGet st key ≠ .error .outOfBounds

theorem InBounds.addressed {st : State} {n : Nat} (h : InBounds st n) : Addressed st := by
  obtain ⟨b, -, hb⟩ := h.table.pow
  have hn := h.table.bucketNum
  have hlog := h.log
  refine ⟨⟨b, hn.trans
    hb⟩, by rw [h.slotNum, hn], fun key => ?_, fun p hp => ?_, fun hroom => ?_, fun key => ?_⟩
  · rw [hn]
    exact h.table.shape.hashes_lt key
  · rw [h.slotNum] at hp
    rw [hn]
    exact (h.table.slots p hp).1
  · unfold nextEntryOffset at hroom ⊢
    split at hroom
    next => exact absurd rfl hroom
    next hfree =>
      have hsize := h.size
      rw [if_neg hfree]
      rw [Nat.mod_eq_of_lt (by omega)] at hfree
      rw [SECTOR_SIZE] at *
      omega
  · obtain ⟨⟨status, o⟩, hget, -⟩ := (h.table.cuckooHashGet rfl key).eq_ok
    simp only [cuckooFilterGet, hget, bind, Except.bind]
    cases status
    all_goals
      intro hc
      cases hc

theorem InBounds.run {st : State} {n : Nat} {ops : List Op} (h : InBounds st n)
    (hc : AllSteps LogStep st ops) : Outcome (Cuckoo.run st ops) Addressed NotOutOfBounds := by
  induction ops generalizing st n with
  | nil => exact h.addressed
  | cons op ops ih =>
    obtain ⟨hop, hrest⟩ := hc
    have hstep := h.step hop
    rw [Cuckoo.run, List.foldlM_cons]
    cases hrun : Cuckoo.step st op with
    | error f =>
      rw [hrun] at hstep
      exact hstep
    | ok st₁ =>
      rw [hrun] at hstep hrest
      obtain ⟨-, n₁, h₁⟩ := hstep
      exact ih h₁ hrest

/-- There is a bucket from 96 bytes on. -/
theorem init_bucketNum_pos {size : Nat} (hsize : size < 2 ^ 26) (flash : Nat → LogEntry) :
    1 ≤ (cuckooFilterInit size flash).table.bucketNum ↔ 96 ≤ size := by
  obtain ⟨j, -, hj, hle, hlt⟩ := @nextPowOf2_spec ((size / DAT_LEN + 1) * SECTOR_SIZE % 2 ^ 32)
    (by rw [DAT_LEN, SECTOR_SIZE]; omega) (Nat.mod_lt _ (by decide))
  have hb : (cuckooFilterInit size flash).table.bucketNum =
      nextPowOf2 ((size / DAT_LEN + 1) * SECTOR_SIZE % 2 ^ 32) / SECTOR_SIZE / 4 / ASSOC_WAY := rfl
  rw [hb, hj, Nat.div_div_eq_div_mul, Nat.div_div_eq_div_mul]
  rw [DAT_LEN, SECTOR_SIZE] at *
  rw [ASSOC_WAY]
  constructor
  · intro h
    omega
  · intro h
    have hj9 : 8 < j := (Nat.pow_lt_pow_iff_right (show 1 < 2 by decide)).1 (by omega)
    have : 2 ^ 9 ≤ 2 ^ j := Nat.pow_le_pow_right (by decide) hj9
    omega

/-- **Runs in bounds**: from 96 bytes on, every run stays in bounds that stores no entry without a
place in the log; a smaller table is out of bounds from the start. -/
theorem addressed_iff (size : Nat) (hsize : size < 2 ^ 26) (flash : Nat → LogEntry) :
    (∀ ops, AllSteps LogStep (cuckooFilterInit size flash) ops →
      Outcome (run (cuckooFilterInit size flash) ops) Addressed (· ≠ .outOfBounds)) ↔
        96 ≤ size := by
  rw [← init_bucketNum_pos hsize flash]
  constructor
  · intro h
    obtain ⟨b, hb⟩ := Addressed.buckets (h [] trivial)
    rw [hb]
    exact Nat.one_le_two_pow
  · intro h ops hc
    obtain ⟨n, hshape, hN, hn⟩ := init_shape h
    have hpos := hshape.pos
    refine InBounds.run (n := n) ⟨⟨hshape.pow, hshape.bucketNum, hshape.bucketsLen, hshape.slotsLen,
      fun p _ => ?_⟩, hshape.slotNum, ?_, ?_⟩ hc
    · refine ⟨hpos, ?_⟩
      show 0 + SECTOR_SIZE ≤ _
      rw [hN, SECTOR_SIZE]
      omega
    · rw [hN]
      omega
    · show 0 < 2 ^ 32 - 1
      decide

theorem addressed_iff_sample :
    (∀ ops, AllSteps LogStep (cuckooFilterInit 96 fun _ => ⟨sampleKey 0 0 0, 0⟩) ops →
      Outcome (run (cuckooFilterInit 96 fun _ => ⟨sampleKey 0 0 0, 0⟩) ops) Addressed
        (· ≠ .outOfBounds)) ↔ 96 ≤ 96 :=
  addressed_iff 96 (by decide) _

/-- A table for an empty file has no bucket. -/
theorem not_addressed_empty :
    ¬ Addressed (cuckooFilterInit 0 fun _ => ⟨sampleKey 0 0 0, 0⟩) ∧
      cuckooFilterGet (cuckooFilterInit 0 fun _ => ⟨sampleKey 0 0 0, 0⟩)
        (sampleKey 1 2 0) = .error .outOfBounds := by
  have hget : cuckooFilterGet (cuckooFilterInit 0 fun _ => ⟨sampleKey 0 0 0, 0⟩) (sampleKey 1 2 0) =
      .error .outOfBounds := by
    decide +kernel
  exact ⟨fun h => h.gets _ hget, hget⟩

end Cuckoo
