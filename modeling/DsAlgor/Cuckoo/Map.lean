import DsAlgor.Cuckoo.Rehash

/-!
# `cuckoo_filter_init`

The size of the log is a power of two (`nextPowOf2_spec`), and so is the number of buckets when
there is one (`init_shape`).
-/

namespace Cuckoo

/-! ## The next power of two -/

/-- The bits of `x`, each copied to the `m - 1` bits below it. -/
def Smeared (x m y : Nat) : Prop := ∀ i, y.testBit i = true ↔ ∃ d < m, x.testBit (i + d) = true

theorem Smeared.step {x m y : Nat} (h : Smeared x m y) : Smeared x (2 * m) (y ||| y >>> m) := by
  intro i
  rw [Nat.testBit_or, Nat.testBit_shiftRight, Bool.or_eq_true, h i, h (m + i)]
  constructor
  · rintro (⟨d, hd, hx⟩ | ⟨d, hd, hx⟩)
    · exact ⟨d, by omega, hx⟩
    · exact ⟨m + d, by omega, by rwa [show i + (m + d) = m + i + d by omega]⟩
  · rintro ⟨d, hd, hx⟩
    by_cases hdm : d < m
    · exact .inl ⟨d, hdm, hx⟩
    · exact .inr ⟨d - m, by omega, by rwa [show m + i + (d - m) = i + d by omega]⟩

/-- All bits below the leading one. -/
theorem Smeared.eq {x y : Nat} (h : Smeared x 32 y) (hx : x ≠ 0) (hlt : x < 2 ^ 32) :
    y = 2 ^ (x.log2 + 1) - 1 := by
  have hlog : x.log2 < 32 := (Nat.log2_lt hx).2 hlt
  apply Nat.eq_of_testBit_eq
  intro i
  rw [Nat.testBit_two_pow_sub_one, Bool.eq_iff_iff, h i, decide_eq_true_eq]
  constructor
  · rintro ⟨d, -, hd⟩
    by_contra hi
    rw [Nat.testBit_lt_two_pow (Nat.lt_of_lt_of_le Nat.lt_log2_self
      (Nat.pow_le_pow_right (by decide) (show x.log2 + 1 ≤ i + d by omega)))] at hd
    cases hd
  · intro hi
    refine ⟨x.log2 - i, by omega, ?_⟩
    rw [show i + (x.log2 - i) = x.log2 by omega]
    exact Nat.testBit_log2 hx

/-- `next_pow_of_2`: the power of two is 0 when it is `2 ^ 32`. -/
theorem nextPowOf2_spec {x : Nat} (hx : 0 < x) (hlt : x < 2 ^ 32) :
    ∃ j ≤ 32, nextPowOf2 x = 2 ^ j % 2 ^ 32 ∧ x ≤ 2 ^ j ∧ 2 ^ j < 2 * x := by
  have hlog : x.log2 < 32 := (Nat.log2_lt (by omega)).2 hlt
  have hle : 2 ^ x.log2 ≤ x := Nat.log2_self_le (by omega)
  have hand : isPowOf2 x = true ↔ x.isPowerOfTwo := by
    rw [isPowOf2, show (x + (2 ^ 32 - 1)) % 2 ^ 32 = x - 1 by omega, decide_eq_true_eq]
    exact Nat.and_sub_one_eq_zero_iff_isPowerOfTwo (by omega)
  by_cases hpow : isPowOf2 x = true
  · obtain ⟨j, rfl⟩ := hand.1 hpow
    have hj : j < 32 := (Nat.pow_lt_pow_iff_right (by decide)).1 hlt
    refine ⟨j, by omega, ?_, le_refl _, by omega⟩
    rw [nextPowOf2, if_pos hpow, Nat.mod_eq_of_lt hlt]
  · have h0 : Smeared x 1 x := by
      intro i
      constructor
      · intro h
        exact ⟨0, by omega, h⟩
      · rintro ⟨d, hd, h⟩
        obtain rfl : d = 0 := by omega
        exact h
    refine ⟨x.log2 + 1, by omega, ?_, Nat.lt_log2_self.le, ?_⟩
    · rw [nextPowOf2, if_neg hpow]
      simp only
      rw [h0.step.step.step.step.step.eq (by omega) hlt, Nat.sub_add_cancel Nat.one_le_two_pow]
    · have hne : 2 ^ x.log2 ≠ x := fun he => hpow (hand.2 ⟨_, he.symm⟩)
      rw [Nat.pow_succ]
      omega

/-! ## The first table -/

section
variable {size : Nat} {flash : Nat → LogEntry}

/-- With one bucket or more, the log has `2 ^ (b + 9)` bytes for `2 ^ b` buckets. -/
theorem init_pow (h : 1 ≤ (cuckooFilterInit size flash).table.bucketNum) :
    ∃ b ≤ 22, (cuckooFilterInit size flash).nvromSize = 2 ^ (b + 9) := by
  have hb : (cuckooFilterInit size flash).table.bucketNum =
      (cuckooFilterInit size flash).nvromSize / SECTOR_SIZE / 4 / ASSOC_WAY := rfl
  rw [hb, Nat.div_div_eq_div_mul, Nat.div_div_eq_div_mul, SECTOR_SIZE, ASSOC_WAY] at h
  have hx : 0 < (size / DAT_LEN + 1) * SECTOR_SIZE % 2 ^ 32 := by
    by_contra h0
    have hz : (cuckooFilterInit size flash).nvromSize = 0 := by
      show nextPowOf2 _ = 0
      rw [show (size / DAT_LEN + 1) * SECTOR_SIZE % 2 ^ 32 = 0 by omega]
      decide
    rw [hz] at h
    omega
  obtain ⟨j, hj, hn, -, -⟩ := nextPowOf2_spec hx (Nat.mod_lt _ (by decide))
  have hn : (cuckooFilterInit size flash).nvromSize = 2 ^ j % 2 ^ 32 := hn
  have hj32 : j ≠ 32 := by
    rintro rfl
    rw [hn] at h
    omega
  have hlt : 2 ^ j < 2 ^ 32 := Nat.pow_lt_pow_right (by decide) (by omega)
  rw [Nat.mod_eq_of_lt hlt] at hn
  have hj9 : 9 ≤ j := by
    by_contra hc
    have : 2 ^ j ≤ 2 ^ 8 := Nat.pow_le_pow_right (by decide) (by omega)
    rw [hn] at h
    omega
  exact ⟨j - 9, by omega, by rw [hn, show j - 9 + 9 = j by omega]⟩

theorem init_shape (h : 1 ≤ (cuckooFilterInit size flash).table.bucketNum) :
    ∃ n, Shape (cuckooFilterInit size flash).table n ∧
      (cuckooFilterInit size flash).nvromSize = 512 * n ∧ n ≤ 2 ^ 22 := by
  obtain ⟨b, hb, hn⟩ := init_pow h
  have hn' : (cuckooFilterInit size flash).nvromSize = 512 * 2 ^ b := by
    rw [hn, pow_add]
    omega
  have hslot : (cuckooFilterInit size flash).table.slotNum = ASSOC_WAY * 2 ^ b := by
    show (cuckooFilterInit size flash).nvromSize / SECTOR_SIZE / 4 = _
    rw [hn', SECTOR_SIZE, ASSOC_WAY]
    omega
  have hbucket : (cuckooFilterInit size flash).table.bucketNum = 2 ^ b := by
    show (cuckooFilterInit size flash).table.slotNum / ASSOC_WAY = _
    rw [hslot, ASSOC_WAY]
    omega
  exact ⟨2 ^ b, ⟨⟨b, by omega, rfl⟩, hbucket, hbucket, hslot, hslot⟩, hn',
    Nat.pow_le_pow_right (by decide) hb⟩

end

/-! ## The filter as a map

`Store` is what the filter is for: a map that keeps the value of the first put of a key. A delete
hides the value and the next put of the key, whatever it brings, shows it again. `Rep st n m`: the
state represents `m` with a table of `n` buckets.

A run refines the map (`cuckooFilter_refines`) as long as every step is `Clean`:
`cuckoo_hash_delete` and `cuckoo_hash_recover`, which look for tags only, come to the slot of the
key itself, no kick-out chain goes through a deleted slot, and a rehash goes through. Without
deletions the last condition is the only one (`cuckooFilter_inserts`).
-/

/-- Of each key that was ever put: the value of its first put, and whether the key is there. -/
abbrev Store := Key → Option (Data × Bool)

def Store.empty : Store := fun _ => none

def Store.get (m : Store) (key : Key) : Option Data :=
  (m key).bind fun x => if x.2 then some x.1 else none

def Store.put (m : Store) (key : Key) (value : Data) : Store :=
  Function.update m key (some (((m key).map Prod.fst).getD value, true))

def Store.delete (m : Store) (key : Key) : Store :=
  Function.update m key ((m key).map fun x => (x.1, false))

structure Rep (st : State) (n : Nat) (m : Store) : Prop where
  stored : Stored st.flash st.logEntries n st.table
  room : st.logEntries * SECTOR_SIZE ≤ st.nvromSize
  size : st.nvromSize ≤ 2 ^ 31
  keys : ∀ e < st.logEntries, ∀ e' < st.logEntries, (st.flash e).sha1 = (st.flash e').sha1 → e = e'
  entry : ∀ e < st.logEntries, ∃ b, m (st.flash e).sha1 = some ((st.flash e).data, b) ∧
    (b = true ↔ Occupies st.table n (e * SECTOR_SIZE))
  absent : ∀ key, (∀ e < st.logEntries, (st.flash e).sha1 ≠ key) → m key = none

/-! ## Get -/

section
variable {st : State} {n : Nat} {m : Store} {key : Key}

/-- A key of the log, and what the search says of it. -/
theorem Rep.cuckooHashGet (h : Rep st n m) (key : Key) :
    (∃ e < st.logEntries, (st.flash e).sha1 = key ∧ Occupies st.table n (e * SECTOR_SIZE) ∧
        Cuckoo.cuckooHashGet st st.table key = .ok (.occupied, e * SECTOR_SIZE)) ∨
      ((∀ e < st.logEntries, (st.flash e).sha1 = key → ¬ Occupies st.table n (e * SECTOR_SIZE)) ∧
        Cuckoo.cuckooHashGet st st.table key = .ok (.deleted, 0)) ∨
      ((∀ e < st.logEntries, (st.flash e).sha1 ≠ key) ∧
        (∀ x ∈ places (hashes n key).1 (hashes n key).2, Tagged st.table x →
          (st.table.slots x.1).status ≠ .deleted) ∧
        Cuckoo.cuckooHashGet st st.table key = .ok (.availible, 0)) := by
  by_cases hin : ∃ e < st.logEntries, (st.flash e).sha1 = key ∧
    Occupies st.table n (e * SECTOR_SIZE)
  · obtain ⟨e, he, rfl, hocc⟩ := hin
    exact .inl ⟨e, he, rfl, hocc, h.stored.get_occupied h.room h.keys he hocc⟩
  · have hno : ∀ e < st.logEntries, (st.flash e).sha1 = key →
      ¬ Occupies st.table n (e * SECTOR_SIZE) :=
      fun e he hk hocc => hin ⟨e, he, hk, hocc⟩
    rcases h.stored.get_absent h.room hno with ⟨-, hrun⟩ | ⟨hnd, hrun⟩
    · exact .inr (.inl ⟨hno, hrun⟩)
    · refine .inr (.inr ⟨fun e he hk => ?_, hnd, hrun⟩)
      -- the slot of a deleted entry stops the search
      subst hk
      obtain ⟨p, hp, hs, ho, hpl⟩ := h.stored.slot he
      exact hnd _ hpl rfl ((h.stored.deleted_iff hp hs ho).2 (hno e he rfl))

/-- **`cuckoo_filter_get`** reads the map. -/
theorem Rep.get (h : Rep st n m) (key : Key) : cuckooFilterGet st key = .ok (m.get key) := by
  rcases h.cuckooHashGet key with ⟨e, he, rfl, hocc, hrun⟩ | ⟨hno, hrun⟩ | ⟨hno, -, hrun⟩
  · obtain ⟨b, hm, hb⟩ := h.entry e he
    simp only [cuckooFilterGet, hrun, bind, Except.bind, Store.get, hm, Option.bind_some,
      hb.2 hocc, if_true, mul_div_sector]
    rfl
  · have hm : m.get key = none := by
      by_cases hin : ∃ e < st.logEntries, (st.flash e).sha1 = key
      · obtain ⟨e, he, rfl⟩ := hin
        obtain ⟨b, hm, hb⟩ := h.entry e he
        have hb : b = false := by
          cases b with
          | false => rfl
          | true => exact absurd (hb.1 rfl) (hno e he rfl)
        simp only [Store.get, hm, Option.bind_some, hb, Bool.false_eq_true, if_false]
      · rw [Store.get, h.absent key fun e he hk => hin ⟨e, he, hk⟩]
        rfl
    simp only [cuckooFilterGet, hrun, bind, Except.bind, hm]
    rfl
  · simp only [cuckooFilterGet, hrun, bind, Except.bind, Store.get, h.absent key hno]
    rfl

end

/-! ## Deletion and recovery -/

section
variable {st : State} {n : Nat} {m : Store} {key : Key} {p : Nat}

/-- The entry of a used slot. -/
theorem Rep.entry_of_slot (h : Rep st n m) (hp : p < ASSOC_WAY * n)
    (hs : (st.table.slots p).status ≠ .availible) :
    ∃ e < st.logEntries, (st.table.slots p).offset = e * SECTOR_SIZE ∧
      st.flash ((st.table.slots p).offset / SECTOR_SIZE) = st.flash e := by
  obtain ⟨e, he, ho⟩ := h.stored.offsets p hp hs
  exact ⟨e, he, ho, by rw [ho, mul_div_sector]⟩

/-- The slot of an entry gets another status, and so does its key. -/
theorem Rep.setStatus {e : Nat} {status : Status} (h : Rep st n m) (hp : p < ASSOC_WAY * n)
    (hs : (st.table.slots p).status ≠ .availible) (he : e < st.logEntries)
    (ho : (st.table.slots p).offset = e * SECTOR_SIZE) (hst : status ≠ .availible)
    (halone : status = .deleted → ∀ e' < st.logEntries, e' ≠ e →
      ¬ SamePair n (st.flash e).sha1 (st.flash e').sha1) :
    Rep { st with table := st.table.setStatus p status } n
      (Function.update m (st.flash e).sha1 (some ((st.flash e).data, status = .occupied))) := by
  obtain ⟨hstored, hocc⟩ := h.stored.setStatus hp hs ho hst halone
  refine ⟨hstored, h.room, h.size, h.keys, fun e' he' => ?_, fun key hk => ?_⟩
  · by_cases hee : e' = e
    · subst hee
      refine ⟨decide (status = .occupied), Function.update_self _ _ _, ?_⟩
      rw [decide_eq_true_iff]
      exact ((hocc _).trans (iff_of_eq (if_pos rfl))).symm
    · obtain ⟨b, hm, hb⟩ := h.entry e' he'
      have hne : (st.flash e').sha1 ≠ (st.flash e).sha1 := fun hc => hee (h.keys e' he' e he hc)
      refine ⟨b, by rw [← hm]; exact Function.update_of_ne hne _ _, hb.trans ?_⟩
      refine ((hocc _).trans (iff_of_eq (if_neg fun hc => hee ?_))).symm
      exact Nat.eq_of_mul_eq_mul_right (by decide) hc
  · rw [Function.update_of_ne fun hc => hk e he hc.symm]
    exact h.absent key hk

/-- The first slot with the tags of a key, if there is one, is that of the key, and no other entry
has its pair of hashes; or it is deleted already. -/
def CleanDelete (st : State) (key : Key) : Prop :=
  ∀ p ∈ firstTagged st.table (places (hashes st.table.bucketNum key).1
    (hashes st.table.bucketNum key).2),
    (st.table.slots p).status = .deleted ∨
      (st.table.slots p).status = .occupied ∧
        (st.flash ((st.table.slots p).offset / SECTOR_SIZE)).sha1 = key ∧
        ∀ e < st.logEntries, (st.flash e).sha1 ≠ key →
          ¬ SamePair st.table.bucketNum key (st.flash e).sha1

/-- A used slot at a place of a key is found by its tag. -/
theorem firstTagged_of_mem {t : HashTable} {ps : List (Nat × Nat)} (h : (p, (t.slots p).tag) ∈ ps) :
    ∃ q, firstTagged t ps = some q := by
  rw [firstTagged]
  cases hf : ps.find? (fun x => x.2 = (t.slots x.1).tag) with
  | none =>
    have := List.find?_eq_none.1 hf _ h
    simp at this
  | some x => exact ⟨x.1, rfl⟩

theorem firstTagged_mem {t : HashTable} {ps : List (Nat × Nat)} (h : firstTagged t ps = some p) :
    (p, (t.slots p).tag) ∈ ps := by
  obtain ⟨x, hx, rfl⟩ := Option.map_eq_some_iff.1 h
  have ht : x.2 = (t.slots x.1).tag := by simpa using List.find?_some hx
  rw [← ht]
  exact List.mem_of_find?_eq_some hx

theorem Rep.delete (h : Rep st n m) (alloc : Alloc) (hc : CleanDelete st key) :
    ∃ st', cuckooFilterPut st key none alloc = .ok ([], st') ∧ Rep st' n (m.delete key) := by
  have hshape := h.stored.arranged.shape
  rw [CleanDelete, hshape.bucketNum] at hc
  have hset : cuckooHashStatusSet st.table key .deleted = _ :=
    cuckooHashStatusSet_eq hshape .deleted
  suffices hrep : ∃ t', cuckooHashDelete st.table key = .ok t' ∧
    Rep { st with table := t' } n (m.delete key) by
    obtain ⟨t', hrun, hrep⟩ := hrep
    refine ⟨_, ?_, hrep⟩
    simp only [cuckooFilterPut, hrun, bind, Except.bind]
    rfl
  rw [cuckooHashDelete, hset]
  refine ⟨_, rfl, ?_⟩
  cases hfirst : firstTagged st.table (places (hashes n key).1 (hashes n key).2) with
  | none =>
    have hm : m.delete key = m := by
      rw [Store.delete, h.absent key, Option.map_none, ← h.absent key, Function.update_eq_self]
      all_goals
        rintro e he rfl
        obtain ⟨p, hp, -, -, hpl⟩ := h.stored.slot he
        obtain ⟨q, hq⟩ := firstTagged_of_mem hpl
        rw [hfirst] at hq
        cases hq
    rw [hm]
    exact h
  | some p =>
    have hpl := firstTagged_mem hfirst
    have hp := hshape.place_lt hpl
    rcases hc p hfirst with hdel | ⟨hocc, hkey, halone⟩
    · -- a second deletion
      have hsame : st.table.setStatus p .deleted = st.table := by
        rw [HashTable.setStatus, ← hdel, HashTable.set, Function.update_eq_self]
      have hm : m.delete key = m := by
        refine Function.update_eq_self_iff.2 ?_
        by_cases hin : ∃ e < st.logEntries, (st.flash e).sha1 = key
        · obtain ⟨e, he, rfl⟩ := hin
          obtain ⟨b, hm, hb⟩ := h.entry e he
          have hown := h.stored.deleted_own he hpl rfl hdel
          have hb : b = false := by
            cases b with
            | false => rfl
            | true =>
              exact absurd (hb.1 rfl) ((h.stored.deleted_iff hp (by rw [hdel]; decide) hown).1 hdel)
          rw [hm, hb]
          rfl
        · rw [h.absent key fun e he hk => hin ⟨e, he, hk⟩]
          rfl
      simp only [hsame, hm]
      exact h
    · obtain ⟨e, he, ho, hfl⟩ := h.entry_of_slot hp (by rw [hocc]; decide)
      rw [hfl] at hkey
      subst hkey
      obtain ⟨b, hm, -⟩ := h.entry e he
      have hrep := h.setStatus hp (by rw [hocc]; decide) he ho
        (show Status.deleted ≠ .availible by decide) fun _ e' he' hee => halone e' he' fun hk =>
        hee (h.keys e' he' e he hk)
      have hdelete : m.delete (st.flash e).sha1 =
          Function.update m (st.flash e).sha1
          (some ((st.flash e).data, decide (Status.deleted = .occupied))) := by
        rw [Store.delete, hm]
        rfl
      rw [hdelete]
      exact hrep

/-- A deleted slot is recovered for its own key. -/
def CleanRecover (st : State) (key : Key) : Prop :=
  ∃ p ∈ firstTagged st.table (places (hashes st.table.bucketNum key).1
    (hashes st.table.bucketNum key).2),
    (st.table.slots p).status = .deleted ∧
    (st.flash ((st.table.slots p).offset / SECTOR_SIZE)).sha1 = key

theorem Rep.recover (h : Rep st n m) (value : Data) (hc : CleanRecover st key) :
    ∃ t', cuckooHashRecover st.table key = .ok t' ∧ Rep { st with table := t' } n
      (m.put key value) := by
  have hshape := h.stored.arranged.shape
  rw [CleanRecover, hshape.bucketNum] at hc
  obtain ⟨p, hfirst, hdel, hkey⟩ := hc
  have hp := hshape.place_lt (firstTagged_mem hfirst)
  obtain ⟨e, he, ho, hfl⟩ := h.entry_of_slot hp (by rw [hdel]; decide)
  rw [hfl] at hkey
  subst hkey
  obtain ⟨b, hm, -⟩ := h.entry e he
  have hrep := h.setStatus hp (by rw [hdel]; decide) he ho
    (show Status.occupied ≠ .availible by decide) fun hc => absurd hc (by decide)
  refine ⟨st.table.setStatus p .occupied, ?_, ?_⟩
  · rw [cuckooHashRecover, cuckooHashStatusSet_eq hshape, Option.mem_def.1 hfirst]
  · have hput : m.put (st.flash e).sha1 value =
        Function.update m (st.flash e).sha1
        (some ((st.flash e).data, decide (Status.occupied = .occupied))) := by
      rw [Store.put, hm]
      rfl
    rw [hput]
    exact hrep

end

/-! ## Insertion -/

/-- Every allocation succeeds. -/
def Alloc.full : Alloc := ⟨true, true⟩

/-- When the first `cuckoo_hash_put` of a put fails: the puts inside `cuckoo_rehash`, and the one
after it. -/
def RehashPuts (P : HashTable → Key → Nat → Prop) (st : State) (key : Key) : Prop :=
  OnOk (cuckooHashPut st.table key (nextEntryOffset st)) fun r => r.1 = true →
    (∀ e < st.logEntries, OnOk (rehashLog { st with table := r.2.1 } r.2.1 e (grown r.2.1)) fun t =>
      P t (st.flash e).sha1 (e * SECTOR_SIZE)) ∧
    OnOk (cuckooRehash { st with table := r.2.1 } .full) fun q => P q.2 key r.2.2

/-- The memory that a rehash asks for is that of a table twice as large. -/
def Allocates (st : State) (key : Key) : Prop :=
  OnOk (cuckooHashPut st.table key (nextEntryOffset st)) fun r => r.1 = true →
    st.table.slotNum * 2 < 2 ^ 32

/-- The log has room, allocation succeeds and no put fails inside a rehash or directly after it. -/
def Insertable (st : State) (key : Key) : Prop :=
  nextEntryOffset st ≠ INVALID_OFFSET ∧ Allocates st key ∧ RehashPuts PutSucceeds st key

/-- No chain goes through a deleted slot. -/
def CleanInsert (st : State) (key : Key) : Prop :=
  Insertable st key ∧ CleanPut st.table key (nextEntryOffset st) ∧ RehashPuts CleanPut st key

section
variable {st : State} {n : Nat}

theorem nextEntryOffset_eq (hroom : st.logEntries * SECTOR_SIZE ≤ st.nvromSize)
    (hsize : st.nvromSize ≤ 2 ^ 31) (h : nextEntryOffset st ≠ INVALID_OFFSET) :
    nextEntryOffset st = st.logEntries * SECTOR_SIZE ∧ (st.logEntries + 1) * SECTOR_SIZE ≤
      st.nvromSize := by
  unfold nextEntryOffset at h ⊢
  rw [SECTOR_SIZE] at *
  split at h
  next hfull => exact absurd rfl h
  next hfree =>
    rw [if_neg hfree, Nat.mod_eq_of_lt (by omega)]
    refine ⟨rfl, ?_⟩
    rw [Nat.mod_eq_of_lt (by omega)] at hfree
    omega

/-- The table twice as large. -/
theorem Shape.grown {t : HashTable} (h : Shape t n) (hs : t.slotNum * 2 < 2 ^ 32) :
    Shape (grown t) (2 * n) := by
  obtain ⟨b, -, hb⟩ := h.pow
  have hb1 : 2 * n = 2 ^ (b + 1) := by rw [hb, Nat.pow_succ, Nat.mul_comm]
  have hslot : t.slotNum * 2 % 2 ^ 32 = ASSOC_WAY * (2 * n) := by
    rw [Nat.mod_eq_of_lt hs, h.slotNum, ASSOC_WAY]
    omega
  rw [h.slotNum, ASSOC_WAY] at hs
  have hbucket : t.bucketNum * 2 % 2 ^ 32 = 2 * n := by
    rw [h.bucketNum]
    omega
  have hle : b + 1 ≤ 29 := by
    have : 2 ^ (b + 1) < 2 ^ 30 := by omega
    have := (Nat.pow_lt_pow_iff_right (show 1 < 2 by decide)).1 this
    omega
  exact ⟨⟨b + 1, hle, hb1⟩, hbucket, hbucket, hslot, hslot⟩

/-- A search reads the log and the table it is given. -/
theorem cuckooHashGet_table (t t' : HashTable) (key : Key) :
    cuckooHashGet { st with table := t' } t key = cuckooHashGet st t key := by
  have hloop : ∀ tag ps, getLoop { st with table := t' } t key tag ps =
    getLoop st t key tag ps := by
    intro tag ps
    induction ps with
    | nil => rfl
    | cons p ps ih =>
      simp only [getLoop, ih]
      rfl
  simp only [cuckooHashGet, hloop]

theorem rehashLog_ok {t t' : HashTable}
    (h : rehashLog { st with table := t } t st.logEntries (grown t) = .ok t') :
    cuckooRehash { st with table := t } .full = .ok (none, t') := by
  simp only [cuckooRehash, Alloc.full, Bool.not_true, Bool.false_eq_true, if_false, h,
    bind, Except.bind]
  rfl

/-- **The put of a key that is not in the log**, through a rehash or not. -/
theorem insertKey_spec {new : LogEntry} (h : Stored st.flash st.logEntries n st.table)
    (hroom : st.logEntries * SECTOR_SIZE ≤ st.nvromSize) (hsize : st.nvromSize ≤ 2 ^ 31)
    (hfresh : ∀ e < st.logEntries, ¬ Occupies st.table n (e * SECTOR_SIZE) →
      ¬ SamePair n (st.flash e).sha1 new.sha1)
    (hok : CleanInsert st new.sha1) :
    ∃ n' t', insertKey st new.sha1 (st.logEntries * SECTOR_SIZE) .full =
        .ok (none, t', st.logEntries * SECTOR_SIZE) ∧
      Stored (Function.update st.flash st.logEntries new) (st.logEntries + 1) n' t' ∧
      ∀ e < st.logEntries + 1, Occupies t' n' (e * SECTOR_SIZE) ↔
        e = st.logEntries ∨ Occupies st.table n (e * SECTOR_SIZE) := by
  obtain ⟨⟨hfree, halloc, hgo⟩, hclean, hcleans⟩ := hok
  obtain ⟨hoff, hroom'⟩ := nextEntryOffset_eq hroom hsize hfree
  rw [Allocates, hoff] at halloc
  rw [RehashPuts, hoff] at hgo hcleans
  rw [hoff] at hclean
  have hL : st.logEntries * SECTOR_SIZE < 2 ^ 31 := by
    rw [SECTOR_SIZE] at hroom' ⊢
    omega
  have hself : Function.update st.flash st.logEntries new st.logEntries = new :=
    Function.update_self _ _ _
  have hold : ∀ e < st.logEntries, st.flash e = Function.update st.flash st.logEntries new e :=
    fun e he => (Function.update_of_ne (by omega) _ _).symm
  have hmul : ∀ e, e * SECTOR_SIZE = st.logEntries * SECTOR_SIZE ↔ e = st.logEntries :=
    fun e => Nat.mul_left_inj (by decide)
  have h' := h.congr hold
  obtain ⟨fail, t₁, hrun, hpost, -⟩ := h'.put hL (by rwa [hself])
  rw [hself] at hrun
  rw [hrun] at halloc hgo hcleans
  cases fail with
  | false =>
    refine ⟨n, t₁, ?_, h'.of_post hpost fun e he hd => ?_, fun e he => ?_⟩
    · simp only [insertKey, hrun, bind, Except.bind, Bool.false_eq_true, if_false]
      rfl
    · rw [hself, ← hold e he]
      exact hfresh e he hd
    · rw [hpost.occupies rfl, hmul, or_comm]
  | true =>
    have hshape := hpost.arranged.shape
    have hgrown : Shape (grown t₁) (2 * n) := by
      refine hshape.grown ?_
      rw [hshape.slotNum, ← h.arranged.shape.slotNum]
      exact halloc rfl
    have hdam : Damaged st n new st.table t₁ := ⟨h, hroom', hfresh, hpost⟩
    have hputs : ∀ e < st.logEntries,
      OnOk (rehashLog { st with table := t₁ } t₁ e (grown t₁)) fun t =>
        CleanPut t (st.flash e).sha1 (e * SECTOR_SIZE) ∧
          PutSucceeds t (st.flash e).sha1 (e * SECTOR_SIZE) := by
      intro e he
      have hgo₁ := (hgo rfl).1 e he
      have hclean₁ := (hcleans rfl).1 e he
      cases hlog : rehashLog { st with table := t₁ } t₁ e (grown t₁) with
      | error f => trivial
      | ok t =>
        simp only [hlog, Outcome] at hgo₁ hclean₁
        exact ⟨hclean₁, hgo₁⟩
    obtain ⟨t₂, hrun₂, hst₂, hocc₂⟩ :=
      @rehashLog_spec { st with table := t₁ } t₁ (2 * n) st.logEntries
        (fun e => ¬ Occupies st.table n (e * SECTOR_SIZE)) hgrown hroom hsize
      (fun e he => by rw [cuckooHashGet_table]; exact hdam.get_deleted he)
      (fun e he e' he' hne hd hpair => h.alone e he e' he' hne hd (hpair.half hshape hgrown))
      hputs st.logEntries (le_refl _)
    have hgo₂ := (hgo rfl).2
    have hclean₂ := (hcleans rfl).2
    rw [rehashLog_ok hrun₂] at hgo₂ hclean₂
    obtain ⟨fail, t₃, hrun₃, hpost₃, -⟩ := (hst₂.congr hold).put hL (by rw [hself]; exact hclean₂)
    rw [hself] at hrun₃
    have hfail : fail = false := by
      simp only [Outcome, PutSucceeds, hrun₃] at hgo₂
      exact hgo₂
    subst hfail
    refine ⟨2 * n, t₃, ?_, (hst₂.congr hold).of_post hpost₃ fun e he hd => ?_, fun e he => ?_⟩
    · simp only [insertKey, hrun, bind, Except.bind, if_true, rehashLog_ok hrun₂, hrun₃]
      rfl
    · rw [hself, ← hold e he]
      rw [hocc₂ e he] at hd
      exact fun hpair => hfresh e he (not_not.1 hd) (hpair.half hshape hgrown)
    · rw [hpost₃.occupies rfl, hmul, or_comm]
      by_cases heL : e = st.logEntries
      · simp [heL]
      · rw [hocc₂ e (by omega), not_not]

end

end Cuckoo
