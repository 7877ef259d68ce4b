import DsAlgor.Cuckoo.Map

/-!
# Runs of the filter

A run is a sequence of puts and deletes; gets change nothing. `AllSteps C st ops` says that every
step of a run meets a condition on the state before it.
-/

namespace Cuckoo

inductive Op
  | put (key : Key) (value : Data)
  | delete (key : Key)

def step (st : State) : Op → Except Fault State
  | .put key value => (cuckooFilterPut st key (some value) .full).map Prod.snd
  | .delete key => (cuckooFilterPut st key none .full).map Prod.snd

def run (st : State) (ops : List Op) : Except Fault State := ops.foldlM step st

def AllSteps (C : State → Op → Prop) : State → List Op → Prop
  | _, [] => True
  | st, op :: ops => C st op ∧ OnOk (step st op) fun st' => AllSteps C st' ops

/-- What a put does is settled by what the search says of the key. -/
def CleanStep (st : State) : Op → Prop
  | .put key _ => OnOk (cuckooHashGet st st.table key) fun r =>
    (r.1 = .deleted → CleanRecover st key) ∧ (r.1 = .availible → CleanInsert st key)
  | .delete key => CleanDelete st key

instance (n : Nat) (key key' : Key) : Decidable (SamePair n key key') :=
  inferInstanceAs (Decidable (_ ∨ _))

instance (st : State) (key : Key) : Decidable (CleanDelete st key) :=
  inferInstanceAs (Decidable (∀ p ∈ firstTagged _ _, _))

instance (st : State) (key : Key) : Decidable (CleanRecover st key) :=
  inferInstanceAs (Decidable (∃ p ∈ firstTagged _ _, _))

instance (P : HashTable → Key → Nat → Prop) [∀ t key o, Decidable (P t key o)] (st : State)
    (key : Key) :
    Decidable (RehashPuts P st key) :=
  inferInstanceAs (Decidable (OnOk _ _))

instance (st : State) (key : Key) : Decidable (Allocates st key) :=
  inferInstanceAs (Decidable (OnOk _ _))

instance (st : State) (key : Key) : Decidable (Insertable st key) :=
  inferInstanceAs (Decidable (_ ∧ _))

instance (st : State) (key : Key) : Decidable (CleanInsert st key) :=
  inferInstanceAs (Decidable (_ ∧ _))

instance (st : State) : (op : Op) → Decidable (CleanStep st op)
  | .put _ _ => inferInstanceAs (Decidable (OnOk _ _))
  | .delete _ => inferInstanceAs (Decidable (CleanDelete _ _))

instance allStepsDecidable (C : State → Op → Prop) [∀ st op, Decidable (C st op)] :
    (st : State) → (ops : List Op) → Decidable (AllSteps C st ops)
  | _, [] => isTrue trivial
  | st, op :: ops =>
    have : DecidablePred fun st' => AllSteps C st' ops := fun st' => allStepsDecidable C st' ops
    inferInstanceAs (Decidable (C st op ∧ OnOk _ _))

/-! ## One step -/

section
variable {st : State} {n : Nat} {m : Store} {key : Key}

/-- A key whose search ends at a free slot shares its places with no deleted entry. -/
theorem Rep.fresh (h : Rep st n m)
    (hnd : ∀ x ∈ places (hashes n key).1 (hashes n key).2, Tagged st.table x →
      (st.table.slots x.1).status ≠ .deleted) :
    ∀ e < st.logEntries, ¬ Occupies st.table n (e * SECTOR_SIZE) →
      ¬ SamePair n (st.flash e).sha1 key := by
  intro e he hd hpair
  obtain ⟨p, hp, hs, ho, hpl⟩ := h.stored.slot he
  exact hnd _ ((samePair_iff hpl).2 hpair) rfl ((h.stored.deleted_iff hp hs ho).2 hd)

theorem Rep.insert (h : Rep st n m) (value : Data)
    (hno : ∀ e < st.logEntries, (st.flash e).sha1 ≠ key)
    (hnd : ∀ x ∈ places (hashes n key).1 (hashes n key).2, Tagged st.table x →
    (st.table.slots x.1).status ≠ .deleted)
    (hget : Cuckoo.cuckooHashGet st st.table key = .ok (.availible, 0)) (hok : CleanInsert st key) :
    ∃ st' n', cuckooFilterPut st key (some value) .full = .ok ([], st') ∧ Rep st' n'
      (m.put key value) := by
  obtain ⟨hoff, hroom'⟩ := nextEntryOffset_eq h.room h.size hok.1.1
  obtain ⟨n', t', hrun, hst, hocc⟩ :=
    @insertKey_spec st n ⟨key, value⟩ h.stored h.room h.size (h.fresh hnd) hok
  have hsize := h.size
  have hL : st.logEntries * SECTOR_SIZE ≠ INVALID_OFFSET := by
    rw [SECTOR_SIZE, INVALID_OFFSET] at *
    omega
  have hmod : (st.logEntries + 1) % 2 ^ 32 = st.logEntries + 1 := by
    rw [SECTOR_SIZE] at hroom'
    omega
  have hin : st.logEntries * SECTOR_SIZE + SECTOR_SIZE ≤ st.nvromSize := by
    rw [SECTOR_SIZE] at hroom' ⊢
    omega
  have hflash : ∀ e < st.logEntries, Function.update st.flash st.logEntries ⟨key, value⟩ e =
    st.flash e :=
    fun e he => Function.update_of_ne (by omega) _ _
  have hself : Function.update st.flash st.logEntries ⟨key, value⟩ st.logEntries = ⟨key, value⟩ :=
    Function.update_self _ _ _
  have hm : m key = none := h.absent key hno
  refine ⟨{ st with
    table := t'
    flash := Function.update st.flash st.logEntries ⟨key, value⟩
    logEntries := st.logEntries + 1 }, n', ?_, hst, hroom', hsize, fun e he e' he' hk => ?_,
      fun e he => ?_,
    fun k hk => ?_⟩
  · simp only [cuckooFilterPut, hget, hoff, hrun, bind, Except.bind, if_neg hL, if_pos hin, hmod,
      mul_div_sector]
    rfl
  · have he : e < st.logEntries + 1 := he
    have he' : e' < st.logEntries + 1 := he'
    simp only at hk
    by_cases heL : e = st.logEntries <;> by_cases heL' : e' = st.logEntries
    · rw [heL, heL']
    · rw [heL, hself, hflash e' (by omega)] at hk
      exact absurd hk.symm (hno e' (by omega))
    · rw [heL', hself, hflash e (by omega)] at hk
      exact absurd hk (hno e (by omega))
    · rw [hflash e (by omega), hflash e' (by omega)] at hk
      exact h.keys e (by omega) e' (by omega) hk
  · have he : e < st.logEntries + 1 := he
    simp only [Store.put, hm]
    by_cases heL : e = st.logEntries
    · refine ⟨true, ?_, iff_of_true rfl ((hocc e he).2 (.inl heL))⟩
      rw [heL, hself, Function.update_self]
      rfl
    · obtain ⟨b, hb, hbo⟩ := h.entry e (by omega)
      refine ⟨b, ?_, ?_⟩
      · rw [hflash e (by omega), Function.update_of_ne (hno e (by omega)), hb]
      · rw [hbo, hocc e he]
        exact (or_iff_right heL).symm
  · simp only at hk
    have hkey : key ≠ k := by
      have := hk st.logEntries (Nat.lt_succ_self _)
      rwa [hself] at this
    rw [Store.put, Function.update_of_ne hkey.symm]
    refine h.absent k fun e he => ?_
    have := hk e (Nat.lt_succ_of_lt he)
    rwa [hflash e he] at this

/-- A step of a run and of the map. -/
def Store.step (m : Store) : Op → Store
  | .put key value => m.put key value
  | .delete key => m.delete key

/-- **One clean step.** -/
theorem Rep.step {op : Op} (h : Rep st n m) (hc : CleanStep st op) :
    ∃ st' n', Cuckoo.step st op = .ok st' ∧ Rep st' n' (m.step op) := by
  cases op with
  | delete key =>
    obtain ⟨st', hrun, hrep⟩ := h.delete .full hc
    refine ⟨st', n, ?_, hrep⟩
    rw [Cuckoo.step, hrun]
    rfl
  | put key value =>
    rw [CleanStep] at hc
    rcases h.cuckooHashGet key with ⟨e, he, rfl, hocc, hget⟩ | ⟨hno, hget⟩ | ⟨hno, hnd, hget⟩ <;>
      rw [hget] at hc
    · -- a key that is there keeps its value
      obtain ⟨b, hm, hb⟩ := h.entry e he
      refine ⟨st, n, ?_, ?_⟩
      · simp only [Cuckoo.step, cuckooFilterPut, hget, bind, Except.bind]
        rfl
      · have hput : m.put (st.flash e).sha1 value = m := by
          refine Function.update_eq_self_iff.2 ?_
          rw [hm, hb.2 hocc]
          rfl
        rw [Store.step, hput]
        exact h
    · obtain ⟨t', hrun, hrep⟩ := h.recover value (hc.1 rfl)
      refine ⟨_, n, ?_, hrep⟩
      simp only [Cuckoo.step, cuckooFilterPut, hget, hrun, bind, Except.bind]
      rfl
    · obtain ⟨st', n', hrun, hrep⟩ := h.insert value hno hnd hget (hc.2 rfl)
      refine ⟨st', n', ?_, hrep⟩
      rw [Cuckoo.step, hrun]
      rfl

end

/-! ## Runs -/

theorem Rep.init {size : Nat} {flash : Nat → LogEntry}
    (h : 1 ≤ (cuckooFilterInit size flash).table.bucketNum) :
    ∃ n, Rep (cuckooFilterInit size flash) n .empty := by
  obtain ⟨n, hshape, hsize, hn⟩ := init_shape h
  refine ⟨n, Stored.empty hshape fun _ => rfl, Nat.zero_mul _ ▸ Nat.zero_le _, ?_, fun e he => ?_,
    fun e he => ?_, fun _ _ => rfl⟩
  · rw [hsize]
    omega
  · exact absurd he (Nat.not_lt_zero e)
  · exact absurd he (Nat.not_lt_zero e)

theorem Rep.run {st : State} {n : Nat} {m : Store} {ops : List Op} (h : Rep st n m)
    (hc : AllSteps CleanStep st ops) :
    ∃ st' n', Cuckoo.run st ops = .ok st' ∧ Rep st' n' (ops.foldl Store.step m) := by
  induction ops generalizing st n m with
  | nil => exact ⟨st, n, rfl, h⟩
  | cons op ops ih =>
    obtain ⟨hop, hrest⟩ := hc
    obtain ⟨st₁, n₁, hrun₁, hrep₁⟩ := h.step hop
    rw [hrun₁] at hrest
    obtain ⟨st', n', hrun, hrep⟩ := ih hrep₁ hrest
    refine ⟨st', n', ?_, hrep⟩
    rw [Cuckoo.run, List.foldlM_cons, hrun₁]
    exact hrun

/-- **The filter refines the map**: a run whose steps are clean returns, and gets answer as the map
does. -/
theorem cuckooFilter_refines (size : Nat) (flash : Nat → LogEntry) (ops : List Op)
    (h : 1 ≤ (cuckooFilterInit size flash).table.bucketNum)
    (hc : AllSteps CleanStep (cuckooFilterInit size flash) ops) :
    ∃ st, run (cuckooFilterInit size flash) ops = .ok st ∧
      ∀ key, cuckooFilterGet st key = .ok ((ops.foldl Store.step .empty).get key) := by
  obtain ⟨n, hrep⟩ := Rep.init h
  obtain ⟨st, n', hrun, hrep'⟩ := hrep.run hc
  exact ⟨st, hrun, hrep'.get⟩

/-- A key by its two hashes. -/
def sampleKey (word0 word1 : BitVec 64) (rest : BitVec 32) : Key := ⟨word0, word1, rest⟩

theorem cuckooFilter_refines_sample :
    (1 ≤ (cuckooFilterInit 400 fun _ => ⟨sampleKey 0 0 0, 0⟩).table.bucketNum ∧
      AllSteps CleanStep (cuckooFilterInit 400 fun _ => ⟨sampleKey 0 0 0, 0⟩)
        [.put (sampleKey 1 2 0) 7, .put (sampleKey 5 3 0) 8, .delete (sampleKey 1 2 0),
        .put (sampleKey 1 2 0) 9]) ∧
    ∃ st, run (cuckooFilterInit 400 fun _ => ⟨sampleKey 0 0 0, 0⟩)
        [.put (sampleKey 1 2 0) 7, .put (sampleKey 5 3 0) 8, .delete (sampleKey 1 2 0),
        .put (sampleKey 1 2 0) 9] = .ok st ∧
      ∀ key, cuckooFilterGet st key = .ok (([Op.put (sampleKey 1 2 0) 7, .put (sampleKey 5 3 0) 8,
        .delete (sampleKey 1 2 0), .put (sampleKey 1 2 0) 9].foldl Store.step .empty).get key) :=
  ⟨by decide +kernel, cuckooFilter_refines _ _ _ (by decide +kernel) (by decide +kernel)⟩

/-- A put after a delete brings the first value back; and a delete hides another key with the same
tags. -/
theorem put_after_delete_shows_first :
    ((run (cuckooFilterInit 400 fun _ => ⟨sampleKey 0 0 0, 0⟩)
        [.put (sampleKey 1 2 0) 7, .delete (sampleKey 1 2 0), .put (sampleKey 1 2 0) 9]).bind
          (cuckooFilterGet · (sampleKey 1 2 0))).toOption = some (some 7) ∧
      ((run (cuckooFilterInit 400 fun _ => ⟨sampleKey 0 0 0, 0⟩)
        [.put (sampleKey 1 2 0) 7, .put (sampleKey 1 2 1) 8]).bind
          (cuckooFilterGet · (sampleKey 1 2 1))).toOption = some (some 8) ∧
      ((run (cuckooFilterInit 400 fun _ => ⟨sampleKey 0 0 0, 0⟩)
        [.put (sampleKey 1 2 0) 7, .put (sampleKey 1 2 1) 8, .delete (sampleKey 1 2 0)]).bind
          (cuckooFilterGet · (sampleKey 1 2 1))).toOption = some none := by
  decide +kernel

/-! ## Without deletions -/

def NoDeleted (t : HashTable) : Prop := ∀ p, (t.slots p).status ≠ .deleted

section
variable {st : State} {t old : HashTable} {s : Kick} {key : Key}

theorem NoDeleted.set (h : NoDeleted t) {p : Nat} {slot : Slot} (hs : slot.status ≠ .deleted) :
    NoDeleted (t.set p slot) := by
  intro q
  by_cases hq : q = p
  · rwa [hq, set_slots_self]
  · rw [set_slots_of_ne hq]
    exact h q

theorem NoDeleted.takeSlot (h : NoDeleted t) {tag o o' : Nat} {ps : List Nat} {r : HashTable × Nat}
    (hr : Cuckoo.takeSlot t tag o' o ps = some r) : NoDeleted r.1 := by
  induction ps with
  | nil => cases hr
  | cons p ps ih =>
    rw [Cuckoo.takeSlot, if_neg fun hc => h p hc.2] at hr
    split at hr
    · cases hr
      exact h.set (by simp)
    · exact ih hr

theorem NoDeleted.swap (h : NoDeleted s.table) : NoDeleted s.swap.table :=
  NoDeleted.set h (h s.victim)

/-- What one round leaves behind. -/
theorem NoDeleted.kickOut (h : NoDeleted s.table) :
    OnOk (Cuckoo.kickOut s) fun r => Sum.elim (fun s' => s' = s.swap)
      (fun r => NoDeleted r.2.1) r := by
  refine Outcome.bind (P := fun _ => True) (OnOk.intro fun _ _ => trivial) fun ps _ => ?_
  cases htake : Cuckoo.takeSlot s.table (s.oldTag !s.i) s.oldOffset s.offset ps with
  | some r => exact h.takeSlot htake
  | none =>
    simp only
    split
    · exact h
    · exact rfl

theorem NoDeleted.kickLoop (fuel : Nat) (h : NoDeleted s.table) :
    kicksDeletedFrom fuel s = false ∧ OnOk (Cuckoo.kickLoop fuel s) fun r => NoDeleted r.2.1 := by
  induction fuel generalizing s with
  | zero => exact ⟨rfl, trivial⟩
  | succ fuel ih =>
    have hround := h.kickOut
    simp only [kicksDeletedFrom, Cuckoo.kickLoop, bind, Except.bind]
    cases hk : Cuckoo.kickOut s with
    | error e => exact ⟨rfl, trivial⟩
    | ok r =>
      rw [hk] at hround
      cases r with
      | inr r => exact ⟨rfl, hround⟩
      | inl s' =>
        obtain rfl : s' = s.swap := hround
        have := ih h.swap
        exact ⟨by simp [this.1, h s.victim], this.2⟩

theorem NoDeleted.cleanPut (h : NoDeleted t) (key : Key) (o : Nat) : CleanPut t key o := by
  intro _
  have hfirst : NoDeleted
    (firstKick t (hashes t.bucketNum key).1 (hashes t.bucketNum key).2 o).table :=
    h.set (h _)
  simp [kicksDeleted, h _, (hfirst.kickLoop _).1]

theorem NoDeleted.cuckooHashPut (h : NoDeleted t) (key : Key) (o : Nat) :
    OnOk (Cuckoo.cuckooHashPut t key o) fun r => NoDeleted r.2.1 := by
  refine Outcome.bind (P := fun _ => True) (OnOk.intro fun _ _ => trivial) fun ps _ => ?_
  cases htake : Cuckoo.takeSlot t (cuckooHashMsb key t.bucketNum) o o ps with
  | some r => exact h.takeSlot htake
  | none =>
    refine Outcome.bind (P := fun _ => True) (OnOk.intro fun _ _ => trivial) fun ps _ => ?_
    cases htake : Cuckoo.takeSlot t (cuckooHashLsb key t.bucketNum) o o ps with
    | some r => exact h.takeSlot htake
    | none =>
      refine Outcome.bind (P := fun _ => True) (OnOk.intro fun _ _ => trivial) fun _ _ => ?_
      have hfirst : NoDeleted (firstKick t (cuckooHashLsb key t.bucketNum)
        (cuckooHashMsb key t.bucketNum) o).table :=
        h.set (h _)
      exact (hfirst.kickLoop _).2

theorem NoDeleted.getLoop (h : NoDeleted t) {tag : Nat} (ps : List Nat) :
    OnOk (Cuckoo.getLoop st t key tag ps) fun r => ∀ x ∈ r, x.1 ≠ .deleted := by
  induction ps with
  | nil => exact fun x hx => nomatch hx
  | cons p ps ih =>
    rw [Cuckoo.getLoop]
    split
    · cases hs : (t.slots p).status with
      | availible => exact ih
      | deleted => exact absurd hs (h p)
      | occupied =>
        refine Outcome.bind (P := fun _ => True) (OnOk.intro fun _ _ => trivial) fun v _ => ?_
        cases v with
        | false => exact ih
        | true =>
          rintro x ⟨⟩
          simp
    · exact ih

theorem NoDeleted.cuckooHashGet (h : NoDeleted t) (key : Key) :
    OnOk (Cuckoo.cuckooHashGet st t key) fun r => r.1 ≠ .deleted := by
  refine Outcome.bind (P := fun _ => True) (OnOk.intro fun _ _ => trivial) fun ps _ => ?_
  refine Outcome.bind (h.getLoop ps) fun r hr => ?_
  cases r with
  | some r => exact hr r rfl
  | none =>
    refine Outcome.bind (P := fun _ => True) (OnOk.intro fun _ _ => trivial) fun ps _ => ?_
    refine Outcome.bind (h.getLoop ps) fun r hr => ?_
    cases r with
    | some r => exact hr r rfl
    | none => exact fun hc => nomatch hc

theorem NoDeleted.rehashLog (hold : NoDeleted old) (h : NoDeleted t) (e : Nat) :
    OnOk (Cuckoo.rehashLog st old e t) NoDeleted := by
  induction e with
  | zero => exact h
  | succ e ih =>
    refine Outcome.bind ih fun t ht => ?_
    rw [rehashEntry]
    split
    · refine Outcome.bind (ht.cuckooHashPut _ _) fun r hr => ?_
      obtain ⟨fail, t', o⟩ := r
      cases fail with
      | true => trivial
      | false =>
        refine Outcome.bind (hold.cuckooHashGet _) fun r hget => ?_
        obtain ⟨status, o'⟩ := r
        cases status with
        | deleted => exact absurd rfl hget
        | availible => exact hr
        | occupied => exact hr
    · trivial

theorem NoDeleted.cuckooRehash (h : NoDeleted st.table) :
    OnOk (Cuckoo.cuckooRehash st .full) fun r => NoDeleted r.2 := by
  have hgrown : NoDeleted (grown st.table) := fun p => by simp [grown, emptySlot]
  simp only [Cuckoo.cuckooRehash, Alloc.full, Bool.not_true, Bool.false_eq_true, if_false]
  exact Outcome.bind (h.rehashLog hgrown _) fun t ht => ht

/-- In a table without deleted slots every put is clean. -/
theorem NoDeleted.cleanInsert (h : NoDeleted st.table) (hok : Insertable st key) :
    CleanInsert st key := by
  refine ⟨hok, h.cleanPut _ _, (h.cuckooHashPut _ _).mono (fun r hr _ => ⟨fun e _ => ?_, ?_⟩)
    fun _ => id⟩
  · have hgrown : NoDeleted (grown r.2.1) := fun p => by simp [grown, emptySlot]
    exact (hr.rehashLog hgrown e).mono (fun t ht => ht.cleanPut _ _) fun _ => id
  · exact (@NoDeleted.cuckooRehash { st with table := r.2.1 } hr).mono
      (fun q hq => hq.cleanPut _ _) fun _ => id

/-- A put leaves no deleted slot where there was none. -/
theorem NoDeleted.step (h : NoDeleted st.table) (key : Key) (value : Data) :
    OnOk (Cuckoo.step st (.put key value)) fun st' => NoDeleted st'.table := by
  refine Outcome.map (Outcome.bind (h.cuckooHashGet key) fun r hr => ?_)
  obtain ⟨status, o⟩ := r
  cases status with
  | occupied => exact h
  | deleted => exact absurd rfl hr
  | availible =>
    have hins : OnOk (insertKey st key (nextEntryOffset st) .full) fun r => NoDeleted r.2.1 := by
      refine Outcome.bind (h.cuckooHashPut _ _) fun r hr => ?_
      obtain ⟨fail, t', o'⟩ := r
      cases fail with
      | false => exact hr
      | true =>
        refine Outcome.bind (@NoDeleted.cuckooRehash { st with table := t' } hr) fun q hq => ?_
        exact Outcome.bind (hq.cuckooHashPut _ _) fun r hr => hr
    refine Outcome.bind hins fun r hr => ?_
    simp only
    split
    · exact hr
    · split
      · exact hr
      · trivial

end

/-- A put of a key that is not there finds room, memory, and a rehash that goes through. -/
def InsertStep (st : State) : Op → Prop
  | .put key _ => OnOk (cuckooHashGet st st.table key) fun r => r.1 = .availible → Insertable st key
  | .delete _ => False

instance (st : State) : (op : Op) → Decidable (InsertStep st op)
  | .put _ _ => inferInstanceAs (Decidable (OnOk _ _))
  | .delete _ => isFalse id

/-- The map after puts only. -/
def ofPuts (puts : List (Key × Data)) : Store :=
  fun key => (puts.find? (·.1 = key)).map fun x => (x.2, true)

theorem ofPuts_concat (puts : List (Key × Data)) (x : Key × Data) :
    (ofPuts puts).put x.1 x.2 = ofPuts (puts ++ [x]) := by
  funext key
  rw [Store.put, ofPuts, ofPuts, List.find?_append]
  by_cases hk : key = x.1
  · subst hk
    rw [Function.update_self]
    cases puts.find? (·.1 = x.1) <;> simp
  · rw [Function.update_of_ne hk]
    rw [ofPuts]
    cases puts.find? (·.1 = key) with
    | some y => rfl
    | none => simp [Ne.symm hk]

theorem Rep.run_puts {st : State} {n : Nat} {done puts : List (Key × Data)}
    (h : Rep st n (ofPuts done)) (hnd : NoDeleted st.table)
    (hc : AllSteps InsertStep st (puts.map fun x => .put x.1 x.2)) :
    ∃ st' n', Cuckoo.run st (puts.map fun x => .put x.1 x.2) = .ok st' ∧ Rep st' n'
      (ofPuts (done ++ puts)) := by
  induction puts generalizing st n done with
  | nil => exact ⟨st, n, rfl, by rwa [List.append_nil]⟩
  | cons x puts ih =>
    obtain ⟨hstep, hrest⟩ := hc
    have hclean : CleanStep st (.put x.1 x.2) := by
      have hget : OnOk (Cuckoo.cuckooHashGet st st.table x.1) fun r => r.1 ≠ .deleted :=
        hnd.cuckooHashGet x.1
      rw [CleanStep]
      rw [InsertStep] at hstep
      cases hrun : Cuckoo.cuckooHashGet st st.table x.1 with
      | error f => trivial
      | ok r =>
        rw [hrun] at hget hstep
        exact ⟨fun hd => absurd hd hget, fun hav => hnd.cleanInsert (hstep hav)⟩
    obtain ⟨st₁, n₁, hrun₁, hrep₁⟩ := h.step hclean
    have hnd₁ := hnd.step x.1 x.2
    rw [hrun₁] at hnd₁
    rw [hrun₁] at hrest
    rw [Store.step, ofPuts_concat] at hrep₁
    obtain ⟨st', n', hrun, hrep⟩ := ih hrep₁ hnd₁ hrest
    refine ⟨st', n', ?_, by rwa [List.append_assoc] at hrep⟩
    rw [List.map_cons, Cuckoo.run, List.foldlM_cons, hrun₁]
    exact hrun

/-- **Puts only**: every key has the value of its first put, through chains and rehashes. -/
theorem cuckooFilter_inserts (size : Nat) (flash : Nat → LogEntry) (puts : List (Key × Data))
    (h : 1 ≤ (cuckooFilterInit size flash).table.bucketNum)
    (hc : AllSteps InsertStep (cuckooFilterInit size flash) (puts.map fun x => .put x.1 x.2)) :
    ∃ st, run (cuckooFilterInit size flash) (puts.map fun x => .put x.1 x.2) = .ok st ∧
      ∀ key, cuckooFilterGet st key = .ok ((puts.find? (·.1 = key)).map Prod.snd) := by
  obtain ⟨n, hrep⟩ := Rep.init h
  have hrep : Rep (cuckooFilterInit size flash) n (ofPuts []) := hrep
  obtain ⟨st, n', hrun, hrep'⟩ := hrep.run_puts (fun p => by simp [cuckooFilterInit, emptySlot]) hc
  refine ⟨st, hrun, fun key => ?_⟩
  rw [hrep'.get key, Store.get, ofPuts, List.nil_append]
  cases puts.find? (·.1 = key) <;> rfl

/-- Five keys that share a bucket: the fifth put moves the first entry. -/
theorem cuckooFilter_inserts_sample :
    (1 ≤ (cuckooFilterInit 200 fun _ => ⟨sampleKey 0 0 0, 0⟩).table.bucketNum ∧
      AllSteps InsertStep (cuckooFilterInit 200 fun _ => ⟨sampleKey 0 0 0, 0⟩)
        ([(sampleKey 0 1 0, 1), (sampleKey 0 1 1, 2), (sampleKey 0 1 2, 3), (sampleKey 0 1 3, 4),
          (sampleKey 0 0 0, 5)].map fun x => .put x.1 x.2)) ∧
    ∃ st, run (cuckooFilterInit 200 fun _ => ⟨sampleKey 0 0 0, 0⟩)
        ([(sampleKey 0 1 0, 1), (sampleKey 0 1 1, 2), (sampleKey 0 1 2, 3), (sampleKey 0 1 3, 4),
          (sampleKey 0 0 0, 5)].map fun x => .put x.1 x.2) = .ok st ∧
      ∀ key, cuckooFilterGet st key =
        .ok (([(sampleKey 0 1 0, 1), (sampleKey 0 1 1, 2), (sampleKey 0 1 2, 3),
          (sampleKey 0 1 3, 4), (sampleKey 0 0 0, 5)].find? (·.1 = key)).map Prod.snd) :=
  ⟨by decide +kernel, cuckooFilter_inserts _ _ _ (by decide +kernel) (by decide +kernel)⟩

end Cuckoo
