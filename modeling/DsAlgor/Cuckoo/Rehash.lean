import DsAlgor.Cuckoo.Store

/-!
# The table after a put, a deletion, a recovery and a rehash

The three changes of a stored table (`Stored.put`, `Stored.setStatus`), and `cuckoo_rehash`, which
puts the entries of the log into a table twice as large and deletes again those that the old table
has deleted (`rehashLog_spec`). The old table has lost an entry to a kick-out chain that failed, and
holds the new entry, whose log entry is not written yet; its answer for deleted entries is right all
the same (`Damaged.get_deleted`).
-/

namespace Cuckoo

section
variable {flash flash' : Nat → LogEntry} {L n : Nat} {t : HashTable}

/-- Only the entries of the log matter. -/
theorem Stored.congr (h : Stored flash L n t) (hf : ∀ e < L, flash e = flash' e) :
    Stored flash' L n t := by
  have hhome : ∀ p < ASSOC_WAY * n, (t.slots p).status ≠ .availible →
      home flash n (t.slots p).offset = home flash' n (t.slots p).offset := by
    intro p hp hs
    obtain ⟨e, he, ho⟩ := h.offsets p hp hs
    rw [home, home, ho, mul_div_sector, hf e he]
  refine ⟨⟨h.arranged.shape, fun p hp hs => ?_, h.arranged.inj⟩, h.offsets, h.all,
    fun e he e' he' hne hd => ?_⟩
  · rw [← hhome p hp hs]
    exact h.arranged.fits p hp hs
  · rw [← hf e he, ← hf e' he']
    exact h.alone e he e' he' hne hd

theorem home_lt (h : Shape t n) (o : Nat) : (home flash n o).1 < n ∧ (home flash n o).2 < n :=
  h.hashes_lt _

/-- An empty table stores an empty log. -/
theorem Stored.empty (h : Shape t n) (ht : ∀ p, (t.slots p).status = .availible) :
    Stored flash 0 n t := by
  refine ⟨⟨h, fun p _ hs => absurd (ht p) hs, fun p _ _ _ hs => absurd (ht p) hs⟩, fun p _ hs =>
    absurd (ht p) hs, fun e he => absurd he (Nat.not_lt_zero e), fun e he =>
      absurd he (Nat.not_lt_zero e)⟩

/-! ## Put -/

/-- The places of a key up to its slot are in use. -/
def Front (t : HashTable) (ps : List (Nat × Nat)) (o : Nat) : Prop :=
  ∃ pre x post, ps = pre ++ x :: post ∧ (∀ y ∈ pre, (t.slots y.1).status ≠ .availible) ∧
    Tagged t x ∧ (t.slots x.1).status = .occupied ∧ (t.slots x.1).offset = o

/-- The put of an entry runs no chain through a deleted slot. -/
def CleanPut (t : HashTable) (key : Key) (o : Nat) : Prop :=
  firstFree t (places (hashes t.bucketNum key).1 (hashes t.bucketNum key).2) = none →
    kicksDeleted t (hashes t.bucketNum key).1 (hashes t.bucketNum key).2 o = false

instance (t : HashTable) (key : Key) (o : Nat) : Decidable (CleanPut t key o) :=
  inferInstanceAs (Decidable (_ → _))

theorem sector_ne_invalid (hL : L * SECTOR_SIZE < 2 ^ 31) : L * SECTOR_SIZE ≠ INVALID_OFFSET := by
  rw [INVALID_OFFSET]
  omega

variable (h : Stored flash L n t)
include h

/-- No slot has the offset of the next entry. -/
theorem Stored.next_fresh {p : Nat} (hp : p < ASSOC_WAY * n)
    (hs : (t.slots p).status ≠ .availible) : (t.slots p).offset ≠ L * SECTOR_SIZE := by
  obtain ⟨e, he, ho⟩ := h.offsets p hp hs
  rw [ho, SECTOR_SIZE]
  omega

/-- **`cuckoo_hash_put`** of the next entry of the log. -/
theorem Stored.put (hL : L * SECTOR_SIZE < 2 ^ 31)
    (hk : CleanPut t (flash L).sha1 (L * SECTOR_SIZE)) :
    ∃ fail t', cuckooHashPut t (flash L).sha1 (L * SECTOR_SIZE) = .ok (fail, t', L * SECTOR_SIZE) ∧
      CollidePost n (home flash n) t (L * SECTOR_SIZE) fail t' ∧
      (fail = false →
        Front t' (places (hashes n (flash L).sha1).1 (hashes n (flash L).sha1).2)
          (L * SECTOR_SIZE)) := by
  have hshape := h.arranged.shape
  have hhome : home flash n (L * SECTOR_SIZE) = hashes n (flash L).sha1 := by
    rw [home, mul_div_sector]
  have hlt := hshape.hashes_lt (flash L).sha1
  rw [CleanPut, hshape.bucketNum] at hk
  rw [cuckooHashPut_eq hshape (sector_ne_invalid hL)]
  cases hfree : firstFree t (places (hashes n (flash L).sha1).1 (hashes n (flash L).sha1).2) with
  | some x =>
    obtain ⟨p, tag⟩ := x
    have hmem := List.mem_of_find?_eq_some hfree
    have hp := hshape.place_lt hmem
    obtain ⟨hav, pre, post, hsplit, hpre⟩ := List.find?_eq_some_iff_append.1 hfree
    have hav : (t.slots p).status = .availible := by simpa using hav
    have htag : toTag tag = tag := by
      rw [mem_places] at hmem
      refine hshape.toTag_eq ?_
      rcases hmem with ⟨-, rfl⟩ | ⟨-, rfl⟩
      · exact hlt.2
      · exact hlt.1
    have hpre' : ∀ y ∈ pre, (t.slots y.1).status ≠ .availible := fun y hy => by
      simpa using hpre y hy
    have hocc : ∀ o, Occupies (t.set p ⟨toTag tag, .occupied, L * SECTOR_SIZE⟩) n o ↔
        Occupies t n o ∨ o = L * SECTOR_SIZE := fun o => occupies_take hp hav rfl
    refine ⟨false, _, rfl, ⟨?_, SameDeleted.set (by rw [hav]; decide) (by simp), fun q hq hqa => ?_,
      fun o => (hocc o).1, fun _ => hocc⟩, fun _ =>
      ⟨pre, (p, tag), post, hsplit, fun y hy => ?_, ?_, ?_, ?_⟩⟩
    · refine h.arranged.set hp ?_ fun q hq _ hs => h.next_fresh hq hs
      rw [hhome]
      show (p, toTag tag) ∈ _
      rwa [htag]
    · by_cases hqp : q = p
      · rw [hqp, set_slots_self] at hqa
        cases hqa
      · rwa [set_slots_of_ne hqp] at hqa
    · by_cases hyp : y.1 = p
      · rw [hyp, set_slots_self]
        simp
      · rw [set_slots_of_ne hyp]
        exact hpre' y hy
    · show tag = _
      rw [set_slots_self]
      exact htag.symm
    · rw [set_slots_self]
    · rw [set_slots_self]
  | none =>
    have hfull : ∀ y ∈ places (hashes n (flash L).sha1).1 (hashes n (flash L).sha1).2,
        (t.slots y.1).status ≠ .availible := fun y hy => by
          simpa using List.find?_eq_none.1 hfree y hy
    obtain ⟨fail, t', hrun, hpost⟩ :=
      cuckooHashCollide_spec h.arranged (sector_ne_invalid hL) (home_lt hshape)
        (fun p hp => hfull (p, (hashes n (flash L).sha1).2)
        (mem_places.2 (.inl ⟨by rw [hp, hhome], rfl⟩)))
      (fun p hp hs => h.next_fresh hp hs) (by rw [hhome]; exact hk hfree)
    rw [hhome] at hrun
    refine ⟨fail, t', hrun, hpost, fun hok => ?_⟩
    obtain ⟨p, hp, hs, ho⟩ := (hpost.occupies hok _).2 (.inr rfl)
    have hfit := hpost.arranged.fits p hp (by rw [hs]; decide)
    rw [ho, hhome] at hfit
    obtain ⟨pre, post, hsplit⟩ := List.append_of_mem hfit
    refine ⟨pre, _, post, hsplit, fun y hy hav => ?_, rfl, hs, ho⟩
    have hy' : y ∈ places (hashes n (flash L).sha1).1 (hashes n (flash L).sha1).2 := by
      rw [hsplit]
      exact List.mem_append_left _ hy
    exact hfull y hy' (hpost.availible y.1 (hshape.place_lt hy') hav)

/-- The put is done: one more entry is stored. -/
theorem Stored.of_post {t' : HashTable}
    (hpost : CollidePost n (home flash n) t (L * SECTOR_SIZE) false t')
    (hfresh : ∀ e < L, ¬ Occupies t n (e * SECTOR_SIZE) →
    ¬ SamePair n (flash e).sha1 (flash L).sha1) : Stored flash (L + 1) n t' := by
  have hocc := hpost.occupies rfl
  refine ⟨hpost.arranged, fun p hp hs => ?_, fun e he => ?_, fun e he e' he' hne hd => ?_⟩
  · cases hst : (t'.slots p).status with
    | availible => exact absurd hst hs
    | occupied =>
      rcases (hocc _).1 ⟨p, hp, hst, rfl⟩ with ⟨q, hq, hqs, hqo⟩ | ho
      · obtain ⟨e, he, hoe⟩ := h.offsets q hq (by rw [hqs]; decide)
        exact ⟨e, by omega, hqo.symm.trans hoe⟩
      · exact ⟨L, by omega, ho⟩
    | deleted =>
      obtain ⟨hsd, heq⟩ := hpost.same p hp
      obtain ⟨e, he, hoe⟩ := h.offsets p hp (by rw [hsd.1 hst]; decide)
      exact ⟨e, by omega, by rw [heq (hsd.1 hst), hoe]⟩
  · by_cases heL : e = L
    · obtain ⟨p, hp, hs, ho⟩ := (hocc (e * SECTOR_SIZE)).2 (.inr (by rw [heL]))
      exact ⟨p, hp, by rw [hs]; decide, ho⟩
    · obtain ⟨p, hp, hs, ho⟩ := h.all e (by omega)
      cases hst : (t.slots p).status with
      | availible => exact absurd hst hs
      | occupied =>
        obtain ⟨q, hq, hqs, hqo⟩ := (hocc (e * SECTOR_SIZE)).2 (.inl ⟨p, hp, hst, ho⟩)
        exact ⟨q, hq, by rw [hqs]; decide, hqo⟩
      | deleted =>
        have heq := (hpost.same p hp).2 hst
        exact ⟨p, hp, by rw [heq]; exact hs, by rw [heq]; exact ho⟩
  · have heL : e ≠ L := by
      rintro rfl
      exact hd ((hocc _).2 (.inr rfl))
    have hdead : ¬ Occupies t n (e * SECTOR_SIZE) := fun hc => hd ((hocc _).2 (.inl hc))
    by_cases heL' : e' = L
    · rw [heL']
      exact hfresh e (by omega) hdead
    · exact h.alone e (by omega) e' (by omega) hne hdead

/-! ## Deletion and recovery -/

/-- A slot in use gets another status. -/
theorem Stored.setStatus {p e : Nat} {status : Status} (hp : p < ASSOC_WAY * n)
    (hs : (t.slots p).status ≠ .availible) (ho : (t.slots p).offset = e * SECTOR_SIZE)
    (hst : status ≠ .availible)
    (halone : status = .deleted → ∀ e' < L, e' ≠ e → ¬ SamePair n (flash e).sha1 (flash e').sha1) :
    Stored flash L n (t.setStatus p status) ∧
      ∀ o, Occupies (t.setStatus p status) n o ↔
        if o = e * SECTOR_SIZE then status = .occupied else Occupies t n o := by
  have hself : (t.setStatus p status).slots p = { t.slots p with status := status } :=
    set_slots_self
  have hother : ∀ q, q ≠ p → (t.setStatus p status).slots q = t.slots q :=
    fun q hq => set_slots_of_ne hq
  have hoff : ∀ q, ((t.setStatus p status).slots q).offset = (t.slots q).offset := by
    intro q
    by_cases hq : q = p
    · rw [hq, hself]
    · rw [hother q hq]
  have hused : ∀ q, ((t.setStatus p status).slots q).status ≠ .availible ↔
    (t.slots q).status ≠ .availible := by
    intro q
    by_cases hq : q = p
    · rw [hq, hself]
      exact iff_of_true hst hs
    · rw [hother q hq]
  have hocc : ∀ o, Occupies (t.setStatus p status) n o ↔
      if o = e * SECTOR_SIZE then status = .occupied else Occupies t n o := by
    intro o
    split
    next heq =>
      subst heq
      constructor
      · rintro ⟨q, hq, hqs, hqo⟩
        have hqu : ((t.setStatus p status).slots q).status ≠ .availible := by
          rw [hqs]
          decide
        have hqp : q = p := h.arranged.inj q hq p hp ((hused q).1 hqu) hs (by rw [← hoff, hqo, ho])
        rw [hqp, hself] at hqs
        exact hqs
      · intro hocc
        exact ⟨p, hp, by rw [hself]; exact hocc, by rw [hoff, ho]⟩
    next hne =>
      constructor
      · rintro ⟨q, hq, hqs, hqo⟩
        have hqp : q ≠ p := fun hc => hne (by rw [← hqo, hoff, hc, ho])
        rw [hother q hqp] at hqs hqo
        exact ⟨q, hq, hqs, hqo⟩
      · rintro ⟨q, hq, hqs, hqo⟩
        have hqp : q ≠ p := fun hc => hne (by rw [← hqo, hc, ho])
        exact ⟨q, hq, by rw [hother q hqp, hqs], by rw [hoff, hqo]⟩
  refine ⟨⟨?_, fun q hq hqs => ?_, fun e' he' => ?_, fun e₁ he₁ e₂ he₂ hne hd => ?_⟩, hocc⟩
  · exact h.arranged.set hp (h.arranged.fits p hp hs)
      fun q hq hqp hqs hqo => hqp (h.arranged.inj q hq p hp hqs hs hqo)
  · rw [hoff]
    exact h.offsets q hq ((hused q).1 hqs)
  · obtain ⟨q, hq, hqs, hqo⟩ := h.all e' he'
    exact ⟨q, hq, (hused q).2 hqs, by rw [hoff, hqo]⟩
  · rw [hocc] at hd
    by_cases heq : e₁ * SECTOR_SIZE = e * SECTOR_SIZE
    · have hee : e₁ = e := Nat.eq_of_mul_eq_mul_right (by decide) heq
      rw [if_pos heq] at hd
      subst hee
      refine halone ?_ e₂ he₂ hne
      cases status with
      | availible => exact absurd rfl hst
      | occupied => exact absurd rfl hd
      | deleted => rfl
    · rw [if_neg heq] at hd
      exact h.alone e₁ he₁ e₂ he₂ hne hd

/-- A used slot that carries the tags of an entry whose pair no other entry has is the entry's
own. -/
theorem Stored.tagged_own {e : Nat}
    (halone : ∀ e' < L, e' ≠ e → ¬ SamePair n (flash e).sha1 (flash e').sha1) {x : Nat × Nat}
    (hx : x ∈ places (hashes n (flash e).sha1).1 (hashes n (flash e).sha1).2)
    (htag : Tagged t x) (hs : (t.slots x.1).status ≠ .availible) :
    (t.slots x.1).offset = e * SECTOR_SIZE := by
  have hp := h.arranged.shape.place_lt hx
  obtain ⟨e', he', ho⟩ := h.offsets x.1 hp hs
  by_contra hne
  have hee : e' ≠ e := fun hc => hne (by rw [ho, hc])
  have hf := h.arranged.fits x.1 hp hs
  rw [ho, home, mul_div_sector, ← htag] at hf
  exact halone e' he' hee ((samePair_iff hx).1 hf)

/-- `cuckoo_hash_delete` finds the slot of an entry that was put just before. -/
theorem Stored.firstTagged_front {e : Nat}
    (halone : ∀ e' < L, e' ≠ e → ¬ SamePair n (flash e).sha1 (flash e').sha1)
    (hfront : Front t (places (hashes n (flash e).sha1).1 (hashes n (flash e).sha1).2)
    (e * SECTOR_SIZE)) : ∃ p < ASSOC_WAY * n, firstTagged t
      (places (hashes n (flash e).sha1).1 (hashes n (flash e).sha1).2) = some p ∧
      (t.slots p).status = .occupied ∧ (t.slots p).offset = e * SECTOR_SIZE := by
  obtain ⟨pre, x, post, hsplit, hpre, htag, hocc, ho⟩ := hfront
  have hx : x ∈ places (hashes n (flash e).sha1).1 (hashes n (flash e).sha1).2 := by
    rw [hsplit]
    simp
  refine ⟨x.1, h.arranged.shape.place_lt hx, ?_, hocc, ho⟩
  have hfind : ∃ y, (places (hashes n (flash e).sha1).1 (hashes n (flash e).sha1).2).find?
      (fun x => x.2 = (t.slots x.1).tag) = some y ∧ (y ∈ pre ∨ y = x) := by
    rw [hsplit, List.find?_append]
    cases hp : pre.find? (fun x => x.2 = (t.slots x.1).tag) with
    | some y => exact ⟨y, rfl, .inl (List.mem_of_find?_eq_some hp)⟩
    | none =>
      refine ⟨x, ?_, .inr rfl⟩
      rw [Option.none_or, List.find?_cons_of_pos]
      exact decide_eq_true htag
  obtain ⟨y, hy, hyx⟩ := hfind
  rw [firstTagged, hy, Option.map_some]
  rcases hyx with hyp | rfl
  · have hym := List.mem_of_find?_eq_some hy
    have hyt : Tagged t y := by
      unfold Tagged
      simpa using List.find?_some hy
    have hyo := h.tagged_own halone hym hyt (hpre y hyp)
    exact congrArg some (h.arranged.inj y.1 (h.arranged.shape.place_lt hym) x.1
      (h.arranged.shape.place_lt hx) (hpre y hyp) (by rw [hocc]; decide) (by rw [hyo, ho]))
  · rfl

end

/-! ## Rehash -/

section
variable {st : State} {n L : Nat} {t t' : HashTable} {key : Key} {new : LogEntry}

/-- A search that meets no deleted slot with its tags does not answer `DELETED`. -/
theorem cuckooHashGet_not_deleted (h : Shape t n) (hb : Verifiable st t n)
    (hd : ∀ x ∈ places (hashes n key).1 (hashes n key).2, Tagged t x →
    (t.slots x.1).status ≠ .deleted) :
    ∃ r, cuckooHashGet st t key = .ok r ∧ r.1 ≠ .deleted := by
  by_cases hf : ∃ x ∈ places (hashes n key).1 (hashes n key).2, Tagged t x ∧
    (t.slots x.1).status = .occupied ∧ (st.flash ((t.slots x.1).offset / SECTOR_SIZE)).sha1 = key
  · obtain ⟨x, -, -, -, hrun⟩ := cuckooHashGet_occupied h hb hd hf
    exact ⟨_, hrun, by simp⟩
  · refine ⟨_, cuckooHashGet_availible h hb (fun x hx htag hs hk => hf ⟨x, hx, htag, hs, hk⟩)
      hd, by simp⟩

/-- The table `t'` that a failed chain for a new entry has left behind: it has the deleted slots of
`t`, at most the entries of `t` and the new one. -/
structure Damaged (st : State) (n : Nat) (new : LogEntry) (t t' : HashTable) : Prop where
  stored : Stored st.flash st.logEntries n t
  room : (st.logEntries + 1) * SECTOR_SIZE ≤ st.nvromSize
  fresh : ∀ e < st.logEntries, ¬ Occupies t n (e * SECTOR_SIZE) →
    ¬ SamePair n (st.flash e).sha1 new.sha1
  post : CollidePost n (home (Function.update st.flash st.logEntries new) n) t
    (st.logEntries * SECTOR_SIZE) true t'

theorem home_update_of_lt {flash : Nat → LogEntry} {le : LogEntry} {e : Nat} (he : e < L) :
    home (Function.update flash L le) n (e * SECTOR_SIZE) = hashes n (flash e).sha1 := by
  rw [home, mul_div_sector, Function.update_of_ne (by omega)]

theorem home_update_self {flash : Nat → LogEntry} {le : LogEntry} :
    home (Function.update flash L le) n (L * SECTOR_SIZE) = hashes n le.sha1 := by
  rw [home, mul_div_sector, Function.update_self]

/-- An occupied slot of a damaged table is that of an entry or of the new key. -/
theorem Damaged.occupied (h : Damaged st n new t t') {p : Nat} (hp : p < ASSOC_WAY * n)
    (hs : (t'.slots p).status = .occupied) :
    ((t'.slots p).offset = st.logEntries * SECTOR_SIZE ∧
        (p, (t'.slots p).tag) ∈ places (hashes n new.sha1).1 (hashes n new.sha1).2) ∨
      ∃ e < st.logEntries, (t'.slots p).offset = e * SECTOR_SIZE ∧ Occupies t n (e * SECTOR_SIZE) ∧
        (p, (t'.slots p).tag) ∈ places (hashes n (st.flash e).sha1).1
        (hashes n (st.flash e).sha1).2 := by
  have hfit := h.post.arranged.fits p hp (by rw [hs]; decide)
  rcases h.post.sub _ ⟨p, hp, hs, rfl⟩ with hocc | ho
  · obtain ⟨q, hq, hqs, hqo⟩ := id hocc
    obtain ⟨e, he, hoe⟩ := h.stored.offsets q hq (by rw [hqs]; decide)
    rw [hqo] at hoe
    rw [hoe] at hocc hfit
    rw [home_update_of_lt he] at hfit
    exact .inr ⟨e, he, hoe, hocc, hfit⟩
  · rw [ho, home_update_self] at hfit
    exact .inl ⟨ho, hfit⟩

theorem Damaged.verifiable (h : Damaged st n new t t') : Verifiable st t' n := by
  intro p hp hs
  have hroom := h.room
  rw [SECTOR_SIZE] at hroom
  rcases h.occupied hp hs with ⟨ho, -⟩ | ⟨e, he, ho, -⟩ <;> rw [ho, SECTOR_SIZE] <;> omega

/-- **What the old table says** of the entries of the log. -/
theorem Damaged.get_deleted (h : Damaged st n new t t') {e : Nat} (he : e < st.logEntries) :
    ∃ r, cuckooHashGet st t' (st.flash e).sha1 = .ok r ∧
      (r.1 = .deleted ↔ ¬ Occupies t n (e * SECTOR_SIZE)) := by
  have hshape := h.post.arranged.shape
  by_cases hocc : Occupies t n (e * SECTOR_SIZE)
  · obtain ⟨r, hrun, hr⟩ := cuckooHashGet_not_deleted hshape h.verifiable
      fun (x : Nat × Nat) (hx : x ∈ places (hashes n (st.flash e).sha1).1
        (hashes n (st.flash e).sha1).2)
        htag hdel => by
        obtain ⟨hsd, heq⟩ := h.post.same x.1 (hshape.place_lt hx)
        have hdel' := hsd.1 hdel
        rw [Tagged, heq hdel'] at htag
        have hown := h.stored.deleted_own he hx htag hdel'
        exact (h.stored.deleted_iff (hshape.place_lt hx) (by rw [hdel']; decide) hown).1 hdel' hocc
    exact ⟨r, hrun, iff_of_false hr (not_not_intro hocc)⟩
  · -- no occupied slot carries the tags of a deleted entry
    refine ⟨_, cuckooHashGet_deleted hshape h.verifiable (fun x hx htag hs => ?_) ?_,
      iff_of_true rfl hocc⟩
    · exfalso
      rcases h.occupied (hshape.place_lt hx) hs with ⟨-, hpl⟩ | ⟨e', he', -, hocc', hpl⟩
      · rw [← htag] at hpl
        exact h.fresh e he hocc ((samePair_iff hx).1 hpl)
      · rw [← htag] at hpl
        have hee : e' ≠ e := by
          rintro rfl
          exact hocc hocc'
        exact h.stored.alone e he e' he' hee hocc ((samePair_iff hx).1 hpl)
    · obtain ⟨p, hp, hs, ho, hpl⟩ := h.stored.slot he
      have hdel := (h.stored.deleted_iff hp hs ho).2 hocc
      obtain ⟨hsd, heq⟩ := h.post.same p hp
      refine ⟨_, hpl, ?_, hsd.2 hdel⟩
      rw [Tagged, heq hdel]

end

/-- `cuckoo_hash_put` does not return -1. -/
def PutSucceeds (t : HashTable) (key : Key) (o : Nat) : Prop :=
  OnOk (cuckooHashPut t key o) fun r => r.1 = false

instance (t : HashTable) (key : Key) (o : Nat) : Decidable (PutSucceeds t key o) :=
  inferInstanceAs (Decidable (OnOk _ _))

section
variable {st : State} {old : HashTable} {n N : Nat} {dead : Nat → Prop}

/-- One round of the loop over the log. -/
theorem rehashEntry_spec {t : HashTable} {e : Nat} (h : Stored st.flash e n t) (heN : e < N)
    (hroom : N * SECTOR_SIZE ≤ st.nvromSize) (hsize : st.nvromSize ≤ 2 ^ 31)
    (hocc : ∀ e' < e, Occupies t n (e' * SECTOR_SIZE) ↔ ¬ dead e')
    (hold : ∃ r, cuckooHashGet st old (st.flash e).sha1 = .ok r ∧ (r.1 = .deleted ↔ dead e))
    (halone : ∀ e < N, ∀ e' < N, e' ≠ e → dead e →
    ¬ SamePair n (st.flash e).sha1 (st.flash e').sha1)
    (hclean : CleanPut t (st.flash e).sha1 (e * SECTOR_SIZE))
    (hput : PutSucceeds t (st.flash e).sha1 (e * SECTOR_SIZE)) :
    ∃ t', rehashEntry st old t e = .ok t' ∧ Stored st.flash (e + 1) n t' ∧
      ∀ e' < e + 1, Occupies t' n (e' * SECTOR_SIZE) ↔ ¬ dead e' := by
  have hroom' : (e + 1) * SECTOR_SIZE ≤ st.nvromSize :=
    le_trans (Nat.mul_le_mul_right _ (by omega)) hroom
  have hL : e * SECTOR_SIZE < 2 ^ 31 := by
    rw [SECTOR_SIZE] at hroom' ⊢
    omega
  obtain ⟨fail, t₁, hrun, hpost, hfront⟩ := h.put hL hclean
  cases fail with
  | true =>
    rw [PutSucceeds, hrun] at hput
    cases hput
  | false =>
    have hocc₁ : ∀ e' < e + 1, Occupies t₁ n (e' * SECTOR_SIZE) ↔ e' = e ∨ ¬ dead e' := by
      intro e' he'
      rw [hpost.occupies rfl]
      constructor
      · rintro (hc | hc)
        · by_cases hee : e' = e
          · exact .inl hee
          · exact .inr ((hocc e' (by omega)).1 hc)
        · exact .inl (Nat.eq_of_mul_eq_mul_right (by decide) hc)
      · rintro (hc | hc)
        · exact .inr (by rw [hc])
        · by_cases hee : e' = e
          · exact .inr (by rw [hee])
          · exact .inl ((hocc e' (by omega)).2 hc)
    have hst : Stored st.flash (e + 1) n t₁ := by
      refine h.of_post hpost fun e' he' hd => halone e' (by omega) e heN (by omega) ?_
      by_contra hlive
      exact hd ((hocc e' he').2 hlive)
    obtain ⟨r, hget, hr⟩ := hold
    have hstep : rehashEntry st old t e =
        if r.1 = .deleted then cuckooHashDelete t₁ (st.flash e).sha1 else .ok t₁ := by
      simp only [rehashEntry, if_pos hroom', hrun, hget, bind, Except.bind,
        Bool.false_eq_true, if_false]
      obtain ⟨s, o⟩ := r
      cases s <;> rfl
    by_cases hdead : dead e
    · -- the slot that is deleted is the one just taken
      have halone' : ∀ e' < e + 1, e' ≠ e → ¬ SamePair n (st.flash e).sha1 (st.flash e').sha1 :=
        fun e' he' hne => halone e heN e' (by omega) hne hdead
      obtain ⟨p, hp, hfirst, hps, hpo⟩ := hst.firstTagged_front halone' (hfront rfl)
      obtain ⟨hst', hocc'⟩ := hst.setStatus hp (by rw [hps]; decide) hpo
        (show Status.deleted ≠ .availible by decide) fun _ => halone'
      refine ⟨_, ?_, hst', fun e' he' => ?_⟩
      · rw [hstep, if_pos (hr.2 hdead), cuckooHashDelete, cuckooHashStatusSet_eq hst.arranged.shape,
          hfirst]
      · rw [hocc']
        split
        next heq =>
          have hee : e' = e := Nat.eq_of_mul_eq_mul_right (by decide) heq
          rw [hee]
          exact iff_of_false (by decide) (not_not_intro hdead)
        next hne =>
          rw [hocc₁ e' he']
          exact or_iff_right fun hc => hne (by rw [hc])
    · refine ⟨t₁, ?_, hst, fun e' he' => ?_⟩
      · rw [hstep, if_neg fun hc => hdead (hr.1 hc)]
      · rw [hocc₁ e' he']
        refine or_iff_right_of_imp ?_
        rintro rfl
        exact hdead

/-- **The loop over the log** of `cuckoo_rehash`. -/
theorem rehashLog_spec (hshape : Shape (grown old) n) (hroom : N * SECTOR_SIZE ≤ st.nvromSize)
    (hsize : st.nvromSize ≤ 2 ^ 31)
    (hold : ∀ e < N, ∃ r, cuckooHashGet st old (st.flash e).sha1 = .ok r ∧
    (r.1 = .deleted ↔ dead e))
    (halone : ∀ e < N, ∀ e' < N, e' ≠ e → dead e →
    ¬ SamePair n (st.flash e).sha1 (st.flash e').sha1)
    (hputs : ∀ e < N, OnOk (rehashLog st old e (grown old)) fun t =>
      CleanPut t (st.flash e).sha1 (e * SECTOR_SIZE) ∧
        PutSucceeds t (st.flash e).sha1 (e * SECTOR_SIZE)) :
    ∀ e ≤ N, ∃ t, rehashLog st old e (grown old) = .ok t ∧ Stored st.flash e n t ∧
      ∀ e' < e, Occupies t n (e' * SECTOR_SIZE) ↔ ¬ dead e'
  | 0, _ => ⟨grown old, rfl, Stored.empty hshape fun _ => rfl, fun e' he' =>
      absurd he' (Nat.not_lt_zero e')⟩
  | e + 1, he => by
    obtain ⟨t, hrun, hst, hocc⟩ := rehashLog_spec hshape hroom hsize hold halone hputs e (by omega)
    have hput := hputs e (by omega)
    rw [hrun] at hput
    obtain ⟨t', hrun', hst', hocc'⟩ :=
      rehashEntry_spec hst (by omega) hroom hsize hocc (hold e (by omega)) halone hput.1 hput.2
    refine ⟨t', ?_, hst', hocc'⟩
    simp only [rehashLog, hrun, bind, Except.bind]
    exact hrun'

end

end Cuckoo
