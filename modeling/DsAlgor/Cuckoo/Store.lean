import DsAlgor.Cuckoo.Collide

/-!
# The table as an index of the log

`Stored flash L n t`: the slots of the table `t` of `n` buckets that are in use are those of the
first `L` entries of the log, one each; the entry is there when its slot is occupied. An entry that
was deleted shares its pair of hashes with no other entry, so that its slot, which is found by tags
alone, is in nobody's way.
-/

namespace Cuckoo

/-- Two keys have the same places. -/
def SamePair (n : Nat) (key key' : Key) : Prop :=
  hashes n key = hashes n key' ∨ hashes n key = (hashes n key').swap

def home (flash : Nat → LogEntry) (n o : Nat) : Nat × Nat := hashes n (flash (o / SECTOR_SIZE)).sha1

structure Stored (flash : Nat → LogEntry) (L n : Nat) (t : HashTable) : Prop where
  arranged : Arranged n (home flash n) t
  offsets : ∀ p < ASSOC_WAY * n, (t.slots p).status ≠ .availible →
    ∃ e < L, (t.slots p).offset = e * SECTOR_SIZE
  all : ∀ e < L, ∃ p < ASSOC_WAY * n, (t.slots p).status ≠ .availible ∧
    (t.slots p).offset = e * SECTOR_SIZE
  alone : ∀ e < L, ∀ e' < L, e' ≠ e → ¬ Occupies t n (e * SECTOR_SIZE) →
    ¬ SamePair n (flash e).sha1 (flash e').sha1

/-! ## Pairs of hashes -/

section
variable {n : Nat} {key key' : Key} {x : Nat × Nat}

theorem places_swap {a c : Nat} : x ∈ places c a ↔ x ∈ places a c := by
  obtain ⟨p, tag⟩ := x
  rw [mem_places, mem_places, or_comm]

theorem samePair_iff (hx : x ∈ places (hashes n key).1 (hashes n key).2) :
    x ∈ places (hashes n key').1 (hashes n key').2 ↔ SamePair n key key' := by
  obtain ⟨p, tag⟩ := x
  constructor
  · intro hx'
    rw [mem_places] at hx hx'
    rcases hx with ⟨h1, h2⟩ | ⟨h1, h2⟩ <;> rcases hx' with ⟨h3, h4⟩ | ⟨h3, h4⟩
    · exact .inl (Prod.ext (h1.symm.trans h3) (h2.symm.trans h4))
    · exact .inr (Prod.ext (h1.symm.trans h3) (h2.symm.trans h4))
    · exact .inr (Prod.ext (h2.symm.trans h4) (h1.symm.trans h3))
    · exact .inl (Prod.ext (h2.symm.trans h4) (h1.symm.trans h3))
  · rintro (he | he)
    · rwa [← he]
    · rw [← places_swap]
      rw [he] at hx
      exact hx

/-- Keys that share their places in a table share them in every smaller one. -/
theorem SamePair.half {t t' : HashTable} (ht : Shape t n) (ht' : Shape t' (2 * n))
    (h : SamePair (2 * n) key key') : SamePair n key key' := by
  have hmod : ∀ k : Key, hashes n k = ((hashes (2 * n) k).1 % n, (hashes (2 * n) k).2 % n) := by
    intro k
    simp only [hashes, cuckooHashLsb, cuckooHashMsb, ht.mask_eq, ht'.mask_eq]
    rw [Nat.mod_mul_left_mod, Nat.mod_mul_left_mod]
  rcases h with h | h
  · exact .inl (by rw [hmod, hmod key', h])
  · refine .inr ?_
    rw [hmod, hmod key', h]
    rfl

end

/-! ## Searching -/

section
variable {st : State} {t : HashTable} {n : Nat} {key : Key} {ps : List (Nat × Nat)}

/-- The slot at a place carries the tag of the place. -/
def Tagged (t : HashTable) (x : Nat × Nat) : Prop := x.2 = (t.slots x.1).tag

/-- A search that meets no deleted slot with its tags finds the key. -/
theorem getPlaces_found
    (hb : ∀ x ∈ ps, (t.slots x.1).status = .occupied →
    (t.slots x.1).offset + SECTOR_SIZE ≤ st.nvromSize)
    (hd : ∀ x ∈ ps, Tagged t x → (t.slots x.1).status ≠ .deleted)
    (hf : ∃ x ∈ ps, Tagged t x ∧ (t.slots x.1).status = .occupied ∧
      (st.flash ((t.slots x.1).offset / SECTOR_SIZE)).sha1 = key) :
    ∃ x ∈ ps, (t.slots x.1).status = .occupied ∧
      (st.flash ((t.slots x.1).offset / SECTOR_SIZE)).sha1 = key ∧
      getPlaces st t key ps = .ok (some (.occupied, (t.slots x.1).offset)) := by
  induction ps with
  | nil => simp at hf
  | cons x ps ih =>
    obtain ⟨p, tag⟩ := x
    by_cases hhit : Tagged t (p, tag) ∧ (t.slots p).status = .occupied ∧
        (st.flash ((t.slots p).offset / SECTOR_SIZE)).sha1 = key
    · obtain ⟨h1, h2, h3⟩ := hhit
      refine ⟨(p, tag), by simp, h2, h3, ?_⟩
      rw [getPlaces, if_pos (show tag = (t.slots p).tag from h1)]
      simp only [h2, keyVerify, if_pos (hb (p, tag) (by simp) h2), h3, bind, Except.bind,
        decide_true, if_true]
      rfl
    · have hf' : ∃ x ∈ ps, Tagged t x ∧ (t.slots x.1).status = .occupied ∧
          (st.flash ((t.slots x.1).offset / SECTOR_SIZE)).sha1 = key := by
        obtain ⟨y, hy, hy'⟩ := hf
        rcases List.mem_cons.1 hy with rfl | hy
        · exact absurd hy' hhit
        · exact ⟨y, hy, hy'⟩
      obtain ⟨y, hy, hy1, hy2, hrun⟩ := ih (fun y hy => hb y (List.mem_cons_of_mem _ hy))
        (fun y hy => hd y (List.mem_cons_of_mem _ hy)) hf'
      refine ⟨y, List.mem_cons_of_mem _ hy, hy1, hy2, ?_⟩
      rw [getPlaces, hrun]
      by_cases htag : tag = (t.slots p).tag
      · rw [if_pos htag]
        cases hst : (t.slots p).status with
        | availible => rfl
        | deleted => exact absurd hst (hd (p, tag) (by simp) htag)
        | occupied =>
          have hne : (st.flash ((t.slots p).offset / SECTOR_SIZE)).sha1 ≠ key :=
            fun he => hhit ⟨htag, hst, he⟩
          simp only [keyVerify, if_pos (hb (p, tag) (by simp) hst), hne, bind, Except.bind,
            decide_false, Bool.false_eq_true, if_false]
      · rw [if_neg htag]

/-- A search for a key that no occupied slot with its tags has. -/
theorem getPlaces_absent
    (hb : ∀ x ∈ ps, (t.slots x.1).status = .occupied →
    (t.slots x.1).offset + SECTOR_SIZE ≤ st.nvromSize)
    (hn : ∀ x ∈ ps, Tagged t x → (t.slots x.1).status = .occupied →
      (st.flash ((t.slots x.1).offset / SECTOR_SIZE)).sha1 ≠ key) :
    ((∃ x ∈ ps, Tagged t x ∧ (t.slots x.1).status = .deleted) ∧
        getPlaces st t key ps = .ok (some (.deleted, 0))) ∨
      ((∀ x ∈ ps, Tagged t x → (t.slots x.1).status ≠ .deleted) ∧
        getPlaces st t key ps = .ok none) := by
  induction ps with
  | nil => exact .inr ⟨by simp, rfl⟩
  | cons x ps ih =>
    obtain ⟨p, tag⟩ := x
    have ih := ih (fun y hy => hb y (List.mem_cons_of_mem _ hy)) fun y hy =>
      hn y (List.mem_cons_of_mem _ hy)
    have hskip : ¬ (Tagged t (p, tag) ∧ (t.slots p).status = .deleted) →
        getPlaces st t key ((p, tag) :: ps) = getPlaces st t key ps := by
      intro hnd
      rw [getPlaces]
      by_cases htag : tag = (t.slots p).tag
      · rw [if_pos htag]
        cases hst : (t.slots p).status with
        | availible => rfl
        | deleted => exact absurd ⟨htag, hst⟩ hnd
        | occupied =>
          have hne := hn (p, tag) (by simp) htag hst
          simp only at hne
          simp only [keyVerify, if_pos (hb (p, tag) (by simp) hst), hne, bind, Except.bind,
            decide_false, Bool.false_eq_true, if_false]
      · rw [if_neg htag]
    by_cases hdel : Tagged t (p, tag) ∧ (t.slots p).status = .deleted
    · refine .inl ⟨⟨(p, tag), by simp, hdel⟩, ?_⟩
      rw [getPlaces, if_pos (show tag = (t.slots p).tag from hdel.1)]
      simp only [hdel.2]
    · rw [hskip hdel]
      rcases ih with ⟨⟨y, hy, hyd⟩, hrun⟩ | ⟨hnone, hrun⟩
      · exact .inl ⟨⟨y, List.mem_cons_of_mem _ hy, hyd⟩, hrun⟩
      · refine .inr ⟨fun y hy htag hyd => ?_, hrun⟩
        rcases List.mem_cons.1 hy with rfl | hy
        · exact hdel ⟨htag, hyd⟩
        · exact hnone y hy htag hyd

/-- The slots `cuckoo_hash_get` verifies are on flash. -/
def Verifiable (st : State) (t : HashTable) (n : Nat) : Prop :=
  ∀ p < ASSOC_WAY * n, (t.slots p).status = .occupied →
    (t.slots p).offset + SECTOR_SIZE ≤ st.nvromSize

theorem Shape.place_lt (h : Shape t n) {x : Nat × Nat}
    (hx : x ∈ places (hashes n key).1 (hashes n key).2) : x.1 < ASSOC_WAY * n := by
  obtain ⟨p, tag⟩ := x
  have hlt := h.hashes_lt key
  rw [mem_places, ASSOC_WAY] at hx
  show p < ASSOC_WAY * n
  rw [ASSOC_WAY]
  omega

theorem cuckooHashGet_deleted (h : Shape t n) (hb : Verifiable st t n)
    (hn : ∀ x ∈ places (hashes n key).1 (hashes n key).2, Tagged t x →
    (t.slots x.1).status = .occupied → (st.flash ((t.slots x.1).offset / SECTOR_SIZE)).sha1 ≠ key)
    (hd : ∃ x ∈ places (hashes n key).1 (hashes n key).2, Tagged t x ∧
    (t.slots x.1).status = .deleted) :
    cuckooHashGet st t key = .ok (.deleted, 0) := by
  rw [cuckooHashGet_eq h]
  rcases getPlaces_absent (fun x hx => hb x.1 (h.place_lt hx)) hn with ⟨-, hrun⟩ | ⟨hno, -⟩
  · rw [hrun]
    rfl
  · obtain ⟨x, hx, htag, hdel⟩ := hd
    exact absurd hdel (hno x hx htag)

theorem cuckooHashGet_availible (h : Shape t n) (hb : Verifiable st t n)
    (hn : ∀ x ∈ places (hashes n key).1 (hashes n key).2, Tagged t x →
    (t.slots x.1).status = .occupied → (st.flash ((t.slots x.1).offset / SECTOR_SIZE)).sha1 ≠ key)
    (hd : ∀ x ∈ places (hashes n key).1 (hashes n key).2, Tagged t x →
    (t.slots x.1).status ≠ .deleted) :
    cuckooHashGet st t key = .ok (.availible, 0) := by
  rw [cuckooHashGet_eq h]
  rcases getPlaces_absent (fun x hx => hb x.1 (h.place_lt hx)) hn with ⟨⟨x, hx, htag, hdel⟩,
    -⟩ | ⟨-, hrun⟩
  · exact absurd hdel (hd x hx htag)
  · rw [hrun]
    rfl

theorem cuckooHashGet_occupied (h : Shape t n) (hb : Verifiable st t n)
    (hd : ∀ x ∈ places (hashes n key).1 (hashes n key).2, Tagged t x →
    (t.slots x.1).status ≠ .deleted)
    (hf : ∃ x ∈ places (hashes n key).1 (hashes n key).2, Tagged t x ∧
    (t.slots x.1).status = .occupied ∧ (st.flash ((t.slots x.1).offset / SECTOR_SIZE)).sha1 = key) :
    ∃ x ∈ places (hashes n key).1 (hashes n key).2, (t.slots x.1).status = .occupied ∧
      (st.flash ((t.slots x.1).offset / SECTOR_SIZE)).sha1 = key ∧
      cuckooHashGet st t key = .ok (.occupied, (t.slots x.1).offset) := by
  obtain ⟨x, hx, h1, h2, hrun⟩ := getPlaces_found (fun x hx => hb x.1 (h.place_lt hx)) hd hf
  refine ⟨x, hx, h1, h2, ?_⟩
  rw [cuckooHashGet_eq h, hrun]
  rfl

end

/-! ## Searching in a stored table -/

section
variable {st : State} {t : HashTable} {n L : Nat} {key : Key} {e : Nat}

@[simp] theorem mul_div_sector (e : Nat) : e * SECTOR_SIZE / SECTOR_SIZE = e :=
  Nat.mul_div_cancel _ (by decide)

variable (h : Stored st.flash L n t)
include h

/-- The slot of an entry is at one of its places. -/
theorem Stored.slot (he : e < L) : ∃ p < ASSOC_WAY * n,
    (t.slots p).status ≠ .availible ∧ (t.slots p).offset = e * SECTOR_SIZE ∧
      (p, (t.slots p).tag) ∈ places (hashes n (st.flash e).sha1).1
      (hashes n (st.flash e).sha1).2 := by
  obtain ⟨p, hp, hs, ho⟩ := h.all e he
  have hf := h.arranged.fits p hp hs
  rw [ho, home, mul_div_sector] at hf
  exact ⟨p, hp, hs, ho, hf⟩

theorem Stored.verifiable (hroom : L * SECTOR_SIZE ≤ st.nvromSize) : Verifiable st t n := by
  intro p hp hs
  obtain ⟨e, he, ho⟩ := h.offsets p hp (by rw [hs]; decide)
  rw [ho]
  rw [SECTOR_SIZE] at hroom ⊢
  omega

/-- A slot is deleted exactly when its entry is. -/
theorem Stored.deleted_iff {p : Nat} (hp : p < ASSOC_WAY * n)
    (hs : (t.slots p).status ≠ .availible) (ho : (t.slots p).offset = e * SECTOR_SIZE) :
    (t.slots p).status = .deleted ↔ ¬ Occupies t n (e * SECTOR_SIZE) := by
  constructor
  · rintro hd ⟨q, hq, hqs, hqo⟩
    have := h.arranged.inj p hp q hq hs (by rw [hqs]; decide) (by rw [ho, hqo])
    rw [this, hqs] at hd
    cases hd
  · intro hno
    cases hst : (t.slots p).status with
    | availible => exact absurd hst hs
    | occupied => exact absurd ⟨p, hp, hst, ho⟩ hno
    | deleted => rfl

/-- A deleted slot that carries the tags of an entry is the entry's own. -/
theorem Stored.deleted_own (he : e < L) {x : Nat × Nat}
    (hx : x ∈ places (hashes n (st.flash e).sha1).1 (hashes n (st.flash e).sha1).2)
    (htag : Tagged t x) (hdel : (t.slots x.1).status = .deleted) :
    (t.slots x.1).offset = e * SECTOR_SIZE := by
  have hp := h.arranged.shape.place_lt hx
  obtain ⟨e', he', ho⟩ := h.offsets x.1 hp (by rw [hdel]; decide)
  by_contra hne
  have hee : e ≠ e' := fun hc => hne (by rw [ho, hc])
  have hdead := (h.deleted_iff hp (by rw [hdel]; decide) ho).1 hdel
  have hf := h.arranged.fits x.1 hp (by rw [hdel]; decide)
  rw [ho, home, mul_div_sector] at hf
  refine h.alone e' he' e he hee hdead ((samePair_iff hf).1 ?_)
  rw [← htag]
  exact hx

theorem Stored.get_occupied (hroom : L * SECTOR_SIZE ≤ st.nvromSize)
    (hinj : ∀ e < L, ∀ e' < L, (st.flash e).sha1 = (st.flash e').sha1 → e = e') (he : e < L)
    (hocc : Occupies t n (e * SECTOR_SIZE)) :
    cuckooHashGet st t (st.flash e).sha1 = .ok (.occupied, e * SECTOR_SIZE) := by
  obtain ⟨p, hp, hs, ho, hpl⟩ := h.slot he
  have hst : (t.slots p).status = .occupied := by
    cases hst : (t.slots p).status with
    | availible => exact absurd hst hs
    | occupied => rfl
    | deleted => exact absurd hocc ((h.deleted_iff hp hs ho).1 hst)
  obtain ⟨x, hx, hxs, hxk, hrun⟩ := cuckooHashGet_occupied h.arranged.shape (h.verifiable hroom)
    (fun x hx htag hdel => (h.deleted_iff (h.arranged.shape.place_lt hx) (by rw [hdel]; decide)
      (h.deleted_own he hx htag hdel)).1 hdel hocc)
    ⟨_, hpl, rfl, hst, by rw [ho, mul_div_sector]⟩
  obtain ⟨e', he', ho'⟩ := h.offsets x.1 (h.arranged.shape.place_lt hx) (by rw [hxs]; decide)
  rw [ho', mul_div_sector] at hxk
  rw [hrun, ho', hinj e' he' e he hxk]

/-- A key that is not there: the search stops at a deleted slot with its tags or finds nothing. -/
theorem Stored.get_absent (hroom : L * SECTOR_SIZE ≤ st.nvromSize)
    (hkey : ∀ e < L, (st.flash e).sha1 = key → ¬ Occupies t n (e * SECTOR_SIZE)) :
    ((∃ x ∈ places (hashes n key).1 (hashes n key).2, Tagged t x ∧
    (t.slots x.1).status = .deleted) ∧
        cuckooHashGet st t key = .ok (.deleted, 0)) ∨
      ((∀ x ∈ places (hashes n key).1 (hashes n key).2, Tagged t x →
        (t.slots x.1).status ≠ .deleted) ∧ cuckooHashGet st t key = .ok (.availible, 0)) := by
  have hn : ∀ x ∈ places (hashes n key).1 (hashes n key).2, Tagged t x →
    (t.slots x.1).status = .occupied →
    (st.flash ((t.slots x.1).offset / SECTOR_SIZE)).sha1 ≠ key := by
    intro x hx _ hxs hk
    have hp := h.arranged.shape.place_lt hx
    obtain ⟨e, he, ho⟩ := h.offsets x.1 hp (by rw [hxs]; decide)
    rw [ho, mul_div_sector] at hk
    exact hkey e he hk ⟨x.1, hp, hxs, ho⟩
  by_cases hd : ∃ x ∈ places (hashes n key).1 (hashes n key).2, Tagged t x ∧
    (t.slots x.1).status = .deleted
  · exact .inl ⟨hd, cuckooHashGet_deleted h.arranged.shape (h.verifiable hroom) hn hd⟩
  · have hd' : ∀ x ∈ places (hashes n key).1 (hashes n key).2, Tagged t x →
      (t.slots x.1).status ≠ .deleted :=
      fun x hx htag hdel => hd ⟨x, hx, htag, hdel⟩
    exact .inr ⟨hd', cuckooHashGet_availible h.arranged.shape (h.verifiable hroom) hn hd'⟩

end

end Cuckoo
