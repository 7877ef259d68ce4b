import DsAlgor.Cuckoo.Defs

/-!
# The table and its places

In a table of `n` buckets (`Shape t n`) an entry with the hashes `a` and `c` has eight places: the
slots of bucket `a`, where its tag is `c`, and those of bucket `c`, where its tag is `a` (`places a
c`, in the order of the search). The loops of the source over two buckets are loops over the places:
`cuckooHashGet_eq`, `cuckooHashStatusSet_eq`, `cuckooHashPut_eq`.
-/

namespace Cuckoo

/-- A table of `n` buckets. -/
structure Shape (t : HashTable) (n : Nat) : Prop where
  pow : ∃ b ≤ 29, n = 2 ^ b
  bucketNum : t.bucketNum = n
  bucketsLen : t.bucketsLen = n
  slotNum : t.slotNum = ASSOC_WAY * n
  slotsLen : t.slotsLen = ASSOC_WAY * n

def places (a c : Nat) : List (Nat × Nat) :=
  (List.range' (ASSOC_WAY * a) ASSOC_WAY).map (·, c) ++
    (List.range' (ASSOC_WAY * c) ASSOC_WAY).map (·, a)

theorem mem_places {a c p tag : Nat} :
    (p, tag) ∈ places a c ↔ p / ASSOC_WAY = a ∧ tag = c ∨ p / ASSOC_WAY = c ∧ tag = a := by
  have hrange : ∀ b, p ∈ List.range' (ASSOC_WAY * b) ASSOC_WAY ↔ p / ASSOC_WAY = b := by
    intro b
    rw [List.mem_range'_1, ASSOC_WAY]
    omega
  simp only [places, List.mem_append, List.mem_map, Prod.mk.injEq, ← hrange]
  constructor
  · rintro (⟨q, hq, rfl, rfl⟩ | ⟨q, hq, rfl, rfl⟩)
    · exact .inl ⟨hq, rfl⟩
    · exact .inr ⟨hq, rfl⟩
  · rintro (⟨hp, rfl⟩ | ⟨hp, rfl⟩)
    · exact .inl ⟨p, hp, rfl, rfl⟩
    · exact .inr ⟨p, hp, rfl, rfl⟩

/-! ## Hashes -/

section
variable {t : HashTable} {n : Nat}

theorem mask_eq {b : Nat} (hb : b ≤ 29) (w : BitVec 64) : mask w (2 ^ b) = w.toNat % 2 ^ b := by
  have h1 : 1 ≤ 2 ^ b := Nat.one_le_two_pow
  have h2 : 2 ^ b ≤ 2 ^ 29 := Nat.pow_le_pow_right (by decide) hb
  rw [mask, show (2 ^ b + (2 ^ 32 - 1)) % 2 ^ 32 =
    2 ^ b - 1 by omega, Nat.and_two_pow_sub_one_eq_mod]

theorem Shape.pos (h : Shape t n) : 0 < n := by
  obtain ⟨b, -, rfl⟩ := h.pow
  exact Nat.two_pow_pos b

theorem Shape.le (h : Shape t n) : n ≤ 2 ^ 29 := by
  obtain ⟨b, hb, rfl⟩ := h.pow
  exact Nat.pow_le_pow_right (by decide) hb

theorem Shape.mask_eq (h : Shape t n) (w : BitVec 64) : mask w n = w.toNat % n := by
  obtain ⟨b, hb, rfl⟩ := h.pow
  exact Cuckoo.mask_eq hb w

/-- The two hashes of a key. -/
def hashes (n : Nat) (key : Key) : Nat × Nat := (cuckooHashLsb key n, cuckooHashMsb key n)

variable (h : Shape t n)
include h

theorem Shape.hashes_lt (key : Key) : (hashes n key).1 < n ∧ (hashes n key).2 < n := by
  simp only [hashes, cuckooHashLsb, cuckooHashMsb, h.mask_eq]
  exact ⟨Nat.mod_lt _ h.pos, Nat.mod_lt _ h.pos⟩

theorem Shape.lsb (key : Key) : cuckooHashLsb key t.bucketNum = (hashes n key).1 := by
  rw [h.bucketNum, hashes]

theorem Shape.msb (key : Key) : cuckooHashMsb key t.bucketNum = (hashes n key).2 := by
  rw [h.bucketNum, hashes]

theorem Shape.toTag_eq {m : Nat} (hm : m < n) : toTag m = m := by
  have := h.le
  exact Nat.mod_eq_of_lt (by omega)

theorem Shape.bucket {tag : Nat} (ht : tag < n) :
    t.bucket tag = .ok (List.range' (ASSOC_WAY * tag) ASSOC_WAY) := by
  refine if_pos ⟨h.bucketsLen ▸ ht, ?_⟩
  rw [h.slotsLen, ASSOC_WAY]
  omega

/-- Writing a slot keeps the shape. -/
theorem Shape.set (p : Nat) (s : Slot) : Shape (t.set p s) n :=
  ⟨h.pow, h.bucketNum, h.bucketsLen, h.slotNum, h.slotsLen⟩

end

theorem set_slots_self {t : HashTable} {p : Nat} {s : Slot} : (t.set p s).slots p = s :=
  Function.update_self _ _ _

theorem set_slots_of_ne {t : HashTable} {p q : Nat} {s : Slot} (h : q ≠ p) :
    (t.set p s).slots q = t.slots q :=
  Function.update_of_ne h _ _

/-! ## The loops -/

section
variable {st : State} {t : HashTable} {n : Nat} {key : Key} {tag : Nat}

/-- `cuckoo_hash_get` along places. -/
def getPlaces (st : State) (t : HashTable) (key : Key) :
    List (Nat × Nat) → Except Fault (Option (Status × Nat))
  | [] => .ok none
  | (p, tag) :: ps =>
    if tag = (t.slots p).tag then
      match (t.slots p).status with
      | .occupied => do
        if ← keyVerify st key (t.slots p).offset then return some (.occupied, (t.slots p).offset)
        else getPlaces st t key ps
      | .deleted => .ok (some (.deleted, 0))
      | .availible => getPlaces st t key ps
    else getPlaces st t key ps

theorem getLoop_append (ps : List Nat) (qs : List (Nat × Nat)) :
    getPlaces st t key (ps.map (·, tag) ++ qs) = (do
      match ← getLoop st t key tag ps with
      | some r => return some r
      | none => getPlaces st t key qs) := by
  induction ps with
  | nil => rfl
  | cons p ps ih =>
    simp only [List.map_cons, List.cons_append, getPlaces, getLoop]
    by_cases ht : tag = (t.slots p).tag
    · simp only [if_pos ht]
      cases (t.slots p).status with
      | availible => exact ih
      | deleted => rfl
      | occupied =>
        simp only [ih, bind, Except.bind]
        cases keyVerify st key (t.slots p).offset with
        | error e => rfl
        | ok v => cases v <;> rfl
    · simp only [if_neg ht]
      exact ih

theorem cuckooHashGet_eq (h : Shape t n) : cuckooHashGet st t key =
    (getPlaces st t key (places (hashes n key).1 (hashes n key).2)).map
    (·.getD (.availible, 0)) := by
  have hlt := h.hashes_lt key
  have hend : getPlaces st t key ((List.range' (ASSOC_WAY * (hashes n key).2) ASSOC_WAY).map
    (·, (hashes n key).1)) = getLoop st t key (hashes n key).1
    (List.range' (ASSOC_WAY * (hashes n key).2) ASSOC_WAY) := by
    rw [← List.append_nil (List.map _ _), getLoop_append]
    cases getLoop st t key (hashes n key).1
      (List.range' (ASSOC_WAY * (hashes n key).2) ASSOC_WAY) with
    | error e => rfl
    | ok r => cases r <;> rfl
  rw [places, getLoop_append, hend]
  simp only [cuckooHashGet, h.lsb, h.msb, h.bucket hlt.1, h.bucket hlt.2, bind, Except.bind]
  cases getLoop st t key (hashes n key).2
    (List.range' (ASSOC_WAY * (hashes n key).1) ASSOC_WAY) with
  | error e => rfl
  | ok r =>
    cases r with
    | some r => rfl
    | none =>
      simp only
      cases getLoop st t key (hashes n key).1
        (List.range' (ASSOC_WAY * (hashes n key).2) ASSOC_WAY) with
      | error e => rfl
      | ok r => cases r <;> rfl

/-- The first slot that carries the tags of a key, of any status. -/
def firstTagged (t : HashTable) (ps : List (Nat × Nat)) : Option Nat :=
  (ps.find? fun x => x.2 = (t.slots x.1).tag).map Prod.fst

theorem find?_map_pair (ps : List Nat) (f : Nat × Nat → Bool) :
    ((ps.map (·, tag)).find? f).map Prod.fst = ps.find? fun p => f (p, tag) := by
  rw [List.find?_map, Option.map_map]
  simp [Function.comp_def]

theorem firstTagged_append (ps qs : List (Nat × Nat)) :
    firstTagged t (ps ++ qs) = (firstTagged t ps).or (firstTagged t qs) := by
  rw [firstTagged, List.find?_append, Option.map_or]
  rfl

theorem cuckooHashStatusSet_eq (h : Shape t n) (status : Status) :
    cuckooHashStatusSet t key status = .ok
      (match firstTagged t (places (hashes n key).1 (hashes n key).2) with
      | some p => t.setStatus p status
      | none => t) := by
  have hlt := h.hashes_lt key
  have hfind : ∀ (tag : Nat) (ps : List Nat), findTag t tag ps = firstTagged t (ps.map (·, tag)) :=
    fun tag ps => (find?_map_pair ps fun x => x.2 = (t.slots x.1).tag).symm
  simp only [cuckooHashStatusSet, h.lsb, h.msb, h.bucket hlt.1, h.bucket hlt.2, bind, Except.bind,
    hfind, places, firstTagged_append]
  -- The second bucket is searched when the first one has no slot with the tag.
  cases firstTagged t ((List.range' (ASSOC_WAY * (hashes n key).1) ASSOC_WAY).map
    (·, (hashes n key).2)) with
  | some p => rfl
  | none =>
    cases firstTagged t ((List.range' (ASSOC_WAY * (hashes n key).2) ASSOC_WAY).map
      (·, (hashes n key).1)) <;> rfl

/-- The first free place. -/
def firstFree (t : HashTable) (ps : List (Nat × Nat)) : Option (Nat × Nat) :=
  ps.find? fun x => (t.slots x.1).status = .availible

theorem firstFree_append (ps qs : List (Nat × Nat)) :
    firstFree t (ps ++ qs) = (firstFree t ps).or (firstFree t qs) :=
  List.find?_append

theorem takeSlot_eq {o o' : Nat} (ho : o ≠ INVALID_OFFSET) (ps : List Nat) :
    takeSlot t tag o' o ps =
      (firstFree t (ps.map (·, tag))).map fun x => (t.set x.1 ⟨toTag x.2, .occupied, o'⟩, o) := by
  induction ps with
  | nil => rfl
  | cons p ps ih =>
    rw [takeSlot, if_neg (fun hc => ho hc.1)]
    simp only [firstFree, List.map_cons, List.find?_cons]
    by_cases hp : (t.slots p).status = .availible
    · simp [hp]
    · simp only [hp, if_false, decide_false]
      exact ih

theorem cuckooHashPut_eq (h : Shape t n) {o : Nat} (ho : o ≠ INVALID_OFFSET) :
    cuckooHashPut t key o = match firstFree t (places (hashes n key).1 (hashes n key).2) with
    | some x => .ok (false, t.set x.1 ⟨toTag x.2, .occupied, o⟩, o)
    | none => cuckooHashCollide t (hashes n key).1 (hashes n key).2 o := by
  have hlt := h.hashes_lt key
  simp only [cuckooHashPut, h.lsb, h.msb, h.bucket hlt.1, h.bucket hlt.2, bind, Except.bind,
    takeSlot_eq ho, places, firstFree_append]
  cases firstFree t ((List.range' (ASSOC_WAY * (hashes n key).1) ASSOC_WAY).map
    (·, (hashes n key).2)) with
  | some x => rfl
  | none =>
    cases firstFree t ((List.range' (ASSOC_WAY * (hashes n key).2) ASSOC_WAY).map
      (·, (hashes n key).1)) <;> rfl

end

end Cuckoo
