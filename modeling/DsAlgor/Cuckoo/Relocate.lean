import DsAlgor.Cuckoo.Collide
import Mathlib.Algebra.BigOperators.Group.Finset.Piecewise
import Mathlib.Data.Multiset.AddSub
import Mathlib.Data.Sym.Sym2

/-!
# The entries of a kick-out chain

`entries n t` are the entries in the occupied slots of `n` buckets, with the two buckets of each and
its offset; offsets may occur more than once, and the two buckets may be one. With the entry that is
carried along they are always those of the start and the new entry (`Carries`), so a chain that
gives up has lost the entry it carries (`cuckooHashCollide_entries`).
-/

namespace Cuckoo

open Finset

/-- The two buckets of an entry, and its offset. -/
abbrev Entry := Sym2 Nat × Nat

/-- The entry in slot `p`. -/
def slotEntry (p : Nat) (s : Slot) : Entry := (s(p / ASSOC_WAY, s.tag), s.offset)

def held (p : Nat) (s : Slot) : Multiset Entry :=
  if s.status = .occupied then {slotEntry p s} else 0

def entries (n : Nat) (t : HashTable) : Multiset Entry :=
  ∑ p ∈ range (ASSOC_WAY * n), held p (t.slots p)

/-- `n` buckets of `ASSOC_WAY` slots; their number is a `uint32_t`. -/
structure Buckets (t : HashTable) (n : Nat) : Prop where
  bucketsLen : t.bucketsLen = n
  slotsLen : t.slotsLen = ASSOC_WAY * n
  slots32 : t.slotsLen < 2 ^ 32

/-- Every slot is free, or occupied with the index of the other bucket as its tag. -/
def TagsBelow (n : Nat) (t : HashTable) : Prop :=
  ∀ p < ASSOC_WAY * n, (t.slots p).status = .availible ∨
    (t.slots p).status = .occupied ∧ (t.slots p).tag < n

section
variable {t : HashTable} {n p : Nat} {s : Slot}

theorem entries_set (hp : p < ASSOC_WAY * n) :
    entries n (t.set p s) + held p (t.slots p) = entries n t + held p s := by
  have hmem : p ∈ range (ASSOC_WAY * n) := mem_range.2 hp
  have hslots : ∀ q, held q ((t.set p s).slots q) =
      Function.update (fun q => held q (t.slots q)) p (held p s) q := by
    intro q
    by_cases hq : q = p
    · subst hq
      rw [set_slots_self, Function.update_self]
    · rw [set_slots_of_ne hq, Function.update_of_ne hq]
  unfold entries
  rw [sum_congr rfl fun q _ => hslots q, sum_update_of_mem hmem,
    ← sum_sdiff (singleton_subset_iff.2 hmem), sum_singleton]
  rw [add_comm (held p s), add_assoc, add_assoc, add_comm (held p s)]

theorem mem_entries {e : Entry} : e ∈ entries n t ↔
    ∃ p < ASSOC_WAY * n, (t.slots p).status = .occupied ∧ slotEntry p (t.slots p) = e := by
  have hheld : ∀ p, e ∈ held p (t.slots p) ↔
      (t.slots p).status = .occupied ∧ slotEntry p (t.slots p) = e := by
    intro p
    unfold held
    by_cases hocc : (t.slots p).status = .occupied
    · rw [if_pos hocc, Multiset.mem_singleton, and_iff_right hocc, eq_comm]
    · rw [if_neg hocc]
      exact iff_of_false (Multiset.notMem_zero e) fun hc => hocc hc.1
  unfold entries
  simp only [Multiset.mem_sum, mem_range, hheld]

theorem Buckets.set (h : Buckets t n) : Buckets (t.set p s) n :=
  ⟨h.bucketsLen, h.slotsLen, h.slots32⟩

theorem Buckets.bucket (h : Buckets t n) {tag : Nat} (ht : tag < n) :
    t.bucket tag = .ok (List.range' (ASSOC_WAY * tag) ASSOC_WAY) := by
  refine if_pos ⟨h.bucketsLen ▸ ht, ?_⟩
  rw [h.slotsLen, ASSOC_WAY]
  omega

theorem Buckets.toTag_eq (h : Buckets t n) {m : Nat} (hm : m < n) : toTag m = m := by
  have h1 := h.slotsLen
  have h2 := h.slots32
  rw [ASSOC_WAY] at h1
  exact Nat.mod_eq_of_lt (by omega)

theorem TagsBelow.set (h : TagsBelow n t) (hs : s.status = .occupied) (ht : s.tag < n) :
    TagsBelow n (t.set p s) := by
  intro q hq
  by_cases hqp : q = p
  · subst hqp
    rw [set_slots_self]
    exact .inr ⟨hs, ht⟩
  · rw [set_slots_of_ne hqp]
    exact h q hq

end

/-! ## The chain -/

/-- The entry that is carried along is in no slot. -/
structure Carries (n : Nat) (t : HashTable) (new : Entry) (s : Kick) : Prop where
  buckets : Buckets s.table n
  tagged : TagsBelow n s.table
  lt : ∀ b, s.oldTag b < n
  entries : entries n s.table + {(s(s.oldTag s.i, s.oldTag !s.i), s.oldOffset)} =
    Cuckoo.entries n t + {new}
  offset : s.offset = new.2
  count : s.k = s.altCnt - 512 ∧ s.altCnt ≤ 515

/-- What `cuckoo_hash_collide` leaves: it has lost an entry if it fails. -/
structure Relocated (n : Nat) (t : HashTable) (new : Entry) (fail : Bool) (t' : HashTable) :
    Prop where
  buckets : Buckets t' n
  tagged : TagsBelow n t'
  entries : if fail then ∃ lost ∈ Cuckoo.entries n t + {new},
      entries n t' + {lost} = Cuckoo.entries n t + {new}
    else entries n t' = Cuckoo.entries n t + {new}

section
variable {n : Nat} {t t' : HashTable} {new : Entry} {fail : Bool} {s : Kick}

/-- The entry finds a free slot. -/
theorem Carries.take (h : Carries n t new s) {p : Nat} (hp : p / ASSOC_WAY = s.oldTag s.i)
    (hfree : (s.table.slots p).status = .availible) : Relocated n t new false
      (s.table.set p ⟨toTag (s.oldTag !s.i), .occupied, s.oldOffset⟩) := by
  have hb := h.lt s.i
  have hpn : p < ASSOC_WAY * n := by
    rw [ASSOC_WAY] at hp ⊢
    omega
  rw [h.buckets.toTag_eq (h.lt _)]
  refine ⟨h.buckets.set, h.tagged.set rfl (h.lt _), ?_⟩
  have hset := entries_set (t := s.table) (s := ⟨s.oldTag !s.i, .occupied, s.oldOffset⟩) hpn
  have hnone : held p (s.table.slots p) = 0 := if_neg (by rw [hfree]; decide)
  rw [hnone, add_zero] at hset
  rw [if_neg Bool.false_ne_true, hset, ← h.entries, ← hp]
  rfl

/-- The exchange with an occupied slot. -/
theorem Carries.swap (h : Carries n t new s) (hv : s.victim / ASSOC_WAY = s.oldTag s.i)
    (hocc : (s.table.slots s.victim).status = .occupied)
    (hgo : ¬ (s.altCnt + 1 > 512 ∧ s.k = ASSOC_WAY - 1)) : Carries n t new s.swap := by
  have hb := h.lt s.i
  have hvn : s.victim < ASSOC_WAY * n := by
    rw [ASSOC_WAY] at hv ⊢
    omega
  have htag : (s.table.slots s.victim).tag < n := by
    cases h.tagged s.victim hvn with
    | inl hfree =>
      rw [hfree] at hocc
      cases hocc
    | inr hslot => exact hslot.2
  have htable : s.swap.table =
      s.table.set s.victim ⟨s.oldTag !s.i, .occupied, s.oldOffset⟩ := by
    rw [← h.buckets.toTag_eq (h.lt !s.i), ← hocc]
    rfl
  have hself : s.swap.oldTag s.swap.i = (s.table.slots s.victim).tag :=
    Function.update_self _ _ _
  have hother : s.swap.oldTag (!s.swap.i) = s.victim / ASSOC_WAY := by
    rw [hv]
    show Function.update s.oldTag (!s.i) _ (!!s.i) = _
    rw [Bool.not_not]
    exact Function.update_of_ne (by cases s.i <;> decide) _ _
  refine ⟨?_, ?_, fun b => ?_, ?_, h.offset, count_step h.count hgo⟩
  · rw [htable]
    exact h.buckets.set
  · rw [htable]
    exact h.tagged.set rfl (h.lt _)
  · have hb : b = s.swap.i ∨ b = !s.swap.i := by cases b <;> cases s.swap.i <;> simp
    cases hb with
    | inl hb =>
      rw [hb, hself]
      exact htag
    | inr hb =>
      rw [hb, hother, hv]
      exact h.lt _
  · -- the victim's entry comes out of its slot, and the carried one goes into it
    have hset := entries_set (t := s.table) (s := ⟨s.oldTag !s.i, .occupied, s.oldOffset⟩) hvn
    have hout : held s.victim (s.table.slots s.victim) =
        {(s(s.swap.oldTag s.swap.i, s.swap.oldTag !s.swap.i), s.swap.oldOffset)} := by
      rw [hself, hother, Sym2.eq_swap]
      exact if_pos hocc
    rw [hout] at hset
    rw [htable, hset, ← h.entries, ← hv]
    rfl

/-- One round. -/
theorem Carries.kickOut (h : Carries n t new s) (ho : new.2 ≠ INVALID_OFFSET) :
    (∃ t', Cuckoo.kickOut s = .ok (.inr (false, t', new.2)) ∧ Relocated n t new false t') ∨
      (Cuckoo.kickOut s = .ok (.inr (true, s.table, new.2)) ∧ Relocated n t new true s.table) ∨
      (Cuckoo.kickOut s = .ok (.inl s.swap) ∧ Carries n t new s.swap) := by
  have hbucket := h.buckets.bucket (h.lt s.i)
  simp only [Cuckoo.kickOut, hbucket, bind, Except.bind, takeSlot_eq (h.offset ▸ ho)]
  cases hfree : firstFree s.table ((List.range' (ASSOC_WAY * s.oldTag s.i) ASSOC_WAY).map
    (·, s.oldTag !s.i)) with
  | some x =>
    obtain ⟨hx, hxt, hxs⟩ := firstFree_bucket hfree
    refine .inl ⟨_, ?_, h.take hx hxs⟩
    rw [← hxt, h.offset]
    rfl
  | none =>
    by_cases hgive : s.altCnt + 1 > 512 ∧ s.k = ASSOC_WAY - 1
    · refine .inr (.inl ⟨?_, h.buckets, h.tagged, ?_⟩)
      · rw [← h.offset]
        exact if_pos hgive
      · rw [if_pos rfl]
        refine ⟨_, ?_, h.entries⟩
        rw [← h.entries]
        exact Multiset.mem_add.2 (.inr (Multiset.mem_singleton_self _))
    · have hv := Kick.victim_bucket h.count hgive
      have hne := firstFree_bucket_none hfree hv
      have hvn : s.victim < ASSOC_WAY * n := by
        have := h.lt s.i
        rw [ASSOC_WAY] at hv ⊢
        omega
      exact .inr (.inr ⟨if_neg hgive, h.swap hv ((h.tagged _ hvn).resolve_left hne).1 hgive⟩)

theorem kickLoop_relocated (ho : new.2 ≠ INVALID_OFFSET) : ∀ (fuel : Nat) (s : Kick),
    Carries n t new s → s.altCnt + fuel = 516 →
    ∃ fail t', kickLoop fuel s = .ok (fail, t', new.2) ∧ Relocated n t new fail t'
  | 0, s, h, hf => by
    -- the chain gives up before
    have := h.count.2
    omega
  | fuel + 1, s, h, hf => by
    cases h.kickOut ho with
    | inl htake =>
      obtain ⟨t', hrun, hpost⟩ := htake
      refine ⟨false, t', ?_, hpost⟩
      simp only [kickLoop, hrun, bind, Except.bind, pure, Except.pure]
    | inr hrest =>
      cases hrest with
      | inl hgive =>
        obtain ⟨hrun, hpost⟩ := hgive
        refine ⟨true, s.table, ?_, hpost⟩
        simp only [kickLoop, hrun, bind, Except.bind, pure, Except.pure]
      | inr hgo =>
        obtain ⟨hrun, hnext⟩ := hgo
        have hfuel : s.swap.altCnt + fuel = 516 := by
          show s.altCnt + 1 + fuel = 516
          omega
        obtain ⟨fail, t', hrun', hpost⟩ := kickLoop_relocated ho fuel s.swap hnext hfuel
        refine ⟨fail, t', ?_, hpost⟩
        simp only [kickLoop, hrun, bind, Except.bind]
        exact hrun'

theorem Relocated.mem (h : Relocated n t new fail t') {p : Nat} (hp : p < ASSOC_WAY * n)
    (hocc : (t'.slots p).status = .occupied) :
    slotEntry p (t'.slots p) ∈ Cuckoo.entries n t + {new} := by
  have hmem : slotEntry p (t'.slots p) ∈ Cuckoo.entries n t' := mem_entries.2 ⟨p, hp, hocc, rfl⟩
  have hentries := h.entries
  cases fail with
  | false => exact hentries ▸ hmem
  | true =>
    obtain ⟨lost, -, hlost⟩ := hentries
    rw [← hlost]
    exact Multiset.mem_add.2 (.inl hmem)

end

/-- **The entries after `cuckoo_hash_collide`** of an entry whose buckets are full: none is lost if
it succeeds, and one if it fails. -/
theorem cuckooHashCollide_entries {n tag0 tag1 offset : Nat} {t : HashTable} (h : Buckets t n)
    (ht : TagsBelow n t) (h0 : tag0 < n) (h1 : tag1 < n) (ho : offset ≠ INVALID_OFFSET)
    (hfull : ∀ p < ASSOC_WAY * n, p / ASSOC_WAY = tag0 ∨ p / ASSOC_WAY = tag1 →
      (t.slots p).status = .occupied) :
    ∃ fail t', cuckooHashCollide t tag0 tag1 offset = .ok (fail, t', offset) ∧
      (if fail then ∃ lost ∈ entries n t + {(s(tag0, tag1), offset)},
          entries n t' + {lost} = entries n t + {(s(tag0, tag1), offset)}
        else entries n t' = entries n t + {(s(tag0, tag1), offset)}) ∧
      TagsBelow n t' ∧ ∀ p < ASSOC_WAY * n, (t'.slots p).status = .occupied →
        (s(p / ASSOC_WAY, (t'.slots p).tag), (t'.slots p).offset) ∈
          entries n t + {(s(tag0, tag1), offset)} := by
  have hp0 : ASSOC_WAY * tag0 / ASSOC_WAY = tag0 := Nat.mul_div_cancel_left _ (by decide)
  have hp0n : ASSOC_WAY * tag0 < ASSOC_WAY * n := Nat.mul_lt_mul_of_pos_left h0 (by decide)
  have hstart : Carries n t (s(tag0, tag1), offset) (startKick t tag0 tag1 offset) := by
    refine ⟨h, ht, fun b => ?_, rfl, rfl, by simp [startKick]⟩
    cases b with
    | false => exact h0
    | true => exact h1
  have hswap := hstart.swap (by rw [startKick_victim, hp0]; rfl)
    (by rw [startKick_victim]; exact hfull _ hp0n (.inl hp0)) (by simp [startKick])
  have hkick : Carries n t (s(tag0, tag1), offset) (firstKick t tag0 tag1 offset) := by
    rw [← startKick_swap]
    exact { hswap with count := by simp [Kick.swap, startKick] }
  obtain ⟨fail, t', hrun, hpost⟩ := kickLoop_relocated ho (512 + ASSOC_WAY) _ hkick rfl
  refine ⟨fail, t', ?_, hpost.entries, hpost.tagged, fun p hp hocc => hpost.mem hp hocc⟩
  rw [cuckooHashCollide, h.bucket h0]
  exact hrun

/-- Two buckets full of entries of both. -/
def fullTable : HashTable :=
  { slots := fun p => ⟨1 - p / ASSOC_WAY, .occupied, 32 * p⟩
    slotsLen := 8, bucketsLen := 2, slotNum := 8, bucketNum := 2 }

theorem cuckooHashCollide_full : ∃ fail t', cuckooHashCollide fullTable 0 1 256 = .ok
    (fail, t', 256) ∧ (if fail then ∃ lost ∈ entries 2 fullTable + {(s(0, 1), 256)},
        entries 2 t' + {lost} = entries 2 fullTable + {(s(0, 1), 256)}
      else entries 2 t' = entries 2 fullTable + {(s(0, 1), 256)}) ∧
    TagsBelow 2 t' ∧ ∀ p < ASSOC_WAY * 2, (t'.slots p).status = .occupied →
      (s(p / ASSOC_WAY, (t'.slots p).tag), (t'.slots p).offset) ∈
        entries 2 fullTable + {(s(0, 1), 256)} :=
  cuckooHashCollide_entries ⟨rfl, rfl, by decide⟩ (by unfold TagsBelow; decide)
    (by decide) (by decide) (by decide) (fun _ _ _ => rfl)

end Cuckoo
