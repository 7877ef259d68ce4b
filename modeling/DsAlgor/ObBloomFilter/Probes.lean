import DsAlgor.Lib.BitArray
import DsAlgor.Lib.CInt

/-!
# The Bloom filter of OceanBase

The model of `ob_bloomfilter.h`. `bits_` is the list of the bytes in its block, or `none` where it
is `NULL`; the allocator is a parameter that says whether a request for a number of bytes succeeds.
What writes past the end of its block has no result (`none`). The log messages are left out.
-/

namespace ObBloomFilter

open BitArray

inductive Ret
  | success
  | error
  | invalidArgument
deriving DecidableEq

structure Filter where
  nhash : Int
  nbit : Int
  bits : Option (List Byte)

/-- The constructor. -/
def new : Filter := ⟨0, 0, none⟩

/-- `calc_nbyte`; the quotient is rounded towards zero. -/
def calcNbyte (nbit : Int) : Int := nbit.tdiv 8 + if nbit.tmod 8 ≠ 0 then 1 else 0

def Filter.destroy (f : Filter) : Filter :=
  match f.bits with
  | some _ => new
  | none => f

def Filter.init (alloc : Int → Bool) (f : Filter) (nhash nbit : Int) : Option (Ret × Filter) :=
  if 0 ≥ nhash ∨ 0 ≥ nbit then some (.invalidArgument, f)
  else
    let f := f.destroy
    let nbyte := calcNbyte nbit
    if alloc (int32 nbyte) = false then some (.error, { f with bits := none })
    -- the block has `int32 nbyte` bytes, `memset` writes `nbyte`
    else if int32 nbyte < nbyte then none
    else some (.success,
      { nhash := nhash, nbit := nbit, bits := some (List.replicate nbyte.toNat 0) })

section
variable {T : Type} (hash : T → BitVec 64 → BitVec 64)

/-- The loop of `insert`, with `r` rounds left. -/
def insertLoop (nbit : Int) (element : T) : Nat → BitVec 64 → List Byte → List Byte
  | 0, _, bits => bits
  | r + 1, h, bits =>
    let h := hash element h % BitVec.ofInt 64 nbit
    insertLoop nbit element r h (set bits h.toNat)

def Filter.insert (f : Filter) (element : T) : Ret × Filter :=
  match f.bits with
  | none => (.error, f)
  | some bits =>
    if 0 ≥ f.nbit ∨ 0 ≥ f.nhash then (.error, f)
    else (.success, { f with bits := some (insertLoop hash f.nbit element f.nhash.toNat 0 bits) })

/-- The loop of `may_contain`; a probe is cut to 32 bits. -/
def mayContainLoop (nbit : Int) (element : T) (bits : List Byte) : Nat → BitVec 64 → Bool
  | 0, _ => true
  | r + 1, h =>
    let h := ((hash element h % BitVec.ofInt 64 nbit).setWidth 32).setWidth 64
    if get bits h.toNat = false then false else mayContainLoop nbit element bits r h

def Filter.mayContain (f : Filter) (element : T) : Bool :=
  match f.bits with
  | none => false
  | some bits => if 0 ≥ f.nbit ∨ 0 ≥ f.nhash then false else mayContainLoop hash f.nbit element bits
      f.nhash.toNat 0

/-- The filter after a number of insertions. -/
def Filter.insertAll (f : Filter) (elements : List T) : Filter :=
  elements.foldl (fun f e => (f.insert hash e).2) f

end

theorem calcNbyte_natCast (n : Nat) : calcNbyte n = ((n + 7) / 8 : Nat) := by
  unfold calcNbyte
  rw [Int.tdiv_eq_ediv_of_nonneg (Int.natCast_nonneg n),
    Int.tmod_eq_emod_of_nonneg (Int.natCast_nonneg n)]
  split_ifs <;> omega

variable {nbit : Int}

/-- A block for at most so many bits has the size that is asked for. -/
theorem int32_calcNbyte (h0 : 0 ≤ nbit) (h : nbit < 2 ^ 34 - 7) :
    int32 (calcNbyte nbit) = calcNbyte nbit := by
  obtain ⟨n, rfl⟩ := Int.eq_ofNat_of_zero_le h0
  rw [calcNbyte_natCast]
  exact int32_natCast (by omega)

/-! ## No false negatives

`insert` and `may_contain` walk along the same probes as long as a probe fits into 32 bits. In a
filter with more than `2 ^ 32` bits `may_contain` cuts a probe that `insert` does not cut, and looks
at another bit from then on.
-/

/-- Every element that is inserted into the filter is found, for every hash function. -/
def NoFalseNegatives (f : Filter) : Prop :=
  ∀ (T : Type) (hash : T → BitVec 64 → BitVec 64) (elements : List T),
    ∀ e ∈ elements, (f.insertAll hash elements).mayContain hash e = true

section
variable {T : Type} (hash : T → BitVec 64 → BitVec 64)

/-- The positions that `insert` sets. -/
def probes (nbit : Int) (element : T) : Nat → BitVec 64 → List Nat
  | 0, _ => []
  | r + 1, h =>
    (hash element h % BitVec.ofInt 64 nbit).toNat :: probes nbit element r
      (hash element h % BitVec.ofInt 64 nbit)

theorem insertLoop_eq (nbit : Int) (element : T) (r : Nat) (h : BitVec 64) (bits : List Byte) :
    insertLoop hash nbit element r h bits = setAll bits (probes hash nbit element r h) := by
  induction r generalizing h bits with
  | zero => rfl
  | succ r ih =>
    rw [insertLoop, ih]
    rfl

variable {nbit : Int}

theorem toNat_ofInt_nbit (h0 : 0 < nbit) (h : nbit < 2 ^ 34) :
    (BitVec.ofInt 64 nbit).toNat = nbit.toNat := by
  rw [BitVec.toNat_ofInt]
  omega

theorem probe_lt (h0 : 0 < nbit) (h : nbit < 2 ^ 34) (x : BitVec 64) :
    (x % BitVec.ofInt 64 nbit).toNat < nbit.toNat := by
  rw [BitVec.toNat_umod, toNat_ofInt_nbit h0 h]
  exact Nat.mod_lt _ (by omega)

theorem lt_of_mem_probes (h0 : 0 < nbit) (h : nbit < 2 ^ 34) {element : T} {r i : Nat}
    {x : BitVec 64} (hi : i ∈ probes hash nbit element r x) : i < nbit.toNat := by
  induction r generalizing x with
  | zero => cases hi
  | succ r ih =>
    rcases List.mem_cons.1 hi with rfl | hi
    · exact probe_lt h0 h _
    · exact ih hi

/-- Cutting a small probe to 32 bits changes nothing. -/
theorem cut_probe (h0 : 0 < nbit) (h : nbit ≤ 2 ^ 32) (x : BitVec 64) :
    ((x % BitVec.ofInt 64 nbit).setWidth 32).setWidth 64 = x % BitVec.ofInt 64 nbit := by
  have hlt := probe_lt h0 (by omega) x
  apply BitVec.eq_of_toNat_eq
  rw [BitVec.toNat_setWidth, BitVec.toNat_setWidth]
  omega

theorem mayContainLoop_eq (h0 : 0 < nbit) (h : nbit ≤ 2 ^ 32) (element : T) (bits : List Byte)
    (r : Nat) (x : BitVec 64) :
    mayContainLoop hash nbit element bits r x = (probes hash nbit element r x).all (get bits) := by
  induction r generalizing x with
  | zero => rfl
  | succ r ih =>
    rw [mayContainLoop, cut_probe h0 h, ih, probes, List.all_cons]
    cases get bits (hash element x % BitVec.ofInt 64 nbit).toNat with
    | false => rfl
    | true => rfl

/-- A filter that has been initialised. -/
structure Ready (f : Filter) (nhash nbit : Int) (bits : List Byte) : Prop where
  eq : f = ⟨nhash, nbit, some bits⟩
  length : (bits.length : Int) = calcNbyte nbit

theorem ready_of_init {alloc : Int → Bool} {f f' : Filter} {nhash : Int}
    (h : f.init alloc nhash nbit = some (.success, f')) :
    0 < nhash ∧ 0 < nbit ∧ Ready f' nhash nbit (List.replicate (calcNbyte nbit).toNat 0) := by
  unfold Filter.init at h
  dsimp only at h
  split_ifs at h with harg halloc hint
  · cases h
  · cases h
  · push Not at harg
    obtain rfl := (Prod.ext_iff.1 (Option.some.inj h)).2
    refine ⟨harg.1, harg.2, rfl, ?_⟩
    obtain ⟨n, rfl⟩ := Int.eq_ofNat_of_zero_le (le_of_lt harg.2)
    rw [List.length_replicate, calcNbyte_natCast, Int.toNat_natCast]

theorem Ready.insert {f : Filter} {nhash : Int} {bits : List Byte} (h : Ready f nhash nbit bits)
    (h1 : 0 < nhash) (h2 : 0 < nbit) (e : T) :
    Ready (f.insert hash e).2 nhash nbit (setAll bits (probes hash nbit e nhash.toNat 0)) := by
  have hok : ¬ (0 ≥ nbit ∨ 0 ≥ nhash) := by omega
  rw [h.eq]
  unfold Filter.insert
  dsimp only
  rw [if_neg hok, insertLoop_eq]
  refine ⟨rfl, ?_⟩
  rw [length_setAll]
  exact h.length

/-- All the positions of all the elements. -/
theorem Ready.insertAll {f : Filter} {nhash : Int} {bits : List Byte}
    (h : Ready f nhash nbit bits) (h1 : 0 < nhash) (h2 : 0 < nbit) (es : List T) :
    Ready (f.insertAll hash es) nhash nbit
      (setAll bits (es.flatMap fun e => probes hash nbit e nhash.toNat 0)) := by
  induction es generalizing f bits with
  | nil => exact h
  | cons e es ih =>
    rw [List.flatMap_cons, setAll_append]
    exact ih (h.insert hash h1 h2 e)

theorem Ready.mayContain {f : Filter} {nhash : Int} {bits : List Byte}
    (h : Ready f nhash nbit bits) (h1 : 0 < nhash) (h2 : 0 < nbit) (e : T) :
    f.mayContain hash e = mayContainLoop hash nbit e bits nhash.toNat 0 := by
  rw [h.eq]
  unfold Filter.mayContain
  dsimp only
  rw [if_neg (by omega)]

end

theorem Ready.noFalseNegatives {f : Filter} {nhash : Int} {bits : List Byte}
    (h : Ready f nhash nbit bits) (h1 : 0 < nhash) (h2 : 0 < nbit) (hsmall : nbit ≤ 2 ^ 32) :
    NoFalseNegatives f := by
  intro T hash es e he
  have hall := h.insertAll hash h1 h2 es
  rw [hall.mayContain hash h1 h2 e, mayContainLoop_eq hash h2 hsmall, List.all_eq_true]
  intro i hi
  apply get_setAll (List.mem_flatMap.2 ⟨e, he, hi⟩)
  have hlt := lt_of_mem_probes hash h2 (by omega) hi
  have hlen := h.length
  obtain ⟨n, rfl⟩ := Int.eq_ofNat_of_zero_le (le_of_lt h2)
  rw [calcNbyte_natCast] at hlen
  rw [Int.toNat_natCast] at hlt
  omega

/-! ## Large filters -/

/-- The hash function with the value `2 ^ 32`. -/
def faraway : Unit → BitVec 64 → BitVec 64 := fun _ _ => 2 ^ 32

theorem faraway_probe (h : 2 ^ 32 < nbit) (h3 : nbit < 2 ^ 34) (x : BitVec 64) :
    faraway () x % BitVec.ofInt 64 nbit = 2 ^ 32 := by
  apply BitVec.eq_of_toNat_eq
  rw [BitVec.toNat_umod, toNat_ofInt_nbit (by omega) h3]
  have hvalue : (faraway () x).toNat = 2 ^ 32 := rfl
  have hpow : (2 ^ 32 : BitVec 64).toNat = 2 ^ 32 := rfl
  rw [hvalue, hpow]
  exact Nat.mod_eq_of_lt (by omega)

theorem faraway_probes (h : 2 ^ 32 < nbit) (h3 : nbit < 2 ^ 34) (r : Nat) (x : BitVec 64) :
    probes faraway nbit () r x = List.replicate r (2 ^ 32) := by
  induction r generalizing x with
  | zero => rfl
  | succ r ih =>
    rw [probes, ih, faraway_probe h h3]
    rfl

/-- `insert` sets bit `2 ^ 32`, and `may_contain` looks at bit `0`. -/
theorem Ready.lost {f : Filter} {nhash : Int} (h1 : 0 < nhash) (hlarge : 2 ^ 32 < nbit)
    (h3 : nbit < 2 ^ 34) (h : Ready f nhash nbit (List.replicate (calcNbyte nbit).toNat 0)) :
    (f.insertAll faraway [()]).mayContain faraway () = false := by
  have h2 : 0 < nbit := by omega
  have hall := h.insertAll faraway h1 h2 [()]
  rw [hall.mayContain faraway h1 h2, List.flatMap_singleton, faraway_probes hlarge h3]
  obtain ⟨r, hr⟩ : ∃ r, nhash.toNat = r + 1 := ⟨nhash.toNat - 1, by omega⟩
  rw [hr, mayContainLoop, faraway_probe hlarge h3]
  have hcut : (((2 ^ 32 : BitVec 64).setWidth 32).setWidth 64).toNat = 0 := rfl
  rw [hcut, if_pos]
  rw [get_setAll_of_byte]
  · exact get_replicate_zero _
  · intro i hi
    rw [List.eq_of_mem_replicate hi]
    norm_num

/-- **No false negatives** exactly where a probe fits into 32 bits. -/
theorem noFalseNegatives_iff {alloc : Int → Bool} {f f' : Filter} {nhash nbit : Int}
    (hinit : f.init alloc nhash nbit = some (.success, f')) (h3 : nbit < 2 ^ 34) :
    NoFalseNegatives f' ↔ nbit ≤ 2 ^ 32 := by
  obtain ⟨h1, h2, hready⟩ := ready_of_init hinit
  refine ⟨fun h => ?_, hready.noFalseNegatives h1 h2⟩
  by_contra hlarge
  have hfound := h Unit faraway [()] () List.mem_cons_self
  rw [hready.lost h1 (not_le.1 hlarge) h3] at hfound
  cases hfound

theorem init_of_small {nhash : Int} (h1 : 0 < nhash) (h2 : 0 < nbit) (h3 : nbit < 2 ^ 34 - 7) :
    new.init (fun _ => true) nhash nbit =
      some (.success, ⟨nhash, nbit, some (List.replicate (calcNbyte nbit).toNat 0)⟩) := by
  unfold Filter.init
  dsimp only
  rw [if_neg (by omega), if_neg (by simp), int32_calcNbyte (le_of_lt h2) h3, if_neg (lt_irrefl _)]

theorem noFalseNegatives_hundred : ∃ f, new.init (fun _ => true) 3 100 = some (.success, f) ∧
    (NoFalseNegatives f ↔ (100 : Int) ≤ 2 ^ 32) := by
  have hinit := init_of_small (show (0 : Int) < 3 by norm_num) (show (0 : Int) < 100 by norm_num)
    (by norm_num)
  exact ⟨_, hinit, noFalseNegatives_iff hinit (by norm_num)⟩

/-- A filter of `2 ^ 33` bits loses an element that hashes to `2 ^ 32`. -/
theorem element_lost : ∃ f, new.init (fun _ => true) 1 (2 ^ 33) = some (.success, f) ∧
    (f.insertAll faraway [()]).mayContain faraway () = false := by
  have hinit := init_of_small (show (0 : Int) < 1 by norm_num) (show (0 : Int) < 2 ^ 33 by norm_num)
    (by norm_num)
  obtain ⟨h1, -, hready⟩ := ready_of_init hinit
  exact ⟨_, hinit, hready.lost h1 (by norm_num) (by norm_num)⟩

end ObBloomFilter
