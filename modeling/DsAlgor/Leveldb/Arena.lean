import DsAlgor.Lib.Outcome
import Mathlib

/-!
# The arena of the skip list

The class `Arena` of `arena.cc`. Addresses are numbers and a pointer has 8 bytes; the address that
`new` gives, should it be called, is a parameter of the operation. `Memory` is what `new` has given
and `delete` has not taken back, of others as well.

`run_cases` says once what an operation does. From it come the two invariants of runs: `Inv`, that
what was given out is in blocks and apart, and `Balance`, how much of the blocks is wasted.
-/

namespace Leveldb

structure Arena where
  allocPtr : Nat
  allocBytesRemaining : Nat
  blocks : List Nat
  memoryUsage : Nat

namespace Arena

open Outcome (ok_bind)

def kBlockSize : Nat := 4096
def align : Nat := 8

inductive Fault
  /-- A failed `assert`. -/
  | assertion
  /-- A `delete[]` of what is no block. -/
  | badDelete
deriving DecidableEq

/-- Bytes from an address on. -/
structure Span where
  ptr : Nat
  bytes : Nat
deriving DecidableEq

def Span.range (s : Span) : Set Nat := Set.Ico s.ptr (s.ptr + s.bytes)

abbrev Memory := List Span

def new : Arena := ⟨0, 0, [], 0⟩

def allocateNewBlock (m : Memory) (a : Arena) (fresh blockBytes : Nat) : Nat × Memory × Arena :=
  (fresh, ⟨fresh, blockBytes⟩ :: m,
    { a with
      blocks := a.blocks ++ [fresh]
      memoryUsage := (a.memoryUsage + blockBytes + 8) % 2 ^ 64 })

def allocateFallback (m : Memory) (a : Arena) (fresh bytes : Nat) : Nat × Memory × Arena :=
  if bytes > kBlockSize / 4 then a.allocateNewBlock m fresh bytes
  else
    let (ptr, m, a) := a.allocateNewBlock m fresh kBlockSize
    (ptr, m, { a with allocPtr := ptr + bytes, allocBytesRemaining := kBlockSize - bytes })

def allocate (m : Memory) (a : Arena) (fresh bytes : Nat) : Except Fault (Nat × Memory × Arena) :=
  if bytes > 0 then
    if bytes ≤ a.allocBytesRemaining then
      .ok (a.allocPtr, m,
        { a with
          allocPtr := a.allocPtr + bytes
          allocBytesRemaining := a.allocBytesRemaining - bytes })
    else .ok (a.allocateFallback m fresh bytes)
  else .error .assertion

/-- The bytes to the next multiple of `align`. -/
def slop (a : Arena) : Nat :=
  let currentMod := a.allocPtr &&& (align - 1)
  if currentMod = 0 then 0 else align - currentMod

def allocateAligned (m : Memory) (a : Arena) (fresh bytes : Nat) :
    Except Fault (Nat × Memory × Arena) :=
  if align &&& (align - 1) = 0 then
    let needed := (bytes + a.slop) % 2 ^ 64
    let (result, m, a) :=
      if needed ≤ a.allocBytesRemaining then
        (a.allocPtr + a.slop, m,
          { a with
            allocPtr := a.allocPtr + needed
            allocBytesRemaining := a.allocBytesRemaining - needed })
      else a.allocateFallback m fresh bytes
    if result &&& (align - 1) = 0 then .ok (result, m, a) else .error .assertion
  else .error .assertion

/-- `delete[] p` -/
def delete (m : Memory) (p : Nat) : Except Fault Memory :=
  if ∃ b ∈ m, b.ptr = p then .ok (m.eraseP fun b => b.ptr = p) else .error .badDelete

def destroy (m : Memory) (a : Arena) : Except Fault Memory := a.blocks.foldlM delete m

/-! ## Operations -/

/-- Of the arena. -/
structure Op where
  /-- `AllocateAligned`. -/
  aligned : Bool
  bytes : Nat
  /-- The address that `new` gives. -/
  fresh : Nat

def Op.run (m : Memory) (a : Arena) (op : Op) : Except Fault (Nat × Memory × Arena) :=
  if op.aligned then a.allocateAligned m op.fresh op.bytes else a.allocate m op.fresh op.bytes

/-- The memory that was given out, and what the operations leave. -/
def runOps : Memory → Arena → List Op → Except Fault (List Span × Memory × Arena)
  | m, a, [] => .ok ([], m, a)
  | m, a, op :: ops => do
    let (p, m, a) ← op.run m a
    let (ss, m, a) ← runOps m a ops
    return (⟨p, op.bytes⟩ :: ss, m, a)

def blockBytes (bytes : Nat) : Nat := if bytes > kBlockSize / 4 then bytes else kBlockSize

/-- What an operation gives out. -/
def Answers (op : Op) (s : Span) : Prop :=
  s.bytes = op.bytes ∧ (op.aligned = true → s.ptr % align = 0)

/-- The bytes that an operation may skip. -/
def Op.slack (op : Op) : Nat := if op.aligned then align - 1 else 0

def Op.skip (a : Arena) (op : Op) : Nat := if op.aligned then a.slop else 0

/-- What `new` gives: a block of its own, at an address that is a multiple of `align`. -/
def Fresh (m : Memory) (b : Span) : Prop :=
  b.ptr % align = 0 ∧ ∀ x ∈ m, x.ptr ≠ b.ptr ∧
    (x.ptr + x.bytes ≤ b.ptr ∨ b.ptr + b.bytes ≤ x.ptr)

instance (m : Memory) (b : Span) : Decidable (Fresh m b) := inferInstanceAs (Decidable (_ ∧ _))

/-- What is asked of the callers, and of `new` where it is called. -/
def Op.Allowed (m : Memory) (a : Arena) (op : Op) : Prop :=
  op.bytes + align ≤ 2 ^ 64 ∧ (op.aligned = false → 0 < op.bytes) ∧
    (a.allocBytesRemaining < op.bytes + op.skip a → Fresh m ⟨op.fresh, blockBytes op.bytes⟩)

instance (m : Memory) (a : Arena) (op : Op) : Decidable (op.Allowed m a) :=
  inferInstanceAs (Decidable (_ ∧ _ ∧ _))

def AllowedOps : Memory → Arena → List Op → Prop
  | _, _, [] => True
  | m, a, op :: ops => op.Allowed m a ∧
    match op.run m a with
    | .ok (_, m, a) => AllowedOps m a ops
    | .error _ => True

instance decidableAllowedOps : ∀ (m : Memory) (a : Arena) (ops : List Op),
    Decidable (AllowedOps m a ops)
  | _, _, [] => .isTrue trivial
  | m, a, op :: ops =>
    match h : op.run m a with
    | .ok (_, m', a') =>
      have := decidableAllowedOps m' a' ops
      decidable_of_iff (op.Allowed m a ∧ AllowedOps m' a' ops) (by rw [AllowedOps, h])
    | .error _ => decidable_of_iff (op.Allowed m a) (by simp [AllowedOps, h])

section
variable {m : Memory} {a : Arena} {op : Op}

theorem and_align (n : Nat) : n &&& (align - 1) = n % align :=
  Nat.and_two_pow_sub_one_eq_mod n 3

theorem slop_lt (a : Arena) : a.slop < align := by
  unfold Arena.slop
  rw [and_align]
  dsimp only [align]
  split_ifs <;> omega

theorem slop_aligned (a : Arena) : (a.allocPtr + a.slop) % align = 0 := by
  unfold Arena.slop
  rw [and_align]
  dsimp only [align]
  split_ifs <;> omega

theorem skip_le (a : Arena) (op : Op) : op.skip a ≤ op.slack := by
  unfold Op.skip Op.slack
  have := slop_lt a
  split_ifs <;> omega

/-- The arena with one more block. -/
def grown (a : Arena) (b : Span) : Arena :=
  { a with
    blocks := a.blocks ++ [b.ptr]
    memoryUsage := (a.memoryUsage + b.bytes + 8) % 2 ^ 64 }

theorem fallback_eq (m : Memory) (a : Arena) (fresh bytes : Nat) :
    a.allocateFallback m fresh bytes = (fresh, ⟨fresh, blockBytes bytes⟩ :: m,
      if bytes > kBlockSize / 4 then grown a ⟨fresh, blockBytes bytes⟩
      else { grown a ⟨fresh, blockBytes bytes⟩ with
        allocPtr := fresh + bytes
        allocBytesRemaining := kBlockSize - bytes }) := by
  unfold Arena.allocateFallback blockBytes
  split_ifs <;> rfl

/-- **One operation**: it gives the next bytes, or the first ones of a new block. -/
theorem run_cases (hop : op.Allowed m a) : ∃ p m' a', op.run m a = .ok (p, m', a') ∧
    (op.aligned = true → p % align = 0) ∧
    ((op.bytes + op.skip a ≤ a.allocBytesRemaining ∧ p = a.allocPtr + op.skip a ∧ m' = m ∧
        a' = { a with
          allocPtr := a.allocPtr + (op.bytes + op.skip a)
          allocBytesRemaining := a.allocBytesRemaining - (op.bytes + op.skip a) }) ∨
      (a.allocBytesRemaining < op.bytes + op.skip a ∧ p = op.fresh ∧
        m' = ⟨op.fresh, blockBytes op.bytes⟩ :: m ∧
        a' = if op.bytes > kBlockSize / 4 then grown a ⟨op.fresh, blockBytes op.bytes⟩
          else { grown a ⟨op.fresh, blockBytes op.bytes⟩ with
            allocPtr := op.fresh + op.bytes
            allocBytesRemaining := kBlockSize - op.bytes })) := by
  obtain ⟨aligned, bytes, fresh⟩ := op
  cases aligned with
  | false =>
    have hpos : bytes > 0 := hop.2.1 rfl
    unfold Op.run Arena.allocate Op.skip
    simp only [Bool.false_eq_true, if_false, if_pos hpos, Nat.add_zero]
    by_cases hroom : bytes ≤ a.allocBytesRemaining
    · rw [if_pos hroom]
      exact ⟨_, _, _, rfl, fun h => absurd h (by decide), .inl ⟨hroom, rfl, rfl, rfl⟩⟩
    · rw [if_neg hroom, fallback_eq]
      exact ⟨_, _, _, rfl, fun h => absurd h (by decide),
        .inr ⟨Nat.lt_of_not_le hroom, rfl, rfl, rfl⟩⟩
  | true =>
    have hslop := slop_lt a
    have hsize := hop.1
    have hmod : (bytes + a.slop) % 2 ^ 64 = bytes + a.slop := Nat.mod_eq_of_lt (by
      dsimp only at hsize
      omega)
    unfold Op.run Arena.allocateAligned Op.skip
    simp only [if_true, and_align, hmod]
    rw [if_pos (by decide)]
    by_cases hroom : bytes + a.slop ≤ a.allocBytesRemaining
    · rw [if_pos hroom]
      dsimp only
      rw [if_pos (slop_aligned a)]
      exact ⟨_, _, _, rfl, fun _ => slop_aligned a, .inl ⟨hroom, rfl, rfl, rfl⟩⟩
    · rw [if_neg hroom, fallback_eq]
      have hfresh := (hop.2.2 (by
        unfold Op.skip
        simpa using hroom)).1
      dsimp only at hfresh ⊢
      rw [if_pos hfresh]
      exact ⟨_, _, _, rfl, fun _ => hfresh, .inr ⟨Nat.lt_of_not_le hroom, rfl, rfl, rfl⟩⟩

theorem AllowedOps.rest {ops : List Op} {p : Nat} {m' : Memory} {a' : Arena}
    (hall : AllowedOps m a (op :: ops)) (hrun : op.run m a = .ok (p, m', a')) :
    AllowedOps m' a' ops := by
  have h := hall.2
  rwa [hrun] at h

theorem runOps_cons {ops : List Op} {p : Nat} {ss : List Span} {m₁ m' : Memory} {a₁ a' : Arena}
    (hrun : op.run m a = .ok (p, m₁, a₁)) (hruns : runOps m₁ a₁ ops = .ok (ss, m', a')) :
    runOps m a (op :: ops) = .ok (⟨p, op.bytes⟩ :: ss, m', a') := by
  unfold runOps
  rw [hrun, ok_bind]
  dsimp only
  rw [hruns]
  rfl

/-! ## What was given out -/

/-- The bytes that are left in the current block. -/
def free (a : Arena) : Span := ⟨a.allocPtr, a.allocBytesRemaining⟩

/-- No byte is in both. -/
def Apart (s t : Span) : Prop := Disjoint s.range t.range

theorem Apart.symm {s t : Span} (h : Apart s t) : Apart t s := Disjoint.symm h

theorem Apart.mono {s s' t : Span} (h : Apart s t) (hs : s'.range ⊆ s.range) : Apart s' t :=
  Set.disjoint_of_subset_left hs h

theorem range_eq_empty {s : Span} (h : s.bytes = 0) : s.range = ∅ := by
  unfold Span.range
  rw [h, Nat.add_zero, Set.Ico_self]

theorem Fresh.apart {b : Span} (h : Fresh m b) {x : Span} (hx : x ∈ m) : Apart x b := by
  unfold Apart Span.range
  rw [Set.Ico_disjoint_Ico]
  rcases (h.2 x hx).2 with h | h <;> omega

/-- The bytes are in one block. -/
def Within (own : List Span) (s : Span) : Prop := s.range = ∅ ∨ ∃ b ∈ own, s.range ⊆ b.range

theorem Within.mono {own : List Span} {s s' : Span} (h : Within own s) (hs : s'.range ⊆ s.range) :
    Within own s' := by
  rcases h with hempty | ⟨b, hb, hsub⟩
  · exact .inl (Set.subset_eq_empty hs hempty)
  · exact .inr ⟨b, hb, hs.trans hsub⟩

theorem Within.grow {own : List Span} {s : Span} (h : Within own s) (b : Span) :
    Within (own ++ [b]) s := by
  rcases h with hempty | ⟨c, hc, hsub⟩
  · exact .inl hempty
  · exact .inr ⟨c, List.mem_append_left _ hc, hsub⟩

/-- Of the blocks `own` of the arena, the oldest first, `given` was given out, the latest first. -/
structure Inv (m₀ m : Memory) (a : Arena) (own given : List Span) : Prop where
  memory : m = own.reverse ++ m₀
  blocks : a.blocks = own.map Span.ptr
  usage : a.memoryUsage = (own.map fun b => b.bytes + 8).sum % 2 ^ 64
  ptrs : own.Pairwise fun b c => b.ptr ≠ c.ptr
  foreign : ∀ b ∈ own, ∀ x ∈ m₀, x.ptr ≠ b.ptr ∧ Apart x b
  inside : ∀ s ∈ a.free :: given, Within own s
  apart : (a.free :: given).Pairwise Apart

theorem Inv.new (m₀ : Memory) : Inv m₀ m₀ Arena.new [] [] where
  memory := rfl
  blocks := rfl
  usage := rfl
  ptrs := List.Pairwise.nil
  foreign := by simp
  inside := by
    intro s hs
    obtain rfl := List.mem_singleton.1 hs
    exact .inl (range_eq_empty rfl)
  apart := List.pairwise_singleton _ _

variable {m₀ m' : Memory} {a' : Arena} {own given : List Span} {b : Span}

/-- The next bytes of the current block are given out. -/
theorem Inv.bump (I : Inv m₀ m a own given) {skip bytes : Nat}
    (hroom : bytes + skip ≤ a.allocBytesRemaining) :
    Inv m₀ m { a with
      allocPtr := a.allocPtr + (bytes + skip)
      allocBytesRemaining := a.allocBytesRemaining - (bytes + skip) } own
      (⟨a.allocPtr + skip, bytes⟩ :: given) := by
  obtain ⟨hfree, hgiven⟩ := List.pairwise_cons.1 I.apart
  have hs : Span.range ⟨a.allocPtr + skip, bytes⟩ ⊆ a.free.range :=
    Set.Ico_subset_Ico (Nat.le_add_right _ _) (by dsimp only [Arena.free]; omega)
  have hrest : Span.range ⟨a.allocPtr + (bytes + skip), a.allocBytesRemaining - (bytes + skip)⟩ ⊆
      a.free.range :=
    Set.Ico_subset_Ico (Nat.le_add_right _ _) (by dsimp only [Arena.free]; omega)
  have hinside := I.inside _ List.mem_cons_self
  refine ⟨I.memory, I.blocks, I.usage, I.ptrs, I.foreign, fun s hmem => ?_,
    List.pairwise_cons.2 ⟨fun s hmem => ?_, List.pairwise_cons.2 ⟨fun s hmem => ?_, hgiven⟩⟩⟩
  · rcases List.mem_cons.1 hmem with rfl | hmem
    · exact hinside.mono hrest
    · rcases List.mem_cons.1 hmem with rfl | hmem
      · exact hinside.mono hs
      · exact I.inside s (List.mem_cons_of_mem _ hmem)
  · rcases List.mem_cons.1 hmem with rfl | hmem
    · unfold Apart Span.range
      rw [Set.Ico_disjoint_Ico]
      dsimp only [Arena.free]
      omega
    · exact (hfree s hmem).mono hrest
  · exact (hfree s hmem).mono hs

/-- What is in the blocks of the arena is not in a new one. -/
theorem Inv.fresh_apart (I : Inv m₀ m a own given) (hb : Fresh m b) {s : Span}
    (hs : s ∈ a.free :: given) : Apart s b := by
  rcases I.inside s hs with hempty | ⟨c, hc, hsub⟩
  · unfold Apart
    rw [hempty]
    exact Set.empty_disjoint _
  · refine Apart.mono (hb.apart ?_) hsub
    rw [I.memory]
    exact List.mem_append_left _ (List.mem_reverse.2 hc)

/-- There is one more block, of which the first bytes are given out. -/
theorem Inv.grow (I : Inv m₀ m a own given) (hb : Fresh m b) {s : Span} (hs : s.range ⊆ b.range)
    (rest : Span) (hrest : rest = a.free ∨ rest.range ⊆ b.range ∧ Apart rest s) :
    Inv m₀ (b :: m) { grown a b with
      allocPtr := rest.ptr
      allocBytesRemaining := rest.bytes } (own ++ [b]) (s :: given) := by
  obtain ⟨hold, hgiven⟩ := List.pairwise_cons.1 I.apart
  have hmem : ∀ {c}, c ∈ own → c ∈ m := fun hc => by
    rw [I.memory]
    exact List.mem_append_left _ (List.mem_reverse.2 hc)
  have hblock : Within (own ++ [b]) s := .inr ⟨b, by simp, hs⟩
  have hsgiven : ∀ t ∈ given, Apart s t :=
    fun t ht => Apart.mono (I.fresh_apart hb (List.mem_cons_of_mem _ ht)).symm hs
  refine ⟨?_, ?_, ?_, ?_, ?_, fun t ht => ?_,
    List.pairwise_cons.2 ⟨fun t ht => ?_, List.pairwise_cons.2 ⟨hsgiven, hgiven⟩⟩⟩
  · rw [I.memory, List.reverse_append]
    rfl
  · rw [List.map_append, ← I.blocks]
    rfl
  · unfold grown
    rw [List.map_append, List.sum_append, Nat.add_assoc, I.usage]
    exact Nat.mod_add_mod ..
  · refine List.pairwise_append.2 ⟨I.ptrs, List.pairwise_singleton _ _, fun c hc d hd => ?_⟩
    obtain rfl := List.mem_singleton.1 hd
    exact (hb.2 c (hmem hc)).1
  · intro c hc x hx
    rcases List.mem_append.1 hc with hc | hc
    · exact I.foreign c hc x hx
    · obtain rfl := List.mem_singleton.1 hc
      have hxm : x ∈ m := by
        rw [I.memory]
        exact List.mem_append_right _ hx
      exact ⟨(hb.2 x hxm).1, hb.apart hxm⟩
  · rcases List.mem_cons.1 ht with rfl | ht
    · rcases hrest with rfl | ⟨hsub, -⟩
      · exact (I.inside _ List.mem_cons_self).grow b
      · exact .inr ⟨b, by simp, hsub⟩
    · rcases List.mem_cons.1 ht with rfl | ht
      · exact hblock
      · exact (I.inside t (List.mem_cons_of_mem _ ht)).grow b
  · rcases hrest with rfl | ⟨hsub, hapart⟩
    · rcases List.mem_cons.1 ht with rfl | ht
      · exact ((I.fresh_apart hb List.mem_cons_self).symm.mono hs).symm
      · exact hold t ht
    · rcases List.mem_cons.1 ht with rfl | ht
      · exact hapart
      · exact (I.fresh_apart hb (List.mem_cons_of_mem _ ht)).symm.mono hsub

theorem Inv.step (I : Inv m₀ m a own given) (hop : op.Allowed m a) : ∃ p m' a' own',
    op.run m a = .ok (p, m', a') ∧ (op.aligned = true → p % align = 0) ∧
      Inv m₀ m' a' own' (⟨p, op.bytes⟩ :: given) := by
  obtain ⟨p, m', a', hrun, haligned, ⟨hroom, rfl, rfl, rfl⟩ | ⟨hroom, rfl, rfl, rfl⟩⟩ :=
    run_cases hop
  · exact ⟨_, _, _, own, hrun, haligned, I.bump hroom⟩
  · have hb := hop.2.2 hroom
    refine ⟨_, _, _, own ++ [⟨op.fresh, blockBytes op.bytes⟩], hrun, haligned, ?_⟩
    have hfirst : Span.range ⟨op.fresh, op.bytes⟩ ⊆ Span.range ⟨op.fresh, blockBytes op.bytes⟩ := by
      refine Set.Ico_subset_Ico le_rfl ?_
      unfold blockBytes kBlockSize
      dsimp only
      split_ifs <;> omega
    by_cases hlarge : op.bytes > kBlockSize / 4
    · rw [if_pos hlarge]
      exact I.grow hb hfirst a.free (.inl rfl)
    · rw [if_neg hlarge]
      have hsize : blockBytes op.bytes = kBlockSize := if_neg hlarge
      refine I.grow hb hfirst ⟨op.fresh + op.bytes, kBlockSize - op.bytes⟩ (.inr ⟨?_, ?_⟩)
      · rw [hsize]
        unfold kBlockSize at hlarge ⊢
        exact Set.Ico_subset_Ico (Nat.le_add_right _ _) (by dsimp only; omega)
      · unfold Apart Span.range
        rw [Set.Ico_disjoint_Ico]
        dsimp only
        omega

theorem Inv.run : ∀ {ops : List Op} {m : Memory} {a : Arena} {own given : List Span},
    Inv m₀ m a own given → AllowedOps m a ops → ∃ ss m' a' own',
      runOps m a ops = .ok (ss, m', a') ∧
      List.Forall₂ Answers ops ss ∧
      Inv m₀ m' a' own' (ss.reverse ++ given)
  | [], m, a, own, _, I, _ => ⟨[], m, a, own, rfl, .nil, I⟩
  | op :: ops, m, a, own, given, I, hall => by
    obtain ⟨p, m₁, a₁, own₁, hrun, haligned, I₁⟩ := I.step hall.1
    obtain ⟨ss, m', a', own', hruns, hss, I'⟩ := I₁.run (hall.rest hrun)
    refine ⟨⟨p, op.bytes⟩ :: ss, m', a', own', runOps_cons hrun hruns,
      .cons ⟨rfl, haligned⟩ hss, ?_⟩
    rwa [List.reverse_cons, List.append_assoc]

/-- Every block is there to be deleted, and only the blocks of others are left. -/
theorem delete_blocks : ∀ {own : List Span}, own.Pairwise (fun b c => b.ptr ≠ c.ptr) →
    (∀ b ∈ own, ∀ x ∈ m₀, x.ptr ≠ b.ptr) →
    (own.map Span.ptr).foldlM delete (own.reverse ++ m₀) = .ok m₀
  | [], _, _ => rfl
  | b :: own, hptrs, hforeign => by
    obtain ⟨hb, hptrs⟩ := List.pairwise_cons.1 hptrs
    have hthere : ∃ c ∈ (b :: own).reverse ++ m₀, c.ptr = b.ptr := ⟨b, by simp, rfl⟩
    have herase : ((b :: own).reverse ++ m₀).eraseP (fun c => c.ptr = b.ptr) =
        own.reverse ++ m₀ := by
      rw [List.reverse_cons, List.append_assoc, List.eraseP_append_right _ fun c hc => ?_]
      · rw [List.singleton_append, List.eraseP_cons_of_pos (by simp)]
      · simpa using (hb c (List.mem_reverse.1 hc)).symm
    rw [List.map_cons, List.foldlM_cons]
    unfold delete
    rw [if_pos hthere, ok_bind, herase]
    exact delete_blocks hptrs fun c hc => hforeign c (List.mem_cons_of_mem _ hc)

end

section
variable {m₀ : Memory} {ops : List Op}

/-- A small block, a large one and one that is aligned, beside a block of others. -/
def threeBlocks : List Op := [⟨false, 5, 8192⟩, ⟨true, 2000, 16384⟩, ⟨true, 10, 0⟩]

def total (l : List Span) : Nat := (l.map Span.bytes).sum

/-- The bytes of the blocks against those that were given out and those that may have been skipped
for the alignment. -/
structure Balance (m₀ m : Memory) (a : Arena) (given slack : Nat) : Prop where
  room : total m₀ + given + a.allocBytesRemaining ≤ total m
  waste : 3 * total m ≤ 3 * total m₀ + 4 * (given + slack + a.allocBytesRemaining)
  rest : a.allocBytesRemaining ≤ kBlockSize

/-- A block is left for the next one when less than a quarter of it remains, but for what is skipped
for the alignment. -/
theorem Balance.step {m : Memory} {a : Arena} {op : Op} {given slack : Nat}
    (B : Balance m₀ m a given slack) (hop : op.Allowed m a) : ∃ p m' a',
    op.run m a = .ok (p, m', a') ∧ Balance m₀ m' a' (given + op.bytes) (slack + op.slack) := by
  obtain ⟨hroom, hwaste, hrest⟩ := B
  have hskip := skip_le a op
  obtain ⟨p, m', a', hrun, -, ⟨hfits, rfl, rfl, rfl⟩ | ⟨hfull, rfl, rfl, rfl⟩⟩ := run_cases hop
  · refine ⟨_, _, _, hrun, ?_, ?_, ?_⟩ <;> dsimp only <;> omega
  · have htotal : total (⟨op.fresh, blockBytes op.bytes⟩ :: m) =
        blockBytes op.bytes + total m := rfl
    refine ⟨_, _, _, hrun, ?_⟩
    by_cases hlarge : op.bytes > kBlockSize / 4
    · have hsize : blockBytes op.bytes = op.bytes := if_pos hlarge
      rw [if_pos hlarge, hsize]
      rw [hsize] at htotal
      refine ⟨?_, ?_, hrest⟩ <;> dsimp only [grown] <;> omega
    · have hsize : blockBytes op.bytes = kBlockSize := if_neg hlarge
      rw [if_neg hlarge, hsize]
      rw [hsize] at htotal
      have hk : kBlockSize = 4096 := rfl
      refine ⟨?_, ?_, ?_⟩ <;> dsimp only [grown] <;> omega

theorem Balance.run : ∀ {ops : List Op} {m : Memory} {a : Arena} {given slack : Nat},
    Balance m₀ m a given slack → AllowedOps m a ops → ∃ ss m' a',
      runOps m a ops = .ok (ss, m', a') ∧
      Balance m₀ m' a' (given + (ops.map Op.bytes).sum) (slack + (ops.map Op.slack).sum)
  | [], m, a, _, _, B, _ => ⟨[], m, a, rfl, B⟩
  | op :: ops, m, a, given, slack, B, hall => by
    obtain ⟨p, m₁, a₁, hrun, B₁⟩ := B.step hall.1
    obtain ⟨ss, m', a', hruns, B'⟩ := B₁.run (hall.rest hrun)
    refine ⟨⟨p, op.bytes⟩ :: ss, m', a', runOps_cons hrun hruns, ?_⟩
    rwa [List.map_cons, List.map_cons, List.sum_cons, List.sum_cons, ← Nat.add_assoc,
      ← Nat.add_assoc]

/-- **What the arena wastes**: the blocks have room for all that was given out, and besides the
current block they are at most a third larger than that, where seven bytes more are counted for each
aligned allocation. -/
theorem arena_waste (m₀ : Memory) (ops : List Op) (hall : AllowedOps m₀ Arena.new ops) :
    ∃ ss m a, runOps m₀ Arena.new ops = .ok (ss, m, a) ∧
      total m₀ + (ops.map Op.bytes).sum ≤ total m ∧
      3 * total m ≤ 3 * total m₀ +
        4 * ((ops.map Op.bytes).sum + (ops.map Op.slack).sum + kBlockSize) := by
  have hnew : Balance m₀ m₀ Arena.new 0 0 := ⟨le_rfl, by omega, Nat.zero_le _⟩
  obtain ⟨ss, m, a, hrun, hroom, hwaste, hrest⟩ := hnew.run hall
  exact ⟨ss, m, a, hrun, by omega, by omega⟩

theorem threeBlocks_waste : ∃ ss m a, runOps [⟨4096, 64⟩] Arena.new threeBlocks = .ok (ss, m, a) ∧
    total [⟨4096, 64⟩] + (threeBlocks.map Op.bytes).sum ≤ total m ∧
    3 * total m ≤ 3 * total [⟨4096, 64⟩] +
      4 * ((threeBlocks.map Op.bytes).sum + (threeBlocks.map Op.slack).sum + kBlockSize) :=
  arena_waste [⟨4096, 64⟩] threeBlocks (by decide)

end

end Arena

end Leveldb
