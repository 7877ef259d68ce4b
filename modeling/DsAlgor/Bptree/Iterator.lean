import DsAlgor.Bptree.Query
import DsAlgor.Bptree.Separators
import DsAlgor.Lib.Recency
import DsAlgor.Lib.Signed
import Mathlib.Tactic

/-!
# Iterators over the tree of jimDB

The iterators of `bptree.c` over a tree that does not change. The iterators that have been made and
not released have numbers in the order they were made in; `calloc` clears a new one. `none` is the
end of the program: a failed assertion, `bptreeFingerprint` of a tree without root, or a number of
iterators that is no `int`. In `bptreeFingerprint` signed numbers wrap around, and a shift to the
right keeps the sign.

`t->iterators` should be the number of safe iterators that have been advanced. The first
`bptreeNext` counts an iterator, unless the tree is empty; `bptreeReleaseIterator` always takes one
away, and it compares the fingerprint also of an iterator that has none. The account is right in
exactly those runs where this does no harm (`iterators_iff`).
-/

namespace Bptree

open Recency Signed

structure Iterator where
  n : Ptr
  index : Int
  safe : Bool
  fingerprint : BitVec 64

variable {K V : Type}

/-- The body of the loop of `bptreeFingerprint`, after the addition. -/
def mixHash (hash : BitVec 64) : BitVec 64 :=
  let hash := ~~~hash + hash <<< 21
  let hash := hash ^^^ hash.sshiftRight 24
  let hash := (hash + hash <<< 3) + hash <<< 8
  let hash := hash ^^^ hash.sshiftRight 14
  let hash := (hash + hash <<< 2) + hash <<< 4
  let hash := hash ^^^ hash.sshiftRight 28
  hash + hash <<< 31

def bptreeFingerprint (t : Tree K V) : Option (BitVec 64) :=
  if t.root = 0 then none
  else
    let integers := [BitVec.ofNat 64 t.innerOrder, BitVec.ofNat 64 t.leafOrder, t.count,
      BitVec.ofNat 64 t.root, BitVec.ofNat 64 (t.node t.root).level]
    some (integers.foldl (fun hash n => mixHash (hash + n)) 0)

def bptreeGetIterator (t : Tree K V) : Iterator := ⟨t.min, -1, false, 0⟩

def bptreeGetSafeIterator (t : Tree K V) : Iterator := { bptreeGetIterator t with safe := true }

/-- The first part of `bptreeNext`: the first call of an iterator. -/
def startIterator (t : Tree K V) (iterators : Int) (iter : Iterator) : Option (Int × Iterator) :=
  if iter.index = -1 then
    if iter.safe then do
      let iterators ← (add iterators 1).toOption
      return (iterators, { iter with index := 0 })
    else do
      let fingerprint ← bptreeFingerprint t
      return (iterators, { iter with fingerprint := fingerprint, index := 0 })
  else some (iterators, iter)

/-- The second part of `bptreeNext`: the entry, and the iterator behind it. -/
def moveIterator (t : Tree K V) (iter : Iterator) : Ptr × Iterator :=
  let iter :=
    if iter.index ≥ (t.node iter.n).count then
      let n := (t.node iter.n).next
      { iter with n := n, index := if n ≠ 0 then 0 else iter.index }
    else iter
  if iter.n ≠ 0 then ((t.node iter.n).entries iter.index.toNat,
    { iter with index := iter.index + 1 })
  else (0, iter)

/-- `bptreeNext`: the entry, `t->iterators` and the iterator. -/
def bptreeNext (t : Tree K V) (iterators : Int) (iter : Iterator) : Option (Ptr × Int × Iterator) :=
  if iter.n = 0 then some (0, iterators, iter)
  else do
    let (iterators, iter) ← startIterator t iterators iter
    let (e, iter) := moveIterator t iter
    return (e, iterators, iter)

/-- `bptreeReleaseIterator`: `t->iterators`. -/
def bptreeReleaseIterator (t : Tree K V) (iterators : Int) (iter : Iterator) : Option Int :=
  if iter.safe then (sub iterators 1).toOption
  else do
    let fingerprint ← bptreeFingerprint t
    if iter.fingerprint = fingerprint then some iterators else none

/-! ## Several iterators -/

/-- `t->iterators`, the iterators by their numbers, and the number of the next one. -/
structure Iterators where
  iterators : Int
  live : List (Nat × Iterator)
  made : Nat

inductive IterOp where
  | get (safe : Bool)
  | next (h : Nat)
  | release (h : Nat)

namespace IterOp

/-- Only the numbers of live iterators are passed on. -/
def run (t : Tree K V) (s : Iterators) : IterOp → Option Iterators
  | get safe =>
    let iter := if safe then bptreeGetSafeIterator t else bptreeGetIterator t
    some ⟨s.iterators, s.live ++ [(s.made, iter)], s.made + 1⟩
  | next h => do
    let iter ← s.live.lookup h
    let (_, iterators, iter) ← bptreeNext t s.iterators iter
    return ⟨iterators, s.live.map fun x => if x.1 = h then (h, iter) else x, s.made⟩
  | release h => do
    let iter ← s.live.lookup h
    let iterators ← bptreeReleaseIterator t s.iterators iter
    return ⟨iterators, s.live.filter (·.1 ≠ h), s.made⟩

/-- The iterators that have been advanced. -/
def advance (advanced : List Nat) : IterOp → List Nat
  | next h => h :: advanced
  | _ => advanced

end IterOp

/-! ## What is promised, and when it is kept -/

/-- The number of the safe iterators that have been advanced and not been released. -/
def safeAdvanced (advanced : List Nat) (live : List (Nat × Iterator)) : Nat :=
  live.countP fun x => x.2.safe && decide (x.1 ∈ advanced)

/-- The number is right all along, no assertion fails, and the tree is never read without a root. -/
def Accounts (t : Tree K V) : Iterators → List Nat → List IterOp → Prop
  | s, advanced, [] => s.iterators = safeAdvanced advanced s.live
  | s, advanced, op :: ops =>
    s.iterators = safeAdvanced advanced s.live ∧
      ∃ s', op.run t s = some s' ∧ Accounts t s' (op.advance advanced) ops

/-- The operations name iterators that are live; `live` are their numbers. -/
def Legal : List Nat → Nat → List IterOp → Prop
  | _, _, [] => True
  | live, made, .get _ :: ops => Legal (live ++ [made]) (made + 1) ops
  | live, made, .next h :: ops => h ∈ live ∧ Legal live made ops
  | live, made, .release h :: ops => h ∈ live ∧ Legal (live.filter (· ≠ h)) made ops

/-- The operation does no harm. A safe iterator is advanced only in a tree with a first leaf, the
first time only if an `int` still counts it, and advanced before it is released; another one reads
the fingerprint only of a tree with a root, and is advanced before it is released unless the
fingerprint is the one of a new iterator. -/
def IterOp.Harmless (t : Tree K V) (s : Iterators) (advanced : List Nat) : IterOp → Prop
  | get _ => True
  | next h => ∀ iter, s.live.lookup h = some iter →
      if iter.safe then t.min ≠ 0 ∧ (h ∉ advanced → safeAdvanced advanced s.live < intMax)
      else t.min ≠ 0 → h ∉ advanced → t.root ≠ 0
  | release h => ∀ iter, s.live.lookup h = some iter →
      if iter.safe then h ∈ advanced
      else t.root ≠ 0 ∧ ((t.min ≠ 0 ∧ h ∈ advanced) ∨ bptreeFingerprint t = some 0)

def AllHarmless (t : Tree K V) : Iterators → List Nat → List IterOp → Prop
  | _, _, [] => True
  | s, advanced, op :: ops =>
    op.Harmless t s advanced ∧ ∀ s', op.run t s = some s' →
      AllHarmless t s' (op.advance advanced) ops

/-! ## One iterator -/

/-- What an iterator holds before it has been advanced, and after. -/
def Iterator.Sound (t : Tree K V) (iter : Iterator) (advanced : Prop) : Prop :=
  (t.min ≠ 0 ∧ advanced → 0 ≤ iter.index ∧
    (iter.safe = false → bptreeFingerprint t = some iter.fingerprint)) ∧
    (¬(t.min ≠ 0 ∧ advanced) → iter.index = -1 ∧ iter.n = t.min ∧ iter.fingerprint = 0 ∧
    (advanced → iter.safe = false))

section
variable {t : Tree K V} {iter : Iterator} {iterators : Int} {adv : Prop}

theorem moveIterator_spec (h : 0 ≤ iter.index) : ∃ e iter', moveIterator t iter = (e, iter') ∧
    0 ≤ iter'.index ∧ iter'.safe = iter.safe ∧ iter'.fingerprint = iter.fingerprint := by
  unfold moveIterator
  dsimp only
  split_ifs
  all_goals exact ⟨_, _, rfl, by first | exact h | dsimp only; omega, rfl, rfl⟩

theorem bptreeNext_of_zero (hn : iter.n = 0) :
    bptreeNext t iterators iter = some (0, iterators, iter) := by
  unfold bptreeNext
  rw [if_pos hn]

/-- A call that gets past the first part. -/
theorem bptreeNext_of_start (hn : iter.n ≠ 0) {i : Int} {iter₁ : Iterator}
    (hstart : startIterator t iterators iter = some (i, iter₁)) (hindex : 0 ≤ iter₁.index) :
    ∃ e iter', bptreeNext t iterators iter = some (e, i, iter') ∧ 0 ≤ iter'.index ∧
      iter'.safe = iter₁.safe ∧ iter'.fingerprint = iter₁.fingerprint := by
  obtain ⟨e, iter', hmove, hspec⟩ := moveIterator_spec (t := t) hindex
  refine ⟨e, iter', ?_, hspec⟩
  unfold bptreeNext
  rw [if_neg hn, hstart]
  show some ((moveIterator t iter₁).1, i, (moveIterator t iter₁).2) = _
  rw [hmove]

/-- `bptreeNext` where it does no harm: a safe iterator is counted the first time. -/
theorem Iterator.Sound.next (h : iter.Sound t adv) (hpos : 0 ≤ iterators)
    (hok : if iter.safe then t.min ≠ 0 ∧ (¬adv → iterators < intMax)
      else t.min ≠ 0 → ¬adv → t.root ≠ 0) :
    ∃ e i iter', bptreeNext t iterators iter = some (e, i, iter') ∧ iter'.safe = iter.safe ∧
      iter'.Sound t True ∧ (adv → i = iterators) ∧
        (¬adv → i = iterators + if iter.safe then 1 else 0) ∧
        (iterators ≤ intMax → i ≤ intMax) := by
  by_cases hmin : t.min = 0
  · -- an empty tree: nothing happens, and the iterator is not safe
    have hsafe : iter.safe = false := by
      cases hs : iter.safe with
      | false => rfl
      | true =>
        rw [hs, if_pos rfl] at hok
        exact absurd hmin hok.1
    obtain ⟨hindex, hn, hfp, -⟩ := h.2 fun hadv => hadv.1 hmin
    refine ⟨0, iterators, iter, bptreeNext_of_zero (hn.trans hmin), rfl,
      ⟨fun hadv => absurd hmin hadv.1, fun _ =>
      ⟨hindex, hn, hfp, fun _ => hsafe⟩⟩, fun _ => rfl, fun _ => ?_, id⟩
    rw [hsafe, if_neg nofun, add_zero]
  · by_cases hadv : adv
    · obtain ⟨hindex, hfp⟩ := h.1 ⟨hmin, hadv⟩
      by_cases hn : iter.n = 0
      · exact ⟨0, iterators, iter, bptreeNext_of_zero hn, rfl,
          ⟨fun _ => ⟨hindex, hfp⟩, fun hno => absurd ⟨hmin, trivial⟩ hno⟩, fun _ => rfl, fun hno =>
          absurd hadv hno, id⟩
      · have hstart : startIterator t iterators iter = some (iterators, iter) := by
          unfold startIterator
          rw [if_neg (by omega)]
        obtain ⟨e, iter', hnext, hindex', hsafe', hfp'⟩ := bptreeNext_of_start hn hstart hindex
        refine ⟨e, iterators, iter', hnext, hsafe',
          ⟨fun _ => ⟨hindex', fun hs => ?_⟩, fun hno => absurd ⟨hmin, trivial⟩ hno⟩, fun _ => rfl,
          fun hno => absurd hadv hno, id⟩
        rw [hfp']
        exact hfp (hsafe' ▸ hs)
    · obtain ⟨hindex, hn, hfp, -⟩ := h.2 fun hno => hadv hno.2
      have hn' : iter.n ≠ 0 := by
        rw [hn]
        exact hmin
      cases hs : iter.safe with
      | true =>
        have hstart : startIterator t iterators iter = some (iterators + 1,
          { iter with index := 0 }) := by
          rw [hs, if_pos rfl] at hok
          unfold startIterator
          rw [if_pos hindex, if_pos hs, add_ok hpos Int.one_nonneg (hok.2 hadv)]
          rfl
        obtain ⟨e, iter', hnext, hindex', hsafe', -⟩ := bptreeNext_of_start hn' hstart le_rfl
        have hsafe : iter'.safe = true := hsafe'.trans hs
        refine ⟨e, _, iter', hnext, hsafe,
          ⟨fun _ => ⟨hindex', fun hf => ?_⟩, fun hno => absurd ⟨hmin, trivial⟩ hno⟩, fun hyes =>
          absurd hyes hadv, fun _ => ?_, fun _ => ?_⟩
        · rw [hsafe] at hf
          cases hf
        · rw [if_pos rfl]
        · rw [hs, if_pos rfl] at hok
          exact hok.2 hadv
      | false =>
        rw [hs, if_neg nofun] at hok
        obtain ⟨fp, hfpt⟩ : ∃ fp, bptreeFingerprint t = some fp := by
          unfold bptreeFingerprint
          rw [if_neg (hok hmin hadv)]
          exact ⟨_, rfl⟩
        have hstart : startIterator t iterators iter =
          some (iterators, { iter with fingerprint := fp, index := 0 }) := by
          unfold startIterator
          rw [if_pos hindex, if_neg (by rw [hs]; nofun), hfpt]
          rfl
        obtain ⟨e, iter', hnext, hindex', hsafe', hfp'⟩ := bptreeNext_of_start hn' hstart le_rfl
        refine ⟨e, _, iter', hnext, hsafe'.trans hs, ⟨fun _ => ⟨hindex', fun _ => ?_⟩, fun hno =>
          absurd ⟨hmin, trivial⟩ hno⟩, fun hyes => absurd hyes hadv, fun _ => ?_, id⟩
        · rw [hfpt, hfp']
        · rw [if_neg nofun, add_zero]

/-- `bptreeNext` elsewhere: the program ends, or a safe iterator of an empty tree is not counted. -/
theorem Iterator.Sound.next_harm (h : iter.Sound t adv)
    (hbad : ¬if iter.safe then t.min ≠ 0 ∧ (¬adv → iterators < intMax)
      else t.min ≠ 0 → ¬adv → t.root ≠ 0) :
    bptreeNext t iterators iter = none ∨
      (iter.safe = true ∧ ¬adv ∧ bptreeNext t iterators iter = some (0, iterators, iter)) := by
  cases hs : iter.safe with
  | true =>
    rw [hs, if_pos rfl] at hbad
    by_cases hmin : t.min = 0
    · obtain ⟨-, hn, -, hadv⟩ := h.2 fun hno => hno.1 hmin
      refine .inr ⟨rfl, fun hyes => ?_, bptreeNext_of_zero (hn.trans hmin)⟩
      rw [hadv hyes] at hs
      cases hs
    · -- the number is not an `int` any more
      obtain ⟨hadv, hmax⟩ := Classical.not_imp.1 (not_and.1 hbad hmin)
      obtain ⟨hindex, hn, -, -⟩ := h.2 fun hno => hadv hno.2
      refine .inl ?_
      unfold bptreeNext startIterator
      rw [if_neg (by rw [hn]; exact hmin), if_pos hindex, if_pos hs, add_overflow (by omega)]
      rfl
  | false =>
    rw [hs, if_neg nofun, Classical.not_imp, Classical.not_imp, not_not] at hbad
    obtain ⟨hmin, hadv, hroot⟩ := hbad
    obtain ⟨hindex, hn, -, -⟩ := h.2 fun hno => hadv hno.2
    refine .inl ?_
    unfold bptreeNext startIterator bptreeFingerprint
    rw [if_neg (by rw [hn]; exact hmin), if_pos hindex, if_neg (by rw [hs]; nofun), if_pos hroot]
    rfl

/-- `bptreeReleaseIterator` of an iterator that is not safe. -/
theorem Iterator.Sound.release (h : iter.Sound t adv) (hs : iter.safe = false) :
    (∃ i, bptreeReleaseIterator t iterators iter = some i) ↔
      t.root ≠ 0 ∧ ((t.min ≠ 0 ∧ adv) ∨ bptreeFingerprint t = some 0) := by
  unfold bptreeReleaseIterator
  rw [if_neg (by rw [hs]; nofun)]
  cases hfpt : bptreeFingerprint t with
  | none =>
    have hroot : t.root = 0 := by
      by_contra hroot
      unfold bptreeFingerprint at hfpt
      rw [if_neg hroot] at hfpt
      cases hfpt
    exact iff_of_false nofun fun hno => hno.1 hroot
  | some fp =>
    have hroot : t.root ≠ 0 := by
      intro hroot
      unfold bptreeFingerprint at hfpt
      rw [if_pos hroot] at hfpt
      cases hfpt
    have hif : (∃ i, (if iter.fingerprint = fp then some iterators else none) = some i) ↔
      iter.fingerprint = fp := by
      split_ifs with heq
      · exact iff_of_true ⟨_, rfl⟩ heq
      · exact iff_of_false nofun heq
    refine hif.trans ?_
    rw [and_iff_right hroot, Option.some.injEq]
    by_cases hadv : t.min ≠ 0 ∧ adv
    · have hfp := (h.1 hadv).2 hs
      rw [hfpt, Option.some.injEq] at hfp
      exact iff_of_true hfp.symm (.inl hadv)
    · rw [(h.2 hadv).2.2.1, or_iff_right hadv, eq_comm]

theorem release_of_not_safe (hs : iter.safe = false) {i : Int}
    (h : bptreeReleaseIterator t iterators iter = some i) :
    i = iterators := by
  unfold bptreeReleaseIterator at h
  rw [if_neg (by rw [hs]; nofun)] at h
  obtain ⟨fp, -, hif⟩ := Option.bind_eq_some_iff.1 h
  split_ifs at hif
  exact (Option.some.inj hif).symm

end

/-! ## All iterators -/

structure IterInv (t : Tree K V) (s : Iterators) (advanced : List Nat) : Prop where
  once : (keys s.live).Nodup
  made : ∀ h ∈ keys s.live, h < s.made
  known : ∀ h ∈ advanced, h < s.made
  count : s.iterators = safeAdvanced advanced s.live
  max : s.iterators ≤ intMax
  sound : ∀ x ∈ s.live, x.2.Sound t (x.1 ∈ advanced)

section
variable {t : Tree K V} {s s' : Iterators} {advanced : List Nat} {iter iter' : Iterator} {h : Nat}
  {A B : List (Nat × Iterator)}

/-- The count with one of the iterators singled out. -/
theorem safeAdvanced_middle : safeAdvanced advanced (A ++ (h, iter) :: B) =
    safeAdvanced advanced (A ++ B) + if iter.safe = true ∧ h ∈ advanced then 1 else 0 := by
  unfold safeAdvanced
  rw [List.countP_append, List.countP_cons, List.countP_append]
  simp only [Bool.and_eq_true, decide_eq_true_eq]
  omega

/-- To advance an iterator does not change the others. -/
theorem safeAdvanced_cons (hA : h ∉ keys A) :
    safeAdvanced (h :: advanced) A = safeAdvanced advanced A := by
  unfold safeAdvanced
  refine List.countP_congr fun x hx => ?_
  have hne : x.1 ≠ h := fun heq => hA (heq ▸ List.mem_map_of_mem hx)
  simp [hne]

theorem live_middle (hlive : h ∈ keys s.live) (honce : (keys s.live).Nodup) :
    ∃ A iter B, s.live = A ++ (h, iter) :: B ∧ s.live.lookup h = some iter ∧ h ∉ keys (A ++ B) := by
  obtain ⟨A, iter, B, heq⟩ := exists_middle hlive
  rw [heq] at honce
  obtain ⟨hA, hB, -⟩ := nodup_middle honce
  refine ⟨A, iter, B, heq, ?_, ?_⟩
  · rw [heq]
    exact lookup_middle hA
  · rw [keys_append, List.mem_append]
    exact fun hmem => hmem.elim hA hB

theorem replace_middle (hAB : h ∉ keys (A ++ B)) :
    (A ++ (h, iter) :: B).map (fun x => if x.1 = h then (h, iter') else x) = A ++
    (h, iter') :: B := by
  have hsame : ∀ X : List (Nat × Iterator), h ∉ keys X →
    X.map (fun x => if x.1 = h then (h, iter') else x) = X := by
    intro X hX
    conv_rhs => rw [← List.map_id X]
    refine List.map_congr_left fun x hx => ?_
    exact if_neg fun (heq : x.1 = h) => hX (heq ▸ List.mem_map_of_mem hx)
  rw [keys_append, List.mem_append, not_or] at hAB
  rw [List.map_append, List.map_cons, hsame A hAB.1, hsame B hAB.2, if_pos rfl]

variable (hinv : IterInv t s advanced)
include hinv

/-- A new iterator. -/
theorem IterInv.made_middle (hindex : iter.index = -1) (hn : iter.n = t.min)
    (hfp : iter.fingerprint = 0) :
    IterInv t ⟨s.iterators, s.live ++ [(s.made, iter)], s.made + 1⟩ advanced := by
  have hnot : s.made ∉ advanced := fun hmem => lt_irrefl _ (hinv.known _ hmem)
  have hkeys : keys (s.live ++ [(s.made, iter)]) = keys s.live ++ [s.made] := keys_append
  refine ⟨?_, fun h hmem => ?_, fun h hmem => Nat.lt_succ_of_lt (hinv.known h hmem), ?_,
    hinv.max, fun x hx => ?_⟩
  · rw [hkeys, List.nodup_append]
    refine ⟨hinv.once, List.nodup_singleton _, fun a ha b hb heq => ?_⟩
    rw [List.mem_singleton.1 hb] at heq
    exact absurd (hinv.made a ha) (by omega)
  · rw [hkeys, List.mem_append, List.mem_singleton] at hmem
    rcases hmem with hmem | rfl
    · exact Nat.lt_succ_of_lt (hinv.made h hmem)
    · exact Nat.lt_succ_self _
  · dsimp only
    rw [safeAdvanced_middle, if_neg (fun hno => hnot hno.2), List.append_nil]
    exact hinv.count
  · rcases List.mem_append.1 hx with hx | hx
    · exact hinv.sound x hx
    · rw [List.mem_singleton.1 hx]
      exact ⟨fun hno => absurd hno.2 hnot, fun _ => ⟨hindex, hn, hfp, fun hyes => absurd hyes hnot⟩⟩

/-- The iterators after one of them has been advanced. -/
theorem IterInv.advanced_middle (hlive : s.live = A ++ (h, iter) :: B) (hAB : h ∉ keys (A ++ B))
    (hsafe : iter'.safe = iter.safe) (hsound : iter'.Sound t True) {i : Int}
    (hyes : h ∈ advanced → i = s.iterators)
    (hno : h ∉ advanced → i = s.iterators + if iter.safe then 1 else 0) (hmax : i ≤ intMax) :
    IterInv t ⟨i, A ++ (h, iter') :: B, s.made⟩ (h :: advanced) := by
  have hkeys : keys (A ++ (h, iter') :: B) = keys s.live := by
    rw [hlive, keys_append, keys_append]
    rfl
  have hmem : h ∈ keys s.live := by
    rw [hlive, keys_append]
    exact List.mem_append_right _ List.mem_cons_self
  refine ⟨by rw [hkeys]; exact hinv.once, by rw [hkeys]; exact hinv.made,
    List.forall_mem_cons.2 ⟨hinv.made h hmem, hinv.known⟩, ?_, hmax, fun x hx => ?_⟩
  · have hcount := hinv.count
    rw [hlive, safeAdvanced_middle] at hcount
    dsimp only
    rw [safeAdvanced_middle, safeAdvanced_cons hAB, hsafe]
    by_cases hadv : h ∈ advanced
    · rw [hyes hadv, hcount]
      simp [hadv]
    · rw [hno hadv, hcount]
      simp [hadv]
  · rcases List.mem_cons.1 (List.perm_middle.subset hx) with rfl | hx
    · have htrue : (h ∈ h :: advanced) = True := eq_true List.mem_cons_self
      rw [htrue]
      exact hsound
    · have hne : x.1 ≠ h := fun heq => hAB (heq ▸ List.mem_map_of_mem hx)
      have hiff : x.1 ∈ h :: advanced ↔ x.1 ∈ advanced := by simp [hne]
      rw [hiff]
      refine hinv.sound x ?_
      rw [hlive]
      exact List.perm_middle.symm.subset (List.mem_cons_of_mem _ hx)

theorem IterInv.released_middle (hlive : s.live = A ++ (h, iter) :: B) {i : Int}
    (hi : i = safeAdvanced advanced (A ++ B)) : IterInv t ⟨i, A ++ B, s.made⟩ advanced := by
  have hsub : ∀ x ∈ A ++ B, x ∈ s.live := by
    intro x hx
    rw [hlive]
    exact List.perm_middle.symm.subset (List.mem_cons_of_mem _ hx)
  have honce := hinv.once
  rw [hlive] at honce
  refine ⟨(nodup_middle honce).2.2, fun k hk => ?_, hinv.known, hi, ?_, fun x hx =>
    hinv.sound x (hsub x hx)⟩
  · obtain ⟨v, hv⟩ := mem_keys.1 hk
    exact hinv.made k (mem_keys.2 ⟨v, hsub _ hv⟩)
  · have hcount := hinv.count
    have hmax := hinv.max
    rw [hlive, safeAdvanced_middle] at hcount
    dsimp only
    omega

/-- One legal operation. -/
theorem IterInv.step {op : IterOp} {ops : List IterOp}
    (hlegal : Legal (keys s.live) s.made (op :: ops)) (hok : op.Harmless t s advanced) :
    ∃ s', op.run t s = some s' ∧ IterInv t s' (op.advance advanced) ∧ Legal
      (keys s'.live) s'.made ops := by
  cases op with
  | get safe =>
    have hkeys : ∀ iter, keys (s.live ++ [(s.made, iter)]) = keys s.live ++ [s.made] :=
      fun iter => keys_append
    refine ⟨_, rfl, ?_, ?_⟩
    · cases safe with
      | true => exact hinv.made_middle rfl rfl rfl
      | false => exact hinv.made_middle rfl rfl rfl
    · dsimp only
      rw [hkeys]
      exact hlegal
  | next h =>
    obtain ⟨hmem, hrest⟩ := hlegal
    obtain ⟨A, iter, B, hlive, hlookup, hAB⟩ := live_middle hmem hinv.once
    have hsound : iter.Sound t (h ∈ advanced) := hinv.sound (h, iter) (by rw [hlive]; simp)
    have hpos : 0 ≤ s.iterators := hinv.count ▸ Int.natCast_nonneg _
    have hok' := hok iter hlookup
    rw [← hinv.count] at hok'
    obtain ⟨e, i, iter', hnext, hsafe, hsound', hyes, hno, hmax⟩ := hsound.next hpos hok'
    refine ⟨_, ?_, hinv.advanced_middle hlive hAB hsafe hsound' hyes hno (hmax hinv.max), ?_⟩
    · unfold IterOp.run
      dsimp only
      rw [hlookup]
      show (bptreeNext t s.iterators iter).bind _ = _
      rw [hnext, hlive]
      show some (Iterators.mk i _ s.made) = _
      rw [replace_middle hAB]
    · have hkeys : keys (A ++ (h, iter') :: B) = keys s.live := by
        rw [hlive, keys_append, keys_append]
        rfl
      dsimp only
      rw [hkeys]
      exact hrest
  | release h =>
    obtain ⟨hmem, hrest⟩ := hlegal
    obtain ⟨A, iter, B, hlive, hlookup, hAB⟩ := live_middle hmem hinv.once
    have hsound : iter.Sound t (h ∈ advanced) := hinv.sound (h, iter) (by rw [hlive]; simp)
    have honce := hinv.once
    rw [hlive] at honce
    have hkeys : (keys s.live).filter (· ≠ h) = keys (A ++ B) := by
      rw [← filter_middle honce, hlive]
      exact List.filter_map ..
    have hcount := hinv.count
    rw [hlive, safeAdvanced_middle] at hcount
    obtain ⟨i, hrelease, hi⟩ : ∃ i, bptreeReleaseIterator t s.iterators iter = some i ∧
      i = safeAdvanced advanced (A ++ B) := by
      have hok' := hok iter hlookup
      cases hs : iter.safe with
      | true =>
        rw [hs, if_pos rfl] at hok'
        have hmax := hinv.max
        refine ⟨s.iterators - 1, ?_, ?_⟩
        · unfold bptreeReleaseIterator
          rw [if_pos hs, sub_eq (by rw [intMax]; omega) (by omega)]
          rfl
        · rw [hcount, if_pos ⟨hs, hok'⟩]
          push_cast
          ring
      | false =>
        rw [hs, if_neg nofun] at hok'
        obtain ⟨i, hrelease⟩ := (hsound.release hs).2 hok'
        refine ⟨i, hrelease, ?_⟩
        rw [release_of_not_safe hs hrelease, hcount,
          if_neg (fun hno => by rw [hs] at hno; cases hno.1), Nat.add_zero]
    refine ⟨_, ?_, hinv.released_middle hlive hi, ?_⟩
    · unfold IterOp.run
      dsimp only
      rw [hlookup]
      show (bptreeReleaseIterator t s.iterators iter).bind _ = _
      rw [hrelease, hlive]
      show some (Iterators.mk i _ s.made) = _
      rw [filter_middle honce]
    · dsimp only
      rw [← hkeys]
      exact hrest

/-- An operation that does harm: the program ends, or the number is wrong afterwards. -/
theorem IterInv.step_harm {op : IterOp} {ops : List IterOp}
    (hlegal : Legal (keys s.live) s.made (op :: ops)) (hbad : ¬op.Harmless t s advanced)
    (hrun : op.run t s = some s') : s'.iterators ≠ safeAdvanced (op.advance advanced) s'.live := by
  cases op with
  | get safe => exact absurd trivial hbad
  | next h =>
    obtain ⟨A, iter, B, hlive, hlookup, hAB⟩ := live_middle hlegal.1 hinv.once
    have hsound : iter.Sound t (h ∈ advanced) := hinv.sound (h, iter) (by rw [hlive]; simp)
    have hbad' : ¬if iter.safe then t.min ≠ 0 ∧ (h ∉ advanced → s.iterators < intMax)
        else t.min ≠ 0 → h ∉ advanced → t.root ≠ 0 := by
      intro hok
      rw [hinv.count] at hok
      refine hbad fun iter' hlookup' => ?_
      rw [hlookup] at hlookup'
      cases hlookup'
      exact hok
    unfold IterOp.run at hrun
    dsimp only at hrun
    rw [hlookup] at hrun
    rcases hsound.next_harm hbad' with hnone | ⟨hsafe, hadv, hsame⟩
    · change (bptreeNext t s.iterators iter).bind _ = _ at hrun
      rw [hnone] at hrun
      cases hrun
    · change (bptreeNext t s.iterators iter).bind _ = _ at hrun
      rw [hsame, hlive] at hrun
      change some (Iterators.mk s.iterators _ s.made) = _ at hrun
      rw [replace_middle hAB] at hrun
      cases hrun
      have hcount := hinv.count
      rw [hlive, safeAdvanced_middle, if_neg (fun hyes => hadv hyes.2)] at hcount
      show s.iterators ≠ safeAdvanced (h :: advanced) (A ++ (h, iter) :: B)
      rw [safeAdvanced_middle, safeAdvanced_cons hAB, if_pos ⟨hsafe, List.mem_cons_self⟩]
      omega
  | release h =>
    obtain ⟨A, iter, B, hlive, hlookup, hAB⟩ := live_middle hlegal.1 hinv.once
    have hsound : iter.Sound t (h ∈ advanced) := hinv.sound (h, iter) (by rw [hlive]; simp)
    have honce := hinv.once
    rw [hlive] at honce
    have hcount := hinv.count
    rw [hlive, safeAdvanced_middle] at hcount
    have hbad' : ¬if iter.safe then h ∈ advanced else
        t.root ≠ 0 ∧ ((t.min ≠ 0 ∧ h ∈ advanced) ∨ bptreeFingerprint t = some 0) := by
      intro hok
      refine hbad fun iter' hlookup' => ?_
      rw [hlookup] at hlookup'
      cases hlookup'
      exact hok
    unfold IterOp.run at hrun
    dsimp only at hrun
    rw [hlookup] at hrun
    change (bptreeReleaseIterator t s.iterators iter).bind _ = _ at hrun
    cases hs : iter.safe with
    | true =>
      rw [hs, if_pos rfl] at hbad'
      have hrelease : bptreeReleaseIterator t s.iterators iter = some (s.iterators - 1) := by
        have hmax := hinv.max
        have hcount' := hinv.count
        unfold bptreeReleaseIterator
        rw [if_pos hs, sub_eq (by rw [intMax]; omega) (by omega)]
        rfl
      rw [hrelease, hlive] at hrun
      change some (Iterators.mk (s.iterators - 1) _ s.made) = _ at hrun
      rw [filter_middle honce] at hrun
      cases hrun
      rw [if_neg (fun hyes => hbad' hyes.2)] at hcount
      show s.iterators - 1 ≠ safeAdvanced advanced (A ++ B)
      omega
    | false =>
      rw [hs, if_neg nofun] at hbad'
      cases hrelease : bptreeReleaseIterator t s.iterators iter with
      | none =>
        rw [hrelease] at hrun
        cases hrun
      | some i => exact absurd ((hsound.release hs).1 ⟨i, hrelease⟩) hbad'

theorem IterInv.run_iff {ops : List IterOp} (hlegal : Legal (keys s.live) s.made ops) :
    Accounts t s advanced ops ↔ AllHarmless t s advanced ops := by
  induction ops generalizing s advanced with
  | nil => exact iff_of_true hinv.count trivial
  | cons op ops ih =>
    constructor
    · rintro ⟨-, s', hrun, haccounts⟩
      have hcount : s'.iterators = safeAdvanced (op.advance advanced) s'.live := by
        cases ops with
        | nil => exact haccounts
        | cons => exact haccounts.1
      have hok : op.Harmless t s advanced := by
        by_contra hbad
        exact hinv.step_harm hlegal hbad hrun hcount
      obtain ⟨s₁, hrun₁, hinv', hlegal'⟩ := hinv.step hlegal hok
      rw [hrun] at hrun₁
      cases hrun₁
      refine ⟨hok, fun s₂ hrun₂ => ?_⟩
      rw [hrun] at hrun₂
      cases hrun₂
      exact (ih hinv' hlegal').1 haccounts
    · rintro ⟨hok, hall⟩
      obtain ⟨s', hrun, hinv', hlegal'⟩ := hinv.step hlegal hok
      exact ⟨hinv.count, s', hrun, (ih hinv' hlegal').2 (hall s' hrun)⟩

end

/-- No iterator has been made. -/
def Iterators.none : Iterators := ⟨0, [], 0⟩

theorem iterInv_none (t : Tree K V) : IterInv t .none [] :=
  ⟨List.nodup_nil, nofun, nofun, rfl, by decide, nofun⟩

/-- **The account of the iterators**: for every tree and every interleaving of calls on live
iterators, the number is right all along and no fingerprint differs exactly when each call does no
harm. -/
theorem iterators_iff (t : Tree K V) {ops : List IterOp} (hlegal : Legal [] 0 ops) :
    Accounts t .none [] ops ↔ AllHarmless t .none [] ops :=
  (iterInv_none t).run_iff hlegal

/-- Only iterators that have been advanced are released. -/
def ReleasesAdvanced : List Nat → List IterOp → Prop
  | _, [] => True
  | advanced, op :: ops =>
    (∀ h, op = .release h → h ∈ advanced) ∧ ReleasesAdvanced (op.advance advanced) ops

theorem IterOp.length_live {t : Tree K V} {s s' : Iterators} {op : IterOp}
    (hrun : op.run t s = some s') : s'.live.length ≤ s.live.length + 1 := by
  cases op with
  | get safe =>
    cases hrun
    simp
  | next h =>
    obtain ⟨iter, -, hrun⟩ := Option.bind_eq_some_iff.1 hrun
    obtain ⟨⟨e, i, iter'⟩, -, hrun⟩ := Option.bind_eq_some_iff.1 hrun
    cases hrun
    simp
  | release h =>
    obtain ⟨iter, -, hrun⟩ := Option.bind_eq_some_iff.1 hrun
    obtain ⟨i, -, hrun⟩ := Option.bind_eq_some_iff.1 hrun
    cases hrun
    exact (List.length_filter_le _ _).trans (Nat.le_succ _)

/-- In a tree with entries it is enough that what is released has been advanced. -/
theorem allHarmless_of_advanced {t : Tree K V} (hmin : t.min ≠ 0) (hroot : t.root ≠ 0)
    {ops : List IterOp} {s : Iterators} {advanced : List Nat} (h : ReleasesAdvanced advanced ops)
    (hmax : s.live.length + ops.length ≤ intMax) : AllHarmless t s advanced ops := by
  induction ops generalizing s advanced with
  | nil => exact trivial
  | cons op ops ih =>
    rw [List.length_cons] at hmax
    refine ⟨?_, fun s' hrun => ih h.2 ?_⟩
    · cases op with
      | get safe => exact trivial
      | next k =>
        intro iter _
        split
        · refine ⟨hmin, fun _ => ?_⟩
          have hle : safeAdvanced advanced s.live ≤ s.live.length := List.countP_le_length
          omega
        · exact fun _ _ => hroot
      | release k =>
        intro iter _
        split
        · exact h.1 k rfl
        · exact ⟨hroot, .inl ⟨hmin, h.1 k rfl⟩⟩
    · have hlive := IterOp.length_live hrun
      omega

theorem Stands.pointers {α : Type} [LinearOrder α] {rank : K → α} {t : Tree K V} {es : List Ptr}
    (h : Stands rank t es) (hne : es ≠ []) : t.min ≠ 0 ∧ t.root ≠ 0 := by
  constructor
  · obtain ⟨ls, hls, rfl⟩ := h.leaves
    cases ls with
    | nil => exact absurd rfl hne
    | cons x ls =>
      rw [hls.toLinked.cons.1]
      exact hls.pos x List.mem_cons_self
  · cases h with
    | empty => exact absurd rfl hne
    | tree h =>
      rw [h.root]
      exact (h.bound _ (PtrTree.ptr_mem_ptrs _)).1.ne'

/-- Three iterators over a thousand numbers; the second one is not safe. -/
def threeIterators : List IterOp :=
  [.get true, .get false, .next 0, .next 1, .next 0, .get true, .release 1, .next 2, .release 0,
    .next 2, .release 2]

theorem iterators_thousand : ∃ t : Tree Nat Nat,
    Stands id t ((List.range 1000).map Nat.succ) ∧ Accounts t .none [] threeIterators := by
  obtain ⟨t, hstands, -⟩ := numbers_stand (show 0 < 1000 by norm_num) (by norm_num)
  obtain ⟨hmin, hroot⟩ := hstands.pointers (by simp)
  have hlegal : Legal [] 0 threeIterators := by simp [Legal, threeIterators]
  have hadvanced : ReleasesAdvanced [] threeIterators := by
    simp [ReleasesAdvanced, threeIterators, IterOp.advance]
  exact ⟨t, hstands, (iterators_iff t hlegal).2
    (allHarmless_of_advanced hmin hroot hadvanced (by decide))⟩

/-- A new tree, in memory that holds zeros. -/
def emptyTree : Tree Nat Nat :=
  bptreeCreate ⟨0, 0, 0, 0, 0, fun _ => ⟨fun _ => 0, fun _ => 0, fun _ => 0, 0, 0, 0, false⟩,
    fun _ => ⟨0, 0⟩, ⟨fun _ => 0, fun _ => 0⟩, 1⟩

/-- A safe iterator is released before it has been advanced: the number is `-1`. -/
theorem release_unused_safe : ¬Accounts emptyTree .none [] [.get true, .release 0] := by
  intro h
  have hall := ((iterInv_none emptyTree).run_iff
    (show Legal [] 0 [.get true, .release 0] from ⟨by decide, trivial⟩)).1 h
  exact absurd ((hall.2 _ rfl).1 _ rfl) nofun

end Bptree
