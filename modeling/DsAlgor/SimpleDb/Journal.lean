import DsAlgor.Lib.Undo
import DsAlgor.SimpleDb.Text

/-!
# The stack as a journal, and the counts

`Inv db J`: the undo stack of the database is the text of the journal `J`, every record of `J`
undoes the last change of its key, and every count is the number of keys with that value, in 32
bits. Every command keeps the invariant and throws nothing (`Inv.exec`), and does to the cache and
the journal what `Command.onJournal` says. From it: a count of a reachable state is right exactly
when fewer than `2 ^ 31` keys have the value (`count_eq_ncard_iff`).
-/

namespace SimpleDb

open Undo (Record)

abbrev Journal := Undo.Journal Text Value

def entryText : Option (Record Text Value) → Text
  | none => mark
  | some r => operations r.key r.orig r.new

/-- The counts are those of the cache, in 32 bits. -/
structure Counted (db : SimpleDB) : Prop where
  finite : {k | db.cache k ≠ none}.Finite
  count : ∀ v, doCount db v = int32 {k | db.cache k = some v}.ncard

theorem Counted.int32_doCount {db : SimpleDB} (h : Counted db) (v : Value) :
    int32 (doCount db v) = doCount db v := by
  rw [h.count, int32_int32]

structure Inv (db : SimpleDB) (J : Journal) : Prop where
  counted : Counted db
  stack : db.tranStack = J.map entryText
  keys : ∀ r, some r ∈ J → ' ' ∉ r.key
  flag : db.isTransactionStart = false → J = []
  consistent : Undo.Consistent db.cache J
  index : ∀ k v, db.cache k = some v → db.countMap v ≠ none
  indexed : ∀ r, some r ∈ J → ∀ v, r.orig = some v ∨ r.new = some v → db.countMap v ≠ none

/-! ## A change of one key -/

/-- A key gets the value `x`, and the counts follow. -/
structure Changed (db : SimpleDB) (key : Text) (x : Option Value) (db' : SimpleDB) : Prop where
  cache : db'.cache = Function.update db.cache key x
  count : ∀ v, doCount db' v = int32
    (doCount db v - (if db.cache key = some v then 1 else 0) + if x = some v then 1 else 0)
  keep : ∀ v, db.countMap v ≠ none → db'.countMap v ≠ none
  new : ∀ v, x = some v → db'.countMap v ≠ none
  flag : db'.isTransactionStart = db.isTransactionStart

section
variable {db db' : SimpleDB} {key : Text} {x : Option Value} {J : Journal}

theorem Changed.counted (h : Changed db key x db') (hc : Counted db) : Counted db' := by
  refine ⟨?_, fun v => ?_⟩
  · rw [h.cache]
    exact Undo.finite_update hc.finite key x
  · rw [h.count, hc.count, h.cache, Undo.ncard_update hc.finite, sub_add, int32_sub, ← sub_add]

theorem Changed.index (h : Changed db key x db')
    (hi : ∀ k v, db.cache k = some v → db.countMap v ≠ none) :
    ∀ k v, db'.cache k = some v → db'.countMap v ≠ none := by
  intro k v hk
  rw [h.cache] at hk
  by_cases hkey : k = key
  · rw [hkey, Function.update_self] at hk
    exact h.new v hk
  · rw [Function.update_of_ne hkey] at hk
    exact h.keep v (hi k v hk)

theorem addCount_spec {val : Value} {d : Int} (h : db.countMap val ≠ none)
    (hfit : ∀ v, int32 (doCount db v) = doCount db v) :
    ∃ db', addCount db val d = .ok db' ∧ db'.cache = db.cache ∧ db'.tranStack = db.tranStack ∧
      db'.isTransactionStart = db.isTransactionStart ∧
      (∀ v, doCount db' v = int32 (doCount db v + if v = val then d else 0)) ∧
      ∀ v, db.countMap v ≠ none → db'.countMap v ≠ none := by
  unfold addCount
  cases hn : db.countMap val with
  | none => exact absurd hn h
  | some n =>
    refine ⟨_, rfl, rfl, rfl, rfl, fun v => ?_, fun v hv => ?_⟩
    · by_cases hvv : v = val
      · subst hvv
        simp [doCount, hn]
      · rw [if_neg hvv, Int.add_zero, hfit]
        simp [doCount, hvv]
    · by_cases hvv : v = val
      · subst hvv
        simp
      · simpa [hvv] using hv

section
variable (hfit : ∀ v, int32 (doCount db v) = doCount db v)
include hfit

/-- **`doSet`** -/
theorem doSet_changed {val : Value} (hi : ∀ v, db.cache key = some v → db.countMap v ≠ none) :
    Changed db key (some val) (doSet db key val) := by
  refine ⟨rfl, fun v => ?_, fun v hv => ?_, ?_, rfl⟩
  · have hfit : int32 ((db.countMap v).getD 0) = (db.countMap v).getD 0 := hfit v
    unfold doSet doCount
    cases ho : db.cache key with
    | none =>
      by_cases hv : v = val
      · subst hv
        simp
      · simp [hv, Ne.symm hv, hfit]
    | some o =>
      cases hn : db.countMap o with
      | none => exact absurd hn (hi o ho)
      | some n =>
        by_cases hv : v = val
        · subst hv
          by_cases hvo : v = o
          · subst hvo
            simp [hn, int32_add]
          · simp [hn, hvo, Ne.symm hvo]
        · by_cases hvo : v = o
          · subst hvo
            simp [hn, hv, Ne.symm hv]
          · simp [hn, hv, Ne.symm hv, hvo, Ne.symm hvo, hfit]
  · unfold doSet
    by_cases hvv : v = val
    · subst hvv
      simp
    · cases ho : db.cache key with
      | none => simpa [hvv] using hv
      | some o =>
        cases hn : db.countMap o with
        | none => exact absurd hn (hi o ho)
        | some n =>
          by_cases hvo : v = o
          · subst hvo
            simp [hvv, hn]
          · simpa [hvv, hn, hvo] using hv
  · intro v hv
    cases hv
    simp [doSet]

/-- **`doDelete`** of a key that is there. -/
theorem doDelete_changed {v : Value} (hk : db.cache key = some v) (hi : db.countMap v ≠ none) :
    ∃ db', doDelete db key = .ok db' ∧ Changed db key none db' ∧
      db'.tranStack = if db.isTransactionStart then operations key (some v) none :: db.tranStack
        else db.tranStack := by
  unfold doDelete
  rw [hk]
  obtain ⟨db', hrun, hcache, hstack, hflag, hcount, hkeep⟩ := @addCount_spec
    (if db.isTransactionStart then
    { db with tranStack := operations key (some v) none :: db.tranStack } else db)
    v (-1) (by split <;> exact hi) (by split <;> exact hfit)
  have hsame : ∀ {α : Type} (f : SimpleDB → α), (∀ s, f { db with tranStack := s } = f db) →
      f (if db.isTransactionStart then
      { db with tranStack := operations key (some v) none :: db.tranStack } else db) = f db := by
    intro α f hf
    split
    · exact hf _
    · rfl
  refine ⟨{ db' with cache := Function.update db'.cache key none }, ?_,
    ⟨?_, fun u => ?_, fun u hu => ?_, ?_, ?_⟩, ?_⟩
  · simp only [hrun, bind, Except.bind]
    rfl
  · show Function.update db'.cache key none = _
    rw [hcache, hsame SimpleDB.cache fun _ => rfl]
  · have := hcount u
    rw [hsame (doCount · u) fun _ => rfl] at this
    show doCount db' u = _
    rw [this, hk]
    by_cases hu : u = v
    · simp [hu, Int.sub_eq_add_neg]
    · simp [hu, Ne.symm hu]
  · refine hkeep u ?_
    rw [hsame SimpleDB.countMap fun _ => rfl]
    exact hu
  · exact fun u hu => nomatch hu
  · show db'.isTransactionStart = _
    rw [hflag, hsame SimpleDB.isTransactionStart fun _ => rfl]
  · show db'.tranStack = _
    rw [hstack]
    split <;> rfl

/-- **One round of the rollback.** -/
theorem undo_changed {r : Record Text Value} (hr : ' ' ∉ r.key) (hnew : db.cache r.key = r.new)
    (hi : ∀ v, r.orig = some v ∨ r.new = some v → db.countMap v ≠ none) :
    ∃ db', undo db (entryText (some r)) = .ok db' ∧ Changed db r.key r.orig db' := by
  have hrestore : ∃ db₁, restore db r.key r.orig = .ok db₁ ∧
    db₁.cache = Function.update db.cache r.key r.orig ∧
    db₁.isTransactionStart = db.isTransactionStart ∧
    (∀ v, doCount db₁ v = int32 (doCount db v + if r.orig = some v then 1 else 0)) ∧
      ∀ v, db.countMap v ≠ none → db₁.countMap v ≠ none := by
    cases ho : r.orig with
    | none =>
      refine ⟨_, rfl, rfl, rfl, fun v => ?_, fun v hv => hv⟩
      rw [if_neg (Option.some_ne_none v).symm, Int.add_zero, hfit]
      rfl
    | some o =>
      obtain ⟨db₁, hrun, hcache, -, hflag, hcount, hkeep⟩ := @addCount_spec
        { db with cache := Function.update db.cache r.key (some o) } o 1 (hi o (.inl ho)) hfit
      refine ⟨db₁, hrun, hcache, hflag, fun v => (hcount v).trans ?_, hkeep⟩
      show int32 (doCount db v + _) = _
      simp only [Option.some.injEq, eq_comm]
  obtain ⟨db₁, hrun₁, hcache₁, hflag₁, hcount₁, hkeep₁⟩ := hrestore
  have hfit₁ : ∀ v, int32 (doCount db₁ v) = doCount db₁ v := fun v => by
    rw [hcount₁, int32_int32]
  have hforget : ∃ db', forget db₁ r.new = .ok db' ∧ db'.cache = db₁.cache ∧
      db'.isTransactionStart = db₁.isTransactionStart ∧
      (∀ v, doCount db' v = int32 (doCount db₁ v - if r.new = some v then 1 else 0)) ∧
      ∀ v, db₁.countMap v ≠ none → db'.countMap v ≠ none := by
    cases hn : r.new with
    | none => exact ⟨_, rfl, rfl, rfl, fun v => by simp [hfit₁], fun v hv => hv⟩
    | some n =>
      obtain ⟨db', hrun, hcache, -, hflag, hcount, hkeep⟩ := @addCount_spec db₁ n (-1)
        (hkeep₁ n (hi n (.inr hn))) hfit₁
      refine ⟨db', hrun, hcache, hflag, fun v => (hcount v).trans ?_, hkeep⟩
      by_cases hv : v = n
      · simp [hv, Int.sub_eq_add_neg]
      · simp [hv, Ne.symm hv]
  obtain ⟨db', hrun, hcache, hflag, hcount, hkeep⟩ := hforget
  refine ⟨db', ?_, ⟨hcache.trans hcache₁, fun v => ?_, fun v hv => hkeep v (hkeep₁ v hv),
    fun v hv => ?_, hflag.trans hflag₁⟩⟩
  · rw [entryText, undo_operations db ⟨r.key, hr⟩, hrun₁]
    exact hrun
  · rw [hcount, hcount₁, hnew, int32_sub]
    congr 1
    omega
  · exact hkeep v (hkeep₁ v (hi v (.inl hv)))

/-! ## Rollback -/

end

theorem undoLoop_spec : ∀ (J : Journal) (db : SimpleDB), Counted db →
    (∀ r, some r ∈ J → ' ' ∉ r.key) → Undo.Consistent db.cache J →
    (∀ k v, db.cache k = some v → db.countMap v ≠ none) →
    (∀ r, some r ∈ J → ∀ v, r.orig = some v ∨ r.new = some v → db.countMap v ≠ none) →
    ∃ db', undoLoop db (J.map entryText) = .ok db' ∧ Counted db' ∧
      db'.cache = (Undo.rollback db.cache J).1 ∧
      db'.tranStack.tail = (Undo.rollback db.cache J).2.map entryText ∧
      db'.isTransactionStart = db.isTransactionStart ∧
      (∀ k v, db'.cache k = some v → db'.countMap v ≠ none) ∧
      ∀ v, db.countMap v ≠ none → db'.countMap v ≠ none
  | [], db, hc, _, _, hi, _ => ⟨_, rfl, ⟨hc.finite, hc.count⟩, rfl, rfl, rfl, hi, fun _ hv => hv⟩
  | none :: J, db, hc, _, _, hi, _ => by
    refine ⟨{ db with tranStack := mark :: J.map entryText }, ?_, ⟨hc.finite, hc.count⟩, rfl,
      rfl, rfl, hi, fun _ hv => hv⟩
    rw [List.map_cons, undoLoop]
    exact if_pos rfl
  | some r :: J, db, hc, hk, hcons, hi, hx => by
    obtain ⟨db₁, hrun, hch⟩ := undo_changed hc.int32_doCount (hk r (by simp)) hcons.1
      (hx r (by simp))
    have hcons₁ : Undo.Consistent db₁.cache J := by
      rw [hch.cache]
      exact hcons.2
    obtain ⟨db', hrun', hc', hcache, hstack, hflag, hi', hkeep⟩ :=
      undoLoop_spec J db₁ (hch.counted hc) (fun r hr => hk r (List.mem_cons_of_mem _ hr)) hcons₁
        (hch.index hi)
      fun r hr v hv => hch.keep v (hx r (List.mem_cons_of_mem _ hr) v hv)
    rw [hch.cache] at hcache hstack
    refine ⟨db', ?_, hc', hcache, hstack, hflag.trans hch.flag, hi', fun v hv =>
      hkeep v (hch.keep v hv)⟩
    rw [List.map_cons, undoLoop,
      if_neg (show entryText (some r) ≠ mark from operations_ne_mark _ _ _), hrun]
    exact hrun'

/-- **`doRollback`** goes back to the last mark. -/
theorem Inv.doRollback (h : Inv db J) : ∃ db', SimpleDb.doRollback db = .ok (decide (J ≠ []), db') ∧
    Inv db' (Undo.rollback db.cache J).2 ∧ db'.cache = (Undo.rollback db.cache J).1 ∧
    db'.isTransactionStart = db.isTransactionStart := by
  unfold SimpleDb.doRollback
  cases J with
  | nil =>
    refine ⟨db, ?_, h, rfl, rfl⟩
    rw [h.stack]
    rfl
  | cons e J =>
    obtain ⟨db', hrun, hc, hcache, hstack, hflag, hi, hkeep⟩ :=
      undoLoop_spec (e :: J) db h.counted h.keys h.consistent h.index h.indexed
    have hsub : ∀ {e'}, e' ∈ (Undo.rollback db.cache (e :: J)).2 → e' ∈ e :: J :=
      Undo.mem_of_mem_rollback
    refine ⟨{ db' with tranStack := db'.tranStack.tail }, ?_,
      ⟨⟨hc.finite, hc.count⟩, hstack, fun r hr => h.keys r (hsub hr), fun hf => ?_, ?_, hi,
        fun r hr v hv => hkeep v (h.indexed r (hsub hr) v hv)⟩, hcache, hflag⟩
    · rw [← h.stack] at hrun
      rw [if_neg (by rw [h.stack]; simp), hrun]
      rfl
    · exact absurd (h.flag (hflag ▸ hf)) (by simp)
    · show Undo.Consistent db'.cache _
      rw [hcache]
      exact h.consistent.rollback

/-! ## Commands -/

/-- What a command does to the cache and the journal. -/
def Command.onJournal (c : Command) (m : Text → Option Value) (J : Journal) (begun : Bool) :
    (Text → Option Value) × Journal :=
  match c with
  | .set key val =>
    (Function.update m key.text (some val),
      if begun then some ⟨key.text, m key.text, some val⟩ :: J else J)
  | .delete key =>
    match m key.text with
    | some v => (Function.update m key.text none,
        if begun then some ⟨key.text, some v, none⟩ :: J else J)
    | none => (m, J)
  | .begin => (m, none :: J)
  | .rollback => Undo.rollback m J
  | .commit => (m, [])
  | .get _ => (m, J)
  | .count _ => (m, J)

def Command.begun : Command → Bool → Bool
  | .begin, _ => true
  | .commit, _ => false
  | _, b => b

/-- A change with its record, if there is one. -/
theorem Inv.change (h : Inv db J) (hk : ' ' ∉ key) (hch : Changed db key x db')
    (hstack : db'.tranStack = if db.isTransactionStart then operations key (db.cache key)
    x :: db.tranStack else db.tranStack) :
    Inv db' (if db.isTransactionStart then some ⟨key, db.cache key, x⟩ :: J else J) := by
  have hcons : Undo.Consistent db'.cache
      (if db.isTransactionStart then some ⟨key, db.cache key, x⟩ :: J else J) := by
    rw [hch.cache]
    cases hf : db.isTransactionStart with
    | true => exact h.consistent.record key x
    | false =>
      rw [h.flag hf]
      trivial
  have hmem : ∀ r, some r ∈
    (if db.isTransactionStart then some ⟨key, db.cache key, x⟩ :: J else J) →
    r = ⟨key, db.cache key, x⟩ ∨ some r ∈ J := by
    intro r hr
    split at hr
    · rcases List.mem_cons.1 hr with he | hr
      · exact .inl (Option.some.inj he)
      · exact .inr hr
    · exact .inr hr
  refine ⟨hch.counted h.counted, ?_, fun r hr => ?_, fun hf => ?_, hcons, hch.index h.index,
    fun r hr v hv => ?_⟩
  · rw [hstack, h.stack]
    split <;> rfl
  · rcases hmem r hr with rfl | hr
    · exact hk
    · exact h.keys r hr
  · rw [hch.flag] at hf
    rw [hf]
    exact h.flag hf
  · rcases hmem r hr with rfl | hr
    · rcases hv with hv | hv
      · exact hch.keep v (h.index key v hv)
      · exact hch.new v hv
    · exact hch.keep v (h.indexed r hr v hv)

/-- **One command.** -/
theorem Inv.exec (h : Inv db J) (c : Command) : ∃ ans db', c.exec db = .ok (ans, db') ∧
    Inv db' (c.onJournal db.cache J db.isTransactionStart).2 ∧
    db'.cache = (c.onJournal db.cache J db.isTransactionStart).1 ∧
    db'.isTransactionStart = c.begun db.isTransactionStart := by
  cases c with
  | set key val =>
    have hch : Changed db key.text (some val) (doSet db key.text val) :=
      doSet_changed h.counted.int32_doCount fun v hv => h.index _ v hv
    exact ⟨none, _, rfl, h.change key.noSpace hch rfl, hch.cache, hch.flag⟩
  | get key => exact ⟨_, db, rfl, h, rfl, rfl⟩
  | delete key =>
    cases hk : db.cache key.text with
    | none =>
      refine ⟨none, db, ?_, ?_, ?_, rfl⟩
      · simp only [Command.exec, doDelete, hk, bind, Except.bind]
        rfl
      · simp only [Command.onJournal, hk]
        exact h
      · simp only [Command.onJournal, hk]
    | some v =>
      obtain ⟨db', hrun, hch, hstack⟩ := doDelete_changed h.counted.int32_doCount hk
        (h.index _ v hk)
      refine ⟨none, db', ?_, ?_, ?_, hch.flag⟩
      · simp only [Command.exec, hrun, bind, Except.bind]
        rfl
      · rw [← hk] at hstack
        have := h.change key.noSpace hch hstack
        simp only [Command.onJournal, hk]
        rwa [hk] at this
      · simp only [Command.onJournal, hk]
        exact hch.cache
  | count val => exact ⟨_, db, rfl, h, rfl, rfl⟩
  | begin =>
    refine ⟨none, _, rfl, ⟨⟨h.counted.finite, h.counted.count⟩, ?_, fun r hr => ?_, ?_,
      h.consistent, h.index, fun r hr => ?_⟩, rfl, rfl⟩
    · show mark :: db.tranStack = _
      rw [h.stack]
      rfl
    · exact h.keys r (by simpa [Command.onJournal] using hr)
    · exact fun hf => absurd hf.symm Bool.false_ne_true
    · exact h.indexed r (by simpa [Command.onJournal] using hr)
  | rollback =>
    obtain ⟨db', hrun, hinv, hcache, hflag⟩ := h.doRollback
    refine ⟨if decide (J ≠ []) then none else some "NO TRANSACTION".toList, db', ?_, hinv,
      hcache, hflag⟩
    simp only [Command.exec, hrun, bind, Except.bind]
    rfl
  | commit =>
    exact ⟨none, _, rfl, ⟨⟨h.counted.finite, h.counted.count⟩, rfl,
      fun r hr => absurd hr List.not_mem_nil, fun _ => rfl, trivial, h.index,
      fun r hr => absurd hr List.not_mem_nil⟩, rfl, rfl⟩

end

theorem Inv.new : Inv .new [] := by
  refine ⟨⟨?_, fun v => ?_⟩, rfl, fun r hr => (nomatch hr), fun _ => rfl, trivial,
    fun k v hk => (nomatch hk), fun r hr => (nomatch hr)⟩
  · simp [SimpleDB.new]
  · simp only [SimpleDB.new, doCount, reduceCtorEq, Set.ncard_empty, Set.ofPred_false]
    rfl

/-- **Runs** throw nothing. -/
theorem Inv.run {db : SimpleDB} {J : Journal} (h : Inv db J) (cs : List Command) :
    ∃ db' J', SimpleDb.run db cs = .ok db' ∧ Inv db' J' := by
  induction cs generalizing db J with
  | nil => exact ⟨db, J, rfl, h⟩
  | cons c cs ih =>
    obtain ⟨ans, db₁, hrun₁, h₁, -, -⟩ := h.exec c
    obtain ⟨db', J', hrun, h'⟩ := ih h₁
    refine ⟨db', J', ?_, h'⟩
    simp only [SimpleDb.run, hrun₁, bind, Except.bind]
    exact hrun

/-- **The count index**: in every state that a sequence of commands leads to, `COUNT` gives the
number of keys with the value exactly when that number is an `int`, and no further command throws.
-/
theorem count_eq_ncard_iff (cs : List Command) : ∃ db, run .new cs = .ok db ∧
    (∀ v, {k | db.cache k = some v}.Finite ∧
      (doCount db v = {k | db.cache k = some v}.ncard ↔
        {k | db.cache k = some v}.ncard < 2 ^ 31)) ∧
    (∃ r, doRollback db = .ok r) ∧ ∀ key, ∃ r, doDelete db key = .ok r := by
  obtain ⟨db, J, hrun, h⟩ := Inv.new.run cs
  refine ⟨db, hrun, fun v => ⟨Undo.finite_preimage h.counted.finite v, ?_⟩, ?_, fun key => ?_⟩
  · rw [h.counted.count]
    exact int32_natCast_iff
  · obtain ⟨db', hroll, -⟩ := h.doRollback
    exact ⟨_, hroll⟩
  · cases hk : db.cache key with
    | none =>
      refine ⟨db, ?_⟩
      unfold doDelete
      rw [hk]
    | some v =>
      obtain ⟨db', hdel, -⟩ := doDelete_changed h.counted.int32_doCount hk (h.index _ v hk)
      exact ⟨db', hdel⟩

/-! ## Too many keys -/

def digitsKey (i : Nat) : Key where
  text := Nat.toDigits 10 i
  noSpace h := absurd (isDigit_of_mem_digits h) (by decide)

theorem digitsKey_injective : Function.Injective fun i => (digitsKey i).text := by
  intro i j heq
  have hof := congrArg (Nat.ofDigitChars 10 · 0)
    (show Nat.toDigits 10 i = Nat.toDigits 10 j from heq)
  rwa [Nat.ofDigitChars_ten_toDigits, Nat.ofDigitChars_ten_toDigits] at hof

/-- Gives `n` keys the value 1. -/
def setKeys (n : Nat) : List Command := (List.range n).map fun i => .set (digitsKey i) 1

theorem run_append (db : SimpleDB) (cs ds : List Command) :
    run db (cs ++ ds) = (do run (← run db cs) ds) := by
  induction cs generalizing db with
  | nil => rfl
  | cons c cs ih =>
    simp only [List.cons_append, run, bind, Except.bind]
    cases c.exec db with
    | error e => rfl
    | ok r => exact ih r.2

theorem run_setKeys (n : Nat) : ∃ db, run .new (setKeys n) = .ok db ∧
    {k | db.cache k = some 1} = Set.image (fun i => (digitsKey i).text) (Set.Iio n) := by
  induction n with
  | zero =>
    refine ⟨.new, rfl, ?_⟩
    simp [SimpleDB.new]
  | succ n ih =>
    obtain ⟨db, hrun, hkeys⟩ := ih
    refine ⟨doSet db (digitsKey n).text 1, ?_, ?_⟩
    · unfold setKeys at hrun ⊢
      rw [List.range_succ, List.map_append, run_append, hrun]
      rfl
    · ext k
      have hmem := Set.ext_iff.1 hkeys k
      simp only [Set.mem_ofPred_eq, Set.mem_image, Set.mem_Iio] at hmem ⊢
      unfold doSet
      by_cases hk : k = (digitsKey n).text
      · subst hk
        simp only [Function.update_self, true_iff]
        exact ⟨n, Nat.lt_succ_self n, rfl⟩
      · simp only [Function.update_of_ne hk]
        rw [hmem]
        refine exists_congr fun i => and_congr_left fun hi => ?_
        have hne : i ≠ n := fun h => hk (h ▸ hi.symm)
        omega

/-- With `2 ^ 31` keys of one value the count is negative. -/
theorem count_wraps : ¬∃ db, run .new (setKeys (2 ^ 31)) = .ok db ∧
    doCount db 1 = {k | db.cache k = some 1}.ncard := by
  rintro ⟨db, hrun, hcount⟩
  obtain ⟨db', hrun', hkeys⟩ := run_setKeys (2 ^ 31)
  obtain ⟨db'', J, hrun'', hinv⟩ := Inv.new.run (setKeys (2 ^ 31))
  obtain rfl : db' = db := Except.ok.inj (hrun'.symm.trans hrun)
  obtain rfl : db'' = db' := Except.ok.inj (hrun''.symm.trans hrun)
  have hcard : {k | db''.cache k = some 1}.ncard = 2 ^ 31 := by
    rw [hkeys, Set.ncard_image_of_injective _ digitsKey_injective, Set.ncard_eq_toFinset_card']
    simp
  rw [hinv.counted.count, hcard, int32_natCast_iff] at hcount
  exact absurd hcount (lt_irrefl _)

end SimpleDb
