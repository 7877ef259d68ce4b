import DsAlgor.SimpleDb.Journal

/-!
# Transactions

A block `BEGIN … ROLLBACK` changes nothing (`block_undone`). A `ROLLBACK` outside of every block
should say so; it does, unless something was written outside after a `BEGIN` that no `COMMIT` has
followed: the flag `isTransactionStart` is still set then, and the write is on the stack
(`rollback_outside_iff`).
-/

namespace SimpleDb

open Undo (Record Leads)

/-! ## Blocks -/

/-- Commands other than `COMMIT`, with every `BEGIN` closed by a `ROLLBACK`. -/
inductive Balanced : List Command → Prop
  | nil : Balanced []
  | set {key : Key} {val : Value} {cs : List Command} : Balanced cs → Balanced (.set key val :: cs)
  | get {key : Key} {cs : List Command} : Balanced cs → Balanced (.get key :: cs)
  | delete {key : Key} {cs : List Command} : Balanced cs → Balanced (.delete key :: cs)
  | count {val : Value} {cs : List Command} : Balanced cs → Balanced (.count val :: cs)
  | block {cs ds : List Command} : Balanced cs → Balanced ds → Balanced
      (.begin :: cs ++ .rollback :: ds)

section
variable {db db' : SimpleDB} {J J' : Journal} {cs ds : List Command}

/-- What a sequence of commands in a block does: it puts records on the journal that lead back. -/
def Recorded (db : SimpleDB) (J : Journal) (cs : List Command) : Prop :=
  ∃ db' rs, run db cs = .ok db' ∧ Inv db' (rs.map some ++ J) ∧ db'.isTransactionStart = true ∧
    Leads db'.cache rs db.cache

/-- A command that puts at most one record on the journal, before the rest. -/
theorem Recorded.cons {c : Command} {ans : Option Text} (rs : List (Record Text Value))
    (hrun : c.exec db = .ok (ans, db')) (hleads : Leads db'.cache rs db.cache)
    (h : Recorded db' (rs.map some ++ J) cs) : Recorded db J (c :: cs) := by
  obtain ⟨db'', rs', hrun', hinv, hflag, hleads'⟩ := h
  refine ⟨db'', rs' ++ rs, ?_, ?_, hflag, hleads'.trans hleads⟩
  · simp only [run, hrun, bind, Except.bind]
    exact hrun'
  · rw [List.map_append, List.append_assoc]
    exact hinv

/-- A block leaves the cache and the journal as they were. -/
theorem Recorded.rollback (h : Recorded db (none :: J) cs) :
    ∃ db', run db (cs ++ [.rollback]) = .ok db' ∧ Inv db' J ∧ db'.isTransactionStart = true ∧
      db'.cache = db.cache := by
  obtain ⟨db₁, rs, hrun₁, hinv₁, hflag₁, hleads⟩ := h
  obtain ⟨ans, db', hrun, hinv, hcache, hflag⟩ := hinv₁.exec .rollback
  have hroll : Command.rollback.onJournal db₁.cache (rs.map some ++ none :: J)
    db₁.isTransactionStart = (db.cache, J) := Undo.rollback_of_leads hleads
  rw [hroll] at hinv hcache
  refine ⟨db', ?_, hinv, hflag.trans hflag₁, hcache⟩
  rw [run_append, hrun₁]
  simp only [run, hrun, bind, Except.bind]

theorem Balanced.recorded (h : Balanced cs) : ∀ {db J}, Inv db J → db.isTransactionStart = true →
    Recorded db J cs := by
  induction h with
  | nil =>
    intro db J hinv hflag
    exact ⟨db, [], rfl, hinv, hflag, rfl⟩
  | @set key val cs _ ih =>
    intro db J hinv hflag
    obtain ⟨ans, db₁, hrun, hinv₁, hcache, hflag₁⟩ := hinv.exec (.set key val)
    simp only [Command.onJournal, hflag, if_true] at hinv₁ hcache
    refine Recorded.cons [⟨key.text, db.cache key.text, some val⟩] hrun ?_
      (ih hinv₁ (hflag₁.trans hflag))
    rw [hcache]
    exact Undo.leads_record db.cache key.text (some val)
  | @get key cs _ ih =>
    intro db J hinv hflag
    exact Recorded.cons [] (show Command.exec db _ = .ok (_, db) from rfl) rfl (ih hinv hflag)
  | @delete key cs _ ih =>
    intro db J hinv hflag
    obtain ⟨ans, db₁, hrun, hinv₁, hcache, hflag₁⟩ := hinv.exec (.delete key)
    cases hk : db.cache key.text with
    | none =>
      simp only [Command.onJournal, hk] at hinv₁ hcache
      exact Recorded.cons [] hrun hcache (ih hinv₁ (hflag₁.trans hflag))
    | some v =>
      simp only [Command.onJournal, hk, hflag, if_true] at hinv₁ hcache
      refine Recorded.cons [⟨key.text, some v, none⟩] hrun ?_ (ih hinv₁ (hflag₁.trans hflag))
      rw [hcache, ← hk]
      exact Undo.leads_record db.cache key.text none
  | @count val cs _ ih =>
    intro db J hinv hflag
    exact Recorded.cons [] (show Command.exec db _ = .ok (_, db) from rfl) rfl (ih hinv hflag)
  | @block cs ds _ _ ihc ihd =>
    intro db J hinv hflag
    obtain ⟨ans, db₁, hrun₁, hinv₁, hcache₁, hflag₁⟩ := hinv.exec .begin
    obtain ⟨db₂, hrun₂, hinv₂, hflag₂, hcache₂⟩ := (ihc hinv₁ hflag₁).rollback
    obtain ⟨db', rs, hrun, hinv', hflag', hleads⟩ := ihd hinv₂ hflag₂
    refine ⟨db', rs, ?_, hinv', hflag', ?_⟩
    · have hsplit : cs ++ .rollback :: ds = (cs ++ [.rollback]) ++ ds := by simp
      simp only [List.cons_append, run, hrun₁, bind, Except.bind]
      rw [hsplit, run_append, hrun₂]
      exact hrun
    · rw [hcache₂, hcache₁] at hleads
      exact hleads

/-- **Blocks are undone**: from every state, a block that is rolled back leaves every `GET`, every
`COUNT` and the undo stack as they were. -/
theorem block_undone (before cs : List Command) (h : Balanced cs) :
    ∃ db db', run .new before = .ok db ∧ run db (.begin :: cs ++ [.rollback]) = .ok db' ∧
      (∀ key, doGet db' key = doGet db key) ∧ (∀ v, doCount db' v = doCount db v) ∧
      db'.tranStack = db.tranStack := by
  obtain ⟨db, J, hrun, hinv⟩ := Inv.new.run before
  obtain ⟨ans, db₁, hrun₁, hinv₁, hcache₁, hflag₁⟩ := hinv.exec .begin
  obtain ⟨db', hrun', hinv', -, hcache'⟩ := (h.recorded hinv₁ hflag₁).rollback
  have hcache : db'.cache = db.cache := hcache'.trans hcache₁
  refine ⟨db, db', hrun, ?_, fun key => ?_, fun v => ?_, ?_⟩
  · simp only [List.cons_append, run, hrun₁, bind, Except.bind]
    exact hrun'
  · unfold doGet
    rw [hcache]
  · rw [hinv'.counted.count, hinv.counted.count, hcache]
  · rw [hinv'.stack, hinv.stack]

end

def keyA : Key := ⟨['a'], by decide⟩

theorem block_undone_sample : ∃ db db', run .new [.set keyA 1] = .ok db ∧
    run db (.begin :: [.set keyA 2, .begin, .delete keyA, .rollback, .set keyA 2] ++ [.rollback]) =
      .ok db' ∧ (∀ key, doGet db' key = doGet db key) ∧ (∀ v, doCount db' v = doCount db v) ∧
      db'.tranStack = db.tranStack :=
  block_undone [.set keyA 1] [.set keyA 2, .begin, .delete keyA, .rollback, .set keyA 2]
    (.set (@Balanced.block [.delete keyA] _ (.delete .nil) (.set .nil)))

/-! ## Outside of every block -/

/-- One command on the number of `BEGIN`s that are open. -/
def Command.opens (n : Nat) : Command → Nat
  | .begin => n + 1
  | .rollback => n - 1
  | .commit => 0
  | _ => n

/-- The `BEGIN`s since the last `COMMIT` that no `ROLLBACK` has matched. -/
def openBegins (cs : List Command) : Nat := cs.foldl Command.opens 0

/-- A command that changes the cache, or could: `SET`, and `DELETE` of a key that is there. -/
def writes (db : SimpleDB) : Command → Bool
  | .set _ _ => true
  | .delete key => (db.cache key.text).isSome
  | _ => false

/-- Where a sequence of commands stands: the open `BEGIN`s, whether there was a `BEGIN` since the
last `COMMIT`, and whether something was written outside of every block since that `BEGIN` and the
last `ROLLBACK` there. -/
structure Level where
  depth : Nat
  begun : Bool
  stray : Bool

def Level.step (l : Level) (db : SimpleDB) (c : Command) : Level :=
  { depth := c.opens l.depth
    begun := c.begun l.begun
    stray :=
      match c with
      | .commit => false
      | .rollback => if l.depth = 0 then false else l.stray
      | c => l.stray || (l.depth = 0 && l.begun && writes db c) }

/-- The level after a sequence of commands. -/
def levelAfter (db : SimpleDB) (l : Level) : List Command → Level
  | [] => l
  | c :: cs =>
    match c.exec db with
    | .ok (_, db') => levelAfter db' (l.step db c) cs
    | .error _ => l

/-- Something was written outside of every block while `isTransactionStart` was still set. -/
def strayWrite (cs : List Command) : Bool := (levelAfter .new ⟨0, false, false⟩ cs).stray

/-- The lowest entry of the journal is a record. -/
def bottomRecord (J : Journal) : Bool :=
  match J.getLast? with
  | some (some _) => true
  | _ => false

/-- The journal at a level. -/
structure AtLevel (db : SimpleDB) (J : Journal) (l : Level) : Prop where
  inv : Inv db J
  depth : l.depth = J.count none
  begun : l.begun = db.isTransactionStart
  stray : l.stray = bottomRecord J

section
variable {db : SimpleDB} {J : Journal} {l : Level}

theorem bottomRecord_cons {e e' : Option (Record Text Value)} :
    bottomRecord (e :: e' :: J) = bottomRecord (e' :: J) := by
  unfold bottomRecord
  rw [List.getLast?_cons_cons]

theorem bottomRecord_append {e : Option (Record Text Value)} (J' : Journal) :
    bottomRecord (J' ++ e :: J) = bottomRecord (e :: J) := by
  unfold bottomRecord
  rw [List.getLast?_append]
  cases h : (e :: J).getLast? with
  | none => simp at h
  | some x => rfl

theorem bottomRecord_mark : bottomRecord (none :: J) = bottomRecord J := by
  cases J with
  | nil => rfl
  | cons e J => exact bottomRecord_cons

/-- Records only: the lowest is one, if there is one. -/
theorem bottomRecord_of_count {J : Journal} (h : J.count none = 0) :
    bottomRecord J = decide (J ≠ []) := by
  cases J using List.reverseRecOn with
  | nil => rfl
  | append_singleton J e _ =>
    cases e with
    | none => simp at h
    | some r => simp [bottomRecord]

variable (h : AtLevel db J l)
include h

theorem AtLevel.record (r : Record Text Value) :
    bottomRecord (some r :: J) = (l.stray || decide (l.depth = 0)) := by
  cases J with
  | nil =>
    have hd : l.depth = 0 := h.depth
    rw [decide_eq_true hd, Bool.or_true]
    rfl
  | cons e J =>
    rw [bottomRecord_cons, ← h.stray]
    by_cases hd : l.depth = 0
    · rw [decide_eq_true hd, Bool.or_true, h.stray, bottomRecord_of_count (h.depth.symm.trans hd)]
      rfl
    · rw [decide_eq_false hd, Bool.or_false]

/-- A write puts a record on the journal when there was a `BEGIN`. -/
theorem AtLevel.write (r : Record Text Value) : (l.stray || (l.depth = 0 && l.begun && true)) =
      bottomRecord (if db.isTransactionStart then some r :: J else J) := by
  cases hb : l.begun with
  | false =>
    rw [← h.begun, hb, h.stray]
    simp
  | true =>
    rw [← h.begun, hb, if_pos rfl, h.record r]
    simp

theorem AtLevel.count_write (r : Record Text Value) :
    l.depth = (if db.isTransactionStart then some r :: J else J).count none := by
  rw [h.depth]
  split
  · rw [List.count_cons_of_ne (by simp)]
  · rfl

theorem AtLevel.rollback : l.depth - 1 = (Undo.rollback db.cache J).2.count none ∧
      (if l.depth = 0 then false else l.stray) = bottomRecord (Undo.rollback db.cache J).2 := by
  have hrecs : ∀ rs : List (Record Text Value), (rs.map some).count none = 0 :=
    fun rs => List.count_eq_zero.2 (by simp)
  rcases Undo.rollback_cases db.cache J with ⟨rs, hJ, hroll⟩ | ⟨rs, J', hJ, hroll⟩
  · have hd : l.depth = 0 := by rw [h.depth, hJ, hrecs]
    rw [hroll, hd]
    exact ⟨rfl, rfl⟩
  · have hd : l.depth = J'.count none + 1 := by
      rw [h.depth, hJ, List.count_append, hrecs, List.count_cons_self]
      omega
    rw [hroll, hd]
    refine ⟨rfl, ?_⟩
    rw [if_neg (Nat.succ_ne_zero _), h.stray, hJ, bottomRecord_append, bottomRecord_mark]

/-- **One command** keeps the level. -/
theorem AtLevel.exec (c : Command) :
    ∃ ans db' J', c.exec db = .ok (ans, db') ∧ AtLevel db' J' (l.step db c) := by
  obtain ⟨ans, db', hrun, hinv, -, hflag⟩ := h.inv.exec c
  refine ⟨ans, db', _, hrun, hinv, ?_, ?_, ?_⟩
  · cases c with
    | set key val => exact h.count_write _
    | get key => exact h.depth
    | delete key =>
      show l.depth = _
      cases hk : db.cache key.text with
      | none =>
        simp only [Command.onJournal, hk]
        exact h.depth
      | some v =>
        simp only [Command.onJournal, hk]
        exact h.count_write _
    | count val => exact h.depth
    | begin =>
      show l.depth + 1 = (none :: J).count none
      rw [List.count_cons_self, h.depth]
    | rollback => exact h.rollback.1
    | commit => rfl
  · show c.begun l.begun = _
    rw [hflag, h.begun]
  · cases c with
    | set key val => exact h.write _
    | get key =>
      show (l.stray || (_ && false)) = bottomRecord J
      rw [Bool.and_false, Bool.or_false, h.stray]
    | delete key =>
      show (l.stray || (l.depth = 0 && l.begun && (db.cache key.text).isSome)) = _
      cases hk : db.cache key.text with
      | none =>
        simp only [Command.onJournal, hk, Option.isSome_none, Bool.and_false, Bool.or_false]
        exact h.stray
      | some v =>
        simp only [Command.onJournal, hk, Option.isSome_some]
        exact h.write _
    | count val =>
      show (l.stray || (_ && false)) = bottomRecord J
      rw [Bool.and_false, Bool.or_false, h.stray]
    | begin =>
      show (l.stray || (_ && false)) = bottomRecord (none :: J)
      rw [Bool.and_false, Bool.or_false, h.stray, bottomRecord_mark]
    | rollback => exact h.rollback.2
    | commit => rfl

theorem AtLevel.run (cs : List Command) :
    ∃ db' J', SimpleDb.run db cs = .ok db' ∧ AtLevel db' J' (levelAfter db l cs) ∧
      (levelAfter db l cs).depth = cs.foldl Command.opens l.depth := by
  induction cs generalizing db J l with
  | nil => exact ⟨db, J, rfl, h, rfl⟩
  | cons c cs ih =>
    obtain ⟨ans, db₁, J₁, hrun₁, h₁⟩ := h.exec c
    obtain ⟨db', J', hrun, h', hdepth⟩ := ih h₁
    have hlevel : levelAfter db l (c :: cs) = levelAfter db₁ (l.step db c) cs := by
      rw [levelAfter, hrun₁]
    rw [hlevel]
    refine ⟨db', J', ?_, h', hdepth⟩
    simp only [SimpleDb.run, hrun₁, bind, Except.bind]
    exact hrun

end

/-- **`ROLLBACK` outside of every block** answers `NO TRANSACTION` and changes nothing exactly when
nothing was written outside while `isTransactionStart` was still set. -/
theorem rollback_outside_iff (cs : List Command) (h : openBegins cs = 0) :
    ∃ db, run .new cs = .ok db ∧
      ((∃ db', Command.rollback.exec db = .ok (some "NO TRANSACTION".toList, db') ∧
        (∀ key, doGet db' key = doGet db key) ∧ ∀ v, doCount db' v = doCount db v) ↔
        strayWrite cs = false) := by
  have hnew : AtLevel .new [] ⟨0, false, false⟩ := ⟨Inv.new, rfl, rfl, rfl⟩
  obtain ⟨db, J, hrun, hlevel, hdepth⟩ := hnew.run cs
  have hJ : strayWrite cs = decide (J ≠ []) := by
    unfold strayWrite
    rw [hlevel.stray, bottomRecord_of_count]
    rw [← hlevel.depth, hdepth]
    exact h
  obtain ⟨db', hroll, -, -, -⟩ := hlevel.inv.doRollback
  have hexec : Command.rollback.exec db =
      .ok (if decide (J ≠ []) then none else some "NO TRANSACTION".toList, db') := by
    simp only [Command.exec, hroll, bind, Except.bind]
    rfl
  refine ⟨db, hrun, ?_⟩
  rw [hJ]
  constructor
  · rintro ⟨db'', hex, -, -⟩
    rw [hexec] at hex
    cases hd : decide (J ≠ []) with
    | false => rfl
    | true =>
      rw [hd] at hex
      cases hex
  · intro hd
    have hnil : J = [] := by simpa using hd
    refine ⟨db, ?_, fun _ => rfl, fun _ => rfl⟩
    simp only [Command.exec, doRollback, hlevel.inv.stack, hnil, List.map_nil, if_true,
      bind, Except.bind]
    rfl

theorem rollback_outside_iff_sample :
    openBegins [.begin, .rollback, .begin, .set keyA 1, .rollback] = 0 ∧
      strayWrite [.begin, .rollback, .begin, .set keyA 1, .rollback] = false ∧
      ∃ db, run .new [.begin, .rollback, .begin, .set keyA 1, .rollback] = .ok db ∧
        ((∃ db', Command.rollback.exec db = .ok (some "NO TRANSACTION".toList, db') ∧
          (∀ key, doGet db' key = doGet db key) ∧ ∀ v, doCount db' v = doCount db v) ↔
            strayWrite [.begin, .rollback, .begin, .set keyA 1, .rollback] = false) :=
  ⟨rfl, by decide +kernel, rollback_outside_iff
    [.begin, .rollback, .begin, .set keyA 1, .rollback] rfl⟩

/-- A write after a closed transaction is rolled back, and not refused. -/
theorem stray_set_rolled_back :
    openBegins [.begin, .rollback, .set keyA 1] = 0 ∧
      ∃ db db', run .new [.begin, .rollback, .set keyA 1] = .ok db ∧ Command.rollback.exec db = .ok
        (none, db') ∧ doGet db keyA.text = some 1 ∧ doGet db' keyA.text = none := by
  refine ⟨rfl, _, _, rfl, rfl, ?_, ?_⟩
  · decide +kernel
  · decide +kernel

end SimpleDb
