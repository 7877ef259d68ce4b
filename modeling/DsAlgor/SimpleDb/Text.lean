import DsAlgor.Lib.CInt
import Mathlib.Data.List.DropRight
import Mathlib.Logic.Function.Basic
import Mathlib.Tactic

/-!
# `simple_db.java`

A string is a `List Char` and an `int` a `BitVec 32`, read as signed. A count is an `Int` that is
cut to 32 bits where it is stored (`int32`). A `HashMap` is a partial function, and `tranStack` a
list with its top first. The undo records are strings, as in the source, and a rollback takes them
apart again with `split` and `parseInt`; what these and a missing map entry throw is an `Exception`.
-/

namespace SimpleDb

abbrev Text := List Char

abbrev Value := BitVec 32

inductive Exception
  | nullPointer
  | numberFormat
  | arrayIndexOutOfBounds
deriving DecidableEq

/-! ## Strings -/

/-- `Integer.toString` -/
def showInt (v : Value) : Text :=
  if v.toInt < 0 then '-' :: Nat.toDigits 10 v.toInt.natAbs else Nat.toDigits 10 v.toInt.natAbs

def parseDigits (neg : Bool) (ds : Text) : Except Exception Value :=
  if ds = [] ∨ ¬ ds.all Char.isDigit then .error .numberFormat
  else
    let n : Int := if neg then -(Nat.ofDigitChars 10 ds 0 : Int) else Nat.ofDigitChars 10 ds 0
    if -2 ^ 31 ≤ n ∧ n < 2 ^ 31 then .ok (BitVec.ofInt 32 n) else .error .numberFormat

/-- `Integer.parseInt` -/
def parseInt : Text → Except Exception Value
  | '-' :: ds => parseDigits true ds
  | '+' :: ds => parseDigits false ds
  | ds => parseDigits false ds

/-- The parts between spaces. -/
def parts : Text → List Text
  | [] => [[]]
  | c :: cs =>
    if c = ' ' then [] :: parts cs
    else
      match parts cs with
      | [] => [[c]]
      | s :: ss => (c :: s) :: ss

/-- `s.split(" ")`: empty parts at the end are dropped, but not a string without a space. -/
def split (s : Text) : List Text :=
  if ' ' ∈ s then (parts s).rdropWhile (· = []) else [s]

/-- `segs[i]` -/
def segment (segs : List Text) (i : Nat) : Except Exception Text :=
  match segs[i]? with
  | some s => .ok s
  | none => .error .arrayIndexOutOfBounds

/-! ## The database -/

structure SimpleDB where
  countMap : Value → Option Int
  cache : Text → Option Value
  tranStack : List Text
  isTransactionStart : Bool

def SimpleDB.new : SimpleDB :=
  { countMap := fun _ => none, cache := fun _ => none, tranStack := [],
    isTransactionStart := false }

def mark : Text := ['#']

def doBegin (db : SimpleDB) : SimpleDB :=
  { db with tranStack := mark :: db.tranStack, isTransactionStart := true }

/-- `countMap.put(val, countMap.get(val) + d)` -/
def addCount (db : SimpleDB) (val : Value) (d : Int) : Except Exception SimpleDB :=
  match db.countMap val with
  | some n => .ok { db with countMap := Function.update db.countMap val (some (int32 (n + d))) }
  | none => .error .nullPointer

/-- The body of the loop in `doRollback`, for the string that was popped. -/
def undo (db : SimpleDB) (operations : Text) : Except Exception SimpleDB := do
  let segs := split operations
  let key ← segment segs 0
  let orig ← segment segs 1
  let new ← segment segs 2
  let origVal := if orig = mark then [] else orig
  let newVal := if new = mark then [] else new
  let db ←
    if origVal = [] then pure { db with cache := Function.update db.cache key none }
    else do
      let val ← parseInt origVal
      addCount { db with cache := Function.update db.cache key (some val) } val 1
  if newVal = [] then return db
  else addCount db (← parseInt newVal) (-1)

/-- The loop: the stack from its top to the first mark. -/
def undoLoop (db : SimpleDB) : List Text → Except Exception SimpleDB
  | [] => .ok { db with tranStack := [] }
  | s :: ss =>
    if s = mark then .ok { db with tranStack := s :: ss }
    else do undoLoop (← undo db s) ss

def doRollback (db : SimpleDB) : Except Exception (Bool × SimpleDB) :=
  if db.tranStack = [] then .ok (false, db)
  else do
    let db ← undoLoop db db.tranStack
    return (true, { db with tranStack := db.tranStack.tail })

def doCommit (db : SimpleDB) : SimpleDB := { db with tranStack := [], isTransactionStart := false }

def doGet (db : SimpleDB) (key : Text) : Option Value := db.cache key

def doCount (db : SimpleDB) (val : Value) : Int := (db.countMap val).getD 0

def showValue : Option Value → Text
  | some v => showInt v
  | none => mark

/-- The string that undoes a change of a key. -/
def operations (key : Text) (orig new : Option Value) : Text :=
  key ++ ' ' :: showValue orig ++ ' ' :: showValue new

def doSet (db : SimpleDB) (key : Text) (val : Value) : SimpleDB :=
  let tranStack :=
    if db.isTransactionStart then operations key (db.cache key) (some val) ::
      db.tranStack else db.tranStack
  let countMap :=
    match db.cache key with
    | some origVal =>
      match db.countMap origVal with
      | some n => Function.update db.countMap origVal (some (int32 (n - 1)))
      | none => db.countMap
    | none => db.countMap
  { db with
    tranStack
    countMap := Function.update countMap val (some (int32 ((countMap val).getD 0 + 1)))
    cache := Function.update db.cache key (some val) }

def doDelete (db : SimpleDB) (key : Text) : Except Exception SimpleDB :=
  match db.cache key with
  | some origVal => do
    let db := if db.isTransactionStart then
      { db with tranStack := operations key (some origVal) none :: db.tranStack } else db
    let db ← addCount db origVal (-1)
    return { db with cache := Function.update db.cache key none }
  | none => .ok db

/-! ## Commands -/

/-- A key, as `split` finds it in a command. -/
structure Key where
  text : Text
  noSpace : ' ' ∉ text

inductive Command
  | set (key : Key) (val : Value)
  | get (key : Key)
  | delete (key : Key)
  | count (val : Value)
  | begin
  | rollback
  | commit

/-- The answer of a command, `none` for `null`, and the database after it. -/
def Command.exec (db : SimpleDB) : Command → Except Exception (Option Text × SimpleDB)
  | .set key val => .ok (none, doSet db key.text val)
  | .get key =>
    .ok (some (match doGet db key.text with | some v => showInt v | none => "NULL".toList), db)
  | .delete key => do return (none, ← doDelete db key.text)
  | .count val => .ok (some (toString (doCount db val)).toList, db)
  | .begin => .ok (none, doBegin db)
  | .rollback => do
    let (isTransaction, db) ← doRollback db
    return (if isTransaction then none else some "NO TRANSACTION".toList, db)
  | .commit => .ok (none, doCommit db)

/-- `process`, for one line of input. -/
def process (db : SimpleDB) (input : Text) : Except Exception (Option Text × SimpleDB) := do
  let segs := split input
  let command ← segment segs 0
  if command = "SET".toList then
    return (none, doSet db (← segment segs 1) (← parseInt (← segment segs 2)))
  else if command = "GET".toList then
    return (some
      (match doGet db (← segment segs 1) with | some v => showInt v | none => "NULL".toList), db)
  else if command = "DELETE".toList then
    return (none, ← doDelete db (← segment segs 1))
  else if command = "COUNT".toList then
    return (some (toString (doCount db (← parseInt (← segment segs 1)))).toList, db)
  else if command = "BEGIN".toList then
    return (none, doBegin db)
  else if command = "ROLLBACK".toList then do
    let (isTransaction, db) ← doRollback db
    return (if isTransaction then none else some "NO TRANSACTION".toList, db)
  else if command = "COMMIT".toList then
    return (none, doCommit db)
  else return (none, db)

/-- The line that gives a command. -/
def Command.line : Command → Text
  | .set key val => "SET ".toList ++ key.text ++ ' ' :: showInt val
  | .get key => "GET ".toList ++ key.text
  | .delete key => "DELETE ".toList ++ key.text
  | .count val => "COUNT ".toList ++ showInt val
  | .begin => "BEGIN".toList
  | .rollback => "ROLLBACK".toList
  | .commit => "COMMIT".toList

def run (db : SimpleDB) : List Command → Except Exception SimpleDB
  | [] => .ok db
  | c :: cs => do
    let (_, db) ← c.exec db
    run db cs

/-! ## Undo records as text

What `doSet` and `doDelete` write on the stack, `doRollback` reads back: `undo_operations`. A record
is never the mark (`operations_ne_mark`), although a missing value is written like one.
-/

/-! ## Splitting -/

theorem parts_word {w : Text} (h : ' ' ∉ w) : parts w = [w] := by
  induction w with
  | nil => rfl
  | cons c w ih =>
    have hc : c ≠ ' ' := fun hc => h (by simp [hc])
    have hw : ' ' ∉ w := fun hw => h (List.mem_cons_of_mem _ hw)
    rw [parts, if_neg hc, ih hw]

theorem parts_append {w : Text} (h : ' ' ∉ w) (rest : Text) :
    parts (w ++ ' ' :: rest) = w :: parts rest := by
  induction w with
  | nil => simp [parts]
  | cons c w ih =>
    have hc : c ≠ ' ' := fun hc => h (by simp [hc])
    have hw : ' ' ∉ w := fun hw => h (List.mem_cons_of_mem _ hw)
    rw [List.cons_append, parts, if_neg hc, ih hw]

theorem split_two {w v : Text} (hw : ' ' ∉ w) (hv : ' ' ∉ v) (hne : v ≠ []) :
    split (w ++ ' ' :: v) = [w, v] := by
  rw [split, if_pos (by simp), parts_append hw, parts_word hv]
  simp [List.rdropWhile, hne]

theorem split_three {w v u : Text} (hw : ' ' ∉ w) (hv : ' ' ∉ v) (hu : ' ' ∉ u) (hne : u ≠ []) :
    split (w ++ ' ' :: v ++ ' ' :: u) = [w, v, u] := by
  rw [split, if_pos (by simp), List.append_assoc, List.cons_append, parts_append hw,
    parts_append hv, parts_word hu]
  simp [List.rdropWhile, hne]

/-! ## Numbers -/

theorem isDigit_of_mem_digits {n : Nat} {c : Char} (h : c ∈ Nat.toDigits 10 n) : c.isDigit = true :=
  Nat.isDigit_of_mem_toDigits (by decide) (by decide) h

theorem parseDigits_digits (neg : Bool) {n : Nat}
    (h : -2 ^ 31 ≤ (if neg then -(n : Int) else n) ∧ (if neg then -(n : Int) else n) < 2 ^ 31) :
    parseDigits neg (Nat.toDigits 10 n) = .ok
      (BitVec.ofInt 32 (if neg then -(n : Int) else n)) := by
  have hok : ¬ (Nat.toDigits 10 n = [] ∨ ¬ (Nat.toDigits 10 n).all Char.isDigit) := by
    have hall : (Nat.toDigits 10 n).all Char.isDigit = true :=
      List.all_eq_true.2 fun c hc => isDigit_of_mem_digits hc
    simp [Nat.toDigits_ne_nil, hall]
  unfold parseDigits
  rw [if_neg hok, Nat.ofDigitChars_ten_toDigits]
  exact if_pos h

theorem parseInt_showInt (v : Value) : parseInt (showInt v) = .ok v := by
  have hlo := BitVec.le_toInt v
  have hhi := BitVec.toInt_lt (x := v)
  unfold showInt
  by_cases hneg : v.toInt < 0
  · have habs : -(v.toInt.natAbs : Int) = v.toInt := by omega
    rw [if_pos hneg, parseInt, parseDigits_digits true (by simp only [if_true, habs]; omega)]
    simp only [if_true, habs, BitVec.ofInt_toInt]
  · have habs : (v.toInt.natAbs : Int) = v.toInt := by omega
    rw [if_neg hneg]
    have hdig := parseDigits_digits false (n := v.toInt.natAbs) (by
      simp only [Bool.false_eq_true, if_false, habs]
      omega)
    simp only [Bool.false_eq_true, if_false, habs, BitVec.ofInt_toInt] at hdig
    -- a digit is not a sign
    cases hd : Nat.toDigits 10 v.toInt.natAbs with
    | nil => exact absurd hd Nat.toDigits_ne_nil
    | cons c cs =>
      have hc : c.isDigit = true := isDigit_of_mem_digits (n := v.toInt.natAbs) (by simp [hd])
      rw [hd] at hdig
      have hminus : c ≠ '-' := by
        rintro rfl
        revert hc
        decide
      have hplus : c ≠ '+' := by
        rintro rfl
        revert hc
        decide
      unfold parseInt
      split
      next ds heq => exact absurd (List.cons.inj heq).1 hminus
      next ds heq => exact absurd (List.cons.inj heq).1 hplus
      next => exact hdig

theorem mem_showInt {v : Value} {c : Char} (h : c ∈ showInt v) : c = '-' ∨ c.isDigit = true := by
  unfold showInt at h
  split at h
  · rcases List.mem_cons.1 h with rfl | h
    · exact .inl rfl
    · exact .inr (isDigit_of_mem_digits h)
  · exact .inr (isDigit_of_mem_digits h)

theorem space_notMem_showInt (v : Value) : ' ' ∉ showInt v := by
  intro h
  rcases mem_showInt h with h | h
  · revert h
    decide
  · revert h
    decide

theorem showInt_ne_nil (v : Value) : showInt v ≠ [] := by
  unfold showInt
  split
  · simp
  · exact Nat.toDigits_ne_nil

theorem showInt_ne_mark (v : Value) : showInt v ≠ mark := by
  intro h
  have hm : '#' ∈ showInt v := by simp [h, mark]
  rcases mem_showInt hm with h | h
  · revert h
    decide
  · revert h
    decide

theorem space_notMem_showValue (v : Option Value) : ' ' ∉ showValue v := by
  cases v with
  | none => decide
  | some v => exact space_notMem_showInt v

theorem showValue_ne_nil (v : Option Value) : showValue v ≠ [] := by
  cases v with
  | none => decide
  | some v => exact showInt_ne_nil v

/-! ## Records -/

theorem operations_ne_mark (key : Text) (orig new : Option Value) :
    operations key orig new ≠ mark := by
  intro h
  have : ' ' ∈ mark := by
    rw [← h]
    simp [operations]
  revert this
  decide

/-- The value a record gives back is counted once more. -/
def restore (db : SimpleDB) (key : Text) : Option Value → Except Exception SimpleDB
  | none => .ok { db with cache := Function.update db.cache key none }
  | some val => addCount { db with cache := Function.update db.cache key (some val) } val 1

/-- The value a record takes back is counted once less. -/
def forget (db : SimpleDB) : Option Value → Except Exception SimpleDB
  | none => .ok db
  | some val => addCount db val (-1)

/-- **A record undoes the change it was written for.** -/
theorem undo_operations (db : SimpleDB) (key : Key) (orig new : Option Value) :
    undo db (operations key.text orig new) = (do forget (← restore db key.text orig) new) := by
  have hsplit : split (operations key.text orig new) = [key.text, showValue orig, showValue new] :=
    split_three key.noSpace (space_notMem_showValue orig) (space_notMem_showValue new)
      (showValue_ne_nil new)
  unfold undo
  simp only [hsplit, segment, bind, Except.bind, List.getElem?_cons_zero, List.getElem?_cons_succ]
  cases orig <;> cases new <;>
    simp [showValue, showInt_ne_mark, showInt_ne_nil, parseInt_showInt, restore, forget,
    pure, Except.pure]

/-! ## Commands -/

/-- **`process`** does what the line says. -/
theorem process_line (db : SimpleDB) (c : Command)
    (h : ∀ key, c = .get key ∨ c = .delete key → key.text ≠ []) :
    process db c.line = c.exec db := by
  cases c with
  | set key val =>
    have hsplit : split (Command.set key val).line = ["SET".toList, key.text, showInt val] :=
      @split_three "SET".toList key.text (showInt val) (by decide) key.noSpace
        (space_notMem_showInt val) (showInt_ne_nil val)
    simp [process, hsplit, segment, Command.exec, parseInt_showInt, bind, Except.bind,
      pure, Except.pure]
  | get key =>
    have hsplit : split (Command.get key).line = ["GET".toList, key.text] :=
      @split_two "GET".toList key.text (by decide) key.noSpace (h key (.inl rfl))
    simp [process, hsplit, segment, Command.exec, bind, Except.bind, pure, Except.pure]
  | delete key =>
    have hsplit : split (Command.delete key).line = ["DELETE".toList, key.text] :=
      @split_two "DELETE".toList key.text (by decide) key.noSpace (h key (.inr rfl))
    simp [process, hsplit, segment, Command.exec, bind, Except.bind, pure, Except.pure]
  | count val =>
    have hsplit : split (Command.count val).line = ["COUNT".toList, showInt val] :=
      @split_two "COUNT".toList (showInt val) (by decide) (space_notMem_showInt val)
        (showInt_ne_nil val)
    simp [process, hsplit, segment, Command.exec, parseInt_showInt, bind, Except.bind,
      pure, Except.pure]
  | begin => rfl
  | rollback => rfl
  | commit => rfl

end SimpleDb
