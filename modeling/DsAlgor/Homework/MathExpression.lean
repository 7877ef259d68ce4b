import DsAlgor.Lib.Outcome
import DsAlgor.SimpleDb.Text

/-!
# `mathExpression.java`

`convert2Postfix` is right for every table that has the operators of the expression with their
levels (`Solution.evalute_eq`). The constructor leaves `-` out of its table, so an expression with a
`-` and a second operator ends in a `NullPointerException` (`evalute_iff`).
-/

namespace MathExpression

open SimpleDb (Text Value parts split)

inductive Exception
  | nullPointer
  | emptyStack
  | numberFormat
  | arithmetic
deriving DecidableEq

/-! ## The class -/

/-- A `HashMap` is a partial function. -/
structure Solution where
  map : Text → Option Int

/-- `map.put(key, value)` -/
def Solution.put (s : Solution) (key : Text) (value : Int) : Solution :=
  { map := Function.update s.map key (some value) }

/-- The constructor. It puts `+` twice. -/
def Solution.new : Solution :=
  let s : Solution := { map := fun _ => none }
  let s := s.put ['+'] 1
  let s := s.put ['+'] 1
  let s := s.put ['*'] 2
  s.put ['/'] 2

def Solution.operatorGreaterThan (s : Solution) (op1 op2 : Text) : Except Exception Bool :=
  match s.map op1, s.map op2 with
  | some level1, some level2 => .ok (level2 ≤ level1)
  | _, _ => .error .nullPointer

def isOperator (s : Text) : Bool := s = ['+'] || s = ['-'] || s = ['*'] || s = ['/']

def isOperand (s : Text) : Bool := s.all fun c => !(c < '0' || c > '9')

/-- The inner loop of `convert2Postfix`. Stacks are lists, the top first. -/
def Solution.popOperators (s : Solution) (v : Text) :
    List Text → List Text → Except Exception (List Text × List Text)
  | out, [] => .ok (out, [])
  | out, top :: stack => do
    if ← s.operatorGreaterThan top v then s.popOperators v (out ++ [top]) stack
    else return (out, top :: stack)

/-- The body of the loop over the parts of the input. -/
def Solution.convert (s : Solution) (state : List Text × List Text) (v : Text) :
    Except Exception (List Text × List Text) :=
  if isOperator v then do
    let (out, stack) ← s.popOperators v state.1 state.2
    return (out, v :: stack)
  else if isOperand v then return (state.1 ++ [v], state.2)
  else return state

def Solution.convert2Postfix (s : Solution) (expr : Text) : Except Exception (List Text) := do
  let (out, stack) ← (split expr).foldlM s.convert ([], [])
  return out ++ stack

/-- `Integer.parseInt` -/
def parseInt (s : Text) : Except Exception Value :=
  match SimpleDb.parseInt s with
  | .ok v => .ok v
  | .error _ => .error .numberFormat

def pop : List Value → Except Exception (Value × List Value)
  | [] => .error .emptyStack
  | v :: stack => .ok (v, stack)

/-- `op2 / op1` -/
def divide (op2 op1 : Value) : Except Exception Value :=
  if op1 = 0 then .error .arithmetic else .ok (op2.sdiv op1)

/-- The body of the loop of `evalutePostfix`. -/
def evaluteStep (stack : List Value) (s : Text) : Except Exception (List Value) :=
  if isOperand s then do
    let v ← parseInt s
    return v :: stack
  else if isOperator s then do
    let (op1, stack) ← pop stack
    let (op2, stack) ← pop stack
    if s = ['+'] then return (op2 + op1) :: stack
    else if s = ['-'] then return (op2 - op1) :: stack
    else if s = ['*'] then return (op2 * op1) :: stack
    else if s = ['/'] then do
      let result ← divide op2 op1
      return result :: stack
    else return stack
  else return stack

def evalutePostfix (l : List Text) : Except Exception Value := do
  let stack ← l.foldlM evaluteStep []
  let (result, _) ← pop stack
  return result

def Solution.evalute (s : Solution) (expr : Text) : Except Exception Value := do
  evalutePostfix (← s.convert2Postfix expr)

/-! ## Expressions -/

inductive Op
  | add
  | sub
  | mul
  | div
deriving DecidableEq

def Op.text : Op → Text
  | add => ['+']
  | sub => ['-']
  | mul => ['*']
  | div => ['/']

/-- How tightly an operator binds. -/
def Op.level : Op → Int
  | add => 1
  | sub => 1
  | mul => 2
  | div => 2

def Op.apply : Op → Value → Value → Except Exception Value
  | add, a, b => .ok (a + b)
  | sub, a, b => .ok (a - b)
  | mul, a, b => .ok (a * b)
  | div, a, b => divide a b

/-- The digits of a number of at most `2 ^ 31 - 1`. -/
structure Literal where
  digits : Text
  ne_nil : digits ≠ []
  isDigit : digits.all Char.isDigit
  lt : Nat.ofDigitChars 10 digits 0 < 2 ^ 31

def Literal.value (n : Literal) : Value := BitVec.ofNat 32 (Nat.ofDigitChars 10 n.digits 0)

/-- A product of literals. -/
inductive Term
  | literal (n : Literal)
  | binary (t : Term) (op : Op) (h : op.level = 2) (n : Literal)

/-- The syntax tree: a sum of terms. -/
inductive Expression
  | term (t : Term)
  | binary (e : Expression) (op : Op) (h : op.level = 1) (t : Term)

namespace Term

def eval : Term → Except Exception Value
  | literal n => .ok n.value
  | binary t op _ n => do op.apply (← t.eval) n.value

def tokens : Term → List Text
  | literal n => [n.digits]
  | binary t op _ n => t.tokens ++ [op.text, n.digits]

def ops : Term → List Op
  | literal _ => []
  | binary t op _ _ => t.ops ++ [op]

/-- The operands in front of their operator. -/
def behind : Term → List Text
  | literal n => [n.digits]
  | binary t op _ n => t.behind ++ [n.digits, op.text]

end Term

namespace Expression

def eval : Expression → Except Exception Value
  | term t => t.eval
  | binary e op _ t => do
    let a ← e.eval
    let b ← t.eval
    op.apply a b

def tokens : Expression → List Text
  | term t => t.tokens
  | binary e op _ t => e.tokens ++ op.text :: t.tokens

def ops : Expression → List Op
  | term t => t.ops
  | binary e op _ t => e.ops ++ op :: t.ops

def behind : Expression → List Text
  | term t => t.behind
  | binary e op _ t => e.behind ++ t.behind ++ [op.text]

/-- The tokens with a single space between them. -/
def text (e : Expression) : Text := List.intercalate [' '] e.tokens

end Expression

/-! ## Tokens -/

@[simp] theorem isOperator_text (op : Op) : isOperator op.text = true := by cases op <;> rfl

@[simp] theorem isOperand_text (op : Op) : isOperand op.text = false := by cases op <;> rfl

theorem isOperand_digits (n : Literal) : isOperand n.digits = true := by
  rw [isOperand, List.all_eq_true]
  intro c hc
  have hdigit := List.all_eq_true.1 n.isDigit c hc
  simp only [Char.isDigit, Bool.and_eq_true, decide_eq_true_eq] at hdigit
  simp only [Bool.not_eq_true', Bool.or_eq_false_iff, decide_eq_false_iff_not, gt_iff_lt]
  have hlow : '0' ≤ c := hdigit.1
  have hhigh : c ≤ '9' := hdigit.2
  exact ⟨Char.not_lt.2 hlow, Char.not_lt.2 hhigh⟩

theorem isOperator_digits (n : Literal) : isOperator n.digits = false := by
  have hdigit := n.isDigit
  by_contra h
  rw [Bool.not_eq_false, isOperator] at h
  simp only [Bool.or_eq_true, decide_eq_true_eq] at h
  obtain ((h | h) | h) | h := h <;> rw [h] at hdigit <;> revert hdigit <;> decide

theorem parseDigits_digits (n : Literal) :
    SimpleDb.parseDigits false n.digits = .ok n.value := by
  have hlt := n.lt
  have hok : ¬ (n.digits = [] ∨ ¬ n.digits.all Char.isDigit) := by
    simp [n.ne_nil, n.isDigit]
  rw [Literal.value, ← BitVec.ofInt_natCast]
  unfold SimpleDb.parseDigits
  rw [if_neg hok]
  generalize Nat.ofDigitChars 10 n.digits 0 = k at hlt ⊢
  exact if_pos ⟨by omega, by omega⟩

theorem parseInt_digits (n : Literal) : parseInt n.digits = .ok n.value := by
  have hparse : SimpleDb.parseInt n.digits = SimpleDb.parseDigits false n.digits := by
    have hdigit := n.isDigit
    unfold SimpleDb.parseInt
    split
    next ds h =>
      rw [h] at hdigit
      exact absurd hdigit (by simp [Char.isDigit])
    next ds h =>
      rw [h] at hdigit
      exact absurd hdigit (by simp [Char.isDigit])
    next => rfl
  rw [parseInt, hparse, parseDigits_digits]

/-- A token has a character and no space. -/
def IsToken (s : Text) : Prop := s ≠ [] ∧ ' ' ∉ s

theorem isToken_text (op : Op) : IsToken op.text := by
  cases op <;> exact ⟨by decide, by decide⟩

theorem isToken_digits (n : Literal) : IsToken n.digits := by
  refine ⟨n.ne_nil, fun h => ?_⟩
  have hdigit := List.all_eq_true.1 n.isDigit _ h
  revert hdigit
  decide

theorem parts_intercalate {s : Text} {l : List Text} (h : ∀ t ∈ s :: l, IsToken t) :
    parts (List.intercalate [' '] (s :: l)) = s :: l := by
  induction l generalizing s with
  | nil => simpa using SimpleDb.parts_word (h s List.mem_cons_self).2
  | cons t l ih =>
    have hs : ' ' ∉ s := (h s List.mem_cons_self).2
    have hcons : List.intercalate [' '] (s :: t :: l) =
        s ++ ' ' :: List.intercalate [' '] (t :: l) := by
      simp [List.intercalate, List.intersperse]
    rw [hcons, SimpleDb.parts_append hs, ih fun u hu => h u (List.mem_cons_of_mem _ hu)]

theorem split_intercalate {s : Text} {l : List Text} (h : ∀ t ∈ s :: l, IsToken t) :
    split (List.intercalate [' '] (s :: l)) = s :: l := by
  have hparts := parts_intercalate h
  unfold split
  split
  next =>
    have hlast : (s :: l).getLast (by simp) ≠ [] := (h _ (List.getLast_mem _)).1
    rw [hparts, List.rdropWhile_eq_self_iff]
    intro _
    simpa using hlast
  next hspace =>
    rw [SimpleDb.parts_word hspace] at hparts
    exact hparts

/-! ## The table -/

/-- The table has the levels of the operators in `l`. -/
def Solution.Knows (s : Solution) (l : List Op) : Prop := ∀ op ∈ l, s.map op.text = some op.level

section
variable {s : Solution} {l : List Op} {out stack : List Text} {op : Op}

theorem Solution.Knows.greater (h : s.Knows l) {a b : Op} (ha : a ∈ l) (hb : b ∈ l) :
    s.operatorGreaterThan a.text b.text = .ok (b.level ≤ a.level : Bool) := by
  rw [Solution.operatorGreaterThan, h a ha, h b hb]

/-- What binds as tightly as the operator leaves the stack. -/
theorem Solution.Knows.popOperators (h : s.Knows l) (hop : op ∈ l) (out : List Text)
    {hi lo : List Op} (hhi : ∀ a ∈ hi, a ∈ l ∧ op.level ≤ a.level)
    (hlo : ∀ a ∈ lo, a ∈ l ∧ a.level < op.level) :
    s.popOperators op.text out (hi.map Op.text ++ lo.map Op.text) =
      .ok (out ++ hi.map Op.text, lo.map Op.text) := by
  induction hi generalizing out with
  | nil =>
    cases lo with
    | nil => simp [Solution.popOperators]
    | cons a lo =>
      obtain ⟨ha, hlt⟩ := hlo a List.mem_cons_self
      simp [Solution.popOperators, h.greater ha hop, not_le.2 hlt, bind, Except.bind, pure,
        Except.pure]
  | cons a hi ih =>
    obtain ⟨ha, hle⟩ := hhi a List.mem_cons_self
    have hrest := ih (out ++ [a.text]) fun b hb => hhi b (List.mem_cons_of_mem _ hb)
    simp only [List.map_cons, List.cons_append, Solution.popOperators, h.greater ha hop, hle,
      decide_true, bind, Except.bind, if_true, hrest]
    simp

theorem convert_digits (n : Literal) :
    s.convert (out, stack) n.digits = .ok (out ++ [n.digits], stack) := by
  simp [Solution.convert, isOperator_digits, isOperand_digits, pure, Except.pure]

theorem Solution.Knows.convert (h : s.Knows l) (hop : op ∈ l) (out : List Text) {hi lo : List Op}
    (hhi : ∀ a ∈ hi, a ∈ l ∧ op.level ≤ a.level) (hlo : ∀ a ∈ lo, a ∈ l ∧ a.level < op.level) :
    s.convert (out, hi.map Op.text ++ lo.map Op.text) op.text =
      .ok (out ++ hi.map Op.text, (op :: lo).map Op.text) := by
  simp [Solution.convert, h.popOperators hop out hhi hlo, bind, Except.bind, pure, Except.pure]

end

/-! ## From infix to postfix -/

section
variable {s : Solution} {l : List Op} {out : List Text}

/-- The operators of a term that are left on the stack lie above those that were there. -/
theorem Solution.Knows.term (h : s.Knows l) {t : Term} (ht : ∀ op ∈ t.ops, op ∈ l) (out : List Text)
    (lo : List Op) (hlo : ∀ a ∈ lo, a ∈ l ∧ a.level = 1) : ∃ (post : List Text) (hi : List Op),
    t.tokens.foldlM s.convert (out, lo.map Op.text) =
      .ok (out ++ post, (hi ++ lo).map Op.text) ∧
    (∀ a ∈ hi, a ∈ l ∧ a.level = 2) ∧ post ++ hi.map Op.text = t.behind := by
  induction t with
  | literal n =>
    refine ⟨[n.digits], [], ?_, nofun, by simp [Term.behind]⟩
    simp [Term.tokens, convert_digits, bind, Except.bind, pure, Except.pure]
  | binary t op hlevel n ih =>
    obtain ⟨post, hi, hrun, hhi, hpost⟩ := ih fun a ha => ht a (by simp [Term.ops, ha])
    have hop : op ∈ l := ht op (by simp [Term.ops])
    have hpush := h.convert hop (out ++ post)
      (fun a ha => ⟨(hhi a ha).1, by rw [hlevel, (hhi a ha).2]⟩)
      (fun a ha => ⟨(hlo a ha).1, by rw [hlevel, (hlo a ha).2]; decide⟩)
    refine ⟨post ++ hi.map Op.text ++ [n.digits], [op], ?_, ?_, ?_⟩
    · rw [Term.tokens, List.foldlM_append, hrun, List.map_append]
      simp [hpush, convert_digits, bind, Except.bind, pure, Except.pure]
    · intro a ha
      rw [List.mem_singleton.1 ha]
      exact ⟨hop, hlevel⟩
    · rw [hpost]
      simp [Term.behind]

theorem Solution.Knows.expression (h : s.Knows l) {e : Expression} (he : ∀ op ∈ e.ops, op ∈ l) :
    ∃ (post : List Text) (ops : List Op),
    e.tokens.foldlM s.convert ([], []) = .ok (post, ops.map Op.text) ∧
    (∀ a ∈ ops, a ∈ l) ∧ post ++ ops.map Op.text = e.behind := by
  induction e with
  | term t =>
    obtain ⟨post, hi, hrun, hhi, hpost⟩ := h.term (t := t) he [] [] nofun
    refine ⟨post, hi, ?_, fun a ha => (hhi a ha).1, hpost⟩
    simpa [Expression.tokens] using hrun
  | binary e op hlevel t ih =>
    obtain ⟨post, ops, hrun, hops, hpost⟩ := ih fun a ha => he a (by simp [Expression.ops, ha])
    have hop : op ∈ l := he op (by simp [Expression.ops])
    -- every operator binds as tightly as `+` and `-`
    have hlow : ∀ a : Op, op.level ≤ a.level := by
      intro a
      rw [hlevel]
      cases a <;> decide
    have hpush := @h.convert _ _ op hop post ops []
      (fun a ha => ⟨hops a ha, hlow a⟩) nofun
    obtain ⟨post', hi, hrun', hhi, hpost'⟩ := h.term (t := t)
      (fun a ha => he a (by simp [Expression.ops, ha])) (post ++ ops.map Op.text) [op]
      (by simpa using ⟨hop, hlevel⟩)
    refine ⟨post ++ ops.map Op.text ++ post', hi ++ [op], ?_, ?_, ?_⟩
    · rw [List.map_nil, List.append_nil] at hpush
      rw [Expression.tokens, List.foldlM_append, hrun]
      simp only [List.foldlM_cons, hpush, bind, Except.bind]
      exact hrun'
    · intro a ha
      cases List.mem_append.1 ha with
      | inl ha => exact (hhi a ha).1
      | inr ha => exact List.mem_singleton.1 ha ▸ hop
    · rw [hpost, List.map_append, Expression.behind, ← hpost']
      simp

theorem Term.tokens_cons (t : Term) : ∃ v l, t.tokens = v :: l := by
  induction t with
  | literal n => exact ⟨n.digits, [], rfl⟩
  | binary t op _ n ih =>
    obtain ⟨v, l, h⟩ := ih
    exact ⟨v, l ++ [op.text, n.digits], by rw [Term.tokens, h]; rfl⟩

theorem Expression.tokens_cons (e : Expression) : ∃ v l, e.tokens = v :: l := by
  induction e with
  | term t => exact t.tokens_cons
  | binary e op _ t ih =>
    obtain ⟨v, l, h⟩ := ih
    exact ⟨v, l ++ op.text :: t.tokens, by rw [Expression.tokens, h]; rfl⟩

theorem Term.isToken (t : Term) : ∀ v ∈ t.tokens, IsToken v := by
  induction t with
  | literal n => simpa [Term.tokens] using isToken_digits n
  | binary t op _ n ih =>
    intro v hv
    simp only [Term.tokens, List.mem_append, List.mem_cons, List.not_mem_nil, or_false] at hv
    obtain hv | rfl | rfl := hv
    · exact ih v hv
    · exact isToken_text op
    · exact isToken_digits n

theorem Expression.isToken (e : Expression) : ∀ v ∈ e.tokens, IsToken v := by
  induction e with
  | term t => exact t.isToken
  | binary e op _ t ih =>
    intro v hv
    simp only [Expression.tokens, List.mem_append, List.mem_cons] at hv
    obtain hv | rfl | hv := hv
    · exact ih v hv
    · exact isToken_text op
    · exact t.isToken v hv

theorem split_text (e : Expression) : split e.text = e.tokens := by
  obtain ⟨v, l, htokens⟩ := e.tokens_cons
  have htoken := e.isToken
  rw [htokens] at htoken
  rw [Expression.text, htokens, split_intercalate htoken]

theorem Solution.Knows.convert2Postfix {e : Expression} (h : s.Knows e.ops) :
    s.convert2Postfix e.text = .ok e.behind := by
  obtain ⟨post, ops, hrun, _, hpost⟩ := h.expression (e := e) fun _ => id
  rw [Solution.convert2Postfix, split_text, hrun, ← hpost]
  rfl

end

/-! ## The stack machine -/

theorem evaluteStep_digits (n : Literal) (stack : List Value) :
    evaluteStep stack n.digits = .ok (n.value :: stack) := by
  simp [evaluteStep, isOperand_digits, parseInt_digits, bind, Except.bind, pure, Except.pure]

theorem evaluteStep_text (op : Op) (a b : Value) (stack : List Value) :
    evaluteStep (b :: a :: stack) op.text = (do return (← op.apply a b) :: stack) := by
  rw [evaluteStep, isOperand_text, isOperator_text]
  cases op <;> rfl

/-- The operands in front of their operator leave the value of the term. -/
theorem Term.run_behind (t : Term) (stack : List Value) :
    t.behind.foldlM evaluteStep stack = (do return (← t.eval) :: stack) := by
  induction t generalizing stack with
  | literal n => simp [Term.behind, evaluteStep_digits, Term.eval, bind, Except.bind]
  | binary t op _ n ih =>
    rw [Term.behind, List.foldlM_append, ih, Term.eval]
    cases t.eval with
    | error e => rfl
    | ok a =>
      simp only [pure, Except.pure, bind, Except.bind, List.foldlM_cons, List.foldlM_nil,
        evaluteStep_digits, evaluteStep_text]
      cases op.apply a n.value <;> rfl

theorem Expression.run_behind (e : Expression) (stack : List Value) :
    e.behind.foldlM evaluteStep stack = (do return (← e.eval) :: stack) := by
  induction e generalizing stack with
  | term t => exact t.run_behind stack
  | binary e op _ t ih =>
    rw [Expression.behind, List.foldlM_append, List.foldlM_append, ih, Expression.eval]
    cases e.eval with
    | error e => rfl
    | ok a =>
      simp only [pure, Except.pure, bind, Except.bind, Term.run_behind]
      cases t.eval with
      | error e => rfl
      | ok b =>
        simp only [List.foldlM_cons, List.foldlM_nil, evaluteStep_text, bind, Except.bind, pure,
          Except.pure]
        cases op.apply a b <;> rfl

theorem evalutePostfix_behind (e : Expression) : evalutePostfix e.behind = e.eval := by
  rw [evalutePostfix, e.run_behind]
  cases e.eval <;> rfl

/-- **A table that has the operators gives the value of the expression.** -/
theorem Solution.evalute_eq {s : Solution} {e : Expression} (h : s.Knows e.ops) :
    s.evalute e.text = e.eval := by
  rw [Solution.evalute, h.convert2Postfix]
  exact evalutePostfix_behind e

/-! ## What the input shows -/

/-- An operator and the number behind it, as they stand in the input. -/
def pair (p : Op × Literal) : List Text := [p.1.text, p.2.digits]

theorem Term.flat (t : Term) : ∃ (n : Literal) (ps : List (Op × Literal)),
    t.tokens = n.digits :: ps.flatMap pair ∧ t.ops = ps.map Prod.fst := by
  induction t with
  | literal n => exact ⟨n, [], rfl, rfl⟩
  | binary t op _ n ih =>
    obtain ⟨m, ps, htokens, hops⟩ := ih
    refine ⟨m, ps ++ [(op, n)], ?_, ?_⟩
    · rw [Term.tokens, htokens]
      simp [pair]
    · rw [Term.ops, hops]
      simp

theorem Expression.flat (e : Expression) : ∃ (n : Literal) (ps : List (Op × Literal)),
    e.tokens = n.digits :: ps.flatMap pair ∧ e.ops = ps.map Prod.fst := by
  induction e with
  | term t => exact t.flat
  | binary e op _ t ih =>
    obtain ⟨m, ps, htokens, hops⟩ := ih
    obtain ⟨n, qs, htokens', hops'⟩ := t.flat
    refine ⟨m, ps ++ (op, n) :: qs, ?_, ?_⟩
    · rw [Expression.tokens, htokens, htokens']
      simp [pair]
    · rw [Expression.ops, hops, hops']
      simp

/-- A number behind the expression: `*` and `/` take it into the last term. -/
theorem Expression.exists_push (e : Expression) (op : Op) (n : Literal) :
    ∃ e' : Expression, e'.tokens = e.tokens ++ pair (op, n) := by
  by_cases hlevel : op.level = 1
  · exact ⟨.binary e op hlevel (.literal n), rfl⟩
  · have htight : op.level = 2 := by cases op <;> first | rfl | exact absurd rfl hlevel
    cases e with
    | term t => exact ⟨.term (.binary t op htight n), rfl⟩
    | binary e op' h t =>
      refine ⟨.binary e op' h (.binary t op htight n), ?_⟩
      simp [Expression.tokens, Term.tokens, pair]

/-- **Every input of the language is the text of a syntax tree.** -/
theorem Expression.exists_of_flat (n : Literal) (ps : List (Op × Literal)) :
    ∃ e : Expression, e.tokens = n.digits :: ps.flatMap pair := by
  induction ps using List.reverseRecOn with
  | nil => exact ⟨.term (.literal n), rfl⟩
  | append_singleton ps p ih =>
    obtain ⟨e, he⟩ := ih
    obtain ⟨e', he'⟩ := e.exists_push p.1 p.2
    refine ⟨e', ?_⟩
    rw [he', he]
    simp

/-! ## The missing `-` -/

theorem new_map_sub : Solution.new.map Op.sub.text = none := rfl

theorem new_map {op : Op} (h : op ≠ .sub) : Solution.new.map op.text = some op.level := by
  cases op with
  | sub => exact absurd rfl h
  | add => rfl
  | mul => rfl
  | div => rfl

theorem new_knows {l : List Op} (h : Op.sub ∉ l) : Solution.new.Knows l :=
  fun _ hop => new_map fun hsub => h (hsub ▸ hop)

section
variable {op : Op} {v : Text} {out stack : List Text}

/-- The table is looked up for the top of the stack first. -/
theorem convert_null (h : Solution.new.map v = none ∨ op = .sub) :
    Solution.new.convert (out, v :: stack) op.text = .error .nullPointer := by
  have hgreater : Solution.new.operatorGreaterThan v op.text = .error .nullPointer := by
    rw [Solution.operatorGreaterThan]
    cases h with
    | inl hv => rw [hv]
    | inr hop =>
      rw [hop, new_map_sub]
      cases Solution.new.map v <;> rfl
  simp [Solution.convert, Solution.popOperators, hgreater, bind, Except.bind]

theorem popOperators_outcome (v : Text) (out stack : List Text) :
    Outcome (Solution.new.popOperators v out stack) (fun _ => True) (· = .nullPointer) := by
  induction stack generalizing out with
  | nil => trivial
  | cons top stack ih =>
    have hgreater : Outcome (Solution.new.operatorGreaterThan top v) (fun _ => True)
        (· = .nullPointer) := by
      rw [Solution.operatorGreaterThan]
      split
      · trivial
      · rfl
    rw [Solution.popOperators]
    refine hgreater.bind fun b _ => ?_
    cases b with
    | true => exact ih _
    | false => trivial

/-- An operator behind another one is compared with it. -/
theorem run_null {ps : List (Op × Literal)} (h : Op.sub ∈ ps.map Prod.fst) :
    (ps.flatMap pair).foldlM Solution.new.convert (out, v :: stack) = .error .nullPointer := by
  induction ps generalizing out v stack with
  | nil => exact absurd h List.not_mem_nil
  | cons p ps ih =>
    rw [List.flatMap_cons, pair, List.cons_append, List.foldlM_cons]
    by_cases hp : p.1 = .sub
    · rw [convert_null (.inr hp)]
      rfl
    · have hrest : Op.sub ∈ ps.map Prod.fst := by
        rw [List.map_cons] at h
        exact (List.mem_cons.1 h).resolve_left fun heq => hp heq.symm
      have hpop := popOperators_outcome p.1.text out (v :: stack)
      rw [Solution.convert, isOperator_text]
      cases hrun : Solution.new.popOperators p.1.text out (v :: stack) with
      | error e =>
        rw [hrun] at hpop
        rw [show e = .nullPointer from hpop]
        rfl
      | ok state =>
        simp only [bind, Except.bind, pure, Except.pure, if_true, List.cons_append,
          List.nil_append, List.foldlM_cons, convert_digits]
        exact ih hrest

end

/-! ## Outcomes -/

/-- A value, or a division by zero. -/
def Evaluates (r : Except Exception Value) : Prop := Outcome r (fun _ => True) (· = .arithmetic)

theorem Op.apply_evaluates (op : Op) (a b : Value) : Evaluates (op.apply a b) := by
  cases op with
  | div =>
    rw [Op.apply, divide]
    split
    · exact rfl
    · trivial
  | _ => trivial

theorem Term.eval_evaluates (t : Term) : Evaluates t.eval := by
  induction t with
  | literal n => trivial
  | binary t op _ n ih => exact Outcome.bind ih fun a _ => op.apply_evaluates a n.value

theorem Expression.eval_evaluates (e : Expression) : Evaluates e.eval := by
  induction e with
  | term t => exact t.eval_evaluates
  | binary e op _ t ih =>
    exact Outcome.bind ih fun a _ => Outcome.bind t.eval_evaluates fun b _ => op.apply_evaluates a b

/-- The first operator is compared with nothing. -/
theorem convert_first (s : Solution) (p : Op × Literal) (out : List Text) :
    (pair p).foldlM s.convert (out, []) = .ok (out ++ [p.2.digits], [p.1.text]) := by
  have hpush : s.convert (out, []) p.1.text = .ok (out, [p.1.text]) := by
    simp [Solution.convert, Solution.popOperators, bind, Except.bind, pure, Except.pure]
  simp [pair, hpush, convert_digits, bind, Except.bind, pure, Except.pure]

/-- One operator is compared with nothing, so the table is not looked up. -/
theorem convert2Postfix_short {e : Expression} (h : e.ops.length ≤ 1) (s s' : Solution) :
    s.convert2Postfix e.text = s'.convert2Postfix e.text := by
  obtain ⟨n, ps, htokens, hops⟩ := e.flat
  rw [hops, List.length_map] at h
  rw [Solution.convert2Postfix, Solution.convert2Postfix, split_text, htokens]
  match ps, h with
  | [], _ => simp [convert_digits, bind, Except.bind]
  | [p], _ => simp [convert_digits, convert_first, bind, Except.bind]

theorem convert2Postfix_null {e : Expression} (h : 2 ≤ e.ops.length) (hsub : Op.sub ∈ e.ops) :
    Solution.new.convert2Postfix e.text = .error .nullPointer := by
  obtain ⟨n, ps, htokens, hops⟩ := e.flat
  rw [hops, List.length_map] at h
  rw [hops] at hsub
  rw [Solution.convert2Postfix, split_text, htokens]
  match ps, h with
  | p :: q :: ps, _ =>
    have hfirst := convert_first Solution.new p [n.digits]
    have hrun : ((q :: ps).flatMap pair).foldlM Solution.new.convert
        ([n.digits] ++ [p.2.digits], [p.1.text]) = .error .nullPointer := by
      rw [List.map_cons] at hsub
      cases List.mem_cons.1 hsub with
      | inl hp =>
        rw [← hp, List.flatMap_cons, List.foldlM_append, pair, List.foldlM_cons,
          convert_null (.inl new_map_sub)]
        rfl
      | inr hrest => exact run_null hrest
    rw [List.flatMap_cons, List.foldlM_cons, convert_digits]
    simp only [bind, Except.bind, List.nil_append, List.foldlM_append, hfirst, hrun]

/-- **An expression has its value unless a `-` meets another operator.** -/
theorem evalute_iff (e : Expression) :
    Solution.new.evalute e.text = e.eval ↔ e.ops.length ≤ 1 ∨ Op.sub ∉ e.ops := by
  by_cases hsub : Op.sub ∈ e.ops
  · by_cases hshort : e.ops.length ≤ 1
    · refine iff_of_true ?_ (.inl hshort)
      have hfull : (Solution.new.put Op.sub.text 1).Knows e.ops := by
        intro op _
        cases op <;> rfl
      rw [← Solution.evalute_eq hfull, Solution.evalute, Solution.evalute,
        convert2Postfix_short hshort]
    · refine iff_of_false ?_ (by simp [hshort, hsub])
      have hnull := convert2Postfix_null (Nat.lt_of_not_le hshort) hsub
      have heval := e.eval_evaluates
      rw [Solution.evalute, hnull]
      intro heq
      rw [← heq] at heval
      have habsurd : Exception.nullPointer = .arithmetic := heval
      exact absurd habsurd (by decide)
  · exact iff_of_true (Solution.evalute_eq (new_knows hsub)) (.inr hsub)

/-- The comment's first example, whose value is 14. -/
theorem evalute_comment : (∃ e : Expression, e.text = "15 + 2 - 3".toList ∧ e.eval = .ok 14) ∧
    Solution.new.evalute "15 + 2 - 3".toList = .error .nullPointer := by
  refine ⟨⟨.binary (.binary (.term (.literal ⟨['1', '5'], by decide, by decide, by decide⟩))
    .add rfl (.literal ⟨['2'], by decide, by decide, by decide⟩)) .sub rfl
    (.literal ⟨['3'], by decide, by decide, by decide⟩), by decide, by decide⟩, by decide⟩

end MathExpression
