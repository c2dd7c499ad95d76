import LineBasic.Expression.Builtin
import LineBasic.Value.Arithmetic

/-! Evaluation of the expression at the cursor. Signs are collected before an operand and applied to
it from the inside out, each after the operators that bind tighter; binary operators are applied by
climbing through their levels. What stands in brackets is evaluated by `nested`, one level of depth
further down, and depth is limited: so the levels still to open bound the recursion through
brackets, and the tokens left bound the operators at one level. -/

namespace LineBasic

/-- How tightly a binary operator binds. -/
def Operator.level? : Operator → Option Nat
  | .or => some 1
  | .and => some 2
  | .equal | .notEqual | .less | .lessEqual | .greater | .greaterEqual => some 4
  | .plus | .minus => some 5
  | .times | .divide => some 6
  | .power => some 8
  | .not => none

/-- The least level of what may stand to the right of an operator; only powers group to the right. -/
def Operator.rightLevel (o : Operator) (level : Nat) : Nat :=
  if o == .power then level else level + 1

/-- What may stand before an operand. -/
inductive Sign where
  | plus | minus | not
  deriving DecidableEq, Repr

namespace Sign

def ofToken? : Token → Option Sign
  | .operator .plus => some .plus
  | .operator .minus => some .minus
  | .operator .not => some .not
  | _ => none

/-- Operators of this level and above belong to the operand of the sign. -/
def level : Sign → Nat
  | plus | minus => 7
  | not => 4

def apply : Sign → Value → Except Condition Value
  | plus, v => do
    let _ ← v.asNumber
    return v
  | minus, v => v.negate
  | not, v => v.complement

/-- The signs at the front of some tokens. -/
def leading : List Token → List Sign
  | [] => []
  | t :: rest =>
    match ofToken? t with
    | some s => s :: leading rest
    | none => []

end Sign

namespace Expression

/-- The deepest nesting of brackets, subscripts, arguments and function bodies. -/
def maxDepth : Nat := 64

/-- Evaluate inside one more bracket. The depth is the same again afterwards, also on a condition. -/
def bracketed (nested : Eval Value) : Eval Value := fun w =>
  if maxDepth ≤ w.depth then (.error (.of .formulaTooComplex), w)
  else
    let (r, w) := nested { w with depth := w.depth + 1 }
    (r, { w with depth := w.depth - 1 })

/-- A numeral as a value. -/
def literal (s : String) : Except Condition Value :=
  match Numeral.ofChars? s.toList with
  | some n => if n.toFloat.isFinite then .ok (.number n.toFloat) else .error (.of .overflow)
  | none => .error (.of .syntaxError)

/-- Subscripts in brackets, or none. -/
def subscripts (nested : Eval Value) : Eval (List Int) := do
  if ← Eval.accept .leftParen then
    let indexes ← Eval.list do (← bracketed nested).asShort
    Eval.expect .rightParen
    return indexes
  else return []

/-- The cell of a variable, whose name was just passed, with its subscripts. -/
def subscripted (nested : Eval Value) (name : String) : Eval Cell := do
  let indexes ← subscripts nested
  Eval.onStore (·.locate name indexes)

/-- Arguments in brackets, at least one. -/
def arguments (nested : Eval Value) : Eval (List Value) := do
  Eval.expect .leftParen
  let args ← Eval.list (bracketed nested)
  Eval.expect .rightParen
  return args

/-- The arguments of a built-in function. -/
def builtinArguments (nested : Eval Value) (f : Function) : Eval (List Value) :=
  if Builtin.takesArguments f then arguments nested else pure []

def builtinCall (ctx : Context) (nested : Eval Value) (f : Function) : Eval Value := do
  let args ← builtinArguments nested f
  let r ← Builtin.call ctx (← get).random f args
  modify ({ · with random := r.2 })
  return r.1

/-- Bind parameters to their arguments one after another, and give what each name was bound to, the
last first. -/
def shadow (s : Store) : List (String × Value) → List (String × Option Binding) × Store
  | [] => ([], s)
  | (name, v) :: rest =>
    let (old, s) := s.swap name (some (.scalar v))
    let (saved, s) := shadow s rest
    (saved ++ [(name, old)], s)

/-- Bind names again to what they were bound to. -/
def unshadow (s : Store) : List (String × Option Binding) → Store
  | [] => s
  | (name, old) :: rest => unshadow (s.swap name old).2 rest

/-- Evaluate the body of a function with its parameters bound. The body has to be used up. Cursor and
parameters are afterwards what they were, also on a condition. -/
def inBody (nested : Eval Value) (f : UserFunction) (args : List Value) : Eval Value := fun w =>
  let (saved, store) := shadow w.store (f.params.zip args)
  let (r, inner) := bracketed nested { w with store, cursor := .start f.body }
  let r := match r with
    | .ok v => if inner.cursor.atEnd then .ok v else .error (.of .syntaxError)
    | .error e => .error e
  (r, { inner with cursor := w.cursor, store := unshadow inner.store saved })

/-- The call of a function that the program defines, after `FN`. -/
def userCall (ctx : Context) (nested : Eval Value) : Eval Value := do
  let name ← Eval.name
  match ctx.functions[name]? with
  | none => throw (.of .undefinedFunction)
  | some f =>
    let args ← arguments nested
    require (args.length == f.params.length) Builtin.wrongCount
    require ((f.params.zip args).all fun (p, v) => isStringName p == v.isString) (.of .typeMismatch)
    let v ← inBody nested f args
    require (isStringName name == v.isString) (.of .typeMismatch)
    return v

/-- An operand without signs. -/
def atom (ctx : Context) (nested : Eval Value) : Eval Value := do
  match ← Eval.next? with
  | some (.number s) => literal s
  | some (.string s) => Value.ofString s
  | some (.name n) =>
    let c ← subscripted nested n
    return (← get).store.get c
  | some (.function f) => builtinCall ctx nested f
  | some (.word .FN) => userCall ctx nested
  | some .leftParen =>
    let v ← bracketed nested
    Eval.expect .rightParen
    return v
  | _ => throw (.of .syntaxError)

/-- Apply signs to an operand, the innermost first. `extend` takes in the operators that follow the
operand and bind tighter than a sign. -/
def applySigns (extend : Value → Nat → Eval Value) : List Sign → Value → Eval Value
  | [], v => pure v
  | s :: rest, v => do
    let v ← extend v s.level
    let v ← s.apply v
    applySigns extend rest v

/-- An operand with its signs. -/
def operand (atom : Eval Value) (extend : Value → Nat → Eval Value) : Eval Value := do
  let signs ← Eval.onCursor fun c =>
    let signs := Sign.leading c.rest
    (signs, c.skip signs.length)
  let v ← atom
  applySigns extend signs.reverse v

/-- The operator that comes next, if it binds at least as tightly as `least`, with its level. -/
def nextOperator? (least : Nat) (c : Cursor) : Option (Operator × Nat) :=
  match c.peek? with
  | some (.operator o) => (o.level?.filter (least ≤ ·)).map (o, ·)
  | _ => none

/-- Extend a left operand by the operators that follow and bind at least as tightly as `least`. There
are at most `n` tokens left, and so at most `n` operators. -/
def climb (atom : Eval Value) : Nat → Value → Nat → Eval Value
  | 0, left, _ => pure left
  | n + 1, left, least => do
    match nextOperator? least (← get).cursor with
    | none => return left
    | some (o, level) =>
      Eval.onCursor fun c => ((), c.advance)
      let right ← operand atom (climb atom n)
      let right ← climb atom n right (o.rightLevel level)
      let v ← Value.binary o left right
      climb atom n v least

/-- An expression of operators that bind at least as tightly as `least`. -/
def atLevel (atom : Eval Value) (least : Nat) : Eval Value := do
  let n ← Eval.tokensLeft
  let left ← operand atom (climb atom n)
  climb atom n left least

/-- An expression in which at most `levels` brackets may be open at once. -/
def within (ctx : Context) : Nat → Nat → Eval Value
  | 0, least => atLevel (atom ctx (throw (.of .formulaTooComplex))) least
  | levels + 1, least => atLevel (atom ctx (within ctx levels 1)) least

/-- The expression at the cursor, of operators that bind at least as tightly as `least`. -/
def evaluateAt (ctx : Context) (least : Nat) : Eval Value := do
  within ctx (maxDepth - (← get).depth) least

/-- The expression at the cursor. -/
def evaluate (ctx : Context) : Eval Value := evaluateAt ctx 1

/-- The expression at the cursor as a short integer. -/
def evaluateShort (ctx : Context) : Eval Int := do (← evaluate ctx).asShort

/-- A variable at the cursor, which may be assigned to. -/
def target (ctx : Context) : Eval Cell := do
  subscripted (evaluate ctx) (← Eval.name)

end Expression

end LineBasic
