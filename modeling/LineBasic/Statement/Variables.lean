import LineBasic.Machine.State

/-! Statements on variables: `LET`, `DIM`, `DEF`, `READ`, `RESTORE` and `CLEAR`. -/

namespace LineBasic.Statement

def assignment : Exec Flow := do
  let c ← Exec.target
  Eval.expect (.operator .equal)
  let v ← Exec.expression
  Exec.assign c v
  return .done

/-- Dimension one array. -/
def dimOne (ctx : Context) : Eval Unit := do
  let name ← Eval.name
  Eval.expect .leftParen
  let bounds ← Eval.list (Expression.evaluateShort ctx)
  Eval.expect .rightParen
  Eval.onStore (·.dim name bounds)

def dim : Exec Flow := do
  let ctx ← Exec.context
  let _ ← Eval.list (dimOne ctx)
  return .done

/-- The body of a function is all that follows up to a colon, unread. -/
def functionBody : Eval (List Token) :=
  Eval.onCursor fun c => (c.rest.takeWhile (· != .colon), c.skipStatement)

def define : Exec Flow := do
  Exec.refuseDirect
  Eval.expect (.word .FN)
  let name ← Eval.name
  Eval.expect .leftParen
  let params ← Eval.list Eval.name
  Eval.expect .rightParen
  Eval.expect (.operator .equal)
  let body ← functionBody
  require (!body.isEmpty) (.of .syntaxError)
  modify fun m => { m with functions := m.functions.insert name ⟨params, body⟩ }
  return .done

/-- Take the next item of data. -/
def nextDatum : Exec Datum := do
  let r ← modifyGet fun (m : Machine) =>
    let (r, p) := Datum.read m.program m.data
    (r, { m with data := p })
  r

/-- An item as a value for a variable. A number is never quoted; what is none is an error of the line
with the data. -/
def datumValue (c : Cell) (d : Datum) : Except Condition Value :=
  if c.isString then Value.ofString d.text
  else match Number.read? d.text.toList with
    | some x => if d.quoted then .error ⟨.syntaxError, some d.line, ""⟩ else .ok (.number x)
    | none => .error ⟨.syntaxError, some d.line, ""⟩

def readOne : Exec Unit := do
  let c ← Exec.target
  let d ← nextDatum
  let v ← datumValue c d
  Exec.assign c v

def read : Exec Flow := do
  let n ← Eval.tokensLeft
  let _ ← separated (Eval.accept .comma : Exec Bool) readOne n
  return .done

def restore : Exec Flow := do
  match ← Eval.lineNumber? with
  | some n =>
    let _ ← (← get).program.get n
    modify ({ · with data := some ⟨n, 0, false⟩ })
    return .done
  | none =>
    modify ({ · with data := none })
    return .done

def clear : Exec Flow := do
  modify Machine.clear
  return .done

end LineBasic.Statement
