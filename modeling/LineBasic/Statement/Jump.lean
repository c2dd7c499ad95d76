import LineBasic.Machine.State

/-! Statements that direct execution: `GOTO`, `GOSUB`, `RETURN`, `ON`, `IF`, `RUN` and `CONT`. -/

namespace LineBasic.Statement

def transfer (n : Nat) : Exec Flow := do
  Exec.goto n
  return .moved

def goto : Exec Flow := do transfer (← Eval.lineNumber)

/-- Call the lines from `n` on as a subroutine. -/
def call (n : Nat) : Exec Flow := do
  let m ← get
  let _ ← m.program.get n
  let stack ← m.stack.push (.call m.position)
  set { m with stack }
  transfer n

def gosub : Exec Flow := do
  let n ← Eval.lineNumber
  Eval.endStatement
  call n

def ret : Exec Flow := do
  let m ← get
  match m.stack.top? with
  | some (.call p) =>
    set { m with stack := m.stack.pop }
    Exec.jump p
    return .moved
  | _ => throw (.of .returnWithoutGosub)

/-- A line number stands for a jump; anything else is a statement. -/
def branch : Exec Flow := do
  match ← Eval.lineNumber? with
  | some n => transfer n
  | none => return .again

/-- The branch after the `ELSE` that belongs here, or the end of the line. -/
def otherwise : Exec Flow := do
  let c := (← get).cursor
  match c.findElse? with
  | some n =>
    modify fun m => { m with cursor := c.seek n }
    branch
  | none =>
    Eval.skipLine
    return .done

def conditional : Exec Flow := do
  let holds ← (← Exec.expression).isTrue
  match ← Eval.next? with
  | some (.word .THEN) => if holds then branch else otherwise
  | some (.word .GOTO) => if holds then goto else otherwise
  | _ => throw (.of .syntaxError)

/-- `GOTO` or `GOSUB`; tells whether it is the latter. -/
def transferWord : Eval Bool := do
  match ← Eval.next? with
  | some (.word .GOTO) => return false
  | some (.word .GOSUB) => return true
  | _ => throw (.of .syntaxError)

/-- `ON` with a number: the line at that place of a list, if the list is long enough. -/
def select : Exec Flow := do
  let n ← Exec.short
  require (0 ≤ n && n ≤ 255) (.of .illegalQuantity)
  let calls ← transferWord
  let targets ← Eval.list Eval.lineNumber
  Eval.endStatement
  match (none :: targets.map some)[n.toNat]? with
  | some (some n) => if calls then call n else transfer n
  | _ => return .done

/-- Start the program afresh, from a line or from the first. -/
def run : Exec Flow := do
  let start ← Eval.lineNumber?
  Eval.endStatement
  modify Machine.clear
  match start.or ((← get).program.first?.map (·.number)) with
  | some n => transfer n
  | none =>
    Eval.skipLine
    return .halted .finished

def cont : Exec Flow := do
  require (← get).isDirect (.of .illegalDeferred)
  match (← get).continuation with
  | some c =>
    modify ({ · with continuation := none })
    Exec.jump c.position
    modify ({ · with handling := c.handling })
    return .moved
  | none => throw (.of .cannotContinue)

end LineBasic.Statement
