import LineBasic.Machine.State

/-! Statements on the program itself: `LIST`, `DELETE` and `NEW`. -/

namespace LineBasic.Statement

/-- A range of lines: one number, or two around a minus sign of which either may be missing. -/
def lineRange : Eval (Nat × Nat) := do
  let start ← Eval.lineNumber?
  if ← Eval.accept (.operator .minus) then
    let stop ← Eval.lineNumber?
    return (start.getD 0, stop.getD maxLineNumber)
  else return (start.getD 0, start.getD maxLineNumber)

def list : Exec Flow := do
  let r ← lineRange
  let lines := (← get).program.list r.1 r.2
  Exec.write ("".intercalate (lines.map (· ++ "\n")))
  return .done

/-- A running program may not delete its own lines. -/
def delete : Exec Flow := do
  require (← get).isDirect (.of .unableToEdit)
  require (!(← Eval.atStatementEnd)) (.of .syntaxError)
  let r ← lineRange
  modify fun m => { m with program := m.program.delete r.1 r.2, continuation := none }
  return .done

def new : Exec Flow := do
  modify fun m =>
    { ({ m with program := .empty }).clear with line := none, cursor := m.cursor.skipLine }
  return .halted .finished

end LineBasic.Statement
