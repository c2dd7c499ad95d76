import LineBasic.Statement.Editing
import LineBasic.Statement.Input
import LineBasic.Statement.Jump
import LineBasic.Statement.Loop
import LineBasic.Statement.Print
import LineBasic.Statement.Trap
import LineBasic.Statement.Variables

/-! The statement at the cursor, found by its first word. -/

namespace LineBasic.Statement

/-- `ON` before `ERROR`, or before a number. -/
def on : Exec Flow := do
  if ← Eval.accept (.word .ERROR) then onError else select

/-- Look for an answer to an inquiry, and keep it if it still waits. -/
def pollInput (q : Inquiry) : Exec Flow := do
  match ← poll q with
  | some q =>
    modify ({ · with inquiry := some q })
    return .waiting
  | none =>
    Eval.endStatement
    return .done

def input : Exec Flow := do pollInput (← inquire)

def skipLine : Exec Flow := do
  Eval.skipLine
  return .done

def skipStatement : Exec Flow := do
  Eval.skipStatement
  return .done

/-- The statement that starts with a word, which was just passed. -/
def ofWord : Word → Exec Flow
  | .CLEAR => clear
  | .CONT => cont
  | .DATA => skipStatement
  | .DEF => define
  | .DELETE => delete
  | .DIM => dim
  | .ELSE | .REM => skipLine
  | .END => return .halted .ended
  | .ERROR => error
  | .FOR => forLoop
  | .GOSUB => gosub
  | .GOTO => goto
  | .IF => conditional
  | .INPUT => input
  | .LET => assignment
  | .LIST => list
  | .NEW => new
  | .NEXT => next
  | .ON => on
  | .PRINT => print
  | .READ => read
  | .RESTORE => restore
  | .RESUME => resume
  | .RETURN => ret
  | .RUN => run
  | .STOP => return .halted .interrupted
  | .SYSTEM => return .halted .system
  | .FN | .STEP | .THEN | .TO => throw (.of .syntaxError)

/-- The statement at the cursor. -/
def one : Exec Flow := do
  match ← Eval.peek? with
  | none | some .colon => return .done
  | some (.name _) => assignment
  | some t =>
    match t.statement? with
    | some w =>
      let _ ← Eval.next?
      ofWord w
    | none => throw (.of .syntaxError)

/-- The statement at the cursor, and those that start within it. There are at most `n` tokens left,
and each such start passes some. -/
def dispatch : Nat → Exec Flow
  | 0 => do
    Eval.endStatement
    return .done
  | n + 1 => do
    match ← one with
    | .again => dispatch n
    | .done =>
      Eval.endStatement
      return .done
    | flow => return flow

end LineBasic.Statement
