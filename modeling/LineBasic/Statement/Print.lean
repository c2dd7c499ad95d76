import LineBasic.Machine.State

/-! `PRINT`. -/

namespace LineBasic.Statement

/-- A number is followed by a space, a string by nothing. -/
def printed : Value → String
  | .string s => s
  | v => v.text ++ " "

/-- Print what is left of the statement, and tell whether a line feed is due. There are at most `n`
tokens left. -/
def printItems : Nat → Bool → Exec Bool
  | 0, due => return due
  | n + 1, due => do
    if ← Eval.atStatementEnd then return due
    else if ← Eval.accept .semicolon then printItems n false
    else if ← Eval.accept .comma then
      modify fun m => { m with tape := m.tape.comma }
      printItems n false
    else
      let v ← Exec.expression
      Exec.write (printed v)
      printItems n true

def print : Exec Flow := do
  let due ← printItems (← Eval.tokensLeft) true
  Exec.write (if due then "\n" else "")
  return .done

end LineBasic.Statement
