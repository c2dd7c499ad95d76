import LineBasic.Machine.State

/-! Error handling: `ERROR`, `ON ERROR` and `RESUME`. -/

namespace LineBasic.Statement

/-- Raise the condition with a number. -/
def error : Exec Flow := do
  let n ← Exec.short
  match n with
  | .ofNat n => throw (.of ((Fault.ofNumber? n).getD .illegalQuantity))
  | .negSucc _ => throw (.of .illegalQuantity)

/-- `ON ERROR GOTO`. Line 0 ends trapping, and within a handler raises again the condition that it
serves. -/
def onError : Exec Flow := do
  Eval.expect (.word .GOTO)
  let n ← Eval.lineNumber
  let m ← get
  if n == 0 then
    match m.failure.filter fun _ => m.handling with
    | some f =>
      set { m with trap := none, handling := false }
      throw ⟨f.fault, f.line, ""⟩
    | none =>
      set { m with trap := none }
      return .done
  else
    set { m with trap := some ⟨n, m.stack.size⟩ }
    return .done

/-- Pass the statement at the cursor; an `IF` takes the rest of the line with it. -/
def skipFailed : Eval Unit := do
  if (← Eval.peek?) == some (.word .IF) then Eval.skipLine else Eval.skipStatement

/-- Where a handler goes on. -/
inductive Resumption where
  | line (n : Nat)
  /-- The statement that failed. -/
  | again
  /-- The statement after it. -/
  | next
  deriving DecidableEq, Repr

/-- What follows `RESUME`. Line 0 and no line at all stand for the statement that failed. -/
def resumption : Eval Resumption := do
  if ← Eval.accept (.word .NEXT) then return .next
  else match ← Eval.lineNumber? with
    | none | some 0 => return .again
    | some n => return .line n

/-- Go on after a failure. -/
def goOn (f : Failure) : Resumption → Exec Unit
  | .line n => Exec.goto n
  | .again => Exec.jump f.statement
  | .next => do
    Exec.jump f.statement
    skipFailed

def resume : Exec Flow := do
  let m ← get
  require m.handling (.of .cannotContinue)
  match m.failure with
  | none => throw (.of .cannotContinue)
  | some f =>
    let r ← resumption
    Eval.endStatement
    modify ({ · with handling := false })
    goOn f r
    return .moved

end LineBasic.Statement
