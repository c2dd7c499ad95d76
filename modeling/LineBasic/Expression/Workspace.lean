import LineBasic.Memory.Store
import LineBasic.Random.Basic
import LineBasic.Token.Cursor

/-! What reading and evaluating an expression works on. Evaluation may move the cursor, bind names in
the store, draw random numbers and open brackets; of everything else it only sees a `Context`. A
condition ends it, and what was changed before stays changed. -/

namespace LineBasic

structure Workspace where
  cursor : Cursor := {}
  store : Store := {}
  random : Random := Random.seeded 0
  /-- How many brackets, subscripts, arguments and function bodies are open. -/
  depth : Nat := 0

/-- A function that the program defines. -/
structure UserFunction where
  params : List String
  body : List Token
  deriving DecidableEq, Repr

structure Context where
  functions : Std.TreeMap String UserFunction
  /-- Where the tape stands. -/
  column : Nat
  /-- What `ERR` and `ERL` show. -/
  errorNumber : Nat
  errorLine : Nat

abbrev Eval := ExceptT Condition (StateM Workspace)

/-- Read items as long as a separator follows each; `n` is at least the number of tokens left, which
bounds the separators. -/
def separated {m : Type → Type} [Monad m] {α : Type} (separator : m Bool) (item : m α) :
    Nat → m (List α)
  | 0 => return [← item]
  | n + 1 => do
    let a ← item
    if ← separator then return a :: (← separated separator item n) else return [a]

namespace Eval

/-- Move the cursor and tell what was found on the way. -/
def onCursor {α : Type} (f : Cursor → α × Cursor) : Eval α :=
  modifyGet fun w => let (a, c) := f w.cursor; (a, { w with cursor := c })

/-- Work on the store, which keeps its changes also when the work fails. -/
def onStore {α : Type} (f : Store → Except Condition α × Store) : Eval α := do
  let r ← modifyGet fun (w : Workspace) =>
    let s := w.store
    let w := { w with store := {} }
    let (r, s) := f s
    (r, { w with store := s })
  r

def peek? : Eval (Option Token) := return (← get).cursor.peek?

/-- The next token, which is passed. -/
def next? : Eval (Option Token) := onCursor fun c => (c.peek?, c.advance)

def accept (t : Token) : Eval Bool := onCursor (·.accept t)

def expect (t : Token) : Eval Unit := do
  let r ← onCursor (·.expect t)
  r

def atStatementEnd : Eval Bool := return (← get).cursor.atStatementEnd

/-- Refuse anything left of the statement. -/
def endStatement : Eval Unit := do require (← atStatementEnd) (.of .syntaxError)

def skipStatement : Eval Unit := onCursor fun c => ((), c.skipStatement)

def skipLine : Eval Unit := onCursor fun c => ((), c.skipLine)

def tokensLeft : Eval Nat := return (← get).cursor.rest.length

/-- Items with commas between them. -/
def list {α : Type} (item : Eval α) : Eval (List α) := do
  separated (accept .comma) item (← tokensLeft)

/-- The next token as a name. -/
def name : Eval String := do
  match ← next? with
  | some (.name n) => return n
  | _ => throw (.of .syntaxError)

/-- A line number, if one comes next. -/
def lineNumber? : Eval (Option Nat) := do
  match (← peek?).map Token.lineNumber with
  | some (.ok n) =>
    onCursor fun c => ((), c.advance)
    return some n
  | _ => return none

/-- A line number, which has to come next. -/
def lineNumber : Eval Nat := do
  match ← peek? with
  | some t =>
    let n ← t.lineNumber
    onCursor fun c => ((), c.advance)
    return n
  | none => throw (.of .syntaxError "EXPECTED LINE NUMBER")

end Eval

end LineBasic
