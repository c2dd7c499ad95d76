import LineBasic.Expression.Evaluation
import LineBasic.Machine.Stack
import LineBasic.Machine.Tape
import LineBasic.Program.Datum

/-! The machine: a program, a workspace for expressions, a tape, and what controls a run. Statements
are written in `Exec`, where a condition ends the statement and leaves standing what it did. -/

namespace LineBasic

/-- A place to go on from: a token of a program line, or of the direct line. -/
structure Position where
  line : Option Nat
  token : Nat
  deriving DecidableEq, Repr

def Position.isDirect (p : Position) : Bool := p.line.isNone

/-- A `FOR` over a scalar, and where `NEXT` goes as long as the limit is not passed. -/
structure Loop where
  var : String
  limit : Float
  step : Float
  body : Position

/-- Whether a loop goes on with this value of its variable. -/
def Loop.goesOn (l : Loop) (x : Float) : Bool := if l.step < 0 then x ≥ l.limit else x ≤ l.limit

inductive Frame where
  /-- A `GOSUB`, and where `RETURN` goes. -/
  | call (ret : Position)
  | loop (l : Loop)

def Frame.position : Frame → Position
  | call ret => ret
  | loop l => l.body

/-- The condition that an error handler serves, and the statement that raised it. -/
structure Failure where
  statement : Position
  line : Option Nat
  fault : Fault
  deriving DecidableEq, Repr

/-- Where `ON ERROR` sends conditions, and the height of the stack when it did so. -/
structure Trap where
  line : Nat
  height : Nat
  deriving DecidableEq, Repr

/-- Where `CONT` goes on, and whether that is inside an error handler. -/
structure Continuation where
  position : Position
  handling : Bool
  deriving DecidableEq, Repr

/-- An `INPUT` that waits for an answer to the variables it still has to fill. -/
structure Inquiry where
  prompt : String
  cells : List Cell
  deriving DecidableEq, Repr

structure Machine extends Workspace where
  program : Listing := .empty
  tape : Tape := {}
  running : Bool := false
  /-- The program line that is executed; none while the direct line is. -/
  line : Option Nat := none
  /-- Where the statement that is executed starts. -/
  statement : Position := ⟨none, 0⟩
  direct : List Token := []
  continuation : Option Continuation := none
  data : Option DataPointer := none
  failure : Option Failure := none
  trap : Option Trap := none
  /-- An error handler is active. -/
  handling : Bool := false
  breakRequested : Bool := false
  stack : Stack Frame := ⟨"STACK OVERFLOW", []⟩
  functions : Std.TreeMap String UserFunction := ∅
  inquiry : Option Inquiry := none
  /-- The condition of a refused line, until the next run tells it. -/
  report : Option Condition := none

namespace Machine

def isDirect (m : Machine) : Bool := m.line.isNone

/-- The tokens of a program line, or of the direct line. -/
def tokensOf (m : Machine) : Option Nat → Except Condition (List Token)
  | some n => (·.tokens) <$> m.program.get n
  | none => .ok m.direct

/-- Where execution stands. -/
def position (m : Machine) : Position := ⟨m.line, m.cursor.pos⟩

/-- Forget variables and all that controls a run, but not where execution stands. -/
def clear (m : Machine) : Machine :=
  { m with
    store := {}, continuation := none, data := none, failure := none, trap := none,
    handling := false, breakRequested := false, stack := m.stack.clear, functions := ∅,
    inquiry := none }

/-- What expressions may see of the machine. -/
def context (m : Machine) : Context where
  functions := m.functions
  column := m.tape.column
  errorNumber := (m.failure.bind (·.fault.number?)).getD 0
  errorLine := (m.failure.bind (·.line)).getD 0

def write (m : Machine) (s : String) : Machine := { m with tape := m.tape.write s }

end Machine

abbrev Exec := ExceptT Condition (StateM Machine)

namespace Exec

/-- Work on the workspace alone. -/
def onWorkspace {α : Type} (x : Eval α) : Exec α := fun m =>
  let w := m.toWorkspace
  let m := { m with toWorkspace := {} }
  let (r, w) := x w
  (r, { m with toWorkspace := w })

instance (priority := low) : MonadLift Eval Exec := ⟨onWorkspace⟩

def context : Exec Context := return (← get).context

/-- The value of the expression at the cursor. -/
def expression : Exec Value := do Expression.evaluate (← context)

/-- The expression at the cursor, which has to be a number. -/
def number : Exec Float := do (← expression).asNumber

def short : Exec Int := do Expression.evaluateShort (← context)

/-- The variable at the cursor. -/
def target : Exec Cell := do Expression.target (← context)

def assign (c : Cell) (v : Value) : Exec Unit := Eval.onStore (·.set c v)

def write (s : String) : Exec Unit := modify (·.write s)

/-- Only a program line may do this. -/
def refuseDirect : Exec Unit := do require (!(← get).isDirect) (.of .illegalDirect)

/-- Go on from a position, whose line has to be there. -/
def jump (p : Position) : Exec Unit := do
  let tokens ← (← get).tokensOf p.line
  modify fun m => { m with cursor := Cursor.atToken tokens p.token, line := p.line }

def goto (n : Nat) : Exec Unit := jump ⟨some n, 0⟩

end Exec

/-- Why a run ends. -/
inductive Halt where
  | finished | ended | interrupted | system
  deriving DecidableEq, Repr

/-- What a statement asks for. -/
inductive Flow where
  /-- It is done, and has to end here. -/
  | done
  /-- Another statement starts at the cursor, without a boundary. -/
  | again
  /-- Execution goes on elsewhere. -/
  | moved
  | waiting
  | halted (why : Halt)
  deriving DecidableEq, Repr

end LineBasic
