import LineBasic.Machine.Step

/-! What a host does with the machine: enter lines, load a program, type answers, break, run. -/

namespace LineBasic.Machine

/-- Print a condition, and keep it for the next run to tell. -/
def refuse (m : Machine) (c : Condition) : Machine :=
  { m with tape := m.tape.report c, report := some c }

/-- Drop the frames that point into a direct line, and all above them. -/
def forgetDirectFrames (m : Machine) : Machine :=
  match m.stack.bottomFirst.findIdx? (·.position.isDirect) with
  | some i =>
    { m with
      stack := m.stack.truncate i
      trap := m.trap.map fun t => { t with height := min t.height i } }
  | none => m

/-- Start to run a direct line. -/
def startDirect (m : Machine) (tokens : List Token) : Machine :=
  { m.forgetDirectFrames with
    direct := tokens, line := none, cursor := .start tokens, running := true }

/-- Take a typed line: one with a number goes into the program, any other runs. Tells whether the line
was taken. -/
def enter (m : Machine) (s : String) : Bool × Machine :=
  match Line.ofText s with
  | .error c => (false, m.refuse c)
  | .ok l =>
    if m.running then (false, m.refuse (.of .unableToEdit))
    else if l.isDirect then
      if l.isEmpty then (false, m) else (true, m.startDirect l.tokens)
    else (true, { m with program := m.program.enter l, continuation := none })

/-- Put a program in place of the present one, all of it or nothing. -/
def load (m : Machine) (s : String) : Except Condition Unit × Machine :=
  match Listing.ofText s with
  | .error c => (.error c, m)
  | .ok program => (.ok (), { m with program }.clear)

/-- Type a line that an `INPUT` will read. -/
def type (m : Machine) (s : String) : Machine := { m with tape := m.tape.type s }

/-- Ask for a break, which the next step makes. -/
def interrupt (m : Machine) : Machine := if m.running then { m with breakRequested := true } else m

/-- Run for at most so many steps. A refused line is told first. -/
def execute (m : Machine) (n : Nat) : Event × Machine :=
  match m.report with
  | some c => (.failed c, { m with report := none })
  | none => steps n m

def takeOutput (m : Machine) : String × Machine :=
  let (s, tape) := m.tape.takeOutput
  (s, { m with tape })

end LineBasic.Machine
