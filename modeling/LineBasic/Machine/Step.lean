import LineBasic.Statement.Dispatch

/-! One step of a run: the next statement, or one look for the answer that an `INPUT` waits for. A
condition goes to the error handler if there is one, and else ends the run. -/

namespace LineBasic

/-- What the machine tells its host. All that it prints is on the tape by then. -/
inductive Event where
  /-- There is more to do. -/
  | running
  /-- An `INPUT` waits for a typed line. -/
  | waiting
  /-- Nothing runs. -/
  | stopped
  /-- A condition was reported, and the run is over. -/
  | failed (c : Condition)
  /-- The program asks the host to end. -/
  | exit
  deriving DecidableEq, Repr

namespace Machine

/-- Pass the colons at the cursor. -/
def skipColons (m : Machine) : Machine :=
  { m with cursor := m.cursor.skip (m.cursor.rest.takeWhile (· == .colon)).length }

/-- Mark the start of a statement, if there is one at the cursor. -/
def markStatement (m : Machine) : Option Machine :=
  if m.cursor.atEnd then none else some { m with statement := m.position }

def enterLine (m : Machine) (l : ProgramLine) : Machine :=
  { m with line := some l.number, cursor := .start l.tokens }

/-- The first statement of some lines, and whether there is one. -/
def seekStatement (m : Machine) : List ProgramLine → Bool × Machine
  | [] => (false, m)
  | l :: rest =>
    let m := (m.enterLine l).skipColons
    match m.markStatement with
    | some m => (true, m)
    | none => m.seekStatement rest

/-- The lines after the one that is executed. -/
def following (m : Machine) : List ProgramLine :=
  match m.line with
  | some n => m.program.lines.dropWhile (·.number ≤ n)
  | none => []

/-- Go to the next statement, on this line or a later one, and tell whether there is one. -/
def nextStatement (m : Machine) : Bool × Machine :=
  let m := m.skipColons
  match m.markStatement with
  | some m => (true, m)
  | none => m.seekStatement m.following

/-- A break that was asked for. An `INPUT` that waits is given up, to be started again by `CONT`. -/
def takeBreak (m : Machine) : Machine :=
  let cursor := if m.inquiry.isSome then m.cursor.seek m.statement.token else m.cursor
  { m with breakRequested := false, inquiry := none, cursor }

/-- One statement, one look for an answer, or a break. -/
def advance (m : Machine) : Except Condition Flow × Machine :=
  if m.breakRequested then (.ok (.halted .interrupted), m.takeBreak)
  else match m.inquiry with
    | some q => Statement.pollInput q { m with inquiry := none }
    | none =>
      match m.nextStatement with
      | (true, m) => Statement.dispatch (m.cursor.rest.length + 1) m
      | (false, m) => (.ok (.halted .finished), m)

/-- End a run without a condition. -/
def stop (m : Machine) : Machine :=
  { m with running := false, inquiry := none, handling := false }

/-- End a run. An end or a break in a program line is a place to continue from. -/
def halt (m : Machine) (why : Halt) : Event × Machine :=
  let here := some ⟨m.position, m.handling⟩
  let stopped := m.stop
  match why with
  | .finished =>
    (.stopped, if m.isDirect then stopped else { stopped with continuation := none })
  | .ended =>
    (.stopped, if m.isDirect then stopped else { stopped with continuation := here })
  | .interrupted =>
    let stopped := if m.isDirect then stopped else { stopped with continuation := here }
    let c : Condition := ⟨.interrupted, m.line, ""⟩
    (.failed c, { stopped with tape := stopped.tape.report c })
  | .system => (.exit, stopped)

/-- Enter the handler of a trap: the frames opened since the trap was set are dropped. -/
def enterHandler (m : Machine) (c : Condition) (t : Trap) : Except Condition Unit × Machine :=
  Exec.goto t.line
    { m with
      failure := some ⟨m.statement, c.line, c.fault⟩
      stack := m.stack.truncate t.height
      handling := true
      inquiry := none }

/-- Whether a fault leaves a place to continue from. -/
def continuable : Fault → Bool
  | .illegalDeferred | .unableToEdit | .cannotContinue => false
  | _ => true

/-- End a run with a condition. In a program line the statement that failed is where to continue. -/
def fail (m : Machine) (c : Condition) : Event × Machine :=
  let stopped := m.stop
  let stopped :=
    if m.isDirect then stopped
    else if continuable c.fault then { stopped with continuation := some ⟨m.statement, false⟩ }
    else { stopped with continuation := none }
  (.failed c, { stopped with tape := stopped.tape.report c })

/-- Trap a condition or end the run with it. Only program lines are trapped, and not within a
handler. -/
def raise (m : Machine) (c : Condition) : Event × Machine :=
  let c := c.within m.line
  match m.trap with
  | some t =>
    if m.isDirect || m.handling || c.isBreak then m.fail c
    else match m.enterHandler c t with
      | (.ok _, m) => (.running, m)
      | (.error e, m) => m.fail (e.within m.line)
  | none => m.fail c

/-- One step, if anything runs. -/
def step (m : Machine) : Event × Machine :=
  if !m.running then (.stopped, m)
  else match m.advance with
    | (.ok .waiting, m) => (.waiting, m)
    | (.ok (.halted why), m) => m.halt why
    | (.ok _, m) => (.running, m)
    | (.error c, m) => m.raise c

/-- Steps, at most so many, until one tells something. -/
def steps : Nat → Machine → Event × Machine
  | 0, m => (.running, m)
  | n + 1, m =>
    match m.step with
    | (.running, m) => steps n m
    | r => r

end Machine

end LineBasic
