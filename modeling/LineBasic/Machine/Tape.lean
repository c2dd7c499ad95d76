import LineBasic.Condition

/-! The tape that the machine prints on and reads typed lines from. It counts the characters printed
since the last line feed or since a line was read. -/

namespace LineBasic

structure Tape where
  output : String := ""
  /-- The lines typed and not yet read, the oldest first. -/
  input : List String := []
  column : Nat := 0
  deriving DecidableEq, Repr

namespace Tape

/-- The width of the zones that a comma in `PRINT` moves to. -/
def zone : Nat := 14

def columnAfter (column : Nat) (s : List Char) : Nat :=
  s.foldl (fun n c => if c == '\n' then 0 else n + 1) column

def write (t : Tape) (s : String) : Tape :=
  { t with output := t.output ++ s, column := columnAfter t.column s.toList }

def newline (t : Tape) : Tape := t.write "\n"

def spaces (n : Nat) : String := String.ofList (List.replicate n ' ')

def space (t : Tape) (n : Nat) : Tape := t.write (spaces n)

/-- Forward to a column; never back. -/
def tab (t : Tape) (column : Nat) : Tape :=
  if t.column < column then t.space (column - t.column) else t

/-- Forward to the next zone. -/
def comma (t : Tape) : Tape := t.tab ((t.column / zone + 1) * zone)

/-- A report stands on a line of its own; all but a break start with a question mark. -/
def report (t : Tape) (c : Condition) : Tape :=
  let t := if t.column > 0 then t.newline else t
  t.write ((if c.isBreak then "" else "?") ++ c.text ++ "\n")

def type (t : Tape) (line : String) : Tape := { t with input := t.input ++ [line] }

/-- Take the oldest typed line. -/
def read (t : Tape) : Option String × Tape :=
  match t.input with
  | [] => (none, t)
  | line :: rest => (some line, { t with input := rest, column := 0 })

def takeOutput (t : Tape) : String × Tape := (t.output, { t with output := "" })

end Tape

end LineBasic
