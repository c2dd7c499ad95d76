import LineBasic.Machine.State

/-! `INPUT`: it prints a prompt and then looks, once a step, for a typed line to fill its variables. -/

namespace LineBasic

namespace Answer

/-- An item of a typed answer, read up to now: its characters, the last first, whether a quote is open
and whether there was one. -/
structure Item where
  chars : List Char := []
  isOpen : Bool := false
  quoted : Bool := false

/-- Blanks around an item count only if some of it was quoted. -/
def Item.text (i : Item) : String :=
  String.ofList (if i.quoted then i.chars.reverse else Text.trim i.chars.reverse)

/-- Split a typed answer at the commas outside of quotes. The quotes are left out. -/
def splitFrom (i : Item) : List Char → List String
  | [] => [i.text]
  | c :: rest =>
    if c == '"' then splitFrom { i with isOpen := !i.isOpen, quoted := true } rest
    else if c == ',' && !i.isOpen then i.text :: splitFrom {} rest
    else splitFrom { i with chars := c :: i.chars } rest

def split (s : String) : List String := splitFrom {} s.toList

/-- An item as a value for a variable, unless it is no number where one is wanted. -/
def value? (c : Cell) (s : String) : Option Value :=
  if c.isString then some (.string s) else (Number.read? s.toList).map .number

/-- The items as values for variables, as far as both go. -/
def values? : List Cell → List String → Option (List Value)
  | c :: cells, s :: items => do
    let v ← value? c s
    return v :: (← values? cells items)
  | _, _ => some []

end Answer

namespace Statement

/-- A prompt: a string and a semicolon. -/
def inputPrompt : Eval String :=
  Eval.onCursor fun c =>
    match c.peek?, c.peekAt? 1 with
    | some (.string s), some .semicolon => (s, c.skip 2)
    | _, _ => ("", c)

/-- Start an `INPUT`. -/
def inquire : Exec Inquiry := do
  Exec.refuseDirect
  let prompt ← inputPrompt
  let ctx ← Exec.context
  let cells ← Eval.list (Expression.target ctx)
  Eval.endStatement
  Exec.write (prompt ++ "? ")
  return ⟨prompt, cells⟩

def assignAll : List Cell → List Value → Exec Unit
  | c :: cells, v :: values => do
    Exec.assign c v
    assignAll cells values
  | _, _ => return

def readLine : Exec (Option String) :=
  modifyGet fun (m : Machine) => let (line, tape) := m.tape.read; (line, { m with tape })

/-- Take an answer. Gives the inquiry that still waits, or nothing when all is filled: after an answer
that does not fit, it starts again; after one that is too short, it asks for the rest; what is too
much is ignored. -/
def take (q : Inquiry) (items : List String) : Exec (Option Inquiry) := do
  match Answer.values? q.cells items with
  | none =>
    Exec.write ("?REDO FROM START\n" ++ q.prompt ++ "? ")
    return some q
  | some values =>
    assignAll q.cells values
    if values.length < q.cells.length then
      Exec.write "?? "
      return some ⟨"?", q.cells.drop values.length⟩
    else if values.length < items.length then
      Exec.write "?EXTRA IGNORED\n"
      return none
    else return none

/-- Look for an answer; without one the inquiry waits on. -/
def poll (q : Inquiry) : Exec (Option Inquiry) := do
  match ← readLine with
  | none => return some q
  | some line => take q (Answer.split line)

end Statement

end LineBasic
