import LineBasic.Program.Listing

/-! The items of the `DATA` statements of a program, read one by one in the order of the lines. -/

namespace LineBasic

/-- One item. Blanks around it count only if it was quoted. -/
structure Datum where
  text : String
  quoted : Bool
  line : Nat
  deriving DecidableEq, Repr

/-- Where reading goes on: at a token of a line, either inside a list of items or where the search
for the next list starts. -/
structure DataPointer where
  line : Nat
  token : Nat := 0
  inList : Bool := false
  deriving DecidableEq, Repr

namespace Datum

def endsItem (t : Token) : Bool := t == .comma || t == .colon

/-- The item that a few tokens make up. -/
def ofTokens (line : Nat) : List Token → Datum
  | [.string s] => ⟨s, true, line⟩
  | [.verbatim s] => ⟨String.ofList (Text.trim s.toList), false, line⟩
  | ts => ⟨String.ofList (Text.trim (Line.tokensText ts).toList), false, line⟩

/-- Where in a line the next item starts, if the line has one. -/
def itemStart? (tokens : List Token) (p : DataPointer) : Option Nat :=
  if p.inList then some (min p.token tokens.length)
  else ((tokens.drop p.token).findIdx? (· == .word .DATA)).map (p.token + · + 1)

/-- The item at a token of a line, and where reading goes on: after the comma behind the item, or at
the end of the list. -/
def itemAt (l : ProgramLine) (start : Nat) : Datum × DataPointer :=
  let item := (l.tokens.drop start).takeWhile (!endsItem ·)
  let stop := start + item.length
  let more := l.tokens[stop]? == some .comma
  (ofTokens l.number item, ⟨l.number, if more then stop + 1 else stop, more⟩)

/-- The first item at or after a place in the first of some lines. Where there is none, reading goes
on behind the last line. -/
def readLines (p : DataPointer) : List ProgramLine → Except Condition Datum × Option DataPointer
  | [] => (.error (.of .outOfData), some p)
  | l :: rest =>
    match itemStart? l.tokens p with
    | some start =>
      let (item, p) := itemAt l start
      (.ok item, some p)
    | none =>
      match rest with
      | [] => (.error (.of .outOfData), some ⟨l.number, l.tokens.length, false⟩)
      | next :: _ => readLines ⟨next.number, 0, false⟩ rest

/-- Read the next item of a program. The first reading starts with the first line, and a pointer to
a line that is gone stands for the start of the next one. -/
def read (program : Listing) : Option DataPointer → Except Condition Datum × Option DataPointer
  | none =>
    match program.lines with
    | [] => (.error (.of .outOfData), none)
    | l :: rest => readLines ⟨l.number, 0, false⟩ (l :: rest)
  | some p =>
    match program.lines.dropWhile (·.number < p.line) with
    | [] => (.error (.of .outOfData), some p)
    | l :: rest =>
      readLines (if l.number == p.line then p else ⟨l.number, 0, false⟩) (l :: rest)

end Datum

end LineBasic
