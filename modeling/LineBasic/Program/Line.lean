import LineBasic.Token.Lexer

/-! Lines of a program, read from text and listed as text. -/

namespace LineBasic

/-- A line as typed: a program line if it has a number, a direct line if not. -/
structure Line where
  number : Option Nat
  tokens : List Token
  deriving DecidableEq, Repr

namespace Line

def ofText (s : String) : Except Condition Line := do
  let (number, tokens) ← Lexer.line s.toList
  return ⟨number, tokens⟩

def isDirect (l : Line) : Bool := l.number.isNone

def isEmpty (l : Line) : Bool := l.tokens.isEmpty

/-- Whether a listing puts a space between two neighbours. Verbatim text brings its own, and a
function or a variable stands close to its bracket. -/
def spaced (before after : Token) : Bool :=
  match after with
  | .verbatim _ => false
  | .leftParen => match before with
    | .function _ | .name _ => false
    | _ => before.isWordy
  | _ => before.isWordy && after.isWordy

/-- What a listing shows after the token `before`. -/
def tailText (before : Token) : List Token → String
  | [] => ""
  | t :: ts => (if spaced before t then " " ++ t.text else t.text) ++ tailText t ts

/-- Tokens as a listing shows them. -/
def tokensText : List Token → String
  | [] => ""
  | t :: ts => t.text ++ tailText t ts

def text (l : Line) : String :=
  match l.number with
  | some n => toString n ++ " " ++ tokensText l.tokens
  | none => tokensText l.tokens

end Line

end LineBasic
