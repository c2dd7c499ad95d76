import LineBasic.Condition

/-! Tokens: the words, functions and operators of the language, and what else a line is made of.
`text` gives each token the spelling that a listing shows. -/

namespace LineBasic

/-- Reserved words, spelt as they are listed. -/
inductive Word where
  | CLEAR | CONT | DATA | DEF | DELETE | DIM | ELSE | END | ERROR | FN | FOR | GOSUB | GOTO | IF
  | INPUT | LET | LIST | NEW | NEXT | ON | PRINT | READ | REM | RESTORE | RESUME | RETURN | RUN
  | STEP | STOP | SYSTEM | THEN | TO
  deriving DecidableEq, Repr

namespace Word

def all : List Word :=
  [CLEAR, CONT, DATA, DEF, DELETE, DIM, ELSE, END, ERROR, FN, FOR, GOSUB, GOTO, IF, INPUT, LET,
   LIST, NEW, NEXT, ON, PRINT, READ, REM, RESTORE, RESUME, RETURN, RUN, STEP, STOP, SYSTEM, THEN,
   TO]

/-- The words that only occur inside a statement start none. -/
def startsStatement : Word → Bool
  | FN | STEP | THEN | TO => false
  | _ => true

def text : Word → String
  | CLEAR => "CLEAR"
  | CONT => "CONT"
  | DATA => "DATA"
  | DEF => "DEF"
  | DELETE => "DELETE"
  | DIM => "DIM"
  | ELSE => "ELSE"
  | END => "END"
  | ERROR => "ERROR"
  | FN => "FN"
  | FOR => "FOR"
  | GOSUB => "GOSUB"
  | GOTO => "GOTO"
  | IF => "IF"
  | INPUT => "INPUT"
  | LET => "LET"
  | LIST => "LIST"
  | NEW => "NEW"
  | NEXT => "NEXT"
  | ON => "ON"
  | PRINT => "PRINT"
  | READ => "READ"
  | REM => "REM"
  | RESTORE => "RESTORE"
  | RESUME => "RESUME"
  | RETURN => "RETURN"
  | RUN => "RUN"
  | STEP => "STEP"
  | STOP => "STOP"
  | SYSTEM => "SYSTEM"
  | THEN => "THEN"
  | TO => "TO"

end Word

/-- Built-in functions. Those that give a string are listed with a dollar sign. -/
inductive Function where
  | ABS | ASC | ATN | CHR | COS | ERL | ERR | EXP | INT | LEFT | LEN | LOG | MID | POS | RIGHT
  | RND | SGN | SIN | SPC | SQR | STR | TAB | TAN | VAL
  deriving DecidableEq, Repr

namespace Function

def all : List Function :=
  [ABS, ASC, ATN, CHR, COS, ERL, ERR, EXP, INT, LEFT, LEN, LOG, MID, POS, RIGHT, RND, SGN, SIN,
   SPC, SQR, STR, TAB, TAN, VAL]

def text : Function → String
  | ABS => "ABS"
  | ASC => "ASC"
  | ATN => "ATN"
  | CHR => "CHR$"
  | COS => "COS"
  | ERL => "ERL"
  | ERR => "ERR"
  | EXP => "EXP"
  | INT => "INT"
  | LEFT => "LEFT$"
  | LEN => "LEN"
  | LOG => "LOG"
  | MID => "MID$"
  | POS => "POS"
  | RIGHT => "RIGHT$"
  | RND => "RND"
  | SGN => "SGN"
  | SIN => "SIN"
  | SPC => "SPC"
  | SQR => "SQR"
  | STR => "STR$"
  | TAB => "TAB"
  | TAN => "TAN"
  | VAL => "VAL"

end Function

inductive Operator where
  | power | times | divide | plus | minus
  | equal | notEqual | less | lessEqual | greater | greaterEqual
  | not | and | or
  deriving DecidableEq, Repr

namespace Operator

def all : List Operator :=
  [power, times, divide, plus, minus, equal, notEqual, less, lessEqual, greater, greaterEqual, not,
   and, or]

/-- Written with letters, so that it needs room beside other words. -/
def isWord : Operator → Bool
  | not | and | or => true
  | _ => false

def text : Operator → String
  | power => "^"
  | times => "*"
  | divide => "/"
  | plus => "+"
  | minus => "-"
  | equal => "="
  | notEqual => "<>"
  | less => "<"
  | lessEqual => "<="
  | greater => ">"
  | greaterEqual => ">="
  | not => "NOT"
  | and => "AND"
  | or => "OR"

end Operator

inductive Token where
  /-- Text that is kept as written and never interpreted: the tail of a `REM`, an item of `DATA`. -/
  | verbatim (text : String)
  | word (w : Word)
  | function (f : Function)
  | operator (o : Operator)
  /-- The name of a variable or of a user function, in capitals. -/
  | name (text : String)
  | number (text : String)
  | string (text : String)
  | leftParen
  | rightParen
  | comma
  | colon
  | semicolon
  deriving DecidableEq, Repr

/-- The highest number a program line may have. -/
def maxLineNumber : Nat := 63999

namespace Token

/-- The coarse sort of a token. -/
inductive Kind where
  | command | function | operator | separator | name | number | string | verbatim
  deriving DecidableEq, Repr

def kind : Token → Kind
  | verbatim _ => .verbatim
  | word _ => .command
  | function _ => .function
  | operator _ => .operator
  | name _ => .name
  | number _ => .number
  | string _ => .string
  | leftParen | rightParen | comma | colon | semicolon => .separator

/-- The word a statement is named by, for a token that may start one. -/
def statement? : Token → Option Word
  | word w => if w.startsStatement then some w else none
  | _ => none

/-- Two such tokens side by side are listed with a space between them. -/
def isWordy : Token → Bool
  | operator o => o.isWord
  | verbatim _ | leftParen | rightParen | comma | colon | semicolon => false
  | _ => true

def text : Token → String
  | verbatim s => s
  | word w => w.text
  | function f => f.text
  | operator o => o.text
  | name s => s
  | number s => s
  | string s => "\"" ++ s ++ "\""
  | leftParen => "("
  | rightParen => ")"
  | comma => ","
  | colon => ":"
  | semicolon => ";"

/-- The value of a run of decimal digits as a line number, if it is one. -/
def lineNumberOfDigits? (digits : List Char) : Option Nat :=
  let n := Nat.ofDigitChars 10 digits 0
  if !digits.isEmpty && n ≤ maxLineNumber then some n else none

/-- Read a token as a line number: only a numeral of digits alone can be one. -/
def lineNumber : Token → Except Condition Nat
  | number s =>
    if s.toList.all Char.isDigit then
      match lineNumberOfDigits? s.toList with
      | some n => .ok n
      | none => .error (.of .syntaxError "INVALID LINE NUMBER")
    else .error (.of .syntaxError "EXPECTED LINE NUMBER")
  | _ => .error (.of .syntaxError "EXPECTED LINE NUMBER")

end Token

end LineBasic
