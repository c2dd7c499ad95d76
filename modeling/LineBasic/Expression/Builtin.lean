import LineBasic.Expression.Workspace
import LineBasic.Number.Numeral
import LineBasic.Token.Basic

/-! The built-in functions. Each checks the number of its arguments, then their types, then their
values; `SPC` and `TAB` look at their first argument before they count. -/

namespace LineBasic.Builtin

def wrongCount : Condition := .of .syntaxError "WRONG NUMBER OF ARGUMENTS"

/-- The only argument. -/
def sole : List Value → Except Condition Value
  | [v] => .ok v
  | _ => .error wrongCount

def number (args : List Value) : Except Condition Float := do (← sole args).asNumber

def string (args : List Value) : Except Condition String := do (← sole args).asString

/-- A count of characters, or a place among them. -/
def length (least : Nat) (v : Value) : Except Condition Nat := do
  let n ← v.asShort
  require (least ≤ n && n ≤ Value.maxLength) (.of .illegalQuantity)
  return n.toNat

/-- The first argument as a count, before the others are counted. -/
def leadingLength : List Value → Except Condition Nat
  | [] => .error wrongCount
  | v :: rest => do
    let n ← length 0 v
    require rest.isEmpty wrongCount
    return n

/-- A function of one number whose result has to be finite. -/
def numeric (f : Float → Float) (args : List Value) : Except Condition Value := do
  let x := f (← number args)
  require x.isFinite (.of .overflow)
  return .number x

def signum (x : Float) : Float := if x > 0 then 1 else if x < 0 then -1 else 0

def log (args : List Value) : Except Condition Value := do
  let x ← number args
  require (!(x ≤ 0)) (.of .illegalQuantity)
  return .number x.log

def squareRoot (args : List Value) : Except Condition Value := do
  let x ← number args
  require (!(x < 0)) (.of .illegalQuantity)
  return .number x.sqrt

/-- The code point of the first character. -/
def codePoint (args : List Value) : Except Condition Value := do
  match (← string args).toList with
  | c :: _ => return .ofNat c.toNat
  | [] => throw (.of .illegalQuantity)

/-- The character with a code point. Those in reach of sixteen bits with a sign are all valid. -/
def character (args : List Value) : Except Condition Value := do
  let n ← (← sole args).asShort
  require (0 ≤ n) (.of .illegalQuantity)
  return .string (String.singleton (Char.ofNat n.toNat))

def left : List Value → Except Condition Value
  | [s, n] => do
    let s ← s.asString
    let n ← length 1 n
    return .string (String.ofList (s.toList.take n))
  | _ => .error wrongCount

def right : List Value → Except Condition Value
  | [s, n] => do
    let s ← s.asString
    let n ← length 1 n
    return .string (String.ofList (s.toList.drop (s.length - n)))
  | _ => .error wrongCount

/-- Characters counted from one; without a third argument all that are left. -/
def middle : List Value → Except Condition Value
  | [s, start] => do
    let s ← s.asString
    let start ← length 1 start
    return .string (String.ofList ((s.toList.drop (start - 1)).take Value.maxLength))
  | [s, start, n] => do
    let s ← s.asString
    let start ← length 1 start
    let n ← length 0 n
    return .string (String.ofList ((s.toList.drop (start - 1)).take n))
  | _ => .error wrongCount

def spaces (n : Nat) : Value := .string (String.ofList (List.replicate n ' '))

/-- Apply a function to its arguments. Only `RND` changes the random numbers. -/
def call (ctx : Context) (random : Random) (f : Function) (args : List Value) :
    Except Condition (Value × Random) :=
  let keep (r : Except Condition Value) : Except Condition (Value × Random) :=
    r.map (·, random)
  match f with
  | .ABS => keep (numeric Float.abs args)
  | .ATN => keep (numeric Float.atan args)
  | .COS => keep (numeric Float.cos args)
  | .EXP => keep (numeric Float.exp args)
  | .INT => keep (numeric Float.floor args)
  | .SIN => keep (numeric Float.sin args)
  | .TAN => keep (numeric Float.tan args)
  | .SGN => keep (numeric signum args)
  | .LOG => keep (log args)
  | .SQR => keep (squareRoot args)
  | .RND => do
    let r := random.rnd (← number args)
    return (.number r.1, r.2)
  | .ASC => keep (codePoint args)
  | .CHR => keep (character args)
  | .LEN => keep (return .ofNat (← string args).length)
  | .STR => keep (do Value.ofString (Value.number (← number args)).text)
  | .VAL => keep (return .number (Number.leading (← string args).toList))
  | .LEFT => keep (left args)
  | .RIGHT => keep (right args)
  | .MID => keep (middle args)
  | .POS => keep (do let _ ← sole args; return .ofNat ctx.column)
  | .SPC => keep (return spaces (← leadingLength args))
  | .TAB => keep (return spaces ((← leadingLength args) - ctx.column))
  | .ERR => keep (return .ofNat ctx.errorNumber)
  | .ERL => keep (return .ofNat ctx.errorLine)

/-- `ERR` and `ERL` stand alone, without brackets. -/
def takesArguments : Function → Bool
  | .ERR | .ERL => false
  | _ => true

end LineBasic.Builtin
