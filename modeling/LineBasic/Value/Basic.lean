import LineBasic.Condition
import LineBasic.Number.Decimal

/-! Values: what an expression gives and a variable holds. Numbers and strings are never converted
into each other behind the program's back, and a string has at most 255 characters. -/

namespace LineBasic

inductive Value where
  | number (x : Float)
  | string (s : String)

/-- A name that ends in a dollar sign names a string. -/
def isStringName (name : String) : Bool := name.toList.getLast? == some '$'

namespace Value

def maxLength : Nat := 255

/-- A string value, if it is short enough. -/
def ofString (s : String) : Except Condition Value :=
  if s.length ≤ maxLength then .ok (.string s) else .error (.of .stringTooLong)

/-- What a variable of this name holds before anything is assigned to it. -/
def initial (name : String) : Value := if isStringName name then .string "" else .number 0

def ofBool (b : Bool) : Value := .number (if b then -1 else 0)

def ofNat (n : Nat) : Value := .number (Float.ofNat n)

def isString : Value → Bool
  | string _ => true
  | number _ => false

def asNumber : Value → Except Condition Float
  | number x => .ok x
  | string _ => .error (.of .typeMismatch)

def asString : Value → Except Condition String
  | string s => .ok s
  | number _ => .error (.of .typeMismatch)

/-- The integer part of a number, which has to fit in sixteen bits. -/
def asShort (v : Value) : Except Condition Int := do
  match (Number.truncate? (← v.asNumber)).filter fun n => -32768 ≤ n && n ≤ 32767 with
  | some n => return n
  | none => throw (.of .illegalQuantity)

/-- Any number but zero is true. -/
def isTrue (v : Value) : Except Condition Bool := return (← v.asNumber) != 0

/-- A value as it is printed. -/
def text : Value → String
  | number x => Number.text x
  | string s => s

end Value

end LineBasic
