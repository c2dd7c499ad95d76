/-! Conditions: what a line or a statement can raise. A condition is a fault, the program line it
arose in, if any, and a remark. Its text is the fault's wording, then the line, then the remark. -/

namespace LineBasic

inductive Fault where
  | nextWithoutFor
  | syntaxError
  | returnWithoutGosub
  | outOfData
  | illegalQuantity
  | overflow
  | outOfMemory
  | undefinedStatement
  | badSubscript
  | redimensionedArray
  | divisionByZero
  | illegalDirect
  | typeMismatch
  | stringTooLong
  | formulaTooComplex
  | cannotContinue
  | undefinedFunction
  | illegalDeferred
  | unableToEdit
  | interrupted
  deriving DecidableEq, Repr

namespace Fault

/-- Every fault, the numbered ones first and in the order of their numbers. -/
def all : List Fault :=
  [nextWithoutFor, syntaxError, returnWithoutGosub, outOfData, illegalQuantity, overflow,
   outOfMemory, undefinedStatement, badSubscript, redimensionedArray, divisionByZero,
   illegalDirect, typeMismatch, stringTooLong, formulaTooComplex, cannotContinue,
   undefinedFunction, illegalDeferred, unableToEdit, interrupted]

/-- The number that `ERR` shows and `ERROR` takes. Number 14 is not in use, and the faults that
only the operator can cause have none. -/
def number? : Fault → Option Nat
  | nextWithoutFor => some 1
  | syntaxError => some 2
  | returnWithoutGosub => some 3
  | outOfData => some 4
  | illegalQuantity => some 5
  | overflow => some 6
  | outOfMemory => some 7
  | undefinedStatement => some 8
  | badSubscript => some 9
  | redimensionedArray => some 10
  | divisionByZero => some 11
  | illegalDirect => some 12
  | typeMismatch => some 13
  | stringTooLong => some 15
  | formulaTooComplex => some 16
  | cannotContinue => some 17
  | undefinedFunction => some 18
  | illegalDeferred | unableToEdit | interrupted => none

def ofNumber? (n : Nat) : Option Fault := all.find? fun f => f.number? == some n

def message : Fault → String
  | nextWithoutFor => "NEXT WITHOUT FOR"
  | syntaxError => "SYNTAX ERROR"
  | returnWithoutGosub => "RETURN WITHOUT GOSUB"
  | outOfData => "OUT OF DATA"
  | illegalQuantity => "ILLEGAL QUANTITY"
  | overflow => "OVERFLOW"
  | outOfMemory => "OUT OF MEMORY"
  | undefinedStatement => "UNDEFINED STATEMENT"
  | badSubscript => "BAD SUBSCRIPT"
  | redimensionedArray => "REDIMENSIONED ARRAY"
  | divisionByZero => "DIVISION BY ZERO"
  | illegalDirect => "ILLEGAL DIRECT"
  | typeMismatch => "TYPE MISMATCH"
  | stringTooLong => "STRING TOO LONG"
  | formulaTooComplex => "FORMULA TOO COMPLEX"
  | cannotContinue => "CAN'T CONTINUE"
  | undefinedFunction => "UNDEFINED FUNCTION"
  | illegalDeferred => "ILLEGAL DEFERRED"
  | unableToEdit => "UNABLE TO EDIT"
  | interrupted => "BREAK"

end Fault

structure Condition where
  fault : Fault
  line : Option Nat := none
  detail : String := ""
  deriving DecidableEq, Repr

namespace Condition

/-- A condition that knows no line yet. -/
def of (fault : Fault) (detail : String := "") : Condition := ⟨fault, none, detail⟩

/-- Fix the line of a condition that has none; a line once known stays. -/
def within (c : Condition) (line : Option Nat) : Condition := { c with line := c.line.or line }

def number? (c : Condition) : Option Nat := c.fault.number?

def isDirect (c : Condition) : Bool := c.line.isNone

def isBreak (c : Condition) : Bool := c.fault == .interrupted

def text (c : Condition) : String :=
  let place := match c.line with
    | some n => " IN " ++ toString n
    | none => ""
  let remark := if c.detail.isEmpty then "" else "; " ++ c.detail
  c.fault.message ++ place ++ remark

end Condition

/-- Go on only if `b` holds. -/
def require (b : Bool) (c : Condition) : Except Condition Unit := if b then .ok () else .error c

end LineBasic
