import LineBasic.Token.Basic
import LineBasic.Value.Basic

/-! What the operators compute. Of the faults of an operation the operands' types come first, then
what the operation itself refuses, then a result that is too large. -/

namespace LineBasic.Value

/-- Combine two numbers and refuse a result that is not finite. -/
def arithmetic (f : Float → Float → Except Condition Float) : Value → Value → Except Condition Value
  | number l, number r => do
    let x ← f l r
    require x.isFinite (.of .overflow)
    return number x
  | _, _ => throw (.of .typeMismatch)

/-- Two strings are joined, two numbers added. -/
def add : Value → Value → Except Condition Value
  | string l, string r => ofString (l ++ r)
  | l, r => arithmetic (fun l r => .ok (l + r)) l r

def divide (l r : Float) : Except Condition Float :=
  if r == 0 then .error (.of .divisionByZero) else .ok (l / r)

/-- Refuses what has no real value, such as a root of a negative number. -/
def raise (l r : Float) : Except Condition Float :=
  let x := l.pow r
  if x.isNaN then .error (.of .illegalQuantity) else .ok x

/-- The order of two values of one type; strings are ordered by their code points. -/
def order : Value → Value → Except Condition Ordering
  | number l, number r =>
    if l < r then .ok .lt else if l == r then .ok .eq else if r < l then .ok .gt
    else .error (.of .illegalQuantity)
  | string l, string r => .ok (compare l r)
  | _, _ => .error (.of .typeMismatch)

def relate (holds : Ordering → Bool) (l r : Value) : Except Condition Value :=
  return ofBool (holds (← l.order r))

def ofShort (n : Int16) : Value := .number (Float.ofInt n.toInt)

/-- Combine two integers bit by bit. -/
def bitwise (f : Int16 → Int16 → Int16) (l r : Value) : Except Condition Value := do
  let a ← l.asShort
  let b ← r.asShort
  return ofShort (f (Int16.ofInt a) (Int16.ofInt b))

/-- Apply an operator to two operands. `NOT` is no binary operator. -/
def binary : Operator → Value → Value → Except Condition Value
  | .plus => add
  | .minus => arithmetic fun l r => .ok (l - r)
  | .times => arithmetic fun l r => .ok (l * r)
  | .divide => arithmetic divide
  | .power => arithmetic raise
  | .equal => relate Ordering.isEq
  | .notEqual => relate Ordering.isNe
  | .less => relate Ordering.isLT
  | .lessEqual => relate Ordering.isLE
  | .greater => relate Ordering.isGT
  | .greaterEqual => relate Ordering.isGE
  | .and => bitwise (· &&& ·)
  | .or => bitwise (· ||| ·)
  | .not => fun _ _ => .error (.of .syntaxError)

def negate : Value → Except Condition Value
  | number x => .ok (number (-x))
  | string _ => .error (.of .typeMismatch)

/-- Every bit of an integer turned over. -/
def complement (v : Value) : Except Condition Value :=
  return ofShort (~~~(Int16.ofInt (← v.asShort)))

end LineBasic.Value
