import LineBasic.Text.Blank

/-! Numbers as decimal text. The text is read off the binary64 pattern of a number: a finite one is
taken apart into `significand · 2 ^ exponent`, rounded to nine significant digits in exact
arithmetic, ties to even, and laid out with or without an exponent. The sign is the sign bit of the
pattern, also where the pattern stands for no number. -/

namespace LineBasic.Number

/-- The number `± significand · 2 ^ exponent`. -/
structure Binary where
  negative : Bool
  significand : Nat
  exponent : Int
  deriving DecidableEq, Repr

/-- Whether the sign bit of a pattern is set. -/
def signBit (bits : UInt64) : Bool := Nat.pow 2 63 ≤ bits.toNat

/-- The number that a pattern stands for; the infinities and NaNs stand for none. -/
def Binary.ofBits? (bits : UInt64) : Option Binary :=
  let fraction := bits.toNat % Nat.pow 2 52
  let biased := bits.toNat / Nat.pow 2 52 % Nat.pow 2 11
  if biased == 2047 then none
  else some
    { negative := signBit bits
      significand := if biased == 0 then fraction else Nat.pow 2 52 + fraction
      exponent := (max biased 1 : Nat) - 1075 }

def Binary.isZero (b : Binary) : Bool := b.significand == 0

/-- The size of a number as a fraction of naturals. -/
def Binary.ratio (b : Binary) : Nat × Nat :=
  (b.significand * Nat.pow 2 b.exponent.toNat, Nat.pow 2 (-b.exponent).toNat)

/-- The integer part, toward zero. -/
def Binary.truncate (b : Binary) : Int :=
  let size : Int := (b.ratio.1 / b.ratio.2 : Nat)
  if b.negative then -size else size

/-- The integer part of a number, toward zero. An infinity or NaN has none. -/
def truncate? (x : Float) : Option Int := (Binary.ofBits? x.toBits).map Binary.truncate

/-- The quotient rounded to the nearest integer, a half to the even one. -/
def roundedDiv (num den : Nat) : Nat :=
  let q := num / den
  let twice := 2 * (num % den)
  if twice < den || (twice == den && q % 2 == 0) then q else q + 1

def digitCount (n : Nat) : Nat := (Nat.toDigits 10 n).length

/-- The number `digits · 10 ^ (exponent - 8)`, where nine digits stand before the last place. -/
structure Nine where
  digits : Nat
  exponent : Int
  deriving DecidableEq, Repr

/-- The `e` with `10 ^ e ≤ num / den < 10 ^ (e + 1)`. -/
def decimalExponent (num den : Nat) : Int :=
  if den ≤ num then digitCount (num / den) - 1 else -digitCount ((den - 1) / num)

/-- A positive fraction rounded to nine significant digits. -/
def Nine.ofRatio (num den : Nat) : Nine :=
  let e := decimalExponent num den
  let d := roundedDiv (num * Nat.pow 10 (8 - e).toNat) (den * Nat.pow 10 (e - 8).toNat)
  if d == Nat.pow 10 9 then ⟨Nat.pow 10 8, e + 1⟩ else ⟨d, e⟩

/-- Nine digits as text. Exponents from -2 to 8 are written without exponent and without a zero
before the point; zeros at the end of the digits are dropped in either form. -/
def Nine.text (n : Nine) : String :=
  let digits := Text.dropEndWhile (· == '0') (Nat.toDigits 10 n.digits)
  if -2 ≤ n.exponent ∧ n.exponent ≤ 8 then
    let point := n.exponent + 1
    if point ≤ 0 then String.ofList ('.' :: List.replicate (-point).toNat '0' ++ digits)
    else if digits.length ≤ point.toNat then
      String.ofList (digits ++ List.replicate (point.toNat - digits.length) '0')
    else String.ofList (digits.take point.toNat ++ '.' :: digits.drop point.toNat)
  else
    let fraction := if digits.length ≤ 1 then [] else '.' :: digits.drop 1
    let sign := if n.exponent < 0 then '-' else '+'
    let size := Nat.toDigits 10 n.exponent.natAbs
    String.ofList (digits.take 1 ++ fraction ++ 'E' :: sign ::
      (List.replicate (2 - size.length) '0' ++ size))

/-- The size of a number as text. What is no number prints as too large. -/
def sizeText : Option Binary → String
  | none => "OVERFLOW"
  | some b => if b.isZero then "0" else (Nine.ofRatio b.ratio.1 b.ratio.2).text

/-- A pattern as text: a minus sign or a space, then its size. A zero has no sign. -/
def textOfBits (bits : UInt64) : String :=
  let b := Binary.ofBits? bits
  (if signBit bits && !b.any Binary.isZero then "-" else " ") ++ sizeText b

def text (x : Float) : String := textOfBits x.toBits

end LineBasic.Number
