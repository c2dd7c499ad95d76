import LineBasic.Text.Blank

/-! Decimal numerals: a sign, a mantissa of digits with a point, an exponent. A numeral is read to the
nearest binary number, ties to even. Numerals whose size is out of all range are settled by their
exponent alone, so that no huge power of ten is ever formed. -/

namespace LineBasic

/-- The number `± coefficient · 10 ^ exponent`. -/
structure Numeral where
  negative : Bool
  coefficient : Nat
  exponent : Int
  deriving DecidableEq, Repr

namespace Numeral

/-- A sign at the front of a text, or nothing. -/
def sign : List Char → List Char × List Char
  | '+' :: rest => (['+'], rest)
  | '-' :: rest => (['-'], rest)
  | rest => ([], rest)

/-- A mantissa as written: digits, and further digits if a point stands between. -/
structure Mantissa where
  whole : List Char
  fraction : Option (List Char)
  deriving DecidableEq, Repr

namespace Mantissa

def digits (m : Mantissa) : List Char := m.whole ++ m.fraction.getD []

def text (m : Mantissa) : List Char :=
  match m.fraction with
  | some digits => m.whole ++ '.' :: digits
  | none => m.whole

end Mantissa

/-- The longest mantissa at the front of a text, which may lack every part, and the text after it. -/
def mantissa (s : List Char) : Mantissa × List Char :=
  let whole := s.takeWhile Char.isDigit
  match s.dropWhile Char.isDigit with
  | '.' :: rest => (⟨whole, some (rest.takeWhile Char.isDigit)⟩, rest.dropWhile Char.isDigit)
  | rest => (⟨whole, none⟩, rest)

theorem mantissa_length (s : List Char) :
    (mantissa s).1.text.length + (mantissa s).2.length = s.length := by
  have h := congrArg List.length (List.takeWhile_append_dropWhile (p := Char.isDigit) (l := s))
  simp only [List.length_append] at h
  unfold mantissa
  dsimp only
  split
  · rename_i rest hd
    have hr := congrArg List.length
      (List.takeWhile_append_dropWhile (p := Char.isDigit) (l := rest))
    simp only [List.length_append] at hr
    simp only [hd, List.length_cons] at h
    simp only [Mantissa.text, List.length_append, List.length_cons]
    omega
  · exact h

theorem Mantissa.text_ne_nil {m : Mantissa} (h : m.digits ≠ []) : m.text ≠ [] := by
  unfold Mantissa.digits Mantissa.text at *
  cases hf : m.fraction <;> simp_all

/-- The exponent that a text spells as a whole; the empty text spells zero. -/
def exponent? (s : List Char) : Option Int :=
  match s with
  | [] => some 0
  | mark :: rest =>
    let (sgn, digits) := sign rest
    if mark.toUpper == 'E' && !digits.isEmpty && digits.all Char.isDigit then
      let n : Int := Nat.ofDigitChars 10 digits 0
      some (if sgn == ['-'] then -n else n)
    else none

/-- The numeral that a text spells as a whole. There is at least one digit before the exponent. -/
def ofChars? (s : List Char) : Option Numeral :=
  let (sgn, s) := sign s
  let (m, rest) := mantissa s
  if m.digits.isEmpty then none
  else (exponent? rest).map fun e =>
    ⟨sgn == ['-'], Nat.ofDigitChars 10 m.digits 0, e - (m.fraction.getD []).length⟩

/-- Numbers of at least `10 ^ extent` are infinite, and those below its inverse are zero. -/
def extent : Int := 400

/-- The size of a numeral as a binary number. The coefficient is below `10 ^ (log2 / 3 + 1)`. -/
def magnitude (n : Numeral) : Float :=
  if n.coefficient == 0 then 0
  else if n.exponent > extent then 1 / 0
  else if n.exponent + n.coefficient.log2 / 3 + 1 < -extent then 0
  else Float.ofScientific n.coefficient (n.exponent < 0) n.exponent.natAbs

def toFloat (n : Numeral) : Float := if n.negative then -n.magnitude else n.magnitude

end Numeral

namespace Number

/-- The number a text spells as a whole, if there is one and it is not too large. -/
def finite? (s : List Char) : Option Float :=
  ((Numeral.ofChars? s).map Numeral.toFloat).filter Float.isFinite

/-- Read a typed answer or an item of data: blanks around it do not count, and nothing is zero. -/
def read? (s : List Char) : Option Float :=
  let s := Text.trim s
  if s.isEmpty then some 0 else finite? s

/-- The characters that occur in numerals. -/
def isNumeralChar (c : Char) : Bool :=
  c.isDigit || c == '.' || c == 'e' || c == 'E' || c == '+' || c == '-'

/-- The number spelt by the longest beginning of `s`, of at most `n` characters, that spells one. -/
def longestWithin? (s : List Char) : Nat → Option Float
  | 0 => none
  | n + 1 => (finite? (s.take (n + 1))).or (longestWithin? s n)

/-- The number at the front of a text after blanks, or zero. -/
def leading (s : List Char) : Float :=
  let run := (Text.trimStart s).takeWhile isNumeralChar
  (longestWithin? run run.length).getD 0

end Number

end LineBasic
