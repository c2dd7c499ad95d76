/-! Blank characters and trimming. `isBlank` is the Unicode property White_Space;
`isSpace` is the narrower class of separators inside a program line. -/

namespace LineBasic.Text

/-- The code points with the property White_Space, as inclusive ranges in ascending order. -/
def blankRanges : List (Nat × Nat) :=
  [(0x09, 0x0D), (0x20, 0x20), (0x85, 0x85), (0xA0, 0xA0), (0x1680, 0x1680), (0x2000, 0x200A),
   (0x2028, 0x2029), (0x202F, 0x202F), (0x205F, 0x205F), (0x3000, 0x3000)]

def isBlank (c : Char) : Bool :=
  blankRanges.any fun (lo, hi) => lo ≤ c.toNat && c.toNat ≤ hi

/-- What separates the tokens of a line: a space or a tab, no other blank. -/
def isSpace (c : Char) : Bool := c == ' ' || c == '\t'

/-- Drop the longest run at the end whose characters all pass `p`. -/
def dropEndWhile (p : Char → Bool) (s : List Char) : List Char :=
  (s.reverse.dropWhile p).reverse

def trimStart (s : List Char) : List Char := s.dropWhile isBlank

def trimEnd (s : List Char) : List Char := dropEndWhile isBlank s

def trim (s : List Char) : List Char := trimEnd (trimStart s)

/-- The pieces of `s` between the line feeds. -/
def lines (s : List Char) : List (List Char) := s.splitOnP (· == '\n')

end LineBasic.Text
