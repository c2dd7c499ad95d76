import LineBasic.Token.Basic

/-! Keywords: every fixed spelling that stands for a token, the longest first, so that the first one
found at the start of a text is the longest there. Case is ignored, for ASCII letters only. -/

namespace LineBasic.Keyword

/-- Spellings that are read but never listed. -/
def aliases : List (String × Token) :=
  [("?", .word .PRINT), ("=<", .operator .lessEqual), ("=>", .operator .greaterEqual),
   ("><", .operator .notEqual)]

/-- The tokens that have a spelling of their own. -/
def tokens : List Token :=
  Word.all.map .word ++ Function.all.map .function ++ Operator.all.map .operator ++
    [.leftParen, .rightParen, .comma, .colon, .semicolon]

def spellings : List (List Char × Token) :=
  (tokens.map (fun t => (t.text, t)) ++ aliases).map fun (s, t) => (s.toList, t)

/-- No spelling is longer. -/
def maxLength : Nat := 7

/-- The spellings by falling length. -/
def longestFirst : List (List Char × Token) :=
  (List.range (maxLength + 1)).reverse.flatMap fun n => spellings.filter (·.1.length == n)

/-- The token that the whole of `s` spells. -/
def whole? (s : List Char) : Option Token :=
  (longestFirst.find? (·.1 == s.map Char.toUpper)).map (·.2)

/-- The longest spelling at the start of `s`: its length and its token. -/
def longest? (s : List Char) : Option (Nat × Token) :=
  let head := (s.take maxLength).map Char.toUpper
  (longestFirst.find? (·.1.isPrefixOf head)).map fun (k, t) => (k.length, t)

theorem longestFirst_pos : ∀ k ∈ longestFirst, 0 < k.1.length := by decide +kernel

/-- A spelling that is found is not empty, so reading past it gets on. -/
theorem longest?_pos {s : List Char} {n : Nat} {t : Token} (h : longest? s = some (n, t)) :
    0 < n := by
  obtain ⟨k, hk, heq⟩ := Option.map_eq_some_iff.mp h
  have := longestFirst_pos k (List.mem_of_find?_eq_some hk)
  simp only [Prod.mk.injEq] at heq
  omega

end LineBasic.Keyword
