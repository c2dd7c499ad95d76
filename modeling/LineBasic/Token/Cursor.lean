import LineBasic.Token.Basic

/-! A place in a sequence of tokens, between those passed and those to come. Two views say all about a
cursor: the tokens it stands among, which no movement changes, and its position. -/

namespace LineBasic

structure Cursor where
  /-- The tokens passed, the nearest first. -/
  passed : List Token := []
  rest : List Token := []
  deriving DecidableEq, Repr

namespace Cursor

/-- At the `n`-th token, or at the end where there are fewer. -/
def atToken (tokens : List Token) (n : Nat) : Cursor := ⟨(tokens.take n).reverse, tokens.drop n⟩

def start (tokens : List Token) : Cursor := ⟨[], tokens⟩

def tokens (c : Cursor) : List Token := c.passed.reverse ++ c.rest

def pos (c : Cursor) : Nat := c.passed.length

def seek (c : Cursor) (n : Nat) : Cursor := atToken c.tokens n

/-- Pass the next `n` tokens. -/
def skip (c : Cursor) (n : Nat) : Cursor := ⟨(c.rest.take n).reverse ++ c.passed, c.rest.drop n⟩

def peek? (c : Cursor) : Option Token := c.rest.head?

def peekAt? (c : Cursor) (n : Nat) : Option Token := c.rest[n]?

def advance (c : Cursor) : Cursor :=
  match c.rest with
  | [] => c
  | t :: rest => ⟨t :: c.passed, rest⟩

/-- Whether `t` comes next; then it is passed. -/
def accept (c : Cursor) (t : Token) : Bool × Cursor :=
  if c.peek? == some t then (true, c.advance) else (false, c)

def expect (c : Cursor) (t : Token) : Except Condition Unit × Cursor :=
  match c.accept t with
  | (true, c) => (.ok (), c)
  | (false, c) => (.error (.of .syntaxError), c)

def atEnd (c : Cursor) : Bool := c.rest.isEmpty

/-- A statement ends with the line, at a colon and before `ELSE`. -/
def atStatementEnd (c : Cursor) : Bool :=
  match c.rest with
  | [] | .colon :: _ | .word .ELSE :: _ => true
  | _ => false

/-- On to the next colon, or to the end of the line. -/
def skipStatement (c : Cursor) : Cursor := c.skip (c.rest.takeWhile (· != .colon)).length

def skipLine (c : Cursor) : Cursor := c.skip c.rest.length

@[simp] theorem tokens_start (ts : List Token) : (start ts).tokens = ts := rfl

@[simp] theorem tokens_atToken (ts : List Token) (n : Nat) : (atToken ts n).tokens = ts := by
  simp [atToken, tokens]

@[simp] theorem pos_atToken (ts : List Token) (n : Nat) : (atToken ts n).pos = min n ts.length := by
  simp [atToken, pos]

@[simp] theorem tokens_skip (c : Cursor) (n : Nat) : (c.skip n).tokens = c.tokens := by
  simp [skip, tokens]

@[simp] theorem pos_skip (c : Cursor) (n : Nat) :
    (c.skip n).pos = c.pos + min n c.rest.length := by
  simp [skip, pos]
  omega

/-- Advancing passes one token. -/
theorem advance_eq_skip (c : Cursor) : c.advance = c.skip 1 := by
  obtain ⟨passed, rest⟩ := c
  cases rest <;> rfl

@[simp] theorem tokens_advance (c : Cursor) : c.advance.tokens = c.tokens := by
  rw [advance_eq_skip, tokens_skip]

/-- Going to a later place passes the tokens on the way. -/
theorem seek_pos_add (c : Cursor) (n : Nat) : c.seek (c.pos + n) = c.skip n := by
  simp [seek, atToken, tokens, skip, pos, List.take_append, List.drop_append, List.take_of_length_le]

/-- How many tokens there are up to the `ELSE` that pairs with an open `IF`, that one included, where
`depth` further ones were opened since. -/
def elseDistance? : Nat → List Token → Option Nat
  | _, [] => none
  | depth, .word .IF :: rest => (elseDistance? (depth + 1) rest).map (· + 1)
  | 0, .word .ELSE :: _ => some 1
  | depth + 1, .word .ELSE :: rest => (elseDistance? depth rest).map (· + 1)
  | depth, _ :: rest => (elseDistance? depth rest).map (· + 1)

/-- The position after the `ELSE` that belongs to the `IF` just passed. -/
def findElse? (c : Cursor) : Option Nat := (elseDistance? 0 c.rest).map (c.pos + ·)

theorem seek_of_findElse? {c : Cursor} {n : Nat} (h : c.findElse? = some n) : ∃ k, c.seek n = c.skip k := by
  obtain ⟨k, -, rfl⟩ := Option.map_eq_some_iff.mp h
  exact ⟨k, c.seek_pos_add k⟩

end Cursor

end LineBasic
