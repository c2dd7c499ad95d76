import LineBasic.Expression.Evaluation

/-! Expressions as trees, and how they are written. A tree is written with no more brackets than its
operators call for: a child stands in brackets exactly when it binds less tightly than its place
asks. The value of a tree is computed from the leaves up, the left operand before the right. -/

namespace LineBasic

/-- How tightly an operator binds what it is the root of. -/
def Operator.rank : Operator → Nat
  | or => 1
  | and => 2
  | not => 3
  | equal | notEqual | less | lessEqual | greater | greaterEqual => 4
  | plus | minus => 5
  | times | divide => 6
  | power => 8

/-- What the left operand of a binary operator has to bind at least. -/
def Operator.leftNeed (o : Operator) : Nat := if o = power then 9 else o.rank

/-- What the right operand of a binary operator has to bind at least. -/
def Operator.rightNeed (o : Operator) : Nat := if o = power then 8 else o.rank + 1

/-- The levels of the binary operators: powers group to the right, all others to the left. -/
theorem Operator.needs {o : Operator} (ho : o ≠ not) :
    (o.rank = 8 ∧ o.leftNeed = 9 ∧ o.rightNeed = 8) ∨
      (1 ≤ o.rank ∧ o.rank ≤ 6 ∧ o.rank ≠ 3 ∧ o.leftNeed = o.rank ∧ o.rightNeed = o.rank + 1) := by
  cases o <;> first | decide | exact absurd rfl ho

namespace Sign

def operator : Sign → Operator
  | plus => .plus
  | minus => .minus
  | not => .not

/-- How tightly a sign binds; its operand has to bind as tightly. -/
def rank : Sign → Nat
  | plus | minus => 7
  | not => 3

@[simp] theorem ofToken?_operator (s : Sign) : ofToken? (.operator s.operator) = some s := by
  cases s <;> rfl

end Sign

namespace Expression

inductive Tree where
  | number (text : String)
  | string (text : String)
  | scalar (name : String)
  | sign (s : Sign) (arg : Tree)
  | binary (o : Operator) (ho : o ≠ .not) (left right : Tree)

namespace Tree

def level : Tree → Nat
  | number _ | string _ | scalar _ => 9
  | sign s _ => s.rank
  | binary o _ _ _ => o.rank

/-- Tokens of something of one level where another is needed. -/
def enclose (need level : Nat) (ts : List Token) : List Token :=
  if level < need then .leftParen :: (ts ++ [.rightParen]) else ts

def render : Tree → List Token
  | number s => [.number s]
  | string s => [.string s]
  | scalar n => [.name n]
  | sign s e => .operator s.operator :: enclose s.rank e.level e.render
  | binary o _ l r =>
    enclose o.leftNeed l.level l.render ++ .operator o :: enclose o.rightNeed r.level r.render

/-- How many brackets may be open at once in something of one level where another is needed. -/
def deepen (need level nesting : Nat) : Nat := if level < need then nesting + 1 else nesting

/-- How many brackets may be open at once. -/
def nesting : Tree → Nat
  | number _ | string _ | scalar _ => 0
  | sign s e => deepen s.rank e.level e.nesting
  | binary o _ l r =>
    max (deepen o.leftNeed l.level l.nesting) (deepen o.rightNeed r.level r.nesting)

/-- Every variable of the tree is bound to a scalar. -/
def Bound (s : Store) : Tree → Prop
  | number _ | string _ => True
  | scalar n => ∃ v, s.binding? n = some (.scalar v)
  | sign _ e => e.Bound s
  | binary _ _ l r => l.Bound s ∧ r.Bound s

/-- The value of a tree, or the first condition that computing it meets. -/
def eval (s : Store) : Tree → Except Condition Value
  | number t => literal t
  | string t => Value.ofString t
  | scalar n => .ok (s.get ⟨n, []⟩)
  | sign g e => do
    let v ← e.eval s
    g.apply v
  | binary o _ l r => do
    let a ← l.eval s
    let b ← r.eval s
    Value.binary o a b

/-- Binary operators of this rank and above that follow a tree would be taken into it. -/
def reach : Tree → Nat
  | number _ | string _ | scalar _ => 9
  | sign s _ => s.level
  | binary o _ _ _ => o.rightNeed

/-- The highest level at which a tree is read whole: only a binary root can be left to a lower one. -/
def lowest : Tree → Nat
  | binary o _ _ _ => o.rank
  | _ => 9

theorem levels (e : Tree) :
    (e.reach = e.level ∧ e.lowest = 9 ∧ (e.level = 7 ∨ e.level = 9)) ∨
      (e.level = 3 ∧ e.reach = 4 ∧ e.lowest = 9) ∨ (e.level = 8 ∧ e.reach = 8 ∧ e.lowest = 8) ∨
      (e.reach = e.level + 1 ∧ e.lowest = e.level ∧ 1 ≤ e.level ∧ e.level ≤ 6 ∧ e.level ≠ 3) := by
  cases e with
  | number | string | scalar => exact .inl ⟨rfl, rfl, .inr rfl⟩
  | sign s e =>
    cases s with
    | plus | minus => exact .inl ⟨rfl, rfl, .inl rfl⟩
    | not => exact .inr (.inl ⟨rfl, rfl, rfl⟩)
  | binary o ho l r =>
    rcases Operator.needs ho with ⟨hrank, -, hright⟩ | ⟨hlow, hhigh, hne, -, hright⟩
    · exact .inr (.inr (.inl ⟨hrank, hright, hrank⟩))
    · exact .inr (.inr (.inr ⟨hright, rfl, hlow, hhigh, hne⟩))

/-- A left operand that needs no brackets does not take in the operator after it. -/
theorem rank_lt_reach {o : Operator} (ho : o ≠ .not) {e : Tree} (h : o.leftNeed ≤ e.level) :
    o.rank < e.reach := by
  have ho := Operator.needs ho
  have he := e.levels
  omega

theorem rank_le_lowest {o : Operator} (ho : o ≠ .not) {e : Tree} (h : o.leftNeed ≤ e.level) :
    o.rank ≤ e.lowest := by
  have ho := Operator.needs ho
  have he := e.levels
  omega

/-- A right operand that needs no brackets takes in no more than its operator lets it. -/
theorem rightNeed_le_reach {o : Operator} (ho : o ≠ .not) {e : Tree} (h : o.rightNeed ≤ e.level) :
    o.rightNeed ≤ e.reach := by
  have ho := Operator.needs ho
  have he := e.levels
  omega

theorem rightNeed_le_lowest {o : Operator} {e : Tree} (h : o.rightNeed ≤ e.level) :
    o.rightNeed ≤ e.lowest := by
  have he := e.levels
  omega

/-- The operand of a sign that needs no brackets takes in no more than the sign does. -/
theorem signLevel_le_reach {s : Sign} {e : Tree} (h : s.rank ≤ e.level) : s.level ≤ e.reach := by
  have he := e.levels
  cases s <;> simp only [Sign.rank, Sign.level] at h ⊢ <;> omega

theorem signLevel_le_lowest {s : Sign} {e : Tree} (h : s.rank ≤ e.level) : s.level ≤ e.lowest := by
  have he := e.levels
  cases s <;> simp only [Sign.rank, Sign.level] at h ⊢ <;> omega

end Tree

end Expression

end LineBasic
