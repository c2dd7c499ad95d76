import LineBasic.Condition

/-! A stack of limited height. -/

namespace LineBasic

structure Stack (α : Type) where
  /-- The remark of the condition that a full stack raises. -/
  remark : String
  /-- The items, the top first. -/
  items : List α := []
  deriving Repr

namespace Stack

variable {α : Type}

def maxSize : Nat := 50

def size (s : Stack α) : Nat := s.items.length

def isEmpty (s : Stack α) : Bool := s.items.isEmpty

def clear (s : Stack α) : Stack α := { s with items := [] }

def top? (s : Stack α) : Option α := s.items.head?

def pop (s : Stack α) : Stack α := { s with items := s.items.tail }

def checkRoom (s : Stack α) : Except Condition Unit :=
  if s.size < maxSize then .ok () else .error (.of .outOfMemory s.remark)

def push (s : Stack α) (a : α) : Except Condition (Stack α) := do
  s.checkRoom
  return { s with items := a :: s.items }

/-- Keep the lowest `n` items. -/
def truncate (s : Stack α) (n : Nat) : Stack α := { s with items := s.items.drop (s.size - n) }

def bottomFirst (s : Stack α) : List α := s.items.reverse

/-- The items between brackets, the lowest first. -/
def text (render : α → String) (s : Stack α) : String :=
  "[" ++ ", ".intercalate (s.bottomFirst.map render) ++ "]"

end Stack

end LineBasic
