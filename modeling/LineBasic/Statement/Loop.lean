import LineBasic.Machine.State

/-! Loops: `FOR` and `NEXT`. Only the loops above the last call on the stack are in reach. -/

namespace LineBasic.Statement

/-- The nearest loop in reach over a variable, or over any where none is named, and the frames below
it. -/
def findLoop? (var : Option String) : List Frame → Option (Loop × List Frame)
  | .loop l :: below => if var.all (· == l.var) then some (l, below) else findLoop? var below
  | _ => none

/-- Open a loop. It replaces the one in reach over the same variable, and all that was opened inside
that one. -/
def openLoop (stack : Stack Frame) (l : Loop) : Except Condition (Stack Frame) :=
  let below := match findLoop? (some l.var) stack.items with
    | some (_, below) => below
    | none => stack.items
  { stack with items := below }.push (.loop l)

/-- A number after `STEP`, or one. -/
def stepClause : Exec Float := do
  if ← Eval.accept (.word .STEP) then Exec.number else return 1

def forLoop : Exec Flow := do
  let c ← Exec.target
  require (!c.isString) (.of .typeMismatch)
  require c.indexes.isEmpty (.of .syntaxError)
  Eval.expect (.operator .equal)
  let start ← Exec.number
  Exec.assign c (.number start)
  Eval.expect (.word .TO)
  let limit ← Exec.number
  let step ← stepClause
  Eval.endStatement
  let m ← get
  let stack ← openLoop m.stack ⟨c.name, limit, step, m.position⟩
  set { m with stack }
  return .done

/-- The name that comes next, if one does. -/
def name? : Eval (Option String) := do
  match ← Eval.peek? with
  | some (.name _) => some <$> Eval.name
  | _ => return none

def setFrames (frames : List Frame) : Exec Unit :=
  modify fun m => { m with stack := { m.stack with items := frames } }

/-- One step of a loop: what was opened inside it is closed, and its variable steps on. Tells whether
execution goes on in the loop, which is closed if not. -/
def stepLoop (l : Loop) (below : List Frame) : Exec Bool := do
  setFrames (.loop l :: below)
  let x ← ((← get).store.get ⟨l.var, []⟩).asNumber
  let x := x + l.step
  require x.isFinite (.of .overflow)
  Exec.assign ⟨l.var, []⟩ (.number x)
  if l.goesOn x then
    Exec.jump l.body
    return true
  else
    setFrames below
    return false

/-- Step the loop over the variable that comes next, or the nearest one; when it ends, go on with the
variable after a comma. There are at most `n` tokens left. -/
def stepLoops : Nat → Exec Flow
  | 0 => return .done
  | n + 1 => do
    let var ← name?
    match findLoop? var (← get).stack.items with
    | none => throw (.of .nextWithoutFor)
    | some (l, below) =>
      if ← stepLoop l below then return .moved
      else if var.isNone then return .done
      else if ← Eval.accept .comma then stepLoops n
      else return .done

def next : Exec Flow := do stepLoops ((← Eval.tokensLeft) + 1)

end LineBasic.Statement
