import Std.Data.TreeMap
import LineBasic.Value.Basic

/-! The store of variables. A name is bound to a scalar or to an array, and springs into being where it
is first used: as a scalar without subscripts, with subscripts as an array whose bounds are all
ten. The number of names and the size of an array are limited. -/

namespace LineBasic

inductive Binding where
  | scalar (v : Value)
  /-- The upper bound of each subscript, and the cells row by row, the last subscript the fastest. -/
  | array (bounds : List Nat) (cells : Array Value)

def Binding.setScalar (v : Value) (_ : Binding) : Binding := .scalar v

def Binding.setCell (i : Nat) (v : Value) : Binding → Binding
  | .array bounds cells => .array bounds (cells.setIfInBounds i v)
  | b => b

/-- A place for one value: a name and, within an array, subscripts. -/
structure Cell where
  name : String
  indexes : List Nat
  deriving DecidableEq, Repr

def Cell.isString (c : Cell) : Bool := isStringName c.name

structure Store where
  bindings : Std.TreeMap String Binding := ∅

namespace Store

/-- The upper bound of every subscript of an array that was never dimensioned. -/
def implicitBound : Nat := 10

def maxCells : Nat := Nat.pow 2 20

def maxBindings : Nat := 65535

def wrongSubscripts : Condition := .of .syntaxError "WRONG NUMBER OF SUBSCRIPTS"

def empty : Store := {}

def binding? (s : Store) (name : String) : Option Binding := s.bindings[name]?

/-- Subscripts run from zero, so a bound `b` makes room for `b + 1`. -/
def cellCount (bounds : List Nat) : Nat := bounds.foldl (fun n b => n * (b + 1)) 1

/-- A new array, every cell at its first value. -/
def newArray (name : String) (bounds : List Nat) : Except Condition Binding :=
  if cellCount bounds ≤ maxCells then
    .ok (.array bounds (Array.replicate (cellCount bounds) (Value.initial name)))
  else .error (.of .outOfMemory)

/-- Bind one more name. -/
def bind (s : Store) (name : String) (b : Binding) : Except Condition Store :=
  if s.bindings.size < maxBindings then .ok ⟨s.bindings.insert name b⟩
  else .error (.of .outOfMemory)

/-- Make an array of a name that is not in use. -/
def dimension (s : Store) (name : String) (bounds : List Int) : Except Condition Store :=
  if (s.binding? name).isSome then .error (.of .redimensionedArray)
  else if bounds.any (· < 0) then .error (.of .illegalQuantity)
  else do s.bind name (← newArray name (bounds.map Int.toNat))

/-- Dimension one array. A refusal leaves the store as it was. -/
def dim (s : Store) (name : String) (bounds : List Int) : Except Condition Unit × Store :=
  match s.dimension name bounds with
  | .ok s => (.ok (), s)
  | .error e => (.error e, s)

/-- Bind a name by its first use with so many subscripts; a bound name stays as it is. -/
def ensure (s : Store) (name : String) (rank : Nat) : Except Condition Store :=
  if (s.binding? name).isSome then .ok s
  else if rank == 0 then s.bind name (.scalar (Value.initial name))
  else do s.bind name (← newArray name (List.replicate rank implicitBound))

/-- The cell that subscripts select in a binding. -/
def cellOf (name : String) (indexes : List Int) : Option Binding → Except Condition Cell
  | some (.scalar _) => if indexes.isEmpty then .ok ⟨name, []⟩ else .error wrongSubscripts
  | some (.array bounds _) =>
    if bounds.length == indexes.length then
      if (indexes.zip bounds).all fun (i, b) => 0 ≤ i && i ≤ b then
        .ok ⟨name, indexes.map Int.toNat⟩
      else .error (.of .badSubscript)
    else .error wrongSubscripts
  | none => .error wrongSubscripts

/-- The cell of a name and its subscripts. The name is bound first where it was not, and stays bound
also when the subscripts are refused. -/
def locate (s : Store) (name : String) (indexes : List Int) : Except Condition Cell × Store :=
  match s.ensure name indexes.length with
  | .error e => (.error e, s)
  | .ok s => (cellOf name indexes (s.binding? name), s)

/-- Where the cells of an array hold the one with these subscripts. -/
def offset? : List Nat → List Nat → Nat → Option Nat
  | [], [], n => some n
  | b :: bounds, i :: indexes, n => if i ≤ b then offset? bounds indexes (n * (b + 1) + i) else none
  | _, _, _ => none

/-- The value of a cell; a cell that is not there has its first value. -/
def get (s : Store) (c : Cell) : Value :=
  let found := match s.binding? c.name with
    | some (.scalar v) => if c.indexes.isEmpty then some v else none
    | some (.array bounds cells) => (offset? bounds c.indexes 0).bind (cells[·]?)
    | none => none
  found.getD (Value.initial c.name)

/-- The value as a variable of this name may hold it. -/
def conform (name : String) (v : Value) : Except Condition Value :=
  if v.isString == isStringName name then
    match v with
    | .string s => Value.ofString s
    | .number x => .ok (.number x)
  else .error (.of .typeMismatch)

/-- Put a value into a cell of a bound name. -/
def put (s : Store) (c : Cell) (v : Value) : Except Condition Unit × Store :=
  match s.binding? c.name with
  | some (.scalar _) =>
    if c.indexes.isEmpty then (.ok (), ⟨s.bindings.modify c.name (Binding.setScalar v)⟩)
    else (.error wrongSubscripts, s)
  | some (.array bounds cells) =>
    match offset? bounds c.indexes 0 with
    | some i =>
      if i < cells.size then (.ok (), ⟨s.bindings.modify c.name (Binding.setCell i v)⟩)
      else (.error (.of .badSubscript), s)
    | none => (.error (.of .badSubscript), s)
  | none => (.error wrongSubscripts, s)

/-- Assign to a cell. A name that is no longer bound is bound again as by a first use. -/
def set (s : Store) (c : Cell) (v : Value) : Except Condition Unit × Store :=
  match conform c.name v with
  | .error e => (.error e, s)
  | .ok v =>
    if (s.binding? c.name).isSome then s.put c v
    else match s.locate c.name (c.indexes.map Int.ofNat) with
      | (.error e, s) => (.error e, s)
      | (.ok _, s) => s.put c v

/-- Exchange what a name is bound to, also for nothing, and give what it was. -/
def swap (s : Store) (name : String) : Option Binding → Option Binding × Store
  | some b => (s.binding? name, ⟨s.bindings.insert name b⟩)
  | none => (s.binding? name, ⟨s.bindings.erase name⟩)

end Store

end LineBasic
