import LineBasic.Proofs.Expression.Forward
import LineBasic.Proofs.Machine.Frames

/-! What a statement can do to the machine, said once for all of them, and what a machine may have in
the background without a statement taking notice. -/

namespace LineBasic

namespace Machine

/-- Execution has left the direct line, and nothing leads back to it. -/
structure Deferred (m : Machine) : Prop where
  line : m.line.isSome
  frames : ∀ f ∈ m.stack.items, f.position.line.isSome
  failure : ∀ f, m.failure = some f → f.statement.line.isSome

/-- The cursor stands among the tokens of the line that is executed. -/
def Walks (m : Machine) : Prop := m.tokensOf m.line = .ok m.cursor.tokens

/-- The states that a statement may lead to from `m₀`: by reading on, printing, changes of the tables,
and frames that are opened here or closed; by a jump, if `jumps`; and by changes of what `ON ERROR` and
`CONT` go by, if `registers`. -/
inductive Change (jumps registers : Bool) (m₀ : Machine) : Machine → Prop
  | refl : Change jumps registers m₀ m₀
  | workspace {m : Machine} {w : Workspace} (h : Change jumps registers m₀ m) (hw : Past m.toWorkspace w) :
      Change jumps registers m₀ { m with toWorkspace := w }
  | tables {m : Machine} (t : Tape) (functions : Std.TreeMap String UserFunction)
      (data : Option DataPointer) (h : Change jumps registers m₀ m) :
      Change jumps registers m₀ { m with tape := t, functions, data }
  | loop {m : Machine} {l : Loop} {stack : Stack Frame} (h : Change jumps registers m₀ m)
      (hbody : l.body = m.position) (hvar : isStringName l.var = false)
      (hc : m.store.Holds ⟨l.var, []⟩) (hs : Statement.openLoop m.stack l = .ok stack) :
      Change jumps registers m₀ { m with stack }
  | call {m : Machine} {stack : Stack Frame} (h : Change jumps registers m₀ m)
      (hs : m.stack.push (.call m.position) = .ok stack) : Change jumps registers m₀ { m with stack }
  | close {m : Machine} {frames : List Frame} (h : Change jumps registers m₀ m)
      (hs : frames <:+ m.stack.items) :
      Change jumps registers m₀ { m with stack := { m.stack with items := frames } }
  | jump {m : Machine} {p : Position} {tokens : List Token} (hj : jumps = true)
      (h : Change jumps registers m₀ m) (ht : m.tokensOf p.line = .ok tokens)
      (hp : m₀.Deferred → p.line.isSome) :
      Change jumps registers m₀ { m with cursor := .atToken tokens p.token, line := p.line }
  | clear {m : Machine} (hr : registers = true) (h : Change jumps registers m₀ m) :
      Change jumps registers m₀ m.clear
  | trap {m : Machine} (t : Option Trap) (b : Bool) (hr : registers = true)
      (h : Change jumps registers m₀ m) :
      Change jumps registers m₀ { m with trap := t, handling := b }
  | forget {m : Machine} (hr : registers = true) (h : Change jumps registers m₀ m) :
      Change jumps registers m₀ { m with continuation := none }

namespace Change

variable {jumps registers : Bool} {m₀ m : Machine}

theorem mono {jumps' registers' : Bool} (h : Change jumps registers m₀ m)
    (hjumps : jumps = true → jumps' = true) (hregisters : registers = true → registers' = true) :
    Change jumps' registers' m₀ m := by
  induction h with
  | refl => exact .refl
  | workspace _ hw ih => exact .workspace ih hw
  | tables t f d _ ih => exact .tables t f d ih
  | loop _ hbody hvar hc hs ih => exact .loop ih hbody hvar hc hs
  | call _ hs ih => exact .call ih hs
  | close _ hs ih => exact .close ih hs
  | jump hj _ ht hp ih => exact .jump (hjumps hj) ih ht hp
  | clear hr _ ih => exact .clear (hregisters hr) ih
  | trap t b hr _ ih => exact .trap t b (hregisters hr) ih
  | forget hr _ ih => exact .forget (hregisters hr) ih

/-- No statement edits the program, apart from `DELETE` and `NEW`. -/
theorem program (h : Change jumps registers m₀ m) : m.program = m₀.program := by
  induction h with
  | refl => rfl
  | _ => assumption

theorem running (h : Change jumps registers m₀ m) : m.running = m₀.running := by
  induction h with
  | refl => rfl
  | _ => assumption

theorem statement (h : Change jumps registers m₀ m) : m.statement = m₀.statement := by
  induction h with
  | refl => rfl
  | _ => assumption

theorem report (h : Change jumps registers m₀ m) : m.report = m₀.report := by
  induction h with
  | refl => rfl
  | _ => assumption

/-- Without a jump the same line is executed. -/
theorem line (h : Change false registers m₀ m) : m.line = m₀.line := by
  induction h with
  | refl => rfl
  | jump hj => cases hj
  | _ => assumption

/-- Without a jump the cursor comes forward. -/
theorem cursor (h : Change false registers m₀ m) : ∃ n, m.cursor = m₀.cursor.skip n := by
  induction h with
  | refl => exact ⟨0, rfl⟩
  | workspace _ hw ih =>
    obtain ⟨k, hk⟩ := ih
    obtain ⟨n, hn⟩ := hw.cursor
    exact ⟨k + n, by rw [hn, hk, Expression.skip_skip]⟩
  | jump hj => cases hj
  | _ => assumption

theorem handling (h : Change jumps false m₀ m) : m.handling = m₀.handling := by
  induction h with
  | refl => rfl
  | clear hr => cases hr
  | trap _ _ hr => cases hr
  | _ => assumption

theorem inquiry (h : Change jumps registers m₀ m) (hm : m₀.inquiry = none) : m.inquiry = none := by
  induction h with
  | refl => exact hm
  | clear => rfl
  | _ => assumption

theorem unbroken (h : Change jumps registers m₀ m) (hm : m₀.breakRequested = false) :
    m.breakRequested = false := by
  induction h with
  | refl => exact hm
  | clear => rfl
  | _ => assumption

theorem failure (h : Change jumps registers m₀ m) : m.failure = m₀.failure ∨ m.failure = none := by
  induction h with
  | refl => exact .inl rfl
  | clear => exact .inr rfl
  | _ => assumption

theorem continuation (h : Change jumps registers m₀ m) :
    m.continuation = m₀.continuation ∨ m.continuation = none := by
  induction h with
  | refl => exact .inl rfl
  | clear | forget => exact .inr rfl
  | _ => assumption

theorem walks (h : Change jumps registers m₀ m) (hm : m₀.Walks) : m.Walks := by
  induction h with
  | refl => exact hm
  | workspace _ hw ih => exact ih.trans (congrArg Except.ok hw.tokens.symm)
  | jump _ _ ht => exact ht.trans (congrArg Except.ok (Cursor.tokens_atToken _ _).symm)
  | _ => assumption

/-- Without a change of the registers the variables are not cleared. -/
theorem develops (h : Change jumps false m₀ m) : m₀.store.Develops m.store := by
  induction h with
  | refl => exact .refl _
  | workspace _ hw ih => exact ih.trans hw.store
  | clear hr => cases hr
  | _ => assumption

/-- A run that has left the direct line does not come back to it. -/
theorem deferred (h : Change jumps registers m₀ m) (hm : m₀.Deferred) : m.Deferred := by
  induction h with
  | refl => exact hm
  | loop _ hbody _ _ hs ih =>
    refine ⟨ih.line, fun f hf => ?_, ih.failure⟩
    obtain ⟨below, hitems, hbelow⟩ := Statement.openLoop_items hs
    rw [hitems] at hf
    rcases List.mem_cons.mp hf with rfl | hf
    · rw [Frame.position, hbody]
      exact ih.line
    · exact ih.frames f (hbelow.subset hf)
  | call _ hs ih =>
    refine ⟨ih.line, fun f hf => ?_, ih.failure⟩
    rw [Stack.items_push hs] at hf
    rcases List.mem_cons.mp hf with rfl | hf
    · exact ih.line
    · exact ih.frames f hf
  | close _ hs ih => exact ⟨ih.line, fun f hf => ih.frames f (hs.subset hf), ih.failure⟩
  | jump _ _ _ hp ih => exact ⟨hp hm, ih.frames, ih.failure⟩
  | clear _ _ ih => exact ⟨ih.line, nofun, nofun⟩
  | workspace _ _ ih | tables _ _ _ _ ih | trap _ _ _ _ ih | forget _ _ ih =>
    exact ⟨ih.line, ih.frames, ih.failure⟩

theorem trans {m' : Machine} (h : Change jumps registers m₀ m) (h' : Change jumps registers m m') :
    Change jumps registers m₀ m' := by
  induction h' with
  | refl => exact h
  | workspace _ hw ih => exact .workspace ih hw
  | tables t f d _ ih => exact .tables t f d ih
  | loop _ hbody hvar hc hs ih => exact .loop ih hbody hvar hc hs
  | call _ hs ih => exact .call ih hs
  | close _ hs ih => exact .close ih hs
  | jump hj _ ht hp ih => exact .jump hj ih ht fun hm => hp (h.deferred hm)
  | clear hr _ ih => exact .clear hr ih
  | trap t b hr _ ih => exact .trap t b hr ih
  | forget hr _ ih => exact .forget hr ih

end Change

end Machine

theorem Exec.jump_of_ok {m : Machine} {p : Position} {tokens : List Token}
    (h : m.tokensOf p.line = .ok tokens) :
    Exec.jump p m = (.ok (), { m with cursor := .atToken tokens p.token, line := p.line }) := by
  rw [jump, bind_get, h]
  rfl

theorem Exec.jump_of_error {m : Machine} {p : Position} {e : Condition}
    (h : m.tokensOf p.line = .error e) : Exec.jump p m = (.error e, m) := by
  rw [jump, bind_get, h]
  rfl

/-- Parts of the machine put in place of those that it has: the direct line, where to continue, what was
printed and what is typed ahead. Printing goes on after what was printed, and reading starts with what
is there. -/
structure Backdrop where
  direct : List Token → List Token := id
  continuation : Option Continuation → Option Continuation := id
  output : String → String := id
  input : List String → List String := id
  continuation_none : continuation none = none := by rfl
  output_append : ∀ s t, output (s ++ t) = output s ++ t := by exact fun _ _ => rfl
  input_cons : ∀ s rest, input (s :: rest) = s :: input rest := by exact fun _ _ => rfl

namespace Backdrop

def onTape (b : Backdrop) (t : Tape) : Tape :=
  { t with output := b.output t.output, input := b.input t.input }

/-- The machine before another background. -/
def behind (b : Backdrop) (m : Machine) : Machine :=
  { m with
    direct := b.direct m.direct, continuation := b.continuation m.continuation,
    tape := b.onTape m.tape }

/-- No run that starts here can tell: it is not in the direct line, or that is left as it is. -/
def Spares (b : Backdrop) (m : Machine) : Prop :=
  (b.direct = id ∧ b.continuation = id) ∨ m.Deferred

/-- What the machine has itself. -/
def own : Backdrop := {}

theorem own_spares (m : Machine) : own.Spares m := .inl ⟨rfl, rfl⟩

/-- Before what it has itself the machine is as it is. -/
theorem commutes_id {α : Type} {m : Machine} {x : Exec α} {Q : α → Machine → Prop} {E : Machine → Prop}
    (h : CommutesAt own.behind m x x Q E) : CommutesAt id m x x Q E := h

variable (b : Backdrop) {m₀ m : Machine}

@[simp] theorem stack_behind : (b.behind m).stack = m.stack := rfl

@[simp] theorem failure_behind : (b.behind m).failure = m.failure := rfl

@[simp] theorem handling_behind : (b.behind m).handling = m.handling := rfl

@[simp] theorem program_behind : (b.behind m).program = m.program := rfl

@[simp] theorem cursor_behind : (b.behind m).cursor = m.cursor := rfl

theorem write_onTape (t : Tape) (s : String) : (b.onTape t).write s = b.onTape (t.write s) := by
  simp [Tape.write, onTape, b.output_append]

theorem comma_onTape (t : Tape) : (b.onTape t).comma = b.onTape t.comma := by
  have hcolumn : (b.onTape t).column = t.column := rfl
  rw [Tape.comma, Tape.comma, Tape.tab, Tape.tab, hcolumn]
  split
  · exact b.write_onTape t _
  · rfl

theorem report_onTape (t : Tape) (c : Condition) : (b.onTape t).report c = b.onTape (t.report c) := by
  have hcolumn : (b.onTape t).column = t.column := rfl
  rw [Tape.report, Tape.report, hcolumn, ← write_onTape]
  split
  · rw [Tape.newline, Tape.newline, write_onTape]
  · rfl

theorem read_onTape {t : Tape} (h : b.input = id ∨ t.input ≠ []) :
    (b.onTape t).read = (t.read.1, b.onTape t.read.2) := by
  obtain ⟨output, _ | ⟨line, rest⟩, column⟩ := t
  · rcases h with h | h
    · simp [Tape.read, onTape, h]
    · exact absurd rfl h
  · simp [Tape.read, onTape, b.input_cons]

theorem clear_behind : (b.behind m).clear = b.behind m.clear := by
  simp [Machine.clear, behind, b.continuation_none]

variable {b}

theorem Spares.after {jumps registers : Bool} (hb : b.Spares m₀)
    (h : Machine.Change jumps registers m₀ m) : b.Spares m :=
  hb.imp_right h.deferred

theorem tokensOf_behind (hb : b.Spares m₀) {line : Option Nat} (h : m₀.Deferred → line.isSome) :
    (b.behind m).tokensOf line = m.tokensOf line := by
  cases line with
  | some n => rfl
  | none =>
    rcases hb with ⟨hdirect, -⟩ | hdeferred
    · exact congrArg Except.ok (congrFun hdirect m.direct)
    · cases h hdeferred

end Backdrop

end LineBasic
