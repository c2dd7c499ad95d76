import LineBasic.Proofs.Machine.Change
import LineBasic.Proofs.Statement.Extension

/-! What a statement may do to the machine, taken apart into actions. Each statement makes only the actions
of its first word, so that what all of these keep is kept by the statement, also where it fails half-way
through. -/

namespace LineBasic

/-- The ways in which statements change the machine. -/
inductive Action where
  /-- Reading on, with what the expressions do to the workspace. -/
  | scan
  /-- Printing, and reading what is typed. -/
  | tape
  | define
  /-- Taking an item of data. -/
  | take
  | restore
  | goto
  | openLoop
  | call
  | stepLoop
  | ret
  | trap
  /-- Leaving an error handler. -/
  | leave
  | resume
  | clear
  | cont
  | delete
  | erase
  | inquire
  deriving DecidableEq, Repr

/-- The actions of the statement that starts with a word. -/
def Word.actions : Word → List Action
  | .CLEAR => [.clear]
  | .CONT => [.cont]
  | .DATA | .DIM | .ELSE | .ERROR | .LET | .REM => [.scan]
  | .DEF => [.scan, .define]
  | .DELETE => [.scan, .delete]
  | .FOR => [.scan, .openLoop]
  | .GOSUB => [.scan, .call, .goto]
  | .GOTO | .IF => [.scan, .goto]
  | .INPUT => [.scan, .tape, .inquire]
  | .LIST | .PRINT => [.scan, .tape]
  | .NEW => [.erase]
  | .NEXT => [.scan, .stepLoop]
  | .ON => [.scan, .call, .goto, .trap, .leave]
  | .READ => [.scan, .take]
  | .RESTORE => [.scan, .restore]
  | .RESUME => [.scan, .leave, .goto, .resume]
  | .RETURN => [.ret]
  | .RUN => [.scan, .clear, .goto]
  | .END | .STOP | .SYSTEM | .FN | .STEP | .THEN | .TO => []

/-- What `NEW` leaves of the machine. -/
def Statement.erased (m : Machine) : Machine :=
  { ({ m with program := .empty }).clear with line := none, cursor := m.cursor.skipLine }

namespace Machine

/-- Where an action may lead. -/
inductive Makes : Action → Machine → Machine → Prop
  | scan {m : Machine} {w : Workspace} (hw : Past m.toWorkspace w) :
      Makes .scan m { m with toWorkspace := w }
  | tape {m : Machine} (t : Tape) : Makes .tape m { m with tape := t }
  | define {m : Machine} (functions : Std.TreeMap String UserFunction) :
      Makes .define m { m with functions }
  | take {m : Machine} : Makes .take m { m with data := (Datum.read m.program m.data).2 }
  | restore {m : Machine} : Makes .restore m { m with data := none }
  | restoreAt {m : Machine} {n : Nat} {l : ProgramLine} (h : m.program.get n = .ok l) :
      Makes .restore m { m with data := some ⟨n, 0, false⟩ }
  | goto {m : Machine} {n : Nat} {tokens : List Token} (ht : m.tokensOf (some n) = .ok tokens) :
      Makes .goto m { m with cursor := .atToken tokens 0, line := some n }
  | openLoop {m : Machine} {l : Loop} {stack : Stack Frame} (hbody : l.body = m.position)
      (hs : Statement.openLoop m.stack l = .ok stack) : Makes .openLoop m { m with stack }
  | call {m : Machine} {stack : Stack Frame} (hs : m.stack.push (.call m.position) = .ok stack) :
      Makes .call m { m with stack }
  | reachLoop {m : Machine} {var : Option String} {l : Loop} {below : List Frame}
      (h : Statement.findLoop? var m.stack.items = some (l, below)) :
      Makes .stepLoop m { m with stack := { m.stack with items := .loop l :: below } }
  | repeatLoop {m : Machine} {l : Loop} {below : List Frame} {tokens : List Token}
      (hs : m.stack.items = .loop l :: below) (ht : m.tokensOf l.body.line = .ok tokens) :
      Makes .stepLoop m { m with cursor := .atToken tokens l.body.token, line := l.body.line }
  | endLoop {m : Machine} {l : Loop} {below : List Frame} (hs : m.stack.items = .loop l :: below) :
      Makes .stepLoop m { m with stack := { m.stack with items := below } }
  | ret {m : Machine} {p : Position} {below : List Frame} {tokens : List Token}
      (hs : m.stack.items = .call p :: below) (ht : m.tokensOf p.line = .ok tokens) :
      Makes .ret m
        { m with stack := m.stack.pop, cursor := .atToken tokens p.token, line := p.line }
  | retAstray {m : Machine} {p : Position} {below : List Frame} {c : Condition}
      (hs : m.stack.items = .call p :: below) (ht : m.tokensOf p.line = .error c) :
      Makes .ret m { m with stack := m.stack.pop }
  | trap {m : Machine} (t : Option Trap) : Makes .trap m { m with trap := t }
  | leave {m : Machine} : Makes .leave m { m with handling := false }
  | resume {m : Machine} {f : Failure} {tokens : List Token} (hf : m.failure = some f)
      (ht : m.tokensOf f.statement.line = .ok tokens) :
      Makes .resume m { m with cursor := .atToken tokens f.statement.token, line := f.statement.line }
  | clear {m : Machine} : Makes .clear m m.clear
  | cont {m : Machine} {k : Continuation} {tokens : List Token} (hline : m.line = none)
      (hk : m.continuation = some k) (ht : m.tokensOf k.position.line = .ok tokens) :
      Makes .cont m
        { m with
          continuation := none, cursor := .atToken tokens k.position.token, line := k.position.line,
          handling := k.handling }
  | contAstray {m : Machine} {k : Continuation} {c : Condition} (hline : m.line = none)
      (hk : m.continuation = some k) (ht : m.tokensOf k.position.line = .error c) :
      Makes .cont m { m with continuation := none }
  | delete {m : Machine} (start stop : Nat) (hline : m.line = none) :
      Makes .delete m { m with program := m.program.delete start stop, continuation := none }
  | erase {m : Machine} : Makes .erase m (Statement.erased m)
  | inquire {m : Machine} (q : Inquiry) : Makes .inquire m { m with inquiry := some q }

end Machine

/-- What an action keeps, wherever it is made. -/
def Action.Keeps (P : Machine → Prop) (a : Action) : Prop :=
  ∀ {m m' : Machine}, m.Makes a m' → P m → P m'

namespace Statement

open Machine (Makes)

namespace Acts

variable {b : Backdrop} {P : Machine → Prop} {α : Type}

/-! ## On the line -/

theorem onWorkspace_at {x : Eval α} (hx : ∀ {w}, Steady id (Past w) x) (m : Machine) :
    CommutesAt b.behind m (liftM x : Exec α) (liftM x)
      (fun _ m' => ∃ w, Past m.toWorkspace w ∧ m' = { m with toWorkspace := w })
      (fun m' => ∃ w, Past m.toWorkspace w ∧ m' = { m with toWorkspace := w }) := by
  cases hw : x m.toWorkspace with
  | mk r w =>
    have hrun := Extends.liftM_apply (m := m) hw
    have hbehind := Extends.liftM_apply (m := b.behind m) hw
    have hpast : Past m.toWorkspace w := by
      have hsnd := hx.snd (Past.refl m.toWorkspace)
      rw [hw] at hsnd
      exact hsnd
    refine ⟨by rw [hrun, hbehind]; rfl, ?_⟩
    rw [hrun]
    cases r with
    | ok a => exact ⟨w, hpast, rfl⟩
    | error e => exact ⟨w, hpast, rfl⟩

theorem context : Steady b.behind P Exec.context :=
  fun m hm => .get (Steady.pure _ m hm)

theorem refuseDirect : Steady b.behind P Exec.refuseDirect :=
  fun m hm => .get (Steady.lift _ m hm)

section

variable (hscan : Action.scan.Keeps P)

include hscan

theorem onWorkspace {x : Eval α} (hx : ∀ {w}, Steady id (Past w) x) :
    Steady b.behind P (liftM x : Exec α) := by
  intro m hm
  have hkept : ∀ m', (∃ w, Past m.toWorkspace w ∧ m' = { m with toWorkspace := w }) → P m' := by
    rintro m' ⟨w, hw, rfl⟩
    exact hscan (.scan hw) hm
  exact (onWorkspace_at hx m).mono (fun _ => hkept) hkept

theorem expression : Steady b.behind P Exec.expression :=
  context.bind fun ctx => onWorkspace hscan (Forward.evaluate ctx)

theorem number : Steady b.behind P Exec.number := (expression hscan).bind fun v => .lift v.asNumber

theorem short : Steady b.behind P Exec.short :=
  context.bind fun ctx => onWorkspace hscan (Forward.evaluateShort ctx)

theorem target : Steady b.behind P Exec.target :=
  context.bind fun ctx => onWorkspace hscan (Forward.target ctx)

theorem assign (c : Cell) (v : Value) : Steady b.behind P (Exec.assign c v) :=
  onWorkspace hscan (Forward.set c v)

theorem stepClause : Steady b.behind P stepClause := by
  refine (onWorkspace hscan (Forward.accept _)).bind fun found => ?_
  cases found with
  | true => exact number hscan
  | false => exact .pure _

theorem assignAll (cells : List Cell) (values : List Value) :
    Steady b.behind P (assignAll cells values) := by
  induction cells generalizing values with
  | nil => exact .pure ()
  | cons c cells ih =>
    cases values with
    | nil => exact .pure ()
    | cons v values => exact (assign hscan c v).bind fun _ => ih values

end

theorem nextDatum (htake : Action.take.Keeps P) : Steady b.behind P nextDatum := by
  intro m hm
  refine ⟨rfl, ?_⟩
  split <;> exact htake .take hm

theorem readOne (hscan : Action.scan.Keeps P) (htake : Action.take.Keeps P) :
    Steady b.behind P readOne :=
  (target hscan).bind fun c => (nextDatum htake).bind fun _ => (Steady.lift _).bind fun v =>
    assign hscan c v

section

variable (htape : Action.tape.Keeps P)

include htape

theorem write (s : String) : Steady b.behind P (Exec.write s) := by
  refine .modify (fun m => ?_) fun m hm => htape (.tape _) hm
  exact congrArg (fun t => { b.behind m with tape := t }) (b.write_onTape m.tape s)

theorem comma : Steady b.behind P (modify fun m => { m with tape := m.tape.comma } : Exec Unit) := by
  refine .modify (fun m => ?_) fun m hm => htape (.tape _) hm
  exact congrArg (fun t => { b.behind m with tape := t }) (b.comma_onTape m.tape)

variable (hscan : Action.scan.Keeps P)

include hscan

theorem printItems (n : Nat) (due : Bool) : Steady b.behind P (printItems n due) := by
  induction n generalizing due with
  | zero => exact .pure due
  | succ n ih =>
    refine (onWorkspace hscan Forward.atStatementEnd).bind fun ended => ?_
    cases ended with
    | true => exact .pure due
    | false =>
      refine (onWorkspace hscan (Forward.accept _)).bind fun found => ?_
      cases found with
      | true => exact ih false
      | false =>
        refine (onWorkspace hscan (Forward.accept _)).bind fun found => ?_
        cases found with
        | true => exact (comma htape).bind fun _ => ih false
        | false => exact (expression hscan).bind fun v => (write htape _).bind fun _ => ih true

theorem inquire : Steady b.behind P inquire :=
  refuseDirect.bind fun _ => (onWorkspace hscan Forward.inputPrompt).bind fun _ =>
    context.bind fun ctx => (onWorkspace hscan (Forward.list (Forward.target ctx))).bind fun _ =>
    (onWorkspace hscan Forward.endStatement).bind fun _ => (write htape _).bind fun _ => .pure _

theorem take (q : Inquiry) (items : List String) : Steady b.behind P (take q items) := by
  unfold Statement.take
  split
  · exact (write htape _).bind fun _ => .pure _
  · refine (assignAll hscan _ _).bind fun _ => ?_
    split
    · exact (write htape _).bind fun _ => .pure _
    · split
      · exact (write htape _).bind fun _ => .pure _
      · exact .pure _

end

/-! ## Statements -/

/-- Without another background. -/
abbrev Keeps (P : Machine → Prop) (x : Exec α) : Prop := Steady Backdrop.own.behind P x

section

variable (hscan : Action.scan.Keeps P)

include hscan

theorem assignment : Keeps P assignment :=
  (target hscan).bind fun c => (onWorkspace hscan (Forward.expect _)).bind fun _ =>
    (expression hscan).bind fun v => (assign hscan c v).bind fun _ => .pure _

theorem dim : Keeps P dim :=
  context.bind fun ctx => (onWorkspace hscan (Forward.list (Forward.dimOne ctx))).bind fun _ => .pure _

theorem skipLine : Keeps P skipLine := (onWorkspace hscan Forward.skipLine).bind fun _ => .pure _

theorem skipStatement : Keeps P skipStatement :=
  (onWorkspace hscan Forward.skipStatement).bind fun _ => .pure _

theorem error : Keeps P error := by
  refine (short hscan).bind fun n => ?_
  cases n with
  | ofNat n => exact .throw _
  | negSucc n => exact .throw _

theorem define (hdefine : Action.define.Keeps P) : Keeps P define := by
  refine refuseDirect.bind fun _ => (onWorkspace hscan (Forward.expect _)).bind fun _ => ?_
  refine (onWorkspace hscan Forward.name).bind fun name => ?_
  refine (onWorkspace hscan (Forward.expect _)).bind fun _ => ?_
  refine (onWorkspace hscan (Forward.list Forward.name)).bind fun params => ?_
  refine (onWorkspace hscan (Forward.expect _)).bind fun _ => ?_
  refine (onWorkspace hscan (Forward.expect _)).bind fun _ => ?_
  refine (onWorkspace hscan Forward.functionBody).bind fun body => (Steady.lift _).bind fun _ => ?_
  exact Steady.bind (.modify (fun _ => rfl) fun _ hm => hdefine (.define _) hm) fun _ => .pure _

theorem read (htake : Action.take.Keeps P) : Keeps P read :=
  (onWorkspace hscan Forward.tokensLeft).bind fun n =>
    (Steady.separated (onWorkspace hscan (Forward.accept _)) (readOne hscan htake) n).bind fun _ => .pure _

theorem restore (hrestore : Action.restore.Keeps P) : Keeps P restore := by
  refine (onWorkspace hscan Forward.lineNumber?).bind fun found => ?_
  cases found with
  | none => exact Steady.bind (.modify (fun _ => rfl) fun _ hm => hrestore .restore hm) fun _ => .pure _
  | some n =>
    intro m hm
    refine .get (.lift rfl hm fun l hl => ?_)
    exact ⟨rfl, hrestore (.restoreAt hl) hm⟩

theorem forLoop (hopen : Action.openLoop.Keeps P) : Keeps P forLoop := by
  refine (target hscan).bind fun c => (Steady.lift _).bind fun _ => (Steady.lift _).bind fun _ => ?_
  refine (onWorkspace hscan (Forward.expect _)).bind fun _ => (number hscan).bind fun start => ?_
  refine (assign hscan c _).bind fun _ => (onWorkspace hscan (Forward.expect _)).bind fun _ => ?_
  refine (number hscan).bind fun limit => (stepClause hscan).bind fun step => ?_
  refine (onWorkspace hscan Forward.endStatement).bind fun _ m hm => ?_
  refine .get (.lift rfl hm fun stack hstack => ⟨rfl, ?_⟩)
  exact hopen (.openLoop (l := ⟨c.name, limit, step, m.position⟩) rfl hstack) hm

theorem print (htape : Action.tape.Keeps P) : Keeps P print :=
  (onWorkspace hscan Forward.tokensLeft).bind fun n => (printItems htape hscan n true).bind fun _ =>
    (write htape _).bind fun _ => .pure _

theorem list (htape : Action.tape.Keeps P) : Keeps P list :=
  (onWorkspace hscan Forward.lineRange).bind fun _ m hm =>
    .get ((write htape _).bind (fun _ => .pure _) m hm)

theorem pollInput (htape : Action.tape.Keeps P) (hinquire : Action.inquire.Keeps P) (q : Inquiry) :
    Keeps P (pollInput q) := by
  have hread : Keeps P readLine := by
    intro m hm
    exact ⟨rfl, htape (.tape _) hm⟩
  have hpoll : Keeps P (poll q) := by
    refine hread.bind fun line => ?_
    cases line with
    | none => exact .pure _
    | some line => exact take htape hscan q _
  refine hpoll.bind fun waiting => ?_
  cases waiting with
  | none => exact (onWorkspace hscan Forward.endStatement).bind fun _ => .pure _
  | some q => exact Steady.bind (.modify (fun _ => rfl) fun _ hm => hinquire (.inquire q) hm) fun _ => .pure _

theorem input (htape : Action.tape.Keeps P) (hinquire : Action.inquire.Keeps P) : Keeps P input :=
  (inquire htape hscan).bind fun q => pollInput hscan htape hinquire q

end

theorem clearing (hclear : Action.clear.Keeps P) : Keeps P (modify Machine.clear : Exec Unit) :=
  .modify (fun _ => rfl) fun _ hm => hclear .clear hm

theorem clear (hclear : Action.clear.Keeps P) : Keeps P clear := (clearing hclear).bind fun _ => .pure _

theorem delete (hscan : Action.scan.Keeps P) (hdelete : Action.delete.Keeps P) : Keeps P delete := by
  intro m hm
  refine .get (.lift rfl hm fun _ hdirect => ?_)
  have hline : m.line = none := Option.isNone_iff_eq_none.mp (require_eq_ok hdirect)
  have hkept : Keeps (fun m => P m ∧ m.line = none) (liftM lineRange : Exec (Nat × Nat)) :=
    onWorkspace (fun h hm => ⟨hscan h hm.1, by cases h; exact hm.2⟩) Forward.lineRange
  refine CommutesAt.bind (Q := fun _ s => s = m) ⟨rfl, rfl⟩ fun ended s hs => ?_
  subst hs
  refine .lift rfl hm fun _ _ => ?_
  refine ((hkept s ⟨hm, hline⟩).mono (fun _ _ hm => hm) fun _ hm => hm.1).bind fun r s hs => ?_
  exact ⟨rfl, hdelete (.delete r.1 r.2 hs.2) hs.1⟩

theorem new (herase : Action.erase.Keeps P) : Keeps P new := fun _ hm => ⟨rfl, herase .erase hm⟩

/-! ## Statements that jump -/

theorem jump {p : Position}
    (hjump : ∀ {m : Machine} {tokens}, m.tokensOf p.line = .ok tokens → P m →
      P { m with cursor := .atToken tokens p.token, line := p.line }) : Keeps P (Exec.jump p) := by
  intro m hm
  exact .get (.lift rfl hm fun tokens ht => ⟨rfl, hjump ht hm⟩)

theorem transfer (hgoto : Action.goto.Keeps P) (n : Nat) : Keeps P (transfer n) :=
  (jump fun ht hm => hgoto (.goto ht) hm).bind fun _ => .pure _

theorem call (hcall : Action.call.Keeps P) (hgoto : Action.goto.Keeps P) (n : Nat) : Keeps P (call n) := by
  intro m hm
  refine .get (.lift rfl hm fun _ _ => .lift rfl hm fun stack hstack => ?_)
  exact .set rfl (transfer hgoto n _ (hcall (.call hstack) hm))

theorem ret (hret : Action.ret.Keeps P) : Keeps P ret := by
  intro m hm
  refine .get ?_
  simp only [Backdrop.stack_behind]
  cases htop : m.stack.top? with
  | none => exact Steady.throw _ m hm
  | some f =>
    cases f with
    | loop l => exact Steady.throw _ m hm
    | call p =>
      obtain ⟨below, hitems⟩ := List.head?_eq_some_iff.mp htop
      refine .set rfl (CommutesAt.bind ?_ fun _ _ hm => Steady.pure _ _ hm)
      unfold CommutesAt
      cases ht : m.tokensOf p.line with
      | ok tokens =>
        rw [Exec.jump_of_ok (m := { m with stack := m.stack.pop }) ht]
        exact ⟨Exec.jump_of_ok (m := { m with stack := m.stack.pop }) ht, hret (.ret hitems ht) hm⟩
      | error e =>
        rw [Exec.jump_of_error (m := { m with stack := m.stack.pop }) ht]
        exact ⟨Exec.jump_of_error (m := { m with stack := m.stack.pop }) ht, hret (.retAstray hitems ht) hm⟩

section

variable (hscan : Action.scan.Keeps P)

include hscan

theorem stepLoop (hstep : Action.stepLoop.Keeps P) {m : Machine} {var : Option String} {l : Loop}
    {below : List Frame} (hm : P m) (hl : findLoop? var m.stack.items = some (l, below)) :
    CommutesAt Backdrop.own.behind m (stepLoop l below) (stepLoop l below) (fun _ => P) P := by
  have hset : CommutesAt Backdrop.own.behind m (setFrames (.loop l :: below))
      (setFrames (.loop l :: below)) (fun _ m => P m ∧ m.stack.items = .loop l :: below) P :=
    ⟨rfl, hstep (.reachLoop hl) hm, rfl⟩
  have hassign : ∀ c v, Keeps (fun m => P m ∧ m.stack.items = .loop l :: below) (Exec.assign c v) :=
    assign fun h hm => ⟨hscan h hm.1, by cases h; exact hm.2⟩
  refine hset.bind fun _ m hm => .get (.lift rfl hm.1 fun x _ => .lift rfl hm.1 fun _ _ => ?_)
  refine ((hassign _ _ m hm).mono (fun _ _ hm => hm) fun _ hm => hm.1).bind fun _ m hm => ?_
  split
  · refine CommutesAt.bind ?_ fun _ _ hm => Steady.pure _ _ hm
    exact .get (.lift rfl hm.1 fun tokens ht => ⟨rfl, hstep (.repeatLoop hm.2 ht) hm.1⟩)
  · exact ⟨rfl, hstep (.endLoop hm.2) hm.1⟩

theorem stepLoops (hstep : Action.stepLoop.Keeps P) (n : Nat) : Keeps P (stepLoops n) := by
  induction n with
  | zero => exact .pure _
  | succ n ih =>
    refine (onWorkspace hscan Forward.name?).bind fun var m hm => .get ?_
    simp only [Backdrop.stack_behind]
    cases hfind : findLoop? var m.stack.items with
    | none => exact Steady.throw _ m hm
    | some found =>
      obtain ⟨l, below⟩ := found
      refine (stepLoop hscan hstep hm hfind).bind fun moved m hm => ?_
      cases moved with
      | true => exact Steady.pure _ m hm
      | false =>
        cases var.isNone with
        | true => exact Steady.pure _ m hm
        | false =>
          refine (onWorkspace hscan (Forward.accept _)).bind (fun more => ?_) m hm
          cases more with
          | true => exact ih
          | false => exact .pure _

theorem next (hstep : Action.stepLoop.Keeps P) : Keeps P next :=
  (onWorkspace hscan Forward.tokensLeft).bind fun n => stepLoops hscan hstep (n + 1)

theorem gosub (hcall : Action.call.Keeps P) (hgoto : Action.goto.Keeps P) : Keeps P gosub :=
  (onWorkspace hscan Forward.lineNumber).bind fun n =>
    (onWorkspace hscan Forward.endStatement).bind fun _ => call hcall hgoto n

theorem select (hcall : Action.call.Keeps P) (hgoto : Action.goto.Keeps P) : Keeps P select := by
  refine (short hscan).bind fun n => (Steady.lift _).bind fun _ => ?_
  refine (onWorkspace hscan Forward.transferWord).bind fun calls => ?_
  refine (onWorkspace hscan (Forward.list Forward.lineNumber)).bind fun targets => ?_
  refine (onWorkspace hscan Forward.endStatement).bind fun _ => ?_
  split
  · split
    · exact call hcall hgoto _
    · exact transfer hgoto _
  · exact .pure _

theorem onError (htrap : Action.trap.Keeps P) (hleave : Action.leave.Keeps P) : Keeps P onError := by
  refine (onWorkspace hscan (Forward.expect _)).bind fun _ => ?_
  refine (onWorkspace hscan Forward.lineNumber).bind fun n m hm => .get ?_
  simp only [Backdrop.failure_behind, Backdrop.handling_behind]
  split
  · split
    · exact .set rfl (Steady.throw _ _ (hleave .leave (htrap (.trap none) hm)))
    · exact .set rfl (Steady.pure _ _ (htrap (.trap none) hm))
  · exact .set rfl (Steady.pure _ _ (htrap (.trap _) hm))

theorem on (hcall : Action.call.Keeps P) (hgoto : Action.goto.Keeps P) (htrap : Action.trap.Keeps P)
    (hleave : Action.leave.Keeps P) : Keeps P on := by
  refine (onWorkspace hscan (Forward.accept _)).bind fun found => ?_
  cases found with
  | true => exact onError hscan htrap hleave
  | false => exact select hscan hcall hgoto

variable (hgoto : Action.goto.Keeps P)

include hgoto

theorem goto : Keeps P goto := (onWorkspace hscan Forward.lineNumber).bind fun n => transfer hgoto n

theorem branch : Keeps P branch := by
  refine (onWorkspace hscan Forward.lineNumber?).bind fun found => ?_
  cases found with
  | some n => exact transfer hgoto n
  | none => exact .pure _

theorem otherwise : Keeps P otherwise := by
  intro m hm
  refine .get ?_
  simp only [Backdrop.cursor_behind]
  cases helse : m.cursor.findElse? with
  | some n =>
    obtain ⟨k, hseek⟩ := Cursor.seek_of_findElse? helse
    have hskip : P { m with cursor := m.cursor.seek n } := by
      rw [hseek]
      exact hscan (.scan (.skip m.toWorkspace k)) hm
    refine .modify ?_ (branch hscan hgoto _ hskip)
    rfl
  | none => exact (onWorkspace hscan Forward.skipLine).bind (fun _ => .pure _) m hm

theorem conditional : Keeps P conditional := by
  refine (expression hscan).bind fun v => (Steady.lift _).bind fun holds => ?_
  refine (onWorkspace hscan Forward.next?).bind fun t => ?_
  split
  · cases holds with
    | true => exact branch hscan hgoto
    | false => exact otherwise hscan hgoto
  · cases holds with
    | true => exact goto hscan hgoto
    | false => exact otherwise hscan hgoto
  · exact .throw _

theorem run (hclear : Action.clear.Keeps P) : Keeps P run := by
  refine (onWorkspace hscan Forward.lineNumber?).bind fun start => ?_
  refine (onWorkspace hscan Forward.endStatement).bind fun _ => ?_
  refine (clearing hclear).bind fun _ m hm => .get ?_
  simp only [Backdrop.program_behind]
  split
  · exact transfer hgoto _ m hm
  · exact (onWorkspace hscan Forward.skipLine).bind (fun _ => .pure _) m hm

theorem resume (hleave : Action.leave.Keeps P) (hresume : Action.resume.Keeps P) : Keeps P resume := by
  intro m hm
  refine .get (.lift rfl hm fun _ _ => ?_)
  simp only [Backdrop.failure_behind]
  cases hfailure : m.failure with
  | none => exact Steady.throw _ m hm
  | some f =>
    -- up to the jump, the condition that the handler serves is still on record
    have hserved : ∀ {a : Action}, a.Keeps P → (∀ {m m' : Machine}, m.Makes a m' → m'.failure = m.failure) →
        a.Keeps fun m => P m ∧ m.failure = some f :=
      fun hP hf _ _ h hm => ⟨hP h hm.1, (hf h).trans hm.2⟩
    have hscan' : Action.scan.Keeps fun m => P m ∧ m.failure = some f :=
      hserved hscan fun h => by cases h; rfl
    have hgo : ∀ r, Keeps (fun m => P m ∧ m.failure = some f) (goOn f r) := by
      have hagain : Keeps (fun m => P m ∧ m.failure = some f) (Exec.jump f.statement) :=
        jump fun ht hm => ⟨hresume (.resume hm.2 ht) hm.1, hm.2⟩
      intro r
      cases r with
      | line n => exact jump fun ht hm => ⟨hgoto (.goto ht) hm.1, hm.2⟩
      | again => exact hagain
      | next => exact hagain.bind fun _ => onWorkspace hscan' (Forward.of_moves .skipFailed)
    have hkept : Keeps (fun m => P m ∧ m.failure = some f) (do
        let r ← resumption
        Eval.endStatement
        modify ({ · with handling := false })
        goOn f r
        return Flow.moved) := by
      refine (onWorkspace hscan' Forward.resumption).bind fun r => ?_
      refine (onWorkspace hscan' Forward.endStatement).bind fun _ => ?_
      refine Steady.bind (.modify (fun _ => rfl) fun _ hm => ⟨hleave .leave hm.1, hm.2⟩) fun _ => ?_
      exact (hgo r).bind fun _ => .pure _
    exact (hkept m ⟨hm, hfailure⟩).mono (fun _ _ hm => hm.1) fun _ hm => hm.1

end

theorem cont (hcont : Action.cont.Keeps P) : Keeps P cont := by
  intro m hm
  refine .get (.lift rfl hm fun _ hdirect => .get ?_)
  have hline : m.line = none := Option.isNone_iff_eq_none.mp (require_eq_ok hdirect)
  have hown : (Backdrop.own.behind m).continuation = m.continuation := rfl
  simp only [hown]
  cases hk : m.continuation with
  | none => exact Steady.throw _ m hm
  | some k =>
    have hjump : CommutesAt Backdrop.own.behind { m with continuation := none } (Exec.jump k.position)
        (Exec.jump k.position)
        (fun _ m' => P { m' with handling := k.handling }) P := by
      refine .get ?_
      show CommutesAt _ _ (liftM (m.tokensOf k.position.line) >>= _) (liftM (m.tokensOf k.position.line) >>= _) _ _
      cases ht : m.tokensOf k.position.line with
      | ok tokens => exact ⟨rfl, hcont (.cont (m := m) hline hk ht) hm⟩
      | error e => exact ⟨rfl, hcont (.contAstray (m := m) hline hk ht) hm⟩
    refine .modify ?_ (hjump.bind fun _ _ hm => ⟨rfl, hm⟩)
    rfl

/-- A statement makes only the actions of its first word. -/
theorem ofWord {w : Word} (h : ∀ a ∈ w.actions, a.Keeps P) : Keeps P (ofWord w) := by
  cases w
  all_goals simp only [Word.actions, List.forall_mem_cons] at h
  case CLEAR => exact clear h.1
  case CONT => exact cont h.1
  case DATA => exact skipStatement h.1
  case DEF => exact define h.1 h.2.1
  case DELETE => exact delete h.1 h.2.1
  case DIM => exact dim h.1
  case ELSE | REM => exact skipLine h.1
  case ERROR => exact error h.1
  case FOR => exact forLoop h.1 h.2.1
  case GOSUB => exact gosub h.1 h.2.1 h.2.2.1
  case GOTO => exact goto h.1 h.2.1
  case IF => exact conditional h.1 h.2.1
  case INPUT => exact input h.1 h.2.1 h.2.2.1
  case LET => exact assignment h.1
  case LIST => exact list h.1 h.2.1
  case NEW => exact new h.1
  case NEXT => exact next h.1 h.2.1
  case ON => exact on h.1 h.2.1 h.2.2.1 h.2.2.2.1 h.2.2.2.2.1
  case PRINT => exact print h.1 h.2.1
  case READ => exact read h.1 h.2.1
  case RESTORE => exact restore h.1 h.2.1
  case RESUME => exact resume h.1 h.2.2.1 h.2.1 h.2.2.2.1
  case RETURN => exact ret h.1
  case RUN => exact run h.1 h.2.2.1 h.2.1
  case END | STOP | SYSTEM => exact .pure _
  case FN | STEP | THEN | TO => exact .throw _

end Acts

end Statement

end LineBasic
