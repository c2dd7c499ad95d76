import LineBasic.Proofs.Expression.Faults
import LineBasic.Proofs.Statement.Calls

/-! No statement ends with a break. A break is how a run is stopped from outside or by `STOP`, and not a
condition of its own; only `ON ERROR GOTO 0` raises again what was on record before. -/

namespace LineBasic

/-- A computation that never ends with a break. -/
def Unbroken {σ α : Type} (x : ExceptT Condition (StateM σ) α) : Prop :=
  ∀ s c, (x s).1 = .error c → c.fault ≠ .interrupted

/-! ## Parts -/

namespace Token

theorem mild_lineNumber (t : Token) : Mild t.lineNumber := by
  unfold lineNumber
  split
  · split
    · split
      · exact .ok _
      · exact .error (by decide)
    · exact .error (by decide)
  · exact .error (by decide)

end Token

namespace Store

theorem mild_conform (name : String) (v : Value) : Mild (conform name v) := by
  unfold conform
  split
  · split
    · exact Value.mild_ofString _
    · exact .ok _
  · exact .error (by decide)

theorem mild_put (s : Store) (c : Cell) (v : Value) : Mild (s.put c v).1 := by
  unfold put
  split
  · split
    · exact .ok _
    · exact .error (by decide)
  · split
    · split
      · exact .ok _
      · exact .error (by decide)
    · exact .error (by decide)
  · exact .error (by decide)

theorem mild_set (s : Store) (c : Cell) (v : Value) : Mild (s.set c v).1 := by
  have hconform := mild_conform c.name v
  have hlocate := mild_locate s c.name (c.indexes.map Int.ofNat)
  unfold set
  split
  · rename_i e he
    exact .error (hconform e he)
  · split
    · exact mild_put s c _
    · split
      · rename_i e s' he
        exact .error (hlocate e (congrArg Prod.fst he))
      · exact mild_put _ c _

theorem mild_dimension (s : Store) (name : String) (bounds : List Int) : Mild (s.dimension name bounds) := by
  unfold dimension
  split
  · exact .error (by decide)
  · split
    · exact .error (by decide)
    · exact (mild_newArray name _).bind fun _ => mild_bind s name _

end Store

theorem Listing.mild_get (p : Listing) (n : Nat) : Mild (p.get n) := by
  unfold get
  split
  · exact .ok _
  · exact .error (by decide)

theorem Machine.mild_tokensOf (m : Machine) (line : Option Nat) : Mild (m.tokensOf line) := by
  cases line with
  | none => exact .ok _
  | some n => exact (m.program.mild_get n).map _

theorem Stack.mild_push {α : Type} (s : Stack α) (a : α) : Mild (s.push a) := by
  refine Mild.bind ?_ fun _ => .ok _
  unfold checkRoom
  split
  · exact .ok _
  · exact .error ⟨nofun, nofun⟩

namespace Datum

theorem mild_readLines (p : DataPointer) (lines : List ProgramLine) : Mild (readLines p lines).1 := by
  induction lines generalizing p with
  | nil => exact .error (by decide)
  | cons l rest ih =>
    unfold readLines
    split
    · exact .ok _
    · split
      · exact .error (by decide)
      · exact ih _

theorem mild_read (program : Listing) (p : Option DataPointer) : Mild (read program p).1 := by
  unfold read
  split
  · split
    · exact .error (by decide)
    · exact mild_readLines _ _
  · split
    · exact .error (by decide)
    · exact mild_readLines _ _

end Datum

/-! ## Computations -/

namespace Unbroken

variable {σ α β : Type} {x : ExceptT Condition (StateM σ) α}

theorem pure (a : α) : Unbroken (pure a : ExceptT Condition (StateM σ) α) := fun _ _ h => by cases h

theorem throw {c : Condition} (h : c.fault ≠ .interrupted) :
    Unbroken (throw c : ExceptT Condition (StateM σ) α) := by
  intro s c' hc'
  cases hc'
  exact h

theorem lift {r : Except Condition α} (h : Mild r) : Unbroken (liftM r : ExceptT Condition (StateM σ) α) :=
  fun _ c hc => (h c hc).2

theorem bind {f : α → ExceptT Condition (StateM σ) β} (hx : Unbroken x) (hf : ∀ a, Unbroken (f a)) :
    Unbroken (x >>= f) := by
  intro s c hc
  have hfirst := hx s
  rw [run_bind] at hc
  generalize x s = r at hc hfirst
  obtain ⟨e | a, s'⟩ := r
  · cases hc
    exact hfirst _ rfl
  · exact hf a s' c hc

theorem modifyGet (f : σ → α × σ) : Unbroken (modifyGet f : ExceptT Condition (StateM σ) α) :=
  fun _ _ h => by cases h

theorem get : Unbroken (get : ExceptT Condition (StateM σ) σ) := fun _ _ h => by cases h

theorem set (s : σ) : Unbroken (set s : ExceptT Condition (StateM σ) PUnit) := fun _ _ h => by cases h

theorem onStore {f : Store → Except Condition α × Store} (h : ∀ s, Mild (f s).1) : Unbroken (Eval.onStore f) :=
  fun w c hc => (h w.store c hc).2

theorem onWorkspace {x : Eval α} (h : Unbroken x) : Unbroken (liftM x : Exec α) :=
  fun m => h m.toWorkspace

theorem separated {separator : ExceptT Condition (StateM σ) Bool} (hsep : Unbroken separator)
    (hx : Unbroken x) (n : Nat) : Unbroken (separated separator x n) := by
  induction n with
  | zero => exact hx.bind fun _ => .pure _
  | succ n ih =>
    refine hx.bind fun a => hsep.bind fun more => ?_
    cases more with
    | true => exact ih.bind fun _ => .pure _
    | false => exact .pure _

/-! ## Reading -/

theorem onCursor (f : Cursor → α × Cursor) : Unbroken (Eval.onCursor f) := .modifyGet _

theorem expect (t : Token) : Unbroken (Eval.expect t) := fun w c hc => (w.cursor.mild_expect t c hc).2

theorem name : Unbroken Eval.name := fun w c hc => (Eval.mild_name w c hc).2

theorem list {x : Eval α} (h : Unbroken x) : Unbroken (Eval.list x) :=
  (get.bind fun _ => .pure _).bind fun n => .separated (.onCursor _) h n

theorem lineNumber : Unbroken Eval.lineNumber := by
  refine (get.bind fun _ => .pure _).bind fun t => ?_
  cases t with
  | none => exact .throw (by decide)
  | some t => exact (Unbroken.lift t.mild_lineNumber).bind fun _ => (onCursor _).bind fun _ => .pure _

theorem lineNumber? : Unbroken Eval.lineNumber? := by
  refine (get.bind fun _ => .pure _).bind fun t => ?_
  split
  · exact (onCursor _).bind fun _ => .pure _
  · exact .pure _

theorem endStatement : Unbroken Eval.endStatement :=
  (get.bind fun _ => .pure _).bind fun _ => .lift (.require (by decide))

/-! ## Expressions -/

section

variable {nested : Eval Value} (h : Unbroken nested)

include h

theorem bracketed : Unbroken (Expression.bracketed nested) := by
  intro w c hc
  by_cases hw : Expression.maxDepth ≤ w.depth
  · rw [Expression.bracketed_of_le nested hw] at hc
    cases hc
    decide
  · rcases hr : nested { w with depth := w.depth + 1 } with ⟨r, w'⟩
    rw [Expression.bracketed_of_lt (Nat.lt_of_not_le hw) hr] at hc
    exact h _ c ((congrArg Prod.fst hr).trans hc)

theorem subscripted (n : String) : Unbroken (Expression.subscripted nested n) := by
  refine bind (bind (onCursor _) fun opened => ?_) fun indexes => .onStore fun s => s.mild_locate n indexes
  cases opened with
  | true =>
    refine (list ((bracketed h).bind fun v => .lift v.mild_asShort)).bind fun _ => ?_
    exact (expect _).bind fun _ => .pure _
  | false => exact .pure _

theorem arguments : Unbroken (Expression.arguments nested) :=
  (expect _).bind fun _ => (list (bracketed h)).bind fun _ => (expect _).bind fun _ => .pure _

theorem builtinCall (ctx : Context) (f : Function) : Unbroken (Expression.builtinCall ctx nested f) := by
  have hargs : Unbroken (Expression.builtinArguments nested f) := by
    unfold Expression.builtinArguments
    split
    · exact arguments h
    · exact .pure _
  refine hargs.bind fun args => get.bind fun w => ?_
  exact (Unbroken.lift (Builtin.mild_call ctx w.random f args)).bind fun _ => (modifyGet _).bind fun _ => .pure _

theorem inBody (f : UserFunction) (args : List Value) : Unbroken (Expression.inBody nested f args) := by
  intro w c hc
  have hbody := bracketed h { w with
    store := (Expression.shadow w.store (f.params.zip args)).2
    cursor := .start f.body }
  simp only [Expression.inBody] at hc
  generalize Expression.bracketed nested _ = r at hc hbody
  obtain ⟨e | v, inner⟩ := r
  · cases hc
    exact hbody _ rfl
  · cases hend : inner.cursor.atEnd with
    | true => simp [hend] at hc
    | false =>
      simp only [hend, Bool.false_eq_true, if_false] at hc
      cases hc
      decide

theorem userCall (ctx : Context) : Unbroken (Expression.userCall ctx nested) := by
  refine name.bind fun n => ?_
  cases ctx.functions[n]? with
  | none => exact .throw (by decide)
  | some f =>
    refine (arguments h).bind fun args => (Unbroken.lift (.require (by decide))).bind fun _ => ?_
    refine (Unbroken.lift (.require (by decide))).bind fun _ => (inBody h f args).bind fun v => ?_
    exact (Unbroken.lift (.require (by decide))).bind fun _ => .pure v

theorem atom (ctx : Context) : Unbroken (Expression.atom ctx nested) := by
  refine (onCursor _).bind fun t => ?_
  split
  · exact .lift (Expression.mild_literal _)
  · exact .lift (Value.mild_ofString _)
  · exact (subscripted h _).bind fun c => get.bind fun _ => .pure _
  · exact builtinCall h ctx _
  · exact userCall h ctx
  · exact (bracketed h).bind fun v => (expect _).bind fun _ => .pure v
  · exact .throw (by decide)

end

section

variable {operandAtom : Eval Value} (h : Unbroken operandAtom)

theorem applySigns {extend : Value → Nat → Eval Value} (h : ∀ v least, Unbroken (extend v least))
    (signs : List Sign) (v : Value) : Unbroken (Expression.applySigns extend signs v) := by
  induction signs generalizing v with
  | nil => exact .pure v
  | cons s signs ih => exact (h v s.level).bind fun v => (Unbroken.lift (s.mild_apply v)).bind fun v => ih v

include h

theorem operand {extend : Value → Nat → Eval Value} (hextend : ∀ v least, Unbroken (extend v least)) :
    Unbroken (Expression.operand operandAtom extend) :=
  (onCursor _).bind fun _ => h.bind fun v => applySigns hextend _ v

theorem climb (n : Nat) (v : Value) (least : Nat) : Unbroken (Expression.climb operandAtom n v least) := by
  induction n generalizing v least with
  | zero => exact .pure v
  | succ n ih =>
    refine get.bind fun w => ?_
    split
    · exact .pure v
    · refine (onCursor _).bind fun _ => (operand h ih).bind fun right => (ih right _).bind fun right => ?_
      exact (Unbroken.lift (Value.mild_binary _ v right)).bind fun v => ih v least

theorem atLevel (least : Nat) : Unbroken (Expression.atLevel operandAtom least) :=
  (get.bind fun _ => .pure _).bind fun n => (operand h (climb h n)).bind fun v => climb h n v least

end

theorem within (ctx : Context) (levels least : Nat) : Unbroken (Expression.within ctx levels least) := by
  induction levels generalizing least with
  | zero => exact atLevel (atom (.throw (by decide)) ctx) least
  | succ levels ih => exact atLevel (atom (ih 1) ctx) least

theorem evaluate (ctx : Context) : Unbroken (Expression.evaluate ctx) := get.bind fun _ => within ctx _ 1

theorem evaluateShort (ctx : Context) : Unbroken (Expression.evaluateShort ctx) :=
  (evaluate ctx).bind fun v => .lift v.mild_asShort

theorem targetOf (ctx : Context) : Unbroken (Expression.target ctx) :=
  name.bind fun n => subscripted (evaluate ctx) n

/-! ## Statements -/

open Statement

theorem expression : Unbroken Exec.expression := (get.bind fun _ => .pure _).bind fun ctx => onWorkspace (evaluate ctx)

theorem number : Unbroken Exec.number := expression.bind fun v => .lift v.mild_asNumber

theorem short : Unbroken Exec.short := (get.bind fun _ => .pure _).bind fun ctx => onWorkspace (evaluateShort ctx)

theorem target : Unbroken Exec.target := (get.bind fun _ => .pure _).bind fun ctx => onWorkspace (targetOf ctx)

theorem assign (c : Cell) (v : Value) : Unbroken (Exec.assign c v) :=
  onWorkspace (.onStore fun s => s.mild_set c v)

theorem jump (p : Position) : Unbroken (Exec.jump p) :=
  get.bind fun m => (Unbroken.lift (m.mild_tokensOf p.line)).bind fun _ => modifyGet _

theorem refuseDirect : Unbroken Exec.refuseDirect := get.bind fun _ => .lift (.require (by decide))

theorem assignment : Unbroken assignment :=
  target.bind fun c => (onWorkspace (expect _)).bind fun _ => expression.bind fun v =>
    (assign c v).bind fun _ => .pure _

theorem dim : Unbroken dim := by
  refine (get.bind fun _ => .pure _).bind fun ctx => (onWorkspace (list ?_)).bind fun _ => .pure _
  refine name.bind fun n => (expect _).bind fun _ => (list (evaluateShort ctx)).bind fun bounds => ?_
  refine (expect _).bind fun _ => .onStore fun s => ?_
  have hdimension := s.mild_dimension n bounds
  rw [Store.dim]
  split
  · exact .ok _
  · rename_i e he
    exact .error (hdimension e he)

theorem define : Unbroken define := by
  refine refuseDirect.bind fun _ => (onWorkspace (expect _)).bind fun _ => (onWorkspace name).bind fun _ => ?_
  refine (onWorkspace (expect _)).bind fun _ => (onWorkspace (list name)).bind fun _ => ?_
  refine (onWorkspace (expect _)).bind fun _ => (onWorkspace (expect _)).bind fun _ => ?_
  refine (onWorkspace (onCursor _)).bind fun _ => (Unbroken.lift (.require (by decide))).bind fun _ => ?_
  exact (modifyGet _).bind fun _ => .pure _

theorem readOne : Unbroken readOne := by
  refine target.bind fun c => Unbroken.bind ?_ fun d => Unbroken.bind (.lift ?_) fun v => assign c v
  · exact fun m e he => (Datum.mild_read m.program m.data e he).2
  · unfold datumValue
    split
    · exact Value.mild_ofString _
    · split
      · split
        · exact .error ⟨nofun, nofun⟩
        · exact .ok _
      · exact .error ⟨nofun, nofun⟩

theorem read : Unbroken read :=
  (onWorkspace (get.bind fun _ => .pure _)).bind fun n =>
    (Unbroken.separated (onWorkspace (onCursor _)) readOne n).bind fun _ => .pure _

theorem restore : Unbroken restore := by
  refine (onWorkspace lineNumber?).bind fun found => ?_
  cases found with
  | none => exact (modifyGet _).bind fun _ => .pure _
  | some n =>
    exact get.bind fun m => (Unbroken.lift (m.program.mild_get n)).bind fun _ => (modifyGet _).bind fun _ => .pure _

theorem printItems (n : Nat) (due : Bool) : Unbroken (printItems n due) := by
  induction n generalizing due with
  | zero => exact .pure due
  | succ n ih =>
    refine (onWorkspace (get.bind fun _ => .pure _)).bind fun ended => ?_
    split
    · exact .pure due
    · refine (onWorkspace (onCursor _)).bind fun semicolon => ?_
      split
      · exact ih false
      · refine (onWorkspace (onCursor _)).bind fun comma => ?_
        split
        · exact (modifyGet _).bind fun _ => ih false
        · exact expression.bind fun _ => (modifyGet _).bind fun _ => ih true

theorem print : Unbroken print :=
  (onWorkspace (get.bind fun _ => .pure _)).bind fun n => (printItems n true).bind fun _ =>
    (modifyGet _).bind fun _ => .pure _

/-- A fault that `ERROR` finds by its number is no break, which has none. -/
theorem ofNumber?_ne (n : Nat) : (Fault.ofNumber? n).getD .illegalQuantity ≠ .interrupted := by
  cases h : Fault.ofNumber? n with
  | none => nofun
  | some f =>
    rintro rfl
    cases List.find?_some h

theorem error : Unbroken error := by
  refine short.bind fun n => ?_
  split
  · exact .throw (ofNumber?_ne _)
  · exact .throw (by decide)

theorem transfer (n : Nat) : Unbroken (transfer n) := (jump _).bind fun _ => .pure _

theorem call (n : Nat) : Unbroken (call n) :=
  get.bind fun m => (Unbroken.lift (m.program.mild_get n)).bind fun _ =>
    (Unbroken.lift (m.stack.mild_push _)).bind fun _ => (set _).bind fun _ => transfer n

theorem goto : Unbroken goto := (onWorkspace lineNumber).bind fun n => transfer n

theorem gosub : Unbroken gosub :=
  (onWorkspace lineNumber).bind fun n => (onWorkspace endStatement).bind fun _ => call n

theorem ret : Unbroken ret := by
  refine get.bind fun m => ?_
  split
  · exact (set _).bind fun _ => (jump _).bind fun _ => .pure _
  · exact .throw (by decide)

theorem select : Unbroken select := by
  have hword : Unbroken transferWord := by
    refine (onCursor _).bind fun t => ?_
    split
    · exact .pure _
    · exact .pure _
    · exact .throw (by decide)
  refine short.bind fun n => (Unbroken.lift (.require (by decide))).bind fun _ => ?_
  refine (onWorkspace hword).bind fun calls => (onWorkspace (list lineNumber)).bind fun targets => ?_
  refine (onWorkspace endStatement).bind fun _ => ?_
  split
  · split
    · exact call _
    · exact transfer _
  · exact .pure _

theorem branch : Unbroken branch := by
  refine (onWorkspace lineNumber?).bind fun found => ?_
  cases found with
  | some n => exact transfer n
  | none => exact .pure _

theorem otherwise : Unbroken otherwise := by
  refine get.bind fun m => ?_
  dsimp only
  split
  · exact (modifyGet _).bind fun _ => branch
  · exact (onWorkspace (onCursor _)).bind fun _ => .pure _

theorem conditional : Unbroken conditional := by
  refine expression.bind fun v => (Unbroken.lift (v.mild_asNumber.bind fun _ => .ok _)).bind fun holds => ?_
  refine (onWorkspace (onCursor _)).bind fun t => ?_
  split
  · cases holds with
    | true => exact branch
    | false => exact otherwise
  · cases holds with
    | true => exact goto
    | false => exact otherwise
  · exact .throw (by decide)

theorem run : Unbroken run := by
  refine (onWorkspace lineNumber?).bind fun start => (onWorkspace endStatement).bind fun _ => ?_
  refine (modifyGet _).bind fun _ => get.bind fun m => ?_
  split
  · exact transfer _
  · exact (onWorkspace (onCursor _)).bind fun _ => .pure _

theorem cont : Unbroken cont := by
  refine get.bind fun m => (Unbroken.lift (.require (by decide))).bind fun _ => get.bind fun m => ?_
  split
  · exact (modifyGet _).bind fun _ => (jump _).bind fun _ => (modifyGet _).bind fun _ => .pure _
  · exact .throw (by decide)

theorem forLoop : Unbroken forLoop := by
  have hstep : Unbroken stepClause := by
    refine (onWorkspace (onCursor _)).bind fun found => ?_
    cases found with
    | true => exact number
    | false => exact .pure _
  refine target.bind fun c => (Unbroken.lift (.require (by decide))).bind fun _ => ?_
  refine (Unbroken.lift (.require (by decide))).bind fun _ => (onWorkspace (expect _)).bind fun _ => ?_
  refine number.bind fun _ => (assign c _).bind fun _ => (onWorkspace (expect _)).bind fun _ => ?_
  refine number.bind fun _ => hstep.bind fun _ => (onWorkspace endStatement).bind fun _ => get.bind fun m => ?_
  exact (Unbroken.lift (Stack.mild_push _ _)).bind fun _ => (set _).bind fun _ => .pure _

theorem stepLoop (l : Loop) (below : List Frame) : Unbroken (stepLoop l below) := by
  refine (modifyGet _).bind fun _ => get.bind fun m => ?_
  refine (Unbroken.lift (Value.mild_asNumber _)).bind fun x => (Unbroken.lift (.require (by decide))).bind fun _ => ?_
  refine (assign _ _).bind fun _ => ?_
  split
  · exact (jump _).bind fun _ => .pure _
  · exact (modifyGet _).bind fun _ => .pure _

theorem stepLoops (n : Nat) : Unbroken (stepLoops n) := by
  induction n with
  | zero => exact .pure _
  | succ n ih =>
    have hname : Unbroken name? := by
      refine (get.bind fun _ => .pure _).bind fun t => ?_
      split
      · exact name.bind fun _ => .pure _
      · exact .pure _
    refine (onWorkspace hname).bind fun var => get.bind fun m => ?_
    split
    · exact .throw (by decide)
    · refine (stepLoop _ _).bind fun moved => ?_
      split
      · exact .pure _
      · split
        · exact .pure _
        · refine (onWorkspace (onCursor _)).bind fun more => ?_
          split
          · exact ih
          · exact .pure _

theorem next : Unbroken next := (onWorkspace (get.bind fun _ => .pure _)).bind fun n => stepLoops (n + 1)

theorem lineRange : Unbroken lineRange := by
  refine lineNumber?.bind fun _ => (onCursor _).bind fun found => ?_
  split
  · exact lineNumber?.bind fun _ => .pure _
  · exact .pure _

theorem listing : Unbroken Statement.list :=
  (onWorkspace lineRange).bind fun _ => get.bind fun _ => (modifyGet _).bind fun _ => .pure _

theorem delete : Unbroken delete := by
  refine get.bind fun m => (Unbroken.lift (.require (by decide))).bind fun _ => ?_
  refine (onWorkspace (get.bind fun _ => .pure _)).bind fun _ => (Unbroken.lift (.require (by decide))).bind fun _ => ?_
  exact (onWorkspace lineRange).bind fun _ => (modifyGet _).bind fun _ => .pure _

theorem resume : Unbroken resume := by
  have hread : Unbroken resumption := by
    refine (onCursor _).bind fun found => ?_
    split
    · exact .pure _
    · refine lineNumber?.bind fun n => ?_
      split <;> exact .pure _
  have hgo : ∀ f r, Unbroken (goOn f r) := by
    intro f r
    cases r with
    | line n => exact jump _
    | again => exact jump _
    | next =>
      refine (jump _).bind fun _ => onWorkspace ((get.bind fun _ => .pure _).bind fun t => ?_)
      split <;> exact onCursor _
  refine get.bind fun m => (Unbroken.lift (.require (by decide))).bind fun _ => ?_
  split
  · exact .throw (by decide)
  · refine (onWorkspace hread).bind fun r => (onWorkspace endStatement).bind fun _ => ?_
    exact (modifyGet _).bind fun _ => (hgo _ r).bind fun _ => .pure _

theorem assignAll (cells : List Cell) (values : List Value) : Unbroken (assignAll cells values) := by
  induction cells generalizing values with
  | nil => exact .pure _
  | cons c cells ih =>
    cases values with
    | nil => exact .pure _
    | cons v values => exact (assign c v).bind fun _ => ih values

theorem pollInput (q : Inquiry) : Unbroken (pollInput q) := by
  have htake : ∀ items, Unbroken (take q items) := by
    intro items
    unfold take
    split
    · exact (modifyGet _).bind fun _ => .pure _
    · refine (assignAll _ _).bind fun _ => ?_
      split
      · exact (modifyGet _).bind fun _ => .pure _
      · split
        · exact (modifyGet _).bind fun _ => .pure _
        · exact .pure _
  have hpoll : Unbroken (poll q) := by
    refine (modifyGet _).bind fun line => ?_
    split
    · exact .pure _
    · exact htake _
  refine hpoll.bind fun waiting => ?_
  split
  · exact (modifyGet _).bind fun _ => .pure _
  · exact (onWorkspace endStatement).bind fun _ => .pure _

theorem input : Unbroken input := by
  refine Unbroken.bind ?_ fun q => pollInput q
  refine refuseDirect.bind fun _ => (onWorkspace (onCursor _)).bind fun _ => ?_
  refine (get.bind fun _ => .pure _).bind fun ctx => (onWorkspace (list (targetOf ctx))).bind fun cells => ?_
  exact (onWorkspace endStatement).bind fun _ => (modifyGet _).bind fun _ => .pure _

theorem ofWord {w : Word} (h : w ≠ .ON) : Unbroken (ofWord w) := by
  cases w with
  | ON => exact absurd rfl h
  | CLEAR => exact (modifyGet _).bind fun _ => .pure _
  | CONT => exact cont
  | DATA | ELSE | REM => exact (onWorkspace (onCursor _)).bind fun _ => .pure _
  | DEF => exact define
  | DELETE => exact delete
  | DIM => exact dim
  | END | STOP | SYSTEM => exact .pure _
  | ERROR => exact error
  | FOR => exact forLoop
  | GOSUB => exact gosub
  | GOTO => exact goto
  | IF => exact conditional
  | INPUT => exact input
  | LET => exact assignment
  | LIST => exact listing
  | NEW => exact (modifyGet _).bind fun _ => .pure _
  | NEXT => exact next
  | PRINT => exact print
  | READ => exact read
  | RESTORE => exact restore
  | RESUME => exact resume
  | RETURN => exact ret
  | RUN => exact run
  | FN | STEP | THEN | TO => exact .throw (by decide)

end Unbroken

namespace Statement

variable {m m' : Machine} {c : Condition}

/-- What `ON` does where no `ERROR` follows. -/
theorem on_eq_select (h : m.cursor.rest.head? ≠ some (.word .ERROR)) : on m = select m := by
  have haccept : Eval.accept (.word .ERROR) m.toWorkspace = (.ok false, m.toWorkspace) :=
    Eval.accept_of_ne m.toWorkspace m.cursor.passed h
  rw [on, bind_of_ok (Extends.liftM_apply haccept)]
  rfl

theorem unbroken_of_none (h : m.word? = none) (hc : (one m).1 = .error c) : c.fault ≠ .interrupted := by
  have hpeek : (liftM Eval.peek? : Exec _) m = (.ok m.cursor.peek?, m) := rfl
  rw [one, bind_of_ok hpeek] at hc
  rw [Machine.word?] at h
  cases ht : m.cursor.peek? with
  | none =>
    rw [ht] at hc
    cases hc
  | some t =>
    rw [ht] at hc h
    rw [Option.bind_some] at h
    cases t with
    | colon => cases hc
    | name x => exact Unbroken.assignment m c hc
    | _ =>
      simp only [h] at hc
      cases hc
      decide

/-- A statement other than `ON ERROR` does not end with a break. -/
theorem unbroken_of_error (hon : ∀ rest, m.cursor.rest ≠ .word .ON :: .word .ERROR :: rest)
    (h : (one >>= settle) m = (.error c, m')) : c.fault ≠ .interrupted := by
  have hone : ∀ c, (one m).1 = .error c → c.fault ≠ .interrupted := by
    intro c hc
    cases hword : m.word? with
    | none => exact unbroken_of_none hword hc
    | some w =>
      rw [one_of_word? hword] at hc
      by_cases hw : w = .ON
      · subst hw
        obtain ⟨rest, hrest⟩ := rest_of_word? hword
        have hselect : on m.pastWord = select m.pastWord := by
          refine on_eq_select fun herror => ?_
          obtain ⟨rest', hrest'⟩ := List.head?_eq_some_iff.mp herror
          rw [Machine.pastWord, Cursor.advance, hrest] at hrest'
          exact hon rest' (hrest.trans (congrArg _ hrest'))
        rw [ofWord, hselect] at hc
        exact Unbroken.select _ c hc
      · exact Unbroken.ofWord hw _ c hc
  rcases bind_eq_error h with hfirst | ⟨flow, s, -, hsettle⟩
  · exact hone c (congrArg Prod.fst hfirst)
  · rcases settle_cases flow s with hflow | ⟨-, -, hflow⟩
    · rw [hflow] at hsettle
      cases hsettle
    · rw [hflow] at hsettle
      cases hsettle
      decide

end Statement

end LineBasic
