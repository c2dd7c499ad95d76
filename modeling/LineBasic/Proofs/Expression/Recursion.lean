import LineBasic.Proofs.Expression.Faults
import LineBasic.Proofs.Expression.Frame

/-! Evaluation ends. The expression at a cursor is evaluated once more, by recursion to which neither the
tokens left nor the levels of brackets still to open set a bound: it goes on until there is a result, and
there is none if it takes more steps than were given. There is none either where something is done inside
itself with as much before it as there was, that is, as many levels to open and as many tokens. With enough
steps there is always a result, and it is that of the evaluator, also for functions that call themselves. -/

namespace LineBasic.Expression

/-- Where something is done: how many brackets, subscripts, arguments and function bodies are open around it,
and how many tokens are left. -/
structure Activation where
  level : Nat
  tokens : Nat

/-- There is less before one than before the other: fewer levels to open, or as many and fewer tokens. -/
def Activation.Below (a b : Activation) : Prop :=
  Prod.Lex (· < ·) (· < ·) (maxDepth - a.level, a.tokens) (maxDepth - b.level, b.tokens)

instance (a b : Activation) : Decidable (a.Below b) := inferInstanceAs (Decidable (Prod.Lex ..))

theorem Activation.below_wellFounded : WellFounded Activation.Below :=
  InvImage.wf _ (WellFounded.prod_lex Nat.lt_wfRel.wf Nat.lt_wfRel.wf)

theorem Activation.below_of_tokens {level m n : Nat} (h : m < n) :
    ∀ a ∈ some (Activation.mk level n), Activation.Below ⟨level, m⟩ a := by
  intro a ha
  cases ha
  exact .right _ h

theorem Activation.below_of_level {level : Nat} (h : level < maxDepth) (m n : Nat) :
    ∀ a ∈ some (Activation.mk level n), Activation.Below ⟨level + 1, m⟩ a := by
  intro a ha
  cases ha
  exact .left _ _ (show maxDepth - (level + 1) < maxDepth - level by omega)

/-- What becomes of a bracket: a level is opened, or there is none left. -/
inductive Opening where
  | opened (level : Nat)
  | refused
  deriving DecidableEq, Repr

/-- Computations that may come to nothing, with a record of the brackets on their way. -/
abbrev Unbounded := ExceptT Condition (StateT (Workspace × List Opening) Option)

namespace Unbounded

/-- A computation that ends and opens no bracket. -/
def ends {α : Type} (x : Eval α) : Unbounded α := fun (w, log) => some ((x w).1, (x w).2, log)

instance : MonadLift Eval Unbounded := ⟨ends⟩

/-- Apply a built-in function to its arguments. -/
def applyBuiltin (ctx : Context) (f : Function) (args : List Value) : Eval Value := do
  let r ← Builtin.call ctx (← get).random f args
  modify ({ · with random := r.2 })
  return r.1

/-- The result of a function body, which has to be used up. -/
def usedUp (inner : Workspace) : Except Condition Value → Except Condition Value
  | .ok v => if inner.cursor.atEnd then .ok v else .error (.of .syntaxError)
  | .error e => .error e

/-- What may be done inside itself: evaluate an expression of operators that bind at least as tightly as
`least`, apply the operators that follow a left operand, and evaluate expressions with commas between them. -/
inductive Task : Type 1 where
  | expression (least : Nat)
  | operators (left : Value) (least : Nat)
  | items {α : Type} (convert : Value → Except Condition α)

abbrev Task.Result : Task → Type
  | .expression _ => Value
  | .operators .. => Value
  | @items α _ => List α

section

variable (ctx : Context) (run : Nat → (task : Task) → Unbounded task.Result) (level : Nat)

def applySigns : List Sign → Value → Unbounded Value
  | [], v => pure v
  | s :: rest, v => do
    let v ← run level (.operators v s.level)
    let v ← s.apply v
    applySigns rest v

/-- An expression one level further down. The counter of the workspace goes along, but is not asked. -/
def bracketed : Unbounded Value := fun (w, log) =>
  if maxDepth ≤ level then some (.error (.of .formulaTooComplex), w, log ++ [.refused])
  else do
    let (r, w, log) ← run (level + 1) (.expression 1)
      ({ w with depth := w.depth + 1 }, log ++ [.opened (level + 1)])
    some (r, { w with depth := w.depth - 1 }, log)

/-- Subscripts in brackets, or none. -/
def subscripts : Unbounded (List Int) := do
  if ← Eval.accept .leftParen then
    let indexes ← run level (.items Value.asShort)
    Eval.expect .rightParen
    return indexes
  else return []

/-- Arguments in brackets, at least one. -/
def arguments : Unbounded (List Value) := do
  Eval.expect .leftParen
  let args ← run level (.items .ok)
  Eval.expect .rightParen
  return args

def builtinArguments (f : Function) : Unbounded (List Value) :=
  if Builtin.takesArguments f then arguments run level else pure []

/-- The body of a function with its parameters bound. -/
def inBody (f : UserFunction) (args : List Value) : Unbounded Value := fun (w, log) => do
  let (saved, store) := shadow w.store (f.params.zip args)
  let (r, inner, log) ← bracketed run level ({ w with store, cursor := .start f.body }, log)
  some (usedUp inner r, { inner with cursor := w.cursor, store := unshadow inner.store saved }, log)

/-- The call of a function that the program defines, after `FN`. -/
def userCall : Unbounded Value := do
  let name ← Eval.name
  match ctx.functions[name]? with
  | none => throw (.of .undefinedFunction)
  | some f =>
    let args ← arguments run level
    require (args.length == f.params.length) Builtin.wrongCount
    require ((f.params.zip args).all fun (p, v) => isStringName p == v.isString) (.of .typeMismatch)
    let v ← inBody run level f args
    require (isStringName name == v.isString) (.of .typeMismatch)
    return v

/-- An operand without signs. -/
def atom : Unbounded Value := do
  match ← Eval.next? with
  | some (.number s) => literal s
  | some (.string s) => Value.ofString s
  | some (.name n) =>
    let indexes ← subscripts run level
    let c ← Eval.onStore (·.locate n indexes)
    return (← (get : Eval Workspace)).store.get c
  | some (.function f) =>
    let args ← builtinArguments run level f
    applyBuiltin ctx f args
  | some (.word .FN) => userCall ctx run level
  | some .leftParen =>
    let v ← bracketed run level
    Eval.expect .rightParen
    return v
  | _ => throw (.of .syntaxError)

/-- An operand with its signs. -/
def operand : Unbounded Value := do
  let signs ← Eval.onCursor fun c =>
    let signs := Sign.leading c.rest
    (signs, c.skip signs.length)
  let v ← atom ctx run level
  applySigns run level signs.reverse v

/-- One task at a level, with `run` for the tasks inside it. -/
def step : (task : Task) → Unbounded task.Result
  | .expression least => do
    let left ← operand ctx run level
    run level (.operators left least)
  | .operators left least => do
    match nextOperator? least (← (get : Eval Workspace)).cursor with
    | none => return left
    | some (o, rank) =>
      Eval.onCursor fun c => ((), c.advance)
      let right ← run level (.expression (o.rightLevel rank))
      let v ← Value.binary o left right
      run level (.operators v least)
  | .items convert => do
    let a ← (do convert (← bracketed run level))
    if ← Eval.accept .comma then
      let rest ← run level (.items convert)
      return a :: rest
    else return [a]

end

/-- A task at a level, inside another one. There is no result unless there is less before it than before that
one, and none if more than `n` tasks have to be under way at a time. -/
def run (ctx : Context) : Nat → Option Activation → Nat → (task : Task) → Unbounded task.Result
  | 0, _, _, _ => fun _ => none
  | n + 1, caller, level, task => fun (w, log) =>
    let here : Activation := ⟨level, w.cursor.rest.length⟩
    if ∀ a ∈ caller, here.Below a then step ctx (run ctx n (some here)) level task (w, log) else none

/-! ## Agreement -/

/-- What the record of a computation at some level says: which levels were opened, and that one was refused
if that is how the computation ended. -/
structure Accounts {α : Type} (level : Nat) (log : List Opening) (r : Except Condition α) : Prop where
  opened : ∀ l, .opened l ∈ log → level < l ∧ l ≤ maxDepth
  refused : .refused ∈ log ↔ r = .error (.of .formulaTooComplex)

/-- With enough steps a computation ends, and as another one does that cannot but end. -/
def Agrees {α : Type} (level : Nat) (p : Nat → Unbounded α) (x : Eval α) (w : Workspace) : Prop :=
  ∃ n more, (∀ k, n ≤ k → ∀ log, p k (w, log) = some ((x w).1, (x w).2, log ++ more)) ∧
    Accounts level more (x w).1

section

variable {α β : Type} {level : Nat} {p : Nat → Unbounded α} {q : Nat → α → Unbounded β} {x : Eval α}
  {y : α → Eval β} {w : Workspace}

theorem Accounts.nil {r : Except Condition α} (h : Mild r) : Accounts level [] r := by
  refine ⟨nofun, ⟨nofun, fun hr => ?_⟩⟩
  exact absurd rfl (h _ hr).1

theorem bind_of_some {p : Unbounded α} {q : α → Unbounded β} {r : Except Condition α}
    {s s' : Workspace × List Opening} (h : p s = some (r, s')) :
    (p >>= q) s = ExceptT.bindCont q r s' := by
  show (p s).bind _ = _
  rw [h]
  rfl

theorem get_bind {q : Workspace → Unbounded α} (log : List Opening) :
    (liftM (get : Eval Workspace) >>= q) (w, log) = q w (w, log) := rfl

theorem ends_of_eq {r : Except Condition α} {w' : Workspace} (h : x w = (r, w')) (log : List Opening) :
    (liftM x : Unbounded α) (w, log) = some (r, w', log) := by
  show some ((x w).1, (x w).2, log) = _
  rw [h]

namespace Agrees

theorem ends (h : Mild (x w).1) : Agrees level (fun _ => liftM x) x w :=
  ⟨0, [], fun _ _ log => by rw [List.append_nil]; rfl, .nil h⟩

theorem lift {r : Except Condition α} (h : Mild r) : Agrees level (fun _ => liftM r) (liftM r : Eval α) w :=
  ⟨0, [], fun _ _ log => by rw [List.append_nil]; rfl, .nil h⟩

theorem pure (a : α) : Agrees level (fun _ => Pure.pure a) (Pure.pure a) w :=
  ⟨0, [], fun _ _ log => by rw [List.append_nil]; rfl, .nil (.ok a)⟩

theorem throw {c : Condition} (h : c.fault ≠ .formulaTooComplex ∧ c.fault ≠ .interrupted) :
    Agrees level (fun _ => (MonadExcept.throw c : Unbounded α)) (MonadExcept.throw c) w :=
  ⟨0, [], fun _ _ log => by rw [List.append_nil]; rfl, .nil (.error h)⟩

theorem congr {p' : Nat → Unbounded α} {x' : Eval α} (h : Agrees level p' x' w)
    (hp : ∀ k log, p k (w, log) = p' k (w, log)) (hx : x w = x' w) : Agrees level p x w := by
  unfold Agrees
  simp only [hp, hx]
  exact h

/-- One computation after another. -/
theorem bind (hp : Agrees level p x w)
    (hq : ∀ a w', x w = (.ok a, w') → Agrees level (fun k => q k a) (y a) w') :
    Agrees level (fun k => p k >>= q k) (x >>= y) w := by
  obtain ⟨n, first, hfirst, hopened, hrefused⟩ := hp
  cases hx : x w with
  | mk r w' =>
    rw [hx] at hfirst hrefused
    cases r with
    | error e =>
      refine ⟨n, first, fun k hk log => ?_, hopened, ?_⟩
      · show (p k >>= q k) (w, log) = _
        rw [bind_of_some (hfirst k hk log), bind_of_error hx]
        rfl
      · rw [bind_of_error hx]
        simpa using hrefused
    | ok a =>
      obtain ⟨n', more, hmore, hopened', hrefused'⟩ := hq a w' hx
      refine ⟨max n n', first ++ more, fun k hk log => ?_, fun l hl => ?_, ?_⟩
      · show (p k >>= q k) (w, log) = _
        rw [bind_of_some (hfirst k (by omega) log), bind_of_ok hx, ← List.append_assoc]
        exact hmore k (by omega) (log ++ first)
      · rcases List.mem_append.mp hl with hl | hl
        · exact hopened l hl
        · exact hopened' l hl
      · rw [bind_of_ok hx, List.mem_append, hrefused']
        simp at hrefused
        simp [hrefused]

/-- A task takes one step more than what it consists of. -/
theorem run {ctx : Context} {caller : Option Activation} {task : Task} {x : Eval task.Result}
    (hbelow : ∀ a ∈ caller, Activation.Below ⟨level, w.cursor.rest.length⟩ a)
    (h : Agrees level (fun k => step ctx (run ctx k (some ⟨level, w.cursor.rest.length⟩)) level task) x w) :
    Agrees level (fun k => Unbounded.run ctx k caller level task) x w := by
  obtain ⟨n, more, hmore, haccounts⟩ := h
  refine ⟨n + 1, more, fun k hk log => ?_, haccounts⟩
  obtain ⟨j, rfl⟩ := Nat.exists_eq_add_of_lt hk
  exact (if_pos hbelow).trans (hmore (n + j) (Nat.le_add_right n j) log)

end Agrees

end

/-! ## Operands -/

section

variable {α : Type} (ctx : Context) {level : Nat} {w w' : Workspace}

theorem depth_of_keeps {x : Eval α} {r : Except Condition α} (hx : Keeps ctx (fun _ => True) x)
    (h : x w = (r, w')) : w'.depth = w.depth := by
  have hframe := hx w fun _ _ => trivial
  rw [h] at hframe
  exact hframe.depth

theorem tokens_of_keeps {x : Eval α} {r : Except Condition α} (hx : Keeps ctx (fun _ => True) x)
    (h : x w = (r, w')) : w'.cursor.rest.length ≤ w.cursor.rest.length := by
  have hframe := hx w fun _ _ => trivial
  rw [h] at hframe
  obtain ⟨n, hn⟩ := hframe.cursor
  rw [hn, Cursor.skip, List.length_drop]
  exact Nat.sub_le _ _

theorem tokens_of_next {t : Token} (h : Eval.next? w = (.ok (some t), w')) :
    w'.cursor.rest.length < w.cursor.rest.length := by
  obtain ⟨hpeek, rfl⟩ := Prod.mk.inj h
  obtain ⟨rest, hrest⟩ := List.head?_eq_some_iff.mp (Except.ok.inj hpeek)
  simp [Cursor.advance, hrest]

theorem tokens_of_accept {t : Token} (h : Eval.accept t w = (.ok true, w')) :
    w'.cursor.rest.length < w.cursor.rest.length := by
  obtain ⟨rest, hrest, rfl⟩ := Eval.accept_eq_true h
  simp [Cursor.skip, hrest]

theorem tokens_of_expect {t : Token} {u : Unit} (h : Eval.expect t w = (.ok u, w')) :
    w'.cursor.rest.length < w.cursor.rest.length := by
  rw [Eval.expect_eq] at h
  obtain ⟨found, w'', hfound, hend⟩ := bind_eq_ok h
  cases found with
  | true =>
    cases hend
    exact tokens_of_accept hfound
  | false => cases hend

theorem agrees_accept (t : Token) : Agrees level (fun _ => liftM (Eval.accept t)) (Eval.accept t) w :=
  .ends (.ok _)

theorem agrees_expect (t : Token) : Agrees level (fun _ => liftM (Eval.expect t)) (Eval.expect t) w :=
  .ends (w.cursor.mild_expect t)

theorem mild_applyBuiltin (f : Function) (args : List Value) (w : Workspace) :
    Mild (applyBuiltin ctx f args w).1 := by
  have hcall : (applyBuiltin ctx f args w).1 = (Builtin.call ctx w.random f args).map Prod.fst := by
    rw [applyBuiltin, bind_get]
    cases Builtin.call ctx w.random f args <;> rfl
  rw [hcall]
  exact (Builtin.mild_call ctx w.random f args).map _

/-- A body that is not used up is a syntax error, and nothing else. -/
theorem usedUp_eq_error (inner : Workspace) (r : Except Condition Value) :
    usedUp inner r = .error (.of .formulaTooComplex) ↔ r = .error (.of .formulaTooComplex) := by
  cases r with
  | error e => rfl
  | ok v => cases hend : inner.cursor.atEnd <;> simp [usedUp, hend, Condition.of]

end

/-- What is in brackets at a level is evaluated as `nested` does it. -/
def Brackets (ctx : Context) (level : Nat) (nested : Eval Value) : Prop :=
  ∀ tokens w, w.depth = level →
    Agrees level (fun k => bracketed (run ctx k (some ⟨level, tokens⟩)) level) (Expression.bracketed nested) w

section

variable {α : Type} {ctx : Context} {level : Nat} {nested : Eval Value} {w : Workspace}
  (hb : Brackets ctx level nested) (hk : ∀ N, Keeps ctx N nested) {tokens : Nat} (hw : w.depth = level)

section

include hb hk hw

/-- A list ends, since each comma is a token fewer. -/
theorem agrees_separated {convert : Value → Except Condition α} (hc : ∀ v, Mild (convert v)) {n : Nat}
    (hn : w.cursor.rest.length ≤ n) (htokens : w.cursor.rest.length < tokens) :
    Agrees level (fun k => run ctx k (some ⟨level, tokens⟩) level (.items convert))
      (separated (Eval.accept .comma) (do convert (← Expression.bracketed nested)) n) w := by
  have hitem : Keeps ctx (fun _ => True) (do convert (← Expression.bracketed nested) : Eval α) :=
    (keeps_bracketed (hk _)).bind fun v => keeps_lift (convert v)
  induction n generalizing w tokens with
  | zero =>
    refine .run (Activation.below_of_tokens htokens) ?_
    refine ((hb _ w hw).bind fun v _ _ => .lift (hc v)).bind fun a w' ha => ?_
    have hle := tokens_of_keeps ctx hitem ha
    have hnil : w'.cursor.rest = [] := List.length_eq_zero_iff.mp (by omega)
    -- no comma is left, so that it does not matter that none is looked for
    have hnone : Eval.accept .comma w' = (.ok false, w') :=
      Eval.accept_of_ne w' w'.cursor.passed (by simp [hnil])
    exact (Agrees.pure [a]).congr (fun k log => bind_of_some (ends_of_eq hnone log)) rfl
  | succ n ih =>
    refine .run (Activation.below_of_tokens htokens) ?_
    refine ((hb _ w hw).bind fun v _ _ => .lift (hc v)).bind fun a w' ha => ?_
    refine (agrees_accept _).bind fun found w'' hfound => ?_
    cases found with
    | false => exact .pure _
    | true =>
      have hdepth := (depth_of_keeps ctx (keeps_accept _) hfound).trans (depth_of_keeps ctx hitem ha)
      have hlt := tokens_of_accept hfound
      have hle := tokens_of_keeps ctx hitem ha
      exact (ih (hdepth.trans hw) (by omega) (by omega)).bind fun rest _ _ => .pure _

theorem agrees_items {convert : Value → Except Condition α} (hc : ∀ v, Mild (convert v))
    (htokens : w.cursor.rest.length < tokens) :
    Agrees level (fun k => run ctx k (some ⟨level, tokens⟩) level (.items convert))
      (Eval.list do convert (← Expression.bracketed nested)) w :=
  (agrees_separated hb hk hw hc (Nat.le_refl _) htokens).congr (fun _ _ => rfl) rfl

variable (htokens : w.cursor.rest.length ≤ tokens)

section

include htokens

theorem agrees_subscripts :
    Agrees level (fun k => subscripts (run ctx k (some ⟨level, tokens⟩)) level)
      (Expression.subscripts nested) w := by
  refine (agrees_accept _).bind fun found w' hfound => ?_
  cases found with
  | false => exact .pure _
  | true =>
    have hw' := (depth_of_keeps ctx (keeps_accept _) hfound).trans hw
    have hlt := Nat.lt_of_lt_of_le (tokens_of_accept hfound) htokens
    refine (agrees_items hb hk hw' Value.mild_asShort hlt).bind fun indexes _ _ => ?_
    exact (agrees_expect _).bind fun _ _ _ => .pure _

theorem agrees_arguments :
    Agrees level (fun k => arguments (run ctx k (some ⟨level, tokens⟩)) level)
      (Expression.arguments nested) w := by
  refine (agrees_expect _).bind fun _ w' hopened => ?_
  have hw' := (depth_of_keeps ctx (keeps_expect _) hopened).trans hw
  have hlt := Nat.lt_of_lt_of_le (tokens_of_expect hopened) htokens
  have hitems := agrees_items hb hk hw' Mild.ok hlt
  have hsame : (do liftM (Except.ok (← Expression.bracketed nested) : Except Condition Value)) =
      Expression.bracketed nested := bind_pure _
  rw [hsame] at hitems
  exact hitems.bind fun args _ _ => (agrees_expect _).bind fun _ _ _ => .pure _

theorem agrees_builtinArguments (f : Function) :
    Agrees level (fun k => builtinArguments (run ctx k (some ⟨level, tokens⟩)) level f)
      (Expression.builtinArguments nested f) w := by
  unfold builtinArguments Expression.builtinArguments
  split
  · exact agrees_arguments hb hk hw htokens
  · exact .pure []

end

omit hk in
theorem agrees_inBody (f : UserFunction) (args : List Value) :
    Agrees level (fun k => inBody (run ctx k (some ⟨level, tokens⟩)) level f args)
      (Expression.inBody nested f args) w := by
  obtain ⟨n, more, hmore, haccounts⟩ := hb tokens { w with
    store := (shadow w.store (f.params.zip args)).2
    cursor := .start f.body } hw
  dsimp only at hmore
  refine ⟨n, more, fun k hk log => ?_, haccounts.opened, ?_⟩
  · show Option.bind _ _ = _
    rw [hmore k hk]
    rfl
  · rw [haccounts.refused, ← usedUp_eq_error]
    rfl

include htokens

theorem agrees_userCall :
    Agrees level (fun k => userCall ctx (run ctx k (some ⟨level, tokens⟩)) level)
      (Expression.userCall ctx nested) w := by
  refine (Agrees.ends (Eval.mild_name w)).bind fun name w' hname => ?_
  cases ctx.functions[name]? with
  | none => exact .throw (by decide)
  | some f =>
    have hw' := (depth_of_keeps ctx keeps_name hname).trans hw
    have hle := (tokens_of_keeps ctx keeps_name hname).trans htokens
    refine (agrees_arguments hb hk hw' hle).bind fun args w'' hargs => ?_
    have hw'' := (depth_of_keeps ctx (keeps_arguments (hk _)) hargs).trans hw'
    refine (Agrees.lift (.require (by decide))).bind fun _ _ hcount => ?_
    obtain ⟨-, rfl⟩ := Prod.mk.inj hcount
    refine (Agrees.lift (.require (by decide))).bind fun _ _ htypes => ?_
    obtain ⟨-, rfl⟩ := Prod.mk.inj htypes
    refine (agrees_inBody hb hw'' f args).bind fun v _ _ => ?_
    exact (Agrees.lift (.require (by decide))).bind fun _ _ _ => .pure v

theorem agrees_atom :
    Agrees level (fun k => atom ctx (run ctx k (some ⟨level, tokens⟩)) level)
      (Expression.atom ctx nested) w := by
  refine (Agrees.ends (.ok _)).bind fun t w' ht => ?_
  have hw' := (depth_of_keeps ctx keeps_next? ht).trans hw
  have hle := (tokens_of_keeps ctx keeps_next? ht).trans htokens
  cases t with
  | none => exact .throw (by decide)
  | some t =>
    cases t with
    | number s => exact .lift (mild_literal s)
    | string s => exact .lift (Value.mild_ofString s)
    | name n =>
      dsimp only
      rw [subscripted, bind_assoc]
      refine (agrees_subscripts hb hk hw' hle).bind fun indexes w'' _ => ?_
      refine (Agrees.ends (w''.store.mild_locate n indexes)).bind fun c _ _ => ?_
      exact (Agrees.ends (.ok _)).bind fun _ _ _ => .pure _
    | function f =>
      refine (agrees_builtinArguments hb hk hw' hle f).bind fun args w'' _ => ?_
      exact .ends (mild_applyBuiltin ctx f args w'')
    | leftParen =>
      refine (hb tokens w' hw').bind fun v _ _ => ?_
      exact (agrees_expect _).bind fun _ _ _ => .pure _
    | word wd =>
      cases wd with
      | FN => exact agrees_userCall hb hk hw' hle
      | _ => exact .throw (by decide)
    | _ => exact .throw (by decide)

end

include hk

/-- An operand is at least one token. -/
theorem tokens_of_atom {v : Value} {w' : Workspace} (h : Expression.atom ctx nested w = (.ok v, w')) :
    w'.cursor.rest.length < w.cursor.rest.length := by
  obtain ⟨t, w₁, ht, hrest⟩ := bind_eq_ok h
  cases t with
  | none => cases hrest
  | some t =>
    have hafter {x : Eval Value} (hx : Keeps ctx (fun _ => True) x) (hrest : x w₁ = (.ok v, w')) :
        w'.cursor.rest.length < w.cursor.rest.length :=
      Nat.lt_of_le_of_lt (tokens_of_keeps ctx hx hrest) (tokens_of_next ht)
    cases t with
    | number | string => exact hafter (keeps_lift _) hrest
    | name n =>
      exact hafter ((keeps_subscripted (hk _) trivial).bind fun c => keeps_get.bind fun _ => keeps_pure _) hrest
    | function f => exact hafter (keeps_builtinCall (hk _) f) hrest
    | leftParen =>
      exact hafter ((keeps_bracketed (hk _)).bind fun v => (keeps_expect _).bind fun _ => keeps_pure v) hrest
    | word wd =>
      cases wd with
      | FN =>
        have hcall : Keeps ctx (fun _ => True) (Expression.userCall ctx nested) :=
          fun w hw => frame_userCall hk hw fun _ _ _ _ _ _ _ => trivial
        exact hafter hcall hrest
      | _ => cases hrest
    | _ => cases hrest

theorem tokens_of_operand {n : Nat} {v : Value} {w' : Workspace}
    (h : Expression.operand (Expression.atom ctx nested) (climb (Expression.atom ctx nested) n) w = (.ok v, w')) :
    w'.cursor.rest.length < w.cursor.rest.length := by
  obtain ⟨signs, w₁, hsigns, hrest⟩ := bind_eq_ok h
  obtain ⟨u, w₂, hatom, happly⟩ := bind_eq_ok hrest
  have hle₁ := tokens_of_keeps ctx (keeps_onCursor fun c => ⟨_, rfl⟩) hsigns
  have hlt := tokens_of_atom hk hatom
  have hle₂ := tokens_of_keeps ctx (keeps_applySigns (keeps_climb (keeps_atom hk) n) _ u) happly
  omega

end

/-! ## Operators -/

/-- With at most so many tokens to come, the operators after a left operand are applied as by climbing. -/
def Climbs (ctx : Context) (level : Nat) (nested : Eval Value) (n : Nat) : Prop :=
  ∀ tokens v least w, w.depth = level → w.cursor.rest.length ≤ n → w.cursor.rest.length < tokens →
    Agrees level (fun k => run ctx k (some ⟨level, tokens⟩) level (.operators v least))
      (climb (Expression.atom ctx nested) n v least) w

theorem advance_of_nextOperator? {least : Nat} {c : Cursor} {found : Operator × Nat}
    (h : nextOperator? least c = some found) : c.rest.length = c.advance.rest.length + 1 := by
  obtain ⟨passed, rest⟩ := c
  cases rest with
  | nil => cases h
  | cons t rest => rfl

section

variable {ctx : Context} {run : Nat → (task : Task) → Unbounded task.Result} {level least : Nat} {w : Workspace}

theorem operators_of_none (h : nextOperator? least w.cursor = none) (v : Value) (log : List Opening) :
    step ctx run level (.operators v least) (w, log) = some (.ok v, w, log) := by
  rw [step, get_bind, h]
  rfl

theorem operators_of_some {o : Operator} {rank : Nat} (h : nextOperator? least w.cursor = some (o, rank))
    (v : Value) (log : List Opening) :
    step ctx run level (.operators v least) (w, log) = (do
      Eval.onCursor fun c => ((), c.advance)
      let right ← run level (.expression (o.rightLevel rank))
      let v ← Value.binary o v right
      run level (.operators v least) : Unbounded Value) (w, log) := by
  rw [step, get_bind, h]

end

section

variable {ctx : Context} {level : Nat} {nested : Eval Value} {n : Nat} {w : Workspace}
  (hb : Brackets ctx level nested) (hk : ∀ N, Keeps ctx N nested)

section

variable (hc : Climbs ctx level nested n) (hw : w.depth = level) (hn : w.cursor.rest.length ≤ n)

include hk hc hw hn

theorem agrees_applySigns {tokens : Nat} (htokens : w.cursor.rest.length < tokens) (signs : List Sign)
    (v : Value) :
    Agrees level (fun k => applySigns (run ctx k (some ⟨level, tokens⟩)) level signs v)
      (Expression.applySigns (climb (Expression.atom ctx nested) n) signs v) w := by
  induction signs generalizing v w with
  | nil => exact .pure v
  | cons s signs ih =>
    refine (hc tokens v s.level w hw hn htokens).bind fun v w' hv => ?_
    have hw' := (depth_of_keeps ctx (keeps_climb (keeps_atom hk) n _ _) hv).trans hw
    have hle := tokens_of_keeps ctx (keeps_climb (keeps_atom hk) n _ _) hv
    refine (Agrees.lift (s.mild_apply v)).bind fun v w'' hsign => ?_
    obtain ⟨-, rfl⟩ := Prod.mk.inj hsign
    exact ih hw' (by omega) (by omega) v

include hb

theorem agrees_operand :
    Agrees level (fun k => operand ctx (run ctx k (some ⟨level, w.cursor.rest.length⟩)) level)
      (Expression.operand (Expression.atom ctx nested) (climb (Expression.atom ctx nested) n)) w := by
  refine (Agrees.ends (.ok _)).bind fun signs w' hsigns => ?_
  have hw' := (depth_of_keeps ctx (keeps_onCursor fun c => ⟨_, rfl⟩) hsigns).trans hw
  have hle := tokens_of_keeps ctx (keeps_onCursor fun c => ⟨_, rfl⟩) hsigns
  refine (agrees_atom hb hk hw' hle).bind fun v w'' hv => ?_
  have hw'' := (depth_of_keeps ctx (keeps_atom hk) hv).trans hw'
  have hlt := tokens_of_atom hk hv
  exact agrees_applySigns hk hc hw'' (by omega) (by omega) _ v

/-- An expression, if there is less before it than before what it is inside of. -/
theorem agrees_expression {caller : Option Activation} (least : Nat)
    (hbelow : ∀ a ∈ caller, Activation.Below ⟨level, w.cursor.rest.length⟩ a) :
    Agrees level (fun k => run ctx k caller level (.expression least)) (do
      let left ← Expression.operand (Expression.atom ctx nested) (climb (Expression.atom ctx nested) n)
      climb (Expression.atom ctx nested) n left least) w := by
  refine .run hbelow ((agrees_operand hb hk hc hw hn).bind fun left w' hleft => ?_)
  have hw' := (depth_of_keeps ctx (keeps_operand (keeps_atom hk) (keeps_climb (keeps_atom hk) n)) hleft).trans hw
  have hlt := tokens_of_operand hk hleft
  exact hc _ left least w' hw' (by omega) hlt

end

include hb hk

/-- The operators at one level, by induction on the tokens to come: each operator is one that is passed. -/
theorem climbs (n : Nat) : Climbs ctx level nested n := by
  induction n with
  | zero =>
    intro tokens v least w hw hn htokens
    refine .run (Activation.below_of_tokens htokens) ?_
    cases hop : nextOperator? least w.cursor with
    | none => exact (Agrees.pure v).congr (fun _ => operators_of_none hop v) rfl
    | some found =>
      have hpass := advance_of_nextOperator? hop
      omega
  | succ n ih =>
    intro tokens v least w hw hn htokens
    refine .run (Activation.below_of_tokens htokens) ?_
    cases hop : nextOperator? least w.cursor with
    | none => exact (Agrees.pure v).congr (fun _ => operators_of_none hop v) (climb_of_none hop _ v)
    | some found =>
      obtain ⟨o, rank⟩ := found
      have hpass := advance_of_nextOperator? hop
      refine Agrees.congr ?_ (fun _ => operators_of_some hop v) (climb_of_some hop n v)
      refine (Agrees.ends (.ok _)).bind fun _ w' hw' => ?_
      cases hw'
      have hn' : w.cursor.advance.rest.length ≤ n := by omega
      have hright := agrees_expression (w := { w with cursor := w.cursor.advance }) hb hk ih hw hn'
        (o.rightLevel rank) (Activation.below_of_tokens (Nat.lt_of_succ_le hpass.ge))
      refine (hright.bind fun right w' hw' => ?_).congr (fun _ _ => rfl) (congrFun (bind_assoc _ _ _).symm _)
      have hkeeps : Keeps ctx (fun _ => True) _ :=
        (keeps_operand (keeps_atom hk) (keeps_climb (keeps_atom hk) n)).bind fun left =>
          keeps_climb (keeps_atom hk) n left (o.rightLevel rank)
      have hdepth := (depth_of_keeps ctx hkeeps hw').trans hw
      have hle : w'.cursor.rest.length ≤ w.cursor.advance.rest.length := tokens_of_keeps ctx hkeeps hw'
      refine (Agrees.lift (Value.mild_binary o v right)).bind fun v w'' hv => ?_
      obtain ⟨-, rfl⟩ := Prod.mk.inj hv
      exact ih _ v least w' hdepth (by omega) (by omega)

theorem agrees_atLevel {caller : Option Activation} (hw : w.depth = level) (least : Nat)
    (hbelow : ∀ a ∈ caller, Activation.Below ⟨level, w.cursor.rest.length⟩ a) :
    Agrees level (fun k => run ctx k caller level (.expression least))
      (atLevel (Expression.atom ctx nested) least) w :=
  (agrees_expression hb hk (climbs hb hk _) hw (Nat.le_refl _) least hbelow).congr (fun _ _ => rfl) rfl

end

/-! ## Levels -/

/-- Where as many levels are open as may be, one more is refused. -/
theorem brackets_of_le (ctx : Context) {level : Nat} (hlevel : maxDepth ≤ level) (nested : Eval Value) :
    Brackets ctx level nested := by
  intro tokens w hw
  refine ⟨0, [.refused], fun k _ log => ?_, ?_⟩
  · rw [bracketed_of_le nested (hw.symm ▸ hlevel)]
    exact if_pos hlevel
  · rw [bracketed_of_le nested (hw.symm ▸ hlevel)]
    exact ⟨by simp, by simp⟩

/-- Else it is opened, and then there is one fewer to open. -/
theorem brackets_of_lt {ctx : Context} {level : Nat} {nested : Eval Value} (hlevel : level < maxDepth)
    (h : ∀ caller w, w.depth = level + 1 →
      (∀ a ∈ caller, Activation.Below ⟨level + 1, w.cursor.rest.length⟩ a) →
      Agrees (level + 1) (fun k => run ctx k caller (level + 1) (.expression 1)) nested w) :
    Brackets ctx level nested := by
  intro tokens w hw
  obtain ⟨n, more, hmore, haccounts⟩ := h (some ⟨level, tokens⟩) { w with depth := w.depth + 1 }
    (congrArg (· + 1) hw) (Activation.below_of_level hlevel _ tokens)
  rcases hin : nested { w with depth := w.depth + 1 } with ⟨r, w'⟩
  simp only [hin] at hmore haccounts
  rw [Agrees, bracketed_of_lt (by omega) hin]
  refine ⟨n, .opened (level + 1) :: more, fun k hk log => ?_, fun l hl => ?_, ?_⟩
  · rw [bracketed, if_neg (Nat.not_le.mpr hlevel)]
    show Option.bind _ _ = _
    rw [hmore k hk]
    simp
  · rcases List.mem_cons.mp hl with hl | hl
    · cases hl
      omega
    · have hrange := haccounts.opened l hl
      omega
  · rw [← haccounts.refused]
    simp

/-- By induction on the levels that may still be opened. -/
theorem agrees_within (ctx : Context) {levels level : Nat} (hlevels : level + levels = maxDepth)
    {caller : Option Activation} {w : Workspace} (hw : w.depth = level) (least : Nat)
    (hbelow : ∀ a ∈ caller, Activation.Below ⟨level, w.cursor.rest.length⟩ a) :
    Agrees level (fun k => run ctx k caller level (.expression least)) (within ctx levels least) w := by
  induction levels generalizing level caller w least with
  | zero =>
    have hb := brackets_of_le ctx (Nat.le_of_eq hlevels.symm) (throw (.of .formulaTooComplex))
    exact agrees_atLevel hb (fun _ => keeps_throw _) hw least hbelow
  | succ levels ih =>
    have hb : Brackets ctx level (within ctx levels 1) :=
      brackets_of_lt (by omega) fun caller w hw hbelow => ih (by omega) hw 1 hbelow
    exact agrees_atLevel hb (fun _ => keeps_within levels 1) hw least hbelow

end Unbounded

/-- Evaluation always ends, whatever the tokens and the functions, also where functions call themselves or
each other. What is done inside something else has less before it, in an order that is well-founded; and with
enough steps the recursion that nothing bounds comes to the result of the evaluator. No more than the greatest
number of brackets, subscripts, arguments and function bodies is open at any time: one more is refused, and
then the expression is found too complex, which it is for no other reason. Afterwards as many are open as
before. -/
theorem evaluate_ends (ctx : Context) {w : Workspace} (hw : w.depth ≤ maxDepth) :
    WellFounded Activation.Below ∧ (evaluate ctx w).2.depth = w.depth ∧
    ∃ n log, (∀ k, n ≤ k → Unbounded.run ctx k none w.depth (.expression 1) (w, []) =
        some ((evaluate ctx w).1, (evaluate ctx w).2, log)) ∧
      (∀ l, .opened l ∈ log → w.depth < l ∧ l ≤ maxDepth) ∧
      (.refused ∈ log ↔ (evaluate ctx w).1 = .error (.of .formulaTooComplex)) := by
  have houter : ∀ a ∈ (none : Option Activation), Activation.Below ⟨w.depth, w.cursor.rest.length⟩ a := by
    simp
  have hagrees : Unbounded.Agrees w.depth (fun k => Unbounded.run ctx k none w.depth (.expression 1))
      (evaluate ctx) w :=
    (Unbounded.agrees_within ctx (Nat.add_sub_cancel' hw) rfl 1 houter).congr (fun _ _ => rfl) rfl
  obtain ⟨n, log, hlog, haccounts⟩ := hagrees
  have hdepth : (evaluate ctx w).2.depth = w.depth := Unbounded.depth_of_keeps ctx keeps_evaluate rfl
  exact ⟨Activation.below_wellFounded, hdepth, n, log, fun k hk => hlog k hk [], haccounts.opened,
    haccounts.refused⟩

/-- The tokens of a call of this function with its parameter. -/
def callOf (name : String) : List Token := [.word .FN, .name name, .leftParen, .name "X", .rightParen]

/-- Two functions that call each other and never come to an end by themselves. -/
def eachOther : Context where
  functions := (Std.TreeMap.empty.insert "A" ⟨["X"], callOf "B"⟩).insert "B" ⟨["X"], callOf "A"⟩
  column := 0
  errorNumber := 0
  errorLine := 0

/-- A call of one of them where three brackets are open already. -/
def calling : Workspace := { cursor := .start (callOf "A"), depth := 3 }

-- values cannot be compared, but whether there is one can be told
theorem eq_error_of_map {α : Type} {r : Except Condition α} {c : Condition}
    (h : r.map (fun _ => ()) = .error c) : r = .error c := by
  cases r with
  | ok a => cases h
  | error e =>
    cases h
    rfl

theorem evaluate_ends_each_other : calling.depth ≤ maxDepth ∧
    (evaluate eachOther calling).1 = .error (.of .formulaTooComplex) ∧
    (evaluate eachOther calling).2.depth = 3 ∧
    ∃ n log, (∀ k, n ≤ k → Unbounded.run eachOther k none 3 (.expression 1) (calling, []) =
        some (.error (.of .formulaTooComplex), (evaluate eachOther calling).2, log)) ∧
      .refused ∈ log ∧ ∀ l, .opened l ∈ log → 3 < l ∧ l ≤ maxDepth := by
  have hdepth : calling.depth ≤ maxDepth := by decide
  have hresult : (evaluate eachOther calling).1 = .error (.of .formulaTooComplex) := by
    refine eq_error_of_map ?_
    decide +kernel
  obtain ⟨-, hsame, n, log, hlog, hopened, hrefused⟩ := evaluate_ends eachOther hdepth
  rw [hresult] at hlog
  exact ⟨hdepth, hresult, hsame, n, log, hlog, hrefused.mpr hresult, hopened⟩

end LineBasic.Expression
