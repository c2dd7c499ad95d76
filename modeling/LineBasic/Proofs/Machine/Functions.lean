import LineBasic.Proofs.Expression.Recursion
import LineBasic.Proofs.Machine.ResumeNext
import LineBasic.Proofs.Statement.Extension

/-! What `DEF` defines and what a call of it gives. The body of a function is all that follows up to a
colon, so that it is the expression of its own statement unless an `ELSE` follows there. Then the `ELSE`
and what stands behind it belong to the body too, and the function has no value. -/

namespace LineBasic

/-- Names with commas between them. -/
def Token.names (params : List String) : List Token := (params.map Token.name).intersperse .comma

theorem Token.length_le_names (params : List String) : params.length ≤ (names params).length := by
  induction params with
  | nil => exact Nat.le_refl 0
  | cons x params ih =>
    cases params with
    | nil => exact Nat.le_refl 1
    | cons y params => exact Nat.le_succ_of_le (Nat.succ_le_succ ih)

/-- What stands between `DEF` and the body of a function. -/
def Token.heading (f : String) (params : List String) : List Token :=
  .word .FN :: .name f :: .leftParen :: (names params ++ [.rightParen, .operator .equal])

theorem Token.heading_append (f : String) (params : List String) (tail : List Token) :
    heading f params ++ tail = .word .FN :: .name f :: .leftParen ::
      (names params ++ .rightParen :: .operator .equal :: tail) := by
  simp [heading]

namespace Eval

variable (w : Workspace) (passed : List Token)

theorem name_head (x : String) (rest : List Token) :
    name (w.between passed (.name x :: rest)) = (.ok x, w.between (.name x :: passed) rest) := by
  rw [name, bind_of_ok (next?_cons (.name x) w passed rest)]
  rfl

theorem separated_names {params : List String} (hparams : params ≠ []) {rest : List Token}
    (hrest : rest.head? ≠ some .comma) {n : Nat} (hn : params.length ≤ n) :
    separated (accept .comma) name n (w.between passed (Token.names params ++ rest)) =
      (.ok params, w.between ((Token.names params).reverse ++ passed) rest) := by
  induction params generalizing passed n with
  | nil => exact absurd rfl hparams
  | cons x params ih =>
    obtain ⟨n, rfl⟩ := Nat.exists_eq_add_of_le' (Nat.le_trans (Nat.succ_pos _) hn)
    cases params with
    | nil =>
      have hx := name_head w passed x rest
      have hend := accept_of_ne w (.name x :: passed) hrest
      show (name >>= _) (w.between passed (.name x :: rest)) = _
      rw [bind_of_ok hx, bind_of_ok hend]
      rfl
    | cons y params =>
      have hx := name_head w passed x (.comma :: (Token.names (y :: params) ++ rest))
      have hcomma := accept_head .comma w (.name x :: passed) (Token.names (y :: params) ++ rest)
      have hmore := ih (.comma :: .name x :: passed) (List.cons_ne_nil y params)
        (Nat.le_of_succ_le_succ hn)
      show (name >>= _) (w.between passed (.name x :: .comma :: (Token.names (y :: params) ++ rest))) = _
      rw [bind_of_ok hx, bind_of_ok hcomma, if_pos rfl, bind_of_ok hmore]
      simp [Token.names]
      rfl

theorem list_names {params : List String} (hparams : params ≠ []) {rest : List Token}
    (hrest : rest.head? ≠ some .comma) :
    list name (w.between passed (Token.names params ++ rest)) =
      (.ok params, w.between ((Token.names params).reverse ++ passed) rest) := by
  refine separated_names w passed hparams hrest (Nat.le_trans (Token.length_le_names params) ?_)
  exact (List.length_append ▸ Nat.le_add_right _ _)

end Eval

/-- The same machine with the cursor between these tokens. -/
def Machine.between (m : Machine) (passed rest : List Token) : Machine :=
  { m with cursor := ⟨passed, rest⟩ }

namespace Statement

theorem liftM_between {α : Type} {x : Eval α} {m : Machine} {r : Except Condition α}
    {passed rest passed' rest' : List Token}
    (h : x (m.toWorkspace.between passed rest) = (r, m.toWorkspace.between passed' rest')) :
    (liftM x : Exec α) (m.between passed rest) = (r, m.between passed' rest') :=
  Extends.liftM_apply (m := m.between passed rest) h

theorem functionBody_at (m : Machine) : (liftM functionBody : Exec (List Token)) m =
    (.ok (m.cursor.rest.takeWhile (· != .colon)), { m with cursor := m.cursor.skipStatement }) := rfl

/-- `DEF` takes all that follows its heading up to a colon. -/
theorem define_eq {m : Machine} {f : String} {params : List String} {tail : List Token}
    (hline : m.line.isSome = true) (hparams : params ≠ [])
    (hbody : tail.takeWhile (· != .colon) ≠ []) (passed : List Token) :
    define (m.between passed (Token.heading f params ++ tail)) = (.ok .done, { m with
      cursor := (Cursor.mk ((Token.heading f params).reverse ++ passed) tail).skipStatement
      functions := m.functions.insert f ⟨params, tail.takeWhile (· != .colon)⟩ }) := by
  have hdeferred : ∀ rest, Exec.refuseDirect (m.between passed rest) = (.ok (), m.between passed rest) := by
    intro rest
    have hdirect : m.isDirect = false := by simpa [Machine.isDirect] using hline
    show (require (!m.isDirect) _, m.between passed rest) = _
    rw [hdirect]
    rfl
  have hbody : (!(tail.takeWhile (· != .colon)).isEmpty) = true := by simpa using hbody
  rw [Token.heading_append, define, bind_of_ok (hdeferred _)]
  rw [bind_of_ok (liftM_between (Eval.expect_head m.toWorkspace _ (.word .FN) _))]
  rw [bind_of_ok (liftM_between (Eval.name_head m.toWorkspace _ f _))]
  rw [bind_of_ok (liftM_between (Eval.expect_head m.toWorkspace _ .leftParen _))]
  rw [bind_of_ok (liftM_between (Eval.list_names m.toWorkspace _ hparams (by simp)))]
  rw [bind_of_ok (liftM_between (Eval.expect_head m.toWorkspace _ .rightParen _))]
  rw [bind_of_ok (liftM_between (Eval.expect_head m.toWorkspace _ (.operator .equal) _))]
  rw [bind_of_ok (functionBody_at _)]
  simp only [Machine.between, hbody, Token.heading, List.reverse_cons, List.reverse_append, List.reverse_nil,
    List.append_assoc, List.cons_append, List.nil_append]
  rfl

end Statement

/-! ## Calls -/

/-- Bind names to values one after another, whatever they were bound to. -/
def Store.binds (s : Store) (pairs : List (String × Value)) : Store :=
  pairs.foldl (fun s (x, v) => ⟨s.bindings.insert x (.scalar v)⟩) s

/-- The workspace of a function body: its parameters are bound, and one more level is open. -/
def Workspace.inside (w : Workspace) (params : List String) (args : List Value) : Workspace :=
  { w with store := w.store.binds (params.zip args), depth := w.depth + 1 }

/-- A value that a function of this name may have. -/
def Value.resultOf (f : String) (v : Value) : Except Condition Value :=
  if v.isString = isStringName f then .ok v else .error (.of .typeMismatch)

namespace Expression

/-- The value of these tokens as one expression, which has to use them up. -/
def valueOf (ctx : Context) (tokens : List Token) (w : Workspace) : Except Condition Value :=
  match evaluate ctx { w with cursor := .start tokens } with
  | (.ok v, w') => if w'.cursor.rest = [] then .ok v else .error (.of .syntaxError)
  | (.error c, _) => .error c

variable {ctx : Context} {w : Workspace}

theorem shadow_snd (s : Store) (pairs : List (String × Value)) : (shadow s pairs).2 = s.binds pairs := by
  induction pairs generalizing s with
  | nil => rfl
  | cons p pairs ih =>
    rw [shadow]
    exact ih _

/-- No expression goes on with an `ELSE`, so what has a value before one does not use it up. -/
theorem valueOf_append {e suffix : List Token} (hs : Boundary suffix) (hne : suffix ≠ []) {v : Value}
    (h : valueOf ctx e w = .ok v) : valueOf ctx (e ++ suffix) w = .error (.of .syntaxError) := by
  rw [valueOf] at h
  split at h
  · rename_i w' hrun
    split at h
    · rename_i hend
      have hwhole := (Extends.whole (fun n => Extends.evaluate hs ctx) hrun hend).2 [] ⟨none, 0⟩
      have hlonger : evaluate ctx { w with cursor := .start (e ++ suffix) } = _ := hwhole
      rw [valueOf, hlonger]
      exact if_neg hne
    · cases h
  · cases h

theorem inBody_fst {levels : Nat} (hw : w.depth + 1 + levels = maxDepth) (f : UserFunction)
    (args : List Value) :
    (inBody (within ctx levels 1) f args w).1 = valueOf ctx f.body (w.inside f.params args) := by
  have hlevels : maxDepth - (w.depth + 1) = levels := by omega
  have hlt : w.depth < maxDepth := by omega
  rcases hrun : evaluate ctx { w.inside f.params args with cursor := .start f.body } with ⟨r, w'⟩
  have hwithin : within ctx levels 1 { w.inside f.params args with cursor := .start f.body } = (r, w') := by
    rw [← hrun, ← hlevels]
    rfl
  rw [Workspace.inside, ← shadow_snd] at hwithin
  have hbracketed := bracketed_of_lt (w := { w with
    store := (shadow w.store (f.params.zip args)).2
    cursor := .start f.body }) hlt hwithin
  simp only [inBody, hbracketed, valueOf, hrun]
  cases r with
  | error c => rfl
  | ok v => simp [Cursor.atEnd]

theorem all_zip_of_map {params : List String} {args : List Value}
    (h : args.map Value.isString = params.map isStringName) :
    ((params.zip args).all fun (p, v) => isStringName p == v.isString) = true := by
  induction params generalizing args with
  | nil => rfl
  | cons p params ih =>
    cases args with
    | nil => rfl
    | cons v args =>
      obtain ⟨hv, hargs⟩ := List.cons.inj h
      simp [hv, ih hargs]

/-- The operand at `w`, within whose brackets `levels` more may be opened, is a call of this function. Its
arguments have the values `args` and leave the workspace `w'`. -/
structure Calls (ctx : Context) (levels : Nat) (w : Workspace) (name : String) (args : List Value)
    (w' : Workspace) : Prop where
  depth : w.depth + 1 + levels = maxDepth
  operand : ∃ rest, w.cursor.rest = .word .FN :: .name name :: rest
  arguments : arguments (within ctx levels 1) { w with cursor := w.cursor.skip 2 } = (.ok args, w')

/-- A call with arguments of the right types gives what the body gives, if that is of the type of the
function. -/
theorem Calls.atom_fst {f : UserFunction} {name : String} {levels : Nat} {args : List Value}
    {w' : Workspace} (hcall : Calls ctx levels w name args w') (hf : ctx.functions[name]? = some f)
    (htypes : args.map Value.isString = f.params.map isStringName) :
    (atom ctx (within ctx levels 1) w).1 =
      valueOf ctx f.body (w'.inside f.params args) >>= Value.resultOf name := by
  obtain ⟨hw, ⟨rest, hrest⟩, hargs⟩ := hcall
  have hnext : Eval.next? w = (.ok (some (.word .FN)), { w with cursor := w.cursor.skip 1 }) := by
    rw [Eval.next?, Eval.onCursor_apply, Cursor.peek?, hrest, Cursor.advance_eq_skip]
    rfl
  have hname : Eval.name { w with cursor := w.cursor.skip 1 } =
      (.ok name, { w with cursor := w.cursor.skip 2 }) := by
    simp only [Cursor.skip, hrest]
    exact Eval.name_head w _ name rest
  have hcount : (args.length == f.params.length) = true := by
    have hlength := congrArg List.length htypes
    simpa using hlength
  have hall : ((f.params.zip args).all fun (p, v) => isStringName p == v.isString) = true :=
    all_zip_of_map htypes
  have hdepth : w'.depth = w.depth :=
    Unbounded.depth_of_keeps (w := { w with cursor := w.cursor.skip 2 }) ctx
      (keeps_arguments (keeps_within levels 1)) hargs
  have hbody : (inBody (within ctx levels 1) f args w').1 = valueOf ctx f.body (w'.inside f.params args) :=
    inBody_fst (by rw [hdepth]; exact hw) f args
  rw [atom, bind_of_ok hnext]
  show (userCall ctx (within ctx levels 1) _).1 = _
  rw [userCall, bind_of_ok hname]
  simp only [hf]
  rw [bind_of_ok hargs, hcount, hall]
  show ((inBody (within ctx levels 1) f args >>= fun v => do
    require (isStringName name == v.isString) (.of .typeMismatch)
    return v) w').1 = _
  rw [← hbody, run_bind]
  cases (inBody (within ctx levels 1) f args w').1 with
  | error c => rfl
  | ok v =>
    show ((do
      require (isStringName name == v.isString) (.of .typeMismatch)
      return v : Eval Value) _).1 = Value.resultOf name v
    by_cases htype : v.isString = isStringName name
    · rw [Value.resultOf, if_pos htype, htype, beq_self_eq_true]
      rfl
    · rw [Value.resultOf, if_neg htype, beq_false_of_ne (Ne.symm htype)]
      rfl

end Expression

namespace Machine

open Statement

variable {m d : Machine} {f : String} {params : List String}

theorem atStatementEnd_skipStatement (c : Cursor) : c.skipStatement.atStatementEnd = true := by
  have hstops := List.head?_dropWhile_not (· != Token.colon) c.rest
  rw [Cursor.atStatementEnd, Cursor.skipStatement, Cursor.rest_skip_takeWhile]
  cases hrest : c.rest.dropWhile (· != Token.colon) with
  | nil => rfl
  | cons t rest =>
    rw [hrest] at hstops
    obtain rfl : t = .colon := by simpa using hstops
    rfl

/-- The step that executes a `DEF`, wherever that stands. -/
theorem Starts.step_define {tail : List Token} (hd : m.Starts d) (hline : d.line.isSome = true)
    (hparams : params ≠ []) (hbody : tail.takeWhile (· != .colon) ≠ [])
    (hrest : d.cursor.rest = .word .DEF :: (Token.heading f params ++ tail)) :
    ∃ m', m.step = (.running, m') ∧ m'.cursor.rest = tail.dropWhile (· != .colon) ∧
      m'.functions = d.functions.insert f ⟨params, tail.takeWhile (· != .colon)⟩ := by
  have hword : d.word? = some .DEF := by
    rw [word?, Cursor.peek?, hrest]
    rfl
  have hpast : d.pastWord = d.between (.word .DEF :: d.cursor.passed) (Token.heading f params ++ tail) := by
    simp only [pastWord, Cursor.advance, hrest]
    rfl
  have hend : ∀ (c : Cursor) (fs : Std.TreeMap String UserFunction),
      settle .done { d with cursor := c.skipStatement, functions := fs } =
        (.ok .done, { d with cursor := c.skipStatement, functions := fs }) := by
    intro c fs
    exact settle_of_atStatementEnd (atStatementEnd_skipStatement c) .done
  rw [hd.step_of_word hword (by decide), hpast, ofWord, bind_of_ok (define_eq hline hparams hbody _), hend]
  exact ⟨_, rfl, Cursor.rest_skip_takeWhile _ _, rfl⟩

/-- `DEF` makes the expression of its statement the body of a function, and a later call with arguments of the
right types gives the value of that expression with the parameters bound, or the condition that its evaluation
ends with; but a value of the wrong type is a type mismatch. Where an `ELSE` follows the statement, it belongs
to the body with all that stands behind it up to a colon, and a call is a syntax error if the expression has a
value. -/
theorem call_of_define {e after : List Token} (hd : m.Starts d) (hline : d.line.isSome = true)
    (hparams : params ≠ []) (he : e ≠ []) (hfree : ∀ t ∈ e, t.endsStatement = false)
    (hafter : StatementEnd after)
    (hrest : d.cursor.rest = .word .DEF :: (Token.heading f params ++ (e ++ after))) :
    ∃ m' body, m.step = (.running, m') ∧ m'.functions = d.functions.insert f ⟨params, body⟩ ∧
      (after.head? ≠ some (.word .ELSE) → body = e ∧ m'.cursor.rest = after) ∧
      (∀ branch, after = .word .ELSE :: branch →
        body = e ++ .word .ELSE :: branch.takeWhile (· != .colon) ∧
        m'.cursor.rest = branch.dropWhile (· != .colon)) ∧
      ∀ {ctx levels w args w'}, ctx.functions[f]? = m'.functions[f]? →
        Expression.Calls ctx levels w f args w' → args.map Value.isString = params.map isStringName →
        (after.head? ≠ some (.word .ELSE) → (Expression.atom ctx (Expression.within ctx levels 1) w).1 =
          Expression.valueOf ctx e (w'.inside params args) >>= Value.resultOf f) ∧
        (after.head? = some (.word .ELSE) →
          ∀ v, Expression.valueOf ctx e (w'.inside params args) = .ok v →
            (Expression.atom ctx (Expression.within ctx levels 1) w).1 = .error (.of .syntaxError)) := by
  have hcolon : ∀ t ∈ e, (t != .colon) = true := by
    intro t ht
    have hends := hfree t ht
    simp only [Token.endsStatement, Bool.or_eq_false_iff] at hends
    simp [bne, hends.1]
  have htake : (e ++ after).takeWhile (· != .colon) = e ++ after.takeWhile (· != .colon) :=
    List.takeWhile_append_of_pos hcolon
  have hdrop : (e ++ after).dropWhile (· != .colon) = after.dropWhile (· != .colon) :=
    List.dropWhile_append_of_pos hcolon
  obtain ⟨m', hstep, hcursor, hfunctions⟩ := hd.step_define hline hparams (by simp [htake, he]) hrest
  rw [htake] at hfunctions
  rw [hdrop] at hcursor
  -- without an `ELSE` nothing stands between the expression and the colon or the end of the line
  have hshort : after.head? ≠ some (.word .ELSE) →
      after.takeWhile (· != .colon) = [] ∧ after.dropWhile (· != .colon) = after := by
    intro helse
    cases after with
    | nil => exact ⟨rfl, rfl⟩
    | cons t after =>
      rcases hafter t rfl with rfl | rfl
      · exact ⟨rfl, rfl⟩
      · exact absurd rfl helse
  refine ⟨m', _, hstep, hfunctions, fun helse => ?_, ?_, ?_⟩
  · obtain ⟨hnone, hall⟩ := hshort helse
    rw [hnone, List.append_nil, hcursor, hall]
    exact ⟨rfl, rfl⟩
  · rintro branch rfl
    exact ⟨rfl, hcursor⟩
  · intro ctx levels w args w' hctx hcall htypes
    have hf : ctx.functions[f]? = some ⟨params, e ++ after.takeWhile (· != .colon)⟩ := by
      rw [hctx, hfunctions, Std.TreeMap.getElem?_insert_self]
    have hvalue := hcall.atom_fst hf htypes
    refine ⟨fun helse => ?_, fun helse v hv => ?_⟩
    · rw [(hshort helse).1, List.append_nil] at hvalue
      exact hvalue
    · obtain ⟨branch, rfl⟩ := List.head?_eq_some_iff.mp helse
      have hbranch : Boundary (.word .ELSE :: branch.takeWhile (· != .colon)) := by
        intro t ht
        cases ht
        exact .inr (.inl rfl)
      rw [hvalue]
      exact congrArg (· >>= Value.resultOf f) (Expression.valueOf_append hbranch (List.cons_ne_nil _ _) hv)

/-- A function that is defined before an `ELSE`. -/
def definesBeforeElse : Machine :=
  (entered ["10 IF 1 THEN DEF FNA(X)=X+1 ELSE PRINT 1", "20 PRINT FNA(2)", "RUN"]).step.2

/-- The branch that is not taken belongs to the body, and the call is a syntax error. -/
theorem call_of_define_before_else : ∃ m, m = definesBeforeElse ∧ m.step.1 = .running ∧
    (m.step.2.functions["A"]?).map (·.body) =
      some [.name "X", .operator .plus, .number "1", .word .ELSE, .word .PRINT, .number "1"] ∧
    (m.steps 2).1 = .failed ⟨.syntaxError, some 20, ""⟩ :=
  ⟨_, rfl, by decide +kernel⟩

/-- A function that is defined after an `ELSE` and before a colon. -/
def definesAfterElse : Machine :=
  (entered ["10 IF 0 THEN END ELSE DEF FNA(X)=X+1:PRINT FNA(2)", "RUN"]).step.2

theorem call_of_define_after_else : ∃ m d m' w args w', m = definesAfterElse ∧ m.Starts d ∧
    d.line.isSome = true ∧ d.cursor.rest = .word .DEF :: (Token.heading "A" ["X"] ++
      ([.name "X", .operator .plus, .number "1"] ++ [.colon, .word .PRINT, .word .FN, .name "A", .leftParen,
        .number "2", .rightParen])) ∧
    m.step = (.running, m') ∧
    m'.functions["A"]? = some ⟨["X"], [.name "X", .operator .plus, .number "1"]⟩ ∧
    Expression.Calls m'.context 63 w "A" args w' ∧ args.map Value.isString = [false] ∧
    (Expression.atom m'.context (Expression.within m'.context 63 1) w).1 =
      Expression.valueOf m'.context [.name "X", .operator .plus, .number "1"] (w'.inside ["X"] args) >>=
        Value.resultOf "A" := by
  obtain ⟨⟨hrunning, hbreak, hinquiry⟩, hnext, hagain, hline, hrest⟩ :
      (definesAfterElse.running = true ∧ definesAfterElse.breakRequested = false ∧
        definesAfterElse.inquiry = none) ∧ definesAfterElse.nextStatement.1 = true ∧
      (one definesAfterElse.nextStatement.2).1 = .ok .again ∧
      (one definesAfterElse.nextStatement.2).2.line.isSome = true ∧
      (one definesAfterElse.nextStatement.2).2.cursor.rest = .word .DEF :: (Token.heading "A" ["X"] ++
        ([.name "X", .operator .plus, .number "1"] ++ [.colon, .word .PRINT, .word .FN, .name "A", .leftParen,
          .number "2", .rightParen])) := by
    decide +kernel
  have hd : definesAfterElse.Starts (one definesAfterElse.nextStatement.2).2 :=
    ⟨⟨hrunning, hbreak, hinquiry⟩, _, Prod.ext hnext rfl, .again (Prod.ext hagain rfl) (.refl _)⟩
  obtain ⟨m', body, hstep, hfunctions, hbody, -, hcall⟩ := call_of_define hd hline (List.cons_ne_nil _ _)
    (List.cons_ne_nil _ _) (by decide) (by simp [StatementEnd]) hrest
  obtain ⟨rfl, -⟩ := hbody (by decide)
  obtain rfl : definesAfterElse.step.2 = m' := congrArg Prod.snd hstep
  let ctx := definesAfterElse.step.2.context
  let w : Workspace := { cursor := .start [.word .FN, .name "A", .leftParen, .number "2", .rightParen] }
  let r := Expression.arguments (Expression.within ctx 63 1) { w with cursor := w.cursor.skip 2 }
  have hargs : r.1.map (·.map Value.isString) = .ok [false] := by decide +kernel
  cases hr : r with
  | mk result w' =>
    rw [hr] at hargs
    cases result with
    | error c => cases hargs
    | ok args =>
      have htypes : args.map Value.isString = [false] := Except.ok.inj hargs
      have hcalls : Expression.Calls ctx 63 w "A" args w' := ⟨rfl, ⟨_, rfl⟩, hr⟩
      refine ⟨_, _, _, w, args, w', rfl, hd, hline, hrest, hstep, ?_, hcalls, htypes, ?_⟩
      · rw [hfunctions, Std.TreeMap.getElem?_insert_self]
      · exact (hcall rfl hcalls htypes).1 (by decide)

end Machine

end LineBasic
