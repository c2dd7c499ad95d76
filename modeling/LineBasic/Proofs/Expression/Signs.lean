import LineBasic.Proofs.Expression.Precedence
import LineBasic.Proofs.Expression.Recursion

/-! Signs by recursion. The evaluator collects the signs before an operand and applies them afterwards from the
inside out. The rule that this carries out is recursive: a sign stands before an expression of its own level,
which may start with a sign again. There is exactly one evaluator that follows the recursive rules, whatever
the tokens, and it is this one. -/

namespace LineBasic.Expression

/-- An operand by recursion: after a sign the expression of its level is evaluated, and then the sign applied. -/
def signed (ctx : Context) (expression : Nat → Eval Value) : Eval Value := do
  match ← Eval.peek? with
  | some (.operator .not) =>
    Eval.onCursor fun c => ((), c.advance)
    (← expression 4).complement
  | some (.operator .minus) =>
    Eval.onCursor fun c => ((), c.advance)
    (← expression 7).negate
  | some (.operator .plus) =>
    Eval.onCursor fun c => ((), c.advance)
    let v ← expression 7
    let _ ← v.asNumber
    return v
  | _ => atom ctx (expression 1)

/-- An evaluator of expressions, and of the operators after a left operand, that follows the recursive rules. In
brackets, subscripts, arguments and function bodies it evaluates expressions by the same rules. -/
structure Recursive (ctx : Context) (expression : Nat → Eval Value) (operators : Value → Nat → Eval Value) :
    Prop where
  expression_eq : ∀ least, expression least = do
    let left ← signed ctx expression
    operators left least
  operators_eq : ∀ left least, operators left least = do
    match nextOperator? least (← get).cursor with
    | none => return left
    | some (o, level) =>
      Eval.onCursor fun c => ((), c.advance)
      let right ← expression (o.rightLevel level)
      let v ← Value.binary o left right
      operators v least

/-! ## Runs that agree -/

/-- Two computations come to the same if their first parts do, and then the rest of them. -/
theorem bind_congr_at {α β : Type} {x y : Eval α} {f g : α → Eval β} {w v : Workspace} (hx : x w = y v)
    (hf : ∀ a w', y v = (.ok a, w') → f a w' = g a w') : (x >>= f) w = (y >>= g) v := by
  rw [run_bind, run_bind, hx]
  rcases hy : y v with ⟨e | a, w'⟩
  · rfl
  · exact hf a w' hy

theorem bind_of_eq {α β : Type} {x y : Eval α} {f : α → Eval β} {w v : Workspace} (hx : x w = y v) :
    (x >>= f) w = (y >>= f) v :=
  bind_congr_at hx fun _ _ _ => rfl

/-- What touches nothing leaves the rest to start where it started. -/
theorem lift_bind_congr {α β : Type} {r : Except Condition α} {f g : α → Eval β} {w : Workspace}
    (hf : ∀ a, f a w = g a w) : ((liftM r : Eval α) >>= f) w = ((liftM r : Eval α) >>= g) w := by
  refine bind_congr_at rfl fun a w' ha => ?_
  obtain ⟨-, rfl⟩ := Prod.mk.inj ha
  exact hf a

section

variable (ctx : Context) (expression : Nat → Eval Value) (w : Workspace) (passed : List Token)

theorem signed_of_sign (s : Sign) (rest : List Token) :
    signed ctx expression (w.between passed (.operator s.operator :: rest)) = (do
      let v ← expression s.level
      s.apply v : Eval Value) (w.between (.operator s.operator :: passed) rest) := by
  cases s with
  | not | minus => rfl
  | plus =>
    show (expression 7 >>= fun v => liftM v.asNumber >>= fun _ => pure v : Eval Value) _ = _
    refine bind_congr_at rfl fun v w' _ => ?_
    cases v <;> rfl

theorem signed_of_leading_eq_nil {rest : List Token} (h : Sign.leading rest = []) :
    signed ctx expression (w.between passed rest) = atom ctx (expression 1) (w.between passed rest) := by
  cases rest with
  | nil => rfl
  | cons t rest =>
    cases t with
    | operator o =>
      cases o with
      | not | minus | plus => cases h
      | _ => rfl
    | _ => rfl

theorem sign_or_leading_eq_nil (rest : List Token) :
    (∃ s rest', rest = .operator (Sign.operator s) :: rest') ∨ Sign.leading rest = [] := by
  cases rest with
  | nil => exact .inr rfl
  | cons t rest =>
    cases hs : Sign.ofToken? t with
    | none => exact .inr (by rw [Sign.leading, hs])
    | some s =>
      refine .inl ⟨s, rest, ?_⟩
      unfold Sign.ofToken? at hs
      split at hs <;> cases hs <;> rfl

end

/-! ## What is in brackets -/

theorem bracketed_congr {nested nested' : Eval Value} {w : Workspace}
    (h : w.depth < maxDepth → nested { w with depth := w.depth + 1 } = nested' { w with depth := w.depth + 1 }) :
    bracketed nested w = bracketed nested' w := by
  by_cases hlevel : w.depth < maxDepth
  · rw [bracketed, bracketed, h hlevel]
  · rw [bracketed_of_le _ (Nat.not_lt.mp hlevel), bracketed_of_le _ (Nat.not_lt.mp hlevel)]

section

variable {α : Type} {ctx : Context} {nested nested' : Eval Value} {level : Nat} {w : Workspace}
  (hb : ∀ w, w.depth = level → bracketed nested w = bracketed nested' w) (hk : ∀ N, Keeps ctx N nested')
  (hw : w.depth = level)

theorem separated_congr {item item' : Eval α} (hitem : ∀ w, w.depth = level → item w = item' w)
    (hkeeps : Keeps ctx (fun _ => True) item') (hw : w.depth = level) (n : Nat) :
    separated (Eval.accept .comma) item n w = separated (Eval.accept .comma) item' n w := by
  induction n generalizing w with
  | zero => exact bind_of_eq (hitem w hw)
  | succ n ih =>
    refine bind_congr_at (hitem w hw) fun a w' ha => bind_congr_at rfl fun found w'' hfound => ?_
    cases found with
    | false => rfl
    | true =>
      have hw' := (Unbounded.depth_of_keeps ctx hkeeps ha).trans hw
      have hw'' := (Unbounded.depth_of_keeps ctx (keeps_accept _) hfound).trans hw'
      exact bind_of_eq (ih hw'')

theorem list_congr {item item' : Eval α} (hitem : ∀ w, w.depth = level → item w = item' w)
    (hkeeps : Keeps ctx (fun _ => True) item') (hw : w.depth = level) :
    Eval.list item w = Eval.list item' w :=
  separated_congr hitem hkeeps hw _

include hb hk hw

theorem subscripts_congr : subscripts nested w = subscripts nested' w := by
  refine bind_congr_at rfl fun found w' hfound => ?_
  cases found with
  | false => rfl
  | true =>
    have hw' := (Unbounded.depth_of_keeps ctx (keeps_accept _) hfound).trans hw
    have hkeeps := (keeps_bracketed (hk fun _ => True)).bind fun v => keeps_lift v.asShort
    refine bind_of_eq (list_congr ?_ hkeeps hw')
    intro w hw
    exact bind_of_eq (hb w hw)

theorem arguments_congr : arguments nested w = arguments nested' w := by
  refine bind_congr_at rfl fun _ w' hopened => ?_
  have hw' := (Unbounded.depth_of_keeps ctx (keeps_expect _) hopened).trans hw
  exact bind_of_eq (list_congr hb (keeps_bracketed (hk _)) hw')

theorem builtinCall_congr (f : Function) : builtinCall ctx nested f w = builtinCall ctx nested' f w := by
  refine bind_of_eq ?_
  unfold builtinArguments
  split
  · exact arguments_congr hb hk hw
  · rfl

omit hk in
theorem inBody_congr (f : UserFunction) (args : List Value) :
    inBody nested f args w = inBody nested' f args w := by
  simp only [inBody, hb { w with
    store := (shadow w.store (f.params.zip args)).2
    cursor := .start f.body } hw]

theorem userCall_congr : userCall ctx nested w = userCall ctx nested' w := by
  refine bind_congr_at rfl fun name w' hname => ?_
  have hw' := (Unbounded.depth_of_keeps ctx keeps_name hname).trans hw
  cases ctx.functions[name]? with
  | none => rfl
  | some f =>
    refine bind_congr_at (arguments_congr hb hk hw') fun args w'' hargs => ?_
    have hw'' := (Unbounded.depth_of_keeps ctx (keeps_arguments (hk _)) hargs).trans hw'
    refine lift_bind_congr fun _ => lift_bind_congr fun _ => ?_
    exact bind_of_eq (inBody_congr hb hw'' f args)

/-- An operand without signs depends on what brackets come to at its own level, and on nothing further down. -/
theorem atom_congr : atom ctx nested w = atom ctx nested' w := by
  refine bind_congr_at rfl fun t w' ht => ?_
  have hw' := (Unbounded.depth_of_keeps ctx keeps_next? ht).trans hw
  cases t with
  | none => rfl
  | some t =>
    cases t with
    | name n =>
      refine bind_of_eq ?_
      exact bind_of_eq (subscripts_congr hb hk hw')
    | function f => exact builtinCall_congr hb hk hw' f
    | leftParen => exact bind_of_eq (hb w' hw')
    | word wd =>
      cases wd with
      | FN => exact userCall_congr hb hk hw'
      | _ => rfl
    | _ => rfl

end

/-! ## The evaluator without its bounds -/

/-- What two computations agree with alike, they have in common. -/
theorem Unbounded.Agrees.unique {α : Type} {level : Nat} {p : Nat → Unbounded α} {x y : Eval α} {w : Workspace}
    (hx : Agrees level p x w) (hy : Agrees level p y w) : x w = y w := by
  obtain ⟨n, more, hn, -⟩ := hx
  obtain ⟨m, more', hm, -⟩ := hy
  have hboth := (hn (max n m) (Nat.le_max_left n m) []).symm.trans (hm (max n m) (Nat.le_max_right n m) [])
  simp only [Option.some.injEq, Prod.mk.injEq] at hboth
  exact Prod.ext hboth.1 hboth.2.1

/-- An operand without signs where so many brackets are open. -/
def atomAt (ctx : Context) (level : Nat) : Eval Value := atom ctx (inner ctx (maxDepth - level))

/-- The operators after a left operand, with as many tokens as there are. -/
def operatorsAt (ctx : Context) (left : Value) (least : Nat) : Eval Value := fun w =>
  climb (atomAt ctx w.depth) w.cursor.rest.length left least w

section

variable {ctx : Context} {N : String → Prop} {level least n : Nat} {v : Value} {w : Workspace}

theorem keeps_inner (levels : Nat) : Keeps ctx N (inner ctx levels) := by
  cases levels with
  | zero => exact keeps_throw _
  | succ levels => exact keeps_within levels 1

theorem keeps_evaluateAt (least : Nat) : Keeps ctx N (evaluateAt ctx least) :=
  keeps_get.bind fun _ => keeps_within _ least

theorem brackets_inner (ctx : Context) (level : Nat) :
    Unbounded.Brackets ctx level (inner ctx (maxDepth - level)) := by
  by_cases hlevel : level < maxDepth
  · obtain ⟨levels, hlevels⟩ : ∃ levels, maxDepth - level = levels + 1 := ⟨maxDepth - level - 1, by omega⟩
    rw [hlevels]
    refine Unbounded.brackets_of_lt hlevel fun caller w hw hbelow => ?_
    exact Unbounded.agrees_within ctx (by omega) hw 1 hbelow
  · exact Unbounded.brackets_of_le ctx (by omega) _

theorem climb_eq_operatorsAt (hw : w.depth = level) (hn : w.cursor.rest.length ≤ n) :
    climb (atomAt ctx level) n v least w = operatorsAt ctx v least w := by
  subst hw
  have hagrees : ∀ n, w.cursor.rest.length ≤ n → Unbounded.Agrees w.depth
      (fun k => Unbounded.run ctx k (some ⟨w.depth, w.cursor.rest.length + 1⟩) w.depth (.operators v least))
      (climb (atomAt ctx w.depth) n v least) w :=
    fun n hn => Unbounded.climbs (brackets_inner ctx w.depth) (fun _ => keeps_inner _) n _ v least w rfl hn
      (Nat.lt_succ_self _)
  rw [operatorsAt]
  exact (hagrees n hn).unique (hagrees _ (Nat.le_refl _))

theorem evaluateAt_eq_ahead (ctx : Context) (least : Nat) (w : Workspace) :
    evaluateAt ctx least w = ahead (atomAt ctx w.depth) w.cursor.rest.length least w := by
  show within ctx (maxDepth - w.depth) least w = _
  rw [within_eq]
  rfl

theorem ahead_eq_evaluateAt (hw : w.depth = level) (hn : w.cursor.rest.length ≤ n) :
    ahead (atomAt ctx level) n least w = evaluateAt ctx least w := by
  subst hw
  have hb := brackets_inner ctx w.depth
  have hk : ∀ N, Keeps ctx N (inner ctx (maxDepth - w.depth)) := fun _ => keeps_inner _
  have hagrees : ∀ n, w.cursor.rest.length ≤ n → Unbounded.Agrees w.depth
      (fun k => Unbounded.run ctx k none w.depth (.expression least)) (ahead (atomAt ctx w.depth) n least) w :=
    fun n hn => Unbounded.agrees_expression hb hk (Unbounded.climbs hb hk n) rfl hn least (by simp)
  rw [evaluateAt_eq_ahead]
  exact (hagrees n hn).unique (hagrees _ (Nat.le_refl _))

/-- What is evaluated in a bracket is the expression one level further down. -/
theorem bracketed_inner (hw : w.depth = level) :
    bracketed (inner ctx (maxDepth - level)) w = bracketed (evaluateAt ctx 1) w := by
  refine bracketed_congr fun hlevel => ?_
  obtain ⟨levels, hlevels⟩ : ∃ levels, maxDepth - level = levels + 1 := ⟨maxDepth - level - 1, by omega⟩
  show _ = within ctx (maxDepth - (w.depth + 1)) 1 _
  rw [Nat.sub_add_eq, hw, hlevels]
  rfl

theorem atomAt_eq (hw : w.depth = level) : atomAt ctx level w = atom ctx (evaluateAt ctx 1) w :=
  atom_congr (fun _ => bracketed_inner) (fun _ => keeps_evaluateAt 1) hw

end

/-! ## The recursive rules -/

section

variable (ctx : Context) (least : Nat) (w : Workspace)

theorem evaluateAt_rule (passed rest : List Token) : evaluateAt ctx least (w.between passed rest) = (do
    let left ← signed ctx (evaluateAt ctx)
    operatorsAt ctx left least : Eval Value) (w.between passed rest) := by
  rw [evaluateAt_eq_ahead]
  rcases sign_or_leading_eq_nil rest with ⟨s, rest, rfl⟩ | hnil
  · rw [ahead_sign, bind_of_eq (signed_of_sign ctx (evaluateAt ctx) w passed s rest), bind_assoc]
    refine bind_congr_at (ahead_eq_evaluateAt rfl (Nat.le_succ _)) fun v w' hv => ?_
    refine lift_bind_congr fun left => ?_
    have hdepth := Unbounded.depth_of_keeps ctx (keeps_evaluateAt s.level) hv
    have htokens := Unbounded.tokens_of_keeps ctx (keeps_evaluateAt s.level) hv
    exact climb_eq_operatorsAt hdepth (Nat.le_succ_of_le htokens)
  · rw [ahead_of_leading_eq_nil hnil, bind_of_eq (signed_of_leading_eq_nil ctx (evaluateAt ctx) w passed hnil)]
    refine bind_congr_at (atomAt_eq rfl) fun left w' hleft => ?_
    have hkeeps : Keeps ctx (fun _ => True) (atom ctx (evaluateAt ctx 1)) := keeps_atom fun _ => keeps_evaluateAt 1
    exact climb_eq_operatorsAt (Unbounded.depth_of_keeps ctx hkeeps hleft)
      (Unbounded.tokens_of_keeps ctx hkeeps hleft)

theorem operatorsAt_rule (left : Value) : operatorsAt ctx left least w = (do
    match nextOperator? least (← get).cursor with
    | none => return left
    | some (o, level) =>
      Eval.onCursor fun c => ((), c.advance)
      let right ← evaluateAt ctx (o.rightLevel level)
      let v ← Value.binary o left right
      operatorsAt ctx v least : Eval Value) w := by
  rw [bind_get]
  cases hop : nextOperator? least w.cursor with
  | none => exact climb_of_none hop _ left
  | some found =>
    obtain ⟨o, level⟩ := found
    have hpass := Unbounded.advance_of_nextOperator? hop
    rw [operatorsAt, hpass, climb_of_some hop]
    refine bind_congr_at rfl fun _ w' hw' => ?_
    cases hw'
    refine (congrFun (bind_assoc _ _ _).symm _).trans ?_
    refine bind_congr_at (ahead_eq_evaluateAt rfl (Nat.le_refl _)) fun right w' hright => ?_
    refine lift_bind_congr fun v => ?_
    have hdepth := Unbounded.depth_of_keeps ctx (keeps_evaluateAt _) hright
    have htokens := Unbounded.tokens_of_keeps ctx (keeps_evaluateAt _) hright
    exact climb_eq_operatorsAt hdepth htokens

end

/-- The evaluator follows the recursive rules. -/
theorem recursive_evaluateAt (ctx : Context) : Recursive ctx (evaluateAt ctx) (operatorsAt ctx) where
  expression_eq least := funext fun w => evaluateAt_rule ctx least w w.cursor.passed w.cursor.rest
  operators_eq left least := funext fun w => operatorsAt_rule ctx least w left

/-! ## No other evaluator -/

section

variable {ctx : Context} {expression : Nat → Eval Value} {operators : Value → Nat → Eval Value}

/-- There is less before one workspace than before another. -/
def Before (w w' : Workspace) : Prop :=
  Activation.Below ⟨w.depth, w.cursor.rest.length⟩ ⟨w'.depth, w'.cursor.rest.length⟩

theorem before_wellFounded : WellFounded Before := InvImage.wf _ Activation.below_wellFounded

theorem before_of_tokens {w w' : Workspace} (hdepth : w.depth = w'.depth)
    (htokens : w.cursor.rest.length < w'.cursor.rest.length) : Before w w' := by
  rw [Before, hdepth]
  exact Activation.below_of_tokens htokens _ rfl

theorem before_of_depth {w w' : Workspace} (hlevel : w'.depth < maxDepth) (hdepth : w.depth = w'.depth + 1) :
    Before w w' := by
  rw [Before, hdepth]
  exact Activation.below_of_level hlevel _ _ _ rfl

theorem signed_congr (w : Workspace) (passed rest : List Token)
    (h : ∀ w', Before w' (w.between passed rest) → ∀ least, expression least w' = evaluateAt ctx least w') :
    signed ctx expression (w.between passed rest) = signed ctx (evaluateAt ctx) (w.between passed rest) := by
  rcases sign_or_leading_eq_nil rest with ⟨s, rest, rfl⟩ | hnil
  · rw [signed_of_sign, signed_of_sign]
    refine bind_of_eq (h _ ?_ s.level)
    exact before_of_tokens rfl (Nat.lt_succ_self _)
  · rw [signed_of_leading_eq_nil ctx _ w passed hnil, signed_of_leading_eq_nil ctx _ w passed hnil]
    refine atom_congr (fun w' hw' => bracketed_congr fun hlevel => ?_) (fun _ => keeps_evaluateAt 1) rfl
    exact h _ (before_of_depth (hw' ▸ hlevel) (congrArg (· + 1) hw')) 1

theorem before_of_signed {left : Value} {w w' : Workspace} (passed rest : List Token)
    (h : signed ctx (evaluateAt ctx) (w.between passed rest) = (.ok left, w')) :
    Before w' (w.between passed rest) := by
  rcases sign_or_leading_eq_nil rest with ⟨s, rest, rfl⟩ | hnil
  · rw [signed_of_sign] at h
    have hkeeps : Keeps ctx (fun _ => True) (evaluateAt ctx s.level >>= fun v => liftM (s.apply v)) :=
      (keeps_evaluateAt s.level).bind fun v => keeps_lift (s.apply v)
    have htokens := Unbounded.tokens_of_keeps ctx hkeeps h
    have hdepth := Unbounded.depth_of_keeps ctx hkeeps h
    exact before_of_tokens hdepth (Nat.lt_succ_of_le htokens)
  · rw [signed_of_leading_eq_nil ctx _ w passed hnil] at h
    have hdepth := Unbounded.depth_of_keeps ctx (keeps_atom fun _ => keeps_evaluateAt 1) h
    exact before_of_tokens hdepth (Unbounded.tokens_of_atom (fun _ => keeps_evaluateAt 1) h)

/-- By induction on the levels to open and the tokens to come: whatever the rules do inside has less before it. -/
theorem Recursive.eq_evaluateAt (h : Recursive ctx expression operators) (w : Workspace) :
    (∀ least, expression least w = evaluateAt ctx least w) ∧
      ∀ left least, operators left least w = operatorsAt ctx left least w := by
  induction w using before_wellFounded.induction with
  | h w ih =>
  have hrules := recursive_evaluateAt ctx
  constructor
  · intro least
    rw [h.expression_eq, hrules.expression_eq]
    refine bind_congr_at ?_ fun left w' hleft => ?_
    · exact signed_congr w w.cursor.passed w.cursor.rest fun w' hw' => (ih w' hw').1
    · exact (ih w' (before_of_signed w.cursor.passed w.cursor.rest hleft)).2 left least
  · intro left least
    rw [h.operators_eq, hrules.operators_eq, bind_get, bind_get]
    cases hop : nextOperator? least w.cursor with
    | none => rfl
    | some found =>
      obtain ⟨o, level⟩ := found
      have hpass := Unbounded.advance_of_nextOperator? hop
      refine bind_congr_at rfl fun _ w' hw' => ?_
      cases hw'
      have hnext : Before { w with cursor := w.cursor.advance } w := before_of_tokens rfl (by simp [hpass])
      refine bind_congr_at ((ih _ hnext).1 _) fun right w' hright => ?_
      refine lift_bind_congr fun v => ?_
      have hdepth := Unbounded.depth_of_keeps ctx (keeps_evaluateAt _) hright
      have htokens : w'.cursor.rest.length ≤ w.cursor.advance.rest.length :=
        Unbounded.tokens_of_keeps ctx (keeps_evaluateAt _) hright
      exact (ih w' (before_of_tokens hdepth (by omega))).2 v least

end

/-- Collecting signs comes to the same as recursion. The evaluator follows the rules by which a sign is applied
to the expression of its level after it, and whatever follows these rules has the same value or condition and
leaves the same cursor, store and all else, for every least level, wherever the signs are and also where the
tokens are no expression. -/
theorem evaluateAt_eq_recursive (ctx : Context) :
    (∃ operators, Recursive ctx (evaluateAt ctx) operators) ∧
      ∀ expression operators, Recursive ctx expression operators →
        ∀ least w, evaluateAt ctx least w = expression least w := by
  refine ⟨⟨operatorsAt ctx, recursive_evaluateAt ctx⟩, ?_⟩
  intro expression operators h least w
  exact ((h.eq_evaluateAt w).1 least).symm

end LineBasic.Expression
