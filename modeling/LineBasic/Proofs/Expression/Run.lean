import LineBasic.Machine.State

/-! How a computation runs on a state: one step after another, until a condition ends it. -/

namespace LineBasic

theorem require_eq_ok {b : Bool} {c : Condition} {u : Unit} (h : require b c = .ok u) : b = true := by
  cases b with
  | true => rfl
  | false => cases h

theorem require_eq_error {b : Bool} {c e : Condition} (h : require b c = .error e) : e = c := by
  cases b with
  | true => cases h
  | false =>
    cases h
    rfl

section

variable {σ α β : Type} {x : ExceptT Condition (StateM σ) α} {f : α → ExceptT Condition (StateM σ) β}
  {s s' : σ}

theorem run_bind : (x >>= f) s = ExceptT.bindCont f (x s).1 (x s).2 := rfl

theorem bind_of_ok {a : α} (h : x s = (.ok a, s')) : (x >>= f) s = f a s' := by
  rw [run_bind, h]
  rfl

theorem bind_of_error {e : Condition} (h : x s = (.error e, s')) :
    (x >>= f) s = (.error e, s') := by
  rw [run_bind, h]
  rfl

theorem bind_get {g : σ → ExceptT Condition (StateM σ) β} : (get >>= g) s = g s s := rfl

theorem bind_eq_ok {b : β} (h : (x >>= f) s = (.ok b, s')) :
    ∃ a t, x s = (.ok a, t) ∧ f a t = (.ok b, s') := by
  cases hx : x s with
  | mk r t =>
    cases r with
    | error e =>
      rw [bind_of_error hx] at h
      cases h
    | ok a =>
      rw [bind_of_ok hx] at h
      exact ⟨a, t, rfl, h⟩

theorem bind_eq_error {e : Condition} (h : (x >>= f) s = (.error e, s')) :
    x s = (.error e, s') ∨ ∃ a t, x s = (.ok a, t) ∧ f a t = (.error e, s') := by
  cases hx : x s with
  | mk r t =>
    cases r with
    | error e =>
      rw [bind_of_error hx] at h
      cases h
      exact .inl rfl
    | ok a =>
      rw [bind_of_ok hx] at h
      exact .inr ⟨a, t, rfl, h⟩

theorem fst_bind_of_error {e : Condition} (h : (x s).1 = .error e) :
    ((x >>= f) s).1 = .error e := by
  rw [run_bind, h]
  rfl

end

/-- The same workspace with the cursor between these tokens. -/
def Workspace.between (w : Workspace) (passed rest : List Token) : Workspace :=
  { w with cursor := ⟨passed, rest⟩ }

namespace Workspace

variable (w : Workspace) (passed rest : List Token)

@[simp] theorem cursor_between : (w.between passed rest).cursor = ⟨passed, rest⟩ := rfl

@[simp] theorem store_between : (w.between passed rest).store = w.store := rfl

@[simp] theorem depth_between : (w.between passed rest).depth = w.depth := rfl

end Workspace

namespace Eval

variable {α : Type} (t : Token) (w : Workspace) (passed rest : List Token)

theorem onCursor_apply (f : Cursor → α × Cursor) :
    onCursor f w = (.ok (f w.cursor).1, { w with cursor := (f w.cursor).2 }) := rfl

theorem onStore_apply (f : Store → Except Condition α × Store) :
    onStore f w = ((f w.store).1, { w with store := (f w.store).2 }) := rfl

theorem next?_cons :
    next? (w.between passed (t :: rest)) = (.ok (some t), w.between (t :: passed) rest) := rfl

theorem accept_head :
    accept t (w.between passed (t :: rest)) = (.ok true, w.between (t :: passed) rest) := by
  have haccept : (Cursor.mk passed (t :: rest)).accept t = (true, ⟨t :: passed, rest⟩) := by
    simp [Cursor.accept, Cursor.peek?, Cursor.advance]
  rw [accept, onCursor_apply, Workspace.cursor_between, haccept]
  rfl

variable {t rest}

theorem accept_of_ne (h : rest.head? ≠ some t) :
    accept t (w.between passed rest) = (.ok false, w.between passed rest) := by
  have hpeek : ((Cursor.mk passed rest).peek? == some t) = false := by simpa [Cursor.peek?] using h
  have haccept : (Cursor.mk passed rest).accept t = (false, ⟨passed, rest⟩) := by
    simp [Cursor.accept, hpeek]
  rw [accept, onCursor_apply, Workspace.cursor_between, haccept]
  rfl

theorem accept_eq_true {w w' : Workspace} (h : accept t w = (.ok true, w')) : ∃ rest,
    w.cursor.rest = t :: rest ∧ w' = { w with cursor := w.cursor.skip 1 } := by
  rw [accept, onCursor_apply, Cursor.accept] at h
  split at h
  · rename_i hnext
    obtain ⟨rest, hrest⟩ := List.head?_eq_some_iff.mp (beq_iff_eq.mp hnext)
    cases h
    exact ⟨rest, hrest, by rw [Cursor.advance_eq_skip]⟩
  · cases h

theorem accept_eq_false {w w' : Workspace} (h : accept t w = (.ok false, w')) : w' = w := by
  rw [accept, onCursor_apply, Cursor.accept] at h
  split at h <;> cases h
  rfl

/-- What is expected is accepted, or it is an error. -/
theorem expect_eq : expect t = accept t >>= fun found =>
    if found then pure () else throw (.of .syntaxError) := by
  funext w
  have hexpect : expect t w =
      ((w.cursor.expect t).1, { w with cursor := (w.cursor.expect t).2 }) := rfl
  have haccept : accept t w =
      (.ok (w.cursor.accept t).1, { w with cursor := (w.cursor.accept t).2 }) := rfl
  rw [hexpect, run_bind, haccept, Cursor.expect]
  rcases w.cursor.accept t with ⟨_ | _, c⟩ <;> rfl

theorem expect_head (t : Token) (rest : List Token) :
    expect t (w.between passed (t :: rest)) = (.ok (), w.between (t :: passed) rest) := by
  rw [expect_eq, bind_of_ok (accept_head t w passed rest)]
  rfl

theorem expect_eq_ok {w w' : Workspace} {u : Unit} (h : expect t w = (.ok u, w')) :
    ∃ rest, w.cursor.rest = t :: rest ∧ w' = { w with cursor := w.cursor.skip 1 } := by
  rw [expect_eq] at h
  obtain ⟨found, s, haccept, hfound⟩ := bind_eq_ok h
  cases found with
  | true =>
    cases hfound
    exact accept_eq_true haccept
  | false => cases hfound

theorem lineNumber?_of_ok {k : Nat} (ht : t.lineNumber = .ok k) :
    lineNumber? (w.between passed (t :: rest)) = (.ok (some k), w.between (t :: passed) rest) := by
  have hpeek : peek? (w.between passed (t :: rest)) = (.ok (some t), w.between passed (t :: rest)) := rfl
  rw [lineNumber?, bind_of_ok hpeek, Option.map_some, ht]
  rfl

theorem lineNumber?_of_none {w : Workspace}
    (h : ∀ t k, w.cursor.peek? = some t → t.lineNumber ≠ .ok k) : lineNumber? w = (.ok none, w) := by
  have hpeek : peek? w = (.ok w.cursor.peek?, w) := rfl
  rw [lineNumber?, bind_of_ok hpeek]
  cases hpeek : w.cursor.peek? with
  | none => rfl
  | some t =>
    cases ht : t.lineNumber with
    | error e =>
      rw [Option.map_some, ht]
      rfl
    | ok k => exact absurd ht (h t k hpeek)

end Eval

namespace Expression

theorem bracketed_of_lt {nested : Eval Value} {w w' : Workspace} {r : Except Condition Value}
    (hw : w.depth < maxDepth) (h : nested { w with depth := w.depth + 1 } = (r, w')) :
    bracketed nested w = (r, { w' with depth := w'.depth - 1 }) := by
  rw [bracketed, if_neg (Nat.not_le.mpr hw), h]

theorem bracketed_of_le (nested : Eval Value) {w : Workspace} (hw : maxDepth ≤ w.depth) :
    bracketed nested w = (.error (.of .formulaTooComplex), w) := by
  rw [bracketed, if_pos hw]

variable {operandAtom : Eval Value} {least : Nat} {w : Workspace}

theorem climb_of_none (h : nextOperator? least w.cursor = none) (n : Nat) (v : Value) :
    climb operandAtom n v least w = (.ok v, w) := by
  cases n with
  | zero => rfl
  | succ n =>
    rw [climb, bind_get, h]
    rfl

theorem climb_of_some {o : Operator} {level : Nat} (h : nextOperator? least w.cursor = some (o, level))
    (n : Nat) (v : Value) :
    climb operandAtom (n + 1) v least w = (do
      Eval.onCursor fun c => ((), c.advance)
      let right ← operand operandAtom (climb operandAtom n)
      let right ← climb operandAtom n right (o.rightLevel level)
      let v ← Value.binary o v right
      climb operandAtom n v least : Eval Value) w := by
  rw [climb, bind_get, h]

end Expression

theorem Exec.expression_apply (m : Machine) :
    Exec.expression m = ((Expression.evaluate m.context m.toWorkspace).1,
      { m with toWorkspace := (Expression.evaluate m.context m.toWorkspace).2 }) := rfl

end LineBasic
