import LineBasic.Statement.Dispatch
import LineBasic.Proofs.Expression.Frame
import LineBasic.Proofs.Machine.Commutes

/-! Reading goes forward: whatever a computation on the workspace comes to, its cursor stands among the
same tokens and not before where it stood, its store has done no more than develop, and what it opened
it has closed. -/

namespace LineBasic

/-- The cursor has come forward, the store has developed, and as many brackets are open. -/
structure Past (w₀ w : Workspace) : Prop where
  cursor : ∃ n, w.cursor = w₀.cursor.skip n
  store : w₀.store.Develops w.store
  depth : w.depth = w₀.depth

namespace Past

variable {w₀ w w' : Workspace}

theorem refl (w : Workspace) : Past w w := ⟨⟨0, rfl⟩, .refl _, rfl⟩

theorem trans (h : Past w₀ w) (h' : Past w w') : Past w₀ w' := by
  obtain ⟨m, hm⟩ := h.cursor
  obtain ⟨n, hn⟩ := h'.cursor
  exact ⟨⟨m + n, by rw [hn, hm, Expression.skip_skip]⟩, h.store.trans h'.store, h'.depth.trans h.depth⟩

theorem skip (w : Workspace) (n : Nat) : Past w { w with cursor := w.cursor.skip n } :=
  ⟨⟨n, rfl⟩, .refl _, rfl⟩

theorem advance (w : Workspace) : Past w { w with cursor := w.cursor.advance } := by
  rw [Cursor.advance_eq_skip]
  exact skip w 1

theorem tokens (h : Past w₀ w) : w.cursor.tokens = w₀.cursor.tokens := by
  obtain ⟨n, hn⟩ := h.cursor
  rw [hn, Cursor.tokens_skip]

end Past

/-- A computation that cannot fail and does no more than move the cursor forward. -/
def Moves {α : Type} (x : Eval α) : Prop :=
  ∀ w, ∃ a n, x w = (.ok a, { w with cursor := w.cursor.skip n })

namespace Moves

variable {α β : Type} {x : Eval α} {f : α → Eval β}

theorem pure (a : α) : Moves (pure a) := fun _ => ⟨a, 0, rfl⟩

theorem onCursor {f : Cursor → α × Cursor} (h : ∀ c, ∃ n, (f c).2 = c.skip n) :
    Moves (Eval.onCursor f) := by
  intro w
  obtain ⟨n, hn⟩ := h w.cursor
  exact ⟨(f w.cursor).1, n, by rw [Eval.onCursor_apply, hn]⟩

theorem bind (hx : Moves x) (hf : ∀ a, Moves (f a)) : Moves (x >>= f) := by
  intro w
  obtain ⟨a, m, hm⟩ := hx w
  obtain ⟨b, n, hn⟩ := hf a { w with cursor := w.cursor.skip m }
  refine ⟨b, m + n, ?_⟩
  rw [bind_of_ok hm, hn, Expression.skip_skip]

theorem peek? : Moves Eval.peek? := fun _ => ⟨_, 0, rfl⟩

theorem advance : Moves (Eval.onCursor fun c => ((), c.advance)) :=
  onCursor fun c => ⟨1, Cursor.advance_eq_skip c⟩

theorem accept (t : Token) : Moves (Eval.accept t) := onCursor (Expression.skip_accept t)

theorem lineNumber? : Moves Eval.lineNumber? := by
  refine peek?.bind fun t => ?_
  split
  · exact advance.bind fun _ => pure _
  · exact pure _

theorem lineRange : Moves Statement.lineRange := by
  refine lineNumber?.bind fun start => (accept _).bind fun dash => ?_
  cases dash with
  | true => exact lineNumber?.bind fun stop => pure _
  | false => exact pure _

theorem resumption : Moves Statement.resumption := by
  refine (accept _).bind fun next => ?_
  cases next with
  | true => exact pure _
  | false =>
    refine lineNumber?.bind fun n => ?_
    split <;> exact pure _

theorem name? : Moves Statement.name? := by
  intro w
  have hpeek : Eval.peek? w = (.ok w.cursor.peek?, w) := rfl
  rw [Statement.name?, bind_of_ok hpeek]
  cases hnext : w.cursor.peek? with
  | none => exact ⟨none, 0, rfl⟩
  | some t =>
    cases t with
    | name x =>
      have hname : Eval.name w = (.ok x, { w with cursor := w.cursor.skip 1 }) := by
        have hread : Eval.next? w = (.ok w.cursor.peek?, { w with cursor := w.cursor.advance }) := rfl
        rw [Eval.name, bind_of_ok hread, hnext, Cursor.advance_eq_skip]
        rfl
      refine ⟨some x, 1, ?_⟩
      show (some <$> Eval.name) w = _
      rw [map_eq_pure_bind, bind_of_ok hname]
      rfl
    | _ => exact ⟨none, 0, rfl⟩

theorem skipFailed : Moves Statement.skipFailed := by
  refine peek?.bind fun t => ?_
  split <;> exact onCursor fun _ => ⟨_, rfl⟩

end Moves

namespace Forward

variable {α : Type} {w₀ : Workspace}

theorem of_past {x : Eval α} (h : ∀ w, Past w (x w).2) : Steady id (Past w₀) x := by
  intro w hw
  have hpast : Past w₀ (x w).2 := hw.trans (h w)
  refine ⟨rfl, ?_⟩
  split <;> exact hpast

theorem of_keeps {ctx : Context} {x : Eval α} (h : Expression.Keeps ctx (fun _ => True) x) :
    Steady id (Past w₀) x := by
  refine of_past fun w => ?_
  have hframe := h w fun _ _ => trivial
  exact ⟨hframe.cursor, Store.develops_of_grows hframe.store hframe.fills, hframe.depth⟩

theorem of_moves {x : Eval α} (h : Moves x) : Steady id (Past w₀) x := by
  refine of_past fun w => ?_
  obtain ⟨a, n, hn⟩ := h w
  rw [hn]
  exact .skip w n

theorem onCursor {f : Cursor → α × Cursor} (h : ∀ c, ∃ n, (f c).2 = c.skip n) :
    Steady id (Past w₀) (Eval.onCursor f) :=
  of_moves (.onCursor h)

theorem onStore {f : Store → Except Condition α × Store} (h : ∀ s : Store, s.Develops (f s).2) :
    Steady id (Past w₀) (Eval.onStore f) :=
  of_past fun w => ⟨⟨0, rfl⟩, h w.store, rfl⟩

theorem get : Steady id (Past w₀) (get : Eval Workspace) := of_past .refl

theorem peek? : Steady id (Past w₀) Eval.peek? := of_moves .peek?

theorem next? : Steady id (Past w₀) Eval.next? := onCursor fun c => ⟨1, Cursor.advance_eq_skip c⟩

theorem accept (t : Token) : Steady id (Past w₀) (Eval.accept t) := of_moves (.accept t)

theorem expect (t : Token) : Steady id (Past w₀) (Eval.expect t) := by
  rw [Eval.expect_eq]
  refine (accept t).bind fun found => ?_
  cases found with
  | true => exact .pure ()
  | false => exact .throw _

theorem atStatementEnd : Steady id (Past w₀) Eval.atStatementEnd := get.bind fun _ => .pure _

theorem endStatement : Steady id (Past w₀) Eval.endStatement := atStatementEnd.bind fun _ => .lift _

theorem skipStatement : Steady id (Past w₀) Eval.skipStatement := onCursor fun _ => ⟨_, rfl⟩

theorem skipLine : Steady id (Past w₀) Eval.skipLine := onCursor fun _ => ⟨_, rfl⟩

theorem tokensLeft : Steady id (Past w₀) Eval.tokensLeft := get.bind fun _ => .pure _

theorem list {item : Eval α} (h : Steady id (Past w₀) item) : Steady id (Past w₀) (Eval.list item) :=
  tokensLeft.bind fun n => .separated (accept .comma) h n

theorem name : Steady id (Past w₀) Eval.name := by
  refine next?.bind fun t => ?_
  split
  · exact .pure _
  · exact .throw _

theorem name? : Steady id (Past w₀) Statement.name? := of_moves .name?

theorem lineNumber? : Steady id (Past w₀) Eval.lineNumber? := of_moves .lineNumber?

theorem lineNumber : Steady id (Past w₀) Eval.lineNumber := by
  refine peek?.bind fun t => ?_
  cases t with
  | some t => exact (Steady.lift t.lineNumber).bind fun n => (of_moves .advance).bind fun _ => .pure n
  | none => exact .throw _

theorem evaluate (ctx : Context) : Steady id (Past w₀) (Expression.evaluate ctx) :=
  of_keeps Expression.keeps_evaluate

theorem evaluateShort (ctx : Context) : Steady id (Past w₀) (Expression.evaluateShort ctx) :=
  (evaluate ctx).bind fun v => .lift v.asShort

theorem target (ctx : Context) : Steady id (Past w₀) (Expression.target ctx) :=
  name.bind fun _ => of_keeps (Expression.keeps_subscripted Expression.keeps_evaluate trivial)

/-- The variable that was read is there. -/
theorem holds_of_target {ctx : Context} {w w' : Workspace} {c : Cell}
    (h : Expression.target ctx w = (.ok c, w')) : w'.store.Holds c := by
  obtain ⟨name, w₁, -, hcell⟩ := bind_eq_ok h
  obtain ⟨indexes, w₂, -, hlocate⟩ := bind_eq_ok hcell
  rw [Eval.onStore_apply] at hlocate
  obtain ⟨hc, rfl⟩ := Prod.mk.inj hlocate
  exact (Store.holds_of_locate (Prod.ext hc rfl)).2.2

theorem set (c : Cell) (v : Value) : Steady id (Past w₀) (Eval.onStore (·.set c v)) :=
  onStore fun s => s.set_develops c v

/-- Reading a list gives at least one item. -/
theorem list_ne_nil {item : Eval α} {w w' : Workspace} {items : List α}
    (h : Eval.list item w = (.ok items, w')) : items ≠ [] := by
  obtain ⟨n, t, -, hitems⟩ := bind_eq_ok h
  cases n with
  | zero =>
    obtain ⟨a, u, -, hpure⟩ := bind_eq_ok hitems
    cases hpure
    exact nofun
  | succ n =>
    obtain ⟨a, u, -, hmore⟩ := bind_eq_ok hitems
    obtain ⟨more, v, -, hrest⟩ := bind_eq_ok hmore
    cases more with
    | false =>
      cases hrest
      exact nofun
    | true =>
      obtain ⟨as, x, -, hpure⟩ := bind_eq_ok hrest
      cases hpure
      exact nofun

theorem dimOne (ctx : Context) : Steady id (Past w₀) (Statement.dimOne ctx) := by
  refine name.bind fun x => (expect _).bind fun _ => ?_
  refine ((list (evaluateShort ctx)).result fun _ _ _ => list_ne_nil).bind fun bounds w hw => ?_
  refine (expect _).bind (fun _ => onStore fun s => ?_) w hw.1
  rw [Store.dim]
  cases h : s.dimension x bounds with
  | error e => exact .refl s
  | ok s' => exact Store.dimension_develops hw.2 h

theorem functionBody : Steady id (Past w₀) Statement.functionBody := onCursor fun _ => ⟨_, rfl⟩

theorem inputPrompt : Steady id (Past w₀) Statement.inputPrompt := by
  refine onCursor fun c => ?_
  split
  · exact ⟨2, rfl⟩
  · exact ⟨0, rfl⟩

theorem lineRange : Steady id (Past w₀) Statement.lineRange := of_moves .lineRange

theorem transferWord : Steady id (Past w₀) Statement.transferWord := by
  refine next?.bind fun t => ?_
  split
  · exact .pure _
  · exact .pure _
  · exact .throw _

theorem resumption : Steady id (Past w₀) Statement.resumption := of_moves .resumption

end Forward

end LineBasic
