import LineBasic.Proofs.Machine.Failure
import LineBasic.Proofs.Machine.Reachable

/-! Where `RESUME NEXT` goes on. A statement ends at a colon, before an `ELSE` or with the line, but what
is passed after a failure goes on to a colon or to the end of the line. The two differ for a statement
before an `ELSE`: where a colon follows that `ELSE`, a part of the branch that was not taken is executed. -/

namespace LineBasic

/-- A statement ends before these tokens. -/
def Token.endsStatement (t : Token) : Bool := t == .colon || t == .word .ELSE

namespace Cursor

/-- On to the end of the statement at the cursor. -/
def statementEnd (c : Cursor) : Cursor := c.skip (c.rest.takeWhile (!·.endsStatement)).length

theorem rest_skip_takeWhile (c : Cursor) (p : Token → Bool) :
    (c.skip (c.rest.takeWhile p).length).rest = c.rest.dropWhile p := by
  have hdrop := @List.drop_left _ (c.rest.takeWhile p) (c.rest.dropWhile p)
  rwa [List.takeWhile_append_dropWhile] at hdrop

theorem length_takeWhile_add (ts : List Token) :
    (ts.takeWhile (!·.endsStatement)).length +
      ((ts.dropWhile (!·.endsStatement)).takeWhile (· != .colon)).length =
    (ts.takeWhile (· != .colon)).length := by
  induction ts with
  | nil => rfl
  | cons t ts ih =>
    cases ht : t.endsStatement with
    | true => simp [ht]
    | false =>
      have hcolon : (t != .colon) = true := by
        simp only [Token.endsStatement, Bool.or_eq_false_iff] at ht
        simp [bne, ht.1]
      simp only [List.takeWhile_cons, List.dropWhile_cons, ht, hcolon, Bool.not_false, if_true,
        List.length_cons]
      omega

/-- No colon is passed on the way to the end of a statement. -/
theorem skipStatement_statementEnd (c : Cursor) : c.statementEnd.skipStatement = c.skipStatement := by
  rw [skipStatement, skipStatement, statementEnd, rest_skip_takeWhile, Expression.skip_skip,
    length_takeWhile_add]

/-- At the end of a statement there is no token, a colon or an `ELSE`, and only an `ELSE` is passed from
there. -/
theorem skipStatement_statementEnd_eq {c : Cursor} (h : c.statementEnd.peek? ≠ some (.word .ELSE)) :
    c.statementEnd.skipStatement = c.statementEnd := by
  have htake : c.statementEnd.rest.takeWhile (· != .colon) = [] := by
    have hstops := List.head?_dropWhile_not (!·.endsStatement) c.rest
    rw [statementEnd, peek?, rest_skip_takeWhile] at h
    rw [statementEnd, rest_skip_takeWhile]
    cases hrest : c.rest.dropWhile (!·.endsStatement) with
    | nil => rfl
    | cons t rest =>
      rw [hrest] at h hstops
      simp only [List.head?_cons, Bool.not_eq_false', Token.endsStatement, Bool.or_eq_true,
        beq_iff_eq] at hstops
      rcases hstops with rfl | rfl
      · rfl
      · exact absurd rfl h
  rw [skipStatement, htake]
  rfl

theorem skipStatement_of_not_mem {c : Cursor} (h : .colon ∉ c.rest) : c.skipStatement = c.skipLine := by
  have hall : c.rest.takeWhile (· != .colon) = c.rest := by
    have hne : ∀ t ∈ c.rest, (t != .colon) = true := by
      intro t ht
      rw [bne_iff_ne]
      rintro rfl
      exact h ht
    have happend : (c.rest ++ []).takeWhile (· != Token.colon) = c.rest ++ [] :=
      List.takeWhile_append_of_pos hne
    rwa [List.append_nil] at happend
  rw [skipStatement, hall, skipLine]

end Cursor

namespace Machine

open Statement

variable {m m' : Machine}

/-! ## The statement that comes next -/

/-- The next statement: its line, and the cursor before it. -/
def upcoming? (m : Machine) : Option (Option Nat × Cursor) :=
  match m.nextStatement with
  | (true, s) => some (s.line, s.cursor)
  | (false, _) => none

/-- Execution stands at the same place of the same program. -/
structure Alike (m m' : Machine) : Prop where
  program : m.program = m'.program
  line : m.line = m'.line
  cursor : m.cursor = m'.cursor

theorem Alike.skipColons (h : m.Alike m') : m.skipColons.Alike m'.skipColons := by
  refine ⟨h.program, h.line, ?_⟩
  simp only [Machine.skipColons, h.cursor]

theorem Alike.enterLine (h : m.Alike m') (l : ProgramLine) :
    (m.enterLine l).Alike (m'.enterLine l) :=
  ⟨h.program, rfl, rfl⟩

theorem Alike.markStatement (h : m.Alike m') :
    (m.markStatement = none ∧ m'.markStatement = none) ∨
      ∃ s s', m.markStatement = some s ∧ m'.markStatement = some s' ∧ s.Alike s' := by
  simp only [Machine.markStatement, h.cursor]
  split
  · exact .inl ⟨rfl, rfl⟩
  · exact .inr ⟨_, _, rfl, rfl, h.program, h.line, h.cursor⟩

theorem Alike.seekStatement {lines : List ProgramLine} (h : m.Alike m') :
    (m.seekStatement lines).1 = (m'.seekStatement lines).1 ∧
      (m.seekStatement lines).2.Alike (m'.seekStatement lines).2 := by
  induction lines generalizing m m' with
  | nil => exact ⟨rfl, h⟩
  | cons l lines ih =>
    have hl := (h.enterLine l).skipColons
    rw [Machine.seekStatement, Machine.seekStatement]
    rcases hl.markStatement with ⟨hs, hs'⟩ | ⟨s, s', hs, hs', halike⟩
    · simp only [hs, hs']
      exact ih hl
    · simp only [hs, hs']
      exact ⟨trivial, halike⟩

theorem Alike.nextStatement (h : m.Alike m') :
    m.nextStatement.1 = m'.nextStatement.1 ∧ m.nextStatement.2.Alike m'.nextStatement.2 := by
  have hskip := h.skipColons
  rw [Machine.nextStatement, Machine.nextStatement]
  rcases hskip.markStatement with ⟨hs, hs'⟩ | ⟨s, s', hs, hs', halike⟩
  · have hlines : m.skipColons.following = m'.skipColons.following := by
      simp only [following, hskip.line, hskip.program]
    simp only [hs, hs', hlines]
    exact hskip.seekStatement
  · simp only [hs, hs']
    exact ⟨trivial, halike⟩

theorem Alike.upcoming? (h : m.Alike m') : m.upcoming? = m'.upcoming? := by
  have hnext := h.nextStatement
  rw [Machine.upcoming?, Machine.upcoming?]
  generalize m.nextStatement = r at hnext ⊢
  generalize m'.nextStatement = r' at hnext ⊢
  obtain ⟨found, s⟩ := r
  obtain ⟨found', s'⟩ := r'
  obtain ⟨rfl, halike⟩ := hnext
  cases found with
  | true => exact congrArg some (Prod.ext halike.line halike.cursor)
  | false => rfl

/-! ## Entering a handler -/

theorem Change.failure_eq {jumps : Bool} (h : Change jumps false m m') : m'.failure = m.failure := by
  induction h with
  | refl => rfl
  | clear hr => cases hr
  | _ => assumption

/-- A statement that fails stands in the line that is executed, and so does where it starts. -/
theorem Sound.walks_of_error (hm : m.Sound) (hrunning : m.running = true) {c : Condition} {e : Machine}
    (h : m.advance = (.error c, e)) :
    e.isDirect = true ∨ e.Walks ∧ e.statement.line = e.line := by
  have hpoised : ∀ {registers p}, p.Poised → Change false registers p e →
      e.Walks ∧ e.statement.line = e.line := by
    intro registers p hp hchange
    refine ⟨hchange.walks hp.walks, ?_⟩
    rw [hchange.statement, hp.statement, hchange.line]
  have hadvance := advanced m
  generalize m.advance = r at h hadvance
  cases hadvance with
  | broken | finished => cases h
  | @polled q _ hq =>
    have husual := pollInput_usual true q { m with inquiry := none }
    rw [h] at husual
    cases husual with
    | failed hchange => exact .inr (hpoised (hm.poised_poll hq) hchange)
  | @executed s _ hq hs =>
    have hs := hm.poised_next hrunning hq hs
    have houtcome := dispatch_outcome (s.cursor.rest.length + 1) s
    rw [h] at houtcome
    cases houtcome with
    | usual husual =>
      cases husual with
      | failed hchange => exact .inr (hpoised hs hchange)
    | @misread d _ _ _ _ hline => exact .inl (congrArg Option.isNone hline)

/-- A condition that is trapped leaves on record the statement that raised it. -/
theorem raise_trapped {c : Condition} (h : m.raise c = (.running, m')) :
    m.isDirect = false ∧ m'.program = m.program ∧ ∃ f, m'.failure = some f ∧ f.statement = m.statement := by
  have hraised := raised m c
  rw [h] at hraised
  generalize hr : (Event.running, m') = r at hraised
  cases hraised with
  | uncaught | astray => cases hr
  | handled ht hd =>
    cases hr
    exact ⟨hd, rfl, _, rfl, rfl⟩

/-! ## Leaving a handler -/

/-- The state in which a handler has been left for another place. -/
def left (m : Machine) (c : Cursor) (line : Option Nat) : Machine :=
  { m with cursor := c, line, handling := false }

/-- `RESUME NEXT` passes all up to the next colon, from the start of the statement that failed. -/
theorem resume_next {f : Failure} {rest tokens : List Token} (hh : m.handling = true)
    (hf : m.failure = some f) (hrest : m.cursor.rest = .word .NEXT :: rest)
    (hend : (m.cursor.skip 1).atStatementEnd = true) (ht : m.tokensOf f.statement.line = .ok tokens)
    (hif : (Cursor.atToken tokens f.statement.token).peek? ≠ some (.word .IF)) :
    resume m = (.ok .moved,
      m.left (Cursor.atToken tokens f.statement.token).skipStatement f.statement.line) := by
  have hactive : (liftM (require m.handling (.of .cannotContinue)) : Exec Unit) m = (.ok (), m) := by
    rw [hh]
    rfl
  have hread : (liftM resumption : Exec Resumption) m =
      (.ok .next, { m with cursor := m.cursor.skip 1 }) := by
    have haccept : Eval.accept (.word .NEXT) m.toWorkspace =
        (.ok true, { m.toWorkspace with cursor := m.cursor.skip 1 }) := by
      rw [Eval.accept, Eval.onCursor_apply, Cursor.accept, Cursor.peek?, hrest, Cursor.advance_eq_skip]
      rfl
    have hnext : resumption m.toWorkspace =
        (.ok .next, { m.toWorkspace with cursor := m.cursor.skip 1 }) := by
      rw [resumption, bind_of_ok haccept]
      rfl
    exact Extends.liftM_apply hnext
  have hended : (liftM Eval.endStatement : Exec Unit) { m with cursor := m.cursor.skip 1 } =
      (.ok (), { m with cursor := m.cursor.skip 1 }) := by
    show (require (m.cursor.skip 1).atStatementEnd (.of .syntaxError), _) = _
    rw [hend]
    rfl
  have hskip : ∀ c : Cursor, c.peek? ≠ some (.word .IF) →
      (liftM skipFailed : Exec Unit) (m.left c f.statement.line) =
        (.ok (), m.left c.skipStatement f.statement.line) := by
    intro c hc
    have hbeq : (c.peek? == some (.word .IF)) = false := by simpa using hc
    show (liftM (if c.peek? == some (.word .IF) then Eval.skipLine else Eval.skipStatement) : Exec Unit) _ = _
    rw [hbeq]
    rfl
  have hgo : goOn f .next { m with cursor := m.cursor.skip 1, handling := false } = (.ok (),
      m.left (Cursor.atToken tokens f.statement.token).skipStatement f.statement.line) := by
    have hjump := Exec.jump_of_ok (m := { m with cursor := m.cursor.skip 1, handling := false }) ht
    rw [goOn, bind_of_ok hjump]
    exact hskip _ hif
  rw [resume, bind_get, bind_of_ok hactive]
  simp only [hf]
  rw [bind_of_ok hread, bind_of_ok hended]
  show (goOn f .next >>= fun _ => pure Flow.moved) { m with cursor := m.cursor.skip 1, handling := false } = _
  rw [bind_of_ok hgo]
  rfl

/-- The state in which the statement that is executed has come to its end. -/
def finished (m : Machine) : Machine :=
  { m with cursor := (m.cursor.seek m.statement.token).statementEnd }

/-- An `ELSE` that is come to passes the rest of the line. -/
theorem dispatch_of_else {rest : List Token} (h : m.cursor.rest = .word .ELSE :: rest) (n : Nat) :
    dispatch (n + 1) m = (.ok .done, { m with cursor := m.cursor.skipLine }) := by
  have hword : m.word? = some .ELSE := by
    rw [word?, Cursor.peek?, h]
    rfl
  have hpast : m.pastWord.cursor.skipLine = m.cursor.skipLine := by
    rw [pastWord, Cursor.advance_eq_skip, Cursor.skipLine, Cursor.skipLine, Expression.skip_skip, h]
    simp [Cursor.skip, h, Nat.add_comm]
  have hone : one m = (.ok .done, { m with cursor := m.cursor.skipLine }) := by
    rw [one_of_word? hword, ← hpast]
    rfl
  have hend : m.cursor.skipLine.atStatementEnd = true := by
    simp [Cursor.skipLine, Cursor.skip, Cursor.atStatementEnd]
  rw [dispatch_succ (fun m' h' => by rw [hone] at h'; cases h'), bind_of_ok hone]
  rcases settle_cases .done { m with cursor := m.cursor.skipLine } with hdone | ⟨-, hnot, -⟩
  · exact hdone
  · rw [hend] at hnot
    cases hnot

/-- The step that executes `RESUME NEXT`, wherever that stands. -/
theorem Starts.step_resume_next {r d e : Machine} {f : Failure} {rest : List Token} (hd : r.Starts d)
    (hrest : d.cursor.rest = .word .RESUME :: .word .NEXT :: rest)
    (hend : (d.cursor.skip 2).atStatementEnd = true) (hhandling : r.handling = true)
    (hfailure : r.failure = some f) (hstatement : f.statement = e.statement)
    (hprogram : r.program = e.program) (hdeferred : e.isDirect = false) (hwalks : e.Walks)
    (hline : e.statement.line = e.line)
    (hif : (e.cursor.seek e.statement.token).peek? ≠ some (.word .IF)) :
    ∃ a, r.step = (.running, a) ∧ a.handling = false ∧
      a.Alike { e with cursor := (e.cursor.seek e.statement.token).skipStatement } := by
  have hdprogram : d.program = e.program := by
    obtain ⟨-, s, hs, hopens⟩ := hd
    rw [hopens.change.program, (sought_of_next hs).program, hprogram]
  have hdfailure : d.failure = some f := by
    obtain ⟨-, s, hs, hopens⟩ := hd
    rw [hopens.change.failure_eq, (sought_of_next hs).eq]
    exact hfailure
  have hdhandling : d.handling = true := by
    obtain ⟨-, s, hs, hopens⟩ := hd
    rw [hopens.change.handling, (sought_of_next hs).eq]
    exact hhandling
  have htokens : d.tokensOf f.statement.line = .ok e.cursor.tokens := by
    have hwalks : e.tokensOf e.line = .ok e.cursor.tokens := hwalks
    rw [hstatement, hline, ← hwalks]
    cases hl : e.line with
    | none => simp [isDirect, hl] at hdeferred
    | some n => rw [tokensOf, tokensOf, hdprogram]
  have hword : d.word? = some .RESUME := by
    rw [word?, Cursor.peek?, hrest]
    rfl
  have hpast : d.pastWord.cursor = d.cursor.skip 1 := Cursor.advance_eq_skip _
  have hnext : d.pastWord.cursor.rest = .word .NEXT :: rest := by
    rw [hpast, Cursor.skip, hrest]
    rfl
  have hresume := resume_next (m := d.pastWord) (f := f) hdhandling hdfailure hnext
    (by rw [hpast, Expression.skip_skip]; exact hend) htokens (by rw [hstatement]; exact hif)
  rw [hstatement, hline] at hresume
  have hmoved : (one >>= settle) d = (.ok .moved,
      d.pastWord.left (e.cursor.seek e.statement.token).skipStatement e.line) := by
    rw [settled_of_word? hword, ofWord, bind_of_ok hresume]
    rfl
  have hlast : ∀ m', one d ≠ (.ok .again, m') := by
    intro m' hagain
    have hword' := word?_of_again hagain
    rw [hword] at hword'
    cases hword'
  refine ⟨d.pastWord.left _ _, ?_, rfl, hdprogram, rfl, rfl⟩
  rw [hd.step_eq hlast, hmoved]
  rfl

/-- After a trapped condition, `RESUME NEXT` goes on with the statement that comes next once the one that
failed has ended, unless that is an `ELSE`. An `ELSE` passes the rest of its line, but `RESUME NEXT` goes on
behind a colon that follows it there. -/
theorem step_of_resume_next {c : Condition} {e h r d : Machine} {rest : List Token}
    (hm : Reachable LoadsIdle m) (hfail : m.advance = (.error c, e)) (htrapped : m.step = (.running, h))
    (hif : (e.cursor.seek e.statement.token).peek? ≠ some (.word .IF))
    (hprogram : r.program = h.program) (hfailure : r.failure = h.failure) (hhandling : r.handling = true)
    (hd : r.Starts d) (hrest : d.cursor.rest = .word .RESUME :: .word .NEXT :: rest)
    (hend : (d.cursor.skip 2).atStatementEnd = true) :
    ∃ a, r.step = (.running, a) ∧ a.handling = false ∧
      (e.finished.cursor.peek? ≠ some (.word .ELSE) → a.upcoming? = e.finished.upcoming?) ∧
      ∀ branch, e.finished.cursor.rest = .word .ELSE :: branch →
        (.colon ∉ branch → ∃ s s', e.finished.nextStatement = (true, s) ∧
          dispatch (s.cursor.rest.length + 1) s = (.ok .done, s') ∧ a.upcoming? = s'.upcoming?) ∧
        (.colon ∈ branch → a.upcoming? =
          ({ e.finished with cursor := e.finished.cursor.skipStatement } : Machine).upcoming?) := by
  have hrunning : m.running = true := by
    by_contra hidle
    rw [step_of_idle (Bool.eq_false_iff.mpr hidle)] at htrapped
    cases htrapped
  have hraise : e.raise c = (.running, h) := by
    rw [step_eq hrunning, hfail] at htrapped
    exact htrapped
  obtain ⟨hdeferred, hprogram', f, hf, hstatement⟩ := raise_trapped hraise
  obtain ⟨hwalks, hline⟩ : e.Walks ∧ e.statement.line = e.line := by
    rcases hm.sound.walks_of_error hrunning hfail with hdirect | hwalks
    · rw [hdeferred] at hdirect
      cases hdirect
    · exact hwalks
  obtain ⟨a, hstep, hleft, halike⟩ := hd.step_resume_next hrest hend hhandling (hfailure.trans hf)
    hstatement (hprogram.trans hprogram') hdeferred hwalks hline hif
  -- the colon that ends what is passed is also the first one from the end of the statement
  have hskip : e.finished.cursor.skipStatement = (e.cursor.seek e.statement.token).skipStatement :=
    Cursor.skipStatement_statementEnd _
  rw [← hskip] at halike
  refine ⟨a, hstep, hleft, fun helse => ?_, fun branch hbranch => ⟨fun hcolon => ?_, fun _ => halike.upcoming?⟩⟩
  · have hstay : e.finished.cursor.skipStatement = e.finished.cursor :=
      Cursor.skipStatement_statementEnd_eq helse
    rw [hstay] at halike
    exact halike.upcoming?
  · have hnext := nextStatement_of_start (m := e.finished) (t := .word .ELSE) (by rw [hbranch]; rfl) nofun
    have hdone := dispatch_of_else (m := { e.finished with statement := e.finished.position }) hbranch
    refine ⟨_, _, hnext, hdone _, ?_⟩
    have hline : e.finished.cursor.skipStatement = e.finished.cursor.skipLine := by
      refine Cursor.skipStatement_of_not_mem ?_
      rw [hbranch]
      simpa using hcolon
    rw [hline] at halike
    exact Alike.upcoming? ⟨halike.program, halike.line, halike.cursor⟩

/-- A program with this line 20, in its second statement. -/
def inSecond (line : String) : Machine :=
  (entered ["10 ON ERROR GOTO 100", "20 " ++ line, "30 END", "100 RESUME NEXT", "RUN"]).step.2.step.2.step.2

/-- The program whose line 20 fails before an `ELSE`, at the statement that fails. -/
def failsBeforeElse : Machine := inSecond "IF 1 THEN A=1:ERROR 5 ELSE B=2:PRINT \"ELSE\""

/-- The branch after `THEN` was taken, and after `RESUME NEXT` the end of the other one is executed. -/
theorem resume_next_into_else : ∃ m, m = failsBeforeElse ∧
    m.advance.1 = .error (.of .illegalQuantity) ∧
    m.advance.2.finished.cursor.peek? = some (.word .ELSE) ∧ (m.steps 2).1 = .running ∧
    (m.steps 2).2.upcoming?.map (·.2.rest) = some [.word .PRINT, .string "ELSE"] ∧
    (m.steps 3).2.tape.output = "ELSE\n" :=
  ⟨_, rfl, by decide +kernel⟩

/-- A statement other than `IF` fails at `m` and is trapped, and the handler starts with `RESUME NEXT`. -/
def FailsToResume (m : Machine) : Prop :=
  m.advance.1 = .error (.of .illegalQuantity) ∧ m.step.1 = .running ∧
  (m.advance.2.cursor.seek m.advance.2.statement.token).peek? ≠ some (.word .IF) ∧ m.step.2.handling = true ∧
  (m.step.2.running = true ∧ m.step.2.breakRequested = false ∧ m.step.2.inquiry = none ∧
    m.step.2.nextStatement.1 = true) ∧
  m.step.2.nextStatement.2.cursor.rest = [.word .RESUME, .word .NEXT] ∧
  (m.step.2.nextStatement.2.cursor.skip 2).atStatementEnd = true

instance (m : Machine) : Decidable m.FailsToResume :=
  inferInstanceAs (Decidable (_ ∧ _ ∧ _ ∧ _ ∧ _ ∧ _ ∧ _))

theorem FailsToResume.runs (h : m.FailsToResume) :
    m.advance = (.error (.of .illegalQuantity), m.advance.2) ∧ m.step = (.running, m.step.2) ∧
      m.step.2.Starts m.step.2.nextStatement.2 := by
  obtain ⟨hcondition, hrunning, -, -, ⟨hrunning', hbreak, hinquiry, hnext⟩, -⟩ := h
  exact ⟨Prod.ext hcondition rfl, Prod.ext hrunning rfl,
    ⟨⟨hrunning', hbreak, hinquiry⟩, _, Prod.ext hnext rfl, .refl _⟩⟩

/-- The second statement of this line 20 fails, with no `ELSE` behind it. After `RESUME NEXT` the statement with these
tokens comes next, as it would if the one that failed had ended. -/
def ResumesAt (line : String) (tokens : List Token) : Prop :=
  ∃ m c e h d a, m = inSecond line ∧ Reachable LoadsIdle m ∧ m.advance = (.error c, e) ∧ m.step = (.running, h) ∧
    h.handling = true ∧ h.Starts d ∧ d.cursor.rest = [.word .RESUME, .word .NEXT] ∧ h.step = (.running, a) ∧
    e.finished.cursor.peek? ≠ some (.word .ELSE) ∧ a.upcoming? = e.finished.upcoming? ∧
    a.upcoming?.map (·.2.rest) = some tokens

/-- What fails stands before an `ELSE` with a colon behind it, before a colon and at the end of a line. -/
theorem step_of_resume_next_before_else : (∃ m c e h d, m = failsBeforeElse ∧
    Reachable LoadsIdle m ∧ m.advance = (.error c, e) ∧ m.step = (.running, h) ∧
    (e.cursor.seek e.statement.token).peek? ≠ some (.word .IF) ∧ h.handling = true ∧ h.Starts d ∧
    d.cursor.rest = [.word .RESUME, .word .NEXT] ∧ (d.cursor.skip 2).atStatementEnd = true ∧
    ∃ a, h.step = (.running, a) ∧ a.handling = false ∧
      (e.finished.cursor.peek? ≠ some (.word .ELSE) → a.upcoming? = e.finished.upcoming?) ∧
      ∀ branch, e.finished.cursor.rest = .word .ELSE :: branch →
        (.colon ∉ branch → ∃ s s', e.finished.nextStatement = (true, s) ∧
          dispatch (s.cursor.rest.length + 1) s = (.ok .done, s') ∧ a.upcoming? = s'.upcoming?) ∧
        (.colon ∈ branch → a.upcoming? =
          ({ e.finished with cursor := e.finished.cursor.skipStatement } : Machine).upcoming?)) ∧
    ResumesAt "A=1:ERROR 5:PRINT 2" [.word .PRINT, .number "2"] ∧ ResumesAt "A=1:ERROR 5" [.word .END] := by
  have hm : ∀ line, Reachable LoadsIdle (inSecond line) := fun line =>
    .call (.call (.call (reachable_entered _) .step nofun) .step nofun) .step nofun
  have hplain : ∀ {line : String} {tokens : List Token}, (inSecond line).FailsToResume ∧
      (inSecond line).advance.2.finished.cursor.peek? ≠ some (.word .ELSE) ∧
      (inSecond line).advance.2.finished.upcoming?.map (·.2.rest) = some tokens → ResumesAt line tokens := by
    rintro line tokens ⟨hfails, helse, htokens⟩
    obtain ⟨hfail, htrapped, hd⟩ := hfails.runs
    obtain ⟨-, -, hif, hhandling, -, hrest, hend⟩ := hfails
    obtain ⟨a, hstep, -, hnext, -⟩ :=
      step_of_resume_next (hm line) hfail htrapped hif rfl rfl hhandling hd hrest hend
    have hupcoming := hnext helse
    exact ⟨_, _, _, _, _, a, rfl, hm line, hfail, htrapped, hhandling, hd, hrest, hstep, helse, hupcoming,
      by rw [hupcoming]; exact htokens⟩
  refine ⟨?_, hplain (by decide +kernel), hplain (by decide +kernel)⟩
  have hfails : failsBeforeElse.FailsToResume := by decide +kernel
  obtain ⟨hfail, htrapped, hd⟩ := hfails.runs
  obtain ⟨-, -, hif, hhandling, -, hrest, hend⟩ := hfails
  exact ⟨_, _, _, _, _, rfl, hm _, hfail, htrapped, hif, hhandling, hd, hrest, hend,
    step_of_resume_next (hm _) hfail htrapped hif rfl rfl hhandling hd hrest hend⟩

end Machine

end LineBasic
