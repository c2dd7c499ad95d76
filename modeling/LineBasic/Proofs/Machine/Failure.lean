import LineBasic.Proofs.Machine.Advance

/-! Statements that fail. The program stays as it is unless `DELETE` had already read a range of lines,
and within an error handler a condition ends the run unless `RESUME` had already left the handler. -/

namespace LineBasic

/-- The line on which a handler goes on. -/
def Failure.resumes (f : Failure) : Statement.Resumption → Option Nat
  | .line n => some n
  | .again | .next => f.statement.line

namespace Machine

open Statement

variable {m m' : Machine} {c : Condition}

/-- The statement at `d` is the one that the next step executes, or one that `IF` starts there. -/
def Starts (m d : Machine) : Prop := m.Ready ∧ ∃ s, m.nextStatement = (true, s) ∧ Opens s d

theorem Starts.advance_eq {d : Machine} (h : m.Starts d) (hd : ∀ m', one d ≠ (.ok .again, m')) :
    m.advance = (one >>= settle) d := by
  obtain ⟨hready, s, hs, hopens⟩ := h
  rw [hready.advance_eq, hs]
  exact dispatch_of_opens hopens hd (Nat.lt_succ_self _)

/-- A step executes the last statement that is opened. -/
theorem Starts.step_eq {d : Machine} (h : m.Starts d) (hd : ∀ m', one d ≠ (.ok .again, m')) :
    m.step = tell ((one >>= settle) d) := by
  obtain ⟨hready, s, hs, hopens⟩ := h
  rw [Machine.step_eq hready.running, hready.advance_eq, hs]
  exact congrArg tell (dispatch_of_opens hopens hd (Nat.lt_succ_self _))

/-- A step executes a statement that is opened, by its first word. -/
theorem Starts.step_of_word {d : Machine} {w : Word} (h : m.Starts d) (hword : d.word? = some w)
    (hw : w ≠ .IF) : m.step = tell ((ofWord w >>= settle) d.pastWord) := by
  rw [h.step_eq, settled_of_word? hword]
  intro m' hagain
  have hif := word?_of_again hagain
  rw [hword] at hif
  exact hw (Option.some.inj hif)

/-! ## The program -/

theorem program_tell (r : Except Condition Flow × Machine) : (tell r).2.program = r.2.program :=
  tell_keeps (·.program) (fun _ _ _ => rfl) (fun _ _ _ => rfl) (fun _ _ _ => rfl) r

theorem program_of_usual {registers : Bool} {r : Except Condition Flow × Machine}
    (h : Usual registers m r) : r.2.program = m.program :=
  h.keeps (·.program) Change.program fun _ _ => rfl

/-- A step that ends the run with a condition leaves the program as it was, unless the statement is a
`DELETE` of the direct line with something left behind its range: then it is a syntax error, and the
lines of the range are gone. -/
theorem program_of_failed_step (h : m.step = (.failed c, m')) :
    m'.program = m.program ∨
      ∃ d r w, m.Starts d ∧ d.line = none ∧ d.word? = some .DELETE ∧
        lineRange d.pastWord.toWorkspace = (.ok r, w) ∧ w.cursor.atStatementEnd = false ∧
        c = .of .syntaxError ∧ m'.program = m.program.delete r.1 r.2 := by
  have hrunning : m.running = true := by
    cases hm : m.running with
    | true => rfl
    | false => simp [step, hm] at h
  rw [step_eq hrunning] at h
  have hprogram := program_tell m.advance
  have hadvance := advanced m
  generalize m.advance = r at h hprogram hadvance
  rw [h] at hprogram
  rw [hprogram]
  cases hadvance with
  | broken => exact .inl rfl
  | @polled q => exact .inl (program_of_usual (m := { m with inquiry := none }) (pollInput_usual true q _))
  | finished _ _ hs => exact .inl (sought_of_next hs).program
  | @executed s hb hq hs =>
    have hsought : m.Sought s := sought_of_next hs
    have houtcome := dispatch_outcome (s.cursor.rest.length + 1) s
    generalize dispatch (s.cursor.rest.length + 1) s = r at h houtcome ⊢
    cases houtcome with
    | usual husual => exact .inl ((program_of_usual husual).trans hsought.program)
    | deleted | erased => cases h
    | @misread d r w hd hword hline hr hw =>
      have hdprogram : d.program = m.program := hd.change.program.trans hsought.program
      have hfail : (deleted d.pastWord r w).raise (.of .syntaxError) = (.failed c, m') := h
      rw [raise_of_uncaught (m := deleted d.pastWord r w) _ (.inl (congrArg Option.isNone hline))] at hfail
      have hc : (Condition.of .syntaxError).within d.line = c := Event.failed.inj (congrArg Prod.fst hfail)
      rw [hline] at hc
      refine .inr ⟨d, r, w, ⟨⟨hrunning, hb, hq⟩, s, hs, hd⟩, hline, hword, hr, hw, hc.symm, ?_⟩
      exact congrArg (·.delete r.1 r.2) hdprogram

/-- `DELETE 10 X` is a syntax error, and line 10 is gone. -/
theorem program_of_failed_delete : ∃ m, m = entered ["10 END", "20 END", "DELETE 10 X"] ∧
    m.program.lines.map (·.number) = [10, 20] ∧ m.step.1 = .failed (.of .syntaxError) ∧
    m.step.2.program.lines.map (·.number) = [20] :=
  ⟨_, rfl, by decide +kernel⟩

theorem program_of_failed_step_delete : ∃ m c m', m = entered ["10 END", "20 END", "DELETE 10 X"] ∧
    m.step = (.failed c, m') ∧ (m'.program = m.program ∨
      ∃ d r w, m.Starts d ∧ d.line = none ∧ d.word? = some .DELETE ∧
        lineRange d.pastWord.toWorkspace = (.ok r, w) ∧ w.cursor.atStatementEnd = false ∧
        c = .of .syntaxError ∧ m'.program = m.program.delete r.1 r.2) := by
  have hstep : (entered ["10 END", "20 END", "DELETE 10 X"]).step = (.failed (.of .syntaxError), _) :=
    Prod.ext (by decide +kernel) rfl
  exact ⟨_, _, _, rfl, hstep, program_of_failed_step hstep⟩

/-! ## Handlers -/

/-- A condition raised here is not trapped. -/
def Guarded (m : Machine) : Prop := m.handling = true ∨ m.trap = none

section

variable {α : Type} {P : Machine → Prop}

theorem steady_liftM (hP : ∀ m w, P m → P { m with toWorkspace := w }) (x : Eval α) :
    Steady id P (liftM x : Exec α) := by
  intro m hm
  cases hw : x m.toWorkspace with
  | mk r w =>
    unfold CommutesAt
    rw [id, Extends.liftM_apply (m := m) hw]
    cases r with
    | ok a => exact ⟨rfl, hP m w hm⟩
    | error e => exact ⟨rfl, hP m w hm⟩

theorem steady_jump (hP : ∀ m c l, P m → P { m with cursor := c, line := l }) (p : Position) :
    Steady id P (Exec.jump p) := by
  intro m hm
  exact .get (.lift rfl hm fun tokens _ => ⟨rfl, hP m _ _ hm⟩)

end

/-- From within a handler, where a statement fails or may still fail a condition is not trapped. -/
abbrev Guards (x : Exec Flow) : Prop :=
  Commutes id (·.handling = true) x (fun flow m => flow = .done → m.Guarded) Guarded

theorem handling_liftM {α : Type} (x : Eval α) : Commutes id (·.handling = true) (liftM x : Exec α)
    (fun _ m => m.handling = true) Guarded :=
  (steady_liftM (fun _ _ hm => hm) x).mono (fun _ hm => hm) (fun _ _ hm => hm) fun _ hm => .inl hm

theorem untraps_clear : Commutes id (·.handling = true) (modify Machine.clear : Exec Unit)
    (fun _ m => m.trap = none) Guarded :=
  fun _ _ => ⟨rfl, rfl⟩

theorem guards_clear : Guards Statement.clear :=
  untraps_clear.bind fun _ => .pure fun _ hm _ => .inr hm

theorem guards_run : Guards run := by
  refine (handling_liftM _).bind fun start => (handling_liftM _).bind fun _ => ?_
  refine untraps_clear.bind fun _ m hm => .get ?_
  have hjump : ∀ n, Steady id (fun m : Machine => m.trap = none) (transfer n) := fun n =>
    (steady_jump (fun _ _ _ hm => hm) _).bind fun _ => .pure _
  simp only [id]
  split
  · exact (hjump _ m hm).mono (fun _ _ hm _ => .inr hm) fun _ hm => .inr hm
  · have hskip := steady_liftM (P := fun m => m.trap = none) (fun _ _ hm => hm) Eval.skipLine
    refine (hskip.bind (fun _ => .pure _) m hm).mono ?_ ?_
    · exact fun _ _ hm _ => .inr hm
    · exact fun _ hm => .inr hm

theorem guards_cont : Guards cont := by
  intro m hm
  refine .get (.lift rfl (.inl hm) fun _ _ => .get ?_)
  simp only [id]
  cases m.continuation with
  | none => exact ⟨rfl, .inl hm⟩
  | some c =>
    have hjump : Commutes id (·.handling = true) (Exec.jump c.position) (fun _ _ => True) Guarded :=
      (steady_jump (fun _ _ _ hm => hm) _).mono (fun _ hm => hm) (fun _ _ _ => trivial) fun _ hm => .inl hm
    refine .modify ?_ (hjump.bind (fun _ => ?_) _ hm)
    · rfl
    · refine Commutes.bind (Q := fun _ _ => True) (.modify (fun _ _ => ?_) fun _ _ => trivial) fun _ => ?_
      · rfl
      · exact .pure fun _ _ hdone => by cases hdone

theorem guards_on : Guards on := by
  refine (handling_liftM _).bind fun found => ?_
  cases found with
  | true =>
    refine (handling_liftM _).bind fun _ => (handling_liftM _).bind fun n m hm => .get ?_
    simp only [id]
    split
    · split
      · exact .set rfl ⟨rfl, .inr rfl⟩
      · exact .set rfl ⟨rfl, fun _ => .inr rfl⟩
    · exact .set rfl ⟨rfl, fun _ => .inl hm⟩
  | false =>
    intro m hm
    have hselect := Lands.select (Backdrop.own_spares m) m (.refl : Change false false m m)
    refine (Backdrop.commutes_id hselect).mono ?_ ?_
    · exact fun _ m' h _ => .inl (h.2.handling.trans hm)
    · exact fun m' h => .inl (h.handling.trans hm)

theorem jump_error {p : Position} (h : Exec.jump p m = (.error c, m')) :
    m.tokensOf p.line = .error c ∧ m' = m := by
  cases htokens : m.tokensOf p.line with
  | ok tokens =>
    rw [Exec.jump_of_ok htokens] at h
    cases h
  | error e =>
    rw [Exec.jump_of_error htokens] at h
    cases h
    exact ⟨rfl, rfl⟩

theorem goOn_error {f : Failure} {r : Resumption} (h : goOn f r m = (.error c, m')) :
    m.tokensOf (f.resumes r) = .error c ∧ m' = m := by
  cases r with
  | line n => exact jump_error h
  | again => exact jump_error h
  | next =>
    cases hjump : Exec.jump f.statement m with
    | mk r s =>
      cases r with
      | error e =>
        rw [goOn, bind_of_error hjump] at h
        cases h
        exact jump_error hjump
      | ok u =>
        obtain ⟨_, n, hn⟩ := Moves.skipFailed s.toWorkspace
        rw [goOn, bind_of_ok hjump, Extends.liftM_apply hn] at h
        cases h

/-- A `RESUME` that fails after it has been read to its end has left the handler already. -/
theorem resume_error (hh : m.handling = true) (h : resume m = (.error c, m')) : m'.handling = true ∨
    ∃ f r w, m.failure = some f ∧ resumption m.toWorkspace = (.ok r, w) ∧
      w.cursor.atStatementEnd = true ∧ m.tokensOf (f.resumes r) = .error c ∧
      m' = { m with toWorkspace := w, handling := false } := by
  have hactive : (liftM (require m.handling (.of .cannotContinue)) : Exec Unit) m = (.ok (), m) := by
    rw [hh]
    rfl
  rw [resume, bind_get, bind_of_ok hactive] at h
  cases hfailure : m.failure with
  | none =>
    rw [hfailure] at h
    cases h
    exact .inl hh
  | some f =>
    obtain ⟨r, n, hr⟩ := Moves.resumption m.toWorkspace
    have hread := Extends.liftM_apply (m := m) hr
    simp only [hfailure] at h
    rw [bind_of_ok hread] at h
    have hend : (liftM Eval.endStatement : Exec Unit) { m with cursor := m.cursor.skip n } =
        (require (m.cursor.skip n).atStatementEnd (.of .syntaxError),
          { m with cursor := m.cursor.skip n }) := rfl
    cases hc : (m.cursor.skip n).atStatementEnd with
    | false =>
      rw [hc] at hend
      rw [bind_of_error hend] at h
      cases h
      exact .inl hh
    | true =>
      rw [hc] at hend
      rw [bind_of_ok hend] at h
      have h : (goOn f r >>= fun _ => pure Flow.moved)
          { m with cursor := m.cursor.skip n, handling := false } = (.error c, m') := h
      cases hgo : goOn f r { m with cursor := m.cursor.skip n, handling := false } with
      | mk res s =>
        cases res with
        | ok u =>
          rw [bind_of_ok hgo] at h
          cases h
        | error e =>
          rw [bind_of_error hgo] at h
          cases h
          obtain ⟨htokens, rfl⟩ := goOn_error hgo
          exact .inr ⟨f, r, _, rfl, hr, hc, htokens, by rw [← hfailure]⟩

theorem resume_moved {flow : Flow} (h : resume m = (.ok flow, m')) : flow = .moved := by
  rw [resume, bind_get] at h
  obtain ⟨_, s, -, h⟩ := bind_eq_ok h
  cases hfailure : m.failure with
  | none =>
    rw [hfailure] at h
    cases h
  | some f =>
    simp only [hfailure] at h
    obtain ⟨r, _, -, h⟩ := bind_eq_ok h
    obtain ⟨_, _, -, h⟩ := bind_eq_ok h
    obtain ⟨_, _, -, h⟩ := bind_eq_ok h
    obtain ⟨_, _, -, h⟩ := bind_eq_ok h
    cases h
    rfl

theorem guards_one (hh : m.handling = true) (hword : m.word? ≠ some .RESUME) :
    CommutesAt id m one one (fun flow m => flow = .done → m.Guarded) Guarded := by
  have hkept : ∀ {jumps m'}, Change jumps false m m' → m'.Guarded := fun h =>
    .inl (h.handling.trans hh)
  have hof : ∀ w, m.word? = some w → CommutesAt id m.pastWord (ofWord w) (ofWord w)
      (fun flow m => flow = .done → m.Guarded) Guarded →
      CommutesAt id m one one (fun flow m => flow = .done → m.Guarded) Guarded := by
    intro w hw h
    unfold CommutesAt at h ⊢
    rw [id, one_of_word? hw]
    exact h
  by_cases hplain : ∀ w, m.word? = some w → w.standsApart = false ∧ w.setsRegisters = false
  · have hat := one_at (Backdrop.own_spares m) (.refl : Change false false m m) (fun w hw => (hplain w hw).1)
      fun w hw hr => by rw [(hplain w hw).2] at hr; cases hr
    refine (Backdrop.commutes_id hat).mono ?_ ?_
    · exact fun _ _ h _ => hkept h.2
    · exact fun _ h => hkept h
  · simp only [not_forall] at hplain
    obtain ⟨w, hw, hspecial⟩ := hplain
    refine hof w hw ?_
    cases w with
    | CLEAR => exact guards_clear _ hh
    | CONT => exact guards_cont _ hh
    | ON => exact guards_on _ hh
    | RUN => exact guards_run _ hh
    | RESUME => exact absurd hw hword
    | DELETE =>
      refine (Backdrop.commutes_id (delete_at .own m.pastWord)).mono ?_ ?_
      · rintro flow _ ⟨-, -, r, w, -, rfl⟩ -
        exact .inl hh
      · rintro _ rfl
        exact .inl hh
    | NEW =>
      refine (Backdrop.commutes_id (new_at .own m.pastWord)).mono ?_ fun _ h => h.elim
      rintro flow _ ⟨rfl, -⟩ hdone
      cases hdone
    | INPUT =>
      have hpast : Change false false m m.pastWord := Change.refl.pastWord
      have hat := Backdrop.commutes_id (input_at hpast rfl)
      refine hat.mono ?_ ?_
      · rintro flow _ (⟨-, hm⟩ | ⟨rfl, -⟩) hdone
        · exact hkept hm
        · cases hdone
      · exact fun _ hm => hkept hm
    | _ => exact absurd ⟨rfl, rfl⟩ hspecial

/-- A statement of a handler that fails leaves a state in which its condition is not trapped, or is a
`RESUME` to a line that is not there. -/
theorem dispatch_error_of_handling {n : Nat} (hh : m.handling = true)
    (h : dispatch n m = (.error c, m')) : m'.Guarded ∨
      ∃ d f r w, Opens m d ∧ d.word? = some .RESUME ∧ d.failure = some f ∧
        resumption d.pastWord.toWorkspace = (.ok r, w) ∧ w.cursor.atStatementEnd = true ∧
        d.tokensOf (f.resumes r) = .error c ∧ m' = { d with toWorkspace := w, handling := false } := by
  obtain ⟨d, x, hd, hx, hrun⟩ := dispatch_ends n m
  have hdispatch : dispatch n m = x d := hrun .own (Backdrop.own_spares m)
  have hdh : d.handling = true := hd.change.handling.trans hh
  rw [hdispatch] at h
  rcases hx with rfl | rfl
  · obtain ⟨-, rfl⟩ := settle_error h
    exact .inl (.inl hdh)
  · by_cases hword : d.word? = some .RESUME
    · rcases bind_eq_error h with hone | ⟨flow, s, hone, hsettle⟩
      · rw [one_of_word? hword] at hone
        rcases resume_error (m := d.pastWord) hdh hone with hstill | ⟨f, r, w, hf, hr, hw, htokens, rfl⟩
        · exact .inl (.inl hstill)
        · exact .inr ⟨d, f, r, w, hd, hword, hf, hr, hw, htokens, rfl⟩
      · rw [one_of_word? hword] at hone
        obtain rfl := resume_moved hone
        cases hsettle
    · have hat := guards_one hdh hword
      rcases bind_eq_error h with hone | ⟨flow, s, hone, hsettle⟩
      · exact .inl (hat.error hone).2
      · obtain ⟨rfl, rfl⟩ := settle_error hsettle
        exact .inl ((hat.ok hone).2 rfl)

/-- What a step in a handler comes to where its statement fails: the run ends with the condition. Only a
`RESUME` to a line that is not there fails after it has left the handler, and its condition is raised as
if there had been none. -/
theorem step_fails_of_handling (hrunning : m.running = true) (hh : m.handling = true)
    (h : m.advance = (.error c, m')) :
    (m.step.1 = .failed (c.within m'.line) ∧ m.step.2.running = false) ∨
      ∃ d f r w, m.Starts d ∧ d.word? = some .RESUME ∧ d.failure = some f ∧
        resumption d.pastWord.toWorkspace = (.ok r, w) ∧ w.cursor.atStatementEnd = true ∧
        d.tokensOf (f.resumes r) = .error c ∧
        m.step = ({ d with toWorkspace := w, handling := false } : Machine).raise c := by
  have hstep : m.step = m'.raise c := by
    rw [step_eq hrunning, h]
    rfl
  have hguarded : m'.Guarded →
      (m.step.1 = .failed (c.within m'.line) ∧ m.step.2.running = false) := by
    intro hm'
    rw [hstep, raise_of_uncaught c (.inr hm')]
    exact ⟨rfl, running_fail m' _⟩
  have hcases := advanced m
  generalize m.advance = r at h hcases
  cases hcases with
  | broken | finished => cases h
  | @polled q =>
    have husual := pollInput_usual false q { m with inquiry := none }
    rw [h] at husual
    cases husual with
    | failed hchange => exact .inl (hguarded (.inl (hchange.handling.trans hh)))
  | @executed s hb hq hs =>
    have hsh : s.handling = true := by
      rw [(sought_of_next hs).eq]
      exact hh
    rcases dispatch_error_of_handling hsh h with hm' | ⟨d, f, r, w, hd, hword, hf, hr, hw, htokens, rfl⟩
    · exact .inl (hguarded hm')
    · exact .inr ⟨d, f, r, w, ⟨⟨hrunning, hb, hq⟩, s, hs, hd⟩, hword, hf, hr, hw, htokens, hstep⟩

/-- `RESUME 999` in the handler fails, and its condition leads to the same handler once more. -/
theorem step_of_failed_resume : ∃ m,
    m = ((entered ["10 ON ERROR GOTO 100", "20 RETURN", "100 RESUME 999", "RUN"]).steps 3).2 ∧
    m.handling = true ∧ m.advance.1 = .error (.of .undefinedStatement) ∧ m.step.1 = .running ∧
    m.step.2.running = true ∧ m.step.2.position = ⟨some 100, 0⟩ :=
  ⟨_, rfl, by decide +kernel⟩

theorem step_fails_of_handling_next : ∃ m c m',
    m = ((entered ["10 ON ERROR GOTO 100", "20 RETURN", "100 NEXT", "RUN"]).steps 3).2 ∧
    m.running = true ∧ m.handling = true ∧ m.advance = (.error c, m') ∧
    ((m.step.1 = .failed (c.within m'.line) ∧ m.step.2.running = false) ∨
      ∃ d f r w, m.Starts d ∧ d.word? = some .RESUME ∧ d.failure = some f ∧
        resumption d.pastWord.toWorkspace = (.ok r, w) ∧ w.cursor.atStatementEnd = true ∧
        d.tokensOf (f.resumes r) = .error c ∧
        m.step = ({ d with toWorkspace := w, handling := false } : Machine).raise c) := by
  have hrunning : ((entered ["10 ON ERROR GOTO 100", "20 RETURN", "100 NEXT", "RUN"]).steps 3).2.running =
      true := by decide +kernel
  have hh : ((entered ["10 ON ERROR GOTO 100", "20 RETURN", "100 NEXT", "RUN"]).steps 3).2.handling =
      true := by decide +kernel
  have hadvance : ((entered ["10 ON ERROR GOTO 100", "20 RETURN", "100 NEXT", "RUN"]).steps 3).2.advance =
      (.error (.of .nextWithoutFor), _) := Prod.ext (by decide +kernel) rfl
  exact ⟨_, _, _, rfl, hrunning, hh, hadvance, step_fails_of_handling hrunning hh hadvance⟩

end Machine

end LineBasic
