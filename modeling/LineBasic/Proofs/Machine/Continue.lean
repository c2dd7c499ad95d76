import LineBasic.Proofs.Machine.Reachable
import LineBasic.Proofs.Machine.Schedule

/-! A break in a program, and `CONT` after it. Execution goes on where it stood, and what differs from a
run without the break is nothing that the program goes by. -/

namespace LineBasic

theorem Cursor.atToken_pos (c : Cursor) : atToken c.tokens c.pos = c := by
  simp [atToken, tokens, pos]

theorem Tape.input_report (t : Tape) (c : Condition) : (t.report c).input = t.input := by
  rw [report]
  split <;> rfl

namespace Machine

open Statement

variable {m m' : Machine}

/-! ## The break -/

/-- After a break in a program line. -/
def broken (m : Machine) : Machine :=
  { m with
    running := false
    handling := false
    breakRequested := false
    inquiry := none
    continuation := some ⟨m.position, m.handling⟩
    tape := m.tape.report ⟨.interrupted, m.line, ""⟩ }

/-- After a break and `CONT`. -/
def resumed (m : Machine) : Machine :=
  { m with
    direct := [.word .CONT]
    statement := ⟨none, 0⟩
    continuation := none
    breakRequested := false
    tape := m.tape.report ⟨.interrupted, m.line, ""⟩ }

def atColumn (m : Machine) (n : Nat) : Machine := { m with tape := { m.tape with column := n } }

/-- The line `CONT` where a run was broken. -/
def continuing (m : Machine) : Machine :=
  { m.broken with
    running := true, direct := [.word .CONT], line := none, cursor := .start [.word .CONT] }

theorem step_interrupt (hrunning : m.running = true) (hline : m.line.isSome) (hq : m.inquiry = none) :
    m.interrupt.step = (.failed ⟨.interrupted, m.line, ""⟩, m.broken) := by
  obtain ⟨n, hn⟩ := Option.isSome_iff_exists.mp hline
  have hinterrupt : m.interrupt = { m with breakRequested := true } := if_pos hrunning
  have hbreak : ({ m with breakRequested := true } : Machine).takeBreak =
      { m with breakRequested := false } := by
    simp [takeBreak, hq]
  have hdirect : ({ m with breakRequested := false } : Machine).isDirect = false := by
    simp [isDirect, hn]
  rw [hinterrupt, step_eq (m := { m with breakRequested := true }) hrunning, advance, if_pos rfl, hbreak]
  show ({ m with breakRequested := false } : Machine).halt .interrupted = _
  simp only [halt, hdirect]
  rfl

theorem forgetDirectFrames_of_deferred (hframes : ∀ f ∈ m.stack.items, f.position.line.isSome) :
    m.forgetDirectFrames = m := by
  have hnone : m.stack.bottomFirst.findIdx? (·.position.isDirect) = none := by
    rw [List.findIdx?_eq_none_iff]
    intro f hf
    have hsome := hframes f (List.mem_reverse.mp hf)
    rw [Position.isDirect, ← Option.not_isSome, hsome]
    rfl
  rw [forgetDirectFrames, hnone]

theorem enter_cont (hframes : ∀ f ∈ m.stack.items, f.position.line.isSome) :
    m.broken.enter "CONT" = (true, m.continuing) := by
  have htext : Line.ofText "CONT" = .ok ⟨none, [.word .CONT]⟩ := by decide +kernel
  have hforget : m.broken.forgetDirectFrames = m.broken := forgetDirectFrames_of_deferred hframes
  rw [enter, htext]
  show (true, m.broken.startDirect [.word .CONT]) = _
  rw [startDirect, hforget]
  rfl

theorem cont_of_some {k : Continuation} {tokens : List Token} (hline : m.line = none)
    (hk : m.continuation = some k)
    (ht : ({ m with continuation := none } : Machine).tokensOf k.position.line = .ok tokens) :
    cont m = (.ok .moved,
      { m with
        continuation := none, cursor := .atToken tokens k.position.token, line := k.position.line
        handling := k.handling }) := by
  have hdirect : (liftM (require m.isDirect (.of .illegalDeferred)) : Exec Unit) m = (.ok (), m) := by
    rw [isDirect, hline]
    rfl
  rw [cont, bind_get, bind_of_ok hdirect, bind_get, hk]
  show (Exec.jump k.position >>= _) { m with continuation := none } = _
  rw [bind_of_ok (Exec.jump_of_ok ht)]
  rfl

/-- The line `CONT` is one step to the place to continue. -/
theorem step_cont {k : Continuation} {tokens : List Token} (hm : m.Ready) (hline : m.line = none)
    (hcursor : m.cursor = .start [.word .CONT]) (hk : m.continuation = some k)
    (ht : m.tokensOf k.position.line = .ok tokens) :
    m.step = (.running,
      { m with
        statement := ⟨none, 0⟩, continuation := none, cursor := .atToken tokens k.position.token,
        line := k.position.line, handling := k.handling }) := by
  have hhead : m.cursor.rest.head? = some (.word .CONT) := by rw [hcursor]; rfl
  have hposition : m.position = ⟨none, 0⟩ := by rw [position, hline, hcursor]; rfl
  have hnext : m.nextStatement = (true, { m with statement := ⟨none, 0⟩ }) := by
    rw [nextStatement_of_start hhead nofun, hposition]
  have hword : ({ m with statement := ⟨none, 0⟩ } : Machine).word? = some .CONT := by
    rw [word?, Cursor.peek?, hhead]
    rfl
  have hone := (one_of_word? hword).trans (cont_of_some hline hk ht)
  have hdispatch : ∀ n, dispatch (n + 1) { m with statement := ⟨none, 0⟩ } = _ := fun n =>
    (dispatch_succ (fun m' h => by rw [hone] at h; cases h) n).trans (bind_of_ok hone)
  rw [step_eq hm.running, hm.advance_eq, hnext]
  show tell (dispatch _ _) = _
  rw [hdispatch]
  rfl

theorem step_continuing (hwalks : m.Walks) (hrunning : m.running = true) (hline : m.line.isSome)
    (hq : m.inquiry = none) : m.continuing.step = (.running, m.resumed) := by
  obtain ⟨n, hn⟩ := Option.isSome_iff_exists.mp hline
  -- the direct line is another one, but the jump is to a line of the program
  have htokens : m.continuing.tokensOf m.position.line = .ok m.cursor.tokens := by
    rw [Walks, hn] at hwalks
    rw [position, hn]
    exact hwalks
  rw [step_cont ⟨rfl, rfl, rfl⟩ rfl rfl rfl htokens]
  refine congrArg (Prod.mk _) ?_
  have hcursor : Cursor.atToken m.cursor.tokens m.position.token = m.cursor := m.cursor.atToken_pos
  rw [hcursor]
  obtain ⟨⟩ := m
  cases hq
  cases hrunning
  rfl

/-! ## Where a statement started -/

/-- The machine as if the last statement had started elsewhere. -/
def startedAt (m : Machine) (p : Position) : Machine := { m with statement := p }

theorem halt_startedAt (m : Machine) (p : Position) (why : Halt) :
    (m.startedAt p).halt why = ((m.halt why).1, (m.halt why).2.startedAt p) := by
  have hdirect : (m.startedAt p).isDirect = m.isDirect := rfl
  cases why with
  | finished | ended | interrupted =>
    simp only [halt, hdirect]
    split <;> rfl
  | system => rfl

theorem seekStatement_startedAt (m : Machine) (p : Position) (lines : List ProgramLine) :
    (m.startedAt p).seekStatement lines = m.seekStatement lines ∨
      ((m.seekStatement lines).1 = false ∧
        (m.startedAt p).seekStatement lines = (false, (m.seekStatement lines).2.startedAt p)) := by
  induction lines generalizing m with
  | nil => exact .inr ⟨rfl, rfl⟩
  | cons l rest ih =>
    have hmark : ((m.startedAt p).enterLine l).skipColons.markStatement =
        (m.enterLine l).skipColons.markStatement := rfl
    rw [seekStatement, seekStatement, hmark]
    cases (m.enterLine l).skipColons.markStatement with
    | some s => exact .inl rfl
    | none => exact ih (m.enterLine l).skipColons

theorem nextStatement_startedAt (m : Machine) (p : Position) :
    (m.startedAt p).nextStatement = m.nextStatement ∨
      (m.nextStatement.1 = false ∧
        (m.startedAt p).nextStatement = (false, m.nextStatement.2.startedAt p)) := by
  have hmark : (m.startedAt p).skipColons.markStatement = m.skipColons.markStatement := rfl
  rw [nextStatement, nextStatement, hmark]
  cases m.skipColons.markStatement with
  | some s => exact .inl rfl
  | none => exact seekStatement_startedAt m.skipColons p _

/-- Where the last statement started is of no use to a run that goes on with the next. -/
theorem step_startedAt (hq : m.inquiry = none) (p : Position) : (m.startedAt p).step = m.step ∨
    (m.step.2.running = false ∧ (m.startedAt p).step = (m.step.1, m.step.2.startedAt p)) := by
  cases hrunning : m.running with
  | false =>
    rw [step_of_idle hrunning, step_of_idle (m := m.startedAt p) hrunning]
    exact .inr ⟨hrunning, rfl⟩
  | true =>
    have hhalted : ∀ (s : Machine) why, m.advance = (.ok (.halted why), s) →
        (m.startedAt p).advance = (.ok (.halted why), s.startedAt p) →
        m.step.2.running = false ∧ (m.startedAt p).step = (m.step.1, m.step.2.startedAt p) := by
      intro s why hm hp
      rw [step_eq hrunning, step_eq (m := m.startedAt p) hrunning, hm, hp]
      exact ⟨running_halt s why, halt_startedAt s p why⟩
    cases hbreak : m.breakRequested with
    | true =>
      refine .inr (hhalted m.takeBreak .interrupted (if_pos hbreak) ((if_pos hbreak).trans ?_))
      simp [takeBreak, startedAt, hq]
    | false =>
      have hready : m.Ready := ⟨hrunning, hbreak, hq⟩
      have hready' : (m.startedAt p).Ready := ⟨hrunning, hbreak, hq⟩
      rcases nextStatement_startedAt m p with hsame | ⟨hnone, hnext⟩
      · refine .inl ?_
        rw [step_eq hready.running, step_eq hready'.running, hready.advance_eq, hready'.advance_eq, hsame]
      · refine .inr (hhalted m.nextStatement.2 .finished ?_ ?_)
        · rw [hready.advance_eq, ← Prod.mk.eta (p := m.nextStatement), hnone]
        · rw [hready'.advance_eq, hnext]

/-! ## A run and its shadow -/

/-- In the program the machine `n` runs as `m` does: it has another background, another start of the last
statement, as long as no `INPUT` waits, and once the run is over another place to continue from. -/
structure Shadows (b : Backdrop) (m n : Machine) : Prop where
  eq : n = { b.behind m with statement := n.statement, continuation := n.continuation }
  continuation : m.running = true → n.continuation = b.continuation m.continuation
  statement : m.inquiry.isSome → n.statement = m.statement
  deferred : m.running = true → m.Deferred
  sound : m.Sound

variable {b : Backdrop} {n : Machine}

theorem step_tells_of_input (hb : b.Spares m) (hinput : b.input = id) :
    b.Tells m.step (b.behind m).step := by
  rcases Backdrop.step_tells hb with htells | ⟨hwaiting, hstarved, hlater⟩
  · exact htells
  · have hbehind : (b.behind m.step.2).Starved :=
      ⟨hstarved.running, hstarved.unbroken, hstarved.waits, by
        rw [← hstarved.input]
        exact congrFun hinput _⟩
    rw [hlater, hbehind.step, ← Prod.mk.eta (p := m.step), hwaiting]
    exact .refl _ _

theorem Shadows.running (h : Shadows b m n) : n.running = m.running := by
  rw [h.eq]
  rfl

theorem Shadows.report (h : Shadows b m n) : n.report = m.report := by
  rw [h.eq]
  rfl

theorem Shadows.startedAt (h : Shadows b m n) (hrunning : m.running = true) :
    n = (b.behind m).startedAt n.statement := by
  have heq := h.eq
  rw [h.continuation hrunning] at heq
  exact heq

theorem Shadows.step (h : Shadows b m n) (hinput : b.input = id) :
    n.step.1 = m.step.1 ∧ Shadows b m.step.2 n.step.2 := by
  cases hrunning : m.running with
  | false =>
    rw [step_of_idle hrunning, step_of_idle (h.running.trans hrunning)]
    exact ⟨rfl, h⟩
  | true =>
    have hdeferred : m.Deferred := h.deferred hrunning
    obtain ⟨k, hbehind, hk⟩ := step_tells_of_input (.inr hdeferred) hinput
    have hn := h.startedAt hrunning
    have hsame : n.step = (b.behind m).step ∨ (m.step.2.running = false ∧
        n.step = (m.step.1, (b.behind m).step.2.startedAt n.statement)) := by
      cases hq : m.inquiry with
      | some q =>
        rw [h.statement (by rw [hq]; rfl)] at hn
        exact .inl (congrArg Machine.step hn)
      | none =>
        have hstep := step_startedAt (m := b.behind m) hq n.statement
        rw [← hn, hbehind] at hstep
        rw [hbehind]
        exact hstep
    rcases hsame with hsame | ⟨hstopped, hsame⟩
    · rw [hsame, hbehind]
      exact ⟨rfl, rfl, fun hr => hk (.inr hr), fun _ => rfl, hdeferred.step h.sound, h.sound.step⟩
    · rw [hsame, hbehind]
      refine ⟨rfl, rfl, fun hr => hk (.inr hr), fun hw => ?_, hdeferred.step h.sound, h.sound.step⟩
      cases hstopped.symm.trans (h.sound.step.waits hw).1

theorem Shadows.steps (h : Shadows b m n) (hinput : b.input = id) (k : Nat) :
    (n.steps k).1 = (m.steps k).1 ∧ Shadows b (m.steps k).2 (n.steps k).2 := by
  induction k generalizing m n with
  | zero => exact ⟨rfl, h⟩
  | succ k ih =>
    obtain ⟨hevent, hstep⟩ := h.step hinput
    rw [Machine.steps, Machine.steps]
    cases hm : m.step with
    | mk e m' =>
      cases hn : n.step with
      | mk e' n' =>
        rw [hm, hn] at hevent hstep
        obtain rfl : e' = e := hevent
        cases e' with
        | running => exact ih hstep
        | _ => exact ⟨rfl, hstep⟩

theorem Shadows.execute (h : Shadows b m n) (hinput : b.input = id) (k : Nat) :
    (n.execute k).1 = (m.execute k).1 ∧ Shadows b (m.execute k).2 (n.execute k).2 := by
  rw [Machine.execute, Machine.execute, h.report]
  cases m.report with
  | none => exact h.steps hinput k
  | some c =>
    refine ⟨rfl, ?_, h.continuation, h.statement, fun hr => ?_, ?_⟩
    · exact congrArg (fun n : Machine => { n with report := none }) h.eq
    · have hd := h.deferred hr
      exact ⟨hd.line, hd.frames, hd.failure⟩
    · exact ⟨h.sound.walks, h.sound.waits, h.sound.failed⟩

theorem Shadows.type (h : Shadows b m n) (hinput : b.input = id) (s : String) :
    Shadows b (m.type s) (n.type s) := by
  refine ⟨?_, h.continuation, h.statement, fun hr => ?_, ?_⟩
  · have htape : (b.onTape m.tape).type s = b.onTape (m.tape.type s) := by
      simp [Tape.type, Backdrop.onTape, hinput]
    refine (congrArg (·.type s) h.eq).trans ?_
    rw [Machine.type, Backdrop.behind, Backdrop.behind, htape]
    rfl
  · have hd := h.deferred hr
    exact ⟨hd.line, hd.frames, hd.failure⟩
  · exact ⟨h.sound.walks, h.sound.waits, h.sound.failed⟩

theorem Shadows.perform (h : Shadows b m n) (hinput : b.input = id) (σ : List Act) :
    (perform σ n).1 = (perform σ m).1 ∧ Shadows b (perform σ m).2 (perform σ n).2 := by
  induction σ generalizing m n with
  | nil => exact ⟨rfl, h⟩
  | cons a σ ih =>
    cases a with
    | type s => exact ih (h.type hinput s)
    | execute k =>
      obtain ⟨hevent, hstate⟩ := h.execute hinput k
      obtain ⟨hevents, hrest⟩ := ih hstate
      exact ⟨congrArg₂ List.cons hevent hevents, hrest⟩

/-- Two states that differ in nothing that a run in the program goes by: the direct line, where the last
statement started, the place to continue from, and what was printed. -/
def Agrees (m n : Machine) : Prop :=
  n = { m with
    direct := n.direct, statement := n.statement, continuation := n.continuation
    tape := { m.tape with output := n.tape.output } }

/-- Whatever a host types and however it lets them run, two machines tell the same, print the same, and
go through states that agree. -/
def RunsLike (m n : Machine) : Prop :=
  ∀ σ, (perform σ n).1 = (perform σ m).1 ∧ (perform σ m).2.Agrees (perform σ n).2 ∧
    ∃ printed, (perform σ m).2.tape.output = m.tape.output ++ printed ∧
      (perform σ n).2.tape.output = n.tape.output ++ printed

theorem Shadows.output (h : Shadows b m n) : n.tape.output = b.output "" ++ m.tape.output := by
  rw [h.eq, ← b.output_append, String.empty_append]
  rfl

theorem Shadows.agrees {b' : Backdrop} {n' : Machine} (h : Shadows b m n) (h' : Shadows b' m n')
    (hinput : b.input = id) (hinput' : b'.input = id) : n.Agrees n' := by
  obtain ⟨p, k, rfl⟩ : ∃ p k, n = { b.behind m with statement := p, continuation := k } := ⟨_, _, h.eq⟩
  obtain ⟨p', k', rfl⟩ : ∃ p k, n' = { b'.behind m with statement := p, continuation := k } :=
    ⟨_, _, h'.eq⟩
  simp [Agrees, Backdrop.behind, Backdrop.onTape, hinput, hinput']

/-- Two backgrounds of one run. -/
theorem Shadows.runsLike {b' : Backdrop} {n' : Machine} (h : Shadows b m n) (h' : Shadows b' m n')
    (hinput : b.input = id) (hinput' : b'.input = id) (hm : m.tape.output = "") : n.RunsLike n' := by
  intro σ
  obtain ⟨hevents, hrun⟩ := h.perform hinput σ
  obtain ⟨hevents', hrun'⟩ := h'.perform hinput' σ
  refine ⟨hevents'.trans hevents.symm, hrun.agrees hrun' hinput hinput',
    (Machine.perform σ m).2.tape.output, ?_, ?_⟩
  · rw [hrun.output, h.output, hm, String.append_empty]
  · rw [hrun'.output, h'.output, hm, String.append_empty]

/-- Before a background in which something was printed. -/
def printed (s : String) : Backdrop :=
  { Backdrop.own with output := (s ++ ·), output_append := fun _ _ => String.append_assoc.symm }

theorem onTape_printed (t : Tape) (s : String) :
    (printed s).onTape { t with output := "" } = { t with output := s } := by
  simp [printed, Backdrop.own, Backdrop.onTape]

/-- The machine with nothing printed, and without a break that was asked for. -/
def blank (m : Machine) : Machine :=
  { m with breakRequested := false, tape := { m.tape with output := "" } }

theorem shadows_unbroken (hm : m.Sound) (hd : m.Deferred) :
    Shadows (printed m.tape.output) m.blank { m with breakRequested := false } where
  eq := by
    rw [Backdrop.behind, blank, onTape_printed]
    rfl
  continuation _ := rfl
  statement _ := rfl
  deferred _ := ⟨hd.line, hd.frames, hd.failure⟩
  sound := ⟨hm.walks, hm.waits, hm.failed⟩

theorem shadows_resumed (hm : m.Sound) (hd : m.Deferred) (hq : m.inquiry = none) :
    Shadows
      { printed m.resumed.tape.output with
        direct := fun _ => [.word .CONT], continuation := fun _ => none, continuation_none := rfl }
      m.blank (m.resumed.atColumn m.tape.column) where
  eq := by
    have hinput : m.resumed.tape.input = m.tape.input := m.tape.input_report _
    show _ = { m.resumed with tape := (printed m.resumed.tape.output).onTape { m.tape with output := "" } }
    rw [onTape_printed]
    simp only [atColumn, hinput]
  continuation _ := rfl
  statement h := by
    have hsome : m.inquiry.isSome := h
    rw [hq] at hsome
    cases hsome
  deferred _ := ⟨hd.line, hd.frames, hd.failure⟩
  sound := ⟨hm.walks, hm.waits, hm.failed⟩

/-- A break in a program line and `CONT` lead to a state that differs from the one before in the direct
line, the start of the last statement, the place to continue from and the tape; and once the column is put
back, the run goes on as if there had been no break. -/
theorem cont_after_break (hm : Reachable LoadsIdle m) (hrunning : m.running = true)
    (hline : m.line.isSome) (hq : m.inquiry = none)
    (hframes : ∀ f ∈ m.stack.items, f.position.line.isSome) :
    (∃ m₁ m₂, m.interrupt.step = (.failed ⟨.interrupted, m.line, ""⟩, m₁) ∧
      m₁.enter "CONT" = (true, m₂) ∧ m₂.step = (.running, m.resumed)) ∧
    RunsLike { m with breakRequested := false } (m.resumed.atColumn m.tape.column) := by
  have hsound : m.Sound := hm.sound
  have hdeferred : m.Deferred := ⟨hline, hframes, hsound.failed⟩
  refine ⟨⟨m.broken, m.continuing, step_interrupt hrunning hline hq, enter_cont hframes,
    step_continuing (hsound.walks hrunning) hrunning hline hq⟩, ?_⟩
  -- both runs are that of a machine with nothing printed, before two backgrounds
  exact (shadows_unbroken hsound hdeferred).runsLike (shadows_resumed hsound hdeferred hq) rfl rfl rfl

/-- A break in the middle of a line, within a loop. -/
theorem cont_after_break_loop : ∃ m : Machine,
    m = ((entered ["10 FOR I=1 TO 3:PRINT I;:NEXT:END", "RUN"]).execute 3).2 ∧
    m.position.line = some 10 ∧ m.stack.size = 1 ∧ m.tape.column = 3 ∧
    Reachable LoadsIdle m ∧ m.running = true ∧ m.line.isSome ∧ m.inquiry = none ∧
    (∀ f ∈ m.stack.items, f.position.line.isSome) ∧
    (∃ m₁ m₂, m.interrupt.step = (.failed ⟨.interrupted, m.line, ""⟩, m₁) ∧
      m₁.enter "CONT" = (true, m₂) ∧ m₂.step = (.running, m.resumed)) ∧
    RunsLike { m with breakRequested := false } (m.resumed.atColumn m.tape.column) := by
  have hstate : ∃ m : Machine, m = ((entered ["10 FOR I=1 TO 3:PRINT I;:NEXT:END", "RUN"]).execute 3).2 ∧
      m.position.line = some 10 ∧ m.stack.size = 1 ∧ m.tape.column = 3 ∧
      m.running = true ∧ m.line.isSome ∧ m.inquiry = none ∧
      ∀ f ∈ m.stack.items, f.position.line.isSome := ⟨_, rfl, by decide +kernel⟩
  obtain ⟨m, hm, hposition, hsize, hcolumn, hrunning, hline, hq, hframes⟩ := hstate
  have hreachable : Reachable LoadsIdle m := hm ▸ .call (reachable_entered _) (.execute 3) nofun
  exact ⟨m, hm, hposition, hsize, hcolumn, hreachable, hrunning, hline, hq, hframes,
    cont_after_break hreachable hrunning hline hq hframes⟩

end Machine

end LineBasic
