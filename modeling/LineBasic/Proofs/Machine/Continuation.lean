import LineBasic.Proofs.Machine.Continue
import LineBasic.Proofs.Machine.Failure
import LineBasic.Proofs.Machine.Registers

/-! The place to continue, over a whole session. It is a place of the program for as long as it is on
record, so `CONT` can go there; and work in the direct line leaves it alone. -/

namespace LineBasic

/-- The position is a token of a line of the program, or the end of one. -/
def Position.In (p : Position) (program : Listing) : Prop :=
  ∃ l ∈ program.lines, p.line = some l.number ∧ p.token ≤ l.tokens.length

namespace Machine

open Statement

variable {m m' : Machine}

theorem Walks.position_in (h : m.Walks) (hline : m.isDirect = false) : m.position.In m.program := by
  cases hn : m.line with
  | none => simp [isDirect, hn] at hline
  | some n =>
    rw [Walks, hn] at h
    obtain ⟨l, hl, hnumber, htokens⟩ := mem_of_tokensOf h
    refine ⟨l, hl, hn.trans (congrArg some hnumber.symm), ?_⟩
    rw [htokens]
    exact m.cursor.pos_le

/-- The place to continue is in the program, and so is an `INPUT` that waits there. -/
structure Resumable (m : Machine) : Prop where
  continues : ∀ k, m.continuation = some k → k.position.In m.program
  waits : m.inquiry.isSome → m.line.isSome → m.statement.In m.program

/-! ## A step -/

/-- A run that stands at a statement. -/
structure Placed (m : Machine) : Prop extends m.Poised where
  continues : ∀ k, m.continuation = some k → k.position.In m.program
  placed : m.line.isSome → m.statement.In m.program

theorem continues_of_change {jumps registers : Bool} (h : Change jumps registers m m')
    (hm : ∀ k, m.continuation = some k → k.position.In m.program) :
    ∀ k, m'.continuation = some k → k.position.In m'.program := by
  intro k hk
  rw [h.program]
  rcases h.continuation with hsame | hnone
  · exact hm k (hsame.symm.trans hk)
  · cases hnone.symm.trans hk

theorem resumable_halt (hk : ∀ k, m.continuation = some k → k.position.In m.program)
    (hp : m.isDirect = false → m.position.In m.program) (why : Halt) : (m.halt why).2.Resumable := by
  have hcont := continues_of_end (Q := fun k => k.position.In m.program) (continuation_halt m why) hk hp
  obtain ⟨k, t, heq⟩ := halt_eq m why
  rw [heq] at hcont ⊢
  exact ⟨hcont, nofun⟩

theorem resumable_fail (hk : ∀ k, m.continuation = some k → k.position.In m.program)
    (hs : m.isDirect = false → m.statement.In m.program) (c : Condition) : (m.fail c).2.Resumable := by
  have hcont := continues_of_end (Q := fun k => k.position.In m.program) (continuation_fail m c) hk hs
  obtain ⟨k, t, heq⟩ := fail_eq m c
  rw [heq] at hcont ⊢
  exact ⟨hcont, nofun⟩

theorem resumable_raise (hk : ∀ k, m.continuation = some k → k.position.In m.program)
    (hs : m.isDirect = false → m.statement.In m.program) (c : Condition) : (m.raise c).2.Resumable := by
  have hraised := raised m c
  generalize m.raise c = r at hraised ⊢
  cases hraised with
  | uncaught => exact resumable_fail hk hs _
  | handled => exact ⟨hk, nofun⟩
  | @astray t => exact resumable_fail (m := m.serving (c.within m.line) t) hk hs _

theorem Placed.statement_in (hm : m.Placed) {registers : Bool} (h : Change false registers m m') :
    m'.line.isSome → m'.statement.In m'.program := by
  rw [h.line, h.statement, h.program]
  exact hm.placed

theorem isSome_of_not_direct (h : m.isDirect = false) : m.line.isSome := by
  rw [← Option.not_isNone]
  exact congrArg (!·) h

theorem Placed.resumable_usual (hm : m.Placed) {registers : Bool} {r : Except Condition Flow × Machine}
    (h : Usual registers m r) : (tell r).2.Resumable := by
  cases h with
  | @reached flow m' h =>
    have hk := continues_of_change h hm.continues
    cases flow with
    | halted why => exact resumable_halt hk (h.walks hm.walks).position_in why
    | done | again | moved | waiting =>
      refine ⟨hk, ?_⟩
      show m'.inquiry.isSome → _
      rw [h.inquiry hm.answered]
      exact nofun
  | failed h =>
    exact resumable_raise (continues_of_change h hm.continues)
      (fun hline => hm.statement_in h (isSome_of_not_direct hline)) _
  | @waits d q h =>
    have hk := continues_of_change h hm.continues
    have hstatement := hm.statement_in h
    exact ⟨hk, fun _ => hstatement⟩

theorem Placed.resumable_outcome (hm : m.Placed) {r : Except Condition Flow × Machine}
    (h : Outcome m r) : (tell r).2.Resumable := by
  cases h with
  | usual h => exact hm.resumable_usual h
  | @deleted d r w h =>
    refine ⟨nofun, ?_⟩
    show d.inquiry.isSome → _
    rw [h.change.inquiry hm.answered]
    exact nofun
  | @misread d r w h _ hline =>
    refine resumable_raise (m := deleted d.pastWord r w) nofun (fun hdirect => ?_) _
    have hnone : (deleted d.pastWord r w).isDirect = true := congrArg Option.isNone hline
    cases hnone.symm.trans hdirect
  | @erased d => exact resumable_halt (m := erased d.pastWord) nofun nofun _

theorem Resumable.placed_poll (hm : m.Resumable) (hs : m.Sound) {q : Inquiry} (hq : m.inquiry = some q) :
    Placed { m with inquiry := none } :=
  ⟨hs.poised_poll hq, hm.continues, hm.waits (by rw [hq]; rfl)⟩

theorem Resumable.placed_next (hm : m.Resumable) (hs : m.Sound) (hrunning : m.running = true)
    (hq : m.inquiry = none) (hnext : m.nextStatement = (true, m')) : m'.Placed := by
  have hpoised := hs.poised_next hrunning hq hnext
  have hstatement := statement_of_next hnext
  have hsought := sought_of_next hnext
  refine ⟨hpoised, ?_, fun hline => ?_⟩
  · rw [hsought.eq]
    exact hm.continues
  · rw [hstatement]
    refine hpoised.walks.position_in ?_
    rw [isDirect, ← Option.not_isSome, hline]
    rfl

theorem Resumable.step (hm : m.Resumable) (hs : m.Sound) : m.step.2.Resumable := by
  cases hrunning : m.running with
  | false =>
    rw [step_of_idle hrunning]
    exact hm
  | true =>
    have hwalks := hs.walks hrunning
    rw [step_eq hrunning]
    have hadvance := advanced m
    generalize m.advance = r at hadvance ⊢
    cases hadvance with
    | broken =>
      have hbreak : m.takeBreak.Walks := by
        refine hwalks.trans (congrArg Except.ok ?_)
        rw [takeBreak]
        split
        · exact (Cursor.tokens_atToken _ _).symm
        · rfl
      exact resumable_halt (m := m.takeBreak) hm.continues hbreak.position_in _
    | @polled q _ hq => exact (hm.placed_poll hs hq).resumable_usual (pollInput_usual true q _)
    | @finished s _ _ hnext =>
      have hsought := sought_of_next hnext
      refine resumable_halt (m := s) ?_ (hsought.walks hwalks).position_in _
      rw [hsought.eq]
      exact hm.continues
    | executed _ hq hnext => exact (hm.placed_next hs hrunning hq hnext).resumable_outcome (dispatch_outcome _ _)

/-! ## Calls -/

theorem Resumable.enter (hm : m.Resumable) (hs : m.Sound) (s : String) : (m.enter s).2.Resumable := by
  have htaken := taken m s
  generalize m.enter s = r at htaken ⊢
  cases htaken with
  | refused => exact ⟨hm.continues, hm.waits⟩
  | blank => exact hm
  | started => exact ⟨hm.continues, fun _ => nofun⟩
  | stored hidle =>
    refine ⟨nofun, ?_⟩
    show m.inquiry.isSome → _
    rw [hs.answered hidle]
    exact nofun

theorem resumable_clear (m : Machine) : m.clear.Resumable := ⟨nofun, nofun⟩

theorem Resumable.load (hm : m.Resumable) (s : String) : (m.load s).2.Resumable := by
  rw [Machine.load]
  split
  · exact hm
  · exact resumable_clear _

theorem Reachable.resumable (h : Reachable LoadsIdle m) : m.Resumable := by
  induction h with
  | fresh => exact ⟨nofun, nofun⟩
  | @call m hreach c hc ih =>
    cases c with
    | enter s => exact ih.enter hreach.sound s
    | load s => exact ih.load s
    | interrupt =>
      rw [Machine.call, interrupt]
      split
      · exact ⟨ih.continues, ih.waits⟩
      · exact ih
    | execute n =>
      rw [Machine.call, execute]
      split
      · exact ⟨ih.continues, ih.waits⟩
      · refine (steps_induct (P := fun m => m.Sound ∧ m.Resumable) ?_ ⟨hreach.sound, ih⟩ n).2
        exact fun _ hm => ⟨hm.1.step, hm.2.step hm.1⟩
    | step => exact ih.step hreach.sound
    | type | takeOutput | expression | target | lineNumber => exact ⟨ih.continues, ih.waits⟩

/-! ## Work in the direct line -/

/-- Only four actions drop the place to continue. -/
theorem continuation_makes {a : Action} (ha : a ∉ [Action.clear, .cont, .delete, .erase]) (h : m.Makes a m') :
    m'.continuation = m.continuation := by
  cases h with
  | clear | cont | contAstray | delete | erase => simp at ha
  | _ => rfl

theorem continuation_actions {w : Word} (hw : w ∉ [Word.CLEAR, .CONT, .DELETE, .NEW, .RUN]) :
    ∀ a ∈ w.actions, a ∉ [Action.clear, .cont, .delete, .erase] := by
  cases w <;> simp_all [Word.actions]

/-- What ends a run in the direct line leaves the place to continue alone. -/
theorem continuation_tell {r : Except Condition Flow × Machine} (h : (tell r).2.line = none) :
    (tell r).2.continuation = r.2.continuation := by
  have hfail : ∀ {m : Machine} {c}, (m.fail c).2.line = none → (m.fail c).2.continuation = m.continuation := by
    intro m c hline
    rcases continuation_fail m c with hsame | ⟨hdirect, -⟩
    · exact hsame
    · obtain ⟨k, t, heq⟩ := fail_eq m c
      rw [heq] at hline
      cases hdirect.symm.trans (congrArg Option.isNone hline)
  obtain ⟨c | flow, m⟩ := r
  · change (m.raise c).2.line = none at h
    change (m.raise c).2.continuation = m.continuation
    have hraised := raised m c
    generalize m.raise c = r at hraised h ⊢
    cases hraised with
    | uncaught => exact hfail h
    | handled => cases h
    | astray => exact hfail h
  · cases flow with
    | done | again | moved | waiting => rfl
    | halted why =>
      rcases continuation_halt m why with hsame | ⟨hdirect, -⟩
      · exact hsame
      · obtain ⟨k, t, heq⟩ := halt_eq m why
        change (m.halt why).2.line = none at h
        rw [heq] at h
        cases hdirect.symm.trans (congrArg Option.isNone h)

theorem continuation_advance (hrunning : m.running = true)
    (hwords : ∀ d w, m.Starts d → d.word? = some w → w ∉ [Word.CLEAR, .CONT, .DELETE, .NEW, .RUN]) :
    m.advance.2.continuation = m.continuation := by
  have hkeeps : ∀ {a : Action}, a ∉ [Action.clear, .cont, .delete, .erase] →
      a.Keeps fun s : Machine => s.continuation = m.continuation :=
    fun ha _ _ h hs => (continuation_makes ha h).trans hs
  have hadvance := advanced m
  generalize m.advance = r at hadvance ⊢
  cases hadvance with
  | broken => rfl
  | @polled q =>
    have hpoll := Acts.pollInput (hkeeps (by decide)) (hkeeps (by decide)) (hkeeps (by decide)) q
    exact hpoll.snd (s := { m with inquiry := none }) rfl
  | finished _ _ hs => rw [(sought_of_next hs).eq]
  | @executed s hb hq hs =>
    have hsame : s.continuation = m.continuation := by rw [(sought_of_next hs).eq]
    refine dispatch_keeps (fun d hd a ha => hkeeps ?_) (fun a ha => hkeeps ?_) hsame _
    · rw [actions] at ha
      split at ha
      · rename_i w hw
        rcases List.mem_cons.mp ha with rfl | ha
        · decide
        · exact continuation_actions (hwords d w ⟨⟨hrunning, hb, hq⟩, s, hs, hd⟩ hw) a ha
      · obtain rfl := List.mem_singleton.mp ha
        decide
    · exact continuation_actions (by decide) a ha

theorem continuation_step
    (hwords : ∀ d w, m.Starts d → d.word? = some w → w ∉ [Word.CLEAR, .CONT, .DELETE, .NEW, .RUN])
    (hline : m.step.2.line = none) : m.step.2.continuation = m.continuation := by
  cases hrunning : m.running with
  | false => rw [step_of_idle hrunning]
  | true =>
    rw [step_eq hrunning] at hline ⊢
    exact (continuation_tell hline).trans (continuation_advance hrunning hwords)

/-! ## `CONT` -/

/-- `CONT` leads to a place of the program that is on record. -/
theorem enter_cont_of_in {k : Continuation} {l : ProgramLine} (hm : m.Regular) (hidle : m.running = false)
    (hk : m.continuation = some k) (hl : l ∈ m.program.lines) (hline : k.position.line = some l.number)
    (htoken : k.position.token ≤ l.tokens.length) :
    ∃ m₁ m₂, m.enter "CONT" = (true, m₁) ∧ m₁.step = (.running, m₂) ∧ m₂.running = true ∧
      m₂.position = k.position ∧ m₂.cursor.tokens = l.tokens ∧ m₂.handling = k.handling := by
  obtain ⟨hanswered, hunbroken, -⟩ := hm.idle hidle
  have htext : Line.ofText "CONT" = .ok ⟨none, [.word .CONT]⟩ := by decide +kernel
  have henter : m.enter "CONT" = (true, m.startDirect [.word .CONT]) := by
    rw [enter, htext, hidle]
    rfl
  obtain ⟨m₁, hstart, hready, hm₁, hcursor, hk₁, hprogram⟩ : ∃ m₁, m.startDirect [.word .CONT] = m₁ ∧
      m₁.Ready ∧ m₁.line = none ∧ m₁.cursor = .start [.word .CONT] ∧ m₁.continuation = some k ∧
      m₁.program = m.program := by
    obtain ⟨frames, t, hforget, -⟩ := forgetDirectFrames_eq m
    rw [startDirect, hforget]
    exact ⟨_, rfl, ⟨rfl, hunbroken, hanswered⟩, rfl, rfl, hk, rfl⟩
  have htokens : m₁.tokensOf k.position.line = .ok l.tokens := by
    rw [hline]
    exact tokensOf_of_mem (hprogram ▸ hl)
  refine ⟨m₁, _, henter.trans (congrArg (Prod.mk true) hstart), step_cont hready hm₁ hcursor hk₁ htokens,
    hready.running, ?_, Cursor.tokens_atToken _ _, rfl⟩
  show (⟨k.position.line, (Cursor.atToken l.tokens k.position.token).pos⟩ : Position) = k.position
  rw [Cursor.pos_atToken, Nat.min_eq_left htoken]

/-- In every session in which programs are loaded only while nothing runs, the place to continue is in a
line of the program, and when nothing runs `CONT` leads to it in one step, with the handler active that
was. A step that ends in the direct line and executes no `CLEAR`, `CONT`, `DELETE`, `NEW` or `RUN` leaves
the place to continue as it is. -/
theorem continuation_of_reachable (h : Reachable LoadsIdle m) :
    (∀ k, m.continuation = some k → ∃ l ∈ m.program.lines, k.position.line = some l.number ∧
      (m.running = false → ∃ m₁ m₂, m.enter "CONT" = (true, m₁) ∧ m₁.step = (.running, m₂) ∧
        m₂.running = true ∧ m₂.position = k.position ∧ m₂.cursor.tokens = l.tokens ∧
        m₂.handling = k.handling)) ∧
    ((∀ d w, m.Starts d → d.word? = some w → w ∉ [Word.CLEAR, .CONT, .DELETE, .NEW, .RUN]) →
      m.step.2.line = none → m.step.2.continuation = m.continuation) := by
  refine ⟨fun k hk => ?_, continuation_step⟩
  obtain ⟨l, hl, hline, htoken⟩ := h.resumable.continues k hk
  exact ⟨l, hl, hline, fun hidle => enter_cont_of_in h.regular hidle hk hl hline htoken⟩

/-- A `STOP` in a handler. `CONT` goes on behind it with the handler active, also after a `NEXT` in the
direct line that fails. -/
theorem continuation_of_reachable_stop : ∃ m m' : Machine,
    m = ((entered ["10 ON ERROR GOTO 30", "20 RETURN", "30 STOP", "RUN"]).execute 4).2 ∧
    m' = (m.enter "NEXT").2 ∧ Reachable LoadsIdle m ∧ Reachable LoadsIdle m' ∧
    m.continuation = some ⟨⟨some 30, 1⟩, true⟩ ∧ m.running = false ∧
    (∃ m₁ m₂, m.enter "CONT" = (true, m₁) ∧ m₁.step = (.running, m₂) ∧ m₂.position = ⟨some 30, 1⟩ ∧
      m₂.handling = true) ∧
    m'.step.1 = .failed (.of .nextWithoutFor) ∧ m'.step.2.continuation = m'.continuation ∧
    m'.continuation = m.continuation := by
  have hstate : ∃ m m' : Machine,
      m = ((entered ["10 ON ERROR GOTO 30", "20 RETURN", "30 STOP", "RUN"]).execute 4).2 ∧
      m' = (m.enter "NEXT").2 ∧
      m.continuation = some ⟨⟨some 30, 1⟩, true⟩ ∧ m.running = false ∧ m'.continuation = m.continuation ∧
      m'.step.1 = .failed (.of .nextWithoutFor) ∧ m'.step.2.line = none ∧
      m'.nextStatement.2.word? = some .NEXT :=
    ⟨_, _, rfl, rfl, by decide +kernel⟩
  obtain ⟨m, m', hm, hm', hk, hidle, hsame, hfails, hline, hword⟩ := hstate
  have hreachable : Reachable LoadsIdle m := hm ▸ .call (reachable_entered _) (.execute 4) nofun
  have hreachable' : Reachable LoadsIdle m' := hm' ▸ .call hreachable (.enter "NEXT") nofun
  obtain ⟨l, -, -, hcont⟩ := (continuation_of_reachable hreachable).1 _ hk
  obtain ⟨m₁, m₂, henter, hstep, -, hposition, -, hhandling⟩ := hcont hidle
  refine ⟨m, m', hm, hm', hreachable, hreachable', hk, hidle, ⟨m₁, m₂, henter, hstep, hposition, hhandling⟩,
    hfails, (continuation_of_reachable hreachable').2 (fun d w hd hw => ?_) hline, hsame⟩
  obtain ⟨-, s, hs, hopens⟩ := hd
  rw [hs] at hword
  cases hopens with
  | refl =>
    cases hword.symm.trans hw
    decide
  | again hone => cases hword.symm.trans (word?_of_again hone)

end Machine

end LineBasic
