import LineBasic.Machine.Session
import LineBasic.Proofs.Machine.Advance

/-! The states that a session can lead to. As long as a program is put in place only while nothing runs,
the cursor of a run stands in the line that is executed, and an error handler serves a statement of the
program. -/

namespace LineBasic

/-- What a host may do with a machine. -/
inductive Call where
  | enter (s : String)
  | load (s : String)
  | type (s : String)
  | interrupt
  | execute (n : Nat)
  | step
  | takeOutput
  /-- Read an expression, a variable or a line number at the cursor. -/
  | expression
  | target
  | lineNumber

namespace Machine

def call (m : Machine) : Call → Machine
  | .enter s => (m.enter s).2
  | .load s => (m.load s).2
  | .type s => m.type s
  | .interrupt => m.interrupt
  | .execute n => (m.execute n).2
  | .step => m.step.2
  | .takeOutput => m.takeOutput.2
  | .expression => (Exec.expression m).2
  | .target => (Exec.target m).2
  | .lineNumber => (Exec.onWorkspace Eval.lineNumber? m).2

/-- The states of sessions in which every call is allowed where it is made. -/
inductive Reachable (allowed : Machine → Call → Prop) : Machine → Prop
  | fresh (random : Random) : Reachable allowed { random }
  | call {m : Machine} (h : Reachable allowed m) (c : Call) (hc : allowed m c) :
      Reachable allowed (m.call c)

/-- The states to which allowed calls lead from a given one. -/
inductive Proceeds (allowed : Machine → Call → Prop) (m₀ : Machine) : Machine → Prop
  | refl : Proceeds allowed m₀ m₀
  | call {m : Machine} (h : Proceeds allowed m₀ m) (c : Call) (hc : allowed m c) : Proceeds allowed m₀ (m.call c)

/-- No program is loaded while one runs. -/
def LoadsIdle (m : Machine) (c : Call) : Prop := ∀ s, c = .load s → m.running = false

theorem reachable_entered (lines : List String) : Reachable LoadsIdle (entered lines) := by
  have hfold : ∀ m, Reachable LoadsIdle m →
      Reachable LoadsIdle (lines.foldl (fun m s => (m.enter s).2) m) := by
    induction lines with
    | nil => exact fun _ hm => hm
    | cons s lines ih => exact fun m hm => ih _ (.call hm (.enter s) nofun)
  exact hfold _ (.fresh _)

/-- What holds in every such session. -/
structure Sound (m : Machine) : Prop where
  walks : m.running = true → m.Walks
  waits : m.inquiry.isSome → m.running = true ∧ m.statement.line = m.line
  failed : ∀ f, m.failure = some f → f.statement.line.isSome

/-- A run that stands at a statement. -/
structure Poised (m : Machine) : Prop where
  running : m.running = true
  walks : m.Walks
  answered : m.inquiry = none
  statement : m.statement.line = m.line
  failed : ∀ f, m.failure = some f → f.statement.line.isSome

open Statement

variable {m m' : Machine}

theorem Poised.failure {jumps registers : Bool} (hm : m.Poised) (h : Change jumps registers m m') :
    ∀ f, m'.failure = some f → f.statement.line.isSome := by
  intro f hf
  rcases h.failure with hsame | hnone
  · exact hm.failed f (hsame ▸ hf)
  · rw [hnone] at hf
    cases hf

theorem sound_stop (h : ∀ f, m.failure = some f → f.statement.line.isSome) {k : Option Continuation}
    {t : Tape} : Sound { m.stop with continuation := k, tape := t } :=
  ⟨nofun, nofun, h⟩

theorem sound_halt (h : ∀ f, m.failure = some f → f.statement.line.isSome) (why : Halt) :
    (m.halt why).2.Sound := by
  obtain ⟨k, t, heq⟩ := halt_eq m why
  rw [heq]
  exact sound_stop h

theorem sound_fail (h : ∀ f, m.failure = some f → f.statement.line.isSome) (c : Condition) :
    (m.fail c).2.Sound := by
  obtain ⟨k, t, heq⟩ := fail_eq m c
  rw [heq]
  exact sound_stop h

theorem Poised.sound_raise (hm : m.Poised) {registers : Bool} (h : Change false registers m m')
    (c : Condition) : (m'.raise c).2.Sound := by
  have hfailure := hm.failure h
  have hstatement : m'.isDirect = false → m'.statement.line.isSome := by
    intro hdirect
    rw [h.statement, hm.statement, ← h.line]
    exact Option.isSome_iff_ne_none.mpr fun hline => by simp [isDirect, hline] at hdirect
  have hraised := raised m' c
  generalize m'.raise c = r at hraised ⊢
  cases hraised with
  | uncaught => exact sound_fail hfailure _
  | handled ht hd hh htokens =>
    refine ⟨fun _ => ?_, nofun, fun f hf => ?_⟩
    · exact htokens.trans (congrArg Except.ok (Cursor.tokens_atToken _ _).symm)
    · cases hf
      exact hstatement hd
  | astray ht hd =>
    refine sound_fail (fun f hf => ?_) _
    cases hf
    exact hstatement hd

theorem Poised.sound_usual (hm : m.Poised) {registers : Bool} {r : Except Condition Flow × Machine}
    (h : Usual registers m r) : (tell r).2.Sound := by
  have hsound : ∀ {jumps m'}, Change jumps registers m m' → m'.Sound := by
    intro jumps m' hchange
    refine ⟨fun _ => hchange.walks hm.walks, ?_, hm.failure hchange⟩
    rw [hchange.inquiry hm.answered]
    exact nofun
  cases h with
  | @reached flow m' h =>
    cases flow with
    | halted why => exact sound_halt (hm.failure h) why
    | done | again | moved | waiting => exact hsound h
  | failed h => exact hm.sound_raise h _
  | waits h =>
    refine ⟨fun _ => h.walks hm.walks, fun _ => ⟨h.running.trans hm.running, ?_⟩,
      fun f hf => hm.failure h f hf⟩
    exact (congrArg Position.line h.statement).trans (hm.statement.trans h.line.symm)

theorem Poised.sound_outcome (hm : m.Poised) {r : Except Condition Flow × Machine}
    (h : Outcome m r) : (tell r).2.Sound := by
  cases h with
  | usual h => exact hm.sound_usual h
  | @deleted d r w h hline hr =>
    have hdirect : d.tokensOf none = .ok d.cursor.tokens := by
      rw [← hline]
      exact h.change.walks hm.walks
    have htokens : w.cursor.tokens = d.cursor.tokens := by
      have hpast := Forward.lineRange.snd (Past.refl d.pastWord.toWorkspace)
      rw [hr] at hpast
      exact hpast.tokens.trans (Cursor.tokens_advance d.cursor)
    refine ⟨fun _ => ?_, ?_, fun f hf => hm.failure h.change f hf⟩
    · show (deleted d.pastWord r w).tokensOf d.line = .ok w.cursor.tokens
      rw [hline, htokens]
      exact hdirect
    · show d.inquiry.isSome → _
      rw [h.change.inquiry hm.answered]
      exact nofun
  | @misread d r w h _ hline hr =>
    have hdirect : (deleted d.pastWord r w).isDirect = true := congrArg Option.isNone hline
    have hraise := raise_of_uncaught (.of .syntaxError) (.inl hdirect)
    show ((deleted d.pastWord r w).raise (.of .syntaxError)).2.Sound
    rw [hraise]
    exact sound_fail (m := deleted d.pastWord r w) (fun f hf => hm.failure h.change f hf) _
  | @erased d => exact sound_halt (m := erased d.pastWord) (fun f hf => by cases hf) _

theorem Sound.poised_poll (hm : m.Sound) {q : Inquiry} (hq : m.inquiry = some q) :
    Poised { m with inquiry := none } := by
  obtain ⟨hrunning, hstatement⟩ := hm.waits (by rw [hq]; rfl)
  exact ⟨hrunning, hm.walks hrunning, rfl, hstatement, hm.failed⟩

theorem Sound.poised_next (hm : m.Sound) (hrunning : m.running = true) (hq : m.inquiry = none)
    (hs : m.nextStatement = (true, m')) : m'.Poised := by
  have hsought := sought_of_next hs
  have hstatement : m'.statement.line = m'.line := congrArg Position.line (statement_of_next hs)
  refine ⟨?_, hsought.walks (hm.walks hrunning), ?_, hstatement, ?_⟩
  all_goals rw [hsought.eq]
  · exact hrunning
  · exact hq
  · exact hm.failed

theorem Sound.step (hm : m.Sound) : m.step.2.Sound := by
  cases hrunning : m.running with
  | false =>
    rw [step_of_idle hrunning]
    exact hm
  | true =>
    rw [step_eq hrunning]
    have hadvance := advanced m
    generalize m.advance = r at hadvance ⊢
    cases hadvance with
    | broken => exact sound_halt (m := m.takeBreak) hm.failed _
    | @polled q _ hq => exact (hm.poised_poll hq).sound_usual (pollInput_usual true q _)
    | @finished s _ _ hs =>
      refine sound_halt (m := s) ?_ _
      rw [(sought_of_next hs).eq]
      exact hm.failed
    | executed _ hq hs => exact (hm.poised_next hrunning hq hs).sound_outcome (dispatch_outcome _ _)

/-! ## Runs in the program -/

theorem Poised.deferred_raise (hm : m.Poised) (hd : m.Deferred) {registers : Bool}
    (h : Change false registers m m') (c : Condition) (hrunning : (m'.raise c).2.running = true) :
    (m'.raise c).2.Deferred := by
  have hd' : m'.Deferred := h.deferred hd
  have hraised := raised m' c
  generalize m'.raise c = r at hraised hrunning ⊢
  cases hraised with
  | uncaught | astray => cases (running_fail _ _).symm.trans hrunning
  | handled =>
    refine ⟨rfl, fun f hf => hd'.frames f (List.mem_of_mem_drop hf), fun f hf => ?_⟩
    cases hf
    show m'.statement.line.isSome
    rw [h.statement, hm.statement]
    exact hd.line

theorem Poised.deferred_usual (hm : m.Poised) (hd : m.Deferred) {registers : Bool}
    {r : Except Condition Flow × Machine} (h : Usual registers m r)
    (hrunning : (tell r).2.running = true) : (tell r).2.Deferred := by
  cases h with
  | @reached flow m' h =>
    cases flow with
    | halted why => cases (running_halt m' why).symm.trans hrunning
    | done | again | moved | waiting => exact h.deferred hd
  | failed h => exact hm.deferred_raise hd h _ hrunning
  | waits h =>
    have hd' := h.deferred hd
    exact ⟨hd'.line, hd'.frames, hd'.failure⟩

/-- A run in the program stays there. -/
theorem Deferred.step (hd : m.Deferred) (hm : m.Sound) (hrunning : m.step.2.running = true) :
    m.step.2.Deferred := by
  cases hr : m.running with
  | false =>
    rw [step_of_idle hr]
    exact hd
  | true =>
    rw [step_eq hr] at hrunning ⊢
    have hadvance := advanced m
    generalize m.advance = r at hadvance hrunning ⊢
    cases hadvance with
    | broken => cases (running_halt m.takeBreak .interrupted).symm.trans hrunning
    | @finished s => cases (running_halt s .finished).symm.trans hrunning
    | @polled q _ hq =>
      have hd' : ({ m with inquiry := none } : Machine).Deferred := ⟨hd.line, hd.frames, hd.failure⟩
      exact (hm.poised_poll hq).deferred_usual hd' (pollInput_usual true q _) hrunning
    | @executed s _ hq hs =>
      have hd' : s.Deferred := (sought_of_next hs).deferred hd
      have houtcome := dispatch_outcome (s.cursor.rest.length + 1) s
      generalize dispatch (s.cursor.rest.length + 1) s = r at houtcome hrunning ⊢
      cases houtcome with
      | usual h => exact (hm.poised_next hr hq hs).deferred_usual hd' h hrunning
      | deleted h hline | misread h _ hline =>
        have hsome := (h.change.deferred hd').line
        rw [hline] at hsome
        cases hsome
      | @erased d => cases (running_halt (erased d.pastWord) .finished).symm.trans hrunning

/-! ## Calls -/

/-- What is left of the stack points into the program. -/
theorem forgetDirectFrames_eq (m : Machine) : ∃ frames t,
    m.forgetDirectFrames = { m with stack := { m.stack with items := frames }, trap := t } ∧
      frames <:+ m.stack.items ∧ ∀ f ∈ frames, f.position.line.isSome := by
  have hsome : ∀ f : Frame, f.position.isDirect = false → f.position.line.isSome := by
    intro f hf
    rw [← Option.not_isNone]
    exact congrArg (!·) hf
  rw [forgetDirectFrames]
  split
  · rename_i i hi
    obtain ⟨hlt, -, hbefore⟩ := List.findIdx?_eq_some_iff_getElem.mp hi
    refine ⟨_, _, rfl, List.drop_suffix _ _, fun f hf => hsome f ?_⟩
    have hmem : f ∈ m.stack.bottomFirst.take i := by
      rw [Stack.bottomFirst, List.take_reverse, List.mem_reverse]
      exact hf
    obtain ⟨j, hj, rfl⟩ := List.mem_take_iff_getElem.mp hmem
    exact Bool.eq_false_iff.mpr (hbefore j (by omega))
  · rename_i hnone
    refine ⟨_, _, rfl, List.suffix_refl _, fun f hf => hsome f ?_⟩
    exact List.findIdx?_eq_none_iff.mp hnone f (List.mem_reverse.mpr hf)

/-- What may become of a typed line: it is refused, there is nothing in it, it starts to run, or it goes into
the program. -/
inductive Taken (m : Machine) (s : String) : Bool × Machine → Prop
  | refused (c : Condition) : Taken m s (false, m.refuse c)
  | blank : Taken m s (false, m)
  | started {frames : List Frame} {t : Option Trap} (tokens : List Token) (hidle : m.running = false)
      (hframes : frames <:+ m.stack.items) (hsome : ∀ f ∈ frames, f.position.line.isSome) :
      Taken m s (true, { m with
        stack := { m.stack with items := frames }, trap := t, direct := tokens, line := none
        cursor := .start tokens, running := true })
  | stored {l : Line} (hidle : m.running = false) (htext : Line.ofText s = .ok l) :
      Taken m s (true, { m with program := m.program.enter l, continuation := none })

theorem taken (m : Machine) (s : String) : Taken m s (m.enter s) := by
  rw [enter]
  split
  · exact .refused _
  · rename_i l htext
    split
    · exact .refused _
    · rename_i hrunning
      have hidle : m.running = false := Bool.eq_false_iff.mpr hrunning
      split
      · split
        · exact .blank
        · obtain ⟨frames, t, hforget, hframes, hsome⟩ := forgetDirectFrames_eq m
          rw [startDirect, hforget]
          exact .started l.tokens hidle hframes hsome
      · exact .stored hidle htext

theorem Sound.answered (hm : m.Sound) (hidle : m.running = false) : m.inquiry = none := by
  cases hq : m.inquiry with
  | none => rfl
  | some q =>
    have hrunning := (hm.waits (by rw [hq]; rfl)).1
    rw [hidle] at hrunning
    cases hrunning

theorem Sound.enter (hm : m.Sound) (s : String) : (m.enter s).2.Sound := by
  have htaken := taken m s
  generalize m.enter s = r at htaken ⊢
  cases htaken with
  | refused => exact ⟨hm.walks, hm.waits, hm.failed⟩
  | blank => exact hm
  | started tokens hidle =>
    refine ⟨fun _ => rfl, ?_, hm.failed⟩
    show m.inquiry.isSome → _
    rw [hm.answered hidle]
    exact nofun
  | stored hidle =>
    refine ⟨fun hrunning => ?_, hm.waits, hm.failed⟩
    cases hidle.symm.trans hrunning

theorem Sound.load (hm : m.Sound) (hidle : m.running = false) (s : String) : (m.load s).2.Sound := by
  rw [Machine.load]
  split
  · exact hm
  · refine ⟨fun h => ?_, nofun, nofun⟩
    have hrunning : m.running = true := h
    rw [hidle] at hrunning
    cases hrunning

/-- Reading at the cursor keeps a session sound. -/
theorem Sound.onWorkspace {α : Type} (hm : m.Sound) {x : Eval α} (hx : ∀ {w}, Steady id (Past w) x) :
    (Exec.onWorkspace x m).2.Sound := by
  have hpast := hx.snd (Past.refl m.toWorkspace)
  refine ⟨fun hrunning => ?_, hm.waits, hm.failed⟩
  exact (hm.walks hrunning).trans (congrArg Except.ok hpast.tokens.symm)

theorem Sound.call (hm : m.Sound) {c : Call} (hc : m.LoadsIdle c) : (m.call c).Sound := by
  cases c with
  | enter s => exact hm.enter s
  | load s => exact hm.load (hc s rfl) s
  | type s => exact ⟨hm.walks, hm.waits, hm.failed⟩
  | interrupt =>
    rw [Machine.call, interrupt]
    split
    · exact ⟨hm.walks, hm.waits, hm.failed⟩
    · exact hm
  | execute n =>
    rw [Machine.call, execute]
    split
    · exact ⟨hm.walks, hm.waits, hm.failed⟩
    · exact steps_induct (fun _ => Sound.step) hm n
  | step => exact hm.step
  | takeOutput => exact ⟨hm.walks, hm.waits, hm.failed⟩
  | expression => exact hm.onWorkspace (x := Expression.evaluate m.context) (Forward.evaluate m.context)
  | target => exact hm.onWorkspace (x := Expression.target m.context) (Forward.target m.context)
  | lineNumber => exact hm.onWorkspace Forward.lineNumber?

theorem Reachable.sound (h : Reachable LoadsIdle m) : m.Sound := by
  induction h with
  | fresh => exact ⟨nofun, nofun, nofun⟩
  | call _ c hc ih => exact ih.call hc

end Machine

end LineBasic
