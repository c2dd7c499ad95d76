import LineBasic.Proofs.Machine.Reachable
import LineBasic.Proofs.Statement.Footprint

/-! The registers that control a run, over a whole session: what nothing is left of when a run has ended,
when an `INPUT` may wait, and which conditions are on record. -/

namespace LineBasic.Machine

open Statement

/-- Where a handler is active, or would be after `CONT`, a condition is on record that it serves. -/
structure Accounted (failure : Option Failure) (handling : Bool) (continuation : Option Continuation) :
    Prop where
  active : handling = true → failure.isSome
  resumed : ∀ k, continuation = some k → k.handling = true → failure.isSome

/-- The registers between two calls. -/
structure Regular (m : Machine) : Prop where
  idle : m.running = false → m.inquiry = none ∧ m.breakRequested = false ∧ m.handling = false
  waits : m.inquiry.isSome → m.running = true ∧ m.line.isSome
  accounted : Accounted m.failure m.handling m.continuation
  depth : m.depth = 0

/-- The registers within a step. -/
structure Active (m : Machine) : Prop where
  running : m.running = true
  unbroken : m.breakRequested = false
  accounted : Accounted m.failure m.handling m.continuation
  depth : m.depth = 0

variable {m m' : Machine}

/-! ## Statements -/

theorem Active.makes {a : Action} (h : m.Makes a m') (hm : m.Active) : m'.Active := by
  obtain ⟨hrunning, hunbroken, haccounted, hdepth⟩ := hm
  cases h with
  | scan hw => exact ⟨hrunning, hunbroken, haccounted, hw.depth.trans hdepth⟩
  | clear | erase => exact ⟨hrunning, rfl, ⟨nofun, nofun⟩, hdepth⟩
  | leave => exact ⟨hrunning, hunbroken, ⟨nofun, haccounted.resumed⟩, hdepth⟩
  | cont _ hk => exact ⟨hrunning, hunbroken, ⟨haccounted.resumed _ hk, nofun⟩, hdepth⟩
  | contAstray | delete => exact ⟨hrunning, hunbroken, ⟨haccounted.active, nofun⟩, hdepth⟩
  | _ => exact ⟨hrunning, hunbroken, haccounted, hdepth⟩

/-- Only one action makes an `INPUT` wait. -/
theorem answered_makes {a : Action} (ha : a ≠ .inquire) (h : m.Makes a m') (hm : m.inquiry = none) :
    m'.inquiry = none := by
  cases h with
  | inquire => exact absurd rfl ha
  | clear | erase => rfl
  | _ => exact hm

theorem inquire_mem_actions {w : Word} (h : .inquire ∈ w.actions) : w = .INPUT := by
  cases w <;> simp [Word.actions] at h ⊢

/-- An `INPUT` waits only in the program. -/
theorem line_of_input (hm : m.inquiry = none) (h : (input m).2.inquiry.isSome) : (input m).2.line.isSome := by
  cases hline : m.line with
  | none =>
    have hrefuse : Exec.refuseDirect m = (.error (.of .illegalDirect), m) := by
      rw [Exec.refuseDirect, bind_get, isDirect, hline]
      rfl
    have hinput : input m = (.error (.of .illegalDirect), m) := bind_of_error (bind_of_error hrefuse)
    rw [hinput, hm] at h
    cases h
  | some n =>
    have hkeeps : ∀ a ∈ [Action.scan, .tape, .inquire], a.Keeps fun m : Machine => m.line.isSome := by
      intro a ha m m' h hm
      cases h with
      | scan | tape | inquire => exact hm
      | _ => simp at ha
    exact (Acts.ofWord (w := .INPUT) hkeeps).snd (by rw [hline]; rfl)

/-- What a statement leads to. -/
structure Executed (m : Machine) : Prop extends m.Active where
  waits : m.inquiry.isSome → m.line.isSome

theorem Active.executed (hm : m.Active) (hq : m.inquiry = none) : m.Executed :=
  ⟨hm, by rw [hq]; exact nofun⟩

theorem Active.dispatch (hm : m.Active) (hq : m.inquiry = none) (n : Nat) : (dispatch n m).2.Executed := by
  have hkeeps : ∀ {a : Action}, a ≠ .inquire → a.Keeps fun m : Machine => m.Active ∧ m.inquiry = none :=
    fun ha _ _ h hm => ⟨hm.1.makes h, answered_makes ha h hm.2⟩
  refine dispatch_induct (P := fun m => m.Active ∧ m.inquiry = none) (fun a ha => hkeeps ?_)
    (fun d hd => hd.1.executed hd.2) (fun d _ hd => ?_) ⟨hm, hq⟩ n
  · rintro rfl
    cases inquire_mem_actions ha
  · by_cases hword : d.word? = some .INPUT
    · refine ⟨one_keeps (fun a _ => Active.makes) hd.1, ?_⟩
      rw [one_of_word? hword]
      exact line_of_input (m := d.pastWord) hd.2
    · have hone := one_keeps (m := d) (fun a ha => hkeeps (a := a) ?_) hd
      · exact hone.1.executed hone.2
      · rintro rfl
        rw [actions] at ha
        split at ha
        · rename_i w hw
          rcases List.mem_cons.mp ha with heq | ha
          · cases heq
          · exact hword (hw.trans (congrArg some (inquire_mem_actions ha)))
        · simp at ha

theorem Active.pollInput (hm : m.Active) (hline : m.line.isSome) (q : Inquiry) :
    (pollInput q m).2.Executed := by
  have hkeeps : ∀ {a : Action}, a ∈ [Action.scan, .tape, .inquire] →
      a.Keeps fun m : Machine => m.Active ∧ m.line.isSome := by
    intro a ha m m' h hm
    refine ⟨hm.1.makes h, ?_⟩
    cases h with
    | scan | tape | inquire => exact hm.2
    | _ => simp at ha
  have hpoll := (Acts.pollInput (hkeeps (by simp)) (hkeeps (by simp)) (hkeeps (by simp)) q).snd ⟨hm, hline⟩
  exact ⟨hpoll.1, fun _ => hpoll.2⟩

/-! ## A step -/

theorem Active.regular_stop (hm : m.Active) {k : Option Continuation} {t : Tape}
    (hk : ∀ k', k = some k' → k'.handling = true → m.failure.isSome) :
    Regular { m.stop with continuation := k, tape := t } :=
  ⟨fun _ => ⟨rfl, hm.unbroken, rfl⟩, nofun, ⟨nofun, hk⟩, hm.depth⟩

theorem Active.regular_halt (hm : m.Active) (why : Halt) : (m.halt why).2.Regular := by
  have hcont := continues_of_end (Q := fun k => k.handling = true → m.failure.isSome)
    (continuation_halt m why) hm.accounted.resumed fun _ => hm.accounted.active
  obtain ⟨k, t, heq⟩ := halt_eq m why
  rw [heq] at hcont ⊢
  exact hm.regular_stop hcont

theorem Active.regular_fail (hm : m.Active) (c : Condition) : (m.fail c).2.Regular := by
  have hcont := continues_of_end (Q := fun k => k.handling = true → m.failure.isSome)
    (continuation_fail m c) hm.accounted.resumed fun _ => nofun
  obtain ⟨k, t, heq⟩ := fail_eq m c
  rw [heq] at hcont ⊢
  exact hm.regular_stop hcont

theorem Active.serving (hm : m.Active) (c : Condition) (t : Trap) : (m.serving c t).Active :=
  ⟨hm.running, hm.unbroken, ⟨fun _ => rfl, fun _ _ _ => rfl⟩, hm.depth⟩

theorem Active.regular_raise (hm : m.Active) (c : Condition) : (m.raise c).2.Regular := by
  have hraised := raised m c
  generalize m.raise c = r at hraised ⊢
  cases hraised with
  | uncaught => exact hm.regular_fail _
  | @handled t _ =>
    have hserving := hm.serving (c.within m.line) t
    refine ⟨fun hidle => ?_, nofun, hserving.accounted, hserving.depth⟩
    cases hm.running.symm.trans hidle
  | @astray t _ => exact (hm.serving (c.within m.line) t).regular_fail _

theorem Executed.regular (hm : m.Executed) : m.Regular := by
  refine ⟨fun hidle => ?_, fun hq => ⟨hm.running, hm.waits hq⟩, hm.accounted, hm.depth⟩
  cases hm.running.symm.trans hidle

theorem Executed.regular_tell {r : Except Condition Flow × Machine} (hm : r.2.Executed) :
    (tell r).2.Regular := by
  obtain ⟨c | flow, m⟩ := r
  · exact hm.toActive.regular_raise c
  · cases flow with
    | halted why => exact hm.toActive.regular_halt why
    | done | again | moved | waiting => exact hm.regular

theorem Active.sought (hm : m.Active) (h : m.Sought m') : m'.Active := by
  rw [h.eq]
  exact ⟨hm.running, hm.unbroken, hm.accounted, hm.depth⟩

theorem Regular.step (hm : m.Regular) : m.step.2.Regular := by
  cases hrunning : m.running with
  | false =>
    rw [step_of_idle hrunning]
    exact hm
  | true =>
    rw [step_eq hrunning]
    have hadvance := advanced m
    generalize m.advance = r at hadvance ⊢
    cases hadvance with
    | broken =>
      have hbreak : m.takeBreak.Active := ⟨hrunning, rfl, hm.accounted, hm.depth⟩
      exact hbreak.regular_halt _
    | @polled q hb hq =>
      have hpoll : ({ m with inquiry := none } : Machine).Active := ⟨hrunning, hb, hm.accounted, hm.depth⟩
      exact (hpoll.pollInput (hm.waits (by rw [hq]; rfl)).2 q).regular_tell
    | @finished s hb hq hs =>
      have hactive : m.Active := ⟨hrunning, hb, hm.accounted, hm.depth⟩
      exact (hactive.sought (sought_of_next hs)).regular_halt _
    | @executed s hb hq hs =>
      have hactive : m.Active := ⟨hrunning, hb, hm.accounted, hm.depth⟩
      have hsought := sought_of_next hs
      have hanswered : s.inquiry = none := by
        rw [hsought.eq]
        exact hq
      exact ((hactive.sought hsought).dispatch hanswered _).regular_tell

/-! ## Calls -/

theorem Regular.onWorkspace {α : Type} (hm : m.Regular) {x : Eval α} (hx : ∀ {w}, Steady id (Past w) x) :
    (Exec.onWorkspace x m).2.Regular :=
  ⟨hm.idle, hm.waits, hm.accounted, (hx.snd (Past.refl m.toWorkspace)).depth.trans hm.depth⟩

theorem Regular.enter (hm : m.Regular) (s : String) : (m.enter s).2.Regular := by
  have htaken := taken m s
  generalize m.enter s = r at htaken ⊢
  cases htaken with
  | refused => exact ⟨hm.idle, hm.waits, hm.accounted, hm.depth⟩
  | blank => exact hm
  | started tokens hidle =>
    refine ⟨nofun, ?_, hm.accounted, hm.depth⟩
    show m.inquiry.isSome → _
    rw [(hm.idle hidle).1]
    exact nofun
  | stored => exact ⟨hm.idle, hm.waits, ⟨hm.accounted.active, nofun⟩, hm.depth⟩

theorem regular_clear (hm : m.depth = 0) : m.clear.Regular :=
  ⟨fun _ => ⟨rfl, rfl, rfl⟩, nofun, ⟨nofun, nofun⟩, hm⟩

theorem Regular.load (hm : m.Regular) (s : String) : (m.load s).2.Regular := by
  rw [Machine.load]
  split
  · exact hm
  · exact regular_clear hm.depth

theorem Regular.call (hm : m.Regular) (c : Call) : (m.call c).Regular := by
  cases c with
  | enter s => exact hm.enter s
  | load s => exact hm.load s
  | type | takeOutput => exact ⟨hm.idle, hm.waits, hm.accounted, hm.depth⟩
  | interrupt =>
    rw [Machine.call, interrupt]
    split
    · rename_i hrunning
      refine ⟨fun hidle => ?_, hm.waits, hm.accounted, hm.depth⟩
      cases hrunning.symm.trans hidle
    · exact hm
  | execute n =>
    rw [Machine.call, execute]
    split
    · exact ⟨hm.idle, hm.waits, hm.accounted, hm.depth⟩
    · exact steps_induct (fun _ => Regular.step) hm n
  | step => exact hm.step
  | expression => exact hm.onWorkspace (x := Expression.evaluate m.context) (Forward.evaluate m.context)
  | target => exact hm.onWorkspace (x := Expression.target m.context) (Forward.target m.context)
  | lineNumber => exact hm.onWorkspace Forward.lineNumber?

theorem Reachable.regular {allowed : Machine → Call → Prop} (h : Reachable allowed m) : m.Regular := by
  induction h with
  | fresh => exact ⟨fun _ => ⟨rfl, rfl, rfl⟩, nofun, ⟨nofun, nofun⟩, rfl⟩
  | call _ c _ ih => exact ih.call c

/-- When nothing runs, no `INPUT` waits, no break is asked for and no handler is active. An `INPUT` waits
only while a line of the program is executed, which is stored as long as no program is loaded while one
runs. Where a handler is active, or would be after `CONT`, a condition is on record. No bracket is left
open. -/
theorem registers_of_reachable {allowed : Machine → Call → Prop} (h : Reachable allowed m) :
    (m.running = false → m.inquiry = none ∧ m.breakRequested = false ∧ m.handling = false) ∧
    (m.inquiry.isSome → m.running = true ∧ m.line.isSome) ∧
    (Reachable LoadsIdle m → m.inquiry.isSome → ∃ l ∈ m.program.lines, m.line = some l.number) ∧
    (m.handling = true → m.failure.isSome) ∧
    (∀ k, m.continuation = some k → k.handling = true → m.failure.isSome) ∧
    m.depth = 0 := by
  have hm := h.regular
  refine ⟨hm.idle, hm.waits, fun hidle hq => ?_, hm.accounted.active, hm.accounted.resumed, hm.depth⟩
  obtain ⟨hrunning, hline⟩ := hm.waits hq
  obtain ⟨n, hn⟩ := Option.isSome_iff_exists.mp hline
  have hwalks := hidle.sound.walks hrunning
  rw [Walks, hn] at hwalks
  obtain ⟨l, hl, hnumber, -⟩ := mem_of_tokensOf hwalks
  exact ⟨l, hl, hn.trans (congrArg some hnumber.symm)⟩

/-- An `INPUT` that waits in a handler. -/
theorem registers_of_reachable_input : ∃ m : Machine,
    m = ((entered ["10 ON ERROR GOTO 30", "20 RETURN", "30 INPUT A", "RUN"]).execute 4).2 ∧
    m.inquiry = some ⟨"", [⟨"A", []⟩]⟩ ∧ m.handling = true ∧ Reachable LoadsIdle m ∧
    (m.running = false → m.inquiry = none ∧ m.breakRequested = false ∧ m.handling = false) ∧
    (m.inquiry.isSome → m.running = true ∧ m.line.isSome) ∧
    (Reachable LoadsIdle m → m.inquiry.isSome → ∃ l ∈ m.program.lines, m.line = some l.number) ∧
    (m.handling = true → m.failure.isSome) ∧
    (∀ k, m.continuation = some k → k.handling = true → m.failure.isSome) ∧
    m.depth = 0 := by
  have hstate : ∃ m : Machine,
      m = ((entered ["10 ON ERROR GOTO 30", "20 RETURN", "30 INPUT A", "RUN"]).execute 4).2 ∧
      m.inquiry = some ⟨"", [⟨"A", []⟩]⟩ ∧ m.handling = true :=
    ⟨_, rfl, by decide +kernel⟩
  obtain ⟨m, hm, hq, hhandling⟩ := hstate
  have hreachable : Reachable LoadsIdle m := hm ▸ .call (reachable_entered _) (.execute 4) nofun
  exact ⟨m, hm, hq, hhandling, hreachable, registers_of_reachable hreachable⟩

end LineBasic.Machine
