import LineBasic.Proofs.Machine.Advance

/-! A step before another background. A run takes no notice of the direct line once it has left it, nor
of what was printed, nor of what is typed ahead, except where an `INPUT` finds nothing typed: there it
goes on before the other background from where it waits. -/

namespace LineBasic

namespace Machine

/-- An `INPUT` waits, and nothing is typed. -/
structure Starved (m : Machine) : Prop where
  running : m.running = true
  unbroken : m.breakRequested = false
  waits : m.inquiry.isSome
  input : m.tape.input = []

instance (m : Machine) : Decidable m.Starved :=
  decidable_of_iff
    (m.running = true ∧ m.breakRequested = false ∧ m.inquiry.isSome ∧ m.tape.input = [])
    ⟨fun ⟨hr, hb, hw, hi⟩ => ⟨hr, hb, hw, hi⟩, fun ⟨hr, hb, hw, hi⟩ => ⟨hr, hb, hw, hi⟩⟩

variable {m : Machine}

theorem advance_of_inquiry {q : Inquiry} (hb : m.breakRequested = false) (hq : m.inquiry = some q) :
    m.advance = Statement.pollInput q { m with inquiry := none } := by
  rw [advance, if_neg (by simp [hb])]
  simp only [hq]

/-- Looking for an answer that is not there changes nothing. -/
theorem Starved.advance (h : m.Starved) : m.advance = (.ok .waiting, m) := by
  obtain ⟨q, hq⟩ := Option.isSome_iff_exists.mp h.waits
  have hpoll := Statement.pollInput_of_nil (m := { m with inquiry := none }) (q := q) h.input
  rw [advance_of_inquiry h.unbroken hq, hpoll]
  show (_, { m with inquiry := some q }) = _
  rw [← hq]

theorem Starved.step (h : m.Starved) : m.step = (.waiting, m) := by
  rw [step_eq h.running, h.advance]
  rfl

theorem Ready.change {jumps registers : Bool} {m' : Machine} (hm : m.Ready)
    (h : Change jumps registers m m') : m'.Ready :=
  ⟨h.running.trans hm.running, h.unbroken hm.unbroken, h.inquiry hm.answered⟩

end Machine

namespace Backdrop

open Machine Statement

variable {b : Backdrop} {m : Machine}

/-! ## The way to the next statement -/

theorem markStatement_behind : (b.behind m).markStatement = m.markStatement.map b.behind := by
  rw [markStatement, markStatement, cursor_behind]
  split <;> rfl

theorem seekStatement_behind (lines : List ProgramLine) : (b.behind m).seekStatement lines =
    ((m.seekStatement lines).1, b.behind (m.seekStatement lines).2) := by
  induction lines generalizing m with
  | nil => rfl
  | cons l rest ih =>
    have hmark := markStatement_behind (b := b) (m := (m.enterLine l).skipColons)
    have henter : ((b.behind m).enterLine l).skipColons = b.behind (m.enterLine l).skipColons := rfl
    rw [seekStatement, seekStatement, henter, hmark]
    cases (m.enterLine l).skipColons.markStatement with
    | some s => rfl
    | none => exact ih

theorem nextStatement_behind :
    (b.behind m).nextStatement = (m.nextStatement.1, b.behind m.nextStatement.2) := by
  have hmark := markStatement_behind (b := b) (m := m.skipColons)
  have hskip : (b.behind m).skipColons = b.behind m.skipColons := rfl
  rw [nextStatement, nextStatement, hskip, hmark]
  cases m.skipColons.markStatement with
  | some s => rfl
  | none => exact seekStatement_behind _

/-! ## One statement or one look for an answer -/

/-- What comes of a machine before this background, if `r` comes of it before its own: the same, or
where it waits with nothing typed, what comes of it from there. -/
def Follows (b : Backdrop) (r r' : Except Condition Flow × Machine) : Prop :=
  r' = (r.1, b.behind r.2) ∨
    (r.1 = .ok .waiting ∧ r.2.Starved ∧ r' = (b.behind r.2).advance)

theorem settle_behind (flow : Flow) :
    settle flow (b.behind m) = ((settle flow m).1, b.behind (settle flow m).2) := by
  cases flow with
  | done =>
    have hend : Stays b true m (liftM Eval.endStatement) := Acts.onWorkspace scans Forward.endStatement
    exact (hend.before (fun _ => Steady.pure _) m .refl).1
  | _ => rfl

theorem bind_settle_behind {x : Exec Flow} (h : x (b.behind m) = ((x m).1, b.behind (x m).2)) :
    (x >>= settle) (b.behind m) = (((x >>= settle) m).1, b.behind ((x >>= settle) m).2) := by
  cases hx : x m with
  | mk r m' =>
    rw [hx] at h
    cases r with
    | error c => rw [bind_of_error hx, bind_of_error h]
    | ok flow =>
      rw [bind_of_ok hx, bind_of_ok h]
      exact settle_behind flow

theorem settle_settle (flow : Flow) : settle flow >>= settle = settle flow := by
  funext m
  rcases settle_cases flow m with h | ⟨-, -, h⟩
  · exact bind_of_ok h
  · rw [bind_of_error h, h]

/-- A look for an answer leaves nothing to settle. -/
theorem pollInput_settle (q : Inquiry) : pollInput q >>= settle = pollInput q := by
  rw [pollInput, bind_assoc]
  refine congrArg (poll q >>= ·) (funext fun waiting => ?_)
  cases waiting with
  | some q => rfl
  | none => exact settle_settle .done

theorem input_settle : Statement.input >>= settle = inquire >>= pollInput := by
  rw [Statement.input, bind_assoc]
  exact congrArg (inquire >>= ·) (funext pollInput_settle)

theorem pollInput_follows (hm : m.Ready) (q : Inquiry) :
    b.Follows (pollInput q m) (pollInput q (b.behind m)) := by
  by_cases hinput : m.tape.input = []
  · refine .inr ?_
    rw [pollInput_of_nil hinput]
    refine ⟨rfl, ⟨hm.running, hm.unbroken, rfl, hinput⟩, ?_⟩
    have hanswered : { b.behind m with inquiry := none } = b.behind m := by
      rw [← hm.answered]
      rfl
    rw [advance_of_inquiry (m := b.behind { m with inquiry := some q }) hm.unbroken rfl]
    exact congrArg (pollInput q) hanswered.symm
  · exact .inl (pollInput_at (.refl : Change false true m m) (.inr hinput) q).1

theorem input_follows (hm : m.Ready) :
    b.Follows ((Statement.input >>= settle) m) ((Statement.input >>= settle) (b.behind m)) := by
  have hinquire := Acts.inquire (b := b) tapes scans m (.refl : Change false true m m)
  rw [input_settle]
  cases hq : inquire m with
  | mk r s =>
    cases r with
    | error c =>
      rw [bind_of_error hq, bind_of_error (hinquire.error hq).1]
      exact .inl rfl
    | ok q =>
      obtain ⟨hbehind, hchange⟩ := hinquire.ok hq
      rw [bind_of_ok hq, bind_of_ok hbehind]
      exact pollInput_follows (hm.change hchange) q

theorem one_follows {d : Machine} (hb : b.Spares d) (hd : d.Ready) :
    b.Follows ((one >>= settle) d) ((one >>= settle) (b.behind d)) := by
  rcases d.apart_or_not with ⟨w, hword, hw⟩ | hnone
  · rw [settled_of_word? hword, settled_of_word? (m := b.behind d) hword]
    cases w with
    | DELETE => exact .inl (bind_settle_behind (delete_at b d.pastWord).1)
    | INPUT => exact input_follows (m := d.pastWord) ⟨hd.running, hd.unbroken, hd.answered⟩
    | NEW => exact .inl (bind_settle_behind (new_at b d.pastWord).1)
    | _ => cases hw
  · exact .inl (bind_settle_behind (one_at hb (.refl : Change false true d d) hnone fun _ _ _ => rfl).1)

theorem dispatch_follows (hb : b.Spares m) (hm : m.Ready) (n : Nat) :
    b.Follows (dispatch n m) (dispatch n (b.behind m)) := by
  obtain ⟨d, x, hd, hx, hrun⟩ := dispatch_ends n m
  have hown : dispatch n m = x d := hrun .own (own_spares m)
  rw [hown, hrun b hb]
  rcases hx with rfl | rfl
  · exact .inl (settle_behind .done)
  · exact one_follows (hb.after hd.change) (hm.change hd.change)

theorem advance_follows (hb : b.Spares m) (hm : m.running = true) :
    b.Follows m.advance (b.behind m).advance := by
  cases hbreak : m.breakRequested with
  | true =>
    rw [advance, advance, if_pos hbreak, if_pos (show (b.behind m).breakRequested = true from hbreak)]
    exact .inl rfl
  | false =>
    cases hq : m.inquiry with
    | some q =>
      rw [advance_of_inquiry hbreak hq, advance_of_inquiry (m := b.behind m) hbreak hq]
      exact pollInput_follows (m := { m with inquiry := none }) ⟨hm, hbreak, rfl⟩ q
    | none =>
      have hready : m.Ready := ⟨hm, hbreak, hq⟩
      rw [hready.advance_eq, Ready.advance_eq (m := b.behind m) ⟨hm, hbreak, hq⟩, nextStatement_behind]
      cases hnext : m.nextStatement with
      | mk found s =>
        have hs : m.Sought s := sought_of_next hnext
        cases found with
        | false => exact .inl rfl
        | true =>
          have hready' : s.Ready := by
            rw [hs.eq]
            exact ⟨hm, hbreak, hq⟩
          exact dispatch_follows (hb.imp_right hs.deferred) hready' _

/-! ## What the host is told -/

/-- What a machine before this background tells, if before its own it tells `r`: the same, and the state
differs in the background alone. At the end of a run the place to continue from is a new one. -/
def Tells (b : Backdrop) (r r' : Event × Machine) : Prop :=
  ∃ k, r' = (r.1, { b.behind r.2 with continuation := k }) ∧
    (b.continuation = id ∨ r.2.running = true → k = b.continuation r.2.continuation)

theorem Tells.refl (e : Event) (m : Machine) : b.Tells (e, m) (e, b.behind m) :=
  ⟨b.continuation m.continuation, rfl, fun _ => rfl⟩

/-- A run that ends, here with a place to continue from or without one. -/
theorem tells_stop {e : Event} {t : Tape} {k k' : Option Continuation}
    (h : b.continuation = id → k' = k) :
    b.Tells (e, { m.stop with continuation := k, tape := t })
      (e, { (b.behind m).stop with continuation := k', tape := b.onTape t }) := by
  refine ⟨k', rfl, ?_⟩
  rintro (hid | hrunning)
  · rw [h hid, hid]
    rfl
  · cases hrunning

theorem continuation_kept (h : b.continuation = id) : b.continuation m.continuation = m.continuation :=
  congrFun h m.continuation

theorem halt_tells (why : Halt) : b.Tells (m.halt why) ((b.behind m).halt why) := by
  have hdirect : (b.behind m).isDirect = m.isDirect := rfl
  cases why with
  | finished | ended =>
    simp only [halt, hdirect]
    split
    · exact tells_stop (t := m.tape) continuation_kept
    · exact tells_stop (t := m.tape) fun _ => rfl
  | interrupted =>
    have hreport := b.report_onTape m.tape ⟨.interrupted, m.line, ""⟩
    simp only [halt, hdirect]
    split
    · exact hreport ▸ tells_stop (t := m.tape.report _) continuation_kept
    · exact hreport ▸ tells_stop (t := m.tape.report _) fun _ => rfl
  | system => exact tells_stop (t := m.tape) continuation_kept

theorem fail_tells (c : Condition) : b.Tells (m.fail c) ((b.behind m).fail c) := by
  have hdirect : (b.behind m).isDirect = m.isDirect := rfl
  have hreport := b.report_onTape m.tape c
  simp only [fail, hdirect]
  split
  · exact hreport ▸ tells_stop (t := m.tape.report _) continuation_kept
  · split
    · exact hreport ▸ tells_stop (t := m.tape.report _) fun _ => rfl
    · exact hreport ▸ tells_stop (t := m.tape.report _) fun _ => rfl

theorem enterHandler_behind (c : Condition) (t : Trap) : (b.behind m).enterHandler c t =
    ((m.enterHandler c t).1, b.behind (m.enterHandler c t).2) := by
  have henter : m.enterHandler c t = Exec.jump ⟨some t.line, 0⟩ (m.serving c t) := rfl
  have hbehind : (b.behind m).enterHandler c t =
      Exec.jump ⟨some t.line, 0⟩ (b.behind (m.serving c t)) := rfl
  rw [henter, hbehind]
  cases htokens : (m.serving c t).tokensOf (some t.line) with
  | ok tokens =>
    have htokens' : (b.behind (m.serving c t)).tokensOf (some t.line) = .ok tokens := htokens
    rw [Exec.jump_of_ok (p := ⟨some t.line, 0⟩) htokens, Exec.jump_of_ok (p := ⟨some t.line, 0⟩) htokens']
    rfl
  | error e =>
    have htokens' : (b.behind (m.serving c t)).tokensOf (some t.line) = .error e := htokens
    rw [Exec.jump_of_error (p := ⟨some t.line, 0⟩) htokens,
      Exec.jump_of_error (p := ⟨some t.line, 0⟩) htokens']

theorem raise_tells (c : Condition) : b.Tells (m.raise c) ((b.behind m).raise c) := by
  have hdirect : (b.behind m).isDirect = m.isDirect := rfl
  have hline : (b.behind m).line = m.line := rfl
  have htrap : (b.behind m).trap = m.trap := rfl
  rw [raise, raise, htrap]
  cases m.trap with
  | none => exact fail_tells _
  | some t =>
    simp only [hdirect, hline, handling_behind]
    split
    · exact fail_tells _
    · rw [enterHandler_behind]
      obtain ⟨e | _, s⟩ := m.enterHandler (c.within m.line) t
      · exact fail_tells _
      · exact .refl _ s

theorem tell_tells (r : Except Condition Flow × Machine) :
    b.Tells (tell r) (tell (r.1, b.behind r.2)) := by
  obtain ⟨flow | c, m⟩ := r
  · exact raise_tells _
  · cases c with
    | halted why => exact halt_tells why
    | done | again | moved | waiting => exact .refl _ m

theorem step_tells (hb : b.Spares m) : b.Tells m.step (b.behind m).step ∨
    (m.step.1 = .waiting ∧ m.step.2.Starved ∧ (b.behind m).step = (b.behind m.step.2).step) := by
  cases hrunning : m.running with
  | false =>
    rw [step_of_idle hrunning, step_of_idle (m := b.behind m) hrunning]
    exact .inl (.refl _ m)
  | true =>
    rw [step_eq hrunning, step_eq (m := b.behind m) hrunning]
    rcases advance_follows hb hrunning with hsame | ⟨hwaiting, hstarved, hlater⟩
    · rw [hsame]
      exact .inl (tell_tells m.advance)
    · have htell : tell m.advance = (.waiting, m.advance.2) := by
        rw [← Prod.mk.eta (p := m.advance), hwaiting]
        rfl
      rw [htell, hlater]
      exact .inr ⟨rfl, hstarved, (step_eq (m := b.behind m.advance.2) hstarved.running).symm⟩

end Backdrop

end LineBasic
