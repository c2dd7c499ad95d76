import LineBasic.Machine.Session
import LineBasic.Proofs.Machine.Steps
import LineBasic.Proofs.Program.Edits
import LineBasic.Proofs.Statement.Dispatch

/-! One step taken apart: the way to the next statement, what that comes to, and what becomes of a
condition. -/

namespace LineBasic

theorem Cursor.pos_le (c : Cursor) : c.pos ≤ c.tokens.length := by
  simp [pos, tokens]

namespace Machine

/-- A new machine into which some lines were entered. -/
def entered (lines : List String) : Machine := lines.foldl (fun m s => (m.enter s).2) {}

variable {m m' : Machine}

theorem tokensOf_of_mem {l : ProgramLine} (h : l ∈ m.program.lines) :
    m.tokensOf (some l.number) = .ok l.tokens := by
  rw [tokensOf, Listing.get_of_mem h]
  rfl

theorem mem_of_tokensOf {n : Nat} {tokens : List Token} (h : m.tokensOf (some n) = .ok tokens) :
    ∃ l ∈ m.program.lines, l.number = n ∧ l.tokens = tokens := by
  rw [tokensOf] at h
  cases hn : m.program.get n with
  | error e =>
    rw [hn] at h
    cases h
  | ok l =>
    rw [hn] at h
    obtain ⟨hl, hnumber⟩ := Listing.mem_of_get hn
    exact ⟨l, hl, hnumber, Except.ok.inj h⟩

/-! ## The way to the next statement -/

/-- The state in which the next statement is found, if there is one: what has changed is where execution
stands, which is in the direct line if it was there before. -/
structure Sought (m m' : Machine) : Prop where
  eq : m' = { m with cursor := m'.cursor, line := m'.line, statement := m'.statement }
  direct : m'.line.isNone = m.line.isNone
  walks : m.Walks → m'.Walks

theorem Sought.trans {m'' : Machine} (h : m.Sought m') (h' : m'.Sought m'') : m.Sought m'' where
  eq := by
    rw [h'.eq, h.eq]
  direct := h'.direct.trans h.direct
  walks hm := h'.walks (h.walks hm)

theorem sought_skipColons (m : Machine) : m.Sought m.skipColons where
  eq := rfl
  direct := rfl
  walks hm := hm.trans (congrArg Except.ok (Cursor.tokens_skip _ _).symm)

theorem sought_enterLine {n : Nat} {l : ProgramLine} (hline : m.line = some n) (hl : l ∈ m.program.lines) :
    m.Sought (m.enterLine l) where
  eq := rfl
  direct := by
    rw [hline]
    rfl
  walks _ := tokensOf_of_mem hl

theorem sought_of_mark (h : m.markStatement = some m') : m.Sought m' ∧ m'.statement = m'.position := by
  rw [markStatement] at h
  split at h
  · cases h
  · cases h
    exact ⟨⟨rfl, rfl, id⟩, rfl⟩

theorem sought_seekStatement {lines : List ProgramLine} {n : Nat} (hline : m.line = some n)
    (hlines : lines ⊆ m.program.lines) : m.Sought (m.seekStatement lines).2 ∧
      ((m.seekStatement lines).1 = true →
        (m.seekStatement lines).2.statement = (m.seekStatement lines).2.position) := by
  induction lines generalizing m n with
  | nil => exact ⟨⟨rfl, rfl, id⟩, nofun⟩
  | cons l rest ih =>
    obtain ⟨hl, hrest⟩ := List.cons_subset.mp hlines
    have hskip : m.Sought (m.enterLine l).skipColons :=
      (sought_enterLine hline hl).trans (sought_skipColons _)
    rw [seekStatement]
    cases hmark : (m.enterLine l).skipColons.markStatement with
    | some s =>
      obtain ⟨hs, hstatement⟩ := sought_of_mark hmark
      exact ⟨hskip.trans hs, fun _ => hstatement⟩
    | none =>
      obtain ⟨hs, hstatement⟩ := ih (m := (m.enterLine l).skipColons) (n := l.number) rfl hrest
      exact ⟨hskip.trans hs, hstatement⟩

theorem sought_nextStatement (m : Machine) : m.Sought m.nextStatement.2 ∧
    (m.nextStatement.1 = true → m.nextStatement.2.statement = m.nextStatement.2.position) := by
  have hskip := sought_skipColons m
  rw [nextStatement]
  cases hmark : m.skipColons.markStatement with
  | some s =>
    obtain ⟨hs, hstatement⟩ := sought_of_mark hmark
    exact ⟨hskip.trans hs, fun _ => hstatement⟩
  | none =>
    cases hline : m.line with
    | none =>
      have hlines : m.skipColons.following = [] := by
        rw [following, show m.skipColons.line = none from hline]
      rw [hlines]
      refine ⟨hskip, fun hfound => ?_⟩
      cases hfound
    | some n =>
      have hlines : m.skipColons.following ⊆ m.skipColons.program.lines := by
        rw [following, show m.skipColons.line = some n from hline]
        exact (List.dropWhile_sublist _).subset
      obtain ⟨hs, hstatement⟩ := sought_seekStatement (m := m.skipColons) hline hlines
      exact ⟨hskip.trans hs, hstatement⟩

theorem sought_of_next {found : Bool} (h : m.nextStatement = (found, m')) : m.Sought m' := by
  have hsought := (sought_nextStatement m).1
  rw [h] at hsought
  exact hsought

theorem statement_of_next (h : m.nextStatement = (true, m')) : m'.statement = m'.position := by
  have hmark := (sought_nextStatement m).2
  rw [h] at hmark
  exact hmark rfl

theorem Sought.program (h : m.Sought m') : m'.program = m.program := by
  rw [h.eq]

theorem Sought.report (h : m.Sought m') : m'.report = m.report := by
  rw [h.eq]

theorem Sought.deferred (h : m.Sought m') (hm : m.Deferred) : m'.Deferred := by
  have hline : m'.line.isSome := by
    have hdirect := h.direct
    have hsome := hm.line
    cases hm' : m'.line <;> cases hl : m.line <;> simp_all
  rw [h.eq]
  exact ⟨hline, hm.frames, hm.failure⟩

/-! ## One statement or one look for an answer -/

/-- What a step does before anything is told: it makes a break, looks for an answer, finds the end of
the program or executes a statement. -/
inductive Advanced (m : Machine) : Except Condition Flow × Machine → Prop
  | broken (h : m.breakRequested = true) : Advanced m (.ok (.halted .interrupted), m.takeBreak)
  | polled {q : Inquiry} (hb : m.breakRequested = false) (hq : m.inquiry = some q) :
      Advanced m (Statement.pollInput q { m with inquiry := none })
  | finished {s : Machine} (hb : m.breakRequested = false) (hq : m.inquiry = none)
      (hs : m.nextStatement = (false, s)) : Advanced m (.ok (.halted .finished), s)
  | executed {s : Machine} (hb : m.breakRequested = false) (hq : m.inquiry = none)
      (hs : m.nextStatement = (true, s)) :
      Advanced m (Statement.dispatch (s.cursor.rest.length + 1) s)

theorem advanced (m : Machine) : Advanced m m.advance := by
  rw [advance]
  split
  · rename_i hb
    exact .broken hb
  · rename_i hb
    have hb : m.breakRequested = false := Bool.eq_false_iff.mpr hb
    split
    · rename_i q hq
      exact .polled hb hq
    · rename_i hq
      split
      · rename_i s hs
        exact .executed hb hq hs
      · rename_i s hs
        exact .finished hb hq hs

theorem Ready.advance_eq (h : m.Ready) : m.advance =
    match m.nextStatement with
    | (true, m) => Statement.dispatch (m.cursor.rest.length + 1) m
    | (false, m) => (.ok (.halted .finished), m) := by
  rw [advance, if_neg (by simp [h.unbroken])]
  cases hq : m.inquiry with
  | none => rfl
  | some q => cases h.answered.symm.trans hq

/-! ## What the host is told -/

/-- What a step tells of what it came to. -/
def tell : Except Condition Flow × Machine → Event × Machine
  | (.ok .waiting, m) => (.waiting, m)
  | (.ok (.halted why), m) => m.halt why
  | (.ok _, m) => (.running, m)
  | (.error c, m) => m.raise c

theorem step_eq (h : m.running = true) : m.step = tell m.advance := by
  rw [step, h]
  rfl

theorem step_of_idle (h : m.running = false) : m.step = (.stopped, m) := by
  rw [step, h]
  rfl

/-- The end of a run leaves alone what is not about running, continuing and printing. -/
theorem halt_eq (m : Machine) (why : Halt) :
    ∃ k t, (m.halt why).2 = { m.stop with continuation := k, tape := t } := by
  cases why with
  | finished | ended | interrupted =>
    simp only [halt]
    split <;> exact ⟨_, _, rfl⟩
  | system => exact ⟨_, _, rfl⟩

theorem fail_eq (m : Machine) (c : Condition) :
    ∃ k t, (m.fail c).2 = { m.stop with continuation := k, tape := t } := by
  simp only [fail]
  split
  · exact ⟨_, _, rfl⟩
  · split <;> exact ⟨_, _, rfl⟩

theorem running_halt (m : Machine) (why : Halt) : (m.halt why).2.running = false := by
  obtain ⟨k, t, h⟩ := halt_eq m why
  rw [h]
  rfl

theorem running_fail (m : Machine) (c : Condition) : (m.fail c).2.running = false := by
  obtain ⟨k, t, h⟩ := fail_eq m c
  rw [h]
  rfl

/-- The end of a run in the direct line leaves the place to continue alone; in the program it may set it to
where execution stands. -/
theorem continuation_halt (m : Machine) (why : Halt) :
    (m.halt why).2.continuation = m.continuation ∨ m.isDirect = false ∧
      ((m.halt why).2.continuation = none ∨
        (m.halt why).2.continuation = some ⟨m.position, m.handling⟩) := by
  cases why with
  | system => exact .inl rfl
  | finished | ended | interrupted =>
    cases hd : m.isDirect with
    | true => exact .inl (by simp [halt, hd, stop])
    | false => exact .inr ⟨rfl, by simp [halt, hd]⟩

/-- A condition in the program may set the place to continue to the statement that failed. -/
theorem continuation_fail (m : Machine) (c : Condition) :
    (m.fail c).2.continuation = m.continuation ∨ m.isDirect = false ∧
      ((m.fail c).2.continuation = none ∨ (m.fail c).2.continuation = some ⟨m.statement, false⟩) := by
  cases hd : m.isDirect with
  | true => exact .inl (by simp [fail, hd, stop])
  | false =>
    refine .inr ⟨rfl, ?_⟩
    cases hc : continuable c.fault with
    | true => exact .inr (by simp [fail, hd, hc])
    | false => exact .inl (by simp [fail, hd, hc])

/-- What holds of the place to continue and of the one that the end of a run may set holds of the one that
is on record then. -/
theorem continues_of_end {k : Option Continuation} {here : Continuation} {Q : Continuation → Prop}
    (h : k = m.continuation ∨ m.isDirect = false ∧ (k = none ∨ k = some here))
    (hm : ∀ k', m.continuation = some k' → Q k') (hhere : m.isDirect = false → Q here) :
    ∀ k', k = some k' → Q k' := by
  intro k' hk'
  rcases h with hsame | ⟨hline, hnone | hset⟩
  · exact hm k' (hsame.symm.trans hk')
  · cases hnone.symm.trans hk'
  · cases hset.symm.trans hk'
    exact hhere hline

/-- The state in which a handler serves a condition. -/
def serving (m : Machine) (c : Condition) (t : Trap) : Machine :=
  { m with
    failure := some ⟨m.statement, c.line, c.fault⟩
    stack := m.stack.truncate t.height
    handling := true
    inquiry := none }

/-- What may become of a condition: the run ends with it, or a trap that is set leads to a handler, or
would lead to one that is not there. -/
inductive Raised (m : Machine) (c : Condition) : Event × Machine → Prop
  | uncaught : Raised m c (m.fail (c.within m.line))
  | handled {t : Trap} {tokens : List Token} (ht : m.trap = some t) (hd : m.isDirect = false)
      (hh : m.handling = false) (htokens : m.tokensOf (some t.line) = .ok tokens) :
      Raised m c (.running, { m.serving (c.within m.line) t with
        cursor := .atToken tokens 0, line := some t.line })
  | astray {t : Trap} {e : Condition} (ht : m.trap = some t) (hd : m.isDirect = false)
      (hh : m.handling = false) (he : m.tokensOf (some t.line) = .error e) :
      Raised m c ((m.serving (c.within m.line) t).fail (e.within m.line))

theorem raised (m : Machine) (c : Condition) : Raised m c (m.raise c) := by
  rw [raise]
  split
  · rename_i t ht
    split
    · exact .uncaught
    · rename_i hfree
      simp only [Bool.or_eq_true, not_or, Bool.not_eq_true] at hfree
      obtain ⟨⟨hd, hh⟩, -⟩ := hfree
      have henter : m.enterHandler (c.within m.line) t =
          Exec.jump ⟨some t.line, 0⟩ (m.serving (c.within m.line) t) := rfl
      cases htokens : m.tokensOf (some t.line) with
      | ok tokens =>
        rw [henter, Exec.jump_of_ok (m := m.serving _ t) (p := ⟨some t.line, 0⟩) htokens]
        exact .handled ht hd hh htokens
      | error e =>
        rw [henter, Exec.jump_of_error (m := m.serving _ t) (p := ⟨some t.line, 0⟩) htokens]
        exact .astray ht hd hh htokens
  · exact .uncaught

/-- What neither the end of a run nor the way to a handler touches is not touched by telling. -/
theorem tell_keeps {α : Type} (f : Machine → α)
    (hstop : ∀ (m : Machine) k t, f { m.stop with continuation := k, tape := t } = f m)
    (hserve : ∀ (m : Machine) c t, f (m.serving c t) = f m)
    (hjump : ∀ (m : Machine) c l, f { m with cursor := c, line := l } = f m)
    (r : Except Condition Flow × Machine) : f (tell r).2 = f r.2 := by
  have hfail : ∀ (m : Machine) c, f (m.fail c).2 = f m := by
    intro m c
    obtain ⟨k, t, h⟩ := fail_eq m c
    rw [h, hstop]
  obtain ⟨c | flow, m⟩ := r
  · have h := raised m c
    show f (m.raise c).2 = f m
    generalize m.raise c = r at h ⊢
    cases h with
    | uncaught => exact hfail m _
    | handled => exact (hjump _ _ _).trans (hserve m _ _)
    | astray => exact (hfail _ _).trans (hserve m _ _)
  · cases flow with
    | halted why =>
      obtain ⟨k, t, h⟩ := halt_eq m why
      show f (m.halt why).2 = f m
      rw [h, hstop]
    | done | again | moved | waiting => rfl

/-- A condition is not trapped in the direct line, within a handler, or where no trap is set. -/
theorem raise_of_uncaught (c : Condition)
    (h : m.isDirect = true ∨ m.handling = true ∨ m.trap = none) :
    m.raise c = m.fail (c.within m.line) := by
  rw [raise]
  split
  · rename_i t ht
    rcases h with h | h | h
    · rw [if_pos (by simp [h])]
    · rw [if_pos (by simp [h])]
    · rw [h] at ht
      cases ht
  · rfl

end Machine

end LineBasic
