import LineBasic.Proofs.Machine.Background
import LineBasic.Proofs.Machine.Loops
import LineBasic.Proofs.Statement.Answers

/-! `INPUT` over the steps it takes. It waits between them, with the variables that are still to be filled, and each
step reads one of the lines that were typed. -/

namespace LineBasic.Machine

open Statement Answer

variable {m d e : Machine} {q : Inquiry} {read : List String}

/-! ## The question -/

/-- In a session, a step at `m` executes an `INPUT`, which asks at `e` for the variables of `q`. -/
structure Inputs (allowed : Machine → Call → Prop) (m : Machine) (q : Inquiry) (e : Machine) : Prop where
  reachable : Reachable allowed m
  statement : ∃ d, m.Starts d ∧ d.word? = some .INPUT ∧ inquire d.pastWord = (.ok q, e)

/-- What holds where the question has been asked. -/
structure Asks (q : Inquiry) (e : Machine) : Prop where
  ready : e.Ready
  sized : e.store.Sized
  nonempty : q.cells ≠ []
  holds : ∀ c ∈ q.cells, e.store.Holds c
  atEnd : e.cursor.atStatementEnd = true

variable {allowed : Machine → Call → Prop} {m m' d e : Machine} {q : Inquiry} {read : List String}

theorem Starts.tape (hd : m.Starts d) : d.tape = m.tape := by
  obtain ⟨-, s, hs, hopens⟩ := hd
  have hsought : s.tape = m.tape := by rw [(sought_of_next hs).eq]
  refine hopens.keeps (P := fun d => d.tape = m.tape) (fun a ha m₁ m₂ h hm => ?_) hsought
  cases h with
  | scan | goto => exact hm
  | _ => simp [Word.actions] at ha

theorem Starts.ready (hd : m.Starts d) : d.pastWord.Ready := by
  obtain ⟨hready, s, hs, hopens⟩ := hd
  have hsought : s.Ready := by
    rw [(sought_of_next hs).eq]
    exact ⟨hready.running, hready.unbroken, hready.answered⟩
  exact hsought.change hopens.change.pastWord

theorem Inputs.asks (h : Inputs allowed m q e) : Asks q e := by
  obtain ⟨hm, d, hd, -, hask⟩ := h
  obtain ⟨hnonempty, hholds, hend, -⟩ := inquire_eq_ok hask
  obtain ⟨horderly, hrunning⟩ := hm.orderly.starts hd
  have hchange : Change false true d.pastWord e :=
    ((Acts.inquire (b := .own) tapes scans d.pastWord .refl).ok hask).2
  exact ⟨hd.ready.change hchange, (horderly.change hrunning hchange).store.sized, hnonempty, hholds, hend⟩

/-- The step that asks looks for an answer at once. -/
theorem Inputs.step (h : Inputs allowed m q e) :
    e.tape.input = m.tape.input ∧ m.step = tell (pollInput q e) := by
  obtain ⟨-, d, hd, hword, hask⟩ := h
  obtain ⟨-, -, -, htape⟩ := inquire_eq_ok hask
  refine ⟨?_, ?_⟩
  · rw [htape, ← hd.tape]
    rfl
  · rw [hd.step_of_word hword (by decide)]
    show tell ((Statement.input >>= settle) d.pastWord) = _
    rw [Backdrop.input_settle, bind_of_ok hask]

/-! ## Answers -/

/-- The lines `read` have been read in answer to `q`, which was asked at `e`. -/
structure Answered (q : Inquiry) (e : Machine) (read : List String) (m : Machine) : Prop where
  running : m.running = true
  unbroken : m.breakRequested = false
  cursor : m.cursor = e.cursor
  line : m.line = e.line
  filled : Fills (q.cells.zip (accepted q.cells read)) e.store m.store
  waits : (accepted q.cells read).length < q.cells.length →
    ∃ prompt, m.inquiry = some ⟨prompt, q.cells.drop (accepted q.cells read).length⟩
  ends : q.cells.length ≤ (accepted q.cells read).length → m.inquiry = none

/-- The variables that are still to be filled are there. -/
theorem Asks.stays (he : Asks q e) {ps : List (Cell × String)} {s : Store} (h : Fills ps e.store s) (n : Nat) :
    s.Sized ∧ ∀ c ∈ q.cells.drop n, s.Holds c :=
  ⟨h.persists.sized_of_sized he.sized, fun c hc => h.persists.holds (he.holds c (List.mem_of_mem_drop hc))⟩

/-- While variables are to be filled, a look for an answer reads the next line. -/
theorem Asks.poll (he : Asks q e) {prompt : String}
    (hm : Answered q e read { m with inquiry := some ⟨prompt, q.cells.drop (accepted q.cells read).length⟩ })
    (hnone : m.inquiry = none) (hshort : Short (q.cells.zip (accepted q.cells (read ++ m.tape.input.take 1)))) :
    Answered q e (read ++ m.tape.input.take 1)
      (tell (pollInput ⟨prompt, q.cells.drop (accepted q.cells read).length⟩ m)).2 := by
  cases hinput : m.tape.input with
  | nil =>
    rw [pollInput_of_nil hinput, List.take_nil, List.append_nil]
    exact hm
  | cons line rest =>
    have haccepted : accepted q.cells (read ++ [line]) = _ := accepted_append read [line]
    rw [accepted_singleton] at haccepted
    rw [hinput, List.take_succ_cons, List.take_zero] at hshort
    rw [List.take_succ_cons, List.take_zero]
    by_cases hrejects : Rejects (q.cells.drop (accepted q.cells read).length) (split line)
    · obtain ⟨t, -, hpoll⟩ := pollInput_of_rejects (q := ⟨prompt, _⟩) hinput hrejects
      rw [if_pos hrejects, List.append_nil] at haccepted
      rw [hpoll]
      exact ⟨hm.running, hm.unbroken, hm.cursor, hm.line, by rw [haccepted]; exact hm.filled,
        by rw [haccepted]; exact hm.waits, by rw [haccepted]; exact hm.ends⟩
    · rw [if_neg hrejects] at haccepted
      obtain ⟨hsized, hholds⟩ := he.stays hm.filled (accepted q.cells read).length
      have hend : m.cursor.atStatementEnd = true := by
        rw [show m.cursor = e.cursor from hm.cursor]
        exact he.atEnd
      rw [haccepted, zip_append_items] at hshort
      obtain ⟨t, store, -, hfills, hpoll⟩ := pollInput_of_accepts (q := ⟨prompt, _⟩) hinput hrejects
        hshort.of_append.2 hsized hholds hend
      have hfilled : Fills (q.cells.zip (accepted q.cells (read ++ [line]))) e.store store := by
        rw [haccepted, zip_append_items]
        exact hm.filled.append hfills
      have hleft : (accepted q.cells (read ++ [line])).length < q.cells.length ↔
          (split line).length < (q.cells.drop (accepted q.cells read).length).length := by
        rw [haccepted, List.length_append, List.length_drop]
        omega
      rw [hpoll]
      split
      · rename_i hmore
        refine ⟨hm.running, hm.unbroken, hm.cursor, hm.line, hfilled, fun _ => ⟨"?", ?_⟩, fun hall => ?_⟩
        · rw [haccepted, List.length_append, ← List.drop_drop]
          rfl
        · exact absurd (hleft.mpr hmore) (Nat.not_lt.mpr hall)
      · rename_i hall
        exact ⟨hm.running, hm.unbroken, hm.cursor, hm.line, hfilled, fun hmore => absurd (hleft.mp hmore) hall,
          fun _ => hnone⟩

/-! ## Runs -/

/-- From the step at `m` on, which executes an `INPUT`, the lines `read` have been read, and the run has come to `m'`.
While the `INPUT` waits, steps look for the next line. In between lines may be typed and output be taken. -/
inductive Reads (m : Machine) : List String → Machine → Prop
  | start : Reads m (m.tape.input.take 1) m.step.2
  | step {read : List String} {m' : Machine} (h : Reads m read m') (hwaits : m'.inquiry.isSome) :
      Reads m (read ++ m'.tape.input.take 1) m'.step.2
  | type {read : List String} {m' : Machine} (h : Reads m read m') (s : String) :
      Reads m read (m'.call (.type s))
  | takeOutput {read : List String} {m' : Machine} (h : Reads m read m') : Reads m read (m'.call .takeOutput)

theorem Answered.inquiry_eq (hm : Answered q e read m) {q' : Inquiry} (hq : m.inquiry = some q') :
    ∃ prompt, q' = ⟨prompt, q.cells.drop (accepted q.cells read).length⟩ := by
  rcases Nat.lt_or_ge (accepted q.cells read).length q.cells.length with hless | hall
  · obtain ⟨prompt, hprompt⟩ := hm.waits hless
    exact ⟨prompt, Option.some.inj (hq.symm.trans hprompt)⟩
  · cases hq.symm.trans (hm.ends hall)

theorem Answered.step_eq (hm : Answered q e read m) {q' : Inquiry} (hq : m.inquiry = some q') :
    m.step = tell (pollInput q' { m with inquiry := none }) := by
  rw [Machine.step_eq hm.running, advance_of_inquiry hm.unbroken hq]

theorem Reads.answered (h : Reads m read m') (hm : Inputs allowed m q e)
    (hshort : Short (q.cells.zip (accepted q.cells read))) : Answered q e read m' := by
  induction h with
  | start =>
    obtain ⟨htape, hstep⟩ := hm.step
    obtain ⟨hrunning, hunbroken, hnone⟩ := hm.asks.ready
    have hasked : Answered q e [] { e with inquiry := some q } :=
      ⟨hrunning, hunbroken, rfl, rfl, by simpa [accepted] using Fills.nil _, fun _ => ⟨q.prompt, rfl⟩,
        fun hall => absurd (List.eq_nil_of_length_eq_zero (Nat.le_zero.mp hall)) hm.asks.nonempty⟩
    rw [hstep]
    rw [← htape] at hshort ⊢
    exact hm.asks.poll hasked hnone hshort
  | @step read m' _ hwaits ih =>
    have hbefore : Short (q.cells.zip (accepted q.cells read)) := by
      rw [accepted_append, zip_append_items] at hshort
      exact hshort.of_append.1
    have hasked := ih hbefore
    obtain ⟨q', hq'⟩ := Option.isSome_iff_exists.mp hwaits
    obtain ⟨prompt, rfl⟩ := hasked.inquiry_eq hq'
    rw [hasked.step_eq hq']
    refine hm.asks.poll (m := { m' with inquiry := none }) ?_ rfl hshort
    rw [← hq']
    exact hasked
  | type _ s ih =>
    obtain ⟨hrunning, hunbroken, hcursor, hline, hfilled, hwaits, hends⟩ := ih hshort
    exact ⟨hrunning, hunbroken, hcursor, hline, hfilled, hwaits, hends⟩
  | takeOutput _ ih =>
    obtain ⟨hrunning, hunbroken, hcursor, hline, hfilled, hwaits, hends⟩ := ih hshort
    exact ⟨hrunning, hunbroken, hcursor, hline, hfilled, hwaits, hends⟩

/-- What one line does that is read in answer to what is left. -/
theorem Answered.line_step (hm : Answered q e read m) (he : Asks q e) {q' : Inquiry} (hq : m.inquiry = some q')
    {line : String} {rest : List String} (hinput : m.tape.input = line :: rest) :
    (Rejects q'.cells (split line) →
      ∃ t : Tape, t.input = rest ∧ m.step = (.waiting, { m with tape := t })) ∧
    (¬ Rejects q'.cells (split line) → Short (q'.cells.zip (split line)) →
      ∃ (t : Tape) (store : Store), t.input = rest ∧ Fills (q'.cells.zip (split line)) m.store store ∧
        m.step = if (split line).length < q'.cells.length then
            (.waiting, { m with
              store, tape := t, inquiry := some ⟨"?", q'.cells.drop (split line).length⟩ })
          else (.running, { m with store, tape := t, inquiry := none })) := by
  obtain ⟨prompt, rfl⟩ := hm.inquiry_eq hq
  rw [hm.step_eq hq]
  refine ⟨fun hrejects => ?_, fun htaken hshort => ?_⟩
  · obtain ⟨t, ht, hpoll⟩ :=
      pollInput_of_rejects (m := { m with inquiry := none }) (q := ⟨prompt, _⟩) hinput hrejects
    refine ⟨t, ht, ?_⟩
    rw [hpoll, ← hq]
    rfl
  · obtain ⟨hsized, hholds⟩ := he.stays hm.filled (accepted q.cells read).length
    have hend : m.cursor.atStatementEnd = true := by
      rw [hm.cursor]
      exact he.atEnd
    obtain ⟨t, store, ht, hfills, hpoll⟩ := pollInput_of_accepts (m := { m with inquiry := none })
      (q := ⟨prompt, _⟩) hinput htaken hshort hsized hholds hend
    refine ⟨t, store, ht, hfills, ?_⟩
    rw [hpoll]
    split <;> rfl

theorem Answered.length_le (hm : Answered q e read m) (hnone : m.inquiry = none) :
    q.cells.length ≤ (accepted q.cells read).length := by
  by_contra hless
  obtain ⟨prompt, hprompt⟩ := hm.waits (Nat.not_le.mp hless)
  cases hnone.symm.trans hprompt

/-- Let an `INPUT` ask for the variables of `q`, and let it have read some lines, none of them with an item that is
too long for its variable. Then the variables have been assigned, one after another, the items of the lines that were
accepted, as many as there are: each has the value of the last item that it faced, and every other variable has the
value that it had. Where these are too few, the `INPUT` waits for the rest. A line that it then reads is rejected if one
of its items is no number where one is wanted; that stores nothing and leaves the rest as it was. Any other line fills
as many variables as it has items, and it is the last one if that is all of them. With enough items the `INPUT` has
ended, and the run is at the end of the statement. So it is the same to type items in one line or in several, into
which that one is cut at commas outside of quotes. -/
theorem variables_of_answers (hm : Inputs allowed m q e) (h : Reads m read m')
    (hshort : Short (q.cells.zip (accepted q.cells read))) :
    Fills (q.cells.zip (accepted q.cells read)) e.store m'.store ∧
    (∀ before c item after, q.cells.zip (accepted q.cells read) = before ++ (c, item) :: after →
      (∀ p ∈ after, p.1 ≠ c) → Means c item (m'.store.get c)) ∧
    (∀ c, (∀ p ∈ q.cells.zip (accepted q.cells read), p.1 ≠ c) → m'.store.get c = e.store.get c) ∧
    ((accepted q.cells read).length < q.cells.length → ∃ q', m'.inquiry = some q' ∧
      q'.cells = q.cells.drop (accepted q.cells read).length ∧
      ∀ line rest, m'.tape.input = line :: rest →
        (Rejects q'.cells (split line) →
          ∃ t : Tape, t.input = rest ∧ m'.step = (.waiting, { m' with tape := t })) ∧
        (¬ Rejects q'.cells (split line) → Short (q'.cells.zip (split line)) →
          ∃ (t : Tape) (store : Store), t.input = rest ∧ Fills (q'.cells.zip (split line)) m'.store store ∧
            m'.step = if (split line).length < q'.cells.length then
                (.waiting, { m' with
                  store, tape := t, inquiry := some ⟨"?", q'.cells.drop (split line).length⟩ })
              else (.running, { m' with store, tape := t, inquiry := none }))) ∧
    (q.cells.length ≤ (accepted q.cells read).length → m'.inquiry = none ∧ m'.running = true ∧
      m'.line = e.line ∧ m'.cursor = e.cursor ∧ m'.cursor.atStatementEnd = true) ∧
    ∀ t pieces lines m₂ q₂ e₂ m₂', read = [t] → Cuts t pieces → lines <+: pieces → Inputs allowed m₂ q₂ e₂ →
      q₂.cells = q.cells → e₂.store = e.store → Reads m₂ lines m₂' →
      Short (q₂.cells.zip (accepted q₂.cells lines)) → m'.inquiry = none → m₂'.inquiry = none →
      m₂'.store = m'.store := by
  have hanswered := h.answered hm hshort
  refine ⟨hanswered.filled, fun _ _ _ _ => hanswered.filled.get_of_last,
    fun _ => hanswered.filled.get_of_forall_ne, fun hless => ?_, fun hall => ?_, ?_⟩
  · obtain ⟨prompt, hprompt⟩ := hanswered.waits hless
    exact ⟨_, hprompt, rfl, fun line rest hinput => hanswered.line_step hm.asks hprompt hinput⟩
  · refine ⟨hanswered.ends hall, hanswered.running, hanswered.line, hanswered.cursor, ?_⟩
    rw [hanswered.cursor]
    exact hm.asks.atEnd
  · rintro t pieces lines m₂ q₂ e₂ m₂' rfl hcuts hlines hm₂ hcells hstore h₂ hshort₂ hnone hnone₂
    have hanswered₂ := h₂.answered hm₂ hshort₂
    have hfilled₂ := hanswered₂.filled
    have hall₂ := hanswered₂.length_le hnone₂
    rw [hcells] at hfilled₂ hall₂
    rw [hstore, zip_accepted_of_cuts hcuts (hanswered.length_le hnone) hlines hall₂] at hfilled₂
    exact hfilled₂.unique hanswered.filled

/-- Before an `INPUT` for a string and two numbers. -/
def asksForThree : Machine := ((entered ["10 INPUT A$,B,C(2)", "RUN"]).execute 1).2

def threeCells : List Cell := [⟨"A$", []⟩, ⟨"B", []⟩, ⟨"C", [2]⟩]

/-- A line that is rejected, one that is too short, and one with an item too many. -/
def threeLines : List String := ["\"X,Y\",Z", "\"X,Y\"", "7,8,9"]

theorem variables_of_answers_redone : ∃ q e m', Inputs LoadsIdle asksForThree q e ∧ q.cells = threeCells ∧
    Reads asksForThree threeLines m' ∧ Short (threeCells.zip (accepted threeCells threeLines)) ∧
    m'.inquiry = none ∧
    Fills [(⟨"A$", []⟩, "X,Y"), (⟨"B", []⟩, "7"), (⟨"C", [2]⟩, "8")] e.store m'.store ∧
    m'.store.get ⟨"A$", []⟩ = .string "X,Y" ∧ m'.store.get ⟨"B", []⟩ = .number 7 ∧
    m'.store.get ⟨"C", [2]⟩ = .number 8 := by
  have hm : Reachable LoadsIdle asksForThree := .call (reachable_entered _) (.execute 1) nofun
  -- the lines are typed while the `INPUT` waits, and read one by one
  have hstate : ∃ m s₀ s₁ s₂ s₃ : Machine, m = asksForThree ∧
      s₀ = (((m.step.2.call (.type "\"X,Y\",Z")).call (.type "\"X,Y\"")).call (.type "7,8,9")) ∧
      s₁ = s₀.step.2 ∧ s₂ = s₁.step.2 ∧ s₃ = s₂.step.2 ∧
      (m.running = true ∧ m.breakRequested = false ∧ m.inquiry = none ∧ m.nextStatement.1 = true) ∧
      m.nextStatement.2.word? = some .INPUT ∧
      (inquire m.nextStatement.2.pastWord).1 = .ok ⟨"", threeCells⟩ ∧ m.tape.input = [] ∧
      (s₀.inquiry.isSome ∧ s₀.tape.input = threeLines) ∧
      (s₁.inquiry.isSome ∧ s₁.tape.input = threeLines.drop 1) ∧
      (s₂.inquiry.isSome ∧ s₂.tape.input = threeLines.drop 2) :=
    ⟨_, _, _, _, _, rfl, rfl, rfl, rfl, rfl, by decide +kernel⟩
  obtain ⟨m, s₀, s₁, s₂, s₃, rfl, hs₀, hs₁, hs₂, hs₃, ⟨hr, hb, hq, hnext⟩, hword, hask, htape, ⟨hwaits₀, htape₀⟩,
    ⟨hwaits₁, htape₁⟩, hwaits₂, htape₂⟩ := hstate
  have hinputs : Inputs LoadsIdle asksForThree ⟨"", threeCells⟩
      (inquire asksForThree.nextStatement.2.pastWord).2 :=
    ⟨hm, _, ⟨⟨hr, hb, hq⟩, _, Prod.ext hnext rfl, .refl _⟩, hword, Prod.ext hask rfl⟩
  have hreads₀ : Reads asksForThree [] s₀ := by
    have hstart := Reads.start (m := asksForThree)
    rw [htape] at hstart
    exact hs₀ ▸ ((hstart.type _).type _).type _
  have hreads₁ := hreads₀.step hwaits₀
  rw [htape₀, ← hs₁] at hreads₁
  have hreads₂ := hreads₁.step hwaits₁
  rw [htape₁, ← hs₂] at hreads₂
  have hreads₃ := hreads₂.step hwaits₂
  rw [htape₂, ← hs₃] at hreads₃
  have haccepted : accepted threeCells threeLines = ["X,Y", "7", "8", "9"] := by decide +kernel
  have hshort : Short (threeCells.zip (accepted threeCells threeLines)) := by
    rw [haccepted]
    decide +kernel
  obtain ⟨hfills, hlast, -, -, hends, -⟩ :=
    variables_of_answers hinputs (show Reads _ threeLines s₃ from hreads₃) hshort
  rw [haccepted] at hfills hlast hends
  obtain ⟨hseven, height⟩ : Number.read? "7".toList = some 7 ∧ Number.read? "8".toList = some 8 := by decide +kernel
  refine ⟨_, _, s₃, hinputs, rfl, hreads₃, hshort, (hends (by decide)).1, hfills, ?_, ?_, ?_⟩
  · exact (hlast [] _ _ _ rfl (by decide)).unique (.string rfl)
  · exact (hlast [_] _ _ _ rfl (by decide)).unique (.number rfl hseven)
  · exact (hlast [_, _] _ _ _ rfl (by decide)).unique (.number rfl height)

end LineBasic.Machine
