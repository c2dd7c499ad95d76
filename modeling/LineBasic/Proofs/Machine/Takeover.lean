import LineBasic.Proofs.Machine.Failure
import LineBasic.Proofs.Machine.Reachable
import LineBasic.Proofs.Statement.Footprint

/-! What is left of a run after a program was loaded. Where nothing runs, nothing starts to run. A run,
however, is not ended: it goes on with the rest of the line that it was in, be that a direct line or a line
of the program that was replaced, and after that in the new program. -/

namespace LineBasic.Machine

open Statement

variable {m m' : Machine}

/-! ## What a run keeps -/

theorem erase_mem_actions {w : Word} (h : .erase ∈ w.actions) : w = .NEW := by
  cases w <;> simp [Word.actions] at h ⊢

/-- What all actions but one keep is kept by a statement, or that is a `NEW`, which ends the run. -/
theorem dispatch_keeps_or_ends {P : Machine → Prop} (h : ∀ a, a ≠ .erase → Action.Keeps P a) (hm : P m)
    (n : Nat) : P (dispatch n m).2 ∨ (dispatch n m).1 = .ok (.halted .finished) := by
  obtain ⟨d, x, hd, hx, hrun⟩ := dispatch_ends n m
  have hdispatch : dispatch n m = x d := hrun .own (Backdrop.own_spares m)
  have hPd : P d := by
    refine hd.keeps (fun a ha => h a ?_) hm
    rintro rfl
    cases erase_mem_actions ha
  rw [hdispatch]
  rcases hx with rfl | rfl
  · rw [settle_snd]
    exact .inl hPd
  · by_cases hword : d.word? = some .NEW
    · rw [settled_of_word? hword]
      exact .inr rfl
    · rw [snd_settled]
      refine .inl (one_keeps (fun a ha => h a ?_) hPd)
      rintro rfl
      rw [actions] at ha
      split at ha
      · rename_i w hw
        rcases List.mem_cons.mp ha with heq | ha
        · cases heq
        · exact hword (hw.trans (congrArg some (erase_mem_actions ha)))
      · simp at ha

/-- What holds of a run between two steps, by what holds within a step. -/
structure Kept (I P : Machine → Prop) : Prop where
  next : ∀ {m m'}, I m → m.nextStatement = (true, m') → P m'
  poll : ∀ {m q}, I m → m.inquiry = some q → P { m with inquiry := none }
  acts : ∀ a, a ≠ .erase → Action.Keeps P a
  handler : ∀ {m c t tokens}, P m → m.tokensOf (some t.line) = .ok tokens →
    P { m.serving c t with cursor := .atToken tokens 0, line := some t.line }
  done : ∀ {m}, P m → I m

variable {I P : Machine → Prop}

theorem Kept.raise (h : Kept I P) (hm : P m) (c : Condition) (hrunning : (m.raise c).2.running = true) :
    I (m.raise c).2 := by
  have hraised := raised m c
  generalize m.raise c = r at hraised hrunning ⊢
  cases hraised with
  | uncaught | astray => cases (running_fail _ _).symm.trans hrunning
  | handled ht hd hh htokens => exact h.done (h.handler hm htokens)

theorem Kept.tell (h : Kept I P) {r : Except Condition Flow × Machine}
    (hr : P r.2 ∨ r.1 = .ok (.halted .finished)) (hrunning : (tell r).2.running = true) :
    I (tell r).2 := by
  obtain ⟨c | flow, m⟩ := r
  · rcases hr with hm | hends
    · exact h.raise hm c hrunning
    · cases hends
  · cases flow with
    | halted why => cases (running_halt m why).symm.trans hrunning
    | done | again | moved | waiting =>
      rcases hr with hm | hends
      · exact h.done hm
      · cases hends

/-- A step of a run keeps what holds between steps, as long as the run goes on. -/
theorem Kept.step (h : Kept I P) (hm : m.running = true → I m) (hrunning : m.step.2.running = true) :
    I m.step.2 := by
  cases hr : m.running with
  | false =>
    rw [step_of_idle hr] at hrunning
    cases hr.symm.trans hrunning
  | true =>
    have hI := hm hr
    rw [step_eq hr] at hrunning ⊢
    have hadvance := advanced m
    generalize m.advance = r at hadvance hrunning ⊢
    cases hadvance with
    | broken => cases (running_halt m.takeBreak .interrupted).symm.trans hrunning
    | @finished s => cases (running_halt s .finished).symm.trans hrunning
    | @polled q _ hq =>
      have hpoll := Acts.pollInput (h.acts .scan nofun) (h.acts .tape nofun) (h.acts .inquire nofun) q
      exact h.tell (.inl (hpoll.snd (h.poll hI hq))) hrunning
    | @executed s _ hq hs => exact h.tell (dispatch_keeps_or_ends h.acts (h.next hI hs) _) hrunning

theorem Kept.execute (h : Kept I P) (hI : ∀ {m : Machine} {r}, I m → I { m with report := r })
    (hm : m.running = true → I m) (n : Nat) (hrunning : (m.execute n).2.running = true) :
    I (m.execute n).2 := by
  rw [Machine.execute] at hrunning ⊢
  split at hrunning
  · exact hI (hm hrunning)
  · exact steps_induct (P := fun m => m.running = true → I m) (fun m hm => h.step hm) hm n hrunning

/-! ## Where the next statement is found -/

theorem seekStatement_place {lines : List ProgramLine} (h : m.seekStatement lines = (true, m')) :
    ∃ l ∈ lines, m'.line = some l.number ∧ m'.cursor.tokens = l.tokens := by
  induction lines generalizing m with
  | nil => cases h
  | cons l lines ih =>
    rw [seekStatement] at h
    cases hmark : (m.enterLine l).skipColons.markStatement with
    | some s =>
      simp only [hmark] at h
      cases h
      refine ⟨l, List.mem_cons_self, ?_⟩
      rw [markStatement] at hmark
      split at hmark
      · cases hmark
      · cases hmark
        exact ⟨rfl, Cursor.tokens_skip _ _⟩
    | none =>
      simp only [hmark] at h
      obtain ⟨l', hl', hplace⟩ := ih h
      exact ⟨l', List.mem_cons_of_mem _ hl', hplace⟩

/-- The next statement is on the same line, ahead, or on a line of the program. -/
theorem nextStatement_place (h : m.nextStatement = (true, m')) :
    (m'.line = m.line ∧ ∃ n, m'.cursor = m.cursor.skip n) ∨
      ∃ l ∈ m.program.lines, m'.line = some l.number ∧ m'.cursor.tokens = l.tokens := by
  rw [nextStatement] at h
  cases hmark : m.skipColons.markStatement with
  | some s =>
    simp only [hmark] at h
    cases h
    rw [markStatement] at hmark
    split at hmark
    · cases hmark
    · cases hmark
      exact .inl ⟨rfl, _, rfl⟩
  | none =>
    simp only [hmark] at h
    obtain ⟨l, hl, hplace⟩ := seekStatement_place h
    refine .inr ⟨l, ?_, hplace⟩
    rw [following] at hl
    split at hl
    · exact (List.dropWhile_sublist _).subset hl
    · cases hl

/-! ## Runs of the direct line -/

/-- In the direct line the cursor stands among its tokens. -/
def OnDirect (m : Machine) : Prop := m.line = none → m.cursor.tokens = m.direct

theorem onDirect_jump {p : Position} {tokens : List Token} (ht : m.tokensOf p.line = .ok tokens) :
    p.line = none → (Cursor.atToken tokens p.token).tokens = m.direct := by
  intro hline
  rw [hline] at ht
  cases ht
  exact Cursor.tokens_atToken _ _

theorem OnDirect.makes {a : Action} (ha : a ≠ .erase) (h : m.Makes a m') (hm : m.OnDirect) :
    m'.OnDirect := by
  cases h with
  | scan hw => exact fun hline => hw.tokens.trans (hm hline)
  | goto ht => exact fun hline => by cases hline
  | repeatLoop _ ht | ret _ ht | resume _ ht | cont _ _ ht => exact onDirect_jump ht
  | erase => exact absurd rfl ha
  | _ => exact hm

theorem kept_onDirect : Kept OnDirect OnDirect where
  next hm hs := by
    have hdirect : ∀ {s s' : Machine}, s.Sought s' → s'.direct = s.direct := fun h => by rw [h.eq]
    intro hline
    rcases nextStatement_place hs with ⟨hsame, n, hcursor⟩ | ⟨l, _, hsome, _⟩
    · rw [hcursor, Cursor.tokens_skip, hdirect (sought_of_next hs)]
      exact hm (hsame ▸ hline)
    · cases hsome.symm.trans hline
  poll hm _ := hm
  acts a ha := fun h hm => hm.makes ha h
  handler _ _ := fun hline => by cases hline
  done hm := hm

theorem OnDirect.call (hm : m.running = true → m.OnDirect) (c : Call) (hrunning : (m.call c).running = true) :
    (m.call c).OnDirect := by
  have hworkspace : ∀ {α : Type} {x : Eval α}, (∀ {w}, Steady id (Past w) x) → m.running = true →
      (Exec.onWorkspace x m).2.OnDirect := by
    intro α x hx hrunning hline
    exact (hx.snd (Past.refl m.toWorkspace)).tokens.trans (hm hrunning hline)
  cases c with
  | enter s =>
    have htaken := taken m s
    rw [Machine.call] at hrunning ⊢
    generalize m.enter s = r at htaken hrunning ⊢
    cases htaken with
    | refused => exact hm hrunning
    | blank => exact hm hrunning
    | started => exact fun _ => rfl
    | stored hidle => cases hidle.symm.trans hrunning
  | load s =>
    rw [Machine.call, load] at hrunning ⊢
    split at hrunning
    · exact hm hrunning
    · exact hm hrunning
  | type s => exact hm hrunning
  | interrupt =>
    rw [Machine.call, interrupt] at hrunning ⊢
    by_cases hr : m.running = true
    · rw [if_pos hr]
      exact hm hr
    · rw [if_neg hr] at hrunning
      exact absurd hrunning hr
  | execute n => exact kept_onDirect.execute (fun hm => hm) hm n hrunning
  | step => exact kept_onDirect.step hm hrunning
  | takeOutput => exact hm hrunning
  | expression => exact hworkspace (x := Expression.evaluate m.context) (Forward.evaluate m.context) hrunning
  | target => exact hworkspace (x := Expression.target m.context) (Forward.target m.context) hrunning
  | lineNumber => exact hworkspace Forward.lineNumber? hrunning

theorem Reachable.onDirect {allowed : Machine → Call → Prop} (h : Reachable allowed m) :
    m.running = true → m.OnDirect := by
  induction h with
  | fresh => exact nofun
  | call _ c _ ih => exact OnDirect.call ih c

/-! ## After a program was loaded -/

/-- A place in the program, or in what was left of the direct line at `m₀` if that was executed. -/
def Ahead (m₀ : Machine) (p : Position) : Prop :=
  p.line = none → m₀.line = none ∧ m₀.cursor.pos ≤ p.token

/-- Execution stands in what was left at `m₀` of the line that was executed, or in one of some lines. -/
def Stands (m₀ : Machine) (lines : List ProgramLine) (m : Machine) : Prop :=
  (m.cursor.tokens = m₀.cursor.tokens ∧ m₀.cursor.pos ≤ m.cursor.pos ∧ (m.line = none → m₀.line = none)) ∨
    (m.line.isSome ∧ ∃ l ∈ lines, m.cursor.tokens = l.tokens)

/-- All to which a run that was at `m₀` can go on, once some lines are the program. -/
structure Confined (m₀ : Machine) (lines : List ProgramLine) (m : Machine) : Prop where
  program : m.program.lines ⊆ lines
  direct : m.direct = m₀.direct
  stands : Stands m₀ lines m
  frames : ∀ f ∈ m.stack.items, m₀.Ahead f.position
  failure : ∀ f, m.failure = some f → m₀.Ahead f.statement
  continuation : m.continuation = none

/-- The same within a step, where the statement that is executed is on record. -/
structure Confines (m₀ : Machine) (lines : List ProgramLine) (m : Machine) : Prop
    extends Confined m₀ lines m where
  statement : m₀.Ahead m.statement

variable {m₀ : Machine} {lines : List ProgramLine}

theorem Stands.position (h : Stands m₀ lines m) : m₀.Ahead m.position := by
  intro hline
  rcases h with ⟨_, hpos, hdirect⟩ | ⟨hsome, _⟩
  · exact ⟨hdirect hline, hpos⟩
  · rw [show m.line = none from hline] at hsome
    cases hsome

theorem Stands.skip (h : Stands m₀ lines m) (n : Nat) :
    Stands m₀ lines { m with cursor := m.cursor.skip n } := by
  rcases h with ⟨htokens, hpos, hdirect⟩ | ⟨hsome, l, hl, htokens⟩
  · refine .inl ⟨(Cursor.tokens_skip _ _).trans htokens, ?_, hdirect⟩
    show m₀.cursor.pos ≤ (m.cursor.skip n).pos
    rw [Cursor.pos_skip]
    omega
  · exact .inr ⟨hsome, l, hl, (Cursor.tokens_skip _ _).trans htokens⟩

/-- A jump to such a place stays within the bounds. -/
theorem Confined.stands_jump (h : Confined m₀ lines m) (hm₀ : m₀.OnDirect) {p : Position}
    {tokens : List Token} (ht : m.tokensOf p.line = .ok tokens) (hp : m₀.Ahead p) :
    Stands m₀ lines { m with cursor := .atToken tokens p.token, line := p.line } := by
  cases hline : p.line with
  | none =>
    rw [hline] at ht
    cases ht
    obtain ⟨hdirect, hpos⟩ := hp hline
    have htokens : m.direct = m₀.cursor.tokens := h.direct.trans (hm₀ hdirect).symm
    refine .inl ⟨(Cursor.tokens_atToken _ _).trans htokens, ?_, fun _ => hdirect⟩
    show m₀.cursor.pos ≤ (Cursor.atToken m.direct p.token).pos
    have hle := m₀.cursor.pos_le
    rw [Cursor.pos_atToken, htokens]
    omega
  | some n =>
    rw [hline] at ht
    obtain ⟨l, hl, -, rfl⟩ := mem_of_tokensOf ht
    exact .inr ⟨rfl, l, h.program hl, Cursor.tokens_atToken _ _⟩

theorem Confines.jump (hm : Confines m₀ lines m) (hm₀ : m₀.OnDirect) {p : Position}
    {tokens : List Token} (ht : m.tokensOf p.line = .ok tokens) (hp : m₀.Ahead p) :
    Confines m₀ lines { m with cursor := .atToken tokens p.token, line := p.line } :=
  { hm with stands := hm.stands_jump hm₀ ht hp }

theorem Confines.withStack (hm : Confines m₀ lines m) {stack : Stack Frame}
    (h : ∀ f ∈ stack.items, m₀.Ahead f.position) : Confines m₀ lines { m with stack } :=
  { hm with frames := h }

theorem Confines.makes (hm₀ : m₀.OnDirect) {a : Action} (ha : a ≠ .erase) (h : m.Makes a m')
    (hm : Confines m₀ lines m) : Confines m₀ lines m' := by
  cases h with
  | scan hw =>
    obtain ⟨n, hn⟩ := hw.cursor
    have hskip := hm.stands.skip n
    rw [← hn] at hskip
    exact { hm with stands := hskip }
  | tape | define | take | restore | restoreAt | trap | leave | inquire => exact { hm with }
  | @goto _ n tokens ht =>
    refine hm.jump hm₀ (p := ⟨some n, 0⟩) ht fun hn => ?_
    cases hn
  | openLoop hbody hs =>
    refine hm.withStack fun f hf => ?_
    obtain ⟨below, hitems, hbelow⟩ := openLoop_items hs
    rw [hitems] at hf
    rcases List.mem_cons.mp hf with rfl | hf
    · rw [Frame.position, hbody]
      exact hm.stands.position
    · exact hm.frames f (hbelow.subset hf)
  | call hs =>
    refine hm.withStack fun f hf => ?_
    rw [Stack.items_push hs] at hf
    rcases List.mem_cons.mp hf with rfl | hf
    · exact hm.stands.position
    · exact hm.frames f hf
  | reachLoop hfind => exact hm.withStack fun f hf => hm.frames f ((findLoop?_suffix hfind).subset hf)
  | repeatLoop hs ht => exact hm.jump hm₀ ht (hm.frames (.loop _) (hs ▸ List.mem_cons_self))
  | endLoop hs => exact hm.withStack fun f hf => hm.frames f (hs ▸ List.mem_cons_of_mem _ hf)
  | @ret _ p _ _ hs ht =>
    have hp : m₀.Ahead p := hm.frames (.call p) (hs ▸ List.mem_cons_self)
    exact (hm.jump hm₀ ht hp).withStack fun f hf => hm.frames f (List.mem_of_mem_tail hf)
  | retAstray hs => exact hm.withStack fun f hf => hm.frames f (List.mem_of_mem_tail hf)
  | resume hf ht => exact hm.jump hm₀ ht (hm.failure _ hf)
  | clear =>
    refine { hm with frames := fun f hf => ?_, failure := fun f hf => ?_, continuation := rfl }
    · cases hf
    · cases hf
  | cont _ hk | contAstray _ hk => cases hm.continuation.symm.trans hk
  | delete start stop =>
    exact { hm with
      program := fun l hl => hm.program (List.mem_of_mem_filter hl)
      continuation := rfl }
  | erase => exact absurd rfl ha

/-- Between two steps the statement on record matters only where an `INPUT` waits. -/
def ConfinedRun (m₀ : Machine) (lines : List ProgramLine) (m : Machine) : Prop :=
  Confined m₀ lines m ∧ (m.inquiry.isSome → m₀.Ahead m.statement)

theorem Confined.next (hm : Confined m₀ lines m) (hs : m.nextStatement = (true, m')) :
    Confines m₀ lines m' := by
  have hstands : Stands m₀ lines m' := by
    rcases nextStatement_place hs with ⟨hline, n, hcursor⟩ | ⟨l, hl, hline, htokens⟩
    · have hskip := hm.stands.skip n
      rw [Stands, hcursor, hline]
      exact hskip
    · refine .inr ⟨?_, l, hm.program hl, htokens⟩
      rw [hline]
      rfl
  have hstatement : m₀.Ahead m'.statement := by
    rw [statement_of_next hs]
    exact hstands.position
  have hsought := sought_of_next hs
  refine ⟨⟨?_, ?_, hstands, ?_, ?_, ?_⟩, hstatement⟩
  all_goals rw [hsought.eq]
  · exact hm.program
  · exact hm.direct
  · exact hm.frames
  · exact hm.failure
  · exact hm.continuation

theorem Confines.handler (hm : Confines m₀ lines m) (hm₀ : m₀.OnDirect) {c : Condition} {t : Trap}
    {tokens : List Token} (ht : m.tokensOf (some t.line) = .ok tokens) :
    Confines m₀ lines { m.serving c t with cursor := .atToken tokens 0, line := some t.line } := by
  have hserving : Confines m₀ lines (m.serving c t) := by
    refine { hm with frames := fun f hf => hm.frames f (List.mem_of_mem_drop hf), failure := ?_ }
    rintro f hf
    cases hf
    exact hm.statement
  exact hserving.jump hm₀ (p := ⟨some t.line, 0⟩) ht nofun

theorem kept_confined (hm₀ : m₀.OnDirect) : Kept (ConfinedRun m₀ lines) (Confines m₀ lines) where
  next hm hs := hm.1.next hs
  poll hm hq := ⟨{ hm.1 with }, hm.2 (by rw [hq]; rfl)⟩
  acts _ ha := fun h hm => hm.makes hm₀ ha h
  handler hm ht := hm.handler hm₀ ht
  done hm := ⟨hm.toConfined, fun _ => hm.statement⟩

theorem Confines.opens {d : Machine} (hm : Confines m₀ lines m) (hm₀ : m₀.OnDirect) (h : Opens m d) :
    Confines m₀ lines d := by
  refine h.keeps (fun a ha _ _ hmakes hm => hm.makes hm₀ ?_ hmakes) hm
  rintro rfl
  cases erase_mem_actions ha

/-! ## Calls that execute -/

/-- The calls that only execute what is there. -/
def Executes (_ : Machine) (c : Call) : Prop := c = .step ∨ ∃ n, c = .execute n

theorem Kept.proceeds (h : Kept I P) (hI : ∀ {m : Machine} {r}, I m → I { m with report := r })
    (hm₀ : m₀.running = true → I m₀) (hrun : Proceeds Executes m₀ m) : m.running = true → I m := by
  induction hrun with
  | refl => exact hm₀
  | call _ c hc ih =>
    rcases hc with rfl | ⟨n, rfl⟩
    · exact h.step ih
    · exact h.execute hI ih n

theorem steps_of_idle (h : m.running = false) (n : Nat) : (m.steps n).2 = m := by
  cases n with
  | zero => rfl
  | succ n => rw [steps, step_of_idle h]

/-- Where nothing runs, execution only tells of a line that was refused before. -/
theorem Proceeds.idle (h : m₀.running = false) (hrun : Proceeds Executes m₀ m) :
    m = { m₀ with report := m.report } := by
  induction hrun with
  | refl => rfl
  | @call m _ c hc ih =>
    have hidle : m.running = false := by
      rw [ih]
      exact h
    rcases hc with rfl | ⟨n, rfl⟩
    · rw [Machine.call, step_of_idle hidle]
      exact ih
    · rw [Machine.call, execute]
      cases hreport : m.report with
      | some c =>
        show { m with report := none } = { m₀ with report := none }
        rw [ih]
      | none =>
        show (m.steps n).2 = { m₀ with report := (m.steps n).2.report }
        rw [steps_of_idle hidle]
        exact ih

theorem load_ok {s : String} (h : m.load s = (.ok (), m')) :
    m' = { m with program := m'.program }.clear := by
  rw [load] at h
  split at h
  · cases h
  · cases h
    rfl

theorem confined_load {s : String} (h : m.load s = (.ok (), m')) :
    ConfinedRun m m'.program.lines m' := by
  rw [load_ok h]
  refine ⟨⟨fun _ hl => hl, rfl, .inl ⟨rfl, Nat.le_refl _, id⟩, nofun, nofun, rfl⟩, nofun⟩

/-- After a program was loaded where nothing runs, nothing runs and a step changes nothing. Where there is a
run, each statement that is executed from then on is of what was left of the line that was executed, or of
the program that was loaded. -/
theorem statements_after_load {allowed : Machine → Call → Prop} {s : String} {m₁ m₂ : Machine}
    (hm : Reachable allowed m) (hload : m.load s = (.ok (), m₁)) (hrun : Proceeds Executes m₁ m₂) :
    (m.running = false → m₂ = { m₁ with report := m₂.report } ∧ m₂.step = (.stopped, m₂)) ∧
    ∀ d, m₂.Starts d → (d.cursor.tokens = m.cursor.tokens ∧ m.cursor.pos ≤ d.cursor.pos) ∨
      ∃ l ∈ m₁.program.lines, d.cursor.tokens = l.tokens := by
  have hrunning : m₁.running = m.running := by
    rw [load_ok hload]
    rfl
  have hidle : m.running = false → m₂ = { m₁ with report := m₂.report } ∧ m₂.step = (.stopped, m₂) := by
    intro h
    have hsame := hrun.idle (hrunning.trans h)
    refine ⟨hsame, step_of_idle ?_⟩
    rw [hsame]
    exact hrunning.trans h
  refine ⟨hidle, ?_⟩
  rintro d ⟨hready, s', hs', hopens⟩
  have hm₀ : m.OnDirect := by
    refine hm.onDirect ?_
    by_contra h
    have hstopped := (hidle (Bool.eq_false_iff.mpr h)).1
    have hrunning₂ := hready.running
    rw [hstopped] at hrunning₂
    exact h (hrunning.symm.trans hrunning₂)
  have hconfined := (kept_confined hm₀).proceeds (fun hm => ⟨{ hm.1 with }, hm.2⟩)
    (fun _ => confined_load hload) hrun hready.running
  rcases ((hconfined.1.next hs').opens hm₀ hopens).stands with ⟨htokens, hpos, _⟩ | ⟨_, hline⟩
  · exact .inl ⟨htokens, hpos⟩
  · exact .inr hline

/-- A run in line 10 that goes on in a line 20 that was loaded meanwhile; and a load where nothing runs, after a line
that was refused. -/
theorem statements_after_load_run : (∃ m m₁ m₂ d,
    m = (entered ["10 PRINT 1:PRINT 2", "RUN"]).step.2.step.2 ∧ m.load "20 PRINT 3" = (.ok (), m₁) ∧
    m₂ = m₁.step.2 ∧ m₂.Starts d ∧
    (m.running = false → m₂ = { m₁ with report := m₂.report } ∧ m₂.step = (.stopped, m₂)) ∧
    ((d.cursor.tokens = m.cursor.tokens ∧ m.cursor.pos ≤ d.cursor.pos) ∨
      ∃ l ∈ m₁.program.lines, d.cursor.tokens = l.tokens)) ∧
    ∃ m m₁ m₂, m = entered ["10 PRINT 1", "99999 END"] ∧ m.running = false ∧ m.report.isSome = true ∧
      m.load "20 PRINT 3" = (.ok (), m₁) ∧ m₂ = (m₁.call (.execute 5)).call (.execute 5) ∧
      m₂ = { m₁ with report := m₂.report } ∧ m₂.step = (.stopped, m₂) := by
  constructor
  · let m := (entered ["10 PRINT 1:PRINT 2", "RUN"]).step.2.step.2
    let m₂ := (m.load "20 PRINT 3").2.step.2
    have hm : Reachable LoadsIdle m := .call (.call (reachable_entered _) .step nofun) .step nofun
    -- all that is asked of this run, so that it is evaluated once
    obtain ⟨hloaded, hrunning, hbreak, hinquiry, hnext⟩ : (m.load "20 PRINT 3").1 = .ok () ∧
        m₂.running = true ∧ m₂.breakRequested = false ∧ m₂.inquiry = none ∧ m₂.nextStatement.1 = true := by
      decide +kernel
    have hload : m.load "20 PRINT 3" = (.ok (), (m.load "20 PRINT 3").2) := Prod.ext hloaded rfl
    have hrun : Proceeds Executes (m.load "20 PRINT 3").2 m₂ := .call .refl .step (.inl rfl)
    have hd : m₂.Starts m₂.nextStatement.2 :=
      ⟨⟨hrunning, hbreak, hinquiry⟩, _, Prod.ext hnext rfl, .refl _⟩
    have hafter := statements_after_load hm hload hrun
    exact ⟨m, _, m₂, _, rfl, hload, rfl, hd, hafter.1, hafter.2 _ hd⟩
  · let m := entered ["10 PRINT 1", "99999 END"]
    have hm : Reachable LoadsIdle m := reachable_entered _
    obtain ⟨hidle, hreport, hloaded⟩ : m.running = false ∧ m.report.isSome = true ∧
        (m.load "20 PRINT 3").1 = .ok () := by
      decide +kernel
    have hload : m.load "20 PRINT 3" = (.ok (), (m.load "20 PRINT 3").2) := Prod.ext hloaded rfl
    have hrun : Proceeds Executes (m.load "20 PRINT 3").2
        (((m.load "20 PRINT 3").2.call (.execute 5)).call (.execute 5)) :=
      .call (.call .refl (.execute 5) (.inr ⟨5, rfl⟩)) (.execute 5) (.inr ⟨5, rfl⟩)
    obtain ⟨hsame, hstopped⟩ := (statements_after_load hm hload hrun).1 hidle
    exact ⟨m, _, _, rfl, hidle, hreport, hload, rfl, hsame, hstopped⟩

/-- A direct line goes on after a program was loaded. -/
theorem direct_line_after_load : ∃ m, m = (entered ["PRINT 1:PRINT 2"]).step.2 ∧
    (m.load "10 END").1 = .ok () ∧ (m.load "10 END").2.running = true ∧
    (m.load "10 END").2.step.1 = .running ∧ (m.load "10 END").2.step.2.tape.output = " 1 \n 2 \n" :=
  ⟨_, rfl, by decide +kernel⟩

end LineBasic.Machine
