import LineBasic.Proofs.Machine.Loops
import LineBasic.Proofs.Machine.Subroutines
import LineBasic.Proofs.Statement.Counting

/-! Loops over a whole run. From each entry of its body a loop is stepped on by the `NEXT` that the body comes
to; as long as the limit is not passed that leads back to the body, whatever the body does in between. -/

namespace LineBasic

deriving instance DecidableEq for Value, Loop, Frame

/-- The value of the variable of a loop at the `i`-th entry of its body, from `a` on. -/
def Loop.value (l : Loop) (a : Float) : Nat → Float
  | 0 => a
  | i + 1 => l.value a i + l.step

namespace Machine

open Statement

/-! ## The place where the body starts -/

/-- A run in the program from which nothing leads back to the direct line as long as the loop `l` is on the stack:
neither a frame above that loop nor a condition that was handled. -/
structure Away (l : Loop) (base : List Frame) (m : Machine) : Prop where
  line : m.line.isSome
  above : ∀ above, m.stack.items = above ++ .loop l :: base → ∀ f ∈ above, f.position.line.isSome
  failed : ∀ f, m.failure = some f → f.statement.line.isSome

variable {l : Loop} {base : List Frame} {tokens : List Token} {m m' : Machine}

theorem Away.suffix (hm : m.Away l base) {frames : List Frame} (hs : frames <:+ m.stack.items) :
    ∀ above, frames = above ++ .loop l :: base → ∀ f ∈ above, f.position.line.isSome := by
  rintro above rfl f hf
  obtain ⟨dropped, hdropped⟩ := hs
  rw [← List.append_assoc] at hdropped
  exact hm.above _ hdropped.symm f (List.mem_append_right _ hf)

/-- A frame may be put on top that stands where execution does. -/
theorem Away.push (hm : m.Away l base) {f : Frame} {below : List Frame} (hf : f.position.line = m.line)
    (hs : below <:+ m.stack.items) :
    ∀ above, f :: below = above ++ .loop l :: base → ∀ f ∈ above, f.position.line.isSome := by
  intro above hitems g hg
  cases above with
  | nil => cases hg
  | cons f' above =>
    obtain ⟨rfl, hbelow⟩ := List.cons.inj hitems
    rcases List.mem_cons.mp hg with rfl | hg
    · rw [hf]
      exact hm.line
    · exact hm.suffix hs above hbelow g hg

theorem Away.makes {a : Action} (ha : a ∉ [Action.ret, .stepLoop, .clear, .erase]) (h : m.Makes a m')
    (hm : m.Away l base) : m'.Away l base := by
  obtain ⟨hline, habove, hfailed⟩ := id hm
  cases h with
  | ret | retAstray | reachLoop | repeatLoop | endLoop | clear | erase => simp at ha
  | delete _ _ hdirect | cont hdirect | contAstray hdirect =>
    rw [hdirect] at hline
    cases hline
  | goto => exact ⟨rfl, habove, hfailed⟩
  | resume hf => exact ⟨hfailed _ hf, habove, hfailed⟩
  | @openLoop _ l' stack hbody hs =>
    obtain ⟨below, hitems, hbelow⟩ := openLoop_items hs
    refine ⟨hline, fun above => ?_, hfailed⟩
    rw [hitems]
    exact hm.push (f := .loop l') (congrArg Position.line hbody) hbelow above
  | call hs =>
    refine ⟨hline, fun above => ?_, hfailed⟩
    rw [Stack.items_push hs]
    exact hm.push (f := .call m.position) rfl (List.suffix_refl _) above
  | scan | tape | define | take | restore | restoreAt | trap | leave | inquire =>
    exact ⟨hline, habove, hfailed⟩

/-- Only two actions put a frame on the stack. -/
theorem suffix_makes {a : Action} (ha : a ∉ [Action.openLoop, .call]) (h : m.Makes a m') :
    m'.stack.items <:+ m.stack.items := by
  cases h with
  | openLoop | call => simp at ha
  | reachLoop h => exact findLoop?_suffix h
  | endLoop hs =>
    rw [hs]
    exact List.suffix_cons _ _
  | ret | retAstray => exact List.tail_suffix _
  | clear | erase => exact List.nil_suffix
  | _ => exact List.suffix_refl _

theorem Away.takes (hl : l.body.line.isSome) {a : Action} (ha : a ∉ [Action.openLoop, .call])
    (h : m.Makes a m') (hs : .loop l :: base <:+ m'.stack.items) (hm : m.Away l base) : m'.Away l base := by
  have hsuffix := suffix_makes ha h
  obtain ⟨above, habove⟩ := hs.trans hsuffix
  -- a frame that is jumped to is the loop itself or above it
  have htop : ∀ {f : Frame} {below : List Frame}, m.stack.items = f :: below → f.position.line.isSome := by
    intro f below hitems
    cases above with
    | nil =>
      obtain ⟨rfl, -⟩ := List.cons.inj (habove.trans hitems)
      exact hl
    | cons g above =>
      obtain ⟨rfl, -⟩ := List.cons.inj (habove.trans hitems)
      exact hm.above _ habove.symm g List.mem_cons_self
  by_cases hkeeps : a ∉ [Action.ret, .stepLoop, .clear, .erase]
  · exact hm.makes hkeeps h
  · cases h with
    | ret hitems => exact ⟨htop hitems, hm.suffix hsuffix, hm.failed⟩
    | retAstray | reachLoop | endLoop => exact ⟨hm.line, hm.suffix hsuffix, hm.failed⟩
    | repeatLoop hitems => exact ⟨htop hitems, hm.above, hm.failed⟩
    | clear | erase => cases List.suffix_nil.mp hs
    | _ => simp at hkeeps

/-- The body of the loop is still among `tokens`, and nothing in the program can change that. -/
structure Looping (l : Loop) (base : List Frame) (tokens : List Token) (m : Machine) : Prop where
  place : m.tokensOf l.body.line = .ok tokens
  away : l.body.line.isSome → m.Away l base

/-- The same, or the loop is no longer on the stack. -/
def Lasting (l : Loop) (base : List Frame) (tokens : List Token) (m : Machine) : Prop :=
  .loop l :: base <:+ m.stack.items → m.Looping l base tokens

/-- Lines of the program are only deleted from the direct line. -/
theorem Looping.tokensOf_makes (hm : m.Looping l base tokens) {a : Action} (ha : a ≠ .erase)
    (h : m.Makes a m') : m'.tokensOf l.body.line = .ok tokens := by
  have hplace := hm.place
  cases h with
  | erase => cases ha rfl
  | delete _ _ hdirect =>
    cases hbody : l.body.line with
    | none =>
      rw [hbody] at hplace
      exact hplace
    | some n =>
      have hline := (hm.away (by rw [hbody]; rfl)).line
      rw [hdirect] at hline
      cases hline
  | _ => exact hplace

theorem Looping.makes {a : Action} (ha : a ∉ [Action.ret, .stepLoop, .clear, .erase]) (h : m.Makes a m')
    (hm : m.Looping l base tokens) : m'.Looping l base tokens :=
  ⟨hm.tokensOf_makes (by rintro rfl; simp at ha) h, fun hl => (hm.away hl).makes ha h⟩

theorem Lasting.makes {a : Action} (ha : a ∉ [Action.openLoop, .call]) (h : m.Makes a m')
    (hm : m.Lasting l base tokens) : m'.Lasting l base tokens := by
  intro hs
  have hlooping := hm (hs.trans (suffix_makes ha h))
  refine ⟨hlooping.tokensOf_makes ?_ h, fun hl => (hlooping.away hl).takes hl ha h hs⟩
  rintro rfl
  cases h
  cases List.suffix_nil.mp hs

/-- No statement both puts frames on the stack and takes some off. -/
theorem actions_push_or_take (m : Machine) :
    (∀ a ∈ m.actions, a ∉ [Action.ret, .stepLoop, .clear, .erase]) ∨
      ∀ a ∈ m.actions, a ∉ [Action.openLoop, .call] := by
  rw [actions]
  cases m.word? with
  | none => simp
  | some w => cases w <;> simp [Word.actions]

theorem Looping.dispatch (hm : m.Looping l base tokens) (n : Nat) :
    (dispatch n m).2.Lasting l base tokens := by
  have hif : ∀ a ∈ Word.IF.actions, a ∉ [Action.ret, .stepLoop, .clear, .erase] := by decide
  refine dispatch_induct (Q := Lasting l base tokens) (fun a ha => Looping.makes (hif a ha)) (fun d hd _ => hd)
    (fun d _ hd => ?_) hm n
  rcases actions_push_or_take d with hkeeps | hkeeps
  · exact fun _ => one_keeps (fun a ha => Looping.makes (hkeeps a ha)) hd
  · exact one_keeps (fun a ha => Lasting.makes (hkeeps a ha)) fun _ => hd

/-! ## Steps -/

theorem Looping.stop (hm : m.Looping l base tokens) (k : Option Continuation) (t : Tape) :
    ({ m.stop with continuation := k, tape := t } : Machine).Looping l base tokens :=
  ⟨hm.place, fun hl => ⟨(hm.away hl).line, (hm.away hl).above, (hm.away hl).failed⟩⟩

theorem Lasting.fail (hm : m.Lasting l base tokens) (c : Condition) :
    (m.fail c).2.Lasting l base tokens := by
  obtain ⟨k, t, heq⟩ := fail_eq m c
  rw [heq]
  exact fun hs => (hm hs).stop k t

theorem Lasting.halt (hm : m.Lasting l base tokens) (why : Halt) :
    (m.halt why).2.Lasting l base tokens := by
  obtain ⟨k, t, heq⟩ := halt_eq m why
  rw [heq]
  exact fun hs => (hm hs).stop k t

/-- A handler drops frames from the top. -/
theorem Lasting.serving (hm : m.Lasting l base tokens) (hs : l.body.line.isSome → m.statement.line.isSome)
    (c : Condition) (t : Trap) : (m.serving c t).Lasting l base tokens := by
  intro hloop
  have hsuffix : (m.stack.truncate t.height).items <:+ m.stack.items := List.drop_suffix _ _
  have hlooping := hm (hloop.trans hsuffix)
  refine ⟨hlooping.place, fun hl => ⟨(hlooping.away hl).line, (hlooping.away hl).suffix hsuffix, ?_⟩⟩
  intro f hf
  cases hf
  exact hs hl

theorem Lasting.tell {r : Except Condition Flow × Machine} (hm : r.2.Lasting l base tokens)
    (hs : l.body.line.isSome → r.2.statement.line.isSome) : (tell r).2.Lasting l base tokens := by
  obtain ⟨c | flow, m⟩ := r
  · have hraised := raised m c
    show (m.raise c).2.Lasting l base tokens
    generalize m.raise c = r at hraised ⊢
    cases hraised with
    | uncaught => exact hm.fail _
    | @handled t =>
      intro hloop
      have hserving := hm.serving hs (c.within m.line) t hloop
      exact ⟨hserving.place, fun hl => ⟨rfl, (hserving.away hl).above, (hserving.away hl).failed⟩⟩
    | astray => exact (hm.serving hs _ _).fail _
  · cases flow with
    | halted why => exact hm.halt why
    | done | again | moved | waiting => exact hm

theorem Looping.sought (hm : m.Looping l base tokens) (h : m.Sought m') : m'.Looping l base tokens := by
  have hline : m.line.isSome → m'.line.isSome := by
    have hdirect := h.direct
    rw [← Option.not_isNone, ← Option.not_isNone, hdirect]
    exact id
  rw [h.eq] at hline ⊢
  exact ⟨hm.place, fun hl => ⟨hline (hm.away hl).line, (hm.away hl).above, (hm.away hl).failed⟩⟩

theorem Looping.starts (hm : m.Looping l base tokens) {d : Machine} (hd : m.Starts d) :
    d.Looping l base tokens := by
  have hif : ∀ a ∈ Word.IF.actions, a ∉ [Action.ret, .stepLoop, .clear, .erase] := by decide
  obtain ⟨-, s, hs, hopens⟩ := hd
  exact hopens.keeps (fun a ha => Looping.makes (hif a ha)) (hm.sought (sought_of_next hs))

/-- A step leaves the body where it is, or takes the loop off the stack. -/
theorem Looping.step (hm : m.Looping l base tokens) (hsound : m.Sound) : m.step.2.Lasting l base tokens := by
  have hkeeps : ∀ (q : Position) (a : Action), a.Keeps fun m : Machine => m.statement = q :=
    fun q _ _ _ h hs => (statement_makes h).trans hs
  cases hrunning : m.running with
  | false =>
    rw [step_of_idle hrunning]
    exact fun _ => hm
  | true =>
    rw [step_eq hrunning]
    have hadvance := advanced m
    generalize m.advance = r at hadvance ⊢
    cases hadvance with
    | broken =>
      refine Lasting.halt (m := m.takeBreak) (fun _ => ⟨hm.place, fun hl => ?_⟩) .interrupted
      exact ⟨(hm.away hl).line, (hm.away hl).above, (hm.away hl).failed⟩
    | finished _ _ hs => exact Lasting.halt (fun _ => hm.sought (sought_of_next hs)) .finished
    | @polled q _ hq =>
      have hpoll : ({ m with inquiry := none } : Machine).Looping l base tokens :=
        ⟨hm.place, fun hl => ⟨(hm.away hl).line, (hm.away hl).above, (hm.away hl).failed⟩⟩
      have hwaits := (hsound.waits (by rw [hq]; rfl)).2
      refine Lasting.tell (fun _ => ?_) fun hl => ?_
      · exact (Acts.pollInput (Looping.makes (by decide)) (Looping.makes (by decide))
          (Looping.makes (by decide)) q).snd hpoll
      · have hstatement := (Acts.pollInput (hkeeps m.statement _) (hkeeps _ _) (hkeeps _ _) q).snd
          (s := { m with inquiry := none }) rfl
        rw [hstatement, hwaits]
        exact (hm.away hl).line
    | @executed s _ hq hs =>
      have hpoised := hsound.poised_next hrunning hq hs
      have hlooping : s.Looping l base tokens := hm.sought (sought_of_next hs)
      refine (hlooping.dispatch _).tell fun hl => ?_
      have hstatement := dispatch_keeps (m := s) (fun _ _ a _ => hkeeps s.statement a) (fun a _ => hkeeps _ a)
        rfl (s.cursor.rest.length + 1)
      rw [hstatement, hpoised.statement]
      exact (hlooping.away hl).line

theorem Looping.call (hm : m.Looping l base tokens) (hs : m.Sound) {c : Call} (hc : c.goesOn = true) :
    (m.call c).Lasting l base tokens := by
  have hsame : ∀ m' : Machine, m'.program = m.program → m'.direct = m.direct → m'.line = m.line →
      m'.stack = m.stack → m'.failure = m.failure → m'.Lasting l base tokens := by
    intro m' hprogram hdirect hline hstack hfailure _
    refine ⟨?_, fun hl => ⟨?_, ?_, ?_⟩⟩
    · have hplace := hm.place
      cases hbody : l.body.line <;> simp_all [tokensOf]
    · rw [hline]; exact (hm.away hl).line
    · rw [hstack]; exact (hm.away hl).above
    · rw [hfailure]; exact (hm.away hl).failed
  cases c with
  | enter | load | execute => cases hc
  | step => exact hm.step hs
  | interrupt =>
    rw [Machine.call, interrupt]
    split
    · exact hsame _ rfl rfl rfl rfl rfl
    · exact fun _ => hm
  | type | takeOutput | expression | target | lineNumber => exact hsame _ rfl rfl rfl rfl rfl

/-! ## Runs -/

/-- Step by step one state leads to another, and after each step `frames` are at the bottom of the stack. -/
inductive Retains (frames : List Frame) (m : Machine) : Machine → Prop
  | refl : Retains frames m m
  | call {m' : Machine} {c : Call} (h : Retains frames m m') (hc : c.goesOn = true)
      (hs : frames <:+ (m'.call c).stack.items) : Retains frames m (m'.call c)

theorem LoadsIdle.of_goesOn {c : Call} (hc : c.goesOn = true) (m : Machine) : m.LoadsIdle c := by
  rintro s rfl
  cases hc

theorem Retains.reachable {frames : List Frame} (h : Retains frames m m') (hm : Reachable LoadsIdle m) :
    Reachable LoadsIdle m' := by
  induction h with
  | refl => exact hm
  | call _ hc _ ih => exact .call ih _ (.of_goesOn hc _)

theorem Retains.looping (h : Retains (.loop l :: base) m m') (hm : m.Looping l base tokens)
    (hreachable : Reachable LoadsIdle m) : m'.Looping l base tokens := by
  induction h with
  | refl => exact hm
  | call h hc hs ih => exact ih.call (h.reachable hreachable).sound hc hs

/-- From `e` on the run comes, at `m`, to a `NEXT` for the loop `l`, which is the statement at `d` and has `n` tokens.
The loop has been on the stack all the time, and its variable has the value it had. -/
structure ReachesNext (l : Loop) (base : List Frame) (e m d : Machine) (n : Nat) : Prop where
  retains : Retains (.loop l :: base) e m
  starts : m.Starts d
  nexts : Nexts l base d n
  unchanged : d.store.get ⟨l.var, []⟩ = e.store.get ⟨l.var, []⟩

/-- The body of the loop `l` is entered for the `i`-th time, counted from zero: at `e₀`, or by a `NEXT` that the body
came to and that, without a condition, leaves the loop on the stack. -/
inductive Enters (l : Loop) (base : List Frame) (e₀ : Machine) : Nat → Machine → Prop
  | first : Enters l base e₀ 0 e₀
  | again {i n : Nat} {e m d e' : Machine} (h : Enters l base e₀ i e) (hnext : ReachesNext l base e m d n)
      (hstep : m.step = (.running, e')) (hok : ∀ c, m.advance.1 ≠ .error c)
      (hs : e'.stack.items = .loop l :: base) : Enters l base e₀ (i + 1) e'

/-- What holds where the body is entered while the variable is `x`. -/
structure Entry (l : Loop) (base : List Frame) (tokens : List Token) (x : Float) (e : Machine) : Prop where
  reachable : Reachable LoadsIdle e
  stack : e.stack.items = .loop l :: base
  position : e.position = l.body
  value : e.store.get ⟨l.var, []⟩ = .number x
  looping : e.Looping l base tokens
  token : l.body.token ≤ tokens.length

theorem Orderly.set_loop (hm : m.Orderly) (hl : Frame.loop l ∈ m.stack.items) (x : Float) :
    ∃ s, m.store.set ⟨l.var, []⟩ (.number x) = (.ok (), s) := by
  obtain ⟨_, hassign⟩ := hm.assign_loop hl x
  obtain ⟨_, hset, -⟩ := liftM_eq_ok hassign
  exact ⟨_, Prod.ext (Prod.mk.inj hset).1 rfl⟩

theorem running_makes {a : Action} (h : m.Makes a m') : m'.running = m.running := by
  cases h <;> rfl

/-! ## From one entry to the next -/

section

variable {d e : Machine} {n : Nat} {x : Float} (he : e.Entry l base tokens x) (h : ReachesNext l base e m d n)

theorem ReachesNext.advance_eq (h : ReachesNext l base e m d n) : m.advance = (next >>= settle) d.pastWord := by
  have hword := h.nexts.word?
  have hadvance := h.starts.advance_eq fun m' hagain => by cases hword.symm.trans (word?_of_again hagain)
  rw [hadvance, settled_of_word? hword]
  rfl

theorem ReachesNext.step_eq (h : ReachesNext l base e m d n) : m.step = tell ((next >>= settle) d.pastWord) :=
  h.starts.step_of_word h.nexts.word? (by decide)

include he h

theorem Entry.orderly : d.pastWord.Orderly :=
  ((h.retains.reachable he.reachable).orderly.starts h.starts).1

theorem Entry.set_next (y : Float) : ∃ s, d.store.set ⟨l.var, []⟩ (.number y) = (.ok (), s) :=
  (he.orderly h).set_loop (m := d.pastWord) h.nexts.mem y

theorem Entry.overflows (hfinite : (x + l.step).isFinite = false) : m.advance.1 = .error (.of .overflow) := by
  rw [h.advance_eq]
  exact h.nexts.overflows (he.orderly h).distinct (h.unchanged.trans he.value) hfinite

variable (hfinite : (x + l.step).isFinite = true)

include hfinite

theorem Entry.again (hmore : l.goesOn (x + l.step) = true) :
    ∃ e', m.step = (.running, e') ∧ (∀ c, m.advance.1 ≠ .error c) ∧ e'.Entry l base tokens (x + l.step) := by
  have hreachable := h.retains.reachable he.reachable
  have hlooping := h.retains.looping he.looping he.reachable
  obtain ⟨store, hset⟩ := he.set_next h (x + l.step)
  have hrun := h.nexts.goesOn (he.orderly h).distinct (h.unchanged.trans he.value) hfinite hset hmore
    (hlooping.starts h.starts).place
  have hstep := h.step_eq.trans (congrArg tell hrun)
  have hok : ∀ c, m.advance.1 ≠ .error c := by
    intro c hc
    rw [h.advance_eq, hrun] at hc
    cases hc
  have hnext := hreachable.call .step nofun
  have hlasting := hlooping.step hreachable.sound
  rw [call, hstep] at hnext
  rw [hstep] at hlasting
  refine ⟨_, hstep, hok, hnext, rfl, ?_, (Store.get_of_set hset).1, hlasting (List.suffix_refl _), he.token⟩
  show (⟨l.body.line, (Cursor.atToken tokens l.body.token).pos⟩ : Position) = l.body
  rw [Cursor.pos_atToken, Nat.min_eq_left he.token]

theorem Entry.leaves (hmore : l.goesOn (x + l.step) = false) :
    ∃ r, m.step = (.running, r) ∧ r.store.get ⟨l.var, []⟩ = .number (x + l.step) ∧ r.stack.items = base ∧
      r.line = d.line ∧ r.cursor = d.cursor.skip n := by
  obtain ⟨store, hset⟩ := he.set_next h (x + l.step)
  have hrun := h.nexts.ends (he.orderly h).distinct (h.unchanged.trans he.value) hfinite hset hmore
  exact ⟨_, h.step_eq.trans (congrArg tell hrun), (Store.get_of_set hset).1, rfl, rfl, rfl⟩

end

/-- Where a loop is entered again, its variable is within the limit. -/
theorem Enters.entry {e₀ e : Machine} {i : Nat} {a : Float} (h : Enters l base e₀ i e)
    (h₀ : e₀.Entry l base tokens a) : e.Entry l base tokens (l.value a i) ∧
      ∀ j < i, (l.value a (j + 1)).isFinite = true ∧ l.goesOn (l.value a (j + 1)) = true := by
  induction h with
  | first => exact ⟨h₀, nofun⟩
  | @again i n e m d e' _ hnext hstep hok hs ih =>
    obtain ⟨he, hbefore⟩ := ih
    cases hfinite : (l.value a (i + 1)).isFinite with
    | false => exact absurd (he.overflows hnext hfinite) (hok _)
    | true =>
      cases hmore : l.goesOn (l.value a (i + 1)) with
      | false =>
        obtain ⟨r, hr, -, hbase, -⟩ := he.leaves hnext hfinite hmore
        rw [hstep] at hr
        cases hr
        rw [hs] at hbase
        exact absurd (congrArg List.length hbase) (by simp)
      | true =>
        obtain ⟨e'', he'', -, hentry⟩ := he.again hnext hfinite hmore
        rw [hstep] at he''
        cases he''
        refine ⟨hentry, fun j hj => ?_⟩
        rcases Nat.lt_succ_iff_lt_or_eq.mp hj with hj | rfl
        · exact hbefore j hj
        · exact ⟨hfinite, hmore⟩

/-- Where `FOR` succeeds its body is entered. -/
theorem Starts.entry {d e : Machine} {flow : Flow} (hm : Reachable LoadsIdle m) (hd : m.Starts d)
    (hword : d.word? = some .FOR) (hfor : forLoop d.pastWord = (.ok flow, e)) :
    ∃ v a b s base m', Clauses d.pastWord v a b s m' ∧ e.position = m'.position ∧ m.step = (.running, e) ∧
      e.Entry ⟨v, b, s, e.position⟩ base e.cursor.tokens a := by
  obtain ⟨v, a, b, s, m', stack, rfl, hclauses, hend, hopen, rfl⟩ := forLoop_eq_ok hfor
  obtain ⟨base, hitems, -⟩ := openLoop_items hopen
  have hstep : m.step = (.running, { m' with stack }) := by
    rw [hd.step_of_word hword (by decide)]
    show tell ((forLoop >>= settle) d.pastWord) = _
    rw [bind_of_ok hfor, settle_of_atStatementEnd (m := { m' with stack }) hend]
    rfl
  have hreachable := hm.call .step nofun
  rw [call, hstep] at hreachable
  have hrunning : m'.running = true := by
    have hkeeps : ∀ a : Action, a.Keeps fun m => m.running = true := fun a _ _ h hm => (running_makes h).trans hm
    have hforLoop := (Acts.forLoop (hkeeps _) (hkeeps _)).snd (s := d.pastWord) (hm.orderly.starts hd).2
    rw [hfor] at hforLoop
    exact hforLoop
  have hwalks := hreachable.sound.walks hrunning
  refine ⟨v, a, b, s, base, m', hclauses, rfl, hstep, hreachable, hitems, rfl, hclauses.get, ⟨hwalks, ?_⟩, ?_⟩
  · intro hline
    refine ⟨hline, fun above habove f hf => ?_, hreachable.sound.failed⟩
    have hlength := congrArg List.length (hitems.symm.trans habove)
    rw [List.length_append, List.length_cons, List.length_cons] at hlength
    have hnil : above = [] := List.eq_nil_of_length_eq_zero (by omega)
    subst hnil
    cases hf
  · exact m'.cursor.pos_le

/-- Let a step of a session execute a `FOR` that succeeds, with the frames `base` left below its own. Its body is
entered with the variable at `a`. From an entry of the body let the run come to a `NEXT` for this loop, whatever it
does in between, as long as the loop and what is below it stay on the stack and its variable has its value again.
Then `NEXT` is an overflow if the sum of value and step is not finite. It enters the body again with that sum if the
limit is not passed: the sum is at the limit or above it where the step is negative, and at the limit or below it where
it is not. Otherwise the loop is left, with that sum in the variable and `base` as the stack, and what follows the
`NEXT` is executed. So if the run always comes to such a `NEXT`, the body is entered as often as the sums are finite and
within the limit. -/
theorem entries_of_for {d e : Machine} {flow : Flow} (hm : Reachable LoadsIdle m) (hd : m.Starts d)
    (hword : d.word? = some .FOR) (hfor : forLoop d.pastWord = (.ok flow, e)) :
    ∃ (v : String) (a b s : Float) (base : List Frame) (m₁ : Machine) (l : Loop),
      Clauses d.pastWord v a b s m₁ ∧ l = ⟨v, b, s, e.position⟩ ∧ e.position = m₁.position ∧
      m.step = (.running, e) ∧
      (∀ i e', Enters l base e i e' →
        e'.stack.items = .loop l :: base ∧ e'.position = l.body ∧
        e'.store.get ⟨v, []⟩ = .number (l.value a i) ∧
        ∀ m' d' n, ReachesNext l base e' m' d' n →
          ((l.value a (i + 1)).isFinite = false → m'.advance.1 = .error (.of .overflow)) ∧
          ((l.value a (i + 1)).isFinite = true →
            (s < 0 ∧ b ≤ l.value a (i + 1) ∨ ¬ s < 0 ∧ l.value a (i + 1) ≤ b →
              ∃ e'', m'.step = (.running, e'') ∧ Enters l base e (i + 1) e'') ∧
            (¬ (s < 0 ∧ b ≤ l.value a (i + 1) ∨ ¬ s < 0 ∧ l.value a (i + 1) ≤ b) → ∃ r, m'.step = (.running, r) ∧
              r.store.get ⟨v, []⟩ = .number (l.value a (i + 1)) ∧ r.stack.items = base ∧
              r.line = d'.line ∧ r.cursor = d'.cursor.skip n))) ∧
      ((∀ i e', Enters l base e i e' → ∃ m' d' n, ReachesNext l base e' m' d' n) → ∀ i,
        (∃ e', Enters l base e i e') ↔ ∀ j < i, (l.value a (j + 1)).isFinite = true ∧
          (s < 0 ∧ b ≤ l.value a (j + 1) ∨ ¬ s < 0 ∧ l.value a (j + 1) ≤ b)) := by
  obtain ⟨v, a, b, s, base, m₁, hclauses, hposition, hstep, hentry⟩ := hd.entry hm hword hfor
  obtain ⟨l, hl⟩ : ∃ l : Loop, l = ⟨v, b, s, e.position⟩ := ⟨_, rfl⟩
  have hvar : v = l.var := by rw [hl]
  have htest : ∀ x, l.goesOn x = true ↔ s < 0 ∧ b ≤ x ∨ ¬ s < 0 ∧ x ≤ b := by
    intro x
    rw [Loop.goesOn_iff, hl]
  rw [← hl] at hentry
  refine ⟨v, a, b, s, base, m₁, l, hclauses, hl, hposition, hstep, fun i e' h => ?_, fun hnext i => ⟨?_, ?_⟩⟩
  · rw [hvar]
    obtain ⟨he, -⟩ := h.entry hentry
    refine ⟨he.stack, he.position, he.value, fun m' d' n hreaches => ⟨he.overflows hreaches, fun hfinite => ?_⟩⟩
    refine ⟨fun hmore => ?_, fun hpassed => ?_⟩
    · obtain ⟨e'', he'', hok, hagain⟩ := he.again hreaches hfinite ((htest _).mpr hmore)
      exact ⟨e'', he'', h.again hreaches he'' hok hagain.stack⟩
    · have hends := Bool.eq_false_iff.mpr (mt (htest _).mp hpassed)
      exact he.leaves hreaches hfinite hends
  · rintro ⟨e', h⟩ j hj
    obtain ⟨hfinite, hmore⟩ := (h.entry hentry).2 j hj
    exact ⟨hfinite, (htest _).mp hmore⟩
  · intro hwithin
    induction i with
    | zero => exact ⟨e, .first⟩
    | succ i ih =>
      obtain ⟨e', h⟩ := ih fun j hj => hwithin j (Nat.lt_succ_of_lt hj)
      obtain ⟨m', d', n, hreaches⟩ := hnext i e' h
      obtain ⟨hfinite, hmore⟩ := hwithin i (Nat.lt_succ_self i)
      obtain ⟨e'', he'', hok, hagain⟩ := (h.entry hentry).1.again hreaches hfinite ((htest _).mpr hmore)
      exact ⟨e'', h.again hreaches he'' hok hagain.stack⟩

theorem Retains.of_tail {frames : List Frame} (h : m' = m.step.2) (hs : m'.stack.items.tail = frames) :
    Retains frames m m' := by
  subst h
  exact .call (c := .step) .refl rfl (hs ▸ List.tail_suffix _)

/-- The loop of `10 FOR I=1 TO 2`. -/
def twice : Loop := ⟨"I", 2, 1, ⟨some 10, 6⟩⟩

/-- The loop of `10 FOR I=2 TO 1.5 STEP -.5`. -/
def twiceDown : Loop := ⟨"I", 1.5, -0.5, ⟨some 10, 9⟩⟩

/-- Before the `FOR` of a loop with these clauses that abandons another one each time. -/
def abandonsInner (clauses : String) : Machine :=
  ((entered ["10 FOR I=" ++ clauses ++ ":FOR J=1 TO 9:NEXT I", "RUN"]).execute 1).2

/-- A step comes to `NEXT I` while `I` is `x`, with the loop `inner` above `l` on the stack. -/
def AtNext (l inner : Loop) (x : Float) (m : Machine) : Prop :=
  (m.running = true ∧ m.breakRequested = false ∧ m.inquiry = none ∧ m.nextStatement.1 = true) ∧
  m.stack.items.tail = [.loop l] ∧ m.nextStatement.2.store.get ⟨"I", []⟩ = .number x ∧
  m.nextStatement.2.cursor.rest = [.word .NEXT, .name "I"] ∧
  m.nextStatement.2.stack.items = [.loop inner, .loop l]

instance (l inner : Loop) (x : Float) (m : Machine) : Decidable (m.AtNext l inner x) :=
  inferInstanceAs (Decidable (_ ∧ _ ∧ _ ∧ _ ∧ _))

theorem AtNext.reachesNext {e : Machine} {inner : Loop} {x : Float} (h : m.AtNext l inner x) (hvar : l.var = "I")
    (hm : m = e.step.2) (he : e.store.get ⟨l.var, []⟩ = .number x) :
    ReachesNext l [] e m m.nextStatement.2 2 := by
  obtain ⟨⟨hr, hb, hq, hnext⟩, htail, hget, hrest, hitems⟩ := h
  rw [← hvar] at hget hrest
  refine ⟨.of_tail hm htail, ⟨⟨hr, hb, hq⟩, _, Prod.ext hnext rfl, .refl _⟩,
    @Nexts.named _ _ _ _ [inner] hrest ?_ hitems, hget.trans he.symm⟩
  simp [Cursor.skip, Cursor.atStatementEnd, hrest]

/-- In such a program the loop `l` is entered for the second time with its variable at `x`. The `NEXT` that the run
then comes to finds another loop on the stack, and leaves `l` with `y`. -/
def EntersTwice (clauses : String) (l : Loop) (x y : Float) : Prop :=
  ∃ m d e e' m' d' r, m = abandonsInner clauses ∧ Reachable LoadsIdle m ∧ m.Starts d ∧ d.word? = some .FOR ∧
    forLoop d.pastWord = (.ok .done, e) ∧ Enters l [] e 1 e' ∧ e'.store.get ⟨l.var, []⟩ = .number x ∧
    ReachesNext l [] e' m' d' 2 ∧ d'.stack.items.length = 2 ∧ m'.step = (.running, r) ∧
    r.store.get ⟨l.var, []⟩ = .number y ∧ r.stack.items = [] ∧ r.cursor = d'.cursor.skip 2

/-- Up by one, and down by a half. -/
theorem entries_of_for_abandoned :
    EntersTwice "1 TO 2" twice 2 3 ∧ EntersTwice "2 TO 1.5 STEP -.5" twiceDown 1.5 1 := by
  -- before `FOR I`, where the body is entered and where it comes to `NEXT`
  have hrun : ∀ {clauses : String} {l inner : Loop} {x₀ x₁ x₂ : Float}, (∃ m e m₁ e₁ m₂ : Machine,
      m = abandonsInner clauses ∧ e = (forLoop m.nextStatement.2.pastWord).2 ∧ m₁ = e.step.2 ∧ e₁ = m₁.step.2 ∧
      m₂ = e₁.step.2 ∧ (m.running = true ∧ m.breakRequested = false ∧ m.inquiry = none ∧ m.nextStatement.1 = true) ∧
      m.nextStatement.2.word? = some .FOR ∧ (forLoop m.nextStatement.2.pastWord).1 = .ok .done ∧
      l.var = "I" ∧ e.stack.items = [.loop l] ∧ e.store.get ⟨"I", []⟩ = .number x₀ ∧
      m₁.AtNext l inner x₀ ∧ m₂.AtNext l inner x₁ ∧ l.value x₀ 1 = x₁ ∧ l.value x₀ 2 = x₂ ∧
      (x₁.isFinite = true ∧ (l.step < 0 ∧ l.limit ≤ x₁ ∨ ¬ l.step < 0 ∧ x₁ ≤ l.limit)) ∧
      x₂.isFinite = true ∧ ¬ (l.step < 0 ∧ l.limit ≤ x₂ ∨ ¬ l.step < 0 ∧ x₂ ≤ l.limit)) →
      EntersTwice clauses l x₁ x₂ := by
    rintro clauses l inner x₀ x₁ x₂ ⟨m, e, m₁, e₁, m₂, rfl, he, hm₁, he₁, hm₂, ⟨hr, hb, hq, hnext⟩, hword, hok, hvar,
      hitems, hget, h₁, h₂, hx₁, hx₂, ⟨hfinite₁, hmore⟩, hfinite₂, hpassed⟩
    rw [← hvar] at hget
    have hm : Reachable LoadsIdle (abandonsInner clauses) := .call (reachable_entered _) (.execute 1) nofun
    have hstarts : (abandonsInner clauses).Starts (abandonsInner clauses).nextStatement.2 :=
      ⟨⟨hr, hb, hq⟩, _, Prod.ext hnext rfl, .refl _⟩
    have hfor : forLoop (abandonsInner clauses).nextStatement.2.pastWord = (.ok .done, e) := Prod.ext hok he.symm
    obtain ⟨v, a, b, s, base, -, l', -, hl, -, -, hentries, -⟩ := entries_of_for hm hstarts hword hfor
    obtain ⟨hstack, -, hvalue, hsteps⟩ := hentries 0 e .first
    obtain ⟨hframe, rfl⟩ := List.cons.inj (hitems.symm.trans hstack)
    obtain rfl := Frame.loop.inj hframe
    obtain ⟨rfl, rfl, rfl⟩ : l.var = v ∧ l.limit = b ∧ l.step = s := by
      rw [hl]
      exact ⟨rfl, rfl, rfl⟩
    obtain rfl : x₀ = a := Value.number.inj (hget.symm.trans hvalue)
    obtain ⟨e', hstep₁, henters⟩ := ((hsteps _ _ _ (h₁.reachesNext hvar hm₁ hget)).2
      (by rw [hx₁]; exact hfinite₁)).1 (by rw [hx₁]; exact hmore)
    obtain rfl : e₁ = e' := he₁.trans (congrArg Prod.snd hstep₁)
    obtain ⟨-, -, hvalue₁, hsteps₁⟩ := hentries 1 e₁ henters
    rw [hx₁] at hvalue₁
    have hreaches₂ := h₂.reachesNext hvar hm₂ hvalue₁
    obtain ⟨r, hr₂, hleft, hbase, -, hcursor⟩ := ((hsteps₁ _ _ _ hreaches₂).2
      (by rw [hx₂]; exact hfinite₂)).2 (by rw [hx₂]; exact hpassed)
    rw [hx₂] at hleft
    exact ⟨_, _, e, e₁, m₂, _, r, rfl, hm, hstarts, hword, hfor, henters, hvalue₁, hreaches₂,
      congrArg List.length h₂.2.2.2.2, hr₂, hleft, hbase, hcursor⟩
  exact ⟨@hrun _ _ ⟨"J", 9, 1, ⟨some 10, 13⟩⟩ 1 _ _ ⟨_, _, _, _, _, rfl, rfl, rfl, rfl, rfl, by decide +kernel⟩,
    @hrun _ _ ⟨"J", 9, 1, ⟨some 10, 16⟩⟩ 2 _ _ ⟨_, _, _, _, _, rfl, rfl, rfl, rfl, rfl, by decide +kernel⟩⟩

/-- A subroutine that goes on with this loop of its caller, before the loop. -/
def nextsInCall : Machine :=
  ((entered ["10 FOR I=1 TO 2:GOSUB 30", "20 END", "30 NEXT I", "RUN"]).execute 1).2

/-- `NEXT` does not look for its loop below a call. -/
theorem next_across_call : ∃ m e m' d, m = nextsInCall ∧ Reachable LoadsIdle m ∧ m.step = (.running, e) ∧
    e.stack.items = [.loop twice] ∧ Retains [.loop twice] e m' ∧ m'.Starts d ∧
    d.cursor.rest = [.word .NEXT, .name twice.var] ∧
    d.store.get ⟨twice.var, []⟩ = e.store.get ⟨twice.var, []⟩ ∧
    (twice.step < 0 ∧ twice.limit ≤ twice.value 1 1 ∨ ¬ twice.step < 0 ∧ twice.value 1 1 ≤ twice.limit) ∧
    m'.advance.1 = .error (.of .nextWithoutFor) := by
  have hm : Reachable LoadsIdle nextsInCall := .call (reachable_entered _) (.execute 1) nofun
  obtain ⟨m, e, m', rfl, he, hm', hevent, hitems, htail, ⟨hr, hb, hq, hnext⟩, hrest, hget, hmore, hfault⟩ :
      ∃ m e m' : Machine, m = nextsInCall ∧ e = m.step.2 ∧ m' = e.step.2 ∧ m.step.1 = .running ∧
      e.stack.items = [.loop twice] ∧ m'.stack.items.tail = [.loop twice] ∧
      (m'.running = true ∧ m'.breakRequested = false ∧ m'.inquiry = none ∧ m'.nextStatement.1 = true) ∧
      m'.nextStatement.2.cursor.rest = [.word .NEXT, .name twice.var] ∧
      m'.nextStatement.2.store.get ⟨twice.var, []⟩ = e.store.get ⟨twice.var, []⟩ ∧
      (twice.step < 0 ∧ twice.limit ≤ twice.value 1 1 ∨ ¬ twice.step < 0 ∧ twice.value 1 1 ≤ twice.limit) ∧
    m'.advance.1 = .error (.of .nextWithoutFor) :=
    ⟨_, _, _, rfl, rfl, rfl, by decide +kernel⟩
  exact ⟨_, e, m', _, rfl, hm, Prod.ext hevent he.symm, hitems, .of_tail hm' htail,
    ⟨⟨hr, hb, hq⟩, _, Prod.ext hnext rfl, .refl _⟩, hrest, hget, hmore, hfault⟩

end Machine

end LineBasic
