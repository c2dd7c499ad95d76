import LineBasic.Proofs.Machine.Failure
import LineBasic.Proofs.Machine.Reachable
import LineBasic.Proofs.Statement.Calls

/-! Subroutines over a whole run. As long as the stack is longer than it was at a call, what was there
then and the call itself are not touched, whatever is called, opened, closed or trapped above; and the
`RETURN` that takes the call away leads back to behind it. -/

namespace LineBasic

/-- Calls of the host that bring no new line, and take no more than one step. -/
def Call.goesOn : Call → Bool
  | .enter _ | .load _ | .execute _ => false
  | _ => true

namespace Machine

open Statement

/-- A run within the call that returns to `p`, a place among `tokens`, with `base` below it. Nothing above
the call leads back to the direct line. -/
structure Inside (p : Position) (tokens : List Token) (base : List Frame) (m : Machine) : Prop where
  line : m.line.isSome
  frames : ∃ above, m.stack.items = above ++ .call p :: base ∧ ∀ f ∈ above, f.position.line.isSome
  failed : ∀ f, m.failure = some f → f.statement.line.isSome
  place : m.tokensOf p.line = .ok tokens

variable {p : Position} {tokens : List Token} {base : List Frame} {m m' : Machine}

/-! ## Statements -/

theorem Inside.makes {a : Action} (ha : a ∉ [Action.ret, .clear, .erase]) (h : m.Makes a m')
    (hm : m.Inside p tokens base) : m'.Inside p tokens base := by
  obtain ⟨hline, ⟨above, hitems, habove⟩, hfailed, hplace⟩ := hm
  cases h with
  | ret | retAstray | clear | erase => simp at ha
  | delete _ _ hdirect | cont hdirect | contAstray hdirect =>
    rw [hdirect] at hline
    cases hline
  | goto => exact ⟨rfl, ⟨above, hitems, habove⟩, hfailed, hplace⟩
  | resume hf => exact ⟨hfailed _ hf, ⟨above, hitems, habove⟩, hfailed, hplace⟩
  | @openLoop _ l stack hbody hs =>
    obtain ⟨above', hitems', hsuffix⟩ := openLoop_above hs hitems
    refine ⟨hline, ⟨.loop l :: above', hitems', fun f hf => ?_⟩, hfailed, hplace⟩
    rcases List.mem_cons.mp hf with rfl | hf
    · rw [Frame.position, hbody]
      exact hline
    · exact habove f (hsuffix.subset hf)
  | @call _ stack hs =>
    refine ⟨hline, ⟨.call m.position :: above, ?_, fun f hf => ?_⟩, hfailed, hplace⟩
    · rw [Stack.items_push hs, hitems]
      rfl
    · rcases List.mem_cons.mp hf with rfl | hf
      · exact hline
      · exact habove f hf
  | @reachLoop _ var l below h =>
    rw [hitems] at h
    obtain ⟨above', rfl, hsuffix⟩ := findLoop?_above h
    exact ⟨hline, ⟨.loop l :: above', rfl, fun f hf => habove f (hsuffix.subset hf)⟩, hfailed, hplace⟩
  | @repeatLoop _ l below _ hs =>
    cases above with
    | nil => cases hitems.symm.trans hs
    | cons f above =>
      obtain ⟨rfl, -⟩ := List.cons.inj (hitems.symm.trans hs)
      exact ⟨habove (.loop l) List.mem_cons_self, ⟨.loop l :: above, hitems, habove⟩, hfailed, hplace⟩
  | @endLoop _ l below hs =>
    cases above with
    | nil => cases hitems.symm.trans hs
    | cons f above =>
      obtain ⟨-, rfl⟩ := List.cons.inj (hitems.symm.trans hs)
      exact ⟨hline, ⟨above, rfl, fun f hf => habove f (List.mem_cons_of_mem _ hf)⟩, hfailed, hplace⟩
  | scan | tape | define | take | restore | restoreAt | trap | leave | inquire =>
    exact ⟨hline, ⟨above, hitems, habove⟩, hfailed, hplace⟩

/-- Still within the call, or with no more frames than were below it. -/
def Within (p : Position) (tokens : List Token) (base : List Frame) (m : Machine) : Prop :=
  m.Inside p tokens base ∨ m.stack.size ≤ base.length

theorem Inside.ret (hm : m.Inside p tokens base) (h : m.Makes .ret m') : m'.Within p tokens base := by
  obtain ⟨hline, ⟨above, hitems, habove⟩, hfailed, hplace⟩ := hm
  have hpop : ∀ {q below}, m.stack.items = .call q :: below →
      (∃ rest, above = .call q :: rest ∧ m.stack.pop.items = rest ++ .call p :: base) ∨
        m.stack.pop.size ≤ base.length := by
    intro q below hs
    cases above with
    | nil => exact .inr (by simp [Stack.pop, Stack.size, hitems])
    | cons f rest =>
      obtain ⟨rfl, -⟩ := List.cons.inj (hitems.symm.trans hs)
      exact .inl ⟨rest, rfl, by simp [Stack.pop, hitems]⟩
  cases h with
  | @ret _ q below _ hs =>
    rcases hpop hs with ⟨rest, rfl, hrest⟩ | hleft
    · exact .inl ⟨habove (.call q) List.mem_cons_self,
        ⟨rest, hrest, fun f hf => habove f (List.mem_cons_of_mem _ hf)⟩, hfailed, hplace⟩
    · exact .inr hleft
  | retAstray hs =>
    rcases hpop hs with ⟨rest, rfl, hrest⟩ | hleft
    · exact .inl ⟨hline, ⟨rest, hrest, fun f hf => habove f (List.mem_cons_of_mem _ hf)⟩, hfailed, hplace⟩
    · exact .inr hleft

/-- Only two actions put a frame on the stack. -/
theorem size_makes {a : Action} (ha : a ∉ [Action.openLoop, .call]) (h : m.Makes a m') :
    m'.stack.size ≤ m.stack.size := by
  cases h with
  | openLoop | call => simp at ha
  | reachLoop h => exact (findLoop?_suffix h).length_le
  | endLoop hs => simp [Stack.size, hs]
  | ret | retAstray => simp [Stack.size, Stack.pop]
  | clear | erase => exact Nat.zero_le _
  | _ => exact Nat.le_refl _

theorem Within.makes {a : Action} (ha : a ∉ [Action.openLoop, .call]) (h : m.Makes a m')
    (hm : m.Within p tokens base) : m'.Within p tokens base := by
  rcases hm with hm | hm
  · by_cases hkeeps : a ∉ [Action.ret, .clear, .erase]
    · exact .inl (hm.makes hkeeps h)
    · cases h with
      | ret hs ht => exact hm.ret (.ret hs ht)
      | retAstray hs ht => exact hm.ret (.retAstray hs ht)
      | clear | erase => exact .inr (Nat.zero_le _)
      | _ => simp at hkeeps
  · exact .inr (Nat.le_trans (size_makes ha h) hm)

/-- No statement both adds frames to the stack and takes calls off it. -/
theorem actions_cases (m : Machine) : (∀ a ∈ m.actions, a ∉ [Action.ret, .clear, .erase]) ∨
    ∀ a ∈ m.actions, a ∉ [Action.openLoop, .call] := by
  rw [actions]
  cases m.word? with
  | none => simp
  | some w => cases w <;> simp [Word.actions]

theorem Inside.dispatch (hm : m.Inside p tokens base) (n : Nat) : (dispatch n m).2.Within p tokens base := by
  have hif : ∀ a ∈ Word.IF.actions, a ∉ [Action.ret, .clear, .erase] := by decide
  refine dispatch_induct (fun a ha => Inside.makes (hif a ha)) (fun d hd => .inl hd) (fun d _ hd => ?_) hm n
  rcases actions_cases d with hkeeps | hkeeps
  · exact .inl (one_keeps (fun a ha => Inside.makes (hkeeps a ha)) hd)
  · exact one_keeps (fun a ha => Within.makes (hkeeps a ha)) (.inl hd)

/-! ## A step -/

theorem Within.stop (hm : m.Within p tokens base) (k : Option Continuation) (t : Tape) :
    Within p tokens base { m.stop with continuation := k, tape := t } :=
  hm.imp (fun hm => ⟨hm.line, hm.frames, hm.failed, hm.place⟩) id

theorem Within.fail (hm : m.Within p tokens base) (c : Condition) : (m.fail c).2.Within p tokens base := by
  obtain ⟨k, t, heq⟩ := fail_eq m c
  rw [heq]
  exact hm.stop k t

/-- A handler drops frames from the top. -/
theorem Within.serving (hm : m.Within p tokens base) (hs : m.statement.line.isSome) (c : Condition)
    (t : Trap) : (m.serving c t).Within p tokens base := by
  have hsuffix : (m.stack.truncate t.height).items <:+ m.stack.items := List.drop_suffix _ _
  rcases hm with hm | hm
  · obtain ⟨above, hitems, habove⟩ := hm.frames
    rw [hitems] at hsuffix
    rcases suffix_frames hsuffix with ⟨above', hitems', habove'⟩ | hleft
    · refine .inl ⟨hm.line, ⟨above', hitems', fun f hf => habove f (habove'.subset hf)⟩, fun f hf => ?_,
        hm.place⟩
      cases hf
      exact hs
    · exact .inr hleft
  · exact .inr (Nat.le_trans hsuffix.length_le hm)

theorem Within.tell {r : Except Condition Flow × Machine} (hm : r.2.Within p tokens base)
    (hs : r.2.statement.line.isSome) : (tell r).2.Within p tokens base := by
  obtain ⟨c | flow, m⟩ := r
  · have hraised := raised m c
    show (m.raise c).2.Within p tokens base
    generalize m.raise c = r at hraised ⊢
    cases hraised with
    | uncaught => exact hm.fail _
    | @handled t =>
      exact (hm.serving hs (c.within m.line) t).imp (fun h => ⟨rfl, h.frames, h.failed, h.place⟩) id
    | astray => exact (hm.serving hs _ _).fail _
  · cases flow with
    | halted why =>
      obtain ⟨k, t, heq⟩ := halt_eq m why
      show (m.halt why).2.Within p tokens base
      rw [heq]
      exact hm.stop k t
    | done | again | moved | waiting => exact hm

theorem Inside.sought (hm : m.Inside p tokens base) (h : m.Sought m') : m'.Inside p tokens base := by
  have hline : m'.line.isSome := by
    have hdirect := h.direct
    have hsome := hm.line
    rw [← Option.not_isNone, hdirect, Option.not_isNone, hsome]
  rw [h.eq]
  exact ⟨hline, hm.frames, hm.failed, hm.place⟩

theorem statement_makes {a : Action} (h : m.Makes a m') : m'.statement = m.statement := by
  cases h <;> rfl

/-- A step of a run within a call leaves it there, or takes the call off the stack. -/
theorem Inside.step (hm : m.Inside p tokens base) (hsound : m.Sound) : m.step.2.Within p tokens base := by
  have hkeeps : ∀ (q : Position) (a : Action), a.Keeps fun m : Machine => m.statement = q :=
    fun q _ _ _ h hs => (statement_makes h).trans hs
  cases hrunning : m.running with
  | false =>
    rw [step_of_idle hrunning]
    exact .inl hm
  | true =>
    rw [step_eq hrunning]
    have hadvance := advanced m
    generalize m.advance = r at hadvance ⊢
    cases hadvance with
    | broken =>
      obtain ⟨k, t, heq⟩ := halt_eq m.takeBreak .interrupted
      show (m.takeBreak.halt .interrupted).2.Within p tokens base
      rw [heq]
      exact .inl ⟨hm.line, hm.frames, hm.failed, hm.place⟩
    | @finished s _ _ hs =>
      obtain ⟨k, t, heq⟩ := halt_eq s .finished
      show (s.halt .finished).2.Within p tokens base
      rw [heq]
      exact Within.stop (.inl (hm.sought (sought_of_next hs))) k t
    | @polled q _ hq =>
      have hpoll : ({ m with inquiry := none } : Machine).Inside p tokens base :=
        ⟨hm.line, hm.frames, hm.failed, hm.place⟩
      have hwaits := (hsound.waits (by rw [hq]; rfl)).2
      refine Within.tell (.inl ?_) ?_
      · exact (Acts.pollInput (Inside.makes (by decide)) (Inside.makes (by decide))
          (Inside.makes (by decide)) q).snd hpoll
      · have hstatement := (Acts.pollInput (hkeeps m.statement _) (hkeeps _ _) (hkeeps _ _) q).snd
          (s := { m with inquiry := none }) rfl
        rw [hstatement, hwaits]
        exact hm.line
    | @executed s _ hq hs =>
      have hpoised := hsound.poised_next hrunning hq hs
      have hinside : s.Inside p tokens base := hm.sought (sought_of_next hs)
      refine (hinside.dispatch _).tell ?_
      have hstatement := dispatch_keeps (m := s) (fun _ _ a _ => hkeeps s.statement a) (fun a _ => hkeeps _ a)
        rfl (s.cursor.rest.length + 1)
      rw [hstatement, hpoised.statement]
      exact hinside.line

/-! ## Runs -/

/-- Step by step one state leads to another, and after each step the stack has more than `n` frames. -/
inductive Passes (n : Nat) (m : Machine) : Machine → Prop
  | refl : Passes n m m
  | call {m' : Machine} {c : Call} (h : Passes n m m') (hc : c.goesOn = true)
      (hn : n < (m'.call c).stack.size) : Passes n m (m'.call c)

theorem Inside.call (hm : m.Inside p tokens base) (hs : m.Sound) {c : Call} (hc : c.goesOn = true) :
    (m.call c).Within p tokens base := by
  cases c with
  | enter | load | execute => cases hc
  | step => exact hm.step hs
  | interrupt =>
    rw [Machine.call, interrupt]
    split
    · exact .inl ⟨hm.line, hm.frames, hm.failed, hm.place⟩
    · exact .inl hm
  | type | takeOutput | expression | target | lineNumber =>
    exact .inl ⟨hm.line, hm.frames, hm.failed, hm.place⟩

theorem Passes.inside (h : Passes base.length m m') (hm : m.Inside p tokens base) (hs : m.Sound) :
    m'.Inside p tokens base ∧ m'.Sound := by
  induction h with
  | refl => exact ⟨hm, hs⟩
  | @call m' c _ hc hn ih =>
    refine ⟨?_, ih.2.call ?_⟩
    · rcases ih.1.call ih.2 hc with hinside | hleft
      · exact hinside
      · exact absurd hleft (Nat.not_le.mpr hn)
    · rintro s rfl
      cases hc

theorem Inside.bottomFirst (hm : m.Inside p tokens base) :
    m.stack.bottomFirst.take (base.length + 1) = base.reverse ++ [.call p] := by
  obtain ⟨above, hitems, -⟩ := hm.frames
  simp [Stack.bottomFirst, hitems, List.take_append]

theorem ret_of_call {q : Position} {below : List Frame} (hs : m.stack.items = .call q :: below)
    (ht : m.tokensOf q.line = .ok tokens) : Statement.ret m = (.ok .moved,
      { m with stack := m.stack.pop, cursor := .atToken tokens q.token, line := q.line }) := by
  have htop : m.stack.top? = some (.call q) := by rw [Stack.top?, hs]; rfl
  have hjump := Exec.jump_of_ok (m := { m with stack := m.stack.pop }) ht
  rw [Statement.ret, bind_get, htop]
  exact bind_of_ok (f := fun _ => pure Flow.moved) hjump

/-- `RETURN` takes at most one frame off the stack. -/
theorem size_ret (m : Machine) : m.stack.size ≤ (Statement.ret m).2.stack.size + 1 := by
  have hpop : m.stack.size ≤ m.stack.pop.size + 1 := by
    simp only [Stack.size, Stack.pop, List.length_tail]
    omega
  rw [Statement.ret, bind_get]
  cases htop : m.stack.top? with
  | none => exact Nat.le_succ _
  | some f =>
    cases f with
    | loop l => exact Nat.le_succ _
    | call q =>
      have hjump : Acts.Keeps (fun s => s.stack = m.stack.pop) (Exec.jump q >>= fun _ => pure Flow.moved) :=
        (Acts.jump fun _ hs => hs).bind fun _ => .pure _
      have hstack := hjump.snd (s := { m with stack := m.stack.pop }) rfl
      show _ ≤ ((Exec.jump q >>= fun _ => pure Flow.moved) { m with stack := m.stack.pop }).2.stack.size + 1
      rw [hstack]
      exact hpop

/-- The `RETURN` that takes the call off the stack leads back to behind it. -/
theorem Inside.returns (hm : m.Inside p tokens base) (hp : p.token ≤ tokens.length) {d : Machine}
    (hd : m.Starts d) (hword : d.word? = some .RETURN)
    (hsize : (Statement.ret d.pastWord).2.stack.size = base.length) :
    ∃ m', m.step = (.running, m') ∧ m'.stack.items = base ∧ m'.position = p := by
  have hif : ∀ a ∈ Word.IF.actions, a ∉ [Action.ret, .clear, .erase] := by decide
  obtain ⟨hready, s, hs, hopens⟩ := id hd
  have hinside : d.pastWord.Inside p tokens base :=
    (hopens.keeps (fun a ha => Inside.makes (hif a ha)) (hm.sought (sought_of_next hs))).makes (by decide)
      (.scan (.advance d.toWorkspace))
  obtain ⟨above, hitems, -⟩ := hinside.frames
  have habove : above = [] := by
    have hret := size_ret d.pastWord
    rw [hsize, Stack.size, hitems, List.length_append, List.length_cons] at hret
    exact List.eq_nil_of_length_eq_zero (by omega)
  subst habove
  have hone := (one_of_word? hword).trans (ret_of_call hitems hinside.place)
  have hstep := hd.step_eq fun m' hagain => by rw [hone] at hagain; cases hagain
  rw [bind_of_ok hone] at hstep
  refine ⟨_, hstep, by simp [Stack.pop, hitems], ?_⟩
  show (⟨p.line, (Cursor.atToken tokens p.token).pos⟩ : Position) = p
  rw [Cursor.pos_atToken, Nat.min_eq_left hp]

/-! ## The call -/

/-- What becomes of a condition adds nothing to the stack. -/
theorem size_tell (r : Except Condition Flow × Machine) : (tell r).2.stack.size ≤ r.2.stack.size := by
  have hfail : ∀ (m : Machine) c, (m.fail c).2.stack = m.stack := by
    intro m c
    obtain ⟨k, t, h⟩ := fail_eq m c
    rw [h]
    rfl
  have hserving : ∀ (m : Machine) c t, (m.serving c t).stack.size ≤ m.stack.size := fun m c t =>
    (List.drop_suffix _ m.stack.items).length_le
  obtain ⟨c | flow, m⟩ := r
  · have hraised := raised m c
    show (m.raise c).2.stack.size ≤ m.stack.size
    generalize m.raise c = r at hraised ⊢
    cases hraised with
    | uncaught => rw [hfail]
    | @handled t => exact hserving m (c.within m.line) t
    | astray =>
      rw [hfail]
      exact hserving m _ _
  · cases flow with
    | halted why =>
      obtain ⟨k, t, h⟩ := halt_eq m why
      show (m.halt why).2.stack.size ≤ m.stack.size
      rw [h]
      exact Nat.le_refl _
    | done | again | moved | waiting => exact Nat.le_refl _

theorem Starts.stack {d : Machine} (hd : m.Starts d) : d.stack = m.stack := by
  obtain ⟨-, s, hs, hopens⟩ := hd
  have hsought : s.stack = m.stack := by rw [(sought_of_next hs).eq]
  have hif : ∀ a ∈ Word.IF.actions, a ∈ [Action.scan, .goto, .trap, .leave] := by decide
  exact hopens.keeps (P := fun d => d.stack = m.stack)
    (fun a ha _ _ h hm => (stack_makes (hif a ha) h).trans hm) hsought

theorem Starts.walks {d : Machine} (hd : m.Starts d) (hm : m.Sound) : d.Walks := by
  obtain ⟨hready, s, hs, hopens⟩ := hd
  exact hopens.change.walks ((sought_of_next hs).walks (hm.walks hready.running))

/-- Where `GOSUB` or `ON` makes the stack grow, it has called a line: the call is on top of the stack, and
the run is within it. -/
theorem Starts.calls {d : Machine} (hd : m.Starts d) (hm : m.Sound)
    (hword : d.word? = some .GOSUB ∨ d.word? = some .ON) (hcall : m.stack.size < m.step.2.stack.size) :
    ∃ n p m', Calls d n p ∧ m.step = (.running, m') ∧ m'.position = ⟨some n, 0⟩ ∧
      m'.stack.items = .call p :: m.stack.items ∧
      m'.Inside p d.cursor.tokens m.stack.items ∧ p.token ≤ d.cursor.tokens.length := by
  have hstep := hd.step_eq fun m' hagain => by
    have hif := word?_of_again hagain
    rcases hword with hword | hword <;> cases hword.symm.trans hif
  have hgrown : (one d).2.stack ≠ d.stack := by
    intro hsame
    have hle := size_tell ((one >>= settle) d)
    rw [← hstep, snd_settled, hsame, hd.stack] at hle
    exact absurd hcall (Nat.not_lt.mpr hle)
  obtain ⟨n, p, s, m', hcalls, hleaves, hone, tokens, stack, ht, hs, hm'⟩ := calls_of_one hword hgrown
  rw [bind_of_ok hone] at hstep
  have hstep : m.step = (.running, m') := hstep
  have hitems : m'.stack.items = .call p :: m.stack.items := by
    rw [hm', ← hd.stack]
    show stack.items = _
    rw [Stack.items_push hs, hleaves.position, hleaves.same]
  refine ⟨n, p, m', hcalls, hstep, ?_, hitems, ⟨?_, ⟨[], hitems, nofun⟩, ?_, ?_⟩, ?_⟩
  · rw [hm']
    simp [position]
  · rw [hm']
    rfl
  · have hsound := hm.step
    rw [hstep] at hsound
    exact hsound.failed
  · have hwalks := hd.walks hm
    have hline : p.line = d.line := by
      rw [← hleaves.position, hleaves.same]
      rfl
    rw [hm', hleaves.same, hline]
    exact hwalks
  · rw [← hleaves.position, ← hleaves.tokens]
    exact s.cursor.pos_le

/-- Let a step of a session execute a `GOSUB`, or an `ON` that calls a line. As long as, step by step, the
stack stays longer than it was before, its lowest frames are those of that stack and the call, which
returns to the place behind the list of lines. The `RETURN` that brings the stack to its old length
restores the old stack and goes on from that place. -/
theorem return_of_reachable (h : Reachable LoadsIdle m) {d : Machine} (hd : m.Starts d)
    (hword : d.word? = some .GOSUB ∨ d.word? = some .ON) (hcall : m.stack.size < m.step.2.stack.size) :
    ∃ n p, Calls d n p ∧ m.step.1 = .running ∧ m.step.2.position = ⟨some n, 0⟩ ∧
      m.step.2.stack.items = .call p :: m.stack.items ∧
      ∀ m', Passes m.stack.size m.step.2 m' →
        m'.stack.bottomFirst.take (m.stack.size + 1) = m.stack.bottomFirst ++ [.call p] ∧
        ∀ d', m'.Starts d' → d'.word? = some .RETURN →
          (Statement.ret d'.pastWord).2.stack.size = m.stack.size →
          ∃ m'', m'.step = (.running, m'') ∧ m''.stack.items = m.stack.items ∧ m''.position = p := by
  obtain ⟨n, p, s, hcalls, hstep, hposition, hitems, hinside, hp⟩ := hd.calls h.sound hword hcall
  have hsound := h.sound.step
  rw [hstep] at hsound ⊢
  refine ⟨n, p, hcalls, rfl, hposition, hitems, fun m' hm' => ?_⟩
  have hinside' := (hm'.inside hinside hsound).1
  refine ⟨hinside'.bottomFirst, fun d' hd' hword' hsize => hinside'.returns hp hd' hword' hsize⟩

/-- A call by `ON` within a loop, with another call and another loop inside. -/
theorem return_of_reachable_on : ∃ m d m' d' : Machine,
    m = ((entered ["10 FOR I=1 TO 2", "20 ON I GOSUB 30", "30 GOSUB 40:RETURN",
      "40 FOR J=1 TO 1:NEXT:RETURN", "RUN"]).execute 2).2 ∧
    Reachable LoadsIdle m ∧ m.Starts d ∧ d.word? = some .ON ∧ m.stack.size = 1 ∧
    m.stack.size < m.step.2.stack.size ∧ Passes m.stack.size m.step.2 m' ∧ m'.Starts d' ∧
    d'.word? = some .RETURN ∧ (Statement.ret d'.pastWord).2.stack.size = m.stack.size ∧
    ∃ n p m'', Calls d n p ∧ m'.step = (.running, m'') ∧ m''.stack.items = m.stack.items ∧
      m''.position = p := by
  have hstate : ∃ m m₁ m₂ m₃ m₄ m₅ : Machine,
      m = ((entered ["10 FOR I=1 TO 2", "20 ON I GOSUB 30", "30 GOSUB 40:RETURN",
        "40 FOR J=1 TO 1:NEXT:RETURN", "RUN"]).execute 2).2 ∧
      m₁ = m.step.2 ∧ m₂ = m₁.step.2 ∧ m₃ = m₂.step.2 ∧ m₄ = m₃.step.2 ∧ m₅ = m₄.step.2 ∧
      [m, m₁, m₂, m₃, m₄, m₅].map (·.stack.size) = [1, 2, 3, 4, 3, 2] ∧
      (m.running = true ∧ m.breakRequested = false ∧ m.inquiry = none ∧ m.nextStatement.1 = true ∧
        m.nextStatement.2.word? = some .ON) ∧
      (m₅.running = true ∧ m₅.breakRequested = false ∧ m₅.inquiry = none ∧ m₅.nextStatement.1 = true ∧
        m₅.nextStatement.2.word? = some .RETURN) ∧
      (Statement.ret m₅.nextStatement.2.pastWord).2.stack.size = 1 :=
    ⟨_, _, _, _, _, _, rfl, rfl, rfl, rfl, rfl, rfl, by decide +kernel⟩
  obtain ⟨m, m₁, m₂, m₃, m₄, m₅, hm, hm₁, hm₂, hm₃, hm₄, hm₅, hsizes, ⟨hr, hb, hq, hnext, hword⟩,
    ⟨hr', hb', hq', hnext', hword'⟩, hret⟩ := hstate
  simp only [List.map_cons, List.map_nil, List.cons.injEq] at hsizes
  obtain ⟨h₀, h₁, h₂, h₃, h₄, h₅, -⟩ := hsizes
  have hreachable : Reachable LoadsIdle m := hm ▸ .call (reachable_entered _) (.execute 2) nofun
  have hstarts : m.Starts m.nextStatement.2 := ⟨⟨hr, hb, hq⟩, _, Prod.ext hnext rfl, .refl _⟩
  have hstarts' : m₅.Starts m₅.nextStatement.2 := ⟨⟨hr', hb', hq'⟩, _, Prod.ext hnext' rfl, .refl _⟩
  have hcall : m.stack.size < m.step.2.stack.size := by
    rw [← hm₁, h₀, h₁]
    decide
  have hpasses : Passes m.stack.size m.step.2 m₅ := by
    rw [h₀, ← hm₁]
    have hpass₂ : Passes 1 m₁ m₂ := hm₂ ▸ .call (c := .step) .refl rfl (by rw [call, ← hm₂, h₂]; decide)
    have hpass₃ : Passes 1 m₁ m₃ := hm₃ ▸ .call (c := .step) hpass₂ rfl (by rw [call, ← hm₃, h₃]; decide)
    have hpass₄ : Passes 1 m₁ m₄ := hm₄ ▸ .call (c := .step) hpass₃ rfl (by rw [call, ← hm₄, h₄]; decide)
    exact hm₅ ▸ .call (c := .step) hpass₄ rfl (by rw [call, ← hm₅, h₅]; decide)
  obtain ⟨n, p, hcalls, -, -, -, hall⟩ := return_of_reachable hreachable hstarts (.inr hword) hcall
  have hsize : (Statement.ret m₅.nextStatement.2.pastWord).2.stack.size = m.stack.size := hret.trans h₀.symm
  obtain ⟨m'', hstep, hitems, hposition⟩ := (hall m₅ hpasses).2 _ hstarts' hword' hsize
  exact ⟨m, _, m₅, _, hm, hreachable, hstarts, hword, h₀, hcall, hpasses, hstarts', hword', hsize, n, p, m'',
    hcalls, hstep, hitems, hposition⟩

end Machine

end LineBasic
