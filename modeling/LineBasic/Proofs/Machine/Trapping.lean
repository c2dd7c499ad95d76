import LineBasic.Proofs.Machine.Continuation
import LineBasic.Proofs.Machine.ResumeNext
import LineBasic.Proofs.Statement.Conditions

/-! Conditions that a trap catches. The handler is entered with the stack cut to the height that it had when
the trap was set, and `RESUME` leads back to where the statement that failed began. -/

namespace LineBasic

namespace Machine

open Statement

variable {m m' d e : Machine} {c : Condition}

theorem Change.trap_eq {jumps : Bool} (h : Change jumps false m m') : m'.trap = m.trap := by
  induction h with
  | refl => rfl
  | clear hr => cases hr
  | trap _ _ hr => cases hr
  | _ => assumption

/-! ## Where a trap comes from -/

/-- The statement at the cursor sends conditions to line `n`. -/
def SetsTrap (d : Machine) (n : Nat) : Prop :=
  n ≠ 0 ∧ ∃ t rest, d.cursor.rest = .word .ON :: .word .ERROR :: .word .GOTO :: t :: rest ∧ t.lineNumber = .ok n

/-- Conditions go to line `n` and cut the stack to height `k`. That is the height at which `ON ERROR` set the
trap; where a direct line has dropped frames since, it is no more than what was left of them. -/
inductive Traps (n : Nat) : Nat → Machine → Prop
  | set {m d : Machine} (hd : m.Starts d) (h : d.SetsTrap n) : Traps n d.stack.size m.step.2
  | kept {k : Nat} {m : Machine} {c : Call} (h : Traps n k m) (hc : (m.call c).trap = m.trap) :
      Traps n k (m.call c)
  | dropped {k : Nat} {m : Machine} {s : String} (h : Traps n k m)
      (hs : (m.enter s).2.stack.size < m.stack.size) : Traps n (min k (m.enter s).2.stack.size) (m.enter s).2

theorem trap_onError (m : Machine) : (onError m).2.trap = m.trap ∨ (onError m).2.trap = none ∨
    ∃ t rest n, m.cursor.rest = .word .GOTO :: t :: rest ∧ t.lineNumber = .ok n ∧ n ≠ 0 ∧
      (onError m).2.trap = some ⟨n, m.stack.size⟩ := by
  cases hgoto : Eval.expect (.word .GOTO) m.toWorkspace with
  | mk r w =>
    have hexpect := Extends.liftM_apply (m := m) hgoto
    cases r with
    | error c =>
      rw [onError, bind_of_error hexpect]
      exact .inl rfl
    | ok u =>
      obtain ⟨rest, hrest, rfl⟩ := Eval.expect_eq_ok hgoto
      rw [onError, bind_of_ok hexpect]
      cases hnumber : Eval.lineNumber { m.toWorkspace with cursor := m.cursor.skip 1 } with
      | mk r w =>
        have hline := Extends.liftM_apply (m := { m with cursor := m.cursor.skip 1 }) hnumber
        cases r with
        | error c =>
          rw [bind_of_error hline]
          exact .inl rfl
        | ok n =>
          obtain ⟨t, rest', hrest', ht, rfl⟩ := Eval.lineNumber_eq_ok hnumber
          rw [bind_of_ok hline, bind_get]
          simp only [Cursor.skip, hrest, List.drop_succ_cons, List.drop_zero] at hrest'
          subst hrest'
          by_cases hn : n = 0
          · subst hn
            simp only [beq_self_eq_true, if_true]
            cases m.failure.filter fun _ => m.handling with
            | none => exact .inr (.inl rfl)
            | some f => exact .inr (.inl rfl)
          · rw [if_neg (by simpa using hn)]
            exact .inr (.inr ⟨t, rest', n, hrest, ht, hn, rfl⟩)

theorem trap_mem_actions {w : Word} (h : .trap ∈ w.actions) : w = .ON := by
  cases w <;> simp [Word.actions] at h ⊢

/-- Only `ON ERROR` sets a trap. -/
theorem trap_one (d : Machine) : (one d).2.trap = d.trap ∨ (one d).2.trap = none ∨
    ∃ n, d.SetsTrap n ∧ (one d).2.trap = some ⟨n, d.stack.size⟩ := by
  by_cases hword : d.word? = some .ON
  · obtain ⟨rest, hrest⟩ := rest_of_word? hword
    have hpast : d.pastWord.cursor.rest = rest := by
      rw [pastWord, Cursor.advance, hrest]
    rw [one_of_word? hword, ofWord]
    by_cases herror : rest.head? = some (.word .ERROR)
    · obtain ⟨rest', rfl⟩ := List.head?_eq_some_iff.mp herror
      have haccept : Eval.accept (.word .ERROR) d.pastWord.toWorkspace =
          (.ok true, { d.pastWord.toWorkspace with cursor := d.pastWord.cursor.skip 1 }) := by
        rw [Eval.accept, Eval.onCursor_apply, Cursor.accept, Cursor.peek?, hpast, Cursor.advance_eq_skip]
        rfl
      rw [on, bind_of_ok (Extends.liftM_apply haccept)]
      rcases trap_onError { d.pastWord with cursor := d.pastWord.cursor.skip 1 } with
        hsame | hnone | ⟨t, tail, n, htail, ht, hn, htrap⟩
      · exact .inl hsame
      · exact .inr (.inl hnone)
      · rw [Cursor.skip, hpast] at htail
        refine .inr (.inr ⟨n, ⟨hn, t, tail, ?_, ht⟩, htrap⟩)
        rw [hrest, show rest' = _ from htail]
    · rw [on_eq_select (by rw [hpast]; exact herror)]
      have hselect := Backdrop.commutes_id
        (Lands.select (Backdrop.own_spares d.pastWord) d.pastWord (.refl : Change false false d.pastWord _))
      have htrap : CommutesAt id d.pastWord select select (fun _ m' => m'.trap = d.trap) (·.trap = d.trap) :=
        hselect.mono (fun _ _ h => h.2.trap_eq) fun _ h => h.trap_eq
      exact .inl htrap.snd
  · have hkept := one_keeps (m := d) (P := fun m => m.trap = d.trap ∨ m.trap = none) (fun a ha m m' h hm => ?_)
      (.inl rfl)
    · exact hkept.imp_right .inl
    · cases h with
      | trap =>
        rw [actions] at ha
        split at ha
        · rename_i w hw
          rcases List.mem_cons.mp ha with heq | ha
          · cases heq
          · exact absurd (hw.trans (congrArg some (trap_mem_actions ha))) hword
        · simp at ha
      | clear | erase => exact .inr rfl
      | _ => exact hm

theorem trap_dispatch (n : Nat) (s : Machine) : (dispatch n s).2.trap = s.trap ∨
    (dispatch n s).2.trap = none ∨
    ∃ d k, Opens s d ∧ d.SetsTrap k ∧ (dispatch n s).2.trap = some ⟨k, d.stack.size⟩ := by
  refine dispatch_induct (P := fun m => m.trap = s.trap)
    (Q := fun m => m.trap = s.trap ∨ m.trap = none ∨
      ∃ d k, Opens s d ∧ d.SetsTrap k ∧ m.trap = some ⟨k, d.stack.size⟩)
    (fun a ha m m' h hm => ?_) (fun _ => .inl) (fun d hd htrap => ?_) rfl n
  · cases h with
    | scan | goto => exact hm
    | _ => simp [Word.actions] at ha
  · rcases trap_one d with hsame | hnone | ⟨k, hk, hset⟩
    · exact .inl (hsame.trans htrap)
    · exact .inr (.inl hnone)
    · exact .inr (.inr ⟨d, k, hd, hk, hset⟩)

/-- What a step leaves of a trap: the same one, none, or one that `ON ERROR` sets. -/
theorem trap_step (m : Machine) : m.step.2.trap = m.trap ∨ m.step.2.trap = none ∨
    ∃ d k, m.Starts d ∧ d.SetsTrap k ∧ m.step.2.trap = some ⟨k, d.stack.size⟩ := by
  cases hrunning : m.running with
  | false =>
    rw [step_of_idle hrunning]
    exact .inl rfl
  | true =>
    rw [step_eq hrunning, tell_keeps (·.trap) (fun _ _ _ => rfl) (fun _ _ _ => rfl) (fun _ _ _ => rfl)]
    have hadvance := advanced m
    generalize m.advance = r at hadvance ⊢
    cases hadvance with
    | broken => exact .inl rfl
    | @polled q =>
      exact .inl ((pollInput_usual false q _).keeps (·.trap) Change.trap_eq fun _ _ => rfl)
    | finished _ _ hs =>
      rw [(sought_of_next hs).eq]
      exact .inl rfl
    | @executed s hb hq hs =>
      have htrap : s.trap = m.trap := by
        rw [(sought_of_next hs).eq]
      rcases trap_dispatch (s.cursor.rest.length + 1) s with hsame | hnone | ⟨d, k, hd, hk, hset⟩
      · exact .inl (hsame.trans htrap)
      · exact .inr (.inl hnone)
      · exact .inr (.inr ⟨d, k, ⟨⟨hrunning, hb, hq⟩, s, hs, hd⟩, hk, hset⟩)

/-- A direct line that drops frames leaves a trap no higher than what is left. -/
theorem trap_enter (m : Machine) (s : String) : (m.enter s).2.trap = m.trap ∨
    (m.enter s).2.stack.size < m.stack.size ∧
      (m.enter s).2.trap = m.trap.map fun t => { t with height := min t.height (m.enter s).2.stack.size } := by
  have hforget : m.forgetDirectFrames.trap = m.trap ∨ m.forgetDirectFrames.stack.size < m.stack.size ∧
      m.forgetDirectFrames.trap =
        m.trap.map fun t => { t with height := min t.height m.forgetDirectFrames.stack.size } := by
    rw [forgetDirectFrames]
    split
    · rename_i i hi
      obtain ⟨hlt, -⟩ := List.findIdx?_eq_some_iff_getElem.mp hi
      have hlt : i < m.stack.size := by
        rwa [Stack.bottomFirst, List.length_reverse] at hlt
      have hsize : (m.stack.truncate i).size = i := by
        simp only [Stack.truncate, Stack.size, List.length_drop] at hlt ⊢
        omega
      rw [hsize]
      exact .inr ⟨hlt, rfl⟩
    · exact .inl rfl
  rw [enter]
  split
  · exact .inl rfl
  · split
    · exact .inl rfl
    · split
      · split
        · exact .inl rfl
        · exact hforget
      · exact .inl rfl

theorem Reachable.traps {allowed : Machine → Call → Prop} (h : Reachable allowed m) :
    ∀ t, m.trap = some t → Traps t.line t.height m := by
  have hkept : ∀ {m : Machine} (c : Call), (∀ t, m.trap = some t → Traps t.line t.height m) →
      (m.call c).trap = m.trap → ∀ t, (m.call c).trap = some t → Traps t.line t.height (m.call c) :=
    fun c hm hc t ht => .kept (hm t (hc.symm.trans ht)) hc
  have hstep : ∀ m : Machine, (∀ t, m.trap = some t → Traps t.line t.height m) →
      ∀ t, m.step.2.trap = some t → Traps t.line t.height m.step.2 := by
    intro m hm t ht
    rcases trap_step m with hsame | hnone | ⟨d, k, hd, hk, hset⟩
    · exact hkept .step hm hsame t ht
    · cases hnone.symm.trans ht
    · cases hset.symm.trans ht
      exact .set hd hk
  induction h with
  | fresh => exact nofun
  | @call m _ c _ ih =>
    cases c with
    | enter s =>
      rcases trap_enter m s with hsame | ⟨hsize, hcut⟩
      · exact hkept (.enter s) ih hsame
      · intro t ht
        obtain ⟨t₀, ht₀, rfl⟩ := Option.map_eq_some_iff.mp (hcut.symm.trans ht)
        exact .dropped (ih t₀ ht₀) hsize
    | load s =>
      intro t ht
      cases hload : Listing.ofText s with
      | error c =>
        have hsame : m.call (.load s) = m := by
          rw [Machine.call, load, hload]
        exact hkept (.load s) ih (congrArg trap hsame) t ht
      | ok program =>
        rw [Machine.call, load, hload] at ht
        cases ht
    | step => exact hstep m ih
    | execute n =>
      cases hreport : m.report with
      | some c =>
        have htold : m.call (.execute n) = { m with report := none } := by
          rw [Machine.call, execute, hreport]
        exact hkept (.execute n) ih (by rw [htold])
      | none =>
        rw [Machine.call, execute, hreport]
        exact steps_induct (P := fun m => ∀ t, m.trap = some t → Traps t.line t.height m) hstep ih n
    | interrupt =>
      refine hkept .interrupt ih ?_
      rw [Machine.call, interrupt]
      split <;> rfl
    | type s => exact hkept (.type s) ih rfl
    | takeOutput => exact hkept .takeOutput ih rfl
    | expression => exact hkept .expression ih rfl
    | target => exact hkept .target ih rfl
    | lineNumber => exact hkept .lineNumber ih rfl

/-! ## Statements that fail -/

/-- The statement at the cursor is one that may put out of force what a condition would go by. -/
def Resets (d : Machine) : Prop :=
  d.word? = some .CLEAR ∨ d.word? = some .RUN ∨ d.word? = some .NEW ∨
    ∃ rest, d.cursor.rest = .word .ON :: .word .ERROR :: rest

/-- What holds of one run holds of another that comes to the same. -/
theorem commutesAt_of_eq {α : Type} {x y : Exec α} {Q : α → Machine → Prop} {E : Machine → Prop}
    (hxy : x m = y m') (h : CommutesAt id m' y y Q E) : CommutesAt id m x x Q E := by
  unfold CommutesAt at h ⊢
  rw [id, hxy]
  exact h

/-- Up to where another statement fails, or comes to its end, it is an ordinary change. -/
theorem one_of_kept (hd : ¬ d.Resets) (hline : d.line.isSome) (hh : d.handling = false) :
    CommutesAt id d one one (fun flow m' => flow = .done → Change false false d m') (Change false false d) := by
  have hpast : Change false false d d.pastWord := Change.refl.pastWord
  have hdone : ∀ {flow m'}, Reached false d flow m' → flow = .done → Change false false d m' := by
    rintro flow m' h rfl
    exact h
  by_cases hplain : ∀ w, d.word? = some w → w.standsApart = false ∧ w.setsRegisters = false
  · have hat := one_at (Backdrop.own_spares d) (.refl : Change false false d d) (fun w hw => (hplain w hw).1)
      fun w hw hr => by rw [(hplain w hw).2] at hr; cases hr
    exact (Backdrop.commutes_id hat).mono (fun _ _ h => hdone h.2) fun _ h => h
  · simp only [not_forall] at hplain
    obtain ⟨w, hw, hspecial⟩ := hplain
    refine commutesAt_of_eq (one_of_word? hw) ?_
    cases w with
    | CLEAR => exact absurd (.inl hw) hd
    | RUN => exact absurd (.inr (.inl hw)) hd
    | NEW => exact absurd (.inr (.inr (.inl hw))) hd
    | CONT =>
      have hdirect : d.pastWord.isDirect = false := by
        rw [isDirect, ← Option.not_isSome]
        exact congrArg (!·) hline
      have hcont : cont d.pastWord = (throw (.of .illegalDeferred) : Exec Flow) d.pastWord := by
        rw [cont, bind_get, hdirect]
        rfl
      exact commutesAt_of_eq hcont ⟨rfl, hpast⟩
    | RESUME =>
      have hresume : resume d.pastWord = (throw (.of .cannotContinue) : Exec Flow) d.pastWord := by
        rw [resume, bind_get, show d.pastWord.handling = false from hh]
        rfl
      exact commutesAt_of_eq hresume ⟨rfl, hpast⟩
    | ON =>
      obtain ⟨rest, hrest⟩ := rest_of_word? hw
      have hselect : on d.pastWord = select d.pastWord := by
        refine on_eq_select fun herror => ?_
        obtain ⟨rest', hrest'⟩ := List.head?_eq_some_iff.mp herror
        rw [pastWord, Cursor.advance, hrest] at hrest'
        exact hd (.inr (.inr (.inr ⟨rest', hrest.trans (congrArg _ hrest')⟩)))
      have hat := Backdrop.commutes_id (Lands.select (Backdrop.own_spares d) d.pastWord hpast)
      exact commutesAt_of_eq hselect (hat.mono (fun _ _ h => hdone h.2) fun _ h => h)
    | DELETE =>
      refine (Backdrop.commutes_id (delete_at .own d.pastWord)).mono ?_ ?_
      · rintro flow m' ⟨-, hnone, -⟩ -
        rw [show d.line = none from hnone] at hline
        cases hline
      · rintro _ rfl
        exact hpast
    | INPUT =>
      refine (Backdrop.commutes_id (input_at hpast rfl)).mono ?_ fun _ h => h
      rintro flow m' (⟨-, h⟩ | ⟨rfl, -⟩) hflow
      · exact h
      · cases hflow
    | _ => exact absurd ⟨rfl, rfl⟩ hspecial

theorem change_of_error (hd : ¬ d.Resets) (hline : d.line.isSome) (hh : d.handling = false)
    (h : (one >>= settle) d = (.error c, e)) : Change false false d e := by
  have hat := one_of_kept hd hline hh
  rcases bind_eq_error h with hone | ⟨flow, s, hone, hsettle⟩
  · exact (hat.error hone).2
  · obtain ⟨rfl, rfl⟩ := settle_error hsettle
    exact (hat.ok hone).2 rfl

/-! ## Where a statement began -/

/-- A call that executes nothing. -/
def Rests (m : Machine) : Call → Prop
  | .step | .load _ => False
  | .execute _ => m.report.isSome
  | _ => True

/-- The statement that the next step executes began at `p`. That is where it stands, or where an `INPUT` stands
that was executed some steps before and has waited since. -/
inductive Began (p : Position) : Machine → Prop
  | next {m s : Machine} (hm : m.Ready) (hs : m.nextStatement = (true, s)) (hp : s.position = p) : Began p m
  | waits {m : Machine} (h : Began p m) (hm : m.step.2.inquiry.isSome) : Began p m.step.2
  | rests {m : Machine} {c : Call} (h : Began p m) (hm : m.inquiry.isSome) (hc : m.Rests c) : Began p (m.call c)

theorem inquiry_tell {r : Except Condition Flow × Machine} (h : r.2.inquiry = none) :
    (tell r).2.inquiry = none := by
  have hstop : ∀ (m : Machine) k t, ({ m.stop with continuation := k, tape := t } : Machine).inquiry = none :=
    fun _ _ _ => rfl
  obtain ⟨c | flow, m⟩ := r
  · have hraised := raised m c
    show (m.raise c).2.inquiry = none
    generalize m.raise c = r at hraised ⊢
    cases hraised with
    | uncaught =>
      obtain ⟨k, t, heq⟩ := fail_eq m (c.within m.line)
      rw [heq, hstop]
    | handled => rfl
    | @astray t e =>
      obtain ⟨k, t', heq⟩ := fail_eq (m.serving (c.within m.line) t) (e.within m.line)
      rw [heq, hstop]
  · cases flow with
    | halted why =>
      obtain ⟨k, t, heq⟩ := halt_eq m why
      show (m.halt why).2.inquiry = none
      rw [heq, hstop]
    | done | again | moved | waiting => exact h

theorem statement_of_usual {p : Machine} {r : Except Condition Flow × Machine} {registers : Bool}
    (h : Usual registers p r) (hp : p.inquiry = none) (hq : (tell r).2.inquiry.isSome) :
    (tell r).2.statement = p.statement := by
  have hnone : ∀ r : Except Condition Flow × Machine, r.2.inquiry = none → ¬ (tell r).2.inquiry.isSome := by
    intro r hr
    rw [inquiry_tell hr]
    exact nofun
  cases h with
  | reached h => exact absurd hq (hnone _ (h.inquiry hp))
  | failed h => exact absurd hq (hnone _ (h.inquiry hp))
  | waits h => exact h.statement

/-- Where an `INPUT` waits after a step, it has waited before or it is what the step has executed. -/
theorem statement_of_waits (hq : m.step.2.inquiry.isSome) :
    (m.inquiry.isSome ∧ m.step.2.statement = m.statement) ∨
      ∃ s, m.Ready ∧ m.nextStatement = (true, s) ∧ m.step.2.statement = s.position := by
  cases hrunning : m.running with
  | false =>
    rw [step_of_idle hrunning] at hq ⊢
    exact .inl ⟨hq, rfl⟩
  | true =>
    rw [step_eq hrunning] at hq ⊢
    have hnone : m.advance.2.inquiry ≠ none := by
      intro hnone
      rw [inquiry_tell hnone] at hq
      cases hq
    have hadvance := advanced m
    generalize m.advance = r at hq hnone hadvance ⊢
    cases hadvance with
    | broken => exact absurd rfl hnone
    | @polled q _ hinquiry =>
      refine .inl ⟨by rw [hinquiry]; rfl, ?_⟩
      exact statement_of_usual (p := { m with inquiry := none }) (pollInput_usual true q _) rfl hq
    | @finished s _ hinquiry hs =>
      rw [(sought_of_next hs).eq] at hnone
      exact absurd hinquiry hnone
    | @executed s hb hinquiry hs =>
      have hsinquiry : s.inquiry = none := by
        rw [(sought_of_next hs).eq]
        exact hinquiry
      refine .inr ⟨s, ⟨hrunning, hb, hinquiry⟩, hs, ?_⟩
      rw [← statement_of_next hs]
      have houtcome := dispatch_outcome (s.cursor.rest.length + 1) s
      generalize dispatch (s.cursor.rest.length + 1) s = r at houtcome hq hnone ⊢
      cases houtcome with
      | usual husual => exact statement_of_usual husual hsinquiry hq
      | deleted hopens => exact absurd (hopens.change.inquiry hsinquiry) hnone
      | misread hopens => exact absurd (hopens.change.inquiry hsinquiry) hnone
      | erased => exact absurd rfl hnone

theorem statement_of_rests {c : Call} (hc : m.Rests c) :
    (m.call c).statement = m.statement ∧ (m.call c).inquiry = m.inquiry := by
  cases c with
  | step => exact hc.elim
  | load s => exact hc.elim
  | enter s =>
    have htaken := taken m s
    show (m.enter s).2.statement = m.statement ∧ (m.enter s).2.inquiry = m.inquiry
    generalize m.enter s = r at htaken ⊢
    cases htaken with
    | refused | blank | started | stored => exact ⟨rfl, rfl⟩
  | execute n =>
    obtain ⟨c, hreport⟩ := Option.isSome_iff_exists.mp hc
    rw [Machine.call, execute, hreport]
    exact ⟨rfl, rfl⟩
  | interrupt =>
    rw [Machine.call, interrupt]
    split <;> exact ⟨rfl, rfl⟩
  | type | takeOutput | expression | target | lineNumber => exact ⟨rfl, rfl⟩

/-- Where an `INPUT` waits, it began where the statement register says. -/
theorem Began.statement_or_next {p : Position} (h : Began p m) :
    (m.inquiry.isSome ∧ m.statement = p) ∨
      m.inquiry = none ∧ ∃ s, m.nextStatement = (true, s) ∧ s.position = p := by
  induction h with
  | next hm hs hp => exact .inr ⟨hm.answered, _, hs, hp⟩
  | @waits m _ hm ih =>
    refine .inl ⟨hm, ?_⟩
    rcases statement_of_waits hm with ⟨hq, hsame⟩ | ⟨s, hready, hs, hstatement⟩
    · rcases ih with ⟨-, hp⟩ | ⟨hnone, -⟩
      · exact hsame.trans hp
      · rw [hnone] at hq
        cases hq
    · rcases ih with ⟨hq, -⟩ | ⟨-, s', hs', hp⟩
      · rw [hready.answered] at hq
        cases hq
      · cases hs.symm.trans hs'
        exact hstatement.trans hp
  | @rests m c _ hm hc ih =>
    obtain ⟨hstatement, hinquiry⟩ := statement_of_rests hc
    rcases ih with ⟨-, hp⟩ | ⟨hnone, -⟩
    · exact .inl ⟨by rw [hinquiry]; exact hm, hstatement.trans hp⟩
    · rw [hnone] at hm
      cases hm

theorem Began.unique {p q : Position} (hp : Began p m) (hq : Began q m) : q = p := by
  rcases hp.statement_or_next with ⟨hwaits, hp⟩ | ⟨hnone, s, hs, hp⟩
  · rcases hq.statement_or_next with ⟨-, hq⟩ | ⟨hnone, -⟩
    · exact hq.symm.trans hp
    · rw [hnone] at hwaits
      cases hwaits
  · rcases hq.statement_or_next with ⟨hwaits, -⟩ | ⟨-, s', hs', hq⟩
    · rw [hnone] at hwaits
      cases hwaits
    · cases hs.symm.trans hs'
      exact hq.symm.trans hp

theorem began_step (h : m.inquiry.isSome → Began m.statement m) (hq : m.step.2.inquiry.isSome) :
    Began m.step.2.statement m.step.2 := by
  refine .waits ?_ hq
  rcases statement_of_waits hq with ⟨hwaits, hsame⟩ | ⟨s, hready, hs, hstatement⟩
  · rw [hsame]
    exact h hwaits
  · exact .next hready hs hstatement.symm

theorem Reachable.began (h : Reachable LoadsIdle m) (hq : m.inquiry.isSome) : Began m.statement m := by
  induction h with
  | fresh => cases hq
  | @call m hm c hc ih =>
    have hrests : m.Rests c → Began (m.call c).statement (m.call c) := by
      intro hrests
      obtain ⟨hstatement, hinquiry⟩ := statement_of_rests hrests
      rw [hinquiry] at hq
      rw [hstatement]
      exact .rests (ih hq) hq hrests
    cases c with
    | load s =>
      have hanswered := hm.sound.answered (hc s rfl)
      rw [Machine.call, load] at hq
      split at hq
      · rw [hanswered] at hq
        cases hq
      · cases hq
    | step => exact began_step ih hq
    | execute n =>
      cases hreport : m.report with
      | some c => exact hrests (by rw [Rests, hreport]; rfl)
      | none =>
        have hrun : m.call (.execute n) = (m.steps n).2 := by
          rw [Machine.call, execute, hreport]
        rw [hrun] at hq ⊢
        exact steps_induct (P := fun m => m.inquiry.isSome → Began m.statement m) (fun _ => began_step) ih n hq
    | enter | interrupt | type | takeOutput | expression | target | lineNumber => exact hrests trivial

/-! ## Into the handler -/

/-- A statement that fails, and resets nothing, has made an ordinary change since it began, and its condition
is no break. -/
theorem Reachable.fails (hm : Reachable LoadsIdle m) (hrunning : m.running = true) (hline : m.line.isSome)
    (hh : m.handling = false) (hresets : ∀ d, m.Starts d → ¬ d.Resets) (h : m.advance = (.error c, e)) :
    c.fault ≠ .interrupted ∧ ∃ p : Machine, p.Placed ∧ Began p.statement m ∧ p.line.isSome ∧
      p.program = m.program ∧ p.trap = m.trap ∧ p.handling = false ∧ Change false false p e := by
  have hadvance := advanced m
  generalize m.advance = r at h hadvance
  cases hadvance with
  | broken | finished => cases h
  | @polled q _ hq =>
    have husual := pollInput_usual false q { m with inquiry := none }
    have hbreak := Unbroken.pollInput q { m with inquiry := none } c (by rw [h])
    rw [h] at husual
    cases husual with
    | failed hchange =>
      exact ⟨hbreak, { m with inquiry := none }, hm.resumable.placed_poll hm.sound hq,
        hm.began (by rw [hq]; rfl), hline, rfl, rfl, hh, hchange⟩
  | @executed s hb hq hs =>
    have hready : m.Ready := ⟨hrunning, hb, hq⟩
    have hsought := sought_of_next hs
    have hstrap : s.trap = m.trap := by
      rw [hsought.eq]
    have hsh : s.handling = false := by
      rw [hsought.eq]
      exact hh
    have hsline : s.line.isSome := by
      have hdirect := hsought.direct
      rwa [← Option.not_isNone, hdirect, Option.not_isNone]
    have hplaced := hm.resumable.placed_next hm.sound hrunning hq hs
    have hbegan : Began s.statement m := .next hready hs (statement_of_next hs).symm
    obtain ⟨d, x, hd, hx, hrun⟩ := dispatch_ends (s.cursor.rest.length + 1) s
    have hdispatch : dispatch (s.cursor.rest.length + 1) s = x d := hrun .own (Backdrop.own_spares s)
    rw [hdispatch] at h
    have hdkept : ¬ d.Resets := hresets d ⟨hready, s, hs, hd⟩
    have hfails : c.fault ≠ .interrupted ∧ Change false false d e := by
      rcases hx with rfl | rfl
      · rcases settle_cases .done d with hdone | ⟨-, -, hnot⟩
        · cases hdone.symm.trans h
        · cases hnot.symm.trans h
          exact ⟨by decide, .refl⟩
      · refine ⟨unbroken_of_error (fun rest hrest => hdkept (.inr (.inr (.inr ⟨rest, hrest⟩)))) h, ?_⟩
        exact change_of_error hdkept (by rw [hd.change.line]; exact hsline) (hd.change.handling.trans hsh) h
    exact ⟨hfails.1, s, hplaced, hbegan, hsline, hsought.program, hstrap, hsh, hd.change.trans hfails.2⟩

/-- A condition in a program line goes to the line of a trap that is set. -/
theorem raise_of_trap {t : Trap} {tokens : List Token} (ht : e.trap = some t) (hline : e.line.isSome)
    (hh : e.handling = false) (hc : c.fault ≠ .interrupted) (htokens : e.tokensOf (some t.line) = .ok tokens) :
    e.raise c = (.running, { e.serving (c.within e.line) t with
      cursor := .atToken tokens 0, line := some t.line }) := by
  have hdirect : e.isDirect = false := by
    rw [isDirect, ← Option.not_isSome]
    exact congrArg (!·) hline
  have hbreak : (c.within e.line).isBreak = false := by
    simpa [Condition.isBreak, Condition.within] using hc
  have henter : e.enterHandler (c.within e.line) t =
      Exec.jump ⟨some t.line, 0⟩ (e.serving (c.within e.line) t) := rfl
  have hjump := Exec.jump_of_ok (m := e.serving (c.within e.line) t) (p := ⟨some t.line, 0⟩) htokens
  rw [raise, ht]
  simp only [hdirect, hh, hbreak, Bool.or_self, Bool.false_eq_true, if_false, henter, hjump]

/-! ## Back from the handler -/

/-- `RESUME` alone goes to the start of the statement that failed. -/
theorem resume_again {f : Failure} {tokens : List Token} (hh : m.handling = true) (hf : m.failure = some f)
    (hend : m.cursor.atStatementEnd = true) (ht : m.tokensOf f.statement.line = .ok tokens) :
    resume m = (.ok .moved, m.left (.atToken tokens f.statement.token) f.statement.line) := by
  have hactive : (liftM (require m.handling (.of .cannotContinue)) : Exec Unit) m = (.ok (), m) := by
    rw [hh]
    rfl
  -- at the end of a statement there is neither a `NEXT` nor a number
  have hnone : ∀ t, m.cursor.peek? = some t → t = .colon ∨ t = .word .ELSE :=
    fun t => Cursor.peek?_of_atStatementEnd hend
  have hread : (liftM resumption : Exec Resumption) m = (.ok .again, m) := by
    have haccept : Eval.accept (.word .NEXT) m.toWorkspace = (.ok false, m.toWorkspace) := by
      refine Eval.accept_of_ne m.toWorkspace m.cursor.passed fun hnext => ?_
      rcases hnone _ hnext with h | h <;> cases h
    have hnumber : Eval.lineNumber? m.toWorkspace = (.ok none, m.toWorkspace) := by
      refine Eval.lineNumber?_of_none fun t k hpeek hk => ?_
      rcases hnone t hpeek with rfl | rfl <;> cases hk
    have hagain : resumption m.toWorkspace = (.ok .again, m.toWorkspace) := by
      rw [resumption, bind_of_ok haccept]
      show (Eval.lineNumber? >>= _) m.toWorkspace = _
      rw [bind_of_ok hnumber]
      rfl
    exact Extends.liftM_apply hagain
  have hended : (liftM Eval.endStatement : Exec Unit) m = (.ok (), m) := by
    show (require m.cursor.atStatementEnd (.of .syntaxError), _) = _
    rw [hend]
    rfl
  have hgo : goOn f .again { m with handling := false } =
      (.ok (), m.left (.atToken tokens f.statement.token) f.statement.line) :=
    Exec.jump_of_ok (m := { m with handling := false }) ht
  rw [resume, bind_get, bind_of_ok hactive]
  simp only [hf]
  rw [bind_of_ok hread, bind_of_ok hended]
  show (goOn f .again >>= fun _ => pure Flow.moved) { m with handling := false } = _
  rw [bind_of_ok hgo]
  rfl

/-- An `IF` before a statement has left the data and the stack alone. -/
theorem Starts.data_stack {r : Machine} (hd : r.Starts d) : d.data = r.data ∧ d.stack = r.stack := by
  obtain ⟨-, s, hs, hopens⟩ := hd
  refine hopens.keeps (P := fun m => m.data = r.data ∧ m.stack = r.stack) (fun a ha m m' h hm => ?_) ?_
  · cases h with
    | scan | goto => exact hm
    | _ => simp [Word.actions] at ha
  · rw [(sought_of_next hs).eq]
    exact ⟨rfl, rfl⟩

/-- The step that executes `RESUME` alone, wherever that stands. -/
theorem Starts.step_resume {r : Machine} {f : Failure} {rest tokens : List Token} (hd : r.Starts d)
    (hrest : d.cursor.rest = .word .RESUME :: rest) (hend : (d.cursor.skip 1).atStatementEnd = true)
    (hhandling : r.handling = true) (hfailure : r.failure = some f)
    (ht : d.tokensOf f.statement.line = .ok tokens) :
    r.step = (.running, d.pastWord.left (.atToken tokens f.statement.token) f.statement.line) := by
  have hdfailure : d.failure = some f := by
    obtain ⟨-, s, hs, hopens⟩ := hd
    rw [hopens.change.failure_eq, (sought_of_next hs).eq]
    exact hfailure
  have hdhandling : d.handling = true := by
    obtain ⟨-, s, hs, hopens⟩ := hd
    rw [hopens.change.handling, (sought_of_next hs).eq]
    exact hhandling
  have hword : d.word? = some .RESUME := by
    rw [word?, Cursor.peek?, hrest]
    rfl
  have hpast : d.pastWord.cursor = d.cursor.skip 1 := Cursor.advance_eq_skip _
  have hresume := resume_again (m := d.pastWord) hdhandling hdfailure (by rw [hpast]; exact hend) ht
  rw [hd.step_of_word hword (by decide), ofWord, bind_of_ok hresume]
  rfl

/-- A condition that a statement of the program raises while a trap is set, and no handler active, leads to the
line of the trap. The stack is cut to the height of the trap, `ERR` and `ERL` tell the condition, and all else
stays as the statement left it. Where the handler comes to a `RESUME` with the program and the condition on
record as they are, that leads back to where the statement began and touches nothing else. -/
theorem step_of_trap {t : Trap} {l : ProgramLine} (hm : Reachable LoadsIdle m) (hrunning : m.running = true)
    (hline : m.line.isSome) (hh : m.handling = false) (ht : m.trap = some t) (hl : l ∈ m.program.lines)
    (hnumber : l.number = t.line) (hfail : m.advance = (.error c, e))
    (hresets : ∀ d, m.Starts d → ¬ d.Resets) :
    ∃ h p, m.step = (.running, h) ∧ (∀ q, Began q m ↔ q = p) ∧
      h.position = ⟨some t.line, 0⟩ ∧ h.cursor.tokens = l.tokens ∧ h.handling = true ∧
      Traps t.line t.height m ∧ h.stack = e.stack.truncate t.height ∧ h.store = e.store ∧ h.data = e.data ∧
      (∀ random, Builtin.call h.context random .ERR [] = .ok (.ofNat (c.number?.getD 0), random)) ∧
      (∀ random, Builtin.call h.context random .ERL [] = .ok (.ofNat ((c.line.or p.line).getD 0), random)) ∧
      ∀ {r d : Machine} {rest : List Token}, r.program = h.program → r.failure = h.failure →
        r.handling = true → r.Starts d → d.cursor.rest = .word .RESUME :: rest →
        (d.cursor.skip 1).atStatementEnd = true →
        ∃ a, r.step = (.running, a) ∧ a.position = p ∧ a.Walks ∧ a.handling = false ∧ a.data = r.data ∧
          a.stack = r.stack ∧ a.store = d.store ∧ (r.nextStatement = (true, d) → a.store = r.store) := by
  obtain ⟨hbreak, p, hplaced, hbegan, hpline, hprogram, htrap, hph, hchange⟩ :=
    hm.fails hrunning hline hh hresets hfail
  have heprogram : e.program = m.program := hchange.program.trans hprogram
  have htokens : e.tokensOf (some t.line) = .ok l.tokens := by
    rw [← hnumber]
    exact tokensOf_of_mem (by rw [heprogram]; exact hl)
  have hstatement : e.statement = p.statement := hchange.statement
  have heline : e.line = p.statement.line := hchange.line.trans hplaced.statement.symm
  have hraise := raise_of_trap ((hchange.trap_eq.trans htrap).trans ht)
    (by rw [hchange.line]; exact hpline) (hchange.handling.trans hph) hbreak htokens
  have hstep : m.step = e.raise c := by
    rw [step_eq hrunning, hfail]
    rfl
  have hat : ∀ q, Began q m ↔ q = p.statement :=
    fun q => ⟨hbegan.unique, fun hq => hq ▸ hbegan⟩
  refine ⟨_, p.statement, hstep.trans hraise, hat, rfl, ?_, rfl, hm.traps t ht, rfl, rfl, rfl, fun _ => rfl, ?_, ?_⟩
  · exact Cursor.tokens_atToken _ _
  · intro random
    rw [← heline]
    rfl
  · intro r d rest hrprogram hrfailure hrhandling hd hrest hend
    have hdprogram : d.program = m.program := by
      obtain ⟨-, s, hs, hopens⟩ := hd
      rw [hopens.change.program, (sought_of_next hs).program, hrprogram]
      exact heprogram
    obtain ⟨l', hl', hl'line, hl'token⟩ := hplaced.placed hpline
    rw [hprogram] at hl'
    have hd' : d.tokensOf p.statement.line = .ok l'.tokens := by
      rw [hl'line]
      exact tokensOf_of_mem (by rw [hdprogram]; exact hl')
    have hback := hd.step_resume hrest hend hrhandling hrfailure (by
      show d.tokensOf e.statement.line = .ok l'.tokens
      rw [hstatement]
      exact hd')
    rw [hstatement] at hback
    refine ⟨_, hback, ?_, ?_, rfl, hd.data_stack.1, hd.data_stack.2, rfl, fun hnext => ?_⟩
    · show (⟨p.statement.line, (Cursor.atToken l'.tokens p.statement.token).pos⟩ : Position) = p.statement
      rw [Cursor.pos_atToken, Nat.min_eq_left hl'token]
    · exact hd'.trans (congrArg Except.ok (Cursor.tokens_atToken _ _).symm)
    · show d.store = r.store
      rw [(sought_of_next hnext).eq]

theorem not_resets {w : Word} (hword : d.word? = some w) (hw : w ∉ [Word.CLEAR, .RUN, .NEW, .ON]) :
    ¬ d.Resets := by
  rintro (h | h | h | ⟨rest, h⟩)
  · cases hword.symm.trans h
    simp at hw
  · cases hword.symm.trans h
    simp at hw
  · cases hword.symm.trans h
    simp at hw
  · have hon : d.word? = some .ON := by
      rw [word?, Cursor.peek?, h]
      rfl
    cases hword.symm.trans hon
    simp at hw

/-- A call of a subroutine that fails in the branch of an `IF`, at that `IF`. -/
def failsInBranch : Machine :=
  ((entered ["10 ON ERROR GOTO 100", "20 GOSUB 30", "30 IF 1 THEN ERROR 5", "100 RESUME", "RUN"]).execute 3).2

theorem step_of_trap_branch : ∃ m c e h a, m = failsInBranch ∧ Reachable LoadsIdle m ∧
    m.trap = some ⟨100, 0⟩ ∧ m.advance = (.error c, e) ∧ (∀ d, m.Starts d → ¬ d.Resets) ∧
    m.step = (.running, h) ∧ h.position = ⟨some 100, 0⟩ ∧ e.stack.size = 1 ∧ h.stack = e.stack.truncate 0 ∧
    Began ⟨some 30, 0⟩ m ∧ h.step = (.running, a) ∧ a.position = ⟨some 30, 0⟩ ∧ a.handling = false ∧
    a.stack = h.stack := by
  have hm : Reachable LoadsIdle failsInBranch := .call (reachable_entered _) (.execute 3) nofun
  -- all that is asked of this run, so that it is evaluated once
  obtain ⟨⟨hrunning, hbreak, hinquiry⟩, hline, hh, htrap, hlines, hcondition, hsize, hnext, hword,
      hword', hposition, ⟨hrunning', hbreak', hinquiry'⟩, hnext', hrest, hend, hhandling⟩ :
      (failsInBranch.running = true ∧ failsInBranch.breakRequested = false ∧ failsInBranch.inquiry = none) ∧
      failsInBranch.line.isSome ∧ failsInBranch.handling = false ∧ failsInBranch.trap = some ⟨100, 0⟩ ∧
      (failsInBranch.program.lines.find? (·.number == 100)).isSome ∧
      failsInBranch.advance.1 = .error (.of .illegalQuantity) ∧ failsInBranch.advance.2.stack.size = 1 ∧
      failsInBranch.nextStatement.1 = true ∧ failsInBranch.nextStatement.2.word? = some .IF ∧
      (one failsInBranch.nextStatement.2).2.word? = some .ERROR ∧
      failsInBranch.nextStatement.2.position = ⟨some 30, 0⟩ ∧
      (failsInBranch.step.2.running = true ∧ failsInBranch.step.2.breakRequested = false ∧
        failsInBranch.step.2.inquiry = none) ∧ failsInBranch.step.2.nextStatement.1 = true ∧
      failsInBranch.step.2.nextStatement.2.cursor.rest = [.word .RESUME] ∧
      (failsInBranch.step.2.nextStatement.2.cursor.skip 1).atStatementEnd = true ∧
      failsInBranch.step.2.handling = true := by
    decide +kernel
  obtain ⟨l, hl⟩ := Option.isSome_iff_exists.mp hlines
  have hfail : failsInBranch.advance = (.error (.of .illegalQuantity), failsInBranch.advance.2) :=
    Prod.ext hcondition rfl
  have hresets : ∀ d, failsInBranch.Starts d → ¬ d.Resets := by
    rintro d ⟨-, s, hs, hopens⟩
    obtain rfl : failsInBranch.nextStatement.2 = s := congrArg Prod.snd hs
    cases hopens with
    | refl => exact not_resets hword (by decide)
    | again hone hd =>
      rw [hone] at hword'
      cases hd with
      | refl => exact not_resets hword' (by decide)
      | again hone' => cases hword'.symm.trans (word?_of_again hone')
  obtain ⟨h, p, hstep, hbegan, hline', -, -, -, hstack, -, -, -, -, hresume⟩ :=
    step_of_trap hm hrunning hline hh htrap (List.mem_of_find?_eq_some hl) (by simpa using List.find?_some hl)
      hfail hresets
  obtain rfl : failsInBranch.step.2 = h := congrArg Prod.snd hstep
  obtain ⟨a, hback, hposition', -, hleft, -, hstack', -⟩ :=
    hresume rfl rfl hhandling ⟨⟨hrunning', hbreak', hinquiry'⟩, _, Prod.ext hnext' rfl, .refl _⟩ hrest hend
  have hstart : Began ⟨some 30, 0⟩ failsInBranch :=
    .next ⟨hrunning, hbreak, hinquiry⟩ (Prod.ext hnext rfl) hposition
  rw [← (hbegan _).mp hstart] at hposition'
  exact ⟨_, _, _, _, a, rfl, hm, htrap, hfail, hresets, hstep, hline', hsize, hstack, hstart, hback, hposition',
    hleft, hstack'⟩

/-- A trap that was set in a loop of a direct line. -/
def trapsInLoop : Machine :=
  ((entered ["10 ERROR 5", "100 RETURN", "FOR I=1 TO 2:ON ERROR GOTO 100"]).execute 4).2

/-- The next direct line drops the loop, and with it the height of the trap: a call that this line makes is cut
off when it fails, though the stack is no higher than it was when the trap was set. -/
theorem trap_lowered_by_direct_line : ∃ m₀ m, m₀ = trapsInLoop ∧ m₀.trap = some ⟨100, 1⟩ ∧
    m = ((m₀.enter "GOSUB 10").2.execute 1).2 ∧ m.running = true ∧ m.line = some 10 ∧ m.handling = false ∧
    m.advance.1 = .error (.of .illegalQuantity) ∧ m.advance.2.stack.size = 1 ∧ m.step.1 = .running ∧
    m.step.2.stack.size = 0 ∧ (m.steps 2).1 = .failed ⟨.returnWithoutGosub, some 100, ""⟩ :=
  ⟨_, _, rfl, by decide +kernel, rfl, by decide +kernel⟩

end Machine

end LineBasic
