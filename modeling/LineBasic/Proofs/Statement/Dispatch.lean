import LineBasic.Proofs.Statement.Change

/-! What comes of the statement at the cursor, whichever it is: one change of the machine, an edit of the
program, or an `INPUT` that waits. A statement that `IF` starts is followed to where it stands. -/

namespace LineBasic

/-- Statements that set what `ON ERROR` and `CONT` go by. -/
def Word.setsRegisters : Word → Bool
  | .CLEAR | .CONT | .ON | .RESUME | .RUN => true
  | _ => false

/-- Statements that edit the program or read what is typed. -/
def Word.standsApart : Word → Bool
  | .DELETE | .INPUT | .NEW => true
  | _ => false

namespace Machine

/-- The word that a statement at the cursor starts with. -/
def word? (m : Machine) : Option Word := m.cursor.peek?.bind Token.statement?

def pastWord (m : Machine) : Machine := { m with cursor := m.cursor.advance }

/-- The statement at the cursor is one of those that stand apart, or it is not. -/
theorem apart_or_not (m : Machine) : (∃ w, m.word? = some w ∧ w.standsApart = true) ∨
    ∀ w, m.word? = some w → w.standsApart = false := by
  by_cases h : ∃ w, m.word? = some w ∧ w.standsApart = true
  · exact .inl h
  · exact .inr fun w hw => Bool.eq_false_iff.mpr fun hapart => h ⟨w, hw, hapart⟩

theorem Change.pastWord {jumps registers : Bool} {m₀ m : Machine} (h : Change jumps registers m₀ m) :
    Change jumps registers m₀ m.pastWord :=
  .workspace h (.advance m.toWorkspace)

end Machine

namespace Statement

open Machine (Change)

variable {b : Backdrop} {registers : Bool} {m₀ m m' : Machine} {w : Word}

/-! ## Statements on the program -/

/-- What `DELETE` leaves of the machine. -/
def deleted (m : Machine) (r : Nat × Nat) (w : Workspace) : Machine :=
  { m with toWorkspace := w, program := m.program.delete r.1 r.2, continuation := none }

theorem deleted_behind {r : Nat × Nat} {w : Workspace} :
    deleted (b.behind m) r w = b.behind (deleted m r w) := by
  simp [deleted, Backdrop.behind, b.continuation_none]

theorem erased_behind : erased (b.behind m) = b.behind (erased m) := by
  simp [erased, Machine.clear, Backdrop.behind, b.continuation_none]

/-- `DELETE` fails with nothing done, or deletes the lines of its range. -/
theorem delete_at (b : Backdrop) (m : Machine) :
    CommutesAt b.behind m delete delete
      (fun flow m' => flow = .done ∧ m.line = none ∧
        ∃ r w, lineRange m.toWorkspace = (.ok r, w) ∧ m' = deleted m r w)
      (· = m) := by
  refine .get (.lift rfl rfl fun _ hdirect => ?_)
  have hnone : m.line = none := Option.isNone_iff_eq_none.mp (require_eq_ok hdirect)
  refine .bind (Q := fun _ s => s = m) ⟨rfl, rfl⟩ fun ended s hs => ?_
  subst hs
  refine .lift rfl rfl fun _ _ => ?_
  obtain ⟨r, n, hr⟩ := Moves.lineRange s.toWorkspace
  have hrun := Extends.liftM_apply (m := s) hr
  have hbehind := Extends.liftM_apply (m := b.behind s) hr
  unfold CommutesAt
  rw [bind_of_ok hrun, bind_of_ok hbehind]
  refine ⟨congrArg (Prod.mk _) ?_, rfl, hnone, r, _, hr, rfl⟩
  exact deleted_behind (b := b) (m := s) (r := r) (w := { s.toWorkspace with cursor := s.cursor.skip n })

theorem new_at (b : Backdrop) (m : Machine) :
    CommutesAt b.behind m new new (fun flow m' => flow = .halted .finished ∧ m' = erased m)
      (fun _ => False) :=
  ⟨congrArg (Prod.mk _) erased_behind, rfl, rfl⟩

/-! ## Statements on what is typed -/

/-- Where a look for an answer leaves the machine: the statement is done, or it waits on. -/
def Polled (registers : Bool) (m₀ : Machine) (flow : Flow) (m : Machine) : Prop :=
  (flow = .done ∧ Change false registers m₀ m) ∨
    (flow = .waiting ∧ ∃ d q, Change false registers m₀ d ∧ m = { d with inquiry := some q })

theorem pollInput_of_nil {q : Inquiry} (h : m.tape.input = []) :
    pollInput q m = (.ok .waiting, { m with inquiry := some q }) := by
  have hread : poll q m = (.ok (some q), m) := by
    obtain ⟨w, program, ⟨output, input, column⟩, _⟩ := m
    obtain rfl : input = [] := h
    rfl
  rw [pollInput, bind_of_ok hread]
  rfl

theorem pollInput_at (hm : Change false registers m₀ m) (h : b.input = id ∨ m.tape.input ≠ [])
    (q : Inquiry) : CommutesAt b.behind m (pollInput q) (pollInput q) (Polled registers m₀)
      (Change false registers m₀) := by
  have hread : CommutesAt b.behind m readLine readLine (fun _ => Change false registers m₀)
      (Change false registers m₀) := by
    refine ⟨?_, .tables _ _ _ hm⟩
    show ((.ok (b.onTape m.tape).read.1, { b.behind m with tape := (b.onTape m.tape).read.2 }) :
      Except Condition (Option String) × Machine) = _
    rw [b.read_onTape h]
    rfl
  have hpoll : CommutesAt b.behind m (poll q) (poll q) (fun _ => Change false registers m₀)
      (Change false registers m₀) := by
    refine hread.bind fun line s hs => ?_
    cases line with
    | none => exact Steady.pure _ s hs
    | some line => exact Acts.take tapes scans q _ s hs
  refine hpoll.bind fun waiting s hs => ?_
  cases waiting with
  | none =>
    refine (Acts.onWorkspace scans Forward.endStatement).before (fun _ => ?_) s hs
    exact .pure fun _ hm => .inl ⟨rfl, hm⟩
  | some q => exact ⟨rfl, .inr ⟨rfl, s, q, hs, rfl⟩⟩

/-! ## The statement at the cursor -/

theorem one_of_word? (h : m.word? = some w) : one m = ofWord w m.pastWord := by
  obtain ⟨t, hpeek, ht⟩ := Option.bind_eq_some_iff.mp h
  have hone : (liftM Eval.peek? : Exec _) m = (.ok (some t), m) := by
    rw [← hpeek]
    rfl
  cases t with
  | word w' =>
    rw [one, bind_of_ok hone]
    simp only [ht]
    rfl
  | _ => cases ht

/-- A statement by its first word, and where that leads. Only `IF` starts another one. -/
theorem ofWord_commutes (hb : b.Spares m₀) (hapart : w.standsApart = false)
    (hr : w.setsRegisters = true → registers = true) :
    Commutes b.behind (Change false registers m₀) (ofWord w)
      (fun flow m => (flow = .again → w = .IF) ∧ Reached registers m₀ flow m)
      (Change false registers m₀) := by
  have hlands : ∀ {x : Exec Flow}, Lands b registers m₀ x → Commutes b.behind (Change false registers m₀) x
      (fun flow m => (flow = .again → w = .IF) ∧ Reached registers m₀ flow m)
      (Change false registers m₀) := fun hx =>
    hx.mono (fun _ hm => hm) (fun _ _ hm => ⟨fun h => absurd h hm.1, hm.2⟩) fun _ hm => hm
  cases w with
  | CLEAR => exact hlands (.clear (hr rfl))
  | CONT => exact hlands (.cont hb (hr rfl))
  | DATA => exact hlands .skipStatement
  | DEF => exact hlands .define
  | DIM => exact hlands .dim
  | ELSE | REM => exact hlands .skipLine
  | END => exact hlands (.halted _)
  | ERROR => exact hlands .error
  | FOR => exact hlands .forLoop
  | GOSUB => exact hlands (.gosub hb)
  | GOTO => exact hlands (.goto hb)
  | IF =>
    exact (Lands.conditional hb).mono (fun _ hm => hm) (fun _ _ hm => ⟨fun _ => rfl, hm⟩) fun _ hm => hm
  | LET => exact hlands .assignment
  | LIST => exact hlands .list
  | NEXT => exact hlands (.next hb)
  | ON => exact hlands (.on hb (hr rfl))
  | PRINT => exact hlands .print
  | READ => exact hlands .read
  | RESTORE => exact hlands .restore
  | RESUME => exact hlands (.resume hb (hr rfl))
  | RETURN => exact hlands (.ret hb)
  | RUN => exact hlands (.run hb (hr rfl))
  | STOP | SYSTEM => exact hlands (.halted _)
  | FN | STEP | THEN | TO => exact .throw _ fun _ hm => hm
  | DELETE | INPUT | NEW => cases hapart

theorem one_of_none (h : m.word? = none) (hm : Change false registers m₀ m) :
    CommutesAt b.behind m one one (Landed registers m₀) (Change false registers m₀) := by
  have hpeek : CommutesAt b.behind m (liftM Eval.peek? : Exec _) (liftM Eval.peek?)
      (fun t s => t = m.cursor.peek? ∧ s = m) (Change false registers m₀) := ⟨rfl, rfl, rfl⟩
  refine hpeek.bind ?_
  rintro t s ⟨ht, rfl⟩
  rw [Machine.word?, ← ht] at h
  split
  · exact Lands.done s hm
  · exact Lands.done s hm
  · exact Lands.assignment s hm
  · rw [Option.bind_some] at h
    simp only [h]
    exact Commutes.throw _ (fun _ hm => hm) s hm

/-- The statement at the cursor, unless it edits the program or reads what is typed. -/
theorem one_at (hb : b.Spares m₀) (hm : Change false registers m₀ m)
    (hapart : ∀ w, m.word? = some w → w.standsApart = false)
    (hr : ∀ w, m.word? = some w → w.setsRegisters = true → registers = true) :
    CommutesAt b.behind m one one
      (fun flow m' => (flow = .again → m.word? = some .IF) ∧ Reached registers m₀ flow m')
      (Change false registers m₀) := by
  cases hword : m.word? with
  | none =>
    exact (one_of_none hword hm).mono (fun _ _ hm => ⟨fun h => absurd h hm.1, hm.2⟩) fun _ hm => hm
  | some w =>
    have hrun := ofWord_commutes hb (hapart w hword) (hr w hword) m.pastWord hm.pastWord
    unfold CommutesAt at hrun ⊢
    rw [one_of_word? hword, one_of_word? (m := b.behind m) hword]
    simp only [Option.some.injEq]
    exact hrun

/-! ## Statements within statements -/

/-- The statement at `d` is the one at `m`, or `IF` has led to it from there. -/
inductive Opens : Machine → Machine → Prop
  | refl (m : Machine) : Opens m m
  | again {m m' d : Machine} (h : one m = (.ok .again, m')) (hd : Opens m' d) : Opens m d

/-- A statement that is done has to end where it is. -/
def settle : Flow → Exec Flow
  | .done => do
    Eval.endStatement
    return .done
  | flow => return flow

theorem settle_cases (flow : Flow) (m : Machine) :
    settle flow m = (.ok flow, m) ∨ (flow = .done ∧ m.cursor.atStatementEnd = false ∧
      settle flow m = (.error (.of .syntaxError), m)) := by
  cases flow with
  | done =>
    have hend : (liftM Eval.endStatement : Exec Unit) m =
        (require m.cursor.atStatementEnd (.of .syntaxError), m) := rfl
    cases hc : m.cursor.atStatementEnd with
    | true =>
      rw [hc] at hend
      exact .inl (bind_of_ok hend)
    | false =>
      rw [hc] at hend
      exact .inr ⟨rfl, rfl, bind_of_error hend⟩
  | _ => exact .inl rfl

theorem settle_of_atStatementEnd (h : m.cursor.atStatementEnd = true) (flow : Flow) :
    settle flow m = (.ok flow, m) := by
  rcases settle_cases flow m with hend | ⟨-, hnot, -⟩
  · exact hend
  · exact absurd h (Bool.eq_false_iff.mp hnot)

theorem settled_of_word? (h : m.word? = some w) : (one >>= settle) m = (ofWord w >>= settle) m.pastWord := by
  rw [run_bind, run_bind, one_of_word? h]

theorem settle_error {flow : Flow} {c : Condition} (h : settle flow m = (.error c, m')) :
    flow = .done ∧ m' = m := by
  rcases settle_cases flow m with hend | ⟨rfl, -, hend⟩
  · rw [hend] at h
    cases h
  · rw [hend] at h
    cases h
    exact ⟨rfl, rfl⟩

theorem input_at (hm : Change false registers m₀ m) (h : b.input = id) :
    CommutesAt b.behind m input input (Polled registers m₀) (Change false registers m₀) :=
  (Acts.inquire tapes scans m hm).bind fun q _ hs => pollInput_at hs (.inl h) q

/-- Only `IF` starts another statement. -/
theorem word?_of_again (h : one m = (.ok .again, m')) : m.word? = some .IF := by
  rcases m.apart_or_not with ⟨w, hword, hw⟩ | hnone
  · rw [one_of_word? hword] at h
    cases w with
    | DELETE => cases ((delete_at .own m.pastWord).ok h).2.1
    | NEW => cases ((new_at .own m.pastWord).ok h).2.1
    | INPUT =>
      have hpolled := ((input_at (b := .own) (.refl : Change false true _ _) rfl).ok h).2
      rcases hpolled with ⟨hflow, -⟩ | ⟨hflow, -⟩ <;> cases hflow
    | _ => cases hw
  · exact ((one_at (Backdrop.own_spares m) (.refl : Change false true m m) hnone fun _ _ _ => rfl).ok h).2.1 rfl

theorem one_of_if (hb : b.Spares m) (h : m.word? = some .IF) :
    CommutesAt b.behind m one one (Reached false m) (Change false false m) := by
  have hif : ∀ w, m.word? = some w → w = .IF := fun w hw => Option.some.inj (hw.symm.trans h)
  refine (one_at hb .refl (fun w hw => ?_) fun w hw => ?_).mono (fun _ _ hm => hm.2) fun _ hm => hm
  · rw [hif w hw]
    rfl
  · rw [hif w hw]
    nofun

theorem Opens.change {d : Machine} (h : Opens m d) : Change false false m d := by
  induction h with
  | refl m => exact .refl
  | again hone _ ih =>
    exact Change.trans ((one_of_if (Backdrop.own_spares _) (word?_of_again hone)).ok hone).2 ih

theorem dispatch_succ (h : ∀ m', one m ≠ (.ok .again, m')) (n : Nat) :
    dispatch (n + 1) m = (one >>= settle) m := by
  cases hone : one m with
  | mk r m' =>
    cases r with
    | error e => rw [dispatch, bind_of_error hone, bind_of_error hone]
    | ok flow =>
      rw [dispatch, bind_of_ok hone, bind_of_ok hone]
      cases flow with
      | again => exact absurd hone (h m')
      | _ => rfl

/-- A line of statements within statements comes to the last of them, and so before any background. -/
theorem dispatch_ends (n : Nat) (m : Machine) : ∃ d x, Opens m d ∧
    (x = settle .done ∨ x = (one >>= settle)) ∧
    ∀ b : Backdrop, b.Spares m → dispatch n (b.behind m) = x (b.behind d) := by
  induction n generalizing m with
  | zero => exact ⟨m, settle .done, .refl m, .inl rfl, fun _ _ => rfl⟩
  | succ n ih =>
    by_cases hagain : ∃ m', one m = (.ok .again, m')
    · obtain ⟨m', hone⟩ := hagain
      obtain ⟨d, x, hd, hx, hrun⟩ := ih m'
      refine ⟨d, x, .again hone hd, hx, fun b hb => ?_⟩
      obtain ⟨hbehind, hchange⟩ := (one_of_if hb (word?_of_again hone)).ok hone
      rw [dispatch, bind_of_ok hbehind]
      exact hrun b (hb.after hchange)
    · refine ⟨m, one >>= settle, .refl m, .inr rfl, fun b hb => dispatch_succ (fun m' hone => ?_) n⟩
      have hif : m.word? = some .IF := word?_of_again (m := b.behind m) hone
      have hflow := congrArg Prod.fst ((one_of_if hb hif).1.symm.trans hone)
      exact hagain ⟨(one m).2, Prod.ext hflow rfl⟩

/-- Each statement that `IF` starts stands behind that `IF`. -/
theorem length_of_again (h : one m = (.ok .again, m')) :
    m'.cursor.rest.length < m.cursor.rest.length := by
  have hword := word?_of_again h
  have hrun := h
  rw [one_of_word? hword] at hrun
  have hif := (Lands.conditional (Backdrop.own_spares m.pastWord)) m.pastWord
    (.refl : Change false false m.pastWord m.pastWord)
  obtain ⟨n, hn⟩ := Change.cursor (hif.ok hrun).2
  obtain ⟨t, ht, -⟩ := Option.bind_eq_some_iff.mp hword
  obtain ⟨rest, hrest⟩ := List.head?_eq_some_iff.mp ht
  have hpast : m.pastWord.cursor.rest = rest := by
    simp [Machine.pastWord, Cursor.advance, hrest]
  rw [hn, hrest]
  simp only [Cursor.skip, hpast, List.length_drop, List.length_cons]
  omega

/-- With room for all tokens left, the statement that is executed is the last one that is opened. -/
theorem dispatch_of_opens {d : Machine} (h : Opens m d) (hd : ∀ m', one d ≠ (.ok .again, m')) {n : Nat}
    (hn : m.cursor.rest.length < n) : dispatch n m = (one >>= settle) d := by
  induction h generalizing n with
  | refl m =>
    obtain ⟨n, rfl⟩ : ∃ k, n = k + 1 := ⟨n - 1, by omega⟩
    exact dispatch_succ hd n
  | @again m m' d hone _ ih =>
    obtain ⟨n, rfl⟩ : ∃ k, n = k + 1 := ⟨n - 1, by omega⟩
    have hlt := length_of_again hone
    rw [dispatch, bind_of_ok hone]
    exact ih hd (by omega)

/-! ## What a statement comes to -/

/-- What comes of a statement that leaves the program alone: it is done and the machine has changed, or
it fails and has not left the line, or it waits for an answer. -/
inductive Usual (registers : Bool) (m : Machine) : Except Condition Flow × Machine → Prop
  | reached {flow : Flow} {m' : Machine} (h : Reached registers m flow m') :
      Usual registers m (.ok flow, m')
  | failed {c : Condition} {m' : Machine} (h : Change false registers m m') :
      Usual registers m (.error c, m')
  | waits {d : Machine} {q : Inquiry} (h : Change false registers m d) :
      Usual registers m (.ok .waiting, { d with inquiry := some q })

theorem Usual.settle {flow : Flow} (h : Reached registers m flow m') :
    Usual registers m (settle flow m') := by
  rcases settle_cases flow m' with hflow | ⟨rfl, -, hflow⟩
  · rw [hflow]
    exact .reached h
  · rw [hflow]
    exact .failed h

theorem Usual.polled {x : Exec Flow} {d : Machine}
    (h : CommutesAt b.behind d x x (Polled registers m) (Change false registers m)) :
    Usual registers m (x d) ∧ Usual registers m ((x >>= Statement.settle) d) := by
  cases hx : x d with
  | mk r m' =>
    cases r with
    | error c =>
      rw [bind_of_error hx]
      exact ⟨.failed (h.error hx).2, .failed (h.error hx).2⟩
    | ok flow =>
      rw [bind_of_ok hx]
      rcases (h.ok hx).2 with ⟨rfl, hm⟩ | ⟨rfl, d, q, hd, rfl⟩
      · exact ⟨.reached hm, .settle hm⟩
      · exact ⟨.waits hd, .waits hd⟩

/-- What no change touches is not touched by such a statement. -/
theorem Usual.keeps {α : Type} (f : Machine → α)
    (hf : ∀ {jumps m'}, Change jumps registers m m' → f m' = f m)
    (hq : ∀ (d : Machine) q, f { d with inquiry := some q } = f d)
    {r : Except Condition Flow × Machine} (h : Usual registers m r) : f r.2 = f m := by
  cases h with
  | reached h => exact hf h
  | failed h => exact hf h
  | waits h => exact (hq _ _).trans (hf h)

theorem pollInput_usual (registers : Bool) (q : Inquiry) (m : Machine) :
    Usual registers m (pollInput q m) :=
  (Usual.polled (pollInput_at (b := .own) .refl (.inl rfl) q)).1

/-- What the statement at `m` may come to. Either it leaves the program alone, or it edits it: `DELETE`
in the direct line, also where something is left behind the range and the statement fails, and `NEW`. -/
inductive Outcome (m : Machine) : Except Condition Flow × Machine → Prop
  | usual {r : Except Condition Flow × Machine} (h : Usual true m r) : Outcome m r
  | deleted {d : Machine} {r : Nat × Nat} {w : Workspace} (h : Opens m d) (hd : d.line = none)
      (hr : lineRange d.pastWord.toWorkspace = (.ok r, w)) :
      Outcome m (.ok .done, deleted d.pastWord r w)
  | misread {d : Machine} {r : Nat × Nat} {w : Workspace} (h : Opens m d)
      (hword : d.word? = some .DELETE) (hd : d.line = none)
      (hr : lineRange d.pastWord.toWorkspace = (.ok r, w)) (hw : w.cursor.atStatementEnd = false) :
      Outcome m (.error (.of .syntaxError), deleted d.pastWord r w)
  | erased {d : Machine} (h : Opens m d) :
      Outcome m (.ok (.halted .finished), erased d.pastWord)

theorem delete_outcome {d : Machine} (hd : Opens m d) (hword : d.word? = some .DELETE) :
    Outcome m ((delete >>= settle) d.pastWord) := by
  have hat := delete_at .own d.pastWord
  cases hrun : delete d.pastWord with
  | mk r m' =>
    cases r with
    | error c =>
      obtain ⟨-, rfl⟩ := hat.error hrun
      rw [bind_of_error hrun]
      exact .usual (.failed (hd.change.mono id nofun).pastWord)
    | ok flow =>
      obtain ⟨-, rfl, hline, r, w, hr, rfl⟩ := hat.ok hrun
      rw [bind_of_ok hrun]
      rcases settle_cases .done (deleted d.pastWord r w) with hend | ⟨-, hend, hsettle⟩
      · rw [hend]
        exact .deleted hd hline hr
      · rw [hsettle]
        exact .misread hd hword hline hr hend

theorem one_outcome {d : Machine} (hd : Opens m d) : Outcome m ((one >>= settle) d) := by
  have hchange : Change false true m d := hd.change.mono id nofun
  rcases d.apart_or_not with ⟨w, hword, hw⟩ | hnone
  · rw [settled_of_word? hword]
    cases w with
    | DELETE => exact delete_outcome hd hword
    | INPUT => exact .usual (Usual.polled (input_at (b := .own) hchange.pastWord rfl)).2
    | NEW => exact .erased hd
    | _ => cases hw
  · have hat := one_at (Backdrop.own_spares m) hchange hnone fun _ _ _ => rfl
    cases hone : one d with
    | mk r m' =>
      cases r with
      | error c =>
        rw [bind_of_error hone]
        exact .usual (.failed (hat.error hone).2)
      | ok flow =>
        rw [bind_of_ok hone]
        exact .usual (.settle (hat.ok hone).2.2)

theorem dispatch_outcome (n : Nat) (m : Machine) : Outcome m (dispatch n m) := by
  obtain ⟨d, x, hd, hx, hrun⟩ := dispatch_ends n m
  have hdispatch : dispatch n m = x d := hrun .own (Backdrop.own_spares m)
  rw [hdispatch]
  rcases hx with rfl | rfl
  · have hdone : Reached true m .done d := hd.change.mono id nofun
    exact .usual (.settle hdone)
  · exact one_outcome hd

end Statement

end LineBasic
