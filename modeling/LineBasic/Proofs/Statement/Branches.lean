import LineBasic.Proofs.Machine.Steps
import LineBasic.Proofs.Statement.Extension

/-! Nested `IF` on one line. A line is written from a tree of conditions; which `ELSE` belongs to which
`IF` is found by counting, and the branch that is not taken is passed over token by token. Where every
`IF` before an `ELSE` has one of its own, running the line does what the tree says. -/

namespace LineBasic.Statement

/-- The tokens that a simple statement may start with. -/
def startsSimple : Token → Bool
  | .name _ | .word .LET | .word .PRINT | .word .DIM | .word .READ | .word .RESTORE => true
  | _ => false

/-- The tokens that do not count where an `ELSE` is looked for. -/
def isPlain : Token → Bool
  | .word .IF | .word .ELSE => false
  | _ => true

/-- A statement that goes on with the next one. -/
structure Simple where
  tokens : List Token
  starts : tokens.head?.any startsSimple = true
  plain : tokens.all (fun t => isPlain t && t != .colon) = true

/-- The condition of an `IF`: an expression, which neither word can be part of. -/
structure Test where
  tokens : List Token
  plain : tokens.all isPlain = true

/-- Statements in sequence, of which the last may be an `IF`. -/
inductive Sequence where
  | last (s : Simple)
  | cons (s : Simple) (rest : Sequence)
  | ifThen (c : Test) (yes : Sequence)
  | ifElse (c : Test) (yes no : Sequence)

/-- Do a statement that stands alone: it has to be done with, and nothing left of it. -/
def Simple.perform (s : Simple) (m : Machine) : Option Machine :=
  match one { m with cursor := .start s.tokens } with
  | (.ok .done, m') => if m'.cursor.atEnd then some { m' with cursor := m.cursor } else none
  | _ => none

/-- Whether a condition holds, which has to be a number. -/
def Test.holds? (c : Test) (m : Machine) : Option (Bool × Machine) :=
  match Exec.expression { m with cursor := .start c.tokens } with
  | (.ok (.number x), m') =>
    if m'.cursor.atEnd then some (x != 0, { m' with cursor := m.cursor }) else none
  | _ => none

namespace Sequence

/-- A tree as it stands on a line. -/
def tokens : Sequence → List Token
  | last s => s.tokens
  | cons s rest => s.tokens ++ .colon :: rest.tokens
  | ifThen c yes => .word .IF :: (c.tokens ++ .word .THEN :: yes.tokens)
  | ifElse c yes no =>
    .word .IF :: (c.tokens ++ .word .THEN :: (yes.tokens ++ .word .ELSE :: no.tokens))

/-- Every `IF` has an `ELSE`. -/
def complete : Sequence → Bool
  | last _ => true
  | cons _ rest => rest.complete
  | ifThen _ _ => false
  | ifElse _ yes no => yes.complete && no.complete

/-- Every `IF` between `THEN` and its `ELSE` has an `ELSE` too. -/
def paired : Sequence → Bool
  | last _ => true
  | cons _ rest => rest.paired
  | ifThen _ yes => yes.paired
  | ifElse _ yes no => yes.complete && no.paired

/-- What a tree does, if every statement and condition that it comes to succeeds. -/
def run : Sequence → Machine → Option Machine
  | last s, m => s.perform m
  | cons s rest, m => do
    let m ← s.perform m
    rest.run m
  | ifThen c yes, m => do
    let (holds, m) ← c.holds? m
    if holds then yes.run m else some m
  | ifElse c yes no, m => do
    let (holds, m) ← c.holds? m
    if holds then yes.run m else no.run m

end Sequence

open Cursored

variable {m m' : Machine} {suffix : List Token}

/-! ## Statements and conditions where they stand -/

theorem statementEnd_nil : StatementEnd [] := by
  intro t ht
  cases ht

theorem one_of_name {x : String} {rest : List Token} (h : m.cursor.rest = .name x :: rest) :
    one m = assignment m := by
  have hpeek : (liftM Eval.peek? : Exec _) m = (.ok (some (.name x)), m) := by
    show ((.ok m.cursor.rest.head?, m) : Except Condition (Option Token) × Machine) = _
    rw [h]
    rfl
  exact bind_of_ok hpeek

theorem one_of_word {w : Word} (hw : w.startsStatement = true) (passed rest : List Token) (p : Position) :
    one (place m ⟨passed, .word w :: rest⟩ p) = ofWord w (place m ⟨.word w :: passed, rest⟩ p) := by
  have hstatement : (Token.word w).statement? = some w := if_pos hw
  have hpeek : (liftM Eval.peek? : Exec _) (place m ⟨passed, .word w :: rest⟩ p) =
      (.ok (some (.word w)), place m ⟨passed, .word w :: rest⟩ p) := rfl
  rw [one, bind_of_ok hpeek]
  simp only [hstatement]
  rfl

theorem extends_ofWord (hs : StatementEnd suffix) {w : Word} (hw : startsSimple (.word w) = true)
    (n : Nat) : Extends suffix n (fun _ => n) (ofWord w) (ofWord w) := by
  cases w with
  | LET => exact .assignment hs.boundary
  | PRINT => exact .print hs
  | DIM => exact .dim hs.boundary
  | READ => exact .read hs.boundary
  | RESTORE => exact .restore hs
  | _ => cases hw

theorem startsStatement_of_startsSimple {w : Word} (hw : startsSimple (.word w) = true) :
    w.startsStatement = true := by
  cases w <;> first | rfl | cases hw

theorem Simple.perform_eq_some {s : Simple} (h : s.perform m = some m') :
    ∃ done, one { m with cursor := .start s.tokens } = (.ok .done, done) ∧ done.cursor.rest = [] ∧
      m' = { done with cursor := m.cursor } := by
  unfold Simple.perform at h
  split at h
  · rename_i done hone
    split at h
    · rename_i hend
      exact ⟨done, hone, List.isEmpty_iff.mp hend, (Option.some.inj h).symm⟩
    · cases h
  · cases h

/-- A statement does before its end what it does alone. -/
theorem Simple.one_append {s : Simple} (hs : StatementEnd suffix) (h : s.perform m = some m') :
    fixed m' = fixed m ∧ ∀ passed p, one (place m ⟨passed, s.tokens ++ suffix⟩ p) =
      (.ok .done, place m' ⟨s.tokens.reverse ++ passed, suffix⟩ p) := by
  obtain ⟨_ | ⟨t, rest⟩, hstarts, _⟩ := s
  · cases hstarts
  obtain ⟨done, hone, hend, rfl⟩ := Simple.perform_eq_some h
  cases t with
  | name x =>
    rw [one_of_name rfl] at hone
    obtain ⟨hfixed, hall⟩ := Extends.whole (fun n => .assignment (n := n) hs.boundary) hone hend
    refine ⟨hfixed, fun passed p => ?_⟩
    exact (one_of_name rfl).trans (hall passed p)
  | word w =>
    have hword : startsSimple (.word w) = true := hstarts
    have hstart := one_of_word (m := m) (startsStatement_of_startsSimple hword)
    have hone : ofWord w (place m ⟨[.word w], rest⟩ m.statement) = (.ok .done, done) :=
      (hstart [] rest m.statement).symm.trans hone
    obtain ⟨hfixed, hall⟩ := Extends.whole (extends_ofWord hs hword) hone hend
    refine ⟨hfixed, fun passed p => ?_⟩
    rw [List.reverse_cons, List.append_assoc]
    exact (hstart passed _ p).trans (hall (.word w :: passed) p)
  | _ => cases hstarts

theorem Simple.fixed_perform {s : Simple} (h : s.perform m = some m') : fixed m' = fixed m :=
  (Simple.one_append statementEnd_nil h).1

theorem Test.holds?_eq_some {c : Test} {holds : Bool} (h : c.holds? m = some (holds, m')) :
    ∃ x done, Exec.expression { m with cursor := .start c.tokens } = (.ok (.number x), done) ∧
      done.cursor.rest = [] ∧ holds = (x != 0) ∧ m' = { done with cursor := m.cursor } := by
  unfold Test.holds? at h
  split at h
  · rename_i x done hvalue
    split at h
    · rename_i hend
      cases h
      exact ⟨x, done, hvalue, List.isEmpty_iff.mp hend, rfl, rfl⟩
    · cases h
  · cases h

/-- A condition before `THEN` decides where to go on. -/
theorem Test.conditional_append {c : Test} {holds : Bool} (h : c.holds? m = some (holds, m')) :
    fixed m' = fixed m ∧ ∀ passed rest p,
      conditional (place m ⟨passed, c.tokens ++ .word .THEN :: rest⟩ p) =
        (if holds then branch else otherwise)
          (place m' ⟨.word .THEN :: (c.tokens.reverse ++ passed), rest⟩ p) := by
  obtain ⟨x, done, hvalue, hend, rfl, rfl⟩ := Test.holds?_eq_some h
  have hwhole : ∀ rest, fixed done = fixed m ∧ ∀ passed p, Exec.expression
      (place m ⟨passed, c.tokens ++ .word .THEN :: rest⟩ p) =
        (.ok (.number x), place done ⟨c.tokens.reverse ++ passed, .word .THEN :: rest⟩ p) := by
    intro rest
    have hthen : Boundary (.word .THEN :: rest) := by
      intro t ht
      cases ht
      exact .inr (.inr rfl)
    exact Extends.whole (fun n => .expression (n := n) hthen) hvalue hend
  refine ⟨(hwhole []).1, fun passed rest p => ?_⟩
  rw [conditional, bind_of_ok ((hwhole rest).2 passed p)]
  rfl

/-! ## The `ELSE` of an `IF` -/

/-- Looking for an `ELSE`, the tokens of `ts` are passed over, and with `depth` open before them `depth'`
are open after. -/
def Carries (ts : List Token) (depth depth' : Nat) : Prop :=
  ∀ rest, Cursor.elseDistance? depth (ts ++ rest) =
    (Cursor.elseDistance? depth' rest).map (· + ts.length)

namespace Carries

variable {ts us : List Token} {t : Token} {i j k : Nat}

theorem append (hts : Carries ts i j) (hus : Carries us j k) : Carries (ts ++ us) i k := by
  intro rest
  rw [List.append_assoc, hts, hus, Option.map_map, List.length_append]
  congr 1
  funext n
  show n + us.length + ts.length = _
  omega

theorem cons (ht : Carries [t] i j) (hts : Carries ts j k) : Carries (t :: ts) i k := ht.append hts

theorem opened : Carries [.word .IF] i (i + 1) := fun _ => by rw [List.singleton_append]; rfl

theorem closed : Carries [.word .ELSE] (i + 1) i := fun _ => rfl

theorem single (ht : isPlain t = true) : Carries [t] i i := by
  intro rest
  rw [List.singleton_append, Cursor.elseDistance?]
  · rfl
  · rintro rfl
    cases ht
  · rintro - rfl
    cases ht
  · rintro _ - rfl
    cases ht

theorem plain (h : ts.all isPlain = true) : Carries ts i i := by
  induction ts with
  | nil => exact fun rest => by simp
  | cons t ts ih =>
    obtain ⟨ht, hts⟩ := Bool.and_eq_true_iff.mp h
    exact (single ht).cons (ih hts)

theorem simple (s : Simple) : Carries s.tokens i i := by
  refine plain (List.all_eq_true.mpr fun t ht => ?_)
  exact (Bool.and_eq_true_iff.mp (List.all_eq_true.mp s.plain t ht)).1

theorem colon (hts : Carries ts i j) : Carries (.colon :: ts) i j := (single (t := .colon) rfl).cons hts

/-- `IF` with its condition opens one more. -/
theorem condition (c : Test) (hts : Carries ts (i + 1) j) :
    Carries (.word .IF :: (c.tokens ++ .word .THEN :: ts)) i j :=
  opened.cons ((plain c.plain).append ((single (t := .word .THEN) rfl).cons hts))

/-- A tree with an `ELSE` for every `IF` leaves as many open as there were. -/
theorem complete {q : Sequence} (hq : q.complete = true) : Carries q.tokens i i := by
  induction q generalizing i with
  | last s => exact simple s
  | cons s q ih => exact (simple s).append (ih hq).colon
  | ifThen c yes => cases hq
  | ifElse c yes no ihYes ihNo =>
    obtain ⟨hyes, hno⟩ := Bool.and_eq_true_iff.mp hq
    exact condition c ((ihYes hyes).append (closed.cons (ihNo hno)))

/-- A tree that may end a line has no `ELSE` to spare. -/
theorem paired {q : Sequence} (hq : q.paired = true) : ∃ j, Carries q.tokens i j := by
  induction q generalizing i with
  | last s => exact ⟨i, simple s⟩
  | cons s q ih =>
    obtain ⟨j, hj⟩ := ih (i := i) hq
    exact ⟨j, (simple s).append hj.colon⟩
  | ifThen c yes ih =>
    obtain ⟨j, hj⟩ := ih (i := i + 1) hq
    exact ⟨j, condition c hj⟩
  | ifElse c yes no _ ih =>
    obtain ⟨hyes, hno⟩ := Bool.and_eq_true_iff.mp hq
    obtain ⟨j, hj⟩ := ih (i := i) hno
    exact ⟨j, condition c ((complete hyes).append (closed.cons hj))⟩

end Carries

theorem findElse?_of_paired {q : Sequence} (hq : q.paired = true) (passed : List Token) :
    Cursor.findElse? ⟨passed, q.tokens⟩ = none := by
  obtain ⟨j, hj⟩ := Carries.paired (i := 0) hq
  have hnil := hj []
  rw [List.append_nil] at hnil
  rw [Cursor.findElse?, hnil]
  rfl

theorem findElse?_of_complete {q : Sequence} (hq : q.complete = true) (passed rest : List Token) :
    Cursor.findElse? ⟨passed, q.tokens ++ .word .ELSE :: rest⟩ =
      some (passed.length + (q.tokens.length + 1)) := by
  rw [Cursor.findElse?, Carries.complete hq, Nat.add_comm q.tokens.length]
  rfl

/-! ## From statement to statement -/

theorem statementEnd_colon (rest : List Token) : StatementEnd (.colon :: rest) := by
  intro t ht
  cases ht
  exact .inl rfl

theorem endStatement_of_end (hs : StatementEnd suffix) (passed : List Token) (p : Position) :
    (liftM Eval.endStatement : Exec Unit) (place m ⟨passed, suffix⟩ p) =
      (.ok (), place m ⟨passed, suffix⟩ p) := by
  have hend : Cursor.atStatementEnd ⟨passed, suffix⟩ = true :=
    Extends.atStatementEnd_append hs ⟨passed, []⟩ passed
  show (require (Cursor.atStatementEnd ⟨passed, suffix⟩) (.of .syntaxError) : Exec Unit) _ = _
  rw [hend]
  rfl

theorem dispatch_of_done (hs : StatementEnd suffix) {passed : List Token} {p : Position}
    (h : one m = (.ok .done, place m' ⟨passed, suffix⟩ p)) (n : Nat) :
    dispatch (n + 1) m = (.ok .done, place m' ⟨passed, suffix⟩ p) := by
  rw [dispatch, bind_of_ok h]
  exact bind_of_ok (endStatement_of_end hs passed p)

theorem dispatch_of_again (h : one m = (.ok .again, m')) (n : Nat) :
    dispatch (n + 1) m = dispatch n m' := by
  rw [dispatch, bind_of_ok h]

/-- A tree starts with a statement, which no line number or colon does. -/
theorem Sequence.head?_tokens (q : Sequence) (rest : List Token) :
    ∃ t, (q.tokens ++ rest).head? = some t ∧ t ≠ .colon ∧ ∀ k, t.lineNumber ≠ .ok k := by
  have hsimple : ∀ (s : Simple) (rest : List Token),
      ∃ t, (s.tokens ++ rest).head? = some t ∧ t ≠ .colon ∧ ∀ k, t.lineNumber ≠ .ok k := by
    rintro ⟨_ | ⟨t, ts⟩, hstarts, -⟩ rest
    · cases hstarts
    · refine ⟨t, rfl, ?_, fun k => ?_⟩
      · rintro rfl
        cases hstarts
      · cases t with
        | number x => cases hstarts
        | _ => exact nofun
  cases q with
  | last s => exact hsimple s rest
  | cons s q =>
    rw [tokens, List.append_assoc]
    exact hsimple s _
  | ifThen c yes => exact ⟨.word .IF, rfl, nofun, nofun⟩
  | ifElse c yes no => exact ⟨.word .IF, rfl, nofun, nofun⟩

theorem branch_tokens (q : Sequence) (rest passed : List Token) (p : Position) :
    branch (place m ⟨passed, q.tokens ++ rest⟩ p) =
      (.ok .again, place m ⟨passed, q.tokens ++ rest⟩ p) := by
  have hnone : Eval.lineNumber? (place m ⟨passed, q.tokens ++ rest⟩ p).toWorkspace =
      (.ok none, (place m ⟨passed, q.tokens ++ rest⟩ p).toWorkspace) := by
    obtain ⟨t, ht, -, hnumber⟩ := q.head?_tokens rest
    refine Eval.lineNumber?_of_none fun u k hu => ?_
    obtain rfl : t = u := Option.some.inj (ht.symm.trans hu)
    exact hnumber k
  rw [branch, bind_of_ok (Extends.liftM_apply hnone)]
  rfl

/-- Past the branch that is not taken, to the one after its `ELSE`. -/
theorem otherwise_of_else {yes : Sequence} (hyes : yes.complete = true) (no : Sequence)
    (rest passed : List Token) (p : Position) :
    otherwise (place m ⟨passed, yes.tokens ++ .word .ELSE :: (no.tokens ++ rest)⟩ p) =
      (.ok .again, place m ⟨.word .ELSE :: (yes.tokens.reverse ++ passed), no.tokens ++ rest⟩ p) := by
  have hseek : Cursor.seek ⟨passed, yes.tokens ++ .word .ELSE :: (no.tokens ++ rest)⟩
      (passed.length + (yes.tokens.length + 1)) =
        ⟨.word .ELSE :: (yes.tokens.reverse ++ passed), no.tokens ++ rest⟩ := by
    refine (Cursor.seek_pos_add _ _).trans ?_
    simp [Cursor.skip, List.take_append, List.drop_append, List.take_of_length_le]
  rw [otherwise, bind_get]
  simp only [place, findElse?_of_complete hyes]
  rw [hseek]
  exact branch_tokens no rest _ p

/-- Without an `ELSE` the rest of the line is passed. -/
theorem otherwise_of_end {yes : Sequence} (hyes : yes.paired = true) (passed : List Token)
    (p : Position) : otherwise (place m ⟨passed, yes.tokens⟩ p) =
      (.ok .done, place m ⟨yes.tokens.reverse ++ passed, []⟩ p) := by
  have hskip : Cursor.skipLine ⟨passed, yes.tokens⟩ = ⟨yes.tokens.reverse ++ passed, []⟩ := by
    simp [Cursor.skipLine, Cursor.skip]
  rw [otherwise, bind_get]
  simp only [place, findElse?_of_paired hyes]
  rw [← hskip]
  rfl

/-! ## Trees on a line -/

/-- What may follow a tree: nothing, or the `ELSE` of an `IF` around it. -/
def Sequence.Closes (q : Sequence) (rest : List Token) : Prop :=
  q.paired = true ∧ rest = [] ∨ q.complete = true ∧ ∃ no, rest = .word .ELSE :: no

theorem Sequence.Closes.statementEnd {q : Sequence} {rest : List Token} (h : q.Closes rest) :
    StatementEnd rest := by
  intro t ht
  obtain ⟨-, rfl⟩ | ⟨-, no, rfl⟩ := h
  · cases ht
  · cases ht
    exact .inr rfl

theorem ready_of_fixed (h : fixed m' = fixed m) (hm : m.Ready) : m'.Ready :=
  ⟨(congrArg Control.running h).trans hm.running, (congrArg Control.breakRequested h).trans hm.unbroken,
    (congrArg Control.inquiry h).trans hm.answered⟩

theorem ready_place (hm : m.Ready) (c : Cursor) (p : Position) : (place m c p).Ready :=
  ⟨hm.running, hm.unbroken, hm.answered⟩

/-- The statement at the cursor is done with, and from there the run goes along the line to `finish`. -/
def Ends (n : Nat) (m finish : Machine) : Prop :=
  ∃ done, dispatch n m = (.ok .done, done) ∧ done.line = m.line ∧ done.Leads finish

theorem Ends.again {n : Nat} {finish : Machine} (h : one m = (.ok .again, m')) (hline : m'.line = m.line)
    (hends : Ends n m' finish) : Ends (n + 1) m finish := by
  obtain ⟨done, hdone, hsame, hleads⟩ := hends
  exact ⟨done, (dispatch_of_again h n).trans hdone, hsame.trans hline, hleads⟩

/-- A run that goes on at a statement takes one step to its end. -/
theorem Ends.leads {start : Machine} {ts passed : List Token} {t : Token} {c : Cursor} {p : Position}
    (hstart : start.Ready) (hline : start.line = m.line)
    (hnext : start.nextStatement = (place m ⟨passed, ts⟩ p).nextStatement)
    (hts : ts.head? = some t) (ht : t ≠ .colon)
    (hends : ∀ p, ∃ p', Ends (ts.length + 1) (place m ⟨passed, ts⟩ p) (place m' c p')) :
    ∃ p', start.Leads (place m' c p') := by
  have hmark := Machine.nextStatement_of_start (m := place m ⟨passed, ts⟩ p) hts ht
  obtain ⟨p', done, hdone, hsame, hleads⟩ := hends (place m ⟨passed, ts⟩ p).position
  have hstep := hstart.step_of_dispatch (hnext.trans hmark) hdone
  exact ⟨p', .step hstep (hsame.trans hline.symm) hleads⟩

/-- At an `ELSE` that was not looked for, a branch is over and the rest of the line is passed. -/
theorem leads_of_else (hm : m.Ready) (passed no : List Token) (p : Position) :
    ∃ p', (place m ⟨passed, .word .ELSE :: no⟩ p).Leads
      (place m ⟨no.reverse ++ .word .ELSE :: passed, []⟩ p') := by
  have hskip : Cursor.skipLine ⟨.word .ELSE :: passed, no⟩ =
      ⟨no.reverse ++ .word .ELSE :: passed, []⟩ := by
    simp [Cursor.skipLine, Cursor.skip]
  have hone : ∀ p, one (place m ⟨passed, .word .ELSE :: no⟩ p) =
      (.ok .done, place m ⟨no.reverse ++ .word .ELSE :: passed, []⟩ p) := by
    intro p
    rw [← hskip]
    exact one_of_word rfl passed no p
  refine Ends.leads (m := m) (p := p) (ready_place hm _ p) rfl rfl rfl (by decide) fun p => ⟨p, ?_⟩
  exact ⟨_, dispatch_of_done statementEnd_nil (hone p) _, rfl, .refl _⟩

theorem Sequence.Closes.leads {q : Sequence} {rest : List Token} (h : q.Closes rest) (hm : m.Ready)
    (passed : List Token) (p : Position) :
    ∃ p', (place m ⟨passed, rest⟩ p).Leads (place m ⟨rest.reverse ++ passed, []⟩ p') := by
  obtain ⟨-, rfl⟩ | ⟨-, no, rfl⟩ := h
  · exact ⟨p, .refl _⟩
  · rw [List.reverse_cons, List.append_assoc]
    exact leads_of_else hm passed no p

/-- Started at the first of the tokens that end a line, a run goes to the end of the line and does there
what leads from `m` to `m'`. -/
def Runs (ts : List Token) (m m' : Machine) : Prop :=
  ∀ passed p n, ts.length ≤ n →
    ∃ p', Ends (n + 1) (place m ⟨passed, ts⟩ p) (place m' ⟨ts.reverse ++ passed, []⟩ p')

namespace Runs

variable {ts rest : List Token} {m₁ : Machine}

theorem colon (hts : Runs ts m m') {t : Token} (hhead : ts.head? = some t) (ht : t ≠ .colon)
    (hm : m.Ready) (passed : List Token) (p : Position) :
    ∃ p', (place m ⟨passed, .colon :: ts⟩ p).Leads
      (place m' ⟨(.colon :: ts).reverse ++ passed, []⟩ p') := by
  rw [List.reverse_cons, List.append_assoc]
  have hnext := Machine.nextStatement_of_colon (m := place m ⟨passed, .colon :: ts⟩ p) rfl
  exact Ends.leads (m := m) (p := p) (ready_place hm _ p) rfl hnext hhead ht fun p =>
    hts (.colon :: passed) p _ (Nat.le_refl _)

theorem simple {s : Simple} (hs : s.perform m = some m₁) (hend : StatementEnd rest)
    (hrest : ∀ passed p, ∃ p', (place m₁ ⟨passed, rest⟩ p).Leads
      (place m' ⟨rest.reverse ++ passed, []⟩ p')) : Runs (s.tokens ++ rest) m m' := by
  intro passed p n _
  obtain ⟨hfixed, hone⟩ := Simple.one_append hend hs
  obtain ⟨p', hleads⟩ := hrest (s.tokens.reverse ++ passed) p
  rw [List.reverse_append, List.append_assoc]
  exact ⟨p', _, dispatch_of_done hend (hone passed p) n, congrArg Control.line hfixed, hleads⟩

/-- An `IF` whose condition was decided goes on past the tokens of `skipped`. -/
theorem taken {c : Test} {holds : Bool} (hc : c.holds? m = some (holds, m₁)) (skipped : List Token)
    (hjump : ∀ passed p, (if holds then branch else otherwise) (place m₁ ⟨passed, skipped ++ ts⟩ p) =
      (.ok .again, place m₁ ⟨skipped.reverse ++ passed, ts⟩ p)) (hts : Runs ts m₁ m') :
    Runs (.word .IF :: (c.tokens ++ .word .THEN :: (skipped ++ ts))) m m' := by
  intro passed p n hn
  obtain ⟨hfixed, hcond⟩ := Test.conditional_append hc
  obtain ⟨k, rfl⟩ : ∃ k, n = k + 1 := ⟨n - 1, by simp at hn; omega⟩
  have hk : ts.length ≤ k := by
    simp at hn
    omega
  let before := skipped.reverse ++ .word .THEN :: (c.tokens.reverse ++ .word .IF :: passed)
  obtain ⟨p', hends⟩ := hts before p k hk
  have hone : one (place m ⟨passed, .word .IF :: (c.tokens ++ .word .THEN :: (skipped ++ ts))⟩ p) =
      (.ok .again, place m₁ ⟨before, ts⟩ p) := by
    rw [one_of_word rfl]
    exact (hcond _ _ p).trans (hjump _ p)
  have hpassed : (.word .IF :: (c.tokens ++ .word .THEN :: (skipped ++ ts))).reverse ++ passed =
      ts.reverse ++ before := by
    simp [before]
  rw [hpassed]
  exact ⟨p', .again hone (congrArg Control.line hfixed) hends⟩

/-- An `IF` without `ELSE` whose condition fails is passed with the rest of the line. -/
theorem passed {c : Test} (hc : c.holds? m = some (false, m₁)) {yes : Sequence}
    (hyes : yes.paired = true) : Runs (.word .IF :: (c.tokens ++ .word .THEN :: yes.tokens)) m m₁ := by
  intro passed p n _
  obtain ⟨hfixed, hcond⟩ := Test.conditional_append hc
  have hone : one (place m ⟨passed, .word .IF :: (c.tokens ++ .word .THEN :: yes.tokens)⟩ p) =
      (.ok .done, place m₁
        ⟨(.word .IF :: (c.tokens ++ .word .THEN :: yes.tokens)).reverse ++ passed, []⟩ p) := by
    rw [one_of_word rfl]
    refine (hcond _ _ p).trans ((otherwise_of_end hyes _ p).trans ?_)
    simp
  exact ⟨p, _, dispatch_of_done statementEnd_nil hone n, congrArg Control.line hfixed, .refl _⟩

end Runs

/-- No tree changes which line is executed, or whether the run goes on. -/
theorem Sequence.fixed_run {q : Sequence} (h : q.run m = some m') : fixed m' = fixed m := by
  induction q generalizing m with
  | last s => exact Simple.fixed_perform h
  | cons s q ih =>
    obtain ⟨m₁, hs, hrun⟩ := Option.bind_eq_some_iff.mp h
    exact (ih hrun).trans (Simple.fixed_perform hs)
  | ifThen c yes ih =>
    obtain ⟨⟨holds, m₁⟩, hc, hrun⟩ := Option.bind_eq_some_iff.mp h
    have hfixed := (Test.conditional_append hc).1
    cases holds with
    | true => exact (ih hrun).trans hfixed
    | false =>
      cases hrun
      exact hfixed
  | ifElse c yes no ihYes ihNo =>
    obtain ⟨⟨holds, m₁⟩, hc, hrun⟩ := Option.bind_eq_some_iff.mp h
    have hfixed := (Test.conditional_append hc).1
    cases holds with
    | true => exact (ihYes hrun).trans hfixed
    | false => exact (ihNo hrun).trans hfixed

/-- A tree that ends a line, or a branch of it, does there what the tree says. -/
theorem Sequence.runs {q : Sequence} {rest : List Token} (hq : q.Closes rest) (hm : m.Ready)
    (h : q.run m = some m') : Runs (q.tokens ++ rest) m m' := by
  -- what follows a branch differs from what follows the `IF`, so it is general in the induction
  induction q generalizing m rest with
  | last s =>
    have hready := ready_of_fixed (Simple.fixed_perform h) hm
    exact .simple h hq.statementEnd fun passed p => hq.leads hready passed p
  | cons s q ih =>
    obtain ⟨m₁, hs, hrun⟩ := Option.bind_eq_some_iff.mp h
    have hready := ready_of_fixed (Simple.fixed_perform hs) hm
    have hrest : Runs (q.tokens ++ rest) m₁ m' := ih hq hready hrun
    obtain ⟨t, hhead, ht, -⟩ := q.head?_tokens rest
    rw [tokens, List.append_assoc]
    exact .simple hs (statementEnd_colon _) fun passed p => hrest.colon hhead ht hready passed p
  | ifThen c yes ih =>
    obtain ⟨⟨holds, m₁⟩, hc, hrun⟩ := Option.bind_eq_some_iff.mp h
    have hready := ready_of_fixed (Test.conditional_append hc).1 hm
    obtain ⟨hyes, rfl⟩ | ⟨hcomplete, -⟩ := hq
    · rw [List.append_nil]
      cases holds with
      | true =>
        have htaken : Runs (yes.tokens ++ []) m₁ m' := ih (.inl ⟨hyes, rfl⟩) hready hrun
        rw [List.append_nil] at htaken
        refine .taken hc [] (fun passed p => ?_) htaken
        have hbranch := branch_tokens (m := m₁) yes [] passed p
        rwa [List.append_nil] at hbranch
      | false =>
        cases hrun
        exact .passed hc hyes
    · cases hcomplete
  | ifElse c yes no ihYes ihNo =>
    obtain ⟨⟨holds, m₁⟩, hc, hrun⟩ := Option.bind_eq_some_iff.mp h
    have hready := ready_of_fixed (Test.conditional_append hc).1 hm
    have hyes : yes.complete = true := by
      obtain ⟨hpaired, -⟩ | ⟨hcomplete, -⟩ := hq
      · exact (Bool.and_eq_true_iff.mp hpaired).1
      · exact (Bool.and_eq_true_iff.mp hcomplete).1
    have hno : no.Closes rest := by
      obtain ⟨hpaired, hrest⟩ | ⟨hcomplete, hrest⟩ := hq
      · exact .inl ⟨(Bool.and_eq_true_iff.mp hpaired).2, hrest⟩
      · exact .inr ⟨(Bool.and_eq_true_iff.mp hcomplete).2, hrest⟩
    have htokens : (ifElse c yes no).tokens ++ rest = .word .IF :: (c.tokens ++ .word .THEN ::
        (yes.tokens ++ .word .ELSE :: (no.tokens ++ rest))) := by
      simp [tokens]
    rw [htokens]
    cases holds with
    | true =>
      -- the branch ends at the `ELSE`, which passes the other one when it is come to
      have htaken := ihYes (.inr ⟨hyes, no.tokens ++ rest, rfl⟩) hready hrun
      exact .taken hc [] (fun passed p => branch_tokens yes _ passed p) htaken
    | false =>
      have htaken := ihNo hno hready hrun
      have hskipped := Runs.taken hc (yes.tokens ++ [.word .ELSE]) (fun passed p => ?_) htaken
      · rwa [List.append_assoc] at hskipped
      · rw [List.append_assoc, List.reverse_append, List.append_assoc]
        exact otherwise_of_else hyes no rest passed p

/-- A line written from a tree is run as the tree says: each condition is tested when it is come to, the
branch that is taken is run to its end and the other not at all. Only then is the line left, for the one
with the next number, if there is one. -/
theorem steps_of_run (q : Sequence) (hq : q.paired = true) {n : Nat} (hm : m.Ready)
    (hline : m.line = some n) (hcursor : m.cursor = .start q.tokens) (h : q.run m = some m') :
    ∃ k p, m.steps k = (.running, { m' with cursor := ⟨q.tokens.reverse, []⟩, statement := p }) ∧
      (∀ j ≤ k, (m.steps j).1 = .running ∧ (m.steps j).2.line = some n) ∧
      (m.steps k).2.step = match m.program.next? n with
        | some l => ((m.steps k).2.enterLine l).step
        | none => (m.steps k).2.halt .finished := by
  have hfixed := Sequence.fixed_run h
  have hruns : Runs (q.tokens ++ []) m m' := Sequence.runs (.inl ⟨hq, rfl⟩) hm h
  rw [List.append_nil] at hruns
  obtain ⟨t, hhead, ht, -⟩ := q.head?_tokens []
  rw [List.append_nil] at hhead
  have hstart : m.nextStatement = (place m ⟨[], q.tokens⟩ m.statement).nextStatement := by
    show _ = { m with cursor := .start q.tokens : Machine }.nextStatement
    rw [← hcursor]
  obtain ⟨p, k, hk, hall⟩ := Ends.leads hm rfl hstart hhead ht fun p => hruns [] p _ (Nat.le_refl _)
  rw [List.append_nil] at hk
  refine ⟨k, p, hk, fun j hj => ⟨(hall j hj).1, (hall j hj).2.trans hline⟩, ?_⟩
  have hready := ready_place (ready_of_fixed hfixed hm) ⟨q.tokens.reverse, []⟩ p
  have hsame : m'.line = some n := (congrArg Control.line hfixed).trans hline
  have hprogram : m'.program = m.program := congrArg Control.program hfixed
  rw [hk, ← hprogram]
  exact hready.step_of_end hsame rfl

/-- `IF "A" < "B" THEN IF "A" = "B" THEN Y$ = "Y" ELSE X$ = "Y": RESTORE ELSE Y$ = "Y"`, with a line
after it. -/
theorem steps_of_run_nested :
    let less : Test := ⟨[.string "A", .operator .less, .string "B"], rfl⟩
    let equal : Test := ⟨[.string "A", .operator .equal, .string "B"], rfl⟩
    let x : Simple := ⟨[.name "X$", .operator .equal, .string "Y"], rfl, rfl⟩
    let y : Simple := ⟨[.name "Y$", .operator .equal, .string "Y"], rfl, rfl⟩
    let restore : Simple := ⟨[.word .RESTORE], rfl, rfl⟩
    let q : Sequence := .ifElse less (.ifElse equal (.last y) (.cons x (.last restore))) (.last y)
    let next : ProgramLine := ⟨20, [.word .END]⟩
    let first := Listing.empty.insert ⟨10, q.tokens⟩ (List.cons_ne_nil _ _)
    let program := first.insert next (List.cons_ne_nil _ _)
    let m : Machine := { program, running := true, line := some 10, cursor := .start q.tokens }
    (q.paired = true ∧ m.Ready ∧ (q.run m).isSome = true) ∧
      ∃ k, (∀ j ≤ k, (m.steps j).1 = .running ∧ (m.steps j).2.line = some 10) ∧
        ((m.steps k).2.store.binding? "X$").isSome = true ∧
        ((m.steps k).2.store.binding? "Y$").isSome = false ∧
        (m.steps k).2.step = ((m.steps k).2.enterLine next).step := by
  intro less equal x y restore q next first program m
  have hready : m.Ready := ⟨rfl, rfl, rfl⟩
  have hsome : (q.run m).isSome = true := by decide +kernel
  have hbound : (q.run m).all (fun m => (m.store.binding? "X$").isSome) = true := by decide +kernel
  have hfree : (q.run m).all (fun m => !(m.store.binding? "Y$").isSome) = true := by decide +kernel
  refine ⟨⟨rfl, hready, hsome⟩, ?_⟩
  obtain ⟨m', hrun⟩ := Option.isSome_iff_exists.mp hsome
  rw [hrun] at hbound hfree
  obtain ⟨k, p, hk, hall, hstep⟩ := steps_of_run q rfl hready rfl rfl hrun
  refine ⟨k, hall, ?_, ?_, hstep⟩
  · rw [hk]
    exact hbound
  · rw [hk]
    simpa using hfree

end LineBasic.Statement
