import LineBasic.Proofs.Statement.Actions

/-! Each statement changes the machine in the ways of `Change`, does so before any background, and jumps
only when nothing can fail any more. Apart from that are `DELETE` and `NEW`, which edit the program, and
`INPUT`, which reads what is typed. -/

namespace LineBasic

namespace Statement

open Machine (Change)

/-- Where a statement leaves the machine. Only a jump leaves the line. -/
def Reached (registers : Bool) (m₀ : Machine) (flow : Flow) (m : Machine) : Prop :=
  Change (flow == .moved) registers m₀ m

/-- The same of a statement that does not start another one. -/
def Landed (registers : Bool) (m₀ : Machine) (flow : Flow) (m : Machine) : Prop :=
  flow ≠ .again ∧ Reached registers m₀ flow m

/-- A part of a statement that stays on the line. -/
abbrev Stays {α : Type} (b : Backdrop) (registers : Bool) (m₀ : Machine) (x : Exec α) : Prop :=
  Steady b.behind (Change false registers m₀) x

/-- A statement that stays on the line until it may jump at last. -/
abbrev Lands (b : Backdrop) (registers : Bool) (m₀ : Machine) (x : Exec Flow) : Prop :=
  Commutes b.behind (Change false registers m₀) x (Landed registers m₀) (Change false registers m₀)

variable {b : Backdrop} {registers : Bool} {m₀ : Machine} {α : Type}

/-! ## On the line -/

theorem scans {jumps : Bool} : Action.scan.Keeps (Change jumps registers m₀) := by
  rintro _ _ ⟨hw⟩ hm
  exact .workspace hm hw

theorem tapes {jumps : Bool} : Action.tape.Keeps (Change jumps registers m₀) := by
  rintro _ _ ⟨t⟩ hm
  exact .tables _ _ _ hm

theorem takes {jumps : Bool} : Action.take.Keeps (Change jumps registers m₀) := by
  rintro _ _ ⟨⟩ hm
  exact .tables _ _ _ hm

theorem holds_of_target {c : Cell} {m m' : Machine} (h : Exec.target m = (.ok c, m')) :
    m'.store.Holds c := by
  cases hw : Expression.target m.context m.toWorkspace with
  | mk r w =>
    have hrun : Exec.target m = (r, { m with toWorkspace := w }) := Extends.liftM_apply hw
    rw [hrun] at h
    cases h
    exact Forward.holds_of_target hw

/-! ## Statements that stay -/

namespace Lands

open Acts (context refuseDirect onWorkspace expression number short target assign write)

theorem done : Lands b registers m₀ (pure .done) := Commutes.pure fun _ hm => ⟨nofun, hm⟩

theorem halted (why : Halt) : Lands b registers m₀ (pure (.halted why)) :=
  Commutes.pure fun _ hm => ⟨nofun, hm⟩

theorem assignment : Lands b registers m₀ assignment :=
  (target scans).before fun c => (onWorkspace scans (Forward.expect _)).before fun _ =>
    (expression scans).before fun v => (assign scans c v).before fun _ => done

theorem dim : Lands b registers m₀ dim :=
  context.before fun ctx => (onWorkspace scans (Forward.list (Forward.dimOne ctx))).before fun _ => done

theorem define : Lands b registers m₀ define := by
  refine refuseDirect.before fun _ => (onWorkspace scans (Forward.expect _)).before fun _ => ?_
  refine (onWorkspace scans Forward.name).before fun name => (onWorkspace scans (Forward.expect _)).before fun _ => ?_
  refine (onWorkspace scans (Forward.list Forward.name)).before fun params => ?_
  refine (onWorkspace scans (Forward.expect _)).before fun _ => ?_
  refine (onWorkspace scans (Forward.expect _)).before fun _ => ?_
  refine (onWorkspace scans Forward.functionBody).before fun body => (Steady.lift _).before fun _ => ?_
  refine Steady.before (.modify (fun _ => ?_) fun _ hm => ?_) fun _ => done
  · rfl
  · exact .tables _ _ _ hm

theorem read : Lands b registers m₀ read :=
  (onWorkspace scans Forward.tokensLeft).before fun n =>
    (Steady.separated (onWorkspace scans (Forward.accept _)) (Acts.readOne scans takes) n).before fun _ => done

theorem restore : Lands b registers m₀ restore := by
  refine (onWorkspace scans Forward.lineNumber?).before fun found => ?_
  have hset : ∀ p, Stays b registers m₀ (modify ({ · with data := p }) : Exec Unit) := fun p =>
    .modify (fun _ => rfl) fun _ hm => .tables _ _ _ hm
  cases found with
  | none => exact (hset none).before fun _ => done
  | some n =>
    intro m hm
    exact .get (.lift rfl hm fun _ _ => (hset _).before (fun _ => done) m hm)

theorem print : Lands b registers m₀ print :=
  (onWorkspace scans Forward.tokensLeft).before fun n => (Acts.printItems tapes scans n true).before fun _ =>
    (write tapes _).before fun _ => done

theorem list : Lands b registers m₀ list :=
  (onWorkspace scans Forward.lineRange).before fun _ m hm => .get ((write tapes _).before (fun _ => done) m hm)

theorem skipLine : Lands b registers m₀ skipLine := (onWorkspace scans Forward.skipLine).before fun _ => done

theorem skipStatement : Lands b registers m₀ skipStatement :=
  (onWorkspace scans Forward.skipStatement).before fun _ => done

theorem error : Lands b registers m₀ error := by
  refine (short scans).before fun n => ?_
  cases n with
  | ofNat n => exact .throw _ fun _ hm => hm
  | negSucc n => exact .throw _ fun _ hm => hm

/-- What follows the variable of a loop. Nothing in it clears the variable. -/
theorem openFor {c : Cell} (hc : m₀.store.Holds c) (htype : c.isString = false) (hscalar : c.indexes = []) :
    Lands b false m₀ (do
      Eval.expect (.operator .equal)
      let start ← Exec.number
      Exec.assign c (.number start)
      Eval.expect (.word .TO)
      let limit ← Exec.number
      let step ← stepClause
      Eval.endStatement
      let m ← get
      let stack ← openLoop m.stack ⟨c.name, limit, step, m.position⟩
      set { m with stack }
      return .done) := by
  refine (onWorkspace scans (Forward.expect _)).before fun _ => (number scans).before fun start => ?_
  refine (assign scans c _).before fun _ => (onWorkspace scans (Forward.expect _)).before fun _ => ?_
  refine (number scans).before fun limit => (Acts.stepClause scans).before fun step => ?_
  refine (onWorkspace scans Forward.endStatement).before fun _ m hm => ?_
  have hvar : m.store.Holds ⟨c.name, []⟩ := by
    rw [← hscalar]
    exact hm.develops.persists.holds hc
  refine .get (.lift rfl hm fun stack hstack => .set rfl (done _ ?_))
  exact .loop (l := ⟨c.name, limit, step, m.position⟩) hm rfl htype hvar hstack

theorem forLoop : Lands b registers m₀ forLoop := by
  refine ((target scans).result fun _ _ _ => holds_of_target).bind fun c m hm => ?_
  obtain ⟨hm, hc⟩ := hm
  refine .lift rfl hm fun _ htype => .lift rfl hm fun _ hscalar => ?_
  have htype : c.isString = false := by simpa using require_eq_ok htype
  have hscalar : c.indexes = [] := by simpa using require_eq_ok hscalar
  have htrans : ∀ {jumps m'}, Change jumps false m m' → Change jumps registers m₀ m' := fun h =>
    (hm.mono nofun id).trans (h.mono id nofun)
  exact (openFor hc htype hscalar m .refl).mono (fun _ _ h => ⟨h.1, htrans h.2⟩) fun _ h => htrans h

theorem clearing (hr : registers = true) : Stays b registers m₀ (modify Machine.clear : Exec Unit) :=
  .modify (fun _ => b.clear_behind) fun _ hm => .clear hr hm

theorem clear (hr : registers = true) : Lands b registers m₀ clear := (clearing hr).before fun _ => done

/-! ## Statements that jump -/

section

variable (hb : b.Spares m₀)

include hb

theorem jump {p : Position} (hp : m₀.Deferred → p.line.isSome) :
    Commutes b.behind (Change false registers m₀) (Exec.jump p) (fun _ => Change true registers m₀)
      (Change false registers m₀) := by
  intro m hm
  refine .get (.lift (Backdrop.tokensOf_behind hb hp) hm fun tokens ht => ?_)
  exact ⟨rfl, .jump rfl (hm.mono nofun id) ht hp⟩

theorem transfer (n : Nat) : Lands b registers m₀ (transfer n) :=
  (jump hb fun _ => rfl).bind fun _ => .pure fun _ hm => ⟨nofun, hm⟩

theorem goto : Lands b registers m₀ goto := (onWorkspace scans Forward.lineNumber).before fun n => transfer hb n

theorem call (n : Nat) : Lands b registers m₀ (call n) := by
  intro m hm
  refine .get (.lift rfl hm fun _ _ => .lift rfl hm fun stack hstack => ?_)
  exact .set rfl (transfer hb n _ (.call hm hstack))

theorem gosub : Lands b registers m₀ gosub :=
  (onWorkspace scans Forward.lineNumber).before fun n =>
    (onWorkspace scans Forward.endStatement).before fun _ => call hb n

theorem ret : Lands b registers m₀ ret := by
  intro m hm
  refine .get ?_
  simp only [Backdrop.stack_behind]
  have hthrow : Lands b registers m₀ (throw (.of .returnWithoutGosub)) := .throw _ fun _ hm => hm
  cases htop : m.stack.top? with
  | none => exact hthrow m hm
  | some f =>
    cases f with
    | loop l => exact hthrow m hm
    | call p =>
      have hp : m₀.Deferred → p.line.isSome := fun hdeferred =>
        (hm.deferred hdeferred).frames (.call p) (List.mem_of_head? htop)
      refine .set rfl ((jump hb hp).bind (fun _ => .pure fun _ hm => ⟨nofun, hm⟩) _ ?_)
      exact .close hm (List.tail_suffix _)

theorem select : Lands b registers m₀ select := by
  refine (short scans).before fun n => (Steady.lift _).before fun _ => ?_
  refine (onWorkspace scans Forward.transferWord).before fun calls => ?_
  refine (onWorkspace scans (Forward.list Forward.lineNumber)).before fun targets => ?_
  refine (onWorkspace scans Forward.endStatement).before fun _ => ?_
  split
  · split
    · exact call hb _
    · exact transfer hb _
  · exact done

theorem stepLoop {m : Machine} {l : Loop} {below : List Frame} (hm : Change false registers m₀ m)
    (hl : Frame.loop l :: below <:+ m.stack.items) :
    CommutesAt b.behind m (stepLoop l below) (stepLoop l below)
      (fun moved => Change moved registers m₀) (Change false registers m₀) := by
  have hbody : m₀.Deferred → l.body.line.isSome := fun hdeferred =>
    (hm.deferred hdeferred).frames (.loop l) (hl.subset List.mem_cons_self)
  have hset : CommutesAt b.behind m (setFrames (.loop l :: below)) (setFrames (.loop l :: below))
      (fun _ m => Change false registers m₀ m ∧ m.stack.items = .loop l :: below)
      (Change false registers m₀) := ⟨rfl, .close hm hl, rfl⟩
  have hassign : ∀ c v, Commutes b.behind
      (fun m => Change false registers m₀ m ∧ m.stack.items = .loop l :: below) (Exec.assign c v)
      (fun _ m => Change false registers m₀ m ∧ m.stack.items = .loop l :: below)
      (Change false registers m₀) := by
    refine fun c v m hm => (Acts.onWorkspace_at (Forward.set c v) m).mono ?_ ?_
    · rintro - s ⟨w, hw, rfl⟩
      exact ⟨.workspace hm.1 hw, hm.2⟩
    · rintro s ⟨w, hw, rfl⟩
      exact .workspace hm.1 hw
  refine hset.bind fun _ m hm => .get (.lift rfl hm.1 fun x _ => .lift rfl hm.1 fun _ _ => ?_)
  refine (hassign _ _ m hm).bind fun _ m hm => ?_
  split
  · exact (jump hb hbody m hm.1).bind fun _ _ hm => ⟨rfl, hm⟩
  · refine ⟨rfl, Change.close hm.1 ?_⟩
    rw [hm.2]
    exact List.suffix_cons _ _

theorem stepLoops (n : Nat) : Lands b registers m₀ (stepLoops n) := by
  induction n with
  | zero => exact done
  | succ n ih =>
    refine (onWorkspace scans Forward.name?).before fun var m hm => .get ?_
    simp only [Backdrop.stack_behind]
    cases hfind : findLoop? var m.stack.items with
    | none => exact Commutes.throw _ (fun _ hm => hm) m hm
    | some found =>
      obtain ⟨l, below⟩ := found
      refine (stepLoop hb hm (findLoop?_suffix hfind)).bind fun moved m hm => ?_
      cases moved with
      | true => exact ⟨rfl, nofun, hm⟩
      | false =>
        cases var.isNone with
        | true => exact done m hm
        | false =>
          refine (onWorkspace scans (Forward.accept _)).before (fun more => ?_) m hm
          cases more with
          | true => exact ih
          | false => exact done

theorem next : Lands b registers m₀ next :=
  (onWorkspace scans Forward.tokensLeft).before fun n => stepLoops hb (n + 1)

omit hb in
theorem stay (flow : Flow) (h : flow ≠ .moved) : Commutes b.behind (Change false registers m₀)
    (pure flow) (Reached registers m₀) (Change false registers m₀) := by
  refine .pure fun m hm => ?_
  rw [Reached, beq_false_of_ne h]
  exact hm

theorem branch : Commutes b.behind (Change false registers m₀) branch (Reached registers m₀)
    (Change false registers m₀) := by
  refine (onWorkspace scans Forward.lineNumber?).before fun found => ?_
  cases found with
  | some n => exact (transfer hb n).mono (fun _ hm => hm) (fun _ _ hm => hm.2) fun _ hm => hm
  | none => exact stay .again nofun

theorem otherwise : Commutes b.behind (Change false registers m₀) otherwise (Reached registers m₀)
    (Change false registers m₀) := by
  intro m hm
  refine .get ?_
  simp only [Backdrop.cursor_behind]
  cases helse : m.cursor.findElse? with
  | some n =>
    obtain ⟨k, hseek⟩ := Cursor.seek_of_findElse? helse
    have hskip : Change false registers m₀ { m with cursor := m.cursor.seek n } := by
      rw [hseek]
      exact .workspace hm (.skip m.toWorkspace k)
    refine .modify ?_ (branch hb _ hskip)
    rfl
  | none => exact (onWorkspace scans Forward.skipLine).before (fun _ => stay .done nofun) m hm

theorem conditional : Commutes b.behind (Change false registers m₀) conditional (Reached registers m₀)
    (Change false registers m₀) := by
  refine (expression scans).before fun v => (Steady.lift _).before fun holds => ?_
  refine (onWorkspace scans Forward.next?).before fun t => ?_
  split
  · cases holds with
    | true => exact branch hb
    | false => exact otherwise hb
  · cases holds with
    | true => exact (goto hb).mono (fun _ hm => hm) (fun _ _ hm => hm.2) fun _ hm => hm
    | false => exact otherwise hb
  · exact .throw _ fun _ hm => hm

/-! ## Statements on the registers -/

theorem run (hr : registers = true) : Lands b registers m₀ run := by
  refine (onWorkspace scans Forward.lineNumber?).before fun start => ?_
  refine (onWorkspace scans Forward.endStatement).before fun _ => ?_
  refine (clearing hr).before fun _ m hm => .get ?_
  simp only [Backdrop.program_behind]
  split
  · exact transfer hb _ m hm
  · exact (onWorkspace scans Forward.skipLine).before (fun _ => halted _) m hm

theorem cont (hr : registers = true) : Lands b registers m₀ cont := by
  intro m hm
  refine .get (.lift rfl hm fun _ hdirect => .get ?_)
  have hnone : m.line = none := Option.isNone_iff_eq_none.mp (require_eq_ok hdirect)
  have hfirst : ¬ m₀.Deferred := by
    intro hdeferred
    have hsome := (hm.deferred hdeferred).line
    rw [hnone] at hsome
    cases hsome
  have hspare : (b.behind m).continuation = m.continuation := by
    rcases hb with ⟨-, hid⟩ | hdeferred
    · exact congrFun hid _
    · exact absurd hdeferred hfirst
  simp only [hspare]
  cases m.continuation with
  | none => exact Commutes.throw _ (fun _ hm => hm) m hm
  | some c =>
    refine .modify ?_ ((jump hb fun hdeferred => absurd hdeferred hfirst).bind (fun _ => ?_) _
      (.forget hr hm))
    · simp [Backdrop.behind, b.continuation_none]
    · refine Commutes.bind (Q := fun _ => Change true registers m₀) (.modify ?_ ?_) fun _ => ?_
      · exact fun _ _ => rfl
      · exact fun _ hm => .trap _ c.handling hr hm
      · refine .pure fun _ hm => ⟨fun hagain => ?_, hm⟩
        cases hagain

theorem goOn {f : Failure} (hf : m₀.Deferred → f.statement.line.isSome) (r : Resumption) :
    Commutes b.behind (Change false registers m₀) (goOn f r) (fun _ => Change true registers m₀)
      (Change false registers m₀) := by
  cases r with
  | line n => exact jump hb fun _ => rfl
  | again => exact jump hb hf
  | next =>
    refine (jump hb hf).bind fun _ m hm => ?_
    obtain ⟨_, n, hn⟩ := Moves.skipFailed m.toWorkspace
    have hrun := Extends.liftM_apply (m := m) hn
    have hbehind := Extends.liftM_apply (m := b.behind m) hn
    refine ⟨by rw [hrun, hbehind]; rfl, ?_⟩
    rw [hrun]
    exact .workspace hm (.skip m.toWorkspace n)

theorem resume (hr : registers = true) : Lands b registers m₀ resume := by
  intro m hm
  refine .get (.lift rfl hm fun _ _ => ?_)
  simp only [Backdrop.failure_behind]
  cases hfailure : m.failure with
  | none => exact Commutes.throw _ (fun _ hm => hm) m hm
  | some f =>
    refine (onWorkspace scans Forward.resumption).before (fun r => ?_) m hm
    refine (onWorkspace scans Forward.endStatement).before fun _ => ?_
    refine Steady.before (.modify (fun _ => ?_) fun _ hm => ?_) fun _ => ?_
    · rfl
    · exact .trap _ false hr hm
    · refine (goOn hb (fun hdeferred => ?_) r).bind fun _ => .pure fun _ hm => ⟨nofun, hm⟩
      exact (hm.deferred hdeferred).failure f hfailure

omit hb in
theorem onError (hr : registers = true) : Lands b registers m₀ onError := by
  refine (onWorkspace scans (Forward.expect _)).before fun _ => ?_
  refine (onWorkspace scans Forward.lineNumber).before fun n m hm => .get ?_
  simp only [Backdrop.failure_behind, Backdrop.handling_behind]
  split
  · split
    · exact .set rfl (Commutes.throw _ (fun _ hm => hm) _ (.trap none false hr hm))
    · exact .set rfl (done _ (.trap none m.handling hr hm))
  · exact .set rfl (done _ (.trap _ m.handling hr hm))

theorem on (hr : registers = true) : Lands b registers m₀ on := by
  refine (onWorkspace scans (Forward.accept _)).before fun found => ?_
  cases found with
  | true => exact onError hr
  | false => exact select hb

end

end Lands

end Statement

end LineBasic
