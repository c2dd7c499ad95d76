import LineBasic.Proofs.Machine.Background
import Mathlib.Logic.Function.Iterate

/-! A host that types lines and lets the machine run. Where such a session comes to rest depends on the
lines alone: not on when they were typed, nor on how the run was cut into portions. -/

namespace LineBasic

/-- What a host does while a program runs. -/
inductive Act where
  | type (s : String)
  | execute (n : Nat)
  deriving DecidableEq, Repr

def Act.line? : Act → Option String
  | type s => some s
  | execute _ => none

namespace Machine

/-- Do one act after the other: what was told, and the state in the end. -/
def perform : List Act → Machine → List Event × Machine
  | [], m => ([], m)
  | .type s :: rest, m => perform rest (m.type s)
  | .execute n :: rest, m =>
    let (e, m) := m.execute n
    let (es, m) := perform rest m
    (e :: es, m)

/-- No step makes progress: nothing runs, or an `INPUT` waits and nothing is typed. -/
def Settled (m : Machine) : Prop := m.running = false ∨ m.Starved

instance (m : Machine) : Decidable m.Settled := inferInstanceAs (Decidable (_ ∨ _))

open Statement

variable {m m' m'' : Machine}

/-! ## Steps without their events -/

def stepped (m : Machine) : Machine := m.step.2

theorem Settled.stepped (h : m.Settled) : m.stepped = m := by
  rcases h with hidle | hstarved
  · exact congrArg Prod.snd (step_of_idle hidle)
  · exact congrArg Prod.snd hstarved.step

theorem report_of_usual {registers : Bool} {r : Except Condition Flow × Machine}
    (h : Usual registers m r) : r.2.report = m.report :=
  h.keeps (·.report) Change.report fun _ _ => rfl

theorem report_advance (m : Machine) : m.advance.2.report = m.report := by
  have h := advanced m
  generalize m.advance = r at h ⊢
  cases h with
  | broken => rfl
  | @polled q => exact report_of_usual (m := { m with inquiry := none }) (pollInput_usual true q _)
  | finished _ _ hs => exact (sought_of_next hs).report
  | @executed s _ _ hs =>
    have hsought : s.report = m.report := (sought_of_next hs).report
    have houtcome := dispatch_outcome (s.cursor.rest.length + 1) s
    generalize dispatch (s.cursor.rest.length + 1) s = r at houtcome ⊢
    cases houtcome with
    | usual h => exact (report_of_usual h).trans hsought
    | deleted h | misread h | erased h => exact h.change.report.trans hsought

/-- No step refuses a line. -/
theorem report_stepped (m : Machine) : m.stepped.report = m.report := by
  cases hrunning : m.running with
  | false => rw [stepped, step_of_idle hrunning]
  | true =>
    rw [stepped, step_eq hrunning]
    exact (tell_keeps report (fun _ _ _ => rfl) (fun _ _ _ => rfl) (fun _ _ _ => rfl) m.advance).trans
      (report_advance m)

theorem report_iterate (m : Machine) (k : Nat) : (stepped^[k] m).report = m.report := by
  induction k generalizing m with
  | zero => rfl
  | succ k ih => exact (ih m.stepped).trans (report_stepped m)

theorem steps_eq (m : Machine) (n : Nat) : ∃ k, (m.steps n).2 = stepped^[k] m := by
  induction n generalizing m with
  | zero => exact ⟨0, rfl⟩
  | succ n ih =>
    rw [steps]
    split
    · rename_i s hs
      obtain ⟨k, hk⟩ := ih s
      refine ⟨k + 1, hk.trans ?_⟩
      rw [Function.iterate_succ_apply, stepped, hs]
    · exact ⟨1, rfl⟩

/-! ## Where two runs meet -/

/-- Some number of steps from `m` leads to where some number of steps from `m'` leads. -/
def Joins (m m' : Machine) : Prop := ∃ i j, stepped^[i] m = stepped^[j] m'

theorem Joins.refl (m : Machine) : m.Joins m := ⟨0, 0, rfl⟩

theorem Joins.symm (h : m.Joins m') : m'.Joins m := by
  obtain ⟨i, j, h⟩ := h
  exact ⟨j, i, h.symm⟩

theorem Joins.trans (h : m.Joins m') (h' : m'.Joins m'') : m.Joins m'' := by
  obtain ⟨i, j, h⟩ := h
  obtain ⟨k, l, h'⟩ := h'
  refine ⟨k + i, j + l, ?_⟩
  calc stepped^[k + i] m = stepped^[k] (stepped^[j] m') := by rw [Function.iterate_add_apply, h]
    _ = stepped^[j] (stepped^[k] m') := by
      rw [← Function.iterate_add_apply, Nat.add_comm, Function.iterate_add_apply]
    _ = stepped^[j + l] m'' := by rw [h', Function.iterate_add_apply]

theorem joins_iterate (m : Machine) (k : Nat) : m.Joins (stepped^[k] m) := ⟨k, 0, rfl⟩

theorem Joins.eq (h : m.Joins m') (hm : m.Settled) (hm' : m'.Settled) : m = m' := by
  obtain ⟨i, j, h⟩ := h
  rwa [Function.iterate_fixed hm.stepped, Function.iterate_fixed hm'.stepped] at h

/-! ## Typing -/

/-- One more line typed ahead. -/
def ahead (s : String) : Backdrop :=
  { Backdrop.own with input := (· ++ [s]), input_cons := fun _ _ => rfl }

/-- A line typed before a step or after it: the runs are the same then, or meet after one more step, if
the step before found nothing typed. -/
theorem joins_type_stepped (m : Machine) (s : String) : (m.type s).Joins (m.stepped.type s) := by
  have htype : ∀ m : Machine, m.type s = (ahead s).behind m := fun _ => rfl
  rw [htype, htype]
  rcases Backdrop.step_tells (b := ahead s) (m := m) (.inl ⟨rfl, rfl⟩) with ⟨k, hstep, hk⟩ | ⟨-, -, hlater⟩
  · have hk : k = m.stepped.continuation := hk (.inl rfl)
    subst hk
    exact ⟨1, 0, congrArg Prod.snd hstep⟩
  · exact ⟨1, 1, congrArg Prod.snd hlater⟩

theorem joins_type_iterate (m : Machine) (s : String) (k : Nat) :
    (m.type s).Joins ((stepped^[k] m).type s) := by
  induction k generalizing m with
  | zero => exact .refl _
  | succ k ih => exact (joins_type_stepped m s).trans (ih m.stepped)

theorem Joins.type (h : m.Joins m') (s : String) : (m.type s).Joins (m'.type s) := by
  obtain ⟨i, j, h⟩ := h
  have hmeet := joins_type_iterate m' s j
  rw [← h] at hmeet
  exact (joins_type_iterate m s i).trans hmeet.symm

theorem Joins.typeAll (h : m.Joins m') (lines : List String) :
    (lines.foldl Machine.type m).Joins (lines.foldl Machine.type m') := by
  induction lines generalizing m m' with
  | nil => exact h
  | cons s lines ih => exact ih (h.type s)

/-! ## Schedules -/

/-- A session leads where it would have led with all its lines typed at once. -/
theorem perform_joins (σ : List Act) (hm : m.report = none) :
    (perform σ m).2.Joins ((σ.filterMap Act.line?).foldl Machine.type m) := by
  induction σ generalizing m with
  | nil => exact .refl m
  | cons a σ ih =>
    cases a with
    | type s => exact ih (m := m.type s) hm
    | execute n =>
      have hexecute : m.execute n = m.steps n := by
        rw [execute, hm]
      obtain ⟨k, hk⟩ := steps_eq m n
      have hreport : (stepped^[k] m).report = none := (report_iterate m k).trans hm
      have hrest := ih hreport
      show (perform σ (m.execute n).2).2.Joins _
      rw [hexecute, hk]
      exact hrest.trans ((joins_iterate m k).typeAll _).symm

/-- Two sessions in which the same lines are typed, and which have come to rest, are in the same state,
with the same lines left and the same output. -/
theorem perform_eq_of_settled {σ τ : List Act} (hm : m.report = none)
    (hlines : σ.filterMap Act.line? = τ.filterMap Act.line?)
    (hσ : (perform σ m).2.Settled) (hτ : (perform τ m).2.Settled) :
    (perform σ m).2 = (perform τ m).2 := by
  have hτjoins := perform_joins τ hm
  rw [← hlines] at hτjoins
  exact ((perform_joins σ hm).trans hτjoins.symm).eq hσ hτ

/-- Two answers typed ahead, or each after the program has asked for it. -/
theorem perform_eq_of_settled_input : ∃ m σ τ,
    m = entered ["10 INPUT A$", "20 PRINT A$,", "30 GOTO 10", "RUN"] ∧
    σ = [.type "X", .type "Y", .execute 20] ∧
    τ = [.execute 2, .execute 7, .type "X", .execute 1, .execute 1, .type "Y", .execute 9] ∧
    m.report = none ∧ σ.filterMap Act.line? = τ.filterMap Act.line? ∧
    (perform σ m).2.Settled ∧ (perform τ m).2.Settled ∧ (perform σ m).2 = (perform τ m).2 := by
  have hm : (entered ["10 INPUT A$", "20 PRINT A$,", "30 GOTO 10", "RUN"]).report = none := by
    decide +kernel
  have hσ : (perform [.type "X", .type "Y", .execute 20]
      (entered ["10 INPUT A$", "20 PRINT A$,", "30 GOTO 10", "RUN"])).2.Settled := by
    decide +kernel
  have hτ : (perform [.execute 2, .execute 7, .type "X", .execute 1, .execute 1, .type "Y", .execute 9]
      (entered ["10 INPUT A$", "20 PRINT A$,", "30 GOTO 10", "RUN"])).2.Settled := by
    decide +kernel
  exact ⟨_, _, _, rfl, rfl, rfl, hm, rfl, hσ, hτ, perform_eq_of_settled hm rfl hσ hτ⟩

end Machine

end LineBasic
