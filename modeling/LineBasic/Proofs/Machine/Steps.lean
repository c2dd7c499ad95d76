import LineBasic.Machine.Step

/-! Step after step along a program: from statement to statement of a line, and at its end on to the
line with the next number. -/

namespace LineBasic

namespace Listing

theorem next?_eq_head? (p : Listing) (n : Nat) :
    p.next? n = (p.lines.dropWhile (·.number ≤ n)).head? := by
  rw [next?]
  induction p.lines with
  | nil => rfl
  | cons l lines ih =>
    by_cases hn : l.number ≤ n
    · rw [List.find?_cons_of_neg (by simpa using hn), List.dropWhile_cons_of_pos (by simpa using hn), ih]
    · rw [List.find?_cons_of_pos (by simpa using hn), List.dropWhile_cons_of_neg (by simpa using hn)]
      rfl

/-- The lines after the first of those that follow some line are those that follow it. -/
theorem dropWhile_le_of_cons {n : Nat} {l : ProgramLine} {rest : List ProgramLine} :
    ∀ {lines : List ProgramLine}, lines.Pairwise (·.number < ·.number) →
      lines.dropWhile (·.number ≤ n) = l :: rest → lines.dropWhile (·.number ≤ l.number) = rest := by
  intro lines hlines h
  induction lines with
  | nil => cases h
  | cons x xs ih =>
    obtain ⟨hx, hxs⟩ := List.pairwise_cons.mp hlines
    by_cases hn : x.number ≤ n
    · rw [List.dropWhile_cons_of_pos (by simpa using hn)] at h
      have hl : l ∈ xs := (List.dropWhile_sublist _).subset (h ▸ List.mem_cons_self)
      rw [List.dropWhile_cons_of_pos (by simpa using Nat.le_of_lt (hx l hl))]
      exact ih hxs h
    · rw [List.dropWhile_cons_of_neg (by simpa using hn)] at h
      cases h
      rw [List.dropWhile_cons_of_pos (by simp)]
      cases rest with
      | nil => rfl
      | cons y ys =>
        rw [List.dropWhile_cons_of_neg (by simpa using hx y List.mem_cons_self)]

end Listing

namespace Machine

/-- A run goes on with the next statement. -/
structure Ready (m : Machine) : Prop where
  running : m.running = true
  unbroken : m.breakRequested = false
  answered : m.inquiry = none

variable {m m' m'' : Machine}

/-- What a step keeps is kept by any number of steps. -/
theorem steps_induct {P : Machine → Prop} (h : ∀ m, P m → P m.step.2) (hm : P m) (n : Nat) :
    P (m.steps n).2 := by
  induction n generalizing m with
  | zero => exact hm
  | succ n ih =>
    have hstep := h m hm
    rw [steps]
    cases hs : m.step with
    | mk e s =>
      rw [hs] at hstep
      cases e with
      | running => exact ih hstep
      | _ => exact hstep

theorem Ready.step_eq (h : m.Ready) : m.step =
    match (match m.nextStatement with
      | (true, m) => Statement.dispatch (m.cursor.rest.length + 1) m
      | (false, m) => (.ok (.halted .finished), m)) with
    | (.ok .waiting, m) => (.waiting, m)
    | (.ok (.halted why), m) => m.halt why
    | (.ok _, m) => (.running, m)
    | (.error c, m) => m.raise c := by
  simp only [step, advance, h.running, h.unbroken, h.answered]
  rfl

theorem skipColons_of_ne (h : m.cursor.rest.head? ≠ some .colon) : m.skipColons = m := by
  have htake : m.cursor.rest.takeWhile (· == .colon) = [] := by
    cases hrest : m.cursor.rest with
    | nil => rfl
    | cons t rest => exact List.takeWhile_cons_of_neg (by simpa [hrest] using h)
  rw [skipColons, htake]
  rfl

theorem nextStatement_of_colon {passed rest : List Token} (h : m.cursor = ⟨passed, .colon :: rest⟩) :
    m.nextStatement = { m with cursor := ⟨.colon :: passed, rest⟩ : Machine }.nextStatement := by
  have hskip : m.skipColons = { m with cursor := ⟨.colon :: passed, rest⟩ : Machine }.skipColons := by
    simp [skipColons, h, Cursor.skip]
  rw [nextStatement, nextStatement, hskip]

theorem nextStatement_of_start {t : Token} (hhead : m.cursor.rest.head? = some t) (ht : t ≠ .colon) :
    m.nextStatement = (true, { m with statement := m.position }) := by
  have hskip : m.skipColons = m := skipColons_of_ne (by simpa [hhead] using ht)
  obtain ⟨rest, hrest⟩ := List.head?_eq_some_iff.mp hhead
  have hmark : m.markStatement = some { m with statement := m.position } := by
    simp [markStatement, Cursor.atEnd, hrest]
  rw [nextStatement, hskip, hmark]

theorem nextStatement_of_end {n : Nat} (hline : m.line = some n) (hend : m.cursor.rest = []) :
    m.nextStatement = m.seekStatement (m.program.lines.dropWhile (·.number ≤ n)) := by
  have hskip : m.skipColons = m := skipColons_of_ne (by simp [hend])
  have hmark : m.markStatement = none := by
    simp [markStatement, Cursor.atEnd, hend]
  rw [nextStatement, hskip, hmark, following, hline]

/-- At the end of a line the run goes on with the next one, as from its start. -/
theorem Ready.step_of_end (h : m.Ready) {n : Nat} (hline : m.line = some n)
    (hend : m.cursor.rest = []) : m.step =
      match m.program.next? n with
      | some l => (m.enterLine l).step
      | none => m.halt .finished := by
  rw [h.step_eq, nextStatement_of_end hline hend, Listing.next?_eq_head?]
  cases hlines : m.program.lines.dropWhile (·.number ≤ n) with
  | nil => rfl
  | cons l rest =>
    have henter : (m.enterLine l).Ready := ⟨h.running, h.unbroken, h.answered⟩
    have hrest : (m.enterLine l).skipColons.following = rest :=
      Listing.dropWhile_le_of_cons m.program.ascending hlines
    have hnext : m.seekStatement (l :: rest) = (m.enterLine l).nextStatement := by
      rw [nextStatement, hrest]
      rfl
    rw [hnext, List.head?_cons]
    exact henter.step_eq.symm

/-- A statement that is done with is one step. -/
theorem Ready.step_of_dispatch (h : m.Ready) (hnext : m.nextStatement = (true, m'))
    (hdone : Statement.dispatch (m'.cursor.rest.length + 1) m' = (.ok .done, m'')) :
    m.step = (.running, m'') := by
  rw [h.step_eq, hnext]
  show (match Statement.dispatch (m'.cursor.rest.length + 1) m' with
    | (.ok .waiting, m) => (.waiting, m)
    | (.ok (.halted why), m) => m.halt why
    | (.ok _, m) => (.running, m)
    | (.error c, m) => m.raise c : Event × Machine) = _
  rw [hdone]

/-- Steps that tell nothing lead from one state to another without leaving the line. -/
def Leads (m m' : Machine) : Prop :=
  ∃ k, m.steps k = (.running, m') ∧
    ∀ j ≤ k, (m.steps j).1 = .running ∧ (m.steps j).2.line = m.line

theorem Leads.refl (m : Machine) : m.Leads m := by
  refine ⟨0, rfl, fun j hj => ?_⟩
  obtain rfl : j = 0 := Nat.le_zero.mp hj
  exact ⟨rfl, rfl⟩

theorem steps_succ_of_running (h : m.step = (.running, m')) (k : Nat) :
    m.steps (k + 1) = m'.steps k := by
  rw [steps, h]

theorem Leads.step (h : m.step = (.running, m')) (hline : m'.line = m.line) (hleads : m'.Leads m'') :
    m.Leads m'' := by
  obtain ⟨k, hk, hall⟩ := hleads
  refine ⟨k + 1, (steps_succ_of_running h k).trans hk, fun j hj => ?_⟩
  cases j with
  | zero => exact ⟨rfl, rfl⟩
  | succ j =>
    rw [steps_succ_of_running h, ← hline]
    exact hall j (Nat.le_of_succ_le_succ hj)

end Machine

end LineBasic
