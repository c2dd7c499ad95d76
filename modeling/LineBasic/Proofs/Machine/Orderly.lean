import LineBasic.Proofs.Machine.Reachable

/-! What every session keeps in order, also where a program is loaded while one runs: the store is
well-formed, the stack is no higher than it may be, the variable of each loop on it is there, and what
points into the direct line points at one of its tokens or behind the last. -/

namespace LineBasic.Machine

open Statement

structure Orderly (m : Machine) : Prop where
  store : m.store.WellFormed
  height : m.stack.size ≤ Stack.maxSize
  distinct : DistinctLoops m.stack.items
  loops : ∀ l, Frame.loop l ∈ m.stack.items →
    isStringName l.var = false ∧ m.store.Holds ⟨l.var, []⟩
  frames : ∀ f ∈ m.stack.items, f.position.line = none → f.position.token ≤ m.direct.length
  direct : m.running = true → m.line = none → m.cursor.tokens = m.direct

namespace Orderly

variable {m m' : Machine}

/-- Nothing but the store, the stack and the direct line has to be in order. -/
theorem of_same (hm : m.Orderly) (hstore : m'.store = m.store) (hstack : m'.stack = m.stack)
    (hline : m'.direct = m.direct)
    (hdirect : m'.running = true → m'.line = none → m'.cursor.tokens = m'.direct) : m'.Orderly where
  store := hstore ▸ hm.store
  height := hstack ▸ hm.height
  distinct := hstack ▸ hm.distinct
  loops := by
    rw [hstack, hstore]
    exact hm.loops
  frames := by
    rw [hstack, hline]
    exact hm.frames
  direct := hdirect

theorem of_clear (hstore : m.store = {}) (hstack : m.stack.items = [])
    (hdirect : m.running = true → m.line = none → m.cursor.tokens = m.direct) : m.Orderly where
  store := hstore ▸ Store.wellFormed_empty
  height := by
    rw [Stack.size, hstack]
    exact Nat.zero_le _
  distinct := by
    intro above between below l l' hframes
    rw [hstack] at hframes
    cases above <;> cases hframes
  loops := by
    rw [hstack]
    exact nofun
  frames := by
    rw [hstack]
    exact nofun
  direct := hdirect

theorem workspace (hm : m.Orderly) {w : Workspace} (hw : Past m.toWorkspace w) :
    Orderly { m with toWorkspace := w } where
  store := hw.store.wellFormed hm.store
  height := hm.height
  distinct := hm.distinct
  loops l hl := ⟨(hm.loops l hl).1, hw.store.persists.holds (hm.loops l hl).2⟩
  frames := hm.frames
  direct hrunning hline := hw.tokens.trans (hm.direct hrunning hline)

theorem close (hm : m.Orderly) {frames : List Frame} (hs : frames <:+ m.stack.items) :
    Orderly { m with stack := { m.stack with items := frames } } where
  store := hm.store
  height := Nat.le_trans hs.length_le hm.height
  distinct := hm.distinct.suffix hs
  loops l hl := hm.loops l (hs.subset hl)
  frames f hf := hm.frames f (hs.subset hf)
  direct := hm.direct

/-- A place in the direct line that is executed is not beyond its end. -/
theorem position_le (hm : m.Orderly) (hrunning : m.running = true) (hline : m.position.line = none) :
    m.position.token ≤ m.direct.length := by
  rw [← hm.direct hrunning hline]
  exact m.cursor.pos_le

theorem openLoop (hm : m.Orderly) (hrunning : m.running = true) {l : Loop} {stack : Stack Frame}
    (hbody : l.body = m.position) (hvar : isStringName l.var = false) (hc : m.store.Holds ⟨l.var, []⟩)
    (hs : Statement.openLoop m.stack l = .ok stack) : Orderly { m with stack } := by
  obtain ⟨below, hitems, hbelow⟩ := openLoop_items hs
  refine ⟨hm.store, Stack.size_push hs, openLoop_distinct hs hm.distinct, fun l' hl' => ?_,
    fun f hf hline => ?_, hm.direct⟩
  · rw [hitems] at hl'
    rcases List.mem_cons.mp hl' with heq | hl'
    · cases heq
      exact ⟨hvar, hc⟩
    · exact hm.loops l' (hbelow.subset hl')
  · rw [hitems] at hf
    rcases List.mem_cons.mp hf with rfl | hf
    · rw [Frame.position, hbody] at hline ⊢
      exact hm.position_le hrunning hline
    · exact hm.frames f (hbelow.subset hf) hline

theorem pushCall (hm : m.Orderly) (hrunning : m.running = true) {stack : Stack Frame}
    (hs : m.stack.push (.call m.position) = .ok stack) : Orderly { m with stack } := by
  have hitems := Stack.items_push hs
  refine ⟨hm.store, Stack.size_push hs, ?_, fun l hl => ?_, fun f hf hline => ?_, hm.direct⟩
  · show DistinctLoops stack.items
    rw [hitems]
    exact hm.distinct.call _
  · rw [hitems] at hl
    rcases List.mem_cons.mp hl with heq | hl
    · cases heq
    · exact hm.loops l hl
  · rw [hitems] at hf
    rcases List.mem_cons.mp hf with rfl | hf
    · exact hm.position_le hrunning hline
    · exact hm.frames f hf hline

/-! ## A step -/

/-- Whatever a statement does leaves things in order. -/
theorem change (hm : m.Orderly) (hrunning : m.running = true) {jumps registers : Bool}
    (h : Change jumps registers m m') : m'.Orderly := by
  induction h with
  | refl => exact hm
  | workspace _ hw ih => exact ih.workspace hw
  | tables _ _ _ _ ih | trap _ _ _ _ ih | forget _ _ ih => exact ih.of_same rfl rfl rfl ih.direct
  | loop h hbody hvar hc hs ih => exact ih.openLoop (h.running.trans hrunning) hbody hvar hc hs
  | call h hs ih => exact ih.pushCall (h.running.trans hrunning) hs
  | close _ hs ih => exact ih.close hs
  | @jump m p tokens _ _ ht _ ih =>
    refine ih.of_same rfl rfl rfl fun _ hline => ?_
    have hline : p.line = none := hline
    rw [hline] at ht
    cases ht
    exact Cursor.tokens_atToken m.direct p.token
  | clear _ _ ih => exact of_clear rfl rfl ih.direct

theorem sought (hm : m.Orderly) (h : m.Sought m') : m'.Orderly := by
  have hwalks := h.walks
  have hnone := h.direct
  rw [h.eq] at hwalks hnone ⊢
  refine hm.of_same rfl rfl rfl fun hrunning hline => ?_
  have hline' : m.line = none := by
    rw [hline] at hnone
    exact Option.isNone_iff_eq_none.mp hnone.symm
  have hm' : m.Walks := by
    rw [Walks, hline']
    exact congrArg Except.ok (hm.direct hrunning hline').symm
  have hafter := hwalks hm'
  rw [Walks, hline] at hafter
  exact (Except.ok.inj hafter).symm

theorem stop (hm : m.Orderly) (k : Option Continuation) (t : Tape) :
    Orderly { m.stop with continuation := k, tape := t } :=
  hm.of_same rfl rfl rfl nofun

theorem halt (hm : m.Orderly) (why : Halt) : (m.halt why).2.Orderly := by
  obtain ⟨k, t, h⟩ := halt_eq m why
  rw [h]
  exact hm.stop k t

theorem fail (hm : m.Orderly) (c : Condition) : (m.fail c).2.Orderly := by
  obtain ⟨k, t, h⟩ := fail_eq m c
  rw [h]
  exact hm.stop k t

theorem serving (hm : m.Orderly) (c : Condition) (t : Trap) : (m.serving c t).Orderly :=
  (hm.close (List.drop_suffix _ _)).of_same rfl rfl rfl hm.direct

theorem raise (hm : m.Orderly) (c : Condition) : (m.raise c).2.Orderly := by
  have h := raised m c
  generalize m.raise c = r at h ⊢
  cases h with
  | uncaught => exact hm.fail _
  | handled => exact (hm.serving _ _).of_same rfl rfl rfl nofun
  | astray => exact (hm.serving _ _).fail _

theorem tell {r : Except Condition Flow × Machine} (hr : r.2.Orderly) : (tell r).2.Orderly := by
  obtain ⟨c | flow, m⟩ := r
  · exact hr.raise c
  · cases flow with
    | halted why => exact hr.halt why
    | done | again | moved | waiting => exact hr

theorem usual (hm : m.Orderly) (hrunning : m.running = true) {registers : Bool}
    {r : Except Condition Flow × Machine} (h : Usual registers m r) : r.2.Orderly := by
  cases h with
  | reached h => exact hm.change hrunning h
  | failed h => exact hm.change hrunning h
  | waits h =>
    have hd := hm.change hrunning h
    exact hd.of_same rfl rfl rfl hd.direct

theorem deleted (hm : m.Orderly) {r : Nat × Nat} {w : Workspace}
    (hr : lineRange m.toWorkspace = (.ok r, w)) : (deleted m r w).Orderly := by
  have hpast := Forward.lineRange.snd (Past.refl m.toWorkspace)
  rw [hr] at hpast
  have hw := hm.workspace hpast
  exact hw.of_same rfl rfl rfl hw.direct

theorem outcome (hm : m.Orderly) (hrunning : m.running = true) {r : Except Condition Flow × Machine}
    (h : Outcome m r) : (Machine.tell r).2.Orderly := by
  cases h with
  | usual h => exact (hm.usual hrunning h).tell
  | @deleted d r w h _ hr | @misread d r w h _ _ hr =>
    exact Orderly.tell (r := (_, _)) ((hm.change hrunning h.change.pastWord).deleted hr)
  | @erased d =>
    obtain ⟨k, t, hhalt⟩ := halt_eq (erased d.pastWord) .finished
    show ((erased d.pastWord).halt .finished).2.Orderly
    rw [hhalt]
    exact of_clear rfl rfl nofun

theorem takeBreak (hm : m.Orderly) : m.takeBreak.Orderly := by
  refine hm.of_same rfl rfl rfl fun hrunning hline => ?_
  show (if m.inquiry.isSome then m.cursor.seek m.statement.token else m.cursor).tokens = m.direct
  split
  · rw [Cursor.seek, Cursor.tokens_atToken]
    exact hm.direct hrunning hline
  · exact hm.direct hrunning hline

theorem step (hm : m.Orderly) : m.step.2.Orderly := by
  cases hrunning : m.running with
  | false =>
    rw [step_of_idle hrunning]
    exact hm
  | true =>
    rw [step_eq hrunning]
    have hadvance := advanced m
    generalize m.advance = r at hadvance ⊢
    cases hadvance with
    | broken => exact hm.takeBreak.halt _
    | @polled q =>
      have hm' : Orderly { m with inquiry := none } := hm.of_same rfl rfl rfl hm.direct
      exact (hm'.usual hrunning (pollInput_usual true q _)).tell
    | finished _ _ hs => exact (hm.sought (sought_of_next hs)).halt _
    | @executed s _ _ hs =>
      have hsought := sought_of_next hs
      have hs : s.running = true := by
        rw [hsought.eq]
        exact hrunning
      exact (hm.sought hsought).outcome hs (dispatch_outcome _ _)

/-! ## Calls -/

theorem enter (hm : m.Orderly) (s : String) : (m.enter s).2.Orderly := by
  have htaken := taken m s
  generalize m.enter s = r at htaken ⊢
  cases htaken with
  | refused | stored => exact hm.of_same rfl rfl rfl hm.direct
  | blank => exact hm
  | started tokens _ hframes hsome =>
    -- a new direct line finds no frame that points into the last one
    have hclosed := hm.close hframes
    refine ⟨hclosed.store, hclosed.height, hclosed.distinct, hclosed.loops, fun f hf hline => ?_, fun _ _ => rfl⟩
    have hf := hsome f hf
    rw [hline] at hf
    cases hf

theorem load (hm : m.Orderly) (s : String) : (m.load s).2.Orderly := by
  rw [Machine.load]
  split
  · exact hm
  · exact of_clear rfl rfl hm.direct

theorem onWorkspace (hm : m.Orderly) {α : Type} {x : Eval α} (hx : ∀ {w}, Steady id (Past w) x) :
    (Exec.onWorkspace x m).2.Orderly :=
  hm.workspace (hx.snd (Past.refl m.toWorkspace))

theorem call (hm : m.Orderly) (c : Call) : (m.call c).Orderly := by
  cases c with
  | enter s => exact hm.enter s
  | load s => exact hm.load s
  | type s => exact hm.of_same rfl rfl rfl hm.direct
  | interrupt =>
    rw [Machine.call, interrupt]
    split
    · exact hm.of_same rfl rfl rfl hm.direct
    · exact hm
  | execute n =>
    rw [Machine.call, execute]
    split
    · exact hm.of_same rfl rfl rfl hm.direct
    · exact steps_induct (fun _ => step) hm n
  | step => exact hm.step
  | takeOutput => exact hm.of_same rfl rfl rfl hm.direct
  | expression => exact hm.onWorkspace (x := Expression.evaluate m.context) (Forward.evaluate m.context)
  | target => exact hm.onWorkspace (Forward.target m.context)
  | lineNumber => exact hm.onWorkspace Forward.lineNumber?

end Orderly

variable {m : Machine} {allowed : Machine → Call → Prop}

theorem Reachable.orderly (h : Reachable allowed m) : m.Orderly := by
  induction h with
  | fresh => exact .of_clear rfl rfl nofun
  | call _ c _ ih => exact ih.call c

/-- In every session at most 65535 names are bound. What a scalar or a cell of an array holds fits its
name, a string of at most 255 characters or a number; and an array has one cell for every choice of
subscripts within its bounds, at most 2 ^ 20 of them. -/
theorem store_of_reachable (h : Reachable allowed m) :
    m.store.bindings.size ≤ 65535 ∧
    (∀ x v, m.store.binding? x = some (.scalar v) → v.Fits x) ∧
    ∀ x bounds cells, m.store.binding? x = some (.array bounds cells) →
      cells.size = (bounds.map (· + 1)).prod ∧ cells.size ≤ 2 ^ 20 ∧ ∀ v ∈ cells, v.Fits x := by
  have hstore := h.orderly.store
  refine ⟨hstore.names, fun x v hx => ?_, fun x bounds cells hx => ?_⟩
  · cases hstore.fits x _ hx with
    | scalar hv => exact hv
  · cases hstore.fits x _ hx with
    | array _ hsize hlimit hcells => exact ⟨hsize, hlimit, hcells⟩

/-- A function that is called with a string, while an array of strings and a scalar are there. -/
theorem store_of_reachable_function : ∃ m : Machine,
    m = ((entered ["10 DIM A$(2,3):A$(1,2)=\"X\"", "20 DEF FNL(A$)=LEN(A$)+B", "30 C=FNL(A$(1,2))",
      "RUN"]).execute 5).2 ∧
    m.store.bindings.size = 3 ∧ (m.store.binding? "A$").isSome ∧ (m.store.binding? "C").isSome ∧
    Reachable LoadsIdle m ∧
    m.store.bindings.size ≤ 65535 ∧
    (∀ x v, m.store.binding? x = some (.scalar v) → v.Fits x) ∧
    ∀ x bounds cells, m.store.binding? x = some (.array bounds cells) →
      cells.size = (bounds.map (· + 1)).prod ∧ cells.size ≤ 2 ^ 20 ∧ ∀ v ∈ cells, v.Fits x := by
  have hstate : ∃ m : Machine,
      m = ((entered ["10 DIM A$(2,3):A$(1,2)=\"X\"", "20 DEF FNL(A$)=LEN(A$)+B", "30 C=FNL(A$(1,2))",
        "RUN"]).execute 5).2 ∧
      m.store.bindings.size = 3 ∧ (m.store.binding? "A$").isSome ∧ (m.store.binding? "C").isSome :=
    ⟨_, rfl, by decide +kernel⟩
  obtain ⟨m, hm, hsize, harray, hscalar⟩ := hstate
  have hreachable : Reachable LoadsIdle m := hm ▸ .call (reachable_entered _) (.execute 5) nofun
  exact ⟨m, hm, hsize, harray, hscalar, hreachable, store_of_reachable hreachable⟩

end LineBasic.Machine
