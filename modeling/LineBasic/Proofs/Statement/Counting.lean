import LineBasic.Proofs.Expression.Frame
import LineBasic.Proofs.Memory.Cells
import LineBasic.Proofs.Statement.Calls

/-! What `FOR` reads, and what one `NEXT` does to the loop that it steps. -/

namespace LineBasic

/-- A loop that counts down goes on from its limit upwards, any other one from its limit downwards. -/
theorem Loop.goesOn_iff (l : Loop) (x : Float) :
    l.goesOn x = true ↔ l.step < 0 ∧ l.limit ≤ x ∨ ¬ l.step < 0 ∧ x ≤ l.limit := by
  rw [goesOn]
  by_cases hdown : l.step < 0 <;> simp [hdown]

/-- Evaluation leaves a variable that is bound as it is. -/
theorem Exec.get_number {m m' : Machine} {r : Except Condition Float} (h : Exec.number m = (r, m')) {c : Cell}
    (hc : (m.store.binding? c.name).isSome) :
    m'.store.get c = m.store.get c ∧ (m'.store.binding? c.name).isSome := by
  have hkeeps : Expression.Keeps m.context (fun _ => True) (Expression.evaluate m.context) :=
    Expression.keeps_evaluate
  have hframe := hkeeps m.toWorkspace fun _ _ => trivial
  have hnumber : (Exec.number m).2 = (Exec.expression m).2 := by
    rw [Exec.number, run_bind]
    cases (Exec.expression m).1 with
    | error e => rfl
    | ok v => rfl
  have hstore : m'.store = (Expression.evaluate m.context m.toWorkspace).2.store := by
    rw [h, Exec.expression_apply] at hnumber
    exact congrArg (·.store) hnumber
  have hsame : m'.store.binding? c.name = m.store.binding? c.name := by
    rcases hframe.store c.name with heq | ⟨hnone, -⟩
    · rw [hstore]
      exact heq
    · rw [hnone] at hc
      cases hc
  exact ⟨Store.get_congr hsame, by rw [hsame]; exact hc⟩

namespace Statement

/-! ## `FOR` -/

/-- What `FOR` reads from `m` on, up to where a `STEP` may stand: its variable, where it starts and its limit,
which is evaluated when the variable has its first value. -/
structure Counts (m : Machine) (v : String) (a b : Float) (e : Machine) : Prop where
  type : isStringName v = false
  exists_states : ∃ (m₁ m₂ m₃ : Machine) (rest₁ rest₂ : List Token),
    Exec.target m = (.ok ⟨v, []⟩, m₁) ∧ m₁.cursor.rest = .operator .equal :: rest₁ ∧
    Exec.number { m₁ with cursor := m₁.cursor.skip 1 } = (.ok a, m₂) ∧
    Exec.assign ⟨v, []⟩ (.number a) m₂ = (.ok (), m₃) ∧ m₃.cursor.rest = .word .TO :: rest₂ ∧
    Exec.number { m₃ with cursor := m₃.cursor.skip 1 } = (.ok b, e)

/-- All that `FOR` reads; the step is one where it is left out. -/
inductive Clauses (m : Machine) (v : String) (a b : Float) : Float → Machine → Prop
  | plain {e : Machine} (h : Counts m v a b e) (hstep : e.cursor.peek? ≠ some (.word .STEP)) :
      Clauses m v a b 1 e
  | step {s : Float} {m' e : Machine} {rest : List Token} (h : Counts m v a b m')
      (hrest : m'.cursor.rest = .word .STEP :: rest)
      (hs : Exec.number { m' with cursor := m'.cursor.skip 1 } = (.ok s, e)) : Clauses m v a b s e

variable {m e : Machine} {v : String} {a b s : Float}

theorem Counts.get (h : Counts m v a b e) :
    e.store.get ⟨v, []⟩ = .number a ∧ (e.store.binding? v).isSome := by
  obtain ⟨-, m₁, m₂, m₃, rest₁, rest₂, -, -, -, hassign, -, hlimit⟩ := h
  obtain ⟨w, hw, rfl⟩ := liftM_eq_ok hassign
  rw [Eval.onStore_apply] at hw
  obtain ⟨hset, rfl⟩ := Prod.mk.inj hw
  obtain ⟨hget, hbound⟩ := Store.get_of_set (c := ⟨v, []⟩) (Prod.ext hset rfl)
  obtain ⟨hsame, hbound'⟩ := Exec.get_number hlimit (c := ⟨v, []⟩) hbound
  exact ⟨hsame.trans hget, hbound'⟩

/-- When all is read the variable has its first value. -/
theorem Clauses.get (h : Clauses m v a b s e) : e.store.get ⟨v, []⟩ = .number a := by
  cases h with
  | plain h => exact h.get.1
  | step h _ hs => exact (Exec.get_number hs (c := ⟨v, []⟩) h.get.2).1.trans h.get.1

theorem Counts.clauses {m' : Machine} (h : Counts m v a b m') (hs : stepClause m' = (.ok s, e)) :
    Clauses m v a b s e := by
  obtain ⟨found, _, hfound, hs⟩ := bind_eq_ok hs
  obtain ⟨_, haccept, rfl⟩ := liftM_eq_ok hfound
  cases found with
  | true =>
    obtain ⟨rest, hrest, rfl⟩ := Eval.accept_eq_true haccept
    exact .step h hrest hs
  | false =>
    obtain rfl := Eval.accept_eq_false haccept
    cases hs
    refine .plain h fun hpeek => ?_
    have hstep : (m'.cursor.accept (.word .STEP)).1 = true := by
      rw [Cursor.accept, hpeek]
      rfl
    cases hstep.symm.trans (Except.ok.inj (Prod.mk.inj haccept).1)

theorem forLoop_eq_ok {flow : Flow} (h : forLoop m = (.ok flow, e)) : ∃ v a b s m' stack,
    flow = .done ∧ Clauses m v a b s m' ∧ m'.cursor.atStatementEnd = true ∧
      openLoop m'.stack ⟨v, b, s, m'.position⟩ = .ok stack ∧ e = { m' with stack } := by
  rw [forLoop] at h
  obtain ⟨c, m₁, htarget, h⟩ := bind_eq_ok h
  obtain ⟨_, _, hnumeric, h⟩ := bind_eq_ok h
  obtain ⟨hrequire, rfl⟩ := Prod.mk.inj hnumeric
  have htype : isStringName c.name = false := by simpa [Cell.isString] using require_eq_ok hrequire
  obtain ⟨_, _, hscalar, h⟩ := bind_eq_ok h
  obtain ⟨hrequire, rfl⟩ := Prod.mk.inj hscalar
  have hcell : c = ⟨c.name, []⟩ := by
    rw [← List.isEmpty_iff.mp (require_eq_ok hrequire)]
  rw [hcell] at htarget
  obtain ⟨_, _, hequal, h⟩ := bind_eq_ok h
  obtain ⟨_, hexpect, rfl⟩ := liftM_eq_ok hequal
  obtain ⟨rest₁, hrest₁, rfl⟩ := Eval.expect_eq_ok hexpect
  obtain ⟨a, m₂, ha, h⟩ := bind_eq_ok h
  obtain ⟨_, m₃, hassign, h⟩ := bind_eq_ok h
  rw [hcell] at hassign
  obtain ⟨_, _, hto, h⟩ := bind_eq_ok h
  obtain ⟨_, hexpect, rfl⟩ := liftM_eq_ok hto
  obtain ⟨rest₂, hrest₂, rfl⟩ := Eval.expect_eq_ok hexpect
  obtain ⟨b, m₄, hb, h⟩ := bind_eq_ok h
  have hcounts : Counts m c.name a b m₄ :=
    ⟨htype, m₁, m₂, m₃, rest₁, rest₂, htarget, hrest₁, ha, hassign, hrest₂, hb⟩
  obtain ⟨s, m₅, hs, h⟩ := bind_eq_ok h
  obtain ⟨_, _, hend, h⟩ := bind_eq_ok h
  obtain ⟨_, hended, rfl⟩ := liftM_eq_ok hend
  have hended' := Eval.atStatementEnd_of_endStatement hended
  obtain rfl := Eval.endStatement_eq_ok hended
  rw [bind_get] at h
  obtain ⟨stack, _, hopen, h⟩ := bind_eq_ok h
  obtain ⟨hstack, rfl⟩ := Prod.mk.inj hopen
  cases h
  exact ⟨c.name, a, b, s, m₅, stack, rfl, hcounts.clauses hs, hended', hstack, rfl⟩

/-! ## `NEXT` -/

/-- The machine with this store and these frames. -/
def stepped (m : Machine) (s : Store) (frames : List Frame) : Machine :=
  { m with store := s, stack := { m.stack with items := frames } }

section

variable {l : Loop} {below : List Frame} {x : Float} {store : Store}

/-- What is left of the step of a loop when its variable has been read. -/
theorem stepLoop_eq (hx : m.store.get ⟨l.var, []⟩ = .number x) :
    stepLoop l below m = (do
      require (x + l.step).isFinite (.of .overflow)
      Exec.assign ⟨l.var, []⟩ (.number (x + l.step))
      if l.goesOn (x + l.step) then
        Exec.jump l.body
        return true
      else
        setFrames below
        return false : Exec Bool) (stepped m m.store (.loop l :: below)) := by
  have hframes : setFrames (.loop l :: below) m = (.ok (), stepped m m.store (.loop l :: below)) := rfl
  have hnumber : (liftM ((stepped m m.store (.loop l :: below)).store.get ⟨l.var, []⟩).asNumber : Exec Float)
      (stepped m m.store (.loop l :: below)) = (.ok x, stepped m m.store (.loop l :: below)) := by
    show (liftM (m.store.get ⟨l.var, []⟩).asNumber : Exec Float) _ = _
    rw [hx]
    rfl
  rw [stepLoop, bind_of_ok hframes, bind_get, bind_of_ok hnumber]

theorem stepLoop_of_infinite (hx : m.store.get ⟨l.var, []⟩ = .number x)
    (hfinite : (x + l.step).isFinite = false) : (stepLoop l below m).1 = .error (.of .overflow) := by
  rw [stepLoop_eq hx, hfinite]
  rfl

theorem stepLoop_of_finite (hx : m.store.get ⟨l.var, []⟩ = .number x)
    (hfinite : (x + l.step).isFinite = true)
    (hset : m.store.set ⟨l.var, []⟩ (.number (x + l.step)) = (.ok (), store)) :
    stepLoop l below m = (if l.goesOn (x + l.step) then do
        Exec.jump l.body
        return true
      else do
        setFrames below
        return false : Exec Bool) (stepped m store (.loop l :: below)) := by
  have hassign : Exec.assign ⟨l.var, []⟩ (.number (x + l.step)) (stepped m m.store (.loop l :: below)) =
      (.ok (), stepped m store (.loop l :: below)) := by
    refine Extends.liftM_apply (m := stepped m m.store (.loop l :: below)) ?_
    rw [Eval.onStore_apply]
    show ((m.store.set ⟨l.var, []⟩ (.number (x + l.step))).1,
      { m.toWorkspace with store := (m.store.set ⟨l.var, []⟩ (.number (x + l.step))).2 }) = _
    rw [hset]
  rw [stepLoop_eq hx, hfinite]
  show (Exec.assign ⟨l.var, []⟩ (.number (x + l.step)) >>= _) (stepped m m.store (.loop l :: below)) = _
  rw [bind_of_ok hassign]

/-- The statement at `d` is a `NEXT`, of `n` tokens, for the loop `l` with `below` below it on the stack: a `NEXT`
without a variable where that loop is on top, or one with the variable of the loop, on top of which there may be
other loops. -/
inductive Nexts (l : Loop) (below : List Frame) (d : Machine) : Nat → Prop
  | nearest {rest : List Token} (h : d.cursor.rest = .word .NEXT :: rest)
      (hend : (d.cursor.skip 1).atStatementEnd = true) (hs : d.stack.items = .loop l :: below) :
      Nexts l below d 1
  | named {rest : List Token} {left : List Loop} (h : d.cursor.rest = .word .NEXT :: .name l.var :: rest)
      (hend : (d.cursor.skip 2).atStatementEnd = true)
      (hs : d.stack.items = left.map .loop ++ .loop l :: below) : Nexts l below d 2

/-- Among loops over distinct variables the one over a given variable is found below the others. -/
theorem findLoop?_of_left {left : List Loop} (h : DistinctLoops (left.map .loop ++ .loop l :: below)) :
    findLoop? (some l.var) (left.map .loop ++ .loop l :: below) = some (l, below) := by
  induction left with
  | nil => simp [findLoop?]
  | cons l' left ih =>
    have hne : l.var ≠ l'.var := by
      intro hvar
      obtain ⟨p, hp⟩ := h [] (left.map .loop) below l' l rfl hvar.symm
      simp at hp
    rw [List.map_cons, List.cons_append, findLoop?, if_neg (by simpa using hne)]
    exact ih (h.suffix (List.suffix_cons _ _))

variable {d : Machine} {n : Nat}

theorem Nexts.mem (h : Nexts l below d n) : Frame.loop l ∈ d.stack.items := by
  cases h with
  | nearest _ _ hs | named _ _ hs => simp [hs]

theorem Nexts.word? (h : Nexts l below d n) : d.word? = some .NEXT := by
  cases h with
  | nearest h | named h =>
    rw [Machine.word?, Cursor.peek?, h]
    rfl

theorem Nexts.atStatementEnd (h : Nexts l below d n) : (d.cursor.skip n).atStatementEnd = true := by
  cases h with
  | nearest _ hend => exact hend
  | named _ hend => exact hend

/-- A `NEXT` steps its loop; where that goes on, so does execution, and else the statement is done. -/
theorem Nexts.next_eq (h : Nexts l below d n) (hdistinct : DistinctLoops d.stack.items) :
    ∃ k : Bool → Exec Flow,
      next d.pastWord = (stepLoop l below >>= k) { d with cursor := d.cursor.skip n } ∧
      k true = pure .moved ∧ ∀ e : Machine, e.cursor = d.cursor.skip n → k false e = (.ok .done, e) := by
  have hpast : d.pastWord = { d with cursor := d.cursor.skip 1 } := by
    rw [Machine.pastWord, Cursor.advance_eq_skip]
  have hleft : (liftM Eval.tokensLeft : Exec Nat) d.pastWord = (.ok d.pastWord.cursor.rest.length, d.pastWord) :=
    rfl
  rw [next, bind_of_ok hleft, stepLoops]
  cases h with
  | nearest h hend hs =>
    have hname : name? d.pastWord.toWorkspace = (.ok none, d.pastWord.toWorkspace) := by
      have hpeek : Eval.peek? d.pastWord.toWorkspace = (.ok d.pastWord.cursor.peek?, d.pastWord.toWorkspace) := rfl
      rw [name?, bind_of_ok hpeek]
      cases ht : d.pastWord.cursor.peek? with
      | none => rfl
      | some t =>
        rw [Machine.pastWord, Cursor.advance_eq_skip] at ht
        rcases Cursor.peek?_of_atStatementEnd hend ht with rfl | rfl <;> rfl
    have hfind : findLoop? none d.pastWord.stack.items = some (l, below) := by
      show findLoop? none d.stack.items = _
      rw [hs]
      rfl
    rw [bind_of_ok (Extends.liftM_apply hname), bind_get]
    simp only [hfind]
    exact ⟨_, congrArg _ hpast, rfl, fun _ _ => rfl⟩
  | @named rest left h hend hs =>
    have hname : name? d.pastWord.toWorkspace =
        (.ok (some l.var), { d.toWorkspace with cursor := d.cursor.skip 2 }) := by
      rw [hpast]
      simp only [Cursor.skip, h]
      rfl
    have hfind : findLoop? (some l.var) d.pastWord.stack.items = some (l, below) := by
      show findLoop? (some l.var) d.stack.items = _
      rw [hs] at hdistinct ⊢
      exact findLoop?_of_left hdistinct
    have hcomma : ∀ e : Machine, e.cursor = d.cursor.skip 2 →
        (liftM (Eval.accept .comma) : Exec Bool) e = (.ok false, e) := by
      intro e he
      refine Extends.liftM_apply (Eval.accept_of_ne e.toWorkspace e.cursor.passed fun hpeek => ?_)
      rw [← he] at hend
      rcases Cursor.peek?_of_atStatementEnd hend hpeek with hx | hx <;> cases hx
    rw [bind_of_ok (Extends.liftM_apply hname), bind_get]
    simp only [hfind]
    refine ⟨_, rfl, rfl, fun e he => ?_⟩
    exact bind_of_ok (hcomma e he)

section

variable (h : Nexts l below d n) (hdistinct : DistinctLoops d.stack.items)
  (hx : d.store.get ⟨l.var, []⟩ = .number x)

include h hdistinct hx

theorem Nexts.overflows (hfinite : (x + l.step).isFinite = false) :
    ((next >>= settle) d.pastWord).1 = .error (.of .overflow) := by
  obtain ⟨k, hnext, -, -⟩ := h.next_eq hdistinct
  have herror := @stepLoop_of_infinite { d with cursor := d.cursor.skip n } l below x hx hfinite
  refine fst_bind_of_error ?_
  rw [hnext]
  exact fst_bind_of_error herror

variable (hfinite : (x + l.step).isFinite = true)
  (hset : d.store.set ⟨l.var, []⟩ (.number (x + l.step)) = (.ok (), store))

include hfinite hset

theorem Nexts.goesOn {tokens : List Token} (hmore : l.goesOn (x + l.step) = true)
    (ht : d.tokensOf l.body.line = .ok tokens) :
    (next >>= settle) d.pastWord = (.ok .moved, { stepped d store (.loop l :: below) with
      cursor := .atToken tokens l.body.token, line := l.body.line }) := by
  obtain ⟨k, hnext, hmoved, -⟩ := h.next_eq hdistinct
  have hjump := Exec.jump_of_ok (m := stepped { d with cursor := d.cursor.skip n } store (.loop l :: below)) ht
  have hstep := @stepLoop_of_finite { d with cursor := d.cursor.skip n } l below x store hx hfinite hset
  rw [if_pos hmore, bind_of_ok hjump] at hstep
  have hrun : next d.pastWord = (.ok .moved, { stepped d store (.loop l :: below) with
      cursor := .atToken tokens l.body.token, line := l.body.line }) := by
    rw [hnext, bind_of_ok hstep, hmoved]
    rfl
  rw [bind_of_ok hrun]
  rfl

theorem Nexts.ends (hmore : l.goesOn (x + l.step) = false) :
    (next >>= settle) d.pastWord =
      (.ok .done, stepped { d with cursor := d.cursor.skip n } store below) := by
  obtain ⟨k, hnext, -, hdone⟩ := h.next_eq hdistinct
  have hstep := @stepLoop_of_finite { d with cursor := d.cursor.skip n } l below x store hx hfinite hset
  rw [if_neg (by rw [hmore]; nofun)] at hstep
  have hstep : stepLoop l below { d with cursor := d.cursor.skip n } =
      (.ok false, stepped { d with cursor := d.cursor.skip n } store below) := hstep
  have hrun : next d.pastWord = (.ok .done, stepped { d with cursor := d.cursor.skip n } store below) := by
    rw [hnext, bind_of_ok hstep]
    exact hdone _ rfl
  rw [bind_of_ok hrun]
  exact settle_of_atStatementEnd h.atStatementEnd .done

end

end

end Statement

end LineBasic
