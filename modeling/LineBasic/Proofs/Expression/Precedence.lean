import LineBasic.Proofs.Expression.Run
import LineBasic.Proofs.Expression.Tree

/-! Precedence and associativity: a written tree evaluates to its value. Tokens are followed from where a
left operand may stand, since the operators after a tree belong to trees around it. `Reads` says that
evaluation passes some tokens with a result and goes on with the operators behind them; it is shown
for leaves, signs, binary operators and brackets, and from these for every tree. -/

namespace LineBasic.Expression

open LineBasic.Expression.Tree

/-- No operator of this rank or above comes next, and no bracket that would open subscripts. -/
def Ends (reach : Nat) (rest : List Token) : Prop :=
  rest.head? ≠ some .leftParen ∧ ∀ o, rest.head? = some (.operator o) → o.rank < reach

theorem Ends.mono {a b : Nat} (hab : a ≤ b) {rest : List Token} (h : Ends a rest) : Ends b rest :=
  ⟨h.1, fun o ho => Nat.lt_of_lt_of_le (h.2 o ho) hab⟩

theorem level?_eq_rank {o : Operator} (ho : o ≠ .not) : o.level? = some o.rank := by
  cases o <;> first | rfl | exact absurd rfl ho

theorem rightLevel_rank (o : Operator) : o.rightLevel o.rank = o.rightNeed := by
  cases o <;> rfl

theorem nextOperator?_of_ends {least : Nat} {rest : List Token} (h : Ends least rest)
    (passed : List Token) : nextOperator? least ⟨passed, rest⟩ = none := by
  cases rest with
  | nil => rfl
  | cons t rest =>
    cases t with
    | operator o =>
      have hlt := h.2 o rfl
      by_cases ho : o = .not
      · rw [ho]
        rfl
      · simpa [nextOperator?, Cursor.peek?, level?_eq_rank ho] using hlt
    | _ => rfl

theorem nextOperator?_operator {o : Operator} (ho : o ≠ .not) {least : Nat} (h : least ≤ o.rank)
    (passed rest : List Token) :
    nextOperator? least ⟨passed, .operator o :: rest⟩ = some (o, o.rank) := by
  simp [nextOperator?, Cursor.peek?, level?_eq_rank ho, h]

/-! ### Steps of the evaluation -/

/-- An operand with its signs and the operators after it that bind at least as tightly as `least`. -/
def ahead (operandAtom : Eval Value) (n least : Nat) : Eval Value := do
  let left ← operand operandAtom (climb operandAtom n)
  climb operandAtom n left least

section

variable {operandAtom : Eval Value}

theorem climb_of_ends {least : Nat} {rest : List Token} (h : Ends least rest) (n : Nat) (v : Value)
    (w : Workspace) (passed : List Token) :
    climb operandAtom n v least (w.between passed rest) = (.ok v, w.between passed rest) :=
  climb_of_none (nextOperator?_of_ends h passed) n v

theorem climb_operator {o : Operator} (ho : o ≠ .not) {least : Nat} (h : least ≤ o.rank) (n : Nat)
    (v : Value) (w : Workspace) (passed rest : List Token) :
    climb operandAtom (n + 1) v least (w.between passed (.operator o :: rest)) = (do
      let right ← ahead operandAtom n o.rightNeed
      let v ← Value.binary o v right
      climb operandAtom n v least : Eval Value) (w.between (.operator o :: passed) rest) := by
  rw [climb_of_some (nextOperator?_operator ho h passed rest), ahead, bind_assoc, ← rightLevel_rank]
  rfl

variable {extend : Value → Nat → Eval Value}

theorem applySigns_append (signs : List Sign) (s : Sign) (v : Value) :
    applySigns extend (signs ++ [s]) v = (do
      let v ← applySigns extend signs v
      let v ← extend v s.level
      s.apply v) := by
  induction signs generalizing v with
  | nil => simp [applySigns]
  | cons s' signs ih =>
    simp only [List.cons_append, applySigns, ih, bind_assoc]

theorem operand_apply (w : Workspace) (passed rest : List Token) :
    operand operandAtom extend (w.between passed rest) =
      (operandAtom >>= applySigns extend (Sign.leading rest).reverse)
        { w with cursor := Cursor.skip ⟨passed, rest⟩ (Sign.leading rest).length } := rfl

/-- The first sign is the last to be applied, after the operators that bind tighter. -/
theorem operand_sign (s : Sign) (w : Workspace) (passed rest : List Token) :
    operand operandAtom extend (w.between passed (.operator s.operator :: rest)) = (do
      let v ← operand operandAtom extend
      let v ← extend v s.level
      s.apply v : Eval Value) (w.between (.operator s.operator :: passed) rest) := by
  have hleading : Sign.leading (.operator s.operator :: rest) = s :: Sign.leading rest := by
    simp [Sign.leading]
  have hskip : Cursor.skip ⟨passed, .operator s.operator :: rest⟩ ((Sign.leading rest).length + 1) =
      Cursor.skip ⟨.operator s.operator :: passed, rest⟩ (Sign.leading rest).length := by
    simp [Cursor.skip]
  have hlast : operandAtom >>= applySigns extend (s :: Sign.leading rest).reverse =
      (operandAtom >>= applySigns extend (Sign.leading rest).reverse) >>= fun v =>
        extend v s.level >>= fun v => s.apply v := by
    rw [bind_assoc, List.reverse_cons]
    exact congrArg _ (funext fun v => applySigns_append _ s v)
  rw [operand_apply, hleading, List.length_cons, hskip, hlast]
  rfl

theorem ahead_of_leading_eq_nil {rest : List Token} (h : Sign.leading rest = []) (n least : Nat)
    (w : Workspace) (passed : List Token) :
    ahead operandAtom n least (w.between passed rest) =
      (operandAtom >>= fun v => climb operandAtom n v least) (w.between passed rest) := by
  have hpure : operandAtom >>= applySigns (climb operandAtom n) [] = operandAtom := bind_pure _
  rw [ahead, run_bind, operand_apply, h, List.reverse_nil, hpure]
  rfl

theorem ahead_sign (s : Sign) (n least : Nat) (w : Workspace) (passed rest : List Token) :
    ahead operandAtom n least (w.between passed (.operator s.operator :: rest)) = (do
      let v ← ahead operandAtom n s.level
      let v ← s.apply v
      climb operandAtom n v least : Eval Value) (w.between (.operator s.operator :: passed) rest) := by
  have hassoc : (do
      let v ← ahead operandAtom n s.level
      let v ← s.apply v
      climb operandAtom n v least : Eval Value) = (do
      let v ← operand operandAtom (climb operandAtom n)
      let v ← climb operandAtom n v s.level
      s.apply v : Eval Value) >>= fun v => climb operandAtom n v least := by
    simp only [ahead, bind_assoc]
  rw [hassoc, ahead, run_bind, operand_sign]
  rfl

end

/-! ### Tokens that are read as a value -/

/-- What a bracket is evaluated by where at most `levels` may still be opened. -/
def inner (ctx : Context) : Nat → Eval Value
  | 0 => throw (.of .formulaTooComplex)
  | levels + 1 => within ctx levels 1

theorem within_eq (ctx : Context) (levels least : Nat) :
    within ctx levels least = atLevel (atom ctx (inner ctx levels)) least := by
  cases levels <;> rfl

/-- A run goes on as `k` with a value, or it ends with a condition. -/
def GoesOn (run : Except Condition Value × Workspace)
    (k : Value → Except Condition Value × Workspace) : Except Condition Value → Prop
  | .ok v => run = k v
  | .error e => run.1 = .error e

theorem GoesOn.trans {run : Except Condition Value × Workspace}
    {k k' : Value → Except Condition Value × Workspace} {r : Except Condition Value}
    {r' : Value → Except Condition Value} (h : GoesOn run k r)
    (h' : ∀ v, GoesOn (k v) k' (r' v)) : GoesOn run k' (r >>= r') := by
  cases r with
  | error e => exact h
  | ok v =>
    have h : run = k v := h
    rw [h]
    exact h' v

theorem GoesOn.bind {x : Eval Value} {f : Value → Eval Value} {w w' : Workspace}
    {k : Value → Except Condition Value × Workspace} {r : Except Condition Value}
    {r' : Value → Except Condition Value} (h : GoesOn (x w) (fun v => (.ok v, w')) r)
    (h' : ∀ v, GoesOn (f v w') k (r' v)) : GoesOn ((x >>= f) w) k (r >>= r') := by
  cases r with
  | error e => exact fst_bind_of_error h
  | ok v =>
    rw [bind_of_ok h]
    exact h' v

theorem goesOn_lift (r : Except Condition Value) (k : Value → Eval Value) (w : Workspace) :
    GoesOn ((liftM r >>= k : Eval Value) w) (fun v => k v w) r := by
  cases r <;> rfl

/-- Evaluation passes the tokens `ts`, finds `r` in them and goes on with the operators after them;
`levels` brackets may be opened, `n` bounds the operators. -/
def Reads (ctx : Context) (levels : Nat) (s : Store) (ts : List Token) (reach lowest : Nat)
    (r : Except Condition Value) : Prop :=
  ∀ (w : Workspace) (n least : Nat) (passed rest : List Token), w.store = s →
    w.depth + levels = maxDepth → (ts ++ rest).length ≤ n → least ≤ lowest → Ends reach rest →
    ∃ m, rest.length ≤ m ∧
      GoesOn (ahead (atom ctx (inner ctx levels)) n least (w.between passed (ts ++ rest)))
        (fun v => climb (atom ctx (inner ctx levels)) m v least
          (w.between (ts.reverse ++ passed) rest)) r

theorem Reads.mono {ctx : Context} {levels : Nat} {s : Store} {ts : List Token}
    {reach reach' lowest lowest' : Nat} {r : Except Condition Value}
    (h : Reads ctx levels s ts reach lowest r) (hreach : reach' ≤ reach) (hlow : lowest' ≤ lowest) :
    Reads ctx levels s ts reach' lowest' r := by
  intro w n least passed rest hstore hdepth hlen hleast hends
  exact h w n least passed rest hstore hdepth hlen (Nat.le_trans hleast hlow) (hends.mono hreach)

section

variable {ctx : Context} {levels : Nat} {s : Store}

theorem Reads.sign {g : Sign} {ts : List Token} {r : Except Condition Value}
    (h : Reads ctx levels s ts g.level g.level r) :
    Reads ctx levels s (.operator g.operator :: ts) g.level 9 (r >>= g.apply) := by
  intro w n least passed rest hstore hdepth hlen hleast hends
  have hlen : (ts ++ rest).length + 1 ≤ n := hlen
  obtain ⟨m, -, hgo⟩ := h w n g.level (.operator g.operator :: passed) rest hstore hdepth
    (by omega) (Nat.le_refl _) hends
  simp only [climb_of_ends hends] at hgo
  refine ⟨n, by simp at hlen; omega, ?_⟩
  rw [List.cons_append, ahead_sign, List.reverse_cons, List.append_assoc]
  exact hgo.bind fun v => goesOn_lift _ _ _

theorem Reads.binary {o : Operator} (ho : o ≠ .not) {ls rs : List Token}
    {a b : Except Condition Value} (hl : Reads ctx levels s ls (o.rank + 1) o.rank a)
    (hr : Reads ctx levels s rs o.rightNeed o.rightNeed b) :
    Reads ctx levels s (ls ++ .operator o :: rs) o.rightNeed o.rank (do
      let x ← a
      let y ← b
      Value.binary o x y) := by
  intro w n least passed rest hstore hdepth hlen hleast hends
  rw [List.append_assoc, List.cons_append] at hlen ⊢
  have hnext : Ends (o.rank + 1) (.operator o :: (rs ++ rest)) :=
    ⟨by simp, fun o' ho' => by cases ho'; exact Nat.lt_succ_self _⟩
  obtain ⟨m, hm, hleft⟩ := hl w n least passed _ hstore hdepth hlen hleast hnext
  -- the operator is still to be passed, so there is one to climb
  obtain ⟨m, rfl⟩ : ∃ k, m = k + 1 := ⟨m - 1, by simp at hm; omega⟩
  obtain ⟨m', -, hright⟩ := hr w m o.rightNeed (.operator o :: (ls.reverse ++ passed)) rest hstore
    hdepth (by simpa using hm) (Nat.le_refl _) hends
  simp only [climb_of_ends hends] at hright
  refine ⟨m, by simp at hm; omega, hleft.trans fun v => ?_⟩
  rw [climb_operator ho hleast, List.reverse_append, List.reverse_cons, List.append_assoc,
    List.append_assoc]
  exact hright.bind fun v' => goesOn_lift _ _ _

theorem Reads.of_atom {t : Token} {ts : List Token} {r : Except Condition Value}
    (ht : Sign.ofToken? t = none)
    (h : ∀ (w : Workspace) (passed rest : List Token), w.store = s → w.depth + levels = maxDepth →
      rest.head? ≠ some .leftParen →
      GoesOn (atom ctx (inner ctx levels) (w.between passed (t :: ts ++ rest)))
        (fun v => (.ok v, w.between ((t :: ts).reverse ++ passed) rest)) r) :
    Reads ctx levels s (t :: ts) 9 9 r := by
  intro w n least passed rest hstore hdepth hlen hleast hends
  have hleading : Sign.leading (t :: ts ++ rest) = [] := by simp [Sign.leading, ht]
  refine ⟨n, by simp at hlen; omega, ?_⟩
  rw [ahead_of_leading_eq_nil hleading, ← bind_pure r]
  exact (h w passed rest hstore hdepth hends.1).bind fun v => rfl

theorem reads_number (t : String) : Reads ctx levels s [.number t] 9 9 (literal t) := by
  apply Reads.of_atom rfl
  intro w passed rest hstore hdepth hrest
  show GoesOn (literal t, _) _ _
  cases literal t <;> rfl

theorem reads_string (t : String) : Reads ctx levels s [.string t] 9 9 (Value.ofString t) := by
  apply Reads.of_atom rfl
  intro w passed rest hstore hdepth hrest
  show GoesOn (Value.ofString t, _) _ _
  cases Value.ofString t <;> rfl

theorem locate_scalar {n : String} {v : Value} (hn : s.binding? n = some (.scalar v)) :
    s.locate n [] = (.ok ⟨n, []⟩, s) := by
  simp [Store.locate, Store.ensure, Store.cellOf, hn]

theorem subscripted_scalar {n : String} {v : Value} (hn : s.binding? n = some (.scalar v))
    (nested : Eval Value) {w : Workspace} (hw : w.store = s) {rest : List Token}
    (hrest : rest.head? ≠ some .leftParen) (passed : List Token) :
    subscripted nested n (w.between passed rest) = (.ok ⟨n, []⟩, w.between passed rest) := by
  have hsub : subscripts nested (w.between passed rest) = (.ok [], w.between passed rest) := by
    rw [subscripts, bind_of_ok (Eval.accept_of_ne w passed hrest)]
    rfl
  rw [subscripted, bind_of_ok hsub, Eval.onStore_apply, Workspace.store_between, hw, locate_scalar hn,
    ← hw]
  rfl

theorem reads_scalar {n : String} {v : Value} (hn : s.binding? n = some (.scalar v)) :
    Reads ctx levels s [.name n] 9 9 (.ok (s.get ⟨n, []⟩)) := by
  apply Reads.of_atom rfl
  intro w passed rest hstore hdepth hrest
  show (subscripted (inner ctx levels) n >>= fun c => _) (w.between (.name n :: passed) rest) = _
  rw [bind_of_ok (subscripted_scalar hn _ hstore hrest _), ← hstore]
  rfl

theorem GoesOn.bracketed {nested : Eval Value} {w w' : Workspace} {r : Except Condition Value}
    (hw : w.depth < maxDepth)
    (h : GoesOn (nested { w with depth := w.depth + 1 })
      (fun v => (.ok v, { w' with depth := w'.depth + 1 })) r) :
    GoesOn (bracketed nested w) (fun v => (.ok v, w')) r := by
  cases r with
  | error e =>
    cases hin : nested { w with depth := w.depth + 1 } with
    | mk r u =>
      rw [hin] at h
      rw [bracketed_of_lt hw hin]
      exact h
  | ok v => exact bracketed_of_lt hw h

/-- What stands in brackets is read one level further down. -/
theorem Reads.enclosed {ts : List Token} {reach lowest : Nat} {r : Except Condition Value}
    (hlow : 1 ≤ lowest) (h : Reads ctx levels s ts reach lowest r) :
    Reads ctx (levels + 1) s (.leftParen :: (ts ++ [.rightParen])) 9 9 r := by
  apply Reads.of_atom rfl
  intro w passed rest hstore hdepth hrest
  have hends : ∀ reach, Ends reach (.rightParen :: rest) := fun _ => ⟨by simp, by simp⟩
  obtain ⟨m, -, hgo⟩ := h { w with depth := w.depth + 1 } (ts ++ .rightParen :: rest).length 1
    (.leftParen :: passed) (.rightParen :: rest) hstore (by simp only; omega) (Nat.le_refl _) hlow
    (hends _)
  simp only [climb_of_ends (hends 1)] at hgo
  have hinside : GoesOn (bracketed (inner ctx (levels + 1))
      (w.between (.leftParen :: passed) (ts ++ .rightParen :: rest)))
      (fun v => (.ok v, w.between (ts.reverse ++ .leftParen :: passed) (.rightParen :: rest))) r := by
    apply GoesOn.bracketed (by simp only [Workspace.depth_between]; omega)
    show GoesOn (within ctx levels 1 _) _ r
    rw [within_eq]
    exact hgo
  rw [List.cons_append, List.append_assoc, ← bind_pure r, List.reverse_cons, List.reverse_append,
    List.append_assoc]
  exact hinside.bind fun v => bind_of_ok (Eval.expect_head _ _ _ _)

/-- A child is read where it stands, in brackets or without. -/
theorem reads_enclose {e : Tree} (h : ∀ levels, e.nesting ≤ levels →
      Reads ctx levels s e.render e.reach e.lowest (e.eval s)) {need reach lowest : Nat}
    (hreach : need ≤ e.level → reach ≤ e.reach) (hlow : need ≤ e.level → lowest ≤ e.lowest)
    (hr : reach ≤ 9) (hl : lowest ≤ 9) (hn : deepen need e.level e.nesting ≤ levels) :
    Reads ctx levels s (enclose need e.level e.render) reach lowest (e.eval s) := by
  unfold enclose
  unfold deepen at hn
  by_cases hlt : e.level < need
  · rw [if_pos hlt] at hn ⊢
    obtain ⟨k, rfl⟩ : ∃ k, levels = k + 1 := ⟨levels - 1, by omega⟩
    have hone : 1 ≤ e.lowest := by
      have := e.levels
      omega
    exact ((h k (by omega)).enclosed hone).mono hr hl
  · rw [if_neg hlt] at hn ⊢
    exact (h levels hn).mono (hreach (by omega)) (hlow (by omega))

/-- Every tree is read as its value. -/
theorem reads_render (e : Tree) (hb : e.Bound s) (hn : e.nesting ≤ levels) :
    Reads ctx levels s e.render e.reach e.lowest (e.eval s) := by
  induction e generalizing levels with
  | number t => exact reads_number t
  | string t => exact reads_string t
  | scalar n =>
    obtain ⟨v, hv⟩ := hb
    exact reads_scalar hv
  | sign g e ih =>
    have hlevel : g.level ≤ 9 := by cases g <;> decide
    have harg := reads_enclose (fun _ hn => ih hb hn) signLevel_le_reach signLevel_le_lowest hlevel
      hlevel hn
    exact harg.sign
  | binary o ho l r ihl ihr =>
    obtain ⟨hnl, hnr⟩ := Nat.max_le.mp hn
    have hneeds := Operator.needs ho
    have hleft := reads_enclose (fun _ hn => ihl hb.1 hn) (rank_lt_reach ho) (rank_le_lowest ho)
      (by omega) (by omega) hnl
    have hright := reads_enclose (fun _ hn => ihr hb.2 hn) (rightNeed_le_reach ho)
      rightNeed_le_lowest (by omega) (by omega) hnr
    exact hleft.binary ho hright

end

/-- A written tree that no operator and no bracket follows evaluates to the value of the tree, or to the
first condition that computing it meets. With a value the cursor is right after the tree, and nothing
else has changed. -/
theorem expression_render (e : Tree) (m : Machine) (rest : List Token) (hnesting : e.nesting ≤ 64)
    (hdepth : m.depth = 0) (hbound : e.Bound m.store) (hcursor : m.cursor.rest = e.render ++ rest)
    (hrest : ∀ t, rest.head? = some t → t.kind ≠ .operator ∧ t ≠ .leftParen) :
    (Exec.expression m).1 = e.eval m.store ∧ ∀ v, e.eval m.store = .ok v →
      (Exec.expression m).2 = { m with cursor := m.cursor.skip e.render.length } := by
  have hends : ∀ reach, Ends reach rest := fun reach =>
    ⟨fun h => (hrest _ h).2 rfl, fun o h => absurd rfl (hrest _ h).1⟩
  have hreads : Reads m.context 64 m.store e.render e.reach e.lowest (e.eval m.store) :=
    reads_render e hbound hnesting
  have hlow : 1 ≤ e.lowest := by
    have := e.levels
    omega
  obtain ⟨k, -, hgo⟩ := hreads m.toWorkspace (e.render ++ rest).length 1 m.cursor.passed rest rfl
    (by rw [hdepth]; rfl) (Nat.le_refl _) hlow (hends _)
  simp only [climb_of_ends (hends 1)] at hgo
  have hcur : m.cursor = ⟨m.cursor.passed, e.render ++ rest⟩ := by rw [← hcursor]
  have hskip : m.cursor.skip e.render.length = ⟨e.render.reverse ++ m.cursor.passed, rest⟩ := by
    rw [hcur]
    simp [Cursor.skip]
  have heval : evaluate m.context m.toWorkspace =
      ahead (atom m.context (inner m.context 64)) (e.render ++ rest).length 1
        (m.toWorkspace.between m.cursor.passed (e.render ++ rest)) := by
    show within m.context (maxDepth - m.depth) 1 m.toWorkspace = _
    rw [hdepth, within_eq, ← hcursor]
    rfl
  rw [← heval] at hgo
  rw [Exec.expression_apply, hskip]
  cases hr : e.eval m.store with
  | error c =>
    rw [hr] at hgo
    exact ⟨hgo, fun v hv => by cases hv⟩
  | ok v =>
    rw [hr] at hgo
    have hgo : evaluate m.context m.toWorkspace = _ := hgo
    rw [hgo]
    refine ⟨rfl, fun v' hv => ?_⟩
    rfl

/-- `X$ = "A" + ("B" + X$)` before a colon. -/
theorem expression_render_joined :
    let e : Tree := .binary .equal (by decide) (.scalar "X$")
      (.binary .plus (by decide) (.string "A") (.binary .plus (by decide) (.string "B") (.scalar "X$")))
    let m : Machine :=
      { cursor := .start (e.render ++ [.colon])
        store := ⟨Std.TreeMap.empty.insert "X$" (.scalar (.string "AB"))⟩ }
    (e.nesting = 1 ∧ m.depth = 0 ∧ e.Bound m.store) ∧
      (Exec.expression m).1 = .ok (.number 0) ∧ (Exec.expression m).2.cursor.rest = [.colon] := by
  intro e m
  have hbound : e.Bound m.store := ⟨⟨_, rfl⟩, trivial, trivial, ⟨_, rfl⟩⟩
  have heval : e.eval m.store = .ok (.number 0) := by rfl
  obtain ⟨hvalue, hstate⟩ :=
    expression_render e m [.colon] (by decide) rfl hbound rfl (by simp [Token.kind])
  refine ⟨⟨by decide, rfl, hbound⟩, hvalue.trans heval, ?_⟩
  rw [hstate _ heval]
  rfl

end LineBasic.Expression
