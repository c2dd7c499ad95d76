import LineBasic.Proofs.Expression.Run
import LineBasic.Proofs.Memory.Limits

/-! The frame of evaluation: what it leaves alone. A computation on the workspace keeps to the frame if
all it does is bind names as by a first use and within the limits, move the cursor forward and draw
random numbers. Each part
of the evaluator does, for the names that the tokens before it mention; a function keeps to it for what
its body mentions besides its parameters, since these are bound again afterwards to what they were. -/

namespace LineBasic.Expression

/-- What evaluation may do to a workspace: bind names of which `N` holds as by a first use and within
the limits, move the cursor forward, and draw random numbers. -/
structure Frame (N : String → Prop) (w w' : Workspace) : Prop where
  store : w.store.Grows N w'.store
  cursor : ∃ n, w'.cursor = w.cursor.skip n
  depth : w'.depth = w.depth
  fills : w.store.Fills w'.store

theorem skip_skip (c : Cursor) (m n : Nat) : (c.skip m).skip n = c.skip (m + n) := by
  simp [Cursor.skip, List.take_add]

section

variable {N : String → Prop} {w w' w'' : Workspace}

theorem Frame.refl (w : Workspace) : Frame N w w := ⟨.refl _, ⟨0, rfl⟩, rfl, .refl _⟩

theorem Frame.trans (h : Frame N w w') (h' : Frame N w' w'') : Frame N w w'' := by
  obtain ⟨m, hm⟩ := h.cursor
  obtain ⟨n, hn⟩ := h'.cursor
  exact ⟨h.store.trans h'.store, ⟨m + n, by rw [hn, hm, skip_skip]⟩, h'.depth.trans h.depth,
    h.fills.trans h'.fills⟩

end

/-- The names that some tokens mention: those that stand in them, and what the functions called there
mention besides their parameters. -/
inductive Mentions (ctx : Context) : List Token → String → Prop
  | name {ts : List Token} {x : String} : .name x ∈ ts → Mentions ctx ts x
  | call {ts : List Token} {f : UserFunction} {name x : String} :
    [.word .FN, .name name] <:+: ts → ctx.functions[name]? = some f → Mentions ctx f.body x →
    x ∉ f.params → Mentions ctx ts x

theorem Mentions.mono {ctx : Context} {ts us : List Token} {x : String} (h : Mentions ctx ts x)
    (hts : ts <:+: us) : Mentions ctx us x := by
  cases h with
  | name hx => exact .name (hts.mem hx)
  | call hcall hf hx hp => exact .call (hcall.trans hts) hf hx hp

/-- `N` holds of every name that the tokens to come mention. -/
def Names (ctx : Context) (N : String → Prop) (c : Cursor) : Prop :=
  ∀ x, Mentions ctx c.rest x → N x

theorem Names.skip {ctx : Context} {N : String → Prop} {c : Cursor} (h : Names ctx N c) (n : Nat) :
    Names ctx N (c.skip n) :=
  fun x hx => h x (hx.mono (List.drop_suffix n c.rest).isInfix)

/-- A computation keeps to the frame, whether it gives a result or ends with a condition. -/
def Keeps {α : Type} (ctx : Context) (N : String → Prop) (x : Eval α) : Prop :=
  ∀ w, Names ctx N w.cursor → Frame N w (x w).2

section

variable {ctx : Context} {N : String → Prop} {α β : Type}

theorem Keeps.names {x : Eval α} (hx : Keeps ctx N x) {w : Workspace} (hw : Names ctx N w.cursor) :
    Names ctx N (x w).2.cursor := by
  obtain ⟨n, hn⟩ := (hx w hw).cursor
  rw [hn]
  exact hw.skip n

theorem keeps_pure (a : α) : Keeps ctx N (pure a) := fun w _ => .refl w

theorem keeps_throw (e : Condition) : Keeps ctx N (throw e : Eval α) := fun w _ => .refl w

theorem keeps_get : Keeps ctx N get := fun w _ => .refl w

theorem keeps_lift (r : Except Condition α) : Keeps ctx N (liftM r : Eval α) := fun w _ => .refl w

theorem Keeps.bind {x : Eval α} {f : α → Eval β} (hx : Keeps ctx N x) (hf : ∀ a, Keeps ctx N (f a)) :
    Keeps ctx N (x >>= f) := by
  intro w hw
  have hfst := hx w hw
  have hnames := hx.names hw
  cases hr : x w with
  | mk r w' =>
    rw [hr] at hfst hnames
    cases r with
    | error e =>
      rw [bind_of_error hr]
      exact hfst
    | ok a =>
      rw [bind_of_ok hr]
      exact hfst.trans (hf a w' hnames)

theorem keeps_require_bind {b : Bool} {e : Condition} {x : Eval α} (h : b = true → Keeps ctx N x) :
    Keeps ctx N (liftM (require b e) >>= fun _ => x) := by
  cases b with
  | false => exact keeps_throw e
  | true => exact h rfl

theorem keeps_onCursor {f : Cursor → α × Cursor} (h : ∀ c, ∃ n, (f c).2 = c.skip n) :
    Keeps ctx N (Eval.onCursor f) :=
  fun w _ => ⟨.refl _, h w.cursor, rfl, .refl _⟩

theorem skip_accept (t : Token) (c : Cursor) : ∃ n, (c.accept t).2 = c.skip n := by
  unfold Cursor.accept
  split
  · exact ⟨1, Cursor.advance_eq_skip c⟩
  · exact ⟨0, rfl⟩

theorem keeps_next? : Keeps ctx N Eval.next? :=
  keeps_onCursor fun c => ⟨1, Cursor.advance_eq_skip c⟩

theorem keeps_accept (t : Token) : Keeps ctx N (Eval.accept t) := keeps_onCursor (skip_accept t)

theorem keeps_expect (t : Token) : Keeps ctx N (Eval.expect t) := by
  rw [Eval.expect_eq]
  refine (keeps_accept t).bind fun found => ?_
  cases found with
  | true => exact keeps_pure ()
  | false => exact keeps_throw _

theorem keeps_name : Keeps ctx N Eval.name := by
  refine keeps_next?.bind fun t => ?_
  split
  · exact keeps_pure _
  · exact keeps_throw _

theorem keeps_separated {sep : Eval Bool} {item : Eval α} (hsep : Keeps ctx N sep)
    (hitem : Keeps ctx N item)
    (n : Nat) : Keeps ctx N (separated sep item n) := by
  induction n with
  | zero => exact hitem.bind fun a => keeps_pure _
  | succ n ih =>
    refine hitem.bind fun a => hsep.bind fun more => ?_
    cases more with
    | true => exact ih.bind fun as => keeps_pure _
    | false => exact keeps_pure _

theorem keeps_list {item : Eval α} (hitem : Keeps ctx N item) : Keeps ctx N (Eval.list item) :=
  keeps_get.bind fun _ => keeps_separated (keeps_accept _) hitem _

theorem keeps_bracketed {nested : Eval Value} (h : Keeps ctx N nested) :
    Keeps ctx N (bracketed nested) := by
  intro w hw
  by_cases hdepth : maxDepth ≤ w.depth
  · rw [bracketed_of_le nested hdepth]
    exact .refl w
  · have hin := h { w with depth := w.depth + 1 } hw
    cases hr : nested { w with depth := w.depth + 1 } with
    | mk r w' =>
      rw [hr] at hin
      rw [bracketed_of_lt (Nat.lt_of_not_le hdepth) hr]
      exact ⟨hin.store, hin.cursor, by rw [hin.depth]; rfl, hin.fills⟩

theorem keeps_subscripts {nested : Eval Value} (h : Keeps ctx N nested) :
    Keeps ctx N (subscripts nested) := by
  refine (keeps_accept _).bind fun opened => ?_
  cases opened with
  | true =>
    have hindex := (keeps_bracketed h).bind fun v => keeps_lift v.asShort
    exact (keeps_list hindex).bind fun _ => (keeps_expect _).bind fun _ => keeps_pure _
  | false => exact keeps_pure _

theorem keeps_subscripted {nested : Eval Value} (h : Keeps ctx N nested) {name : String} (hN : N name) :
    Keeps ctx N (subscripted nested name) := by
  refine (keeps_subscripts h).bind fun indexes => ?_
  intro w hw
  exact ⟨Store.locate_grows hN indexes, ⟨0, rfl⟩, rfl, Store.locate_fills _ name indexes⟩

theorem keeps_arguments {nested : Eval Value} (h : Keeps ctx N nested) : Keeps ctx N (arguments nested) :=
  (keeps_expect _).bind fun _ => (keeps_list (keeps_bracketed h)).bind fun _ =>
    (keeps_expect _).bind fun _ => keeps_pure _

theorem keeps_builtinCall {nested : Eval Value} (h : Keeps ctx N nested) (f : Function) :
    Keeps ctx N (builtinCall ctx nested f) := by
  have hargs : Keeps ctx N (builtinArguments nested f) := by
    unfold builtinArguments
    split
    · exact keeps_arguments h
    · exact keeps_pure _
  refine hargs.bind fun args => keeps_get.bind fun _ => (keeps_lift _).bind fun r => ?_
  refine Keeps.bind (fun w _ => ?_) fun _ => keeps_pure _
  exact ⟨.refl _, ⟨0, rfl⟩, rfl, .refl _⟩

end

/-! ### Parameters -/

theorem binding?_shadow (s : Store) (bs : List (String × Value)) {x : String}
    (hx : x ∉ bs.map Prod.fst) : (shadow s bs).2.binding? x = s.binding? x := by
  induction bs generalizing s with
  | nil => rfl
  | cons b bs ih =>
    obtain ⟨name, v⟩ := b
    rw [List.map_cons, List.mem_cons, not_or] at hx
    show (shadow (s.swap name (some (.scalar v))).2 bs).2.binding? x = _
    rw [ih _ hx.2, Store.binding?_swap, if_neg hx.1]

theorem isSome_shadow (s : Store) (bs : List (String × Value)) {x : String}
    (hx : x ∈ bs.map Prod.fst) : ((shadow s bs).2.binding? x).isSome := by
  induction bs generalizing s with
  | nil => cases hx
  | cons b bs ih =>
    obtain ⟨name, v⟩ := b
    show ((shadow (s.swap name (some (.scalar v))).2 bs).2.binding? x).isSome
    by_cases hrest : x ∈ bs.map Prod.fst
    · exact ih _ hrest
    · obtain rfl : x = name := by simpa [hrest] using hx
      rw [binding?_shadow _ bs hrest, Store.binding?_swap, if_pos rfl]
      rfl

theorem unshadow_append (s : Store) (saved : List (String × Option Binding)) (name : String)
    (old : Option Binding) :
    unshadow s (saved ++ [(name, old)]) = ((unshadow s saved).swap name old).2 := by
  induction saved generalizing s with
  | nil => rfl
  | cons b saved ih => exact ih _

/-- After a call the parameters are bound to what they were bound to before, or to nothing, also where
one name is a parameter twice. -/
theorem binding?_unshadow (s s' : Store) (bs : List (String × Value)) (x : String) :
    (unshadow s' (shadow s bs).1).binding? x =
      if x ∈ bs.map Prod.fst then s.binding? x else s'.binding? x := by
  induction bs generalizing s with
  | nil => rfl
  | cons b bs ih =>
    obtain ⟨name, v⟩ := b
    have hsaved : (shadow s ((name, v) :: bs)).1 =
        (shadow (s.swap name (some (.scalar v))).2 bs).1 ++ [(name, s.binding? name)] := by
      rw [← Store.fst_swap s name (some (.scalar v))]
      rfl
    rw [hsaved, unshadow_append, Store.binding?_swap, ih]
    by_cases hx : x = name
    · subst hx
      simp
    · rw [if_neg hx, Store.binding?_swap, if_neg hx, List.map_cons]
      simp only [List.mem_cons, hx, false_or]

/-- A function binds names only within the limit, since while its parameters are bound there are not
fewer of them than afterwards. -/
theorem fills_unshadow {N : String → Prop} {s inner : Store} {bs : List (String × Value)}
    (hgrows : (shadow s bs).2.Grows N inner) (hfills : (shadow s bs).2.Fills inner) :
    s.Fills (unshadow inner (shadow s bs).1) := by
  refine ⟨?_, fun x b hx => ?_⟩
  · rcases hfills.names with hsame | hsize
    · refine .inl fun x hx => ?_
      rw [binding?_unshadow]
      by_cases hp : x ∈ bs.map Prod.fst
      · rw [if_pos hp, hx]
      · rw [if_neg hp]
        exact hsame x ((binding?_shadow s bs hp).trans hx)
    · refine .inr (Nat.le_trans (Store.size_le_of_binding? fun x hnone => ?_) hsize)
      have hp : x ∉ bs.map Prod.fst := by
        intro hp
        have hsome := isSome_shadow s bs hp
        rcases hgrows x with heq | ⟨hnew, -⟩
        · rw [← heq, hnone] at hsome
          cases hsome
        · rw [hnew] at hsome
          cases hsome
      rw [binding?_unshadow, if_neg hp, hnone]
  · rw [binding?_unshadow] at hx
    split at hx
    · exact .inl hx
    · rename_i hp
      rw [← binding?_shadow s bs hp]
      exact hfills.cells x b hx

section

variable {ctx : Context} {N : String → Prop} {nested : Eval Value}

/-- What a name is bound to after the body of a function: a parameter to what it was bound to before, any
other name to what the body left. -/
theorem binding?_inBody {f : UserFunction} {args : List Value}
    (hargs : args.length = f.params.length) (w : Workspace) (x : String) :
    (inBody nested f args w).2.store.binding? x =
      if x ∈ f.params then w.store.binding? x
      else (bracketed nested { w with
        store := (shadow w.store (f.params.zip args)).2
        cursor := .start f.body }).2.store.binding? x := by
  have hnames : (f.params.zip args).map Prod.fst = f.params :=
    List.map_fst_zip (Nat.le_of_eq hargs.symm)
  have hfinal := binding?_unshadow w.store (bracketed nested { w with
        store := (shadow w.store (f.params.zip args)).2
        cursor := .start f.body }).2.store (f.params.zip args) x
  rw [hnames] at hfinal
  exact hfinal

theorem keeps_inBody (h : ∀ N, Keeps ctx N nested) {f : UserFunction}
    (hf : ∀ x, Mentions ctx f.body x → x ∉ f.params → N x) {args : List Value}
    (hargs : args.length = f.params.length) : Keeps ctx N (inBody nested f args) := by
  intro w hw
  have hnames : (f.params.zip args).map Prod.fst = f.params :=
    List.map_fst_zip (Nat.le_of_eq hargs.symm)
  have hbody : Names ctx (fun x => N x ∨ x ∈ f.params) (.start f.body) := by
    intro x hx
    by_cases hp : x ∈ f.params
    · exact .inr hp
    · exact .inl (hf x hx hp)
  obtain ⟨hstore, -, hdepth, hfills⟩ := keeps_bracketed (h _)
    { w with store := (shadow w.store (f.params.zip args)).2, cursor := .start f.body } hbody
  refine ⟨fun x => ?_, ⟨0, rfl⟩, hdepth, fills_unshadow hstore hfills⟩
  rw [binding?_inBody hargs]
  by_cases hp : x ∈ f.params
  · exact .inl (if_pos hp)
  · rw [if_neg hp, ← binding?_shadow w.store (f.params.zip args) (by rw [hnames]; exact hp)]
    rcases hstore x with heq | ⟨hnone, hor, hnew⟩
    · exact .inl heq
    · exact .inr ⟨hnone, hor.resolve_right hp, hnew⟩

theorem peek?_of_name {w w' : Workspace} {name : String} (h : Eval.name w = (.ok name, w')) :
    w.cursor.peek? = some (.name name) := by
  have hnext : Eval.next? w = (.ok w.cursor.peek?, (Eval.next? w).2) := rfl
  rw [Eval.name, bind_of_ok hnext] at h
  cases hpeek : w.cursor.peek? with
  | none =>
    rw [hpeek] at h
    cases h
  | some t =>
    rw [hpeek] at h
    cases t with
    | name n =>
      cases h
      rfl
    | _ => cases h

/-- The call of a function whose `FN` was just passed. -/
theorem frame_userCall (h : ∀ N, Keeps ctx N nested) {w : Workspace} (hw : Names ctx N w.cursor)
    (hcall : ∀ name f, w.cursor.peek? = some (.name name) → ctx.functions[name]? = some f →
      ∀ x, Mentions ctx f.body x → x ∉ f.params → N x) :
    Frame N w (userCall ctx nested w).2 := by
  have hframe := keeps_name w hw
  have hnames := keeps_name.names hw
  cases hr : Eval.name w with
  | mk r w' =>
    rw [hr] at hframe hnames
    cases r with
    | error e =>
      rw [userCall, bind_of_error hr]
      exact hframe
    | ok name =>
      rw [userCall, bind_of_ok hr]
      refine hframe.trans ?_
      cases hf : ctx.functions[name]? with
      | none => exact .refl w'
      | some f =>
        refine (keeps_arguments (h N)).bind (fun args => ?_) w' hnames
        refine keeps_require_bind fun hlen => keeps_require_bind fun _ => ?_
        have hbody := keeps_inBody h (hcall name f (peek?_of_name hr) hf) (beq_iff_eq.mp hlen)
        exact hbody.bind fun v => keeps_require_bind fun _ => keeps_pure v

theorem keeps_atom (h : ∀ N, Keeps ctx N nested) : Keeps ctx N (atom ctx nested) := by
  intro w hw
  have hnext : Eval.next? w = (.ok w.cursor.peek?, (Eval.next? w).2) := rfl
  have hnames := keeps_next?.names hw
  rw [atom, bind_of_ok hnext]
  refine (keeps_next? w hw).trans ?_
  cases hpeek : w.cursor.peek? with
  | none => exact .refl _
  | some t =>
    obtain ⟨rest, hrest⟩ := List.head?_eq_some_iff.mp hpeek
    cases t with
    | number | string => exact keeps_lift _ _ hnames
    | name n =>
      have hn : N n := hw n (.name (by simp [hrest]))
      have hget : Keeps ctx N (get : Eval Workspace) := keeps_get
      exact (keeps_subscripted (h N) hn).bind (fun c => hget.bind fun _ => keeps_pure _) _ hnames
    | function f => exact keeps_builtinCall (h N) f _ hnames
    | leftParen =>
      have hclose : ∀ v, Keeps ctx N (Eval.expect .rightParen >>= fun _ => pure v : Eval Value) :=
        fun v => (keeps_expect _).bind fun _ => keeps_pure v
      exact (keeps_bracketed (h N)).bind hclose _ hnames
    | word wd =>
      cases wd with
      | FN =>
        refine frame_userCall h hnames fun name f hname hf x hx hp => hw x (.call ?_ hf hx hp)
        -- the two tokens of the call are the first of those to come
        have hadvance : (Eval.next? w).2.cursor.rest = rest := by
          show w.cursor.advance.rest = rest
          simp [Cursor.advance, hrest]
        obtain ⟨more, hmore⟩ := List.head?_eq_some_iff.mp hname
        rw [hadvance] at hmore
        rw [hrest, hmore]
        exact ⟨[], more, rfl⟩
      | _ => exact .refl _
    | _ => exact .refl _

variable {operandAtom : Eval Value}

theorem keeps_applySigns {extend : Value → Nat → Eval Value} (h : ∀ v n, Keeps ctx N (extend v n))
    (signs : List Sign) (v : Value) : Keeps ctx N (applySigns extend signs v) := by
  induction signs generalizing v with
  | nil => exact keeps_pure v
  | cons s signs ih => exact (h v s.level).bind fun v => (keeps_lift _).bind fun v => ih v

theorem keeps_operand {extend : Value → Nat → Eval Value} (ha : Keeps ctx N operandAtom)
    (h : ∀ v n, Keeps ctx N (extend v n)) : Keeps ctx N (operand operandAtom extend) := by
  refine (keeps_onCursor fun c => ⟨_, rfl⟩).bind fun signs => ha.bind fun v => ?_
  exact keeps_applySigns h _ v

theorem keeps_climb (ha : Keeps ctx N operandAtom) (n : Nat) (v : Value) (least : Nat) :
    Keeps ctx N (climb operandAtom n v least) := by
  induction n generalizing v least with
  | zero => exact keeps_pure v
  | succ n ih =>
    refine keeps_get.bind fun w => ?_
    split
    · exact keeps_pure v
    · refine (keeps_onCursor fun c => ⟨1, Cursor.advance_eq_skip c⟩).bind fun _ => ?_
      refine (keeps_operand ha ih).bind fun right => (ih right _).bind fun right => ?_
      exact (keeps_lift _).bind fun v => ih v least

theorem keeps_atLevel (ha : Keeps ctx N operandAtom) (least : Nat) :
    Keeps ctx N (atLevel operandAtom least) :=
  keeps_get.bind fun _ => (keeps_operand ha (keeps_climb ha _)).bind fun v => keeps_climb ha _ v least

theorem keeps_within (levels least : Nat) :
    Keeps ctx N (within ctx levels least) := by
  induction levels generalizing N least with
  | zero => exact keeps_atLevel (keeps_atom fun _ => keeps_throw _) least
  | succ levels ih => exact keeps_atLevel (keeps_atom fun _ => ih 1) least

theorem keeps_evaluate : Keeps ctx N (evaluate ctx) := keeps_get.bind fun _ => keeps_within _ 1

end

/-- Whatever evaluation comes to, it leaves every bound name as it was, those of parameters too. It
binds only names that the tokens mention, each as by a first use; the cursor stays among the same
tokens and does not go back; and of the rest of the machine only the random numbers change. -/
theorem expression_frame (m : Machine) :
    (∀ x b, m.store.binding? x = some b → (Exec.expression m).2.store.binding? x = some b) ∧
    (∀ x b, m.store.binding? x = none → (Exec.expression m).2.store.binding? x = some b →
      b.IsInitial x ∧ Mentions m.context m.cursor.rest x) ∧
    (Exec.expression m).2.cursor.tokens = m.cursor.tokens ∧
    m.cursor.pos ≤ (Exec.expression m).2.cursor.pos ∧
    (Exec.expression m).2 = { m with
      cursor := (Exec.expression m).2.cursor
      store := (Exec.expression m).2.store
      random := (Exec.expression m).2.random } := by
  have hkeeps : Keeps m.context (Mentions m.context m.cursor.rest) (evaluate m.context) := keeps_evaluate
  obtain ⟨hstore, ⟨n, hn⟩, hdepth⟩ := hkeeps m.toWorkspace fun _ hx => hx
  rw [Exec.expression_apply]
  refine ⟨fun x b hb => ?_, fun x b hnone hb => ?_, ?_, ?_, ?_⟩
  · rcases hstore x with heq | ⟨hnone, -⟩
    · exact heq.trans hb
    · rw [hnone] at hb
      cases hb
  · rcases hstore x with heq | ⟨-, hx, b', hb', hinit⟩
    · rw [heq, hnone] at hb
      cases hb
    · rw [hb'] at hb
      cases hb
      exact ⟨hinit, hx⟩
  · rw [hn, Cursor.tokens_skip]
  · rw [hn, Cursor.pos_skip]
    exact Nat.le_add_right ..
  · rw [← hdepth]

end LineBasic.Expression
