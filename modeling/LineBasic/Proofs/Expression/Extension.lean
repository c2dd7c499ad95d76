import LineBasic.Proofs.Machine.Extension

/-! An expression before the tokens that end it. -/

namespace LineBasic

/-- Tokens that no expression goes on with: none, or first a colon, `ELSE` or `THEN`. -/
def Boundary (suffix : List Token) : Prop :=
  ∀ t, suffix.head? = some t → t = .colon ∨ t = .word .ELSE ∨ t = .word .THEN

theorem leading_append {suffix : List Token} (h : Boundary suffix) (ts : List Token) :
    Sign.leading (ts ++ suffix) = Sign.leading ts := by
  induction ts with
  | nil =>
    cases suffix with
    | nil => rfl
    | cons t suffix => rcases h t rfl with rfl | rfl | rfl <;> rfl
  | cons t ts ih => simp only [List.cons_append, Sign.leading, ih]

theorem length_leading_le (ts : List Token) : (Sign.leading ts).length ≤ ts.length := by
  induction ts with
  | nil => exact Nat.le_refl 0
  | cons t ts ih =>
    rw [Sign.leading]
    split
    · exact Nat.succ_le_succ ih
    · exact Nat.zero_le _

theorem nextOperator?_append {suffix : List Token} (h : Boundary suffix) (least : Nat) (c : Cursor)
    (passed : List Token) :
    Expression.nextOperator? least ⟨passed, c.rest ++ suffix⟩ = Expression.nextOperator? least c := by
  obtain ⟨passed', rest⟩ := c
  cases rest with
  | nil =>
    cases suffix with
    | nil => rfl
    | cons t suffix => rcases h t rfl with rfl | rfl | rfl <;> rfl
  | cons t rest => rfl

theorem Boundary.ne {suffix : List Token} (h : Boundary suffix) {t : Token} (hc : t ≠ .colon)
    (he : t ≠ .word .ELSE) (ht : t ≠ .word .THEN) : suffix.head? ≠ some t := by
  intro hs
  rcases h t hs with hs | hs | hs
  · exact hc hs
  · exact he hs
  · exact ht hs

namespace Extends

open Cursored

variable {α β : Type} {suffix : List Token} {n : Nat} {last : β → Nat} {nested : Eval Value}

theorem accept (t : Token) (ht : suffix.head? ≠ some t) :
    Extends suffix n (fun more => if more then n - 1 else n) (Eval.accept t) (Eval.accept t) := by
  intro w a w' hn h
  have hw : w = w.between w.cursor.passed w.cursor.rest := rfl
  by_cases hhead : w.cursor.rest.head? = some t
  · obtain ⟨rest, hrest⟩ := List.head?_eq_some_iff.mp hhead
    rw [hw, hrest, Eval.accept_head] at h
    cases h
    refine ⟨rfl, ?_, [t], hrest, fun passed p => ?_⟩
    · have hlen : (t :: rest).length ≤ n := hrest ▸ hn
      exact Nat.le_sub_of_add_le hlen
    · have hrest : (cursor w).rest = t :: rest := hrest
      rw [hrest]
      exact Eval.accept_head t w passed (rest ++ suffix)
  · rw [hw, Eval.accept_of_ne _ _ hhead] at h
    cases h
    refine ⟨rfl, hn, [], rfl, fun passed p => ?_⟩
    have hnext : (w.cursor.rest ++ suffix).head? ≠ some t := by
      cases hrest : w.cursor.rest with
      | nil => exact ht
      | cons u rest =>
        rw [hrest] at hhead
        exact hhead
    exact Eval.accept_of_ne w passed hnext

theorem expect (t : Token) (ht : suffix.head? ≠ some t) :
    Extends suffix n (fun _ => n - 1) (Eval.expect t) (Eval.expect t) := by
  rw [Eval.expect_eq]
  refine (accept t ht).bind fun found => ?_
  cases found with
  | true => exact pure ()
  | false => exact throw _

theorem onStore (f : Store → Except Condition α × Store) :
    Extends suffix n (fun _ => n) (Eval.onStore f) (Eval.onStore f) :=
  still (fun _ => rfl) (fun _ => rfl) fun _ _ _ => rfl

/-- The next token, which has to be there. -/
theorem next {f g : Option Token → Eval β} (hnone : ∀ w a w', f none w ≠ (.ok a, w'))
    (h : ∀ t, Extends suffix (n - 1) last (f (some t)) (g (some t))) :
    Extends suffix n last (Eval.next? >>= f) (Eval.next? >>= g) := by
  intro w a w' hn hf
  cases hrest : w.cursor.rest with
  | nil =>
    have hnext : Eval.next? w = (.ok w.cursor.peek?, (Eval.next? w).2) := rfl
    rw [bind_of_ok hnext, Cursor.peek?, hrest] at hf
    exact absurd hf (hnone _ a w')
  | cons t rest =>
    have hw : w = w.between w.cursor.passed (t :: rest) := by rw [← hrest]; rfl
    rw [hw, bind_of_ok (Eval.next?_cons t w _ rest)] at hf
    have hlen : (t :: rest).length ≤ n := hrest ▸ hn
    obtain ⟨hfixed, hlast, taken, htaken, hg⟩ := h t _ a w' (Nat.le_sub_of_add_le hlen) hf
    refine ⟨rfl, hlast, t :: taken, congrArg (t :: ·) htaken, fun passed p => ?_⟩
    have hnext : Eval.next? (place w ⟨passed, t :: rest ++ suffix⟩ p) =
        (.ok (some t), w.between (t :: passed) (rest ++ suffix)) := Eval.next?_cons t w passed _
    rw [bind_of_ok hnext, List.reverse_cons, List.append_assoc]
    exact hg (t :: passed) p

theorem name : Extends suffix n (fun _ => n - 1) Eval.name Eval.name := by
  refine next (fun w a w' h => by cases h) fun t => ?_
  cases t with
  | name x => exact pure x
  | _ => exact throw _

/-- Items with commas between them. -/
theorem list {x y : Eval α} (hcomma : suffix.head? ≠ some .comma)
    (h : ∀ n, Extends suffix n (fun _ => n) x y) :
    Extends suffix n (fun _ => n) (Eval.list x) (Eval.list y) := by
  refine bounded (fun _ => rfl) (fun h => h) fun n => ?_
  refine separated (fun _ => accept .comma hcomma) (fun w hw => ?_) h (Nat.le_refl _) (Nat.le_refl _)
  have hhead : w.cursor.rest.head? ≠ some .comma := by
    have hw : w.cursor.rest = [] := hw
    simp [hw]
  exact Eval.accept_of_ne w w.cursor.passed hhead

/-! ### The evaluator -/

theorem bracketed (h : Extends suffix n (fun _ => n - 1) nested nested) :
    Extends suffix n (fun _ => n - 1) (Expression.bracketed nested) (Expression.bracketed nested) := by
  intro w a w' hn hx
  by_cases hdepth : Expression.maxDepth ≤ w.depth
  · rw [Expression.bracketed_of_le nested hdepth] at hx
    cases hx
  · have hlt := Nat.lt_of_not_le hdepth
    cases hin : nested { w with depth := w.depth + 1 } with
    | mk r u =>
      rw [Expression.bracketed_of_lt hlt hin] at hx
      cases hx
      obtain ⟨-, hlast, taken, htaken, hy⟩ := h { w with depth := w.depth + 1 } a u hn hin
      refine ⟨rfl, hlast, taken, htaken, fun passed p => ?_⟩
      exact Expression.bracketed_of_lt (w := w.between passed (w.cursor.rest ++ suffix)) hlt (hy passed p)

/-- The body of a function is a line of its own. -/
theorem inBody (f : UserFunction) (args : List Value) : Extends suffix n (fun _ => n)
    (Expression.inBody nested f args) (Expression.inBody nested f args) :=
  still (fun _ => rfl) (fun _ => rfl) fun _ _ _ => rfl

section

variable (hs : Boundary suffix)

include hs

theorem closing (a : α) : Extends suffix n (fun _ => n)
    (do Eval.expect .rightParen; return a) (do Eval.expect .rightParen; return a) :=
  ((expect .rightParen (hs.ne nofun nofun nofun)).bind fun _ => pure a).weaken

/-- The signs before an operand. -/
theorem signs : Extends suffix n (fun _ => n)
    (Eval.onCursor fun c => (Sign.leading c.rest, c.skip (Sign.leading c.rest).length))
    (Eval.onCursor fun c => (Sign.leading c.rest, c.skip (Sign.leading c.rest).length)) := by
  intro w a w' hn h
  cases h
  have hlen := length_leading_le w.cursor.rest
  refine ⟨rfl, ?_, w.cursor.rest.take (Sign.leading w.cursor.rest).length, ?_, fun passed p => ?_⟩
  · exact Nat.le_trans (by simp [cursor, Cursor.skip]) hn
  · exact (List.take_append_drop ..).symm
  · have hskip : Cursor.skip ⟨passed, w.cursor.rest ++ suffix⟩ (Sign.leading w.cursor.rest).length =
        ⟨(w.cursor.rest.take (Sign.leading w.cursor.rest).length).reverse ++ passed,
          w.cursor.rest.drop (Sign.leading w.cursor.rest).length ++ suffix⟩ := by
      rw [Cursor.skip, List.take_append_of_le_length hlen, List.drop_append_of_le_length hlen]
    rw [Eval.onCursor_apply]
    simp only [cursor, place, leading_append hs, hskip]
    rfl

variable (h : ∀ n, Extends suffix n (fun _ => n - 1) nested nested)

include h

theorem subscripts : Extends suffix n (fun _ => n) (Expression.subscripts nested)
    (Expression.subscripts nested) := by
  refine (accept .leftParen (hs.ne nofun nofun nofun)).bind fun opened => ?_
  cases opened with
  | true =>
    have hindex : ∀ n, Extends suffix n (fun _ => n) (do (← Expression.bracketed nested).asShort)
        (do (← Expression.bracketed nested).asShort) := fun n =>
      ((bracketed (h n)).bind fun v => lift v.asShort).weaken
    exact ((list (hs.ne nofun nofun nofun) hindex).bind fun is => closing hs is).mono
      (Nat.le_refl (n - 1)) fun _ => Nat.sub_le n 1
  | false => exact pure []

theorem subscripted (name : String) : Extends suffix n (fun _ => n)
    (Expression.subscripted nested name) (Expression.subscripted nested name) :=
  (subscripts hs h).bind fun _ => onStore _

theorem arguments : Extends suffix n (fun _ => n) (Expression.arguments nested)
    (Expression.arguments nested) := by
  refine (expect .leftParen (hs.ne nofun nofun nofun)).bind fun _ => ?_
  have hargs : ∀ n, Extends suffix n (fun _ => n) (Expression.bracketed nested)
      (Expression.bracketed nested) := fun n => (bracketed (h n)).weaken
  exact ((list (hs.ne nofun nofun nofun) hargs).bind fun args => closing hs args).mono
    (Nat.le_refl (n - 1)) fun _ => Nat.sub_le n 1

theorem builtinCall (ctx : Context) (f : Function) : Extends suffix n (fun _ => n)
    (Expression.builtinCall ctx nested f) (Expression.builtinCall ctx nested f) := by
  have hargs : Extends suffix n (fun _ => n) (Expression.builtinArguments nested f)
      (Expression.builtinArguments nested f) := by
    unfold Expression.builtinArguments
    split
    · exact arguments hs h
    · exact pure []
  let finish (args : List Value) (random : Random) : Eval Value := do
    let r ← Builtin.call ctx random f args
    modify ({ · with random := r.2 })
    return r.1
  have hfinish : ∀ args random, Extends suffix n (fun _ => n) (finish args random) (finish args random) :=
    fun args random => (lift _).bind fun r => still (fun _ => rfl) (fun _ => rfl) fun _ _ _ => rfl
  exact hargs.bind fun args => view Workspace.random (fun _ _ _ => rfl) (hfinish args)

theorem userCall (ctx : Context) : Extends suffix n (fun _ => n) (Expression.userCall ctx nested)
    (Expression.userCall ctx nested) := by
  refine name.weaken.bind fun fname => ?_
  cases ctx.functions[fname]? with
  | none => exact throw _
  | some f =>
    refine (arguments hs h).bind fun args => (lift _).bind fun _ => (lift _).bind fun _ => ?_
    exact (inBody f args).bind fun v => (lift _).bind fun _ => pure v

theorem atom (ctx : Context) : Extends suffix n (fun _ => n - 1) (Expression.atom ctx nested)
    (Expression.atom ctx nested) := by
  refine next (fun w a w' h => by cases h) fun t => ?_
  cases t with
  | number | string => exact lift _
  | name x =>
    refine (subscripted hs h x).bind fun c => ?_
    exact still (fun _ => rfl) (fun _ => rfl) fun _ _ _ => rfl
  | function f => exact builtinCall hs h ctx f
  | leftParen => exact (bracketed (h _)).weaken.bind fun v => closing hs v
  | word wd =>
    cases wd with
    | FN => exact userCall hs h ctx
    | _ => exact throw _
  | _ => exact throw _

end

section

variable {operandAtom : Eval Value} {k : Nat}

theorem applySigns {extend extend' : Value → Nat → Eval Value}
    (h : ∀ v l, Extends suffix n (fun _ => n) (extend v l) (extend' v l)) (signs : List Sign)
    (v : Value) : Extends suffix n (fun _ => n) (Expression.applySigns extend signs v)
      (Expression.applySigns extend' signs v) := by
  induction signs generalizing v with
  | nil => exact pure v
  | cons s signs ih => exact (h v s.level).bind fun v => (lift _).bind fun v => ih v

variable (hs : Boundary suffix)

include hs

theorem operand (ha : Extends suffix n (fun _ => k) operandAtom operandAtom)
    {extend extend' : Value → Nat → Eval Value}
    (h : ∀ v l, Extends suffix k (fun _ => k) (extend v l) (extend' v l)) :
    Extends suffix n (fun _ => k) (Expression.operand operandAtom extend)
      (Expression.operand operandAtom extend') :=
  (signs hs).bind fun _ => ha.bind fun v => applySigns h _ v

variable (ha : ∀ n, Extends suffix n (fun _ => n - 1) operandAtom operandAtom)

include ha

theorem climb {m m' : Nat} (hm : n ≤ m) (hm' : n + suffix.length ≤ m') (v : Value) (least : Nat) :
    Extends suffix n (fun _ => n) (Expression.climb operandAtom m v least)
      (Expression.climb operandAtom m' v least) := by
  induction n generalizing m m' v least with
  | zero =>
    refine at_end (fun w hw => Expression.climb_of_none ?_ m v) fun w passed p hw =>
      Expression.climb_of_none ((nextOperator?_append hs least ⟨passed, []⟩ passed).trans rfl) m' v
    have hcursor : w.cursor = ⟨w.cursor.passed, []⟩ := congrArg (Cursor.mk w.cursor.passed) hw
    rw [hcursor]
    rfl
  | succ n ih =>
    obtain ⟨m, rfl⟩ : ∃ k, m = k + 1 := ⟨m - 1, by omega⟩
    obtain ⟨m', rfl⟩ : ∃ k, m' = k + 1 := ⟨m' - 1, by omega⟩
    have hm : n ≤ m := by omega
    have hm' : n + suffix.length ≤ m' := by omega
    have ih := ih hm hm'
    intro w a w' hn h
    cases hop : Expression.nextOperator? least w.cursor with
    | none =>
      rw [Expression.climb_of_none hop] at h
      cases h
      refine ⟨rfl, hn, [], rfl, fun passed p => Expression.climb_of_none ?_ (m' + 1) v⟩
      exact (nextOperator?_append hs least w.cursor passed).trans hop
    | some r =>
      obtain ⟨o, level⟩ := r
      obtain ⟨⟨before, rest⟩, store, random, depth⟩ := w
      cases rest with
      | nil => cases hop
      | cons t rest =>
        rw [Expression.climb_of_some hop] at h
        have hbody := (operand hs (ha n).weaken ih).bind fun right =>
          (ih right (o.rightLevel level)).bind fun right =>
            (lift (Value.binary o v right)).bind fun v => ih v least
        obtain ⟨-, hlast, taken, htaken, hy⟩ :=
          hbody ⟨⟨t :: before, rest⟩, store, random, depth⟩ a w' (Nat.le_of_succ_le_succ hn) h
        refine ⟨rfl, Nat.le_succ_of_le hlast, t :: taken, congrArg (t :: ·) htaken, fun passed p => ?_⟩
        rw [Expression.climb_of_some ((nextOperator?_append hs least _ passed).trans hop),
          List.reverse_cons, List.append_assoc]
        exact hy (t :: passed) p

theorem atLevel (least : Nat) : Extends suffix n (fun _ => n - 1)
    (Expression.atLevel operandAtom least) (Expression.atLevel operandAtom least) := by
  refine bounded (fun _ => rfl) (fun h => Nat.sub_le_sub_right h 1) fun n => ?_
  have hclimb : ∀ v least, Extends suffix (n - 1) (fun _ => n - 1)
      (Expression.climb operandAtom n v least)
      (Expression.climb operandAtom (n + suffix.length) v least) :=
    climb hs ha (Nat.sub_le n 1) (Nat.add_le_add_right (Nat.sub_le n 1) _)
  exact (operand hs (ha n) hclimb).bind fun v => hclimb v least

end

theorem within (hs : Boundary suffix) (ctx : Context) (levels least : Nat) :
    Extends suffix n (fun _ => n - 1) (Expression.within ctx levels least)
      (Expression.within ctx levels least) := by
  induction levels generalizing n least with
  | zero => exact atLevel hs (fun _ => atom hs (fun _ => throw _) ctx) least
  | succ levels ih => exact atLevel hs (fun _ => atom hs (fun _ => ih 1) ctx) least

theorem evaluate (hs : Boundary suffix) (ctx : Context) : Extends suffix n (fun _ => n - 1)
    (Expression.evaluate ctx) (Expression.evaluate ctx) :=
  view Workspace.depth (fun _ _ _ => rfl) fun depth => within hs ctx (Expression.maxDepth - depth) 1

end Extends

end LineBasic
