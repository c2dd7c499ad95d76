import LineBasic.Proofs.Expression.Run

/-! Which conditions the parts of the evaluator raise by themselves. None of them finds an expression too
complex: whatever an operator, a function or a variable refuses, it is not the number of open brackets. And
none of them is a break. -/

namespace LineBasic

/-- No condition, or one that is neither about the number of open brackets nor a break. -/
def Mild {α : Type} (r : Except Condition α) : Prop :=
  ∀ c, r = .error c → c.fault ≠ .formulaTooComplex ∧ c.fault ≠ .interrupted

namespace Mild

variable {α β : Type}

theorem ok (a : α) : Mild (.ok a) := nofun

theorem error {c : Condition} (h : c.fault ≠ .formulaTooComplex ∧ c.fault ≠ .interrupted) :
    Mild (.error c : Except Condition α) := by
  intro c' hc'
  cases hc'
  exact h

theorem bind {x : Except Condition α} {f : α → Except Condition β} (hx : Mild x) (hf : ∀ a, Mild (f a)) :
    Mild (x >>= f) := by
  cases x with
  | error c => exact error (hx c rfl)
  | ok a => exact hf a

theorem map {x : Except Condition α} (hx : Mild x) (f : α → β) : Mild (x.map f) := by
  cases x with
  | error c => exact error (hx c rfl)
  | ok a => exact ok _

theorem require {b : Bool} {c : Condition} (h : c.fault ≠ .formulaTooComplex ∧ c.fault ≠ .interrupted) :
    Mild (LineBasic.require b c) := by
  cases b with
  | true => exact ok _
  | false => exact error h

end Mild

namespace Value

theorem mild_asNumber (v : Value) : Mild v.asNumber := by
  cases v with
  | number x => exact .ok x
  | string s => exact .error (by decide)

theorem mild_asString (v : Value) : Mild v.asString := by
  cases v with
  | number x => exact .error (by decide)
  | string s => exact .ok s

theorem mild_asShort (v : Value) : Mild v.asShort := by
  refine v.mild_asNumber.bind fun x => ?_
  split
  · exact .ok _
  · exact .error (by decide)

theorem mild_ofString (s : String) : Mild (ofString s) := by
  unfold ofString
  split
  · exact .ok _
  · exact .error (by decide)

/-! ### Operators -/

theorem mild_arithmetic {f : Float → Float → Except Condition Float} (hf : ∀ x y, Mild (f x y))
    (l r : Value) : Mild (arithmetic f l r) := by
  unfold arithmetic
  split
  · exact (hf _ _).bind fun _ => (Mild.require (by decide)).bind fun _ => .ok _
  · exact .error (by decide)

theorem mild_add (l r : Value) : Mild (add l r) := by
  unfold add
  split
  · exact mild_ofString _
  · exact mild_arithmetic (fun _ _ => .ok _) _ _

theorem mild_divide (x y : Float) : Mild (divide x y) := by
  unfold divide
  split
  · exact .error (by decide)
  · exact .ok _

theorem mild_raise (x y : Float) : Mild (raise x y) := by
  unfold raise
  dsimp only
  split
  · exact .error (by decide)
  · exact .ok _

theorem mild_order (l r : Value) : Mild (order l r) := by
  unfold order
  split
  · split
    · exact .ok _
    · split
      · exact .ok _
      · split
        · exact .ok _
        · exact .error (by decide)
  · exact .ok _
  · exact .error (by decide)

theorem mild_relate (holds : Ordering → Bool) (l r : Value) : Mild (relate holds l r) :=
  (mild_order l r).bind fun _ => .ok _

theorem mild_bitwise (f : Int16 → Int16 → Int16) (l r : Value) : Mild (bitwise f l r) :=
  l.mild_asShort.bind fun _ => r.mild_asShort.bind fun _ => .ok _

theorem mild_binary (o : Operator) (l r : Value) : Mild (binary o l r) := by
  cases o with
  | plus => exact mild_add l r
  | minus | times => exact mild_arithmetic (fun _ _ => .ok _) l r
  | divide => exact mild_arithmetic mild_divide l r
  | power => exact mild_arithmetic mild_raise l r
  | equal | notEqual | less | lessEqual | greater | greaterEqual => exact mild_relate _ l r
  | and | or => exact mild_bitwise _ l r
  | not => exact .error (by decide)

end Value

theorem Sign.mild_apply (s : Sign) (v : Value) : Mild (s.apply v) := by
  cases s with
  | plus => exact v.mild_asNumber.bind fun _ => .ok _
  | minus =>
    cases v with
    | number x => exact .ok _
    | string t => exact .error (by decide)
  | not => exact v.mild_asShort.bind fun _ => .ok _

namespace Builtin

/-! ### Functions -/

theorem mild_sole (args : List Value) : Mild (sole args) := by
  unfold sole
  split
  · exact .ok _
  · exact .error (by decide)

theorem mild_number (args : List Value) : Mild (number args) :=
  (mild_sole args).bind fun v => v.mild_asNumber

theorem mild_string (args : List Value) : Mild (string args) :=
  (mild_sole args).bind fun v => v.mild_asString

theorem mild_length (least : Nat) (v : Value) : Mild (length least v) :=
  v.mild_asShort.bind fun _ => (Mild.require (by decide)).bind fun _ => .ok _

theorem mild_leadingLength (args : List Value) : Mild (leadingLength args) := by
  cases args with
  | nil => exact .error (by decide)
  | cons v rest => exact (mild_length 0 v).bind fun _ => (Mild.require (by decide)).bind fun _ => .ok _

theorem mild_numeric (f : Float → Float) (args : List Value) : Mild (numeric f args) :=
  (mild_number args).bind fun _ => (Mild.require (by decide)).bind fun _ => .ok _

theorem mild_codePoint (args : List Value) : Mild (codePoint args) := by
  refine (mild_string args).bind fun s => ?_
  split
  · exact .ok _
  · exact .error (by decide)

theorem mild_character (args : List Value) : Mild (character args) :=
  (mild_sole args).bind fun v => v.mild_asShort.bind fun _ => (Mild.require (by decide)).bind fun _ => .ok _

theorem mild_left (args : List Value) : Mild (left args) := by
  unfold left
  split
  · exact (Value.mild_asString _).bind fun _ => (mild_length _ _).bind fun _ => .ok _
  · exact .error (by decide)

theorem mild_right (args : List Value) : Mild (right args) := by
  unfold right
  split
  · exact (Value.mild_asString _).bind fun _ => (mild_length _ _).bind fun _ => .ok _
  · exact .error (by decide)

theorem mild_middle (args : List Value) : Mild (middle args) := by
  unfold middle
  split
  · exact (Value.mild_asString _).bind fun _ => (mild_length _ _).bind fun _ => .ok _
  · exact (Value.mild_asString _).bind fun _ => (mild_length _ _).bind fun _ =>
      (mild_length _ _).bind fun _ => .ok _
  · exact .error (by decide)

theorem mild_call (ctx : Context) (random : Random) (f : Function) (args : List Value) :
    Mild (call ctx random f args) := by
  cases f with
  | ABS | ATN | COS | EXP | INT | SIN | TAN | SGN => exact (mild_numeric _ args).map _
  | LOG | SQR =>
    exact ((mild_number args).bind fun _ => (Mild.require (by decide)).bind fun _ => .ok _).map _
  | RND => exact (mild_number args).bind fun _ => .ok _
  | ASC => exact (mild_codePoint args).map _
  | CHR => exact (mild_character args).map _
  | LEN | VAL => exact ((mild_string args).bind fun _ => .ok _).map _
  | STR => exact ((mild_number args).bind fun _ => Value.mild_ofString _).map _
  | LEFT => exact (mild_left args).map _
  | RIGHT => exact (mild_right args).map _
  | MID => exact (mild_middle args).map _
  | POS => exact ((mild_sole args).bind fun _ => .ok _).map _
  | SPC | TAB => exact ((mild_leadingLength args).bind fun _ => .ok _).map _
  | ERR | ERL => exact .ok _

end Builtin

namespace Store

/-! ### Variables -/

theorem mild_bind (s : Store) (name : String) (b : Binding) : Mild (s.bind name b) := by
  unfold bind
  split
  · exact .ok _
  · exact .error (by decide)

theorem mild_newArray (name : String) (bounds : List Nat) : Mild (newArray name bounds) := by
  unfold newArray
  split
  · exact .ok _
  · exact .error (by decide)

theorem mild_ensure (s : Store) (name : String) (rank : Nat) : Mild (s.ensure name rank) := by
  unfold ensure
  split
  · exact .ok _
  · split
    · exact mild_bind s name _
    · exact (mild_newArray name _).bind fun _ => mild_bind s name _

theorem mild_cellOf (name : String) (indexes : List Int) (b : Option Binding) :
    Mild (cellOf name indexes b) := by
  unfold cellOf
  split
  · split
    · exact .ok _
    · exact .error (by decide)
  · split
    · split
      · exact .ok _
      · exact .error (by decide)
    · exact .error (by decide)
  · exact .error (by decide)

theorem mild_locate (s : Store) (name : String) (indexes : List Int) : Mild (s.locate name indexes).1 := by
  have hensure := mild_ensure s name indexes.length
  unfold locate
  split
  · rename_i e he
    exact .error (hensure e he)
  · exact mild_cellOf _ _ _

end Store

theorem Expression.mild_literal (s : String) : Mild (literal s) := by
  unfold literal
  split
  · split
    · exact .ok _
    · exact .error (by decide)
  · exact .error (by decide)

theorem Cursor.mild_expect (c : Cursor) (t : Token) : Mild (c.expect t).1 := by
  unfold expect
  split
  · exact .ok _
  · exact .error (by decide)

theorem Eval.mild_name (w : Workspace) : Mild (name w).1 := by
  have hnext : next? w = (.ok w.cursor.peek?, (next? w).2) := rfl
  rw [name, bind_of_ok hnext]
  cases w.cursor.peek? with
  | none => exact .error (by decide)
  | some t =>
    cases t with
    | name n => exact .ok n
    | _ => exact .error (by decide)

end LineBasic
