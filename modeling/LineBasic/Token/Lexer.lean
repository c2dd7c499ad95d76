import LineBasic.Number.Numeral
import LineBasic.Token.Keyword

/-! From the characters of a line to its tokens. Keywords are found anywhere, also inside a run of
letters that starts with one, and the longest spelling wins. Each scanner takes a lexeme from the
front of the text and gives back what is left of it, which is shorter; that ends the loop. -/

namespace LineBasic.Lexer

open Text

def upper (s : List Char) : String := String.ofList (s.map Char.toUpper)

/-! ### Numerals -/

def malformed : Condition := .of .syntaxError "MALFORMED NUMBER"

/-- The exponent at the front of `s`, or nothing. A mark that a sign or the end of the text follows
is an exponent left unfinished; before anything else it is the start of a word. -/
def exponent (s : List Char) : Except Condition (List Char × List Char) :=
  match s with
  | [] => .ok ([], [])
  | mark :: rest =>
    if mark.toUpper == 'E' then
      let (sgn, rest) := Numeral.sign rest
      let digits := rest.takeWhile Char.isDigit
      if !digits.isEmpty then .ok (mark :: sgn ++ digits, rest.dropWhile Char.isDigit)
      else if !sgn.isEmpty || rest.isEmpty then .error malformed
      else .ok ([], s)
    else .ok ([], s)

def numeral (s : List Char) : Except Condition (List Char × List Char) :=
  let (m, rest) := Numeral.mantissa s
  if m.digits.isEmpty || rest.head? == some '.' then .error malformed
  else match exponent rest with
    | .ok (e, rest) => .ok (m.text ++ e, rest)
    | .error c => .error c

/-! ### Quoted text, names and verbatim text -/

/-- The text after an opening quote, up to the closing one, which the end of the line may replace. -/
def quoted (s : List Char) : List Char × List Char :=
  (s.takeWhile (· != '"'), (s.dropWhile (· != '"')).drop 1)

/-- Letters and digits, and a dollar sign that marks the name of a string. -/
def name (s : List Char) : List Char × List Char :=
  let body := s.takeWhile Char.isAlphanum
  match s.dropWhile Char.isAlphanum with
  | '$' :: rest => (body ++ ['$'], rest)
  | rest => (body, rest)

/-- The tail of a remark. Blanks at its end are not part of it, and a blank tail is no token. -/
def remark (s : List Char) : List Token :=
  let body := trimEnd s
  if body.isEmpty then [] else [.verbatim (String.ofList body)]

/-- What ends an item of a `DATA` list. -/
def endsItem (c : Char) : Bool := c == ',' || c == ':'

/-- Quoted text at the front of an item, as a token, and the text after it. -/
def dataQuoted (s : List Char) : List Token × List Char :=
  match s.dropWhile isSpace with
  | '"' :: rest => ([.string (String.ofList (quoted rest).1)], (quoted rest).2)
  | _ => ([], s)

/-- One item of a `DATA` list, kept as written: quoted text, other text up to the end of the item, or
both. At the end of the line the blanks after the item are dropped, and after quoted text a blank
rest is never kept. -/
def dataItem (s : List Char) : List Token × List Char :=
  let (opening, text) := dataQuoted s
  let rest := text.dropWhile (!endsItem ·)
  let written := text.takeWhile (!endsItem ·)
  let body := if rest.isEmpty then trimEnd written else written
  let dropped := if opening.isEmpty then body.isEmpty else body.all isBlank
  (opening ++ if dropped then [] else [.verbatim (String.ofList body)], rest)

theorem quoted_length_le (s : List Char) : (quoted s).2.length ≤ s.length := by
  have h := (List.dropWhile_suffix (l := s) (· != '"')).length_le
  simp only [quoted, List.length_drop]
  omega

theorem dataItem_length_le (s : List Char) : (dataItem s).2.length ≤ s.length := by
  have hs := (List.dropWhile_suffix (l := s) isSpace).length_le
  have hd : ∀ t : List Char, (t.dropWhile (!endsItem ·)).length ≤ t.length :=
    fun t => (List.dropWhile_suffix _).length_le
  simp only [dataItem, dataQuoted]
  split
  · rename_i r h
    have hq := quoted_length_le r
    have := hd (quoted r).2
    simp only [h, List.length_cons] at hs
    dsimp only
    omega
  · exact hd s

/-- The items of a `DATA` list with the commas between them. The colon that ends the list is left. -/
def dataItems (s : List Char) : List Token × List Char :=
  match _h : dataItem s with
  | (item, ',' :: rest) =>
    let more := dataItems rest
    (item ++ .comma :: more.1, more.2)
  | (item, rest) => (item, rest)
termination_by s.length
decreasing_by
  have := dataItem_length_le s
  simp only [_h, List.length_cons] at this
  omega

theorem dataItems_length_le (s : List Char) : (dataItems s).2.length ≤ s.length := by
  fun_induction dataItems s with
  | case1 s item rest h more ih =>
    have := dataItem_length_le s
    simp only [h, List.length_cons] at this
    exact Nat.le_trans ih (by omega)
  | case2 s item rest h _ =>
    have := dataItem_length_le s
    simp_all

/-! ### One lexeme, and all of them -/

/-- The lexeme at the front of a text that does not start with a space: the tokens it stands for,
more than one for a remark or a `DATA` list, and the text after it. -/
def lexeme (c : Char) (rest : List Char) : Except Condition (List Token × List Char) :=
  if c == '"' then .ok ([.string (String.ofList (quoted rest).1)], (quoted rest).2)
  else if c.isDigit || c == '.' then
    match numeral (c :: rest) with
    | .ok (text, rest) => .ok ([.number (upper text)], rest)
    | .error e => .error e
  else match Keyword.longest? (c :: rest) with
    | some (n, .word .REM) => .ok (.word .REM :: remark ((c :: rest).drop n), [])
    | some (n, .word .DATA) =>
      let (items, rest) := dataItems ((c :: rest).drop n)
      .ok (.word .DATA :: items, rest)
    | some (n, t) => .ok ([t], (c :: rest).drop n)
    | none =>
      if c.isAlpha then
        let (text, rest) := name (c :: rest)
        .ok ([.name (upper text)], rest)
      else .error (.of .syntaxError "UNKNOWN CHARACTER")

theorem sign_length_le (s : List Char) : (Numeral.sign s).2.length ≤ s.length := by
  unfold Numeral.sign
  split <;> simp

theorem exponent_length_le {s e rest : List Char} (h : exponent s = .ok (e, rest)) :
    rest.length ≤ s.length := by
  unfold exponent at h
  split at h
  · simp_all
  · rename_i mark tail
    have hs := sign_length_le tail
    have hd := (List.dropWhile_suffix (l := (Numeral.sign tail).2) Char.isDigit).length_le
    simp only at h
    split at h
    · split at h
      · simp only [Except.ok.injEq, Prod.mk.injEq] at h
        simp only [← h.2, List.length_cons]
        omega
      · split at h <;> simp_all
    · simp_all

theorem numeral_length_lt {s text rest : List Char} (h : numeral s = .ok (text, rest)) :
    rest.length < s.length := by
  have hm := Numeral.mantissa_length s
  unfold numeral at h
  simp only at h
  split at h
  · contradiction
  · rename_i hc
    have hd : (Numeral.mantissa s).1.digits ≠ [] := by
      intro hn
      simp [hn] at hc
    have hpos := List.length_pos_iff.mpr (Numeral.Mantissa.text_ne_nil hd)
    split at h
    · rename_i e r he
      have := exponent_length_le he
      simp only [Except.ok.injEq, Prod.mk.injEq] at h
      obtain ⟨_, rfl⟩ := h
      omega
    · contradiction

theorem name_length_lt {c : Char} {s : List Char} (h : c.isAlpha = true) :
    (name (c :: s)).2.length < (c :: s).length := by
  have ha : c.isAlphanum = true := by simp [Char.isAlphanum, h]
  have hd := (List.dropWhile_suffix (l := s) Char.isAlphanum).length_le
  simp only [name, List.dropWhile_cons, ha, if_true]
  split
  · rename_i rest hr
    simp only [hr, List.length_cons] at hd ⊢
    omega
  · simp only [List.length_cons]
    omega

theorem lexeme_length_lt {c : Char} {s rest : List Char} {ts : List Token}
    (h : lexeme c s = .ok (ts, rest)) : rest.length < (c :: s).length := by
  unfold lexeme at h
  split at h
  · have := quoted_length_le s
    simp only [Except.ok.injEq, Prod.mk.injEq] at h
    simp only [← h.2, List.length_cons]
    omega
  · split at h
    · split at h
      · rename_i text r hn
        have := numeral_length_lt hn
        simp only [Except.ok.injEq, Prod.mk.injEq] at h
        rwa [← h.2]
      · contradiction
    · split at h
      · simp only [Except.ok.injEq, Prod.mk.injEq] at h
        simp [← h.2]
      · rename_i n hk
        have hn := Keyword.longest?_pos hk
        have := dataItems_length_le ((c :: s).drop n)
        simp only [Except.ok.injEq, Prod.mk.injEq] at h
        rw [← h.2]
        simp only [List.length_drop, List.length_cons] at this ⊢
        omega
      · rename_i n t _ _ hk
        have hn := Keyword.longest?_pos hk
        simp only [Except.ok.injEq, Prod.mk.injEq] at h
        rw [← h.2]
        simp only [List.length_drop, List.length_cons]
        omega
      · split at h
        · rename_i ha
          have := name_length_lt (s := s) ha
          simp only [Except.ok.injEq, Prod.mk.injEq] at h
          rwa [← h.2]
        · contradiction

/-- The tokens of a text. Spaces and tabs between the lexemes are skipped. -/
def tokens (s : List Char) : Except Condition (List Token) :=
  match _h : s.dropWhile isSpace with
  | [] => .ok []
  | c :: rest =>
    match _hl : lexeme c rest with
    | .error e => .error e
    | .ok (ts, rest) =>
      match tokens rest with
      | .error e => .error e
      | .ok more => .ok (ts ++ more)
termination_by s.length
decreasing_by
  have hs := (List.dropWhile_suffix (l := s) isSpace).length_le
  have hl := lexeme_length_lt _hl
  rw [_h] at hs
  omega

/-- A line number at the front of `s`, or nothing. -/
def lineNumber (s : List Char) : Except Condition (Option Nat × List Char) :=
  let digits := s.takeWhile Char.isDigit
  if digits.isEmpty then .ok (none, s)
  else match Token.lineNumberOfDigits? digits with
    | some n => .ok (some n, s.dropWhile Char.isDigit)
    | none => .error (.of .syntaxError "INVALID LINE NUMBER")

/-- A typed line without its line end: the number it starts with, if any, and its tokens. -/
def line (s : List Char) : Except Condition (Option Nat × List Token) := do
  let s := dropEndWhile (fun c => c == '\n' || c == '\r') s
  let (number, rest) ← lineNumber (s.dropWhile isSpace)
  return (number, ← tokens rest)

end LineBasic.Lexer
