import LineBasic.Expression.Evaluation
import LineBasic.Proofs.Expression.Run
import LineBasic.Proofs.Number.Spelling
import LineBasic.Proofs.Program.RoundTrip

/-! Numeric literals. Which texts are literals is said by `IsNumeral`, without the scanner; the scanner
takes the longest one where it stands, and refuses a text only for one of three reasons. So every number in
a line is a literal that has a value, be it one that is too large. -/

namespace LineBasic.Lexer

open Text Numeral

/-! ### The mantissa at the front of a text -/

/-- A mantissa at the front of a text that goes as far as it can. -/
structure Front (s : List Char) (m : Mantissa) (rest : List Char) : Prop where
  append : m.text ++ rest = s
  isDigit : ∀ c ∈ m.digits, c.isDigit = true
  stops : Stops Char.isDigit rest
  point : m.fraction = none → rest.head? ≠ some '.'

theorem mantissa_front (s : List Char) : Front s (mantissa s).1 (mantissa s).2 := by
  obtain ⟨htext, hdigits⟩ := mantissa_sound s
  refine ⟨htext, hdigits, ?_, ?_⟩
  · unfold mantissa
    dsimp only
    split
    · exact stops_dropWhile _ _
    · exact stops_dropWhile _ _
  · unfold mantissa
    dsimp only
    split
    · rintro ⟨⟩
    · rename_i hpoint
      intro _ hhead
      obtain ⟨rest, hrest⟩ := List.head?_eq_some_iff.mp hhead
      exact hpoint rest hrest

theorem Front.mantissa_eq {s rest : List Char} {m : Mantissa} (h : Front s m rest) :
    mantissa s = (m, rest) := by
  obtain ⟨whole, fraction⟩ := m
  have hw : ∀ c ∈ whole, c.isDigit = true := fun c hc => h.isDigit c (List.mem_append_left _ hc)
  rw [← h.append]
  cases fraction with
  | none =>
    simp only [mantissa, Mantissa.text, takeWhile_run hw h.stops, dropWhile_run hw h.stops]
    split
    · exact absurd rfl (h.point rfl)
    · rfl
  | some ds =>
    have hds : ∀ c ∈ ds, c.isDigit = true := fun c hc => h.isDigit c (List.mem_append_right _ hc)
    have hpoint : Stops Char.isDigit ('.' :: (ds ++ rest)) := stops_cons.mpr (by decide)
    simp only [mantissa, Mantissa.text, List.append_assoc, List.cons_append,
      takeWhile_run hw hpoint, dropWhile_run hw hpoint, takeWhile_run hds h.stops,
      dropWhile_run hds h.stops]

/-- No mantissa at the front of a text is longer than the one taken. -/
theorem mantissa_longest {m : Mantissa} (hm : ∀ c ∈ m.digits, c.isDigit = true) (rest : List Char) :
    m.text.length ≤ (mantissa (m.text ++ rest)).1.text.length := by
  obtain ⟨whole, fraction⟩ := m
  have hw : ∀ c ∈ whole, c.isDigit = true := fun c hc => hm c (List.mem_append_left _ hc)
  cases fraction with
  | none =>
    have htake : (whole ++ rest).takeWhile Char.isDigit = whole ++ rest.takeWhile Char.isDigit :=
      List.takeWhile_append_of_pos hw
    have hle := congrArg List.length htake
    rw [List.length_append] at hle
    unfold mantissa
    dsimp only
    split
    · simp only [Mantissa.text, List.length_append]
      omega
    · simp only [Mantissa.text]
      omega
  | some ds =>
    have hds : ∀ c ∈ ds, c.isDigit = true := fun c hc => hm c (List.mem_append_right _ hc)
    have hpoint : Stops Char.isDigit ('.' :: (ds ++ rest)) := stops_cons.mpr (by decide)
    simp only [mantissa, Mantissa.text, List.append_assoc, List.cons_append,
      takeWhile_run hw hpoint, dropWhile_run hw hpoint, List.takeWhile_append_of_pos hds,
      List.length_append, List.length_cons]
    omega

/-! ### The exponent after it -/

/-- The start of an exponent that is not finished. -/
inductive BrokenExponent : List Char → Prop
  | lineEnd {mark : Char} : mark.toUpper = 'E' → BrokenExponent [mark]
  | noDigit {mark sgn : Char} {rest : List Char} : mark.toUpper = 'E' → (sgn = '+' ∨ sgn = '-') →
      Stops Char.isDigit rest → BrokenExponent (mark :: sgn :: rest)

theorem exponent_longest {s e e' rest : List Char} (h : exponent s = .ok (e, rest))
    (he : IsExponent e') (hpre : e' <+: s) : e'.length ≤ e.length := by
  cases he with
  | none => exact Nat.zero_le _
  | @marked mark sgn digits hmark hsgn hne hdigits =>
    obtain ⟨rest', rfl⟩ := hpre
    obtain ⟨d, ds, rfl⟩ := List.exists_cons_of_ne_nil hne
    have hsign := sign_append hsgn (hdigits d List.mem_cons_self) (ds ++ rest')
    have htake : (d :: (ds ++ rest')).takeWhile Char.isDigit = d :: ds ++ rest'.takeWhile Char.isDigit :=
      List.takeWhile_append_of_pos hdigits
    rw [List.cons_append, List.append_assoc, List.cons_append] at h
    simp only [exponent, hmark, hsign, htake] at h
    simp only [beq_self_eq_true, if_true, List.isEmpty_cons, List.cons_append, Bool.not_false,
      Except.ok.injEq, Prod.mk.injEq] at h
    rw [← h.1]
    simp

theorem exponent_eq_error_iff {s : List Char} {c : Condition} :
    exponent s = .error c ↔ c = malformed ∧ BrokenExponent s := by
  constructor
  · intro h
    unfold exponent at h
    split at h
    · cases h
    · rename_i mark tail
      obtain ⟨hsgn, hsplit⟩ := sign_sound tail
      dsimp only at h
      split at h
      · rename_i hmark
        rw [beq_iff_eq] at hmark
        split at h
        · cases h
        · rename_i hdigits
          have hstop : Stops Char.isDigit (sign tail).2 := by
            have hnil : (sign tail).2.takeWhile Char.isDigit = [] := by simpa using hdigits
            have hdrop := List.takeWhile_append_dropWhile (p := Char.isDigit) (l := (sign tail).2)
            rw [hnil, List.nil_append] at hdrop
            rw [← hdrop]
            exact stops_dropWhile _ _
          split at h
          · rename_i hend
            cases h
            refine ⟨rfl, ?_⟩
            rw [← hsplit]
            rcases hsgn with hsgn | hsgn | hsgn
            · have htail : (sign tail).2 = [] := by simpa [hsgn] using hend
              rw [hsgn, htail]
              exact .lineEnd hmark
            · rw [hsgn]
              exact .noDigit hmark (.inl rfl) hstop
            · rw [hsgn]
              exact .noDigit hmark (.inr rfl) hstop
          · cases h
      · cases h
  · rintro ⟨rfl, hs⟩
    cases hs with
    | lineEnd hmark => simp [exponent, hmark, sign]
    | noDigit hmark hsgn hstop =>
      rcases hsgn with rfl | rfl <;> simp [exponent, hmark, sign, hstop.takeWhile]

/-! ### Literals -/

/-- The literal that is taken from the front of a text is the longest there. -/
structure Takes (s text rest : List Char) : Prop where
  isNumeral : IsNumeral text
  append : text ++ rest = s
  longest : ∀ t, IsNumeral t → t <+: s → t.length ≤ text.length

/-- A text at whose front no literal can be taken: there is no digit, or a second point follows the
mantissa, or an exponent that is not finished. -/
def Malformed (s : List Char) : Prop :=
  ∃ m rest, Front s m rest ∧ (m.digits = [] ∨ rest.head? = some '.' ∨ BrokenExponent rest)

theorem numeral_eq_ok {s text rest : List Char} (h : numeral s = .ok (text, rest)) :
    ∃ m r e, mantissa s = (m, r) ∧ exponent r = .ok (e, rest) ∧ text = m.text ++ e := by
  unfold numeral at h
  dsimp only at h
  split at h
  · cases h
  · split at h
    · rename_i e r he
      cases h
      exact ⟨_, _, _, rfl, he, rfl⟩
    · cases h

theorem numeral_takes {s text rest : List Char} (h : numeral s = .ok (text, rest)) :
    Takes s text rest := by
  obtain ⟨hnum, htext⟩ := numeral_sound h
  refine ⟨hnum, htext, ?_⟩
  obtain ⟨m, r, e, hmantissa, hexponent, rfl⟩ := numeral_eq_ok h
  rintro _ ⟨m', e', hm', he', rfl⟩ ⟨u, rfl⟩
  rw [List.length_append, List.length_append]
  rw [List.append_assoc] at hmantissa
  -- an exponent tells where its mantissa ends; without one, the mantissa may be a part of a longer one
  cases he' with
  | none =>
    have hle := mantissa_longest hm'.isDigit u
    rw [List.nil_append] at hmantissa
    rw [hmantissa] at hle
    exact Nat.add_le_add hle (Nat.zero_le _)
  | @marked mark sgn digits hmark hsgn hne hdigits =>
    have he : IsExponent (mark :: (sgn ++ digits)) := .marked hmark hsgn hne hdigits
    have hstop : Stops (fun c => c.isDigit || c == '.') (mark :: (sgn ++ digits) ++ u) :=
      stops_cons.mpr (stops_cons.mp (he.stops (stops_nil extendsNumeral)))
    rw [mantissa_append hm'.isDigit hstop, Prod.mk.injEq] at hmantissa
    obtain ⟨rfl, rfl⟩ := hmantissa
    exact Nat.add_le_add_left (exponent_longest hexponent he (List.prefix_append ..)) _

theorem numeral_eq_error_iff {s : List Char} {c : Condition} :
    numeral s = .error c ↔ c = malformed ∧ Malformed s := by
  have hfront := mantissa_front s
  have hunique : Malformed s ↔ (mantissa s).1.digits = [] ∨ (mantissa s).2.head? = some '.' ∨
      BrokenExponent (mantissa s).2 := by
    constructor
    · rintro ⟨m, rest, h, hbad⟩
      rwa [h.mantissa_eq]
    · intro hbad
      exact ⟨_, _, hfront, hbad⟩
  rw [hunique, numeral]
  dsimp only
  split
  · rename_i hc
    simp only [Bool.or_eq_true, List.isEmpty_iff, beq_iff_eq] at hc
    rw [Except.error.injEq, eq_comm, and_iff_left]
    rcases hc with hc | hc
    · exact .inl hc
    · exact .inr (.inl hc)
  · rename_i hc
    simp only [Bool.or_eq_true, List.isEmpty_iff, beq_iff_eq, not_or] at hc
    simp only [hc.1, hc.2, false_or, ← exponent_eq_error_iff]
    split
    · rename_i he
      rw [he]
      exact iff_of_false (by simp) (by simp)
    · rename_i he
      rw [he]

/-! ### Literals in a line -/

/-- Every number in a line is a literal in capitals. -/
theorem Lexed.isNumeral {ts : List Token} (h : Lexed ts) {x : String} (hx : .number x ∈ ts) :
    IsNumeral x.toList ∧ x.toList.map Char.toUpper = x.toList := by
  induction h with
  | nil => cases hx
  | plain ht _ ih =>
    rcases List.mem_cons.mp hx with rfl | hx
    · exact ht
    · exact ih hx
  | remark htail => cases htail <;> simp at hx
  | data hitems _ _ ih =>
    rcases List.mem_cons.mp hx with hx | hx
    · cases hx
    · rcases List.mem_append.mp hx with hx | hx
      · simpa using hitems.mem_cases hx
      · exact ih hx

theorem tokens_numeral {g : List Char} (hg : IsNumeral g) :
    tokens g = .ok [.number (upper g)] := by
  obtain ⟨c, s, rfl, hc⟩ := hg.head
  have hlex := lexeme_numeral hg (stops_nil extendsNumeral)
  rw [List.append_nil] at hlex
  rw [tokens_of_lexeme (not_isSpace_of_numeral hc) hlex, tokens_nil]
  rfl

theorem ofText_print {g : List Char} (hg : IsNumeral g) :
    Line.ofText ("PRINT " ++ String.ofList g) =
      .ok ⟨none, [.word .PRINT, .number (upper g)]⟩ := by
  have htext : ("PRINT " ++ String.ofList g).toList = "PRINT ".toList ++ g := by simp
  have hend := Line.dropEndWhile_of_endsClean (s := "PRINT ".toList) hg.endsClean
    (stops_cons.mpr (by decide))
  have hcloses : Closes (.word .PRINT) (' ' :: g) := by
    simp only [Closes, List.head?_cons, Option.mem_def, Option.some.injEq]
    rintro c rfl
    decide +kernel
  have hprint := tokens_plain (t := .word .PRINT) ⟨by decide, by decide⟩ hcloses
  have hspace : tokens (' ' :: g) = tokens g := by
    rw [tokens_eq, tokens_eq g]
    rfl
  rw [Line.ofText_eq, htext, hend]
  have hnumber : lineNumber (("PRINT ".toList ++ g).dropWhile isSpace) =
      .ok (none, (Token.word .PRINT).text.toList ++ ' ' :: g) :=
    Line.lineNumber_of_stops (stops_cons.mpr (by decide))
  rw [hnumber]
  simp only [Except.bind]
  rw [hprint, hspace, tokens_numeral hg]
  rfl

end LineBasic.Lexer

namespace LineBasic.Expression

open Lexer

/-- A literal has a value, or it is too large. -/
theorem literal_of_isNumeral {x : String} (hx : IsNumeral x.toList) :
    (∃ v, literal x = .ok (.number v)) ∨ literal x = .error (.of .overflow) := by
  have hdecimal : Numeral.IsDecimal x.toList := ⟨[], x.toList, .inl rfl, hx, rfl⟩
  obtain ⟨n, hn⟩ := Numeral.isDecimal_iff.mp hdecimal
  rw [literal, Numeral.ofChars?_eq_some_iff.mpr hn]
  dsimp only
  split
  · exact .inl ⟨_, rfl⟩
  · exact .inr rfl

theorem atom_of_number (ctx : Context) (nested : Eval Value) {w : Workspace} {x : String}
    (hw : w.cursor.peek? = some (.number x)) : (atom ctx nested w).1 = literal x := by
  have hnext : Eval.next? w = (.ok (some (.number x)), (Eval.next? w).2) := by
    rw [← hw]
    rfl
  rw [atom, bind_of_ok hnext]
  rfl

end LineBasic.Expression

namespace LineBasic.Lexer

/-- The numbers in lines are the literals, in capitals, and each has a value or is too large; every
literal is read as a number; and the scanner takes the longest literal at its place, or refuses a text
that is malformed there. -/
theorem literals_exact :
    (∀ s l x, Line.ofText s = .ok l → .number x ∈ l.tokens →
      (∃ g, IsNumeral g ∧ x = upper g) ∧
      ∀ ctx nested w, w.cursor.peek? = some (.number x) →
        (∃ v, (Expression.atom ctx nested w).1 = .ok (.number v)) ∨
          (Expression.atom ctx nested w).1 = .error (.of .overflow)) ∧
    (∀ g, IsNumeral g → Line.ofText ("PRINT " ++ String.ofList g) =
      .ok ⟨none, [.word .PRINT, .number (upper g)]⟩) ∧
    (∀ s text rest, numeral s = .ok (text, rest) → Takes s text rest) ∧
    ∀ s, (∃ c, numeral s = .error c) ↔ Malformed s := by
  refine ⟨?_, fun g => ofText_print, fun s text rest => numeral_takes, fun s => ?_⟩
  · intro s l x hl hx
    obtain ⟨hnum, hupper⟩ := (Line.lexed_of_ofText hl).1.isNumeral hx
    refine ⟨⟨x.toList, hnum, ?_⟩, ?_⟩
    · rw [upper, hupper, String.ofList_toList]
    · intro ctx nested w hw
      rw [Expression.atom_of_number ctx nested hw]
      exact Expression.literal_of_isNumeral hnum
  · constructor
    · rintro ⟨c, hc⟩
      exact (numeral_eq_error_iff.mp hc).2
    · intro hs
      exact ⟨malformed, numeral_eq_error_iff.mpr ⟨rfl, hs⟩⟩

/-- A mark that starts an exponent and one that starts a word, a literal that only starts with a point,
and one text for each way to be malformed. -/
theorem literals_exact_marks :
    Line.ofText "10 ?1.5e-3ELSE.5" = .ok ⟨some 10,
      [.word .PRINT, .number "1.5E-3", .word .ELSE, .number ".5"]⟩ ∧
    (∃ g, IsNumeral g ∧ "1.5E-3" = upper g) ∧
    (∀ ctx nested, let w : Workspace := { cursor := ⟨[.word .PRINT], [.number "1.5E-3"]⟩ }
      (∃ v, (Expression.atom ctx nested w).1 = .ok (.number v)) ∨
        (Expression.atom ctx nested w).1 = .error (.of .overflow)) ∧
    IsNumeral "1.5e-3".toList ∧
    Line.ofText ("PRINT " ++ String.ofList "1.5e-3".toList) =
      .ok ⟨none, [.word .PRINT, .number "1.5E-3"]⟩ ∧
    numeral "1.5e-3ELSE.5".toList = .ok ("1.5e-3".toList, "ELSE.5".toList) ∧
    Takes "1.5e-3ELSE.5".toList "1.5e-3".toList "ELSE.5".toList ∧
    ∀ s ∈ [".E5", "1.2.3", "1E+", "1e"], Malformed s.toList := by
  obtain ⟨hline, hprint, htakes, hmalformed⟩ := literals_exact
  have htext : Line.ofText "10 ?1.5e-3ELSE.5" = .ok ⟨some 10,
      [.word .PRINT, .number "1.5E-3", .word .ELSE, .number ".5"]⟩ := by decide +kernel
  have htake : numeral "1.5e-3ELSE.5".toList = .ok ("1.5e-3".toList, "ELSE.5".toList) := by
    decide +kernel
  have hread := hline _ _ "1.5E-3" htext (by decide)
  refine ⟨htext, hread.1, fun ctx nested => hread.2 ctx nested _ rfl, (htakes _ _ _ htake).isNumeral,
    hprint _ (htakes _ _ _ htake).isNumeral, htake, htakes _ _ _ htake, ?_⟩
  intro s hs
  refine (hmalformed s.toList).mp ⟨malformed, ?_⟩
  revert s
  decide +kernel

end LineBasic.Lexer
