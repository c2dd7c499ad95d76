import LineBasic.Proofs.Program.TokensText

/-! A listed line is read back. The listing of a line that was typed stands for that line exactly when no
two neighbours among its tokens fuse. What was typed apart and fuses is a pair of comparison operators;
all else comes back, be it remarks, data or strings that were never closed. -/

namespace LineBasic

namespace Lexer

open Text

/-! ### The ends of a line -/

/-- A text whose last character is no blank. -/
def EndsClean (s : List Char) : Prop := Stops isBlank s.reverse

theorem stops_append {p : Char → Bool} {s t : List Char} (hs : Stops p s) (ht : Stops p t) :
    Stops p (s ++ t) := by
  cases s with
  | nil => exact ht
  | cons c s => exact stops_cons.mpr (stops_cons.mp hs)

theorem EndsClean.append {s t : List Char} (hs : EndsClean s) (ht : EndsClean t) :
    EndsClean (s ++ t) := by
  rw [EndsClean, List.reverse_append]
  exact stops_append ht hs

/-- What stands before a text that is not empty does not matter. -/
theorem EndsClean.append_cons {c : Char} {t : List Char} (h : EndsClean (c :: t)) (s : List Char) :
    EndsClean (s ++ c :: t) := by
  rw [EndsClean, List.reverse_append]
  cases hr : (c :: t).reverse with
  | nil => simp at hr
  | cons d r =>
    rw [EndsClean, hr] at h
    exact stops_cons.mpr (stops_cons.mp h)

theorem endsClean_of_trimEnd_eq {s : List Char} (h : trimEnd s = s) : EndsClean s := by
  have h := congrArg List.reverse h
  rw [trimEnd, dropEndWhile, List.reverse_reverse] at h
  rw [EndsClean, ← h]
  exact stops_dropWhile _ _

theorem endsClean_of_forall {s : List Char} (h : ∀ c ∈ s, isBlank c = false) : EndsClean s :=
  fun c hc => h c (List.mem_reverse.mp (List.mem_of_mem_head? hc))

theorem not_isBlank_of_isAlphanum {c : Char} (h : c.isAlphanum = true) : isBlank c = false := by
  simp only [Char.isAlphanum, Char.isAlpha, Char.isUpper, Char.isLower, Char.isDigit,
    Bool.or_eq_true, Bool.and_eq_true, decide_eq_true_eq, UInt32.le_iff_toNat_le, ge_iff_le] at h
  have hval : c.toNat = c.val.toNat := rfl
  simp [isBlank, blankRanges]
  simp at h
  omega

theorem keyword_endsClean : ∀ t ∈ Keyword.tokens, t.text.toList.all (!isBlank ·) = true := by
  decide +kernel

theorem IsName.endsClean {s : List Char} (h : IsName s) : EndsClean s := by
  obtain ⟨body, hbody, hs⟩ := h.shape
  have hclean := endsClean_of_forall fun c hc => not_isBlank_of_isAlphanum (hbody c hc)
  rcases hs with rfl | rfl
  · exact hclean
  · exact hclean.append (stops_cons.mpr (by decide))

theorem IsNumeral.endsClean {s : List Char} (h : IsNumeral s) : EndsClean s := by
  obtain ⟨⟨whole, fraction⟩, e, hm, he, rfl⟩ := h
  have hdigits : ∀ {ds : List Char}, (∀ c ∈ ds, c.isDigit = true) → EndsClean ds := by
    intro ds hds
    refine endsClean_of_forall fun c hc => not_isBlank_of_isAlphanum ?_
    simp [Char.isAlphanum, hds c hc]
  have hwhole : EndsClean whole := hdigits fun c hc => hm.isDigit c (List.mem_append_left _ hc)
  have hmantissa : EndsClean (Numeral.Mantissa.mk whole fraction).text := by
    cases fraction with
    | none => exact hwhole
    | some ds =>
      have hds : EndsClean ds := hdigits fun c hc => hm.isDigit c (List.mem_append_right _ hc)
      exact hwhole.append (EndsClean.append (s := ['.']) (stops_cons.mpr (by decide)) hds)
  refine hmantissa.append ?_
  cases he with
  | none => exact stops_nil _
  | @marked mark sgn digits _ _ hne hd =>
    obtain ⟨d, ds, rfl⟩ := List.exists_cons_of_ne_nil hne
    exact (hdigits hd).append_cons (mark :: sgn)

theorem Plain.endsClean {t : Token} (ht : Plain t) : EndsClean t.text.toList := by
  rcases mem_tokens ht with hmem | ⟨s, rfl⟩ | ⟨s, rfl⟩ | ⟨s, rfl⟩
  · refine endsClean_of_forall fun c hc => ?_
    simpa using List.all_eq_true.mp (keyword_endsClean t hmem) c hc
  · exact IsName.endsClean ht
  · exact ht.1.endsClean
  · have htext : (Token.string s).text.toList = ('"' :: s.toList) ++ ['"'] := by simp [Token.text]
    rw [htext]
    exact EndsClean.append_cons (t := []) (stops_cons.mpr (by decide)) _

theorem IsItem.endsClean {item : List Token} (h : IsItem true item) (b : Token) :
    EndsClean (Line.tailText b item).toList := by
  cases h with
  | empty => exact stops_nil _
  | @bare v _ _ _ hlast =>
    have htext : (Line.tailText b [.verbatim v]).toList = v.toList := by
      simp [Line.tailText, Line.spaced, Token.text]
    rw [htext]
    exact endsClean_of_trimEnd_eq (hlast rfl)
  | @quoted q _ =>
    have htext : (Line.tailText b [.string q]).toList =
        (room b (.string q) ++ '"' :: q.toList) ++ ['"'] := by
      rw [toList_tailText_cons]
      simp [Line.tailText, Token.text]
    rw [htext]
    exact EndsClean.append_cons (t := []) (stops_cons.mpr (by decide)) _
  | @both q v _ hblank _ hlast =>
    have htext : (Line.tailText b [.string q, .verbatim v]).toList =
        (room b (.string q) ++ '"' :: q.toList) ++ '"' :: v.toList := by
      rw [toList_tailText_cons]
      simp [Line.tailText, Line.spaced, Token.text]
    rw [htext]
    exact EndsClean.append_cons (EndsClean.append (s := ['"']) (stops_cons.mpr (by decide))
      (endsClean_of_trimEnd_eq (hlast rfl))) _

theorem IsItems.endsClean {items : List Token} (h : IsItems true items) (b : Token) :
    EndsClean (Line.tailText b items).toList := by
  induction h generalizing b with
  | one h => exact h.endsClean b
  | @cons item items _ _ ih =>
    rw [tailText_append not_spaced_comma]
    exact EndsClean.append_cons (EndsClean.append (s := [',']) (stops_cons.mpr (by decide))
      (ih .comma)) _

/-- The listed text of a line ends with no blank. -/
theorem Lexed.endsClean {ts : List Token} (h : Lexed ts) :
    EndsClean (Line.tokensText ts).toList := by
  induction h with
  | nil => exact stops_nil _
  | @plain t ts ht hts ih =>
    rw [toList_tokensText_cons]
    refine ht.endsClean.append ?_
    cases ts with
    | nil => exact stops_nil _
    | cons u us =>
      obtain ⟨c, s, hs, -⟩ := exists_start hts.head
      rw [toList_tokensText_cons, hs] at ih
      rw [toList_tailText_cons, hs]
      exact EndsClean.append_cons ih _
  | @remark tail htail =>
    have hrem : EndsClean (Token.word .REM).text.toList := stops_cons.mpr (by decide)
    rw [toList_tokensText_cons]
    refine hrem.append ?_
    cases htail with
    | blank => exact stops_nil _
    | @text b _ htrim =>
      have htext : (Line.tailText (.word .REM) [.verbatim b]).toList = b.toList := by
        simp [Line.tailText, Line.spaced, Token.text]
      rw [htext]
      exact endsClean_of_trimEnd_eq htrim
  | @data items ts hitems hts _ ih =>
    have hdata : EndsClean (Token.word .DATA).text.toList := stops_cons.mpr (by decide)
    rw [toList_tokensText_cons]
    refine hdata.append ?_
    rcases hts with rfl | ⟨us, rfl⟩
    · rw [List.append_nil]
      exact hitems.endsClean _
    · rw [tailText_append not_spaced_colon]
      rw [toList_tokensText_cons] at ih
      exact EndsClean.append_cons ih _

/-- Only a text that starts like a numeral gives one. -/
theorem lexeme_number_head {c : Char} {s rest : List Char} {x : String} {more : List Token}
    (h : lexeme c s = .ok (.number x :: more, rest)) :
    (c.isDigit || c == '.') = true ∧ x.toList.head? = some c.toUpper := by
  unfold lexeme at h
  split at h
  · cases h
  · split at h
    · split at h
      · rename_i text r hn
        obtain ⟨hnum, hsplit⟩ := numeral_sound hn
        obtain ⟨d, text', rfl, hd⟩ := hnum.head
        cases h
        obtain rfl : d = c := (List.cons.inj hsplit).1
        exact ⟨hd, by simp [upper]⟩
      · cases h
    · split at h
      · cases h
      · cases h
      · rename_i n t _ _ hk
        obtain ⟨k, hmem, -⟩ := Keyword.longest?_sound hk
        have hin := keyword_mem_tokens _ hmem
        cases h
        simp [Keyword.tokens] at hin
      · split at h
        · cases h
        · cases h

theorem Lexed.stops_isSpace {ts : List Token} (h : Lexed ts) :
    Stops isSpace (Line.tokensText ts).toList := by
  cases ts with
  | nil => exact stops_nil _
  | cons t ts =>
    obtain ⟨c, s, hs, hspace, -⟩ := exists_start h.head
    rw [toList_tokensText_cons, hs]
    exact stops_cons.mpr hspace

theorem Lexed.not_isDigit_head {t : Token} {ts : List Token} (h : Lexed (t :: ts))
    (hn : ∀ x, t ≠ .number x) : Stops Char.isDigit (Line.tokensText (t :: ts)).toList := by
  have hkey : ∀ t ∈ Keyword.tokens, ∀ s, Stops Char.isDigit (t.text.toList ++ s) := by
    intro t ht s
    have hstart := keyword_start t ht
    cases htext : t.text.toList with
    | nil => rw [htext] at hstart; cases hstart
    | cons c s' =>
      rw [htext, List.head?_cons, Option.any_some] at hstart
      simp only [startsKeyword, Bool.not_eq_true', Bool.or_eq_false_iff] at hstart
      exact stops_cons.mpr hstart.1.2
  rw [toList_tokensText_cons]
  rcases h.head with ht | ht
  · rcases mem_tokens ht with hmem | ⟨s, rfl⟩ | ⟨s, rfl⟩ | ⟨s, rfl⟩
    · exact hkey t hmem _
    · obtain ⟨c, hc, halpha⟩ := IsName.letter ht
      obtain ⟨s', hs⟩ := List.head?_eq_some_iff.mp (Option.mem_def.mp hc)
      have hstart := startsKeyword_of_isAlpha halpha
      simp only [startsKeyword, Bool.not_eq_true', Bool.or_eq_false_iff] at hstart
      simp only [Token.text, hs]
      exact stops_cons.mpr hstart.1.2
    · exact absurd rfl (hn s)
    · have htext : (Token.string s).text.toList = '"' :: (s.toList ++ ['"']) := by simp [Token.text]
      rw [htext]
      exact stops_cons.mpr (by decide)
  · exact hkey t ht _

/-- A text that does not start with a digit gives a line whose listing does not either. -/
theorem stops_isDigit_tokensText {s : List Char} {ts : List Token}
    (hs : Stops Char.isDigit (s.dropWhile isSpace)) (h : tokens s = .ok ts) :
    Stops Char.isDigit (Line.tokensText ts).toList := by
  have hlexed := tokens_sound h
  cases ts with
  | nil => exact stops_nil _
  | cons t ts =>
    by_cases hn : ∃ x, t = .number x
    · obtain ⟨x, rfl⟩ := hn
      rw [tokens_eq] at h
      cases hd : s.dropWhile isSpace with
      | nil => rw [hd] at h; cases h
      | cons c rest =>
        rw [hd] at h hs
        dsimp only at h
        cases hl : lexeme c rest with
        | error e => rw [hl] at h; cases h
        | ok r =>
          obtain ⟨ts', r⟩ := r
          rw [hl] at h
          cases hr : tokens r with
          | error e => simp [Except.bind, hr, Except.map] at h
          | ok us =>
            simp only [Except.bind, hr, Except.map, Except.ok.injEq] at h
            obtain ⟨more, rfl⟩ : ∃ more, ts' = .number x :: more := by
              cases lexeme_sound hl with
              | plain => exact ⟨[], by rw [(List.cons.inj h).1]⟩
              | remark => cases h
              | data => cases h
            obtain ⟨hc, hx⟩ := lexeme_number_head hl
            rw [stops_cons.mp hs, Bool.false_or, beq_iff_eq] at hc
            subst hc
            obtain ⟨x', hx⟩ := List.head?_eq_some_iff.mp hx
            rw [toList_tokensText_cons]
            simp only [Token.text, hx]
            exact stops_cons.mpr (by decide)
    · exact hlexed.not_isDigit_head fun x hx => hn ⟨x, hx⟩

end Lexer

namespace Line

open Text Lexer

def isLineEnd (c : Char) : Bool := c == '\n' || c == '\r'

theorem ofText_eq (s : String) : ofText s =
    (Lexer.lineNumber ((dropEndWhile isLineEnd s.toList).dropWhile isSpace)).bind fun r =>
      (Lexer.tokens r.2).map fun ts => ⟨r.1, ts⟩ := by
  have hend : isLineEnd = fun c => c == '\n' || c == '\r' := rfl
  simp only [ofText, Lexer.line, ← hend, bind, Except.bind, pure, Except.pure]
  cases Lexer.lineNumber ((dropEndWhile isLineEnd s.toList).dropWhile isSpace) with
  | error e => rfl
  | ok r => cases h : Lexer.tokens r.2 <;> simp [h, Except.map]

/-- What tells a program line from a direct one in its listing. -/
def NumberFits (l : Line) : Prop :=
  match l.number with
  | some n => n ≤ maxLineNumber
  | none => Stops Char.isDigit (tokensText l.tokens).toList

theorem lineNumber_sound {s rest : List Char} {number : Option Nat}
    (h : Lexer.lineNumber s = .ok (number, rest)) :
    (number = none ∧ rest = s ∧ Stops Char.isDigit s) ∨ ∃ n, number = some n ∧ n ≤ maxLineNumber := by
  unfold Lexer.lineNumber at h
  dsimp only at h
  split at h
  · rename_i hdigits
    cases h
    refine .inl ⟨rfl, rfl, ?_⟩
    have hs := List.takeWhile_append_dropWhile (p := Char.isDigit) (l := s)
    rw [List.isEmpty_iff.mp hdigits, List.nil_append] at hs
    rw [← hs]
    exact stops_dropWhile _ _
  · split at h
    · rename_i n hval
      cases h
      refine .inr ⟨n, rfl, ?_⟩
      unfold Token.lineNumberOfDigits? at hval
      dsimp only at hval
      split at hval
      · rename_i hle
        cases hval
        simpa using (Bool.and_eq_true_iff.mp hle).2
      · cases hval
    · cases h

theorem lexed_of_ofText {s : String} {l : Line} (h : ofText s = .ok l) :
    Lexed l.tokens ∧ l.NumberFits := by
  rw [ofText_eq] at h
  have hspace := (stops_dropWhile isSpace (dropEndWhile isLineEnd s.toList)).dropWhile
  cases hn : Lexer.lineNumber ((dropEndWhile isLineEnd s.toList).dropWhile isSpace) with
  | error e => rw [hn] at h; cases h
  | ok r =>
    obtain ⟨number, rest⟩ := r
    rw [hn] at h
    simp only [Except.bind] at h
    cases ht : Lexer.tokens rest with
    | error e => rw [ht] at h; cases h
    | ok ts =>
      rw [ht] at h
      cases h
      refine ⟨tokens_sound ht, ?_⟩
      rcases lineNumber_sound hn with ⟨rfl, rfl, hstop⟩ | ⟨n, rfl, hle⟩
      · exact stops_isDigit_tokensText (by rwa [hspace]) ht
      · exact hle

theorem lineNumber_toDigits {n : Nat} (h : n ≤ maxLineNumber) (rest : List Char) :
    Lexer.lineNumber (Nat.toDigits 10 n ++ ' ' :: rest) = .ok (some n, ' ' :: rest) := by
  have hdigit : ∀ c ∈ Nat.toDigits 10 n, c.isDigit = true :=
    fun c hc => Nat.isDigit_of_mem_toDigits (by decide) (by decide) hc
  have hstop : Stops Char.isDigit (' ' :: rest) := stops_cons.mpr (by decide)
  have hval : Token.lineNumberOfDigits? (Nat.toDigits 10 n) = some n := by
    simp [Token.lineNumberOfDigits?, Nat.ofDigitChars_toDigits, Nat.toDigits_ne_nil, h]
  simp only [Lexer.lineNumber, takeWhile_run hdigit hstop, dropWhile_run hdigit hstop, hval]
  simp [Nat.toDigits_ne_nil]

theorem lineNumber_of_stops {s : List Char} (h : Stops Char.isDigit s) :
    Lexer.lineNumber s = .ok (none, s) := by
  simp [Lexer.lineNumber, h.takeWhile]

theorem dropEndWhile_of_endsClean {s t : List Char} (ht : EndsClean t) (hs : Stops isLineEnd s.reverse) :
    dropEndWhile isLineEnd (s ++ t) = s ++ t := by
  have hclean : Stops isLineEnd t.reverse := Stops.mono ht fun c hc => by
    simp only [isLineEnd, Bool.or_eq_true, beq_iff_eq] at hc
    rcases hc with rfl | rfl <;> rfl
  have hall : Stops isLineEnd (s ++ t).reverse := by
    rw [List.reverse_append]
    exact stops_append hclean hs
  rw [dropEndWhile, hall.dropWhile, List.reverse_reverse]

/-- The listed text of a line is read as its number and the listed text of its tokens. -/
theorem ofText_text {l : Line} (ht : Lexed l.tokens) (hn : l.NumberFits) :
    ofText l.text = (Lexer.tokens (tokensText l.tokens).toList).map fun ts => ⟨l.number, ts⟩ := by
  obtain ⟨number, ts⟩ := l
  rw [ofText_eq]
  cases number with
  | none =>
    have hend := dropEndWhile_of_endsClean (s := []) ht.endsClean (stops_nil _)
    rw [List.nil_append] at hend
    simp only [text, hend, ht.stops_isSpace.dropWhile, lineNumber_of_stops hn, Except.bind]
  | some n =>
    have htext : (text ⟨some n, ts⟩).toList =
        (Nat.toDigits 10 n ++ [' ']) ++ (tokensText ts).toList := by
      simp [text]
    have hspace : Stops isSpace (Nat.toDigits 10 n ++ ' ' :: (tokensText ts).toList) := by
      cases hd : Nat.toDigits 10 n with
      | nil => exact absurd hd Nat.toDigits_ne_nil
      | cons c ds =>
        have hc : c.isDigit = true :=
          Nat.isDigit_of_mem_toDigits (by decide) (by decide) (hd ▸ List.mem_cons_self)
        exact stops_cons.mpr (not_isSpace_of_numeral (by simp [hc]))
    rw [htext, dropEndWhile_of_endsClean ht.endsClean (by simp [stops_cons, isLineEnd]),
      List.append_assoc, List.singleton_append, hspace.dropWhile, lineNumber_toDigits hn]
    simp only [Except.bind]
    rw [Lexer.tokens_eq, Lexer.tokens_eq (tokensText ts).toList]
    rfl

theorem apart_iff_forall_infix {ts : List Token} :
    Apart ts ↔ ∀ a b, [a, b] <:+: ts → a.fuses b = false := by
  rw [Apart, List.isChain_iff_forall_rel_of_append_cons_cons]
  constructor
  · rintro h a b ⟨before, after, hts⟩
    exact @h a b before after (by simpa using hts.symm)
  · rintro h a b before after rfl
    exact h a b ⟨before, after, by simp⟩

/-- The listing of a line that was read stands for the same line, with the same number and the same
tokens, exactly if no two neighbours among its tokens fuse. -/
theorem ofText_text_iff {s : String} {l : Line} (h : ofText s = .ok l) :
    ofText l.text = .ok l ↔ ∀ a b, [a, b] <:+: l.tokens → a.fuses b = false := by
  obtain ⟨ht, hn⟩ := lexed_of_ofText h
  rw [ofText_text ht hn, ← apart_iff_forall_infix, ← tokens_tokensText_iff ht]
  obtain ⟨number, ts⟩ := l
  cases Lexer.tokens (tokensText ts).toList with
  | error e => exact iff_of_false (by simp [Except.map]) (by simp)
  | ok us => simp [Except.map]

/-- The comparisons of this line were typed apart and are listed together. -/
theorem ofText_text_iff_spaced_comparison :
    let l : Line := ⟨some 10, [.word .IF, .name "A", .operator .equal, .operator .less, .name "B",
      .word .THEN, .word .DATA, .string "x", .comma, .verbatim " y"]⟩
    ofText "10 if a= <b then data \"x\" , y " = .ok l ∧ ofText l.text ≠ .ok l := by
  intro l
  have hread : ofText "10 if a= <b then data \"x\" , y " = .ok l := by decide +kernel
  refine ⟨hread, fun hback => ?_⟩
  have hfuse := (ofText_text_iff hread).mp hback (.operator .equal) (.operator .less) (by decide)
  exact absurd hfuse (by decide)

end Line

end LineBasic
