import LineBasic.Proofs.Token.Scanner

/-! The token sequences that lines can have. Most tokens stand for themselves; a remark takes the rest
of the line, and a `DATA` list all up to a colon. Whatever is read from a text is such a sequence. -/

namespace LineBasic.Lexer

open Text

/-- A token that is a lexeme by itself, with the text that it can carry. -/
def Plain : Token → Prop
  | .verbatim _ => False
  | .word w => w ≠ .REM ∧ w ≠ .DATA
  | .name s => IsName s.toList
  | .number s => IsNumeral s.toList ∧ s.toList.map Char.toUpper = s.toList
  | .string s => '"' ∉ s.toList
  | _ => True

/-- What follows `REM`. -/
inductive IsRemark : List Token → Prop
  | blank : IsRemark []
  | text {b : String} : b.toList ≠ [] → trimEnd b.toList = b.toList → IsRemark [.verbatim b]

/-- The tokens of a line. -/
inductive Lexed : List Token → Prop
  | nil : Lexed []
  | plain {t : Token} {ts : List Token} : Plain t → Lexed ts → Lexed (t :: ts)
  | remark {tail : List Token} : IsRemark tail → Lexed (.word .REM :: tail)
  | data {items ts : List Token} : IsItems ts.isEmpty items → (ts = [] ∨ ∃ us, ts = .colon :: us) →
      Lexed ts → Lexed (.word .DATA :: (items ++ ts))

/-- The tokens of one lexeme before the text `rest`. -/
inductive IsLexeme (rest : List Char) : List Token → Prop
  | plain {t : Token} : Plain t → IsLexeme rest [t]
  | remark {tail : List Token} : IsRemark tail → rest = [] → IsLexeme rest (.word .REM :: tail)
  | data {items : List Token} : IsItems rest.isEmpty items → (rest = [] ∨ ∃ r, rest = ':' :: r) →
      IsLexeme rest (.word .DATA :: items)

/-! ### One lexeme -/

theorem dataItems_eq (s : List Char) : dataItems s =
    match dataItem s with
    | (item, ',' :: rest) => (item ++ .comma :: (dataItems rest).1, (dataItems rest).2)
    | (item, rest) => (item, rest) := by
  rw [dataItems]
  split <;> simp_all

theorem dataItems_sound (s : List Char) : IsItems (dataItems s).2.isEmpty (dataItems s).1 ∧
    ((dataItems s).2 = [] ∨ ∃ r, (dataItems s).2 = ':' :: r) := by
  fun_induction dataItems s with
  | case1 s item rest h more ih =>
    obtain ⟨hitem, _⟩ := dataItem_sound h
    exact ⟨.cons hitem ih.1, ih.2⟩
  | case2 s item rest hcomma h =>
    obtain ⟨hitem, hstop⟩ := dataItem_sound h
    refine ⟨.one hitem, ?_⟩
    cases rest with
    | nil => exact .inl rfl
    | cons c r =>
      have hc := stops_cons.mp hstop
      simp only [endsItem, Bool.not_eq_false', Bool.or_eq_true, beq_iff_eq] at hc
      rcases hc with rfl | rfl
      · exact (hcomma r rfl).elim
      · exact .inr ⟨r, rfl⟩

theorem isRemark_remark (s : List Char) : IsRemark (remark s) := by
  unfold remark
  dsimp only
  split
  · exact .blank
  · rename_i h
    exact .text (by simpa using h) (by rw [String.toList_ofList, trimEnd_trimEnd])

theorem keyword_mem_tokens : ∀ k ∈ Keyword.longestFirst, k.2 ∈ Keyword.tokens := by decide +kernel

theorem plain_of_mem_tokens {t : Token} (h : t ∈ Keyword.tokens) (hrem : t ≠ .word .REM)
    (hdata : t ≠ .word .DATA) : Plain t := by
  cases t with
  | verbatim | name | number | string => simp [Keyword.tokens] at h
  | word w => exact ⟨fun e => hrem (e ▸ rfl), fun e => hdata (e ▸ rfl)⟩
  | _ => trivial

/-- Every lexeme is of one of three kinds. -/
theorem lexeme_sound {c : Char} {s rest : List Char} {ts : List Token}
    (h : lexeme c s = .ok (ts, rest)) : IsLexeme rest ts := by
  unfold lexeme at h
  split at h
  · cases h
    exact .plain (t := .string _) (by simpa [Plain] using quoted_sound s)
  · split at h
    · split at h
      · rename_i text r hn
        cases h
        have hnum := (numeral_sound hn).1.upper
        refine .plain (t := .number _) ?_
        simp only [Plain, upper, String.toList_ofList]
        exact ⟨hnum, map_toUpper_map_toUpper _⟩
      · cases h
    · split at h
      · cases h
        exact .remark (isRemark_remark _) rfl
      · rename_i n hk
        have hitems := dataItems_sound ((c :: s).drop n)
        cases h
        exact .data hitems.1 hitems.2
      · rename_i n t hrem hdata hk
        obtain ⟨k, hmem, _⟩ := Keyword.longest?_sound hk
        cases h
        exact .plain (plain_of_mem_tokens (keyword_mem_tokens _ hmem) hrem hdata)
      · rename_i hk
        split at h
        · rename_i halpha
          cases h
          refine .plain (t := .name _) ?_
          simp only [Plain, upper, String.toList_ofList]
          exact isName_of_longest?_eq_none halpha hk
        · cases h

/-! ### All lexemes -/

theorem tokens_eq (s : List Char) : tokens s =
    match s.dropWhile isSpace with
    | [] => .ok []
    | c :: rest => (lexeme c rest).bind fun r => (tokens r.2).map (r.1 ++ ·) := by
  rw [tokens]
  split
  · rename_i hs
    rw [hs]
  · rename_i c rest hs
    simp only [hs]
    split
    · rename_i hl
      simp only [hl, Except.bind]
    · rename_i ts r hl
      simp only [hl, Except.bind]
      cases tokens r <;> rfl

theorem tokens_colon {r : List Char} {ts : List Token} (h : tokens (':' :: r) = .ok ts) :
    ∃ us, ts = .colon :: us := by
  have hlex : lexeme ':' r = .ok ([.colon], r) := by
    have hk : Keyword.longest? (':' :: r) = some (1, .colon) :=
      Keyword.longest?_text_append_of_extenders_eq_nil (t := .colon) (by decide)
        (by decide +kernel) r
    simp [lexeme, hk]
  rw [tokens_eq, List.dropWhile_cons_of_neg (by decide)] at h
  simp only [hlex, Except.bind] at h
  cases ht : tokens r with
  | error e => rw [ht] at h; cases h
  | ok more =>
    rw [ht] at h
    cases h
    exact ⟨more, rfl⟩

/-- What is read from a text is the tokens of a line. -/
theorem tokens_sound {s : List Char} {ts : List Token} (h : tokens s = .ok ts) : Lexed ts := by
  fun_induction tokens s generalizing ts with
  | case1 s hs =>
    cases h
    exact .nil
  | case2 s c rest hs e hl => cases h
  | case3 s c rest hs ts' r hl e ht ih => cases h
  | case4 s c rest hs ts' r hl more ht ih =>
    cases h
    have hmore := ih ht
    cases lexeme_sound hl with
    | plain hp => exact .plain hp hmore
    | remark htail hr =>
      subst hr
      rw [tokens_eq] at ht
      cases ht
      rw [List.append_nil]
      exact .remark htail
    | data hitems hr =>
      rcases hr with rfl | ⟨r, rfl⟩
      · rw [tokens_eq] at ht
        cases ht
        exact .data hitems (.inl rfl) hmore
      · obtain ⟨us, rfl⟩ := tokens_colon ht
        exact .data hitems (.inr ⟨us, rfl⟩) hmore

end LineBasic.Lexer
