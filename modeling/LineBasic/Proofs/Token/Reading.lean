import LineBasic.Proofs.Token.Grammar

/-! Reading the text of a token back. A token is closed by a text that does not go on with it: a word by
what is no inner character of a word, a symbol by what makes no longer symbol of it. The text of a token
that is closed is read as that token. -/

namespace LineBasic

def Token.isComparison : Token → Bool
  | .operator .equal | .operator .notEqual | .operator .less | .operator .lessEqual
  | .operator .greater | .operator .greaterEqual => true
  | _ => false

/-- A comparison of one character before a comparison that starts with another one. -/
def Token.fuses (a b : Token) : Bool :=
  a.isComparison && a.text.toList.length == 1 && b.isComparison &&
    b.text.toList.head? != a.text.toList.head?

namespace Lexer

open Text

theorem tokens_nil : tokens [] = .ok [] := by rw [tokens_eq]; rfl

theorem tokens_of_lexeme {c : Char} {s : List Char} {r : List Token × List Char}
    (hc : isSpace c = false) (h : lexeme c s = .ok r) :
    tokens (c :: s) = (tokens r.2).map (r.1 ++ ·) := by
  rw [tokens_eq, List.dropWhile_cons_of_neg (by simp [hc])]
  simp only [h, Except.bind]

/-- The text after a token does not take part in it. -/
def Closes (t : Token) (rest : List Char) : Prop :=
  match t with
  | .verbatim _ | .string _ => True
  | .name _ | .number _ => Stops isInner rest
  | t => ∀ c ∈ rest.head?, c.toUpper ∉ Keyword.extenders t

theorem mem_tokens {t : Token} (ht : Plain t) :
    t ∈ Keyword.tokens ∨ (∃ s, t = .name s) ∨ (∃ s, t = .number s) ∨ ∃ s, t = .string s := by
  cases t with
  | verbatim s => exact ht.elim
  | name s => exact .inr (.inl ⟨s, rfl⟩)
  | number s => exact .inr (.inr (.inl ⟨s, rfl⟩))
  | string s => exact .inr (.inr (.inr ⟨s, rfl⟩))
  | word w => exact .inl (by cases w <;> decide)
  | function f => exact .inl (by cases f <;> decide)
  | operator o => exact .inl (by cases o <;> decide)
  | leftParen | rightParen | comma | colon | semicolon => exact .inl (by decide)

/-- The first character of a keyword starts no other kind of lexeme. -/
def startsKeyword (c : Char) : Bool := !(isSpace c || c == '"' || c.isDigit || c == '.')

theorem keyword_start : ∀ t ∈ Keyword.tokens, t.text.toList.head?.any startsKeyword = true := by
  decide +kernel

/-- The lexeme that a keyword starts, and what is left of the text after it. -/
def keywordLexeme (t : Token) (rest : List Char) : List Token × List Char :=
  match t with
  | .word .REM => (.word .REM :: remark rest, [])
  | .word .DATA => (.word .DATA :: (dataItems rest).1, (dataItems rest).2)
  | t => ([t], rest)

/-- Where a keyword may start, the table decides. -/
theorem lexeme_of_longest? {c : Char} {s : List Char} {n : Nat} {t : Token}
    (hc : startsKeyword c = true) (hk : Keyword.longest? (c :: s) = some (n, t)) :
    lexeme c s = .ok (keywordLexeme t ((c :: s).drop n)) := by
  simp only [startsKeyword, Bool.not_eq_true', Bool.or_eq_false_iff] at hc
  obtain ⟨⟨⟨_, hquote⟩, hdigit⟩, hpoint⟩ := hc
  simp only [lexeme, hquote, hdigit, hpoint, hk, Bool.or_false, Bool.false_eq_true, if_false]
  unfold keywordLexeme
  split <;> simp_all

theorem not_isSpace_of_startsKeyword {c : Char} (h : startsKeyword c = true) :
    isSpace c = false := by
  simp only [startsKeyword, Bool.not_eq_true', Bool.or_eq_false_iff] at h
  exact h.1.1.1

/-- A listed keyword is read with all that belongs to its lexeme. -/
theorem tokens_keyword {t : Token} (ht : t ∈ Keyword.tokens) {rest : List Char}
    (hr : ∀ c ∈ rest.head?, c.toUpper ∉ Keyword.extenders t) :
    tokens (t.text.toList ++ rest) =
      (tokens (keywordLexeme t rest).2).map ((keywordLexeme t rest).1 ++ ·) := by
  have hk := Keyword.longest?_text_append ht hr
  have hdrop : (t.text.toList ++ rest).drop t.text.toList.length = rest := List.drop_left
  have hstart := keyword_start t ht
  cases htext : t.text.toList with
  | nil => rw [htext] at hstart; cases hstart
  | cons c s =>
    rw [htext, List.cons_append] at hk hdrop
    rw [htext, List.head?_cons, Option.any_some] at hstart
    have hlex := lexeme_of_longest? hstart hk
    rw [hdrop] at hlex
    exact tokens_of_lexeme (not_isSpace_of_startsKeyword hstart) hlex

theorem tokens_keyword_of_extenders_eq_nil {t : Token} (ht : t ∈ Keyword.tokens)
    (h : Keyword.extenders t = []) (rest : List Char) :
    tokens (t.text.toList ++ rest) =
      (tokens (keywordLexeme t rest).2).map ((keywordLexeme t rest).1 ++ ·) :=
  tokens_keyword ht fun c _ => by simp [h]

theorem startsKeyword_of_isAlpha {c : Char} (h : c.isAlpha = true) : startsKeyword c = true := by
  have hdigit : c.isDigit = false := by
    simp only [Char.isAlpha, Char.isUpper, Char.isLower, Char.isDigit, Bool.or_eq_true,
      Bool.and_eq_true, decide_eq_true_eq, UInt32.le_iff_toNat_le, ge_iff_le] at h ⊢
    simp at h ⊢
    omega
  have hne : ∀ d : Char, d.isAlpha = false → (c == d) = false := by
    intro d hd
    rw [beq_eq_false_iff_ne]
    rintro rfl
    rw [h] at hd
    cases hd
  simp only [startsKeyword, isSpace, hdigit, hne ' ' rfl, hne '\t' rfl, hne '"' rfl, hne '.' rfl]
  rfl

theorem lexeme_name {c : Char} {s rest : List Char} (hs : IsName (c :: s))
    (hr : Stops isInner rest) :
    lexeme c (s ++ rest) = .ok ([.name (String.ofList (c :: s))], rest) := by
  have halpha : c.isAlpha = true := by simpa using hs.letter
  have hk := hs.longest?_append hr
  have hname := name_append hs.shape hr
  have hstart := startsKeyword_of_isAlpha halpha
  simp only [startsKeyword, Bool.not_eq_true', Bool.or_eq_false_iff] at hstart
  obtain ⟨⟨⟨_, hquote⟩, hdigit⟩, hpoint⟩ := hstart
  rw [List.cons_append] at hk hname
  simp only [lexeme, hquote, hdigit, hpoint, hk, hname, halpha, Bool.or_false, Bool.false_eq_true,
    if_false, if_true, upper, hs.upper]

theorem IsNumeral.head {s : List Char} (h : IsNumeral s) :
    ∃ c s', s = c :: s' ∧ (c.isDigit || c == '.') = true := by
  obtain ⟨m, e, hm, _, rfl⟩ := h
  obtain ⟨whole, fraction⟩ := m
  have hdigit := hm.isDigit
  have hne := hm.ne_nil
  cases whole with
  | cons d ds =>
    have hd : d.isDigit = true := hdigit d (by simp [Numeral.Mantissa.digits])
    cases fraction <;> exact ⟨d, _, rfl, by simp [hd]⟩
  | nil =>
    cases fraction with
    | none => exact absurd rfl hne
    | some ds => exact ⟨'.', _, rfl, rfl⟩

theorem lexeme_numeral {c : Char} {s rest : List Char} (hs : IsNumeral (c :: s))
    (hr : Stops extendsNumeral rest) :
    lexeme c (s ++ rest) = .ok ([.number (upper (c :: s))], rest) := by
  obtain ⟨c', s', hcons, hc⟩ := hs.head
  obtain ⟨rfl, rfl⟩ := List.cons.inj hcons
  have hnum := numeral_append hs hr
  have hquote : (c == '"') = false := by
    rw [beq_eq_false_iff_ne]
    rintro rfl
    cases hc
  rw [List.cons_append] at hnum
  simp only [lexeme, hquote, hc, hnum, Bool.false_eq_true, if_false, if_true]

theorem lexeme_number {c : Char} {s rest : List Char} (hs : IsNumeral (c :: s))
    (hupper : (c :: s).map Char.toUpper = c :: s) (hr : Stops isInner rest) :
    lexeme c (s ++ rest) = .ok ([.number (String.ofList (c :: s))], rest) := by
  have hlex := lexeme_numeral hs (hr.mono fun _ => isInner_of_extendsNumeral)
  rwa [upper, hupper] at hlex

theorem not_isSpace_of_numeral {c : Char} (h : (c.isDigit || c == '.') = true) :
    isSpace c = false := by
  by_contra hsp
  simp only [isSpace, Bool.not_eq_false, Bool.or_eq_true, beq_iff_eq] at hsp
  rcases hsp with rfl | rfl <;> cases h

/-- A token whose text is closed by what follows is read back as itself. -/
theorem tokens_plain {t : Token} (ht : Plain t) {rest : List Char} (hr : Closes t rest) :
    tokens (t.text.toList ++ rest) = (tokens rest).map (t :: ·) := by
  rcases mem_tokens ht with hmem | ⟨s, rfl⟩ | ⟨s, rfl⟩ | ⟨s, rfl⟩
  · have hext : ∀ c ∈ rest.head?, c.toUpper ∉ Keyword.extenders t := by
      cases t with
      | verbatim | name | number | string => simp [Keyword.tokens] at hmem
      | _ => exact hr
    rw [tokens_keyword hmem hext]
    unfold keywordLexeme
    split
    · exact (ht.1 rfl).elim
    · exact (ht.2 rfl).elim
    · rfl
  · obtain ⟨c, hc, halpha⟩ := IsName.letter ht
    obtain ⟨s', hs⟩ := List.head?_eq_some_iff.mp (Option.mem_def.mp hc)
    have hname : IsName (c :: s') := hs ▸ ht
    have hlex := lexeme_name hname hr
    rw [← hs, String.ofList_toList] at hlex
    simp only [Token.text, hs, List.cons_append]
    exact tokens_of_lexeme (not_isSpace_of_startsKeyword (startsKeyword_of_isAlpha halpha)) hlex
  · obtain ⟨hnum, hupper⟩ := ht
    obtain ⟨c, s', hs, hc⟩ := hnum.head
    have hlex := lexeme_number (hs ▸ hnum) (hs ▸ hupper) hr
    rw [← hs, String.ofList_toList] at hlex
    simp only [Token.text, hs, List.cons_append]
    exact tokens_of_lexeme (not_isSpace_of_numeral hc) hlex
  · have hq := quoted_append ht rest
    have hlex : lexeme '"' (s.toList ++ '"' :: rest) = .ok ([.string s], rest) := by
      simp [lexeme, hq]
    have htext : (Token.string s).text.toList ++ rest = '"' :: (s.toList ++ '"' :: rest) := by
      simp [Token.text]
    rw [htext]
    exact tokens_of_lexeme (by decide) hlex

/-! ### How the text of a token starts, and what lengthens it -/

def isRelationChar (c : Char) : Bool := c == '=' || c == '<' || c == '>'

/-- How the text of a token starts: not with a space, with no inner character unless it is wordy, and
with a relation character only if it is a comparison. -/
def StartsOwn (t : Token) (c : Char) : Prop :=
  isSpace c = false ∧ c.toUpper = c ∧ (t.isWordy = true ∨ isInner c = false) ∧
    isRelationChar c = t.isComparison

instance (t : Token) (c : Char) : Decidable (StartsOwn t c) :=
  inferInstanceAs (Decidable (_ ∧ _ ∧ _ ∧ _))

theorem keyword_startsOwn :
    ∀ t ∈ Keyword.tokens, t.text.toList.head?.any (fun c => decide (StartsOwn t c)) = true := by
  decide +kernel

theorem not_isRelationChar_of_isAlphanum {c : Char} (h : c.isAlphanum = true) :
    isRelationChar c = false := by
  by_contra hr
  simp only [isRelationChar, Bool.not_eq_false, Bool.or_eq_true, beq_iff_eq] at hr
  rcases hr with (rfl | rfl) | rfl <;> cases h

theorem exists_start_of_mem_tokens {t : Token} (ht : t ∈ Keyword.tokens) :
    ∃ c s, t.text.toList = c :: s ∧ StartsOwn t c := by
  have h := keyword_startsOwn t ht
  cases hs : t.text.toList with
  | nil => rw [hs] at h; cases h
  | cons c s =>
    rw [hs] at h
    exact ⟨c, s, rfl, by simpa using h⟩

theorem exists_start {t : Token} (ht : Plain t ∨ t ∈ Keyword.tokens) :
    ∃ c s, t.text.toList = c :: s ∧ StartsOwn t c := by
  rcases ht with ht | ht
  · rcases mem_tokens ht with hmem | ⟨s, rfl⟩ | ⟨s, rfl⟩ | ⟨s, rfl⟩
    · exact exists_start_of_mem_tokens hmem
    · obtain ⟨c, hc, halpha⟩ := IsName.letter ht
      obtain ⟨s', hs⟩ := List.head?_eq_some_iff.mp (Option.mem_def.mp hc)
      have hupper := IsName.upper ht
      rw [hs, List.map_cons, List.cons.injEq] at hupper
      exact ⟨c, s', hs, not_isSpace_of_startsKeyword (startsKeyword_of_isAlpha halpha), hupper.1,
        .inl rfl, not_isRelationChar_of_isAlphanum (by simp [Char.isAlphanum, halpha])⟩
    · obtain ⟨hnum, hupper⟩ := ht
      obtain ⟨c, s', hs, hc⟩ := hnum.head
      rw [hs, List.map_cons, List.cons.injEq] at hupper
      refine ⟨c, s', hs, not_isSpace_of_numeral hc, hupper.1, .inl rfl, ?_⟩
      rw [Bool.or_eq_true, beq_iff_eq] at hc
      rcases hc with hd | rfl
      · exact not_isRelationChar_of_isAlphanum (by simp [Char.isAlphanum, hd])
      · rfl
    · refine ⟨'"', s.toList ++ ['"'], ?_, rfl, rfl, .inl rfl, rfl⟩
      simp [Token.text]
  · exact exists_start_of_mem_tokens ht

/-- The characters that may lengthen the spelling of a token: letters and the dollar sign that of a
word, relation characters that of a comparison of one character. -/
def lengthens (t : Token) (c : Char) : Bool :=
  if t.isWordy then c.isAlpha || c == '$'
  else t.isComparison && t.text.toList.length == 1 && isRelationChar c && some c != t.text.toList.head?

theorem lengthens_of_mem_extenders {t : Token} (ht : t ∈ Keyword.tokens) {c : Char}
    (hc : c ∈ Keyword.extenders t) : lengthens t c = true := by
  have hall : (Keyword.tokens.all fun t => (Keyword.extenders t).all (lengthens t)) = true := by
    decide +kernel
  exact List.all_eq_true.mp (List.all_eq_true.mp hall t ht) c hc

/-- Every character that may lengthen a symbol gives the spelling of another one. -/
theorem mem_longestFirst_of_lengthens {t : Token} (ht : t ∈ Keyword.tokens)
    (hw : t.isWordy = false) {c : Char} (hc : lengthens t c = true) :
    t.text.toList ++ [c] ∈ Keyword.longestFirst.map (·.1) := by
  have hall : (Keyword.tokens.all fun t => ['=', '<', '>'].all fun c => t.isWordy || !lengthens t c ||
      (Keyword.longestFirst.map (·.1)).contains (t.text.toList ++ [c])) = true := by decide +kernel
  have hrel : c ∈ ['=', '<', '>'] := by
    have hc := hc
    simp only [lengthens, hw, Bool.false_eq_true, if_false, Bool.and_eq_true] at hc
    simpa [isRelationChar, or_assoc] using hc.1.2
  have h := List.all_eq_true.mp (List.all_eq_true.mp hall t ht) c hrel
  rw [hw, hc] at h
  simpa using h

/-- A word token is closed by a text that starts with no inner character. -/
theorem closes_of_stops {t : Token} (ht : Plain t) (hw : t.isWordy = true) {rest : List Char}
    (hr : Stops isInner rest) : Closes t rest := by
  rcases mem_tokens ht with hmem | ⟨s, rfl⟩ | ⟨s, rfl⟩ | ⟨s, rfl⟩
  · have hc : ∀ c ∈ rest.head?, c.toUpper ∉ Keyword.extenders t := by
      intro c hc hin
      have hinner := hr c hc
      have hext := lengthens_of_mem_extenders hmem hin
      rw [lengthens, if_pos hw] at hext
      rw [isInner_of_toUpper hext] at hinner
      cases hinner
    cases t with
    | verbatim | name | number | string => simp [Keyword.tokens] at hmem
    | _ => exact hc
  · exact hr
  · exact hr
  · trivial

theorem mem_tokens_of_isComparison {t : Token} (h : t.isComparison = true) :
    t ∈ Keyword.tokens ∧ t.isWordy = false := by
  unfold Token.isComparison at h
  split at h
  all_goals first | exact ⟨by decide, rfl⟩ | cases h

theorem keywordLexeme_head (t : Token) (rest : List Char) :
    ∃ more, (keywordLexeme t rest).1 = t :: more := by
  unfold keywordLexeme
  split <;> exact ⟨_, rfl⟩

/-- The first token read is the keyword found. -/
theorem eq_of_longest? {c : Char} {s : List Char} {n : Nat} {t t' : Token} {ts : List Token}
    (hc : startsKeyword c = true) (hk : Keyword.longest? (c :: s) = some (n, t'))
    (h : tokens (c :: s) = .ok (t :: ts)) : t' = t := by
  rw [tokens_of_lexeme (not_isSpace_of_startsKeyword hc) (lexeme_of_longest? hc hk)] at h
  obtain ⟨more, hmore⟩ := keywordLexeme_head t' ((c :: s).drop n)
  rw [hmore] at h
  cases ht : tokens (keywordLexeme t' ((c :: s).drop n)).2 with
  | error e => rw [ht] at h; cases h
  | ok rest =>
    rw [ht] at h
    exact (List.cons.inj (Except.ok.inj h)).1

end Lexer

end LineBasic
