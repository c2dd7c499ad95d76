import LineBasic.Proofs.Token.Grammar

/-! Nothing of a line is lost and nothing is made up. A line that is read is its number and one lexeme for
each of its tokens, in their order, with blanks between them and nothing else. Each scanner is shown to
take the lexemes of its tokens from the front of the text, whatever follows. -/

namespace LineBasic.Lexer

open Text

/-- A text of blanks only. -/
def Blanks (s : List Char) : Prop := ∀ c ∈ s, isBlank c = true

theorem Blanks.append {s t : List Char} (hs : Blanks s) (ht : Blanks t) : Blanks (s ++ t) := by
  intro c hc
  rcases List.mem_append.mp hc with hc | hc
  · exact hs c hc
  · exact ht c hc

theorem blanks_of_isEmpty {s : List Char} (h : s.isEmpty = true) : Blanks s := by
  intro c hc
  rw [List.isEmpty_iff.mp h] at hc
  cases hc

theorem isBlank_of_isSpace {c : Char} (h : isSpace c = true) : isBlank c = true := by
  simp only [isSpace, Bool.or_eq_true, beq_iff_eq] at h
  rcases h with rfl | rfl <;> decide

theorem blanks_takeWhile_isSpace (s : List Char) : Blanks (s.takeWhile isSpace) :=
  fun _ hc => isBlank_of_isSpace (List.mem_takeWhile_imp hc)

/-- The tokens whose lexeme is their spelling. -/
def IsSpelt : Token → Prop
  | .string _ | .verbatim _ => False
  | _ => True

/-- The lexemes of a token, where the text `rest` follows. The case of letters does not matter in a
spelling; quoted and verbatim text stands as it is. Only the end of the line may replace a closing
quote. -/
inductive Lexeme (rest : List Char) : Token → List Char → Prop
  | spelt {t : Token} {s : List Char} : IsSpelt t → s.map Char.toUpper = t.text.toList →
      Lexeme rest t s
  | another {t : Token} {k : String} : (k, t) ∈ Keyword.aliases → Lexeme rest t k.toList
  | quoted {q : String} : '"' ∉ q.toList → Lexeme rest (.string q) ('"' :: q.toList ++ ['"'])
  | unclosed {q : String} : '"' ∉ q.toList → rest = [] → Lexeme rest (.string q) ('"' :: q.toList)
  | verbatim {b : String} : b.toList ≠ [] → Lexeme rest (.verbatim b) b.toList

/-- A text that is made of one lexeme for each token of a list, and of blanks. -/
inductive Spells : List Token → List Char → Prop
  | nil {gap : List Char} : Blanks gap → Spells [] gap
  | cons {t : Token} {ts : List Token} {gap s rest : List Char} : Blanks gap → Lexeme rest t s →
      Spells ts rest → Spells (t :: ts) (gap ++ (s ++ rest))

theorem Spells.gap {ts : List Token} {s gap : List Char} (h : Spells ts s) (hgap : Blanks gap) :
    Spells ts (gap ++ s) := by
  cases h with
  | nil hs => exact .nil (hgap.append hs)
  | cons hs ht hts =>
    rw [← List.append_assoc]
    exact .cons (hgap.append hs) ht hts

theorem Spells.lexeme {t : Token} {ts : List Token} {s rest : List Char} (h : Spells ts rest)
    (ht : Lexeme rest t s) : Spells (t :: ts) (s ++ rest) :=
  @Spells.cons t ts [] s rest (blanks_of_isEmpty rfl) ht h

/-! ### Quoted and verbatim text -/

/-- Quoted text ends with its closing quote or with the line. -/
theorem Spells.of_quoted {ts : List Token} {s : List Char} (h : Spells ts (quoted s).2) :
    Spells (.string (String.ofList (quoted s).1) :: ts) ('"' :: s) := by
  have hs := List.takeWhile_append_dropWhile (p := (· != '"')) (l := s)
  have hq : '"' ∉ (String.ofList (quoted s).1).toList := by
    rw [String.toList_ofList]
    exact quoted_sound s
  have hrest : (quoted s).2 = (s.dropWhile (· != '"')).drop 1 := rfl
  cases hd : s.dropWhile (· != '"') with
  | nil =>
    rw [hrest, hd, List.drop_nil] at h
    rw [hd] at hs
    have ht := h.lexeme (.unclosed hq rfl)
    rwa [String.toList_ofList, List.cons_append, quoted, hs] at ht
  | cons c rest =>
    have hc : c = '"' := by
      have := stops_dropWhile (· != '"') s
      rw [hd] at this
      simpa using stops_cons.mp this
    subst hc
    rw [hrest, hd, List.drop_one, List.tail_cons] at h
    rw [hd] at hs
    have ht := h.lexeme (.quoted hq)
    rw [String.toList_ofList, List.append_assoc, List.cons_append, List.singleton_append] at ht
    rwa [quoted, hs] at ht

/-- Verbatim text is what is kept of a longer one; blanks are what is dropped. -/
theorem Spells.of_kept {ts : List Token} {b t rest : List Char} {d : Bool} (h : Spells ts rest)
    (ht : Blanks t) (hb : d = true → Blanks b) (hne : d = false → b ≠ []) :
    Spells ((if d then [] else [.verbatim (String.ofList b)]) ++ ts) (b ++ t ++ rest) := by
  rw [List.append_assoc]
  cases d with
  | true => exact (h.gap ht).gap (hb rfl)
  | false =>
    have hb : (String.ofList b).toList ≠ [] := by
      rw [String.toList_ofList]
      exact hne rfl
    have hv := (h.gap ht).lexeme (.verbatim hb)
    rwa [String.toList_ofList] at hv

theorem Spells.of_remark {ts : List Token} {s : List Char} (h : Spells ts []) :
    Spells (remark s ++ ts) s := by
  obtain ⟨t, hs, ht⟩ := dropEndWhile_append isBlank s
  have hr := h.of_kept (b := trimEnd s) (d := (trimEnd s).isEmpty) ht blanks_of_isEmpty
    fun hne => by simpa using hne
  rwa [List.append_nil, trimEnd, ← hs] at hr

theorem Spells.of_dataItem {ts item : List Token} {s rest : List Char} (h : Spells ts rest)
    (hitem : dataItem s = (item, rest)) : Spells (item ++ ts) s := by
  by_cases hquote : (s.dropWhile isSpace).head? = some '"'
  · obtain ⟨r, hs⟩ := List.head?_eq_some_iff.mp hquote
    obtain ⟨b, rest', hb, hin, hstop⟩ := exists_item_split (quoted r).2
    have hq : quoted r = ((quoted r).1, b ++ rest') := by rw [← hb]
    rw [dataItem_quoted hs hq hin hstop, Prod.mk.injEq] at hitem
    obtain ⟨rfl, rfl⟩ := hitem
    obtain ⟨t, ht, hblank⟩ := kept_append b rest'
    have hbody := h.of_kept (d := (kept b rest').all isBlank) hblank
      (fun he => List.all_eq_true.mp he) (fun hne he => by simp [he] at hne)
    rw [← ht, ← hb] at hbody
    rw [← List.takeWhile_append_dropWhile (p := isSpace) (l := s), hs]
    exact hbody.of_quoted.gap (blanks_takeWhile_isSpace s)
  · obtain ⟨b, rest', rfl, hin, hstop⟩ := exists_item_split s
    rw [dataItem_bare hin hstop hquote, Prod.mk.injEq] at hitem
    obtain ⟨rfl, rfl⟩ := hitem
    obtain ⟨t, ht, hblank⟩ := kept_append b rest'
    have hbody := h.of_kept (b := kept b rest') (d := (kept b rest').isEmpty) hblank
      blanks_of_isEmpty fun hne => by simpa using hne
    rwa [← ht] at hbody

theorem Spells.of_dataItems {ts : List Token} {s : List Char} (h : Spells ts (dataItems s).2) :
    Spells ((dataItems s).1 ++ ts) s := by
  fun_induction dataItems s with
  | case1 s item rest hitem more ih =>
    have hcomma := (ih h).lexeme (t := .comma) (s := [',']) (.spelt trivial rfl)
    rw [List.append_assoc]
    exact hcomma.of_dataItem hitem
  | case2 s item rest _ hitem => exact h.of_dataItem hitem

/-! ### Keywords -/

/-- An entry of the table is the spelling of its token or one that is only read. -/
theorem spelling_cases : ∀ k ∈ Keyword.longestFirst,
    k.1 = k.2.text.toList ∨ (String.ofList k.1, k.2) ∈ Keyword.aliases := by decide +kernel

theorem alias_not_isAlpha : ∀ k ∈ Keyword.aliases, k.1.toList.all (!·.isAlpha) = true := by
  decide +kernel

theorem isSpelt_of_mem_tokens {t : Token} (h : t ∈ Keyword.tokens) : IsSpelt t := by
  cases t with
  | verbatim | string => simp [Keyword.tokens] at h
  | _ => trivial

/-- No other character has a capital that is no letter. -/
theorem eq_of_map_toUpper {s k : List Char} (h : s.map Char.toUpper = k)
    (hk : k.all (!·.isAlpha) = true) : s = k := by
  have hs : ∀ c ∈ s, c.toUpper = c := by
    intro c hc
    apply Char.toUpper_eq_of_not_isLower
    intro hlower
    have halpha := List.all_eq_true.mp hk c.toUpper (h ▸ List.mem_map_of_mem hc)
    rw [Char.isAlpha_toUpper_eq_isAlpha] at halpha
    simp [Char.isAlpha, hlower] at halpha
  rw [← h]
  conv_lhs => rw [← List.map_id s]
  exact List.map_congr_left fun c hc => (hs c hc).symm

/-- The keyword found at the front of a text is a lexeme of its token. -/
theorem Lexeme.longest? {s rest : List Char} {n : Nat} {t : Token}
    (h : Keyword.longest? s = some (n, t)) : Lexeme rest t (s.take n) := by
  obtain ⟨k, hmem, rfl, hpre, _⟩ := Keyword.longest?_sound h
  have hk : (s.take k.length).map Char.toUpper = k := by
    rw [List.map_take]
    exact (List.prefix_iff_eq_take.mp hpre).symm
  rcases spelling_cases _ hmem with hspelt | halias
  · exact .spelt (isSpelt_of_mem_tokens (keyword_mem_tokens _ hmem)) (hk.trans hspelt)
  · have hletters := alias_not_isAlpha _ halias
    rw [String.toList_ofList] at hletters
    rw [eq_of_map_toUpper hk hletters]
    have hk' : Lexeme rest t (String.ofList k).toList := .another halias
    rwa [String.toList_ofList] at hk'

theorem Spells.of_keyword {s : List Char} {n : Nat} {t : Token} {ts : List Token}
    (h : Spells ts (s.drop n)) (hk : Keyword.longest? s = some (n, t)) : Spells (t :: ts) s := by
  have ht := h.lexeme (.longest? hk)
  rwa [List.take_append_drop] at ht

/-! ### A line -/

/-- A step of the loop takes the lexemes of the tokens it gives. -/
theorem Spells.of_lexeme {c : Char} {s rest : List Char} {ts us : List Token}
    (h : Spells us rest) (hl : Lexer.lexeme c s = .ok (ts, rest)) : Spells (ts ++ us) (c :: s) := by
  unfold Lexer.lexeme at hl
  split at hl
  · rename_i hc
    cases hl
    rw [beq_iff_eq.mp hc]
    exact h.of_quoted
  · split at hl
    · split at hl
      · rename_i text r hn
        cases hl
        rw [← (numeral_sound hn).2]
        refine h.lexeme (t := .number _) (.spelt trivial ?_)
        rw [Token.text, upper, String.toList_ofList]
      · cases hl
    · split at hl
      · rename_i n hk
        cases hl
        exact h.of_remark.of_keyword hk
      · rename_i n hk
        cases hl
        exact h.of_dataItems.of_keyword hk
      · rename_i n t _ _ hk
        cases hl
        exact h.of_keyword hk
      · split at hl
        · simp only [Except.ok.injEq, Prod.mk.injEq] at hl
          obtain ⟨rfl, rfl⟩ := hl
          have ht := h.lexeme (t := .name (upper (name (c :: s)).1)) (s := (name (c :: s)).1)
            (.spelt trivial (by rw [Token.text, upper, String.toList_ofList]))
          rwa [(name_sound (c :: s)).1] at ht
        · cases hl

theorem spells_tokens {s : List Char} {ts : List Token} (h : tokens s = .ok ts) : Spells ts s := by
  have hs := List.takeWhile_append_dropWhile (p := isSpace) (l := s)
  fun_induction tokens s generalizing ts with
  | case1 s hd =>
    cases h
    rw [← hs, hd, List.append_nil]
    exact .nil (blanks_takeWhile_isSpace s)
  | case2 | case3 => cases h
  | case4 s c rest hd ts' r hl more ht ih =>
    cases h
    have hmore := ih ht List.takeWhile_append_dropWhile
    rw [← hs, hd]
    exact (hmore.of_lexeme hl).gap (blanks_takeWhile_isSpace s)

/-- The digits that stand for a line number, or nothing where there is none. -/
inductive Numbers : Option Nat → List Char → Prop
  | none : Numbers none []
  | some {digits : List Char} : digits ≠ [] → (∀ c ∈ digits, c.isDigit = true) →
      Numbers (some (Nat.ofDigitChars 10 digits 0)) digits

theorem lineNumber_numbers {s rest : List Char} {number : Option Nat}
    (h : lineNumber s = .ok (number, rest)) : ∃ digits, s = digits ++ rest ∧ Numbers number digits := by
  have hs := List.takeWhile_append_dropWhile (p := Char.isDigit) (l := s)
  unfold lineNumber at h
  dsimp only at h
  split at h
  · cases h
    exact ⟨[], rfl, .none⟩
  · rename_i hne
    split at h
    · rename_i n hval
      cases h
      refine ⟨_, hs.symm, ?_⟩
      unfold Token.lineNumberOfDigits? at hval
      dsimp only at hval
      split at hval
      · cases hval
        exact .some (by simpa using hne) fun c hc => List.mem_takeWhile_imp hc
      · cases hval
    · cases h

/-- What ends a typed line. -/
def endsLine (c : Char) : Bool := c == '\n' || c == '\r'

theorem line_eq_ok {s : List Char} {number : Option Nat} {ts : List Token}
    (h : line s = .ok (number, ts)) :
    ∃ body, lineNumber ((dropEndWhile endsLine s).dropWhile isSpace) = .ok (number, body) ∧
      tokens body = .ok ts := by
  unfold line at h
  change (lineNumber ((dropEndWhile endsLine s).dropWhile isSpace)).bind _ = _ at h
  cases hn : lineNumber ((dropEndWhile endsLine s).dropWhile isSpace) with
  | error e =>
    rw [hn] at h
    cases h
  | ok r =>
    rw [hn] at h
    change (tokens r.2).bind _ = _ at h
    cases ht : tokens r.2 with
    | error e =>
      rw [ht] at h
      cases h
    | ok ts' =>
      rw [ht] at h
      cases h
      exact ⟨r.2, rfl, ht⟩

/-- A line that is read is, without its line end, spaces, its number and the lexemes of its tokens. -/
theorem line_lexemes {s : List Char} {number : Option Nat} {ts : List Token}
    (h : line s = .ok (number, ts)) :
    ∃ spaces digits body lineEnd, s = spaces ++ digits ++ body ++ lineEnd ∧
      (∀ c ∈ lineEnd, c = '\n' ∨ c = '\r') ∧
      (∀ c ∈ (spaces ++ digits ++ body).getLast?, c ≠ '\n' ∧ c ≠ '\r') ∧
      (∀ c ∈ spaces, isSpace c = true) ∧ Numbers number digits ∧ Spells ts body := by
  obtain ⟨body, hnumber, htokens⟩ := line_eq_ok h
  obtain ⟨lineEnd, hs, hend⟩ := dropEndWhile_append endsLine s
  obtain ⟨digits, hdigits, hvalue⟩ := lineNumber_numbers hnumber
  let spaces := (dropEndWhile endsLine s).takeWhile isSpace
  have htext : spaces ++ digits ++ body = dropEndWhile endsLine s := by
    rw [List.append_assoc, ← hdigits, List.takeWhile_append_dropWhile]
  refine ⟨spaces, digits, body, lineEnd, by rw [htext, ← hs], ?_, ?_,
    fun c hc => List.mem_takeWhile_imp hc, hvalue, spells_tokens htokens⟩
  · intro c hc
    simpa [endsLine] using hend c hc
  · intro c hc
    rw [htext, dropEndWhile, List.getLast?_reverse] at hc
    simpa [endsLine] using stops_dropWhile endsLine s.reverse c hc

/-- A `DATA` list with blanks, an alias, small letters, leading zeros and a quote left open. -/
theorem line_lexemes_data :
    line "  0010 ? a$ : data  x , \"Y\"  ,:? \"z \r\n".toList = .ok (some 10,
      [.word .PRINT, .name "A$", .colon, .word .DATA, .verbatim "  x ", .comma, .string "Y", .comma,
        .colon, .word .PRINT, .string "z "]) ∧
    ∃ spaces digits body lineEnd,
      "  0010 ? a$ : data  x , \"Y\"  ,:? \"z \r\n".toList = spaces ++ digits ++ body ++ lineEnd ∧
      (∀ c ∈ lineEnd, c = '\n' ∨ c = '\r') ∧
      (∀ c ∈ (spaces ++ digits ++ body).getLast?, c ≠ '\n' ∧ c ≠ '\r') ∧
      (∀ c ∈ spaces, isSpace c = true) ∧ Numbers (some 10) digits ∧
      Spells [.word .PRINT, .name "A$", .colon, .word .DATA, .verbatim "  x ", .comma, .string "Y",
        .comma, .colon, .word .PRINT, .string "z "] body := by
  refine ⟨?_, line_lexemes ?_⟩ <;> decide +kernel

end LineBasic.Lexer
