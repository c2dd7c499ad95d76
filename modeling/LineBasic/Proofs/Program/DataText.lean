import LineBasic.Proofs.Program.DataPointer

/-! What is typed behind `DATA` is what is read. An item is typed in one of two ways, between quotes or bare.
The scanner makes at most one token of it and drops some blanks; the reader makes an item of whatever tokens
stand between two commas. Taken together they give the text between the quotes as it is, and a bare text
without the blanks around it. -/

namespace LineBasic

open Text Lexer

/-! ## Blanks at the end -/

namespace Text

theorem dropEndWhile_append_cons {p : Char → Bool} {c : Char} (hc : p c = false) (s t : List Char) :
    dropEndWhile p (s ++ c :: t) = s ++ c :: dropEndWhile p t := by
  have hstop : Stops p (c :: s.reverse) := stops_cons.mpr hc
  have hdrop : (t.reverse ++ c :: s.reverse).dropWhile p = t.reverse.dropWhile p ++ c :: s.reverse := by
    rw [List.dropWhile_append, hstop.dropWhile]
    split
    · rename_i hnil
      rw [List.isEmpty_iff.mp hnil, List.nil_append]
    · rfl
  simp only [dropEndWhile, List.reverse_append, List.reverse_cons, List.append_assoc,
    List.singleton_append, hdrop, List.reverse_reverse]

theorem trimEnd_append_blanks {b : List Char} (hb : ∀ c ∈ b, isBlank c = true) (s : List Char) :
    trimEnd (s ++ b) = trimEnd s := by
  rw [trimEnd, trimEnd, dropEndWhile, dropEndWhile, List.reverse_append,
    List.dropWhile_append_of_pos fun c hc => hb c (List.mem_reverse.mp hc)]

theorem trim_append_blanks {b : List Char} (hb : ∀ c ∈ b, isBlank c = true) (s : List Char) :
    trim (s ++ b) = trim s := by
  rw [trim, trim, trimStart, trimStart, List.dropWhile_append]
  split
  · rename_i hnil
    rw [List.isEmpty_iff.mp hnil, List.dropWhile_eq_nil_iff.mpr hb]
  · exact trimEnd_append_blanks hb _

end Text

/-! ## Items as they are typed -/

/-- An item of a `DATA` list as it is typed. -/
inductive TypedItem where
  /-- Only spaces and tabs may stand before the quote; behind the second one any blank may. -/
  | quoted (before text after : List Char) : (∀ c ∈ before, isSpace c = true) → '"' ∉ text →
      (∀ c ∈ after, isBlank c = true) → TypedItem
  /-- Bare text goes on to the next comma or colon, and no quote stands first in it. -/
  | bare (text : List Char) : (∀ c ∈ text, (!endsItem c) = true) →
      (text.dropWhile isSpace).head? ≠ some '"' → TypedItem

namespace TypedItem

def chars : TypedItem → List Char
  | quoted before text after _ _ _ => before ++ '"' :: (text ++ '"' :: after)
  | bare text _ _ => text

/-- What the item is to be read as in a line. -/
def datum (line : Nat) : TypedItem → Datum
  | quoted _ text _ _ _ _ => ⟨String.ofList text, true, line⟩
  | bare text _ _ => ⟨String.ofList (trim text), false, line⟩

/-- A list as it is typed. -/
def joined (items : List TypedItem) : List Char := [','].intercalate (items.map chars)

theorem joined_singleton (i : TypedItem) : joined [i] = i.chars := List.intercalate_singleton

theorem joined_cons (i : TypedItem) {items : List TypedItem} (h : items ≠ []) :
    joined (i :: items) = i.chars ++ ',' :: joined items := by
  rw [joined, List.map_cons, List.intercalate_cons_of_ne_nil (by simpa using h), List.append_assoc]
  rfl

/-! ### Without the end of the line -/

theorem isBlank_of_isLineEnd {c : Char} (h : Line.isLineEnd c = true) : isBlank c = true := by
  simp only [Line.isLineEnd, Bool.or_eq_true, beq_iff_eq] at h
  rcases h with rfl | rfl <;> decide

/-- An item without the end of the line is an item of the same value. -/
theorem exists_stripped (i : TypedItem) : ∃ j : TypedItem,
    j.chars = dropEndWhile Line.isLineEnd i.chars ∧ ∀ n, j.datum n = i.datum n := by
  cases i with
  | quoted before text after hbefore htext hafter =>
    obtain ⟨cut, hcut, _⟩ := dropEndWhile_append Line.isLineEnd after
    have hafter' : ∀ c ∈ dropEndWhile Line.isLineEnd after, isBlank c = true := fun c hc =>
      hafter c (hcut ▸ List.mem_append_left _ hc)
    refine ⟨.quoted before text _ hbefore htext hafter', ?_, fun n => rfl⟩
    rw [chars, chars, dropEndWhile_append_cons (by decide), dropEndWhile_append_cons (by decide)]
  | bare text htext hquote =>
    obtain ⟨cut, hcut, hends⟩ := dropEndWhile_append Line.isLineEnd text
    have htext' : ∀ c ∈ dropEndWhile Line.isLineEnd text, (!endsItem c) = true := fun c hc =>
      htext c (hcut ▸ List.mem_append_left _ hc)
    have hquote' : ((dropEndWhile Line.isLineEnd text).dropWhile isSpace).head? ≠ some '"' := by
      intro hhead
      apply hquote
      rw [hcut]
      exact head?_dropWhile_append hhead
    refine ⟨.bare _ htext' hquote', rfl, fun n => ?_⟩
    have htrim := trim_append_blanks (fun c hc => isBlank_of_isLineEnd (hends c hc))
      (dropEndWhile Line.isLineEnd text)
    rw [← hcut] at htrim
    rw [datum, datum, htrim]

theorem exists_joined_stripped {items : List TypedItem} (h : items ≠ []) {c : Char}
    (hc : Line.isLineEnd c = false) (s : List Char) : ∃ items' : List TypedItem, items' ≠ [] ∧
      dropEndWhile Line.isLineEnd (s ++ c :: joined items) = s ++ c :: joined items' ∧
      ∀ n, items'.map (datum n) = items.map (datum n) := by
  induction items generalizing c s with
  | nil => exact absurd rfl h
  | cons i items ih =>
    cases items with
    | nil =>
      obtain ⟨j, hj, hdatum⟩ := exists_stripped i
      refine ⟨[j], by simp, ?_, fun n => by simp [hdatum]⟩
      rw [dropEndWhile_append_cons hc, joined_singleton, joined_singleton, hj]
    | cons i' items =>
      obtain ⟨items', hne, htext, hdatum⟩ :=
        ih (by simp) (c := ',') (by decide) (s ++ c :: i.chars)
      refine ⟨i :: items', by simp, ?_, fun n => congrArg (List.cons (i.datum n)) (hdatum n)⟩
      rw [joined_cons i (by simp), joined_cons i hne]
      simpa using htext

/-! ### Reading an item -/

/-- The tokens that an item is scanned as make up its value. -/
theorem dataItem_chars (i : TypedItem) {rest : List Char} (hr : Stops (fun c => !endsItem c) rest) :
    ∃ item, dataItem (i.chars ++ rest) = (item, rest) ∧ .comma ∉ item ∧
      ∀ n, Datum.ofTokens n item = i.datum n := by
  cases i with
  | quoted before text after hbefore htext hafter =>
    have hopen : (before ++ '"' :: (text ++ '"' :: (after ++ rest))).dropWhile isSpace =
        '"' :: (text ++ '"' :: (after ++ rest)) :=
      dropWhile_run hbefore (stops_cons.mpr (by decide))
    have hin : ∀ c ∈ after, (!endsItem c) = true := by
      intro c hc
      by_contra hends
      simp only [endsItem, Bool.not_eq_true, Bool.not_eq_false', Bool.or_eq_true, beq_iff_eq] at hends
      have hblank := hafter c hc
      rcases hends with rfl | rfl <;> cases hblank
    have hkept : (kept after rest).all isBlank = true :=
      List.all_eq_true.mpr fun c hc => hafter c (mem_kept hc)
    refine ⟨[.string (String.ofList text)], ?_, by simp, fun n => rfl⟩
    have hread := dataItem_quoted hopen (quoted_append htext (after ++ rest)) hin hr
    rw [hkept] at hread
    simpa [chars] using hread
  | bare text htext hquote =>
    have hread := dataItem_bare htext hr (head?_ne_quote_append hquote hr)
    obtain ⟨cut, hcut, hblank⟩ := kept_append text rest
    have htrim := trim_append_blanks hblank (kept text rest)
    rw [← hcut] at htrim
    refine ⟨_, hread, ?_, fun n => ?_⟩
    · split <;> simp
    · rw [datum, htrim]
      split
      · rename_i hnil
        rw [List.isEmpty_iff.mp hnil]
        rfl
      · rw [Datum.ofTokens, String.toList_ofList]

/-- The tokens of a list make up the values of its items. -/
theorem dataItems_joined {items : List TypedItem} (h : items ≠ []) {rest : List Char}
    (hr : rest = [] ∨ ∃ r, rest = ':' :: r) : ∃ list, dataItems (joined items ++ rest) = (list, rest) ∧
      ∀ n, Datum.ofList n list = items.map (datum n) := by
  induction items with
  | nil => exact absurd rfl h
  | cons i items ih =>
    cases items with
    | nil =>
      have hstop : Stops (fun c => !endsItem c) rest := by
        rcases hr with rfl | ⟨r, rfl⟩
        · exact stops_nil _
        · exact stops_cons.mpr rfl
      obtain ⟨item, hitem, hcomma, hdatum⟩ := dataItem_chars i hstop
      refine ⟨item, ?_, fun n => ?_⟩
      · rw [joined_singleton, dataItems_eq, hitem]
        rcases hr with rfl | ⟨r, rfl⟩ <;> rfl
      · rw [Datum.ofList_of_not_mem n hcomma, hdatum]
        rfl
    | cons i' items =>
      obtain ⟨list, hlist, hdata⟩ := ih (by simp)
      have hstop : Stops (fun c => !endsItem c) (',' :: (joined (i' :: items) ++ rest)) :=
        stops_cons.mpr rfl
      obtain ⟨item, hitem, hcomma, hdatum⟩ := dataItem_chars i hstop
      refine ⟨item ++ .comma :: list, ?_, fun n => ?_⟩
      · rw [joined_cons i (by simp), List.append_assoc, List.cons_append, dataItems_eq, hitem]
        simp only [hlist]
      · rw [Datum.ofList_append_comma n hcomma, hdatum, hdata]
        rfl

end TypedItem

/-! ## The line of a list -/

namespace Keyword

/-- Only the capitals of a text decide on the keyword at its front. -/
theorem longest?_congr {s t : List Char} (h : s.map Char.toUpper = t.map Char.toUpper) :
    longest? s = longest? t := by
  simp only [longest?, List.map_take, h]

end Keyword

namespace Lexer

theorem tokens_spaces {gap : List Char} (h : ∀ c ∈ gap, isSpace c = true) (s : List Char) :
    tokens (gap ++ s) = tokens s := by
  rw [tokens_eq, tokens_eq s, List.dropWhile_append_of_pos h]

theorem isAlpha_of_data {keyword : List Char} (h : keyword.map Char.toUpper = "DATA".toList) :
    ∀ c ∈ keyword, c.isAlpha = true := by
  have hletters : "DATA".toList.all Char.isAlpha = true := by decide
  intro c hc
  rw [← Char.isAlpha_toUpper_eq_isAlpha]
  exact List.all_eq_true.mp hletters _ (h ▸ List.mem_map_of_mem hc)

theorem tokens_data {keyword : List Char} (h : keyword.map Char.toUpper = "DATA".toList)
    (s : List Char) :
    tokens (keyword ++ s) = (tokens (dataItems s).2).map (.word .DATA :: (dataItems s).1 ++ ·) := by
  have hlength : keyword.length = 4 := by simpa using congrArg List.length h
  have hk : Keyword.longest? (keyword ++ s) = some (4, .word .DATA) := by
    have hcapitals : (keyword ++ s).map Char.toUpper = ("DATA".toList ++ s).map Char.toUpper := by
      rw [List.map_append, List.map_append, h]
      rfl
    rw [Keyword.longest?_congr hcapitals]
    exact Keyword.longest?_text_append_of_extenders_eq_nil (t := .word .DATA) (by decide)
      (by decide +kernel) s
  have hdrop : (keyword ++ s).drop 4 = s := by rw [← hlength, List.drop_left]
  obtain ⟨c, keyword, rfl⟩ : ∃ c k, keyword = c :: k :=
    List.exists_cons_of_length_pos (by omega)
  have hstart := startsKeyword_of_isAlpha (isAlpha_of_data h c List.mem_cons_self)
  rw [List.cons_append] at hk hdrop
  have hlex := lexeme_of_longest? hstart hk
  rw [hdrop] at hlex
  exact tokens_of_lexeme (not_isSpace_of_startsKeyword hstart) hlex

theorem lineNumber_digits {digits rest : List Char} (hne : digits ≠ [])
    (hdigits : ∀ c ∈ digits, c.isDigit = true) (hstop : Stops Char.isDigit rest)
    {r : Option Nat × List Char} (h : lineNumber (digits ++ rest) = .ok r) :
    r = (some (Nat.ofDigitChars 10 digits 0), rest) := by
  have hempty : digits.isEmpty = false := List.isEmpty_eq_false_iff.mpr hne
  simp only [lineNumber, takeWhile_run hdigits hstop, dropWhile_run hdigits hstop, hempty,
    Bool.false_eq_true, if_false] at h
  split at h
  · rename_i n hn
    rw [Token.lineNumberOfDigits?] at hn
    split at hn
    · cases hn
      cases h
      rfl
    · cases hn
  · cases h

end Lexer

namespace Datum

/-- The items of a list come before those of the statements after it. -/
theorem exists_ofListOn_append (n : Nat) {list rest : List Token} (h : .colon ∉ list)
    (hr : rest = [] ∨ ∃ us, rest = .colon :: us) :
    ∃ more, ofListOn n (list ++ rest) = ofList n list ++ more := by
  rw [ofListOn, splitOn_append h]
  rcases hr with rfl | ⟨us, rfl⟩
  · exact ⟨[], by simp [List.splitOn]⟩
  · refine ⟨(us.splitOn .colon).flatMap (ofStatement n), ?_⟩
    rw [List.splitOn, List.splitOnP_cons_eq_if_modifyHead, if_pos (by rfl)]
    simp [List.splitOn]

/-- What the first items ahead are is read first. -/
theorem nth_of_ahead {program : Listing} {p : Option DataPointer} {items more : List Datum}
    (h : ahead program.lines p = items ++ more) {k : Nat} (hk : k < items.length) :
    nth program p k = .ok items[k] := by
  rw [nth_eq, h, given, List.getElem?_append_left hk, List.getElem?_eq_getElem hk]

end Datum

namespace Listing

/-- From its own number on, a line that was entered comes first. -/
theorem filter_insertLine (l : ProgramLine) {lines : List ProgramLine}
    (h : lines.Pairwise (·.number < ·.number)) :
    (insertLine l lines).filter (l.number ≤ ·.number) = l :: lines.filter (l.number < ·.number) := by
  induction lines with
  | nil => simp [insertLine]
  | cons x lines ih =>
    obtain ⟨hx, hlines⟩ := List.pairwise_cons.mp h
    have hall : ∀ n ≤ x.number, (∀ y ∈ lines, n ≤ y.number) ∧ ∀ y ∈ lines, n < y.number :=
      fun n hn => ⟨fun y hy => Nat.le_of_lt (Nat.lt_of_le_of_lt hn (hx y hy)),
        fun y hy => Nat.lt_of_le_of_lt hn (hx y hy)⟩
    rw [insertLine]
    split
    · rename_i hlt
      obtain ⟨hle, hlt'⟩ := hall l.number (Nat.le_of_lt hlt)
      simp only [List.filter_cons, Nat.le_refl, decide_true, if_true, Nat.le_of_lt hlt, hlt]
      rw [List.filter_eq_self.mpr (by simpa using hle), List.filter_eq_self.mpr (by simpa using hlt')]
    · split
      · rename_i heq
        obtain ⟨hle, hlt'⟩ := hall l.number (Nat.le_of_eq heq)
        simp only [List.filter_cons, Nat.le_refl, decide_true, if_true, heq, Nat.lt_irrefl,
          decide_false, Bool.false_eq_true, if_false]
        rw [← heq, List.filter_eq_self.mpr (by simpa using hle),
          List.filter_eq_self.mpr (by simpa using hlt')]
      · rename_i hlt heq
        have hgt : ¬ l.number ≤ x.number := by omega
        simp only [List.filter_cons, hgt, hlt, decide_false, Bool.false_eq_true, if_false]
        exact ih hlines

theorem lines_enter {p : Listing} {l : Line} {n : Nat} (hn : l.number = some n) (hl : l.tokens ≠ []) :
    (p.enter l).lines = insertLine ⟨n, l.tokens⟩ p.lines := by
  rw [enter, hn]
  simp only [hl, dif_neg, not_false_eq_true]
  rfl

end Listing

namespace TypedItem

/-- A program line with a list as it is typed: its number, `DATA` in any letters, the items and what
follows them. -/
def lineText (digits gap keyword : List Char) (items : List TypedItem) (tail : List Char) : String :=
  String.ofList (digits ++ (gap ++ (keyword ++ (joined items ++ tail))))

section

variable {keyword tail : List Char} {items : List TypedItem}

/-- Without the end of the line, such a line is one of the same values. -/
theorem exists_lineText_stripped (digits gap : List Char) (hkeyword : keyword.map Char.toUpper = "DATA".toList)
    (hitems : items ≠ []) (htail : tail = [] ∨ ∃ r, tail = ':' :: r) :
    ∃ (items' : List TypedItem) (tail' : List Char), items' ≠ [] ∧
      (tail' = [] ∨ ∃ r, tail' = ':' :: r) ∧
      dropEndWhile Line.isLineEnd (lineText digits gap keyword items tail).toList =
        (lineText digits gap keyword items' tail').toList ∧
      ∀ n, items'.map (datum n) = items.map (datum n) := by
  simp only [lineText, String.toList_ofList]
  rcases htail with rfl | ⟨r, rfl⟩
  · -- the last letter of the keyword ends no line, so only the last item can lose something
    have hne : keyword ≠ [] := by
      rintro rfl
      cases hkeyword
    obtain ⟨before, c, rfl⟩ : ∃ before c, keyword = before ++ [c] :=
      ⟨_, _, (List.dropLast_append_getLast hne).symm⟩
    have hletter := isAlpha_of_data hkeyword c (by simp)
    have hend : Line.isLineEnd c = false := by
      by_contra hend
      simp only [Line.isLineEnd, Bool.not_eq_false, Bool.or_eq_true, beq_iff_eq] at hend
      rcases hend with rfl | rfl <;> cases hletter
    obtain ⟨items', hne, htext, hdatum⟩ :=
      exists_joined_stripped hitems hend (digits ++ (gap ++ before))
    refine ⟨items', [], hne, .inl rfl, ?_, hdatum⟩
    simpa using htext
  · refine ⟨items, ':' :: dropEndWhile Line.isLineEnd r, hitems, .inr ⟨_, rfl⟩, ?_, fun n => rfl⟩
    have hcut := dropEndWhile_append_cons (p := Line.isLineEnd) (c := ':') (by decide)
      (digits ++ (gap ++ (keyword ++ joined items))) r
    simpa using hcut

variable {digits gap : List Char} (hne : digits ≠ []) (hdigits : ∀ c ∈ digits, c.isDigit = true)
  (hgap : ∀ c ∈ gap, isSpace c = true) (hkeyword : keyword.map Char.toUpper = "DATA".toList)
  (hitems : items ≠ []) (htail : tail = [] ∨ ∃ r, tail = ':' :: r)

include hne hdigits hgap hkeyword hitems htail

/-- The tokens of such a line: the word, those of the list, and those of the statements after it. -/
theorem tokens_of_lineText {l : Line} (hl : Line.ofText (lineText digits gap keyword items tail) = .ok l) :
    l.number = some (Nat.ofDigitChars 10 digits 0) ∧ ∃ list rest,
      l.tokens = .word .DATA :: (list ++ rest) ∧ (rest = [] ∨ ∃ us, rest = .colon :: us) ∧
      .colon ∉ list ∧ ∀ n, Datum.ofList n list = items.map (datum n) := by
  obtain ⟨items', tail', hitems', htail', htext, hdatum⟩ :=
    exists_lineText_stripped digits gap hkeyword hitems htail
  obtain ⟨list, hlist, hdata⟩ := dataItems_joined hitems' htail'
  have hcolon : Token.colon ∉ list := by
    have hsound := (dataItems_sound (joined items' ++ tail')).1
    rw [hlist] at hsound
    exact fun h => (Datum.of_mem_items hsound _ h).1 rfl
  have hspace : Stops isSpace (lineText digits gap keyword items' tail').toList := by
    obtain ⟨d, ds, rfl⟩ := List.exists_cons_of_ne_nil hne
    rw [lineText, String.toList_ofList, List.cons_append]
    have hd := hdigits d List.mem_cons_self
    exact stops_cons.mpr (not_isSpace_of_numeral (by simp [hd]))
  have hstop : Stops Char.isDigit (gap ++ (keyword ++ (joined items' ++ tail'))) := by
    refine stops_append (fun c hc => ?_) ?_
    · have hc := hgap c (List.mem_of_mem_head? hc)
      simp only [isSpace, Bool.or_eq_true, beq_iff_eq] at hc
      rcases hc with rfl | rfl <;> rfl
    · cases keyword with
      | nil => cases hkeyword
      | cons c keyword =>
        have hstart := startsKeyword_of_isAlpha (isAlpha_of_data hkeyword c List.mem_cons_self)
        simp only [startsKeyword, Bool.not_eq_true', Bool.or_eq_false_iff] at hstart
        exact stops_cons.mpr hstart.1.2
  rw [Line.ofText_eq, htext, hspace.dropWhile, lineText, String.toList_ofList] at hl
  cases hn : lineNumber (digits ++ (gap ++ (keyword ++ (joined items' ++ tail')))) with
  | error e =>
    rw [hn] at hl
    cases hl
  | ok r =>
    rw [hn, lineNumber_digits hne hdigits hstop hn] at hl
    simp only [Except.bind, tokens_spaces hgap, tokens_data hkeyword, hlist] at hl
    cases ht : tokens tail' with
    | error e =>
      rw [ht] at hl
      cases hl
    | ok rest =>
      rw [ht] at hl
      cases hl
      refine ⟨rfl, list, rest, rfl, ?_, hcolon, fun n => (hdata n).trans (hdatum n)⟩
      rcases htail' with rfl | ⟨r, rfl⟩
      · rw [tokens_nil] at ht
        cases ht
        exact .inl rfl
      · exact .inr (tokens_colon ht)

/-- Reading from the start of a line on, or of a program that is this line only, gives the items of its
list as they were typed, in their order. -/
theorem reads_as_typed {l : Line} (hl : Line.ofText (lineText digits gap keyword items tail) = .ok l)
    (program : Listing) (k : Nat) (hk : k < items.length) :
    Datum.nth (program.enter l) (some ⟨Nat.ofDigitChars 10 digits 0, 0, false⟩) k =
        .ok (items[k].datum (Nat.ofDigitChars 10 digits 0)) ∧
      Datum.nth (Listing.empty.enter l) none k = .ok (items[k].datum (Nat.ofDigitChars 10 digits 0)) := by
  obtain ⟨hnumber, list, rest, htokens, hrest, hcolon, hdata⟩ :=
    tokens_of_lineText hne hdigits hgap hkeyword hitems htail hl
  generalize Nat.ofDigitChars 10 digits 0 = n at hnumber ⊢
  have hlines : ∀ p : Listing, (p.enter l).lines = Listing.insertLine ⟨n, l.tokens⟩ p.lines := fun p =>
    Listing.lines_enter hnumber (by simp [htokens])
  obtain ⟨more, hmore⟩ := Datum.exists_ofListOn_append n hcolon hrest
  rw [hdata, ← Datum.ofStatements_data, ← htokens] at hmore
  have hitem : ∀ (p : Listing) q after, Datum.ahead p.lines q = Datum.ofStatements n l.tokens ++ after →
      Datum.nth p q k = .ok (items[k].datum n) := by
    intro p q after h
    rw [hmore, List.append_assoc] at h
    rw [Datum.nth_of_ahead h (by simpa using hk), List.getElem_map]
  constructor
  · apply hitem _ _ (Datum.ofLines (program.lines.filter (n < ·.number)))
    rw [Datum.ahead_of_line (program.enter l).ascending, hlines]
    rw [Listing.filter_insertLine ⟨n, l.tokens⟩ program.ascending]
    rfl
  · apply hitem _ _ []
    rw [hlines]
    rfl

end

/-- Quotes inside a bare text, a comma and a colon between quotes, an empty item, and a statement after
them. -/
theorem reads_as_typed_mixed : ∃ items : List TypedItem,
    lineText "010".toList " ".toList "data".toList items ":? 1\n".toList =
      "010 data  say \"x\" , \"A,B:\" ,:? 1\n" ∧
    items.map (datum 10) = [⟨"say \"x\"", false, 10⟩, ⟨"A,B:", true, 10⟩, ⟨"", false, 10⟩] ∧
    ∃ l, Line.ofText "010 data  say \"x\" , \"A,B:\" ,:? 1\n" = .ok l ∧
      ∀ (program : Listing) k (hk : k < items.length),
        Datum.nth (program.enter l) (some ⟨10, 0, false⟩) k = .ok (items[k].datum 10) ∧
          Datum.nth (Listing.empty.enter l) none k = .ok (items[k].datum 10) := by
  let items : List TypedItem :=
    [.bare "  say \"x\" ".toList (List.all_eq_true.mp (by decide)) (by decide),
      .quoted " ".toList "A,B:".toList " ".toList (List.all_eq_true.mp (by decide)) (by decide)
        (List.all_eq_true.mp (by decide)),
      .bare [] (by simp) (by simp)]
  have htext : lineText "010".toList " ".toList "data".toList items ":? 1\n".toList =
      "010 data  say \"x\" , \"A,B:\" ,:? 1\n" := by decide +kernel
  have hl : Line.ofText "010 data  say \"x\" , \"A,B:\" ,:? 1\n" = .ok ⟨some 10,
      [.word .DATA, .verbatim "  say \"x\" ", .comma, .string "A,B:", .comma, .colon, .word .PRINT,
        .number "1"]⟩ := by decide +kernel
  refine ⟨items, htext, by decide +kernel, _, hl, ?_⟩
  rw [← htext] at hl
  exact reads_as_typed (by decide) (List.all_eq_true.mp (by decide)) (List.all_eq_true.mp (by decide))
    (by decide) (by simp [items]) (.inr ⟨_, rfl⟩) hl

end TypedItem

end LineBasic
