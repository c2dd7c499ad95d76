import LineBasic.Program.Line
import LineBasic.Proofs.Token.Reading

/-! The tokens of a line as a listing shows them. Between two words a listing leaves room, and verbatim
text brings its own, so every token is closed by the next one, with one exception: a comparison operator
before another one, which are read as one where they fuse. -/

namespace LineBasic.Lexer

open Text

/-- The room that a listing leaves between two neighbours. -/
def room (before after : Token) : List Char := if Line.spaced before after then [' '] else []

theorem toList_tailText_cons (b t : Token) (ts : List Token) :
    (Line.tailText b (t :: ts)).toList =
      room b t ++ (t.text.toList ++ (Line.tailText t ts).toList) := by
  rw [Line.tailText, room]
  split <;> simp

theorem toList_tokensText_cons (t : Token) (ts : List Token) :
    (Line.tokensText (t :: ts)).toList = t.text.toList ++ (Line.tailText t ts).toList := by
  simp [Line.tokensText]

theorem tokens_room_append (b t : Token) (s : List Char) : tokens (room b t ++ s) = tokens s := by
  unfold room
  split
  · rw [tokens_eq, tokens_eq s]
    rfl
  · rfl

/-- Room before the first token makes no difference. -/
theorem tokens_tailText (b : Token) (ts : List Token) :
    tokens (Line.tailText b ts).toList = tokens (Line.tokensText ts).toList := by
  cases ts with
  | nil => rfl
  | cons t ts => rw [toList_tailText_cons, tokens_room_append, toList_tokensText_cons]

/-! ### What closes a token in a listing -/

/-- Where a word token is followed without room, it is by a symbol. -/
theorem not_isWordy_of_not_spaced {t u : Token} (hw : t.isWordy = true) (hu : ∀ s, u ≠ .verbatim s)
    (h : Line.spaced t u = false) : u.isWordy = false := by
  cases u with
  | verbatim s => exact absurd rfl (hu s)
  | leftParen | rightParen | comma | colon | semicolon => rfl
  | _ => simpa [Line.spaced, hw] using h

theorem not_spaced_of_not_isWordy {t : Token} (hw : t.isWordy = false) (u : Token) :
    Line.spaced t u = false := by
  cases u with
  | verbatim => rfl
  | leftParen => cases t <;> first | rfl | exact hw
  | _ => simp [Line.spaced, hw]

/-- A symbol is lengthened by the first character of another token exactly when the two fuse. -/
theorem lengthens_eq_fuses {t u : Token} (hw : t.isWordy = false) {c : Char} {s : List Char}
    (hs : u.text.toList = c :: s) (hrel : isRelationChar c = u.isComparison) :
    lengthens t c = t.fuses u := by
  rw [lengthens, if_neg (by simp [hw]), Token.fuses, hrel, hs]
  rfl

/-- In a listing each token is closed by the next one, unless the two fuse. -/
theorem closes_tailText {t u : Token} {us : List Token} (ht : Plain t)
    (hu : Plain u ∨ u ∈ Keyword.tokens) (hf : t.fuses u = false) :
    Closes t (Line.tailText t (u :: us)).toList := by
  obtain ⟨c, s, hs, -, hupper, hinner, hrel⟩ := exists_start hu
  have hverb : ∀ s, u ≠ .verbatim s := by
    rintro s rfl
    rcases hu with hu | hu
    · exact hu
    · simp [Keyword.tokens] at hu
  rw [toList_tailText_cons, room, hs]
  by_cases hw : t.isWordy = true
  · apply closes_of_stops ht hw
    split
    · exact stops_cons.mpr (by decide)
    · rename_i hsp
      have huw := not_isWordy_of_not_spaced hw hverb (by simpa using hsp)
      exact stops_cons.mpr (hinner.resolve_left (by simp [huw]))
  · rw [Bool.not_eq_true] at hw
    rw [if_neg (by simp [not_spaced_of_not_isWordy hw u]), List.nil_append, List.cons_append]
    have hmem : t ∈ Keyword.tokens := by
      rcases mem_tokens ht with hmem | ⟨s, rfl⟩ | ⟨s, rfl⟩ | ⟨s, rfl⟩
      · exact hmem
      all_goals cases hw
    have hc : ∀ d ∈ (c :: (s ++ (Line.tailText u us).toList)).head?,
        d.toUpper ∉ Keyword.extenders t := by
      intro d hd hin
      obtain rfl : c = d := by simpa using hd
      rw [hupper] at hin
      have hext := lengthens_of_mem_extenders hmem hin
      rw [lengthens_eq_fuses hw hs hrel] at hext
      rw [hext] at hf
      cases hf
    cases t with
    | verbatim | name | number | string => simp [Keyword.tokens] at hmem
    | _ => exact hc

/-- A one-character comparison has no longer spelling. -/
theorem comparison_length : ∀ k ∈ Keyword.longestFirst, k.2.isComparison = true →
    k.2.text.toList.length = 1 → k.1.length = 1 := by
  decide +kernel

/-- Where two tokens fuse, something else is read in place of the first. -/
theorem tokens_ne_of_fuses {t u : Token} {us ts : List Token} (hf : t.fuses u = true) :
    tokens (t.text.toList ++ (Line.tailText t (u :: us)).toList) ≠ .ok (t :: ts) := by
  obtain ⟨⟨⟨hcmp, hlen⟩, hucmp⟩, -⟩ : ((t.isComparison = true ∧ t.text.toList.length = 1) ∧
      u.isComparison = true) ∧ u.text.toList.head? ≠ t.text.toList.head? := by
    simpa [Token.fuses] using hf
  obtain ⟨hmem, hw⟩ := mem_tokens_of_isComparison hcmp
  obtain ⟨c, s, hs, -, hupper, -, hrel⟩ := exists_start (.inr (mem_tokens_of_isComparison hucmp).1)
  have hstart := keyword_start t hmem
  have hentry := mem_longestFirst_of_lengthens hmem hw ((lengthens_eq_fuses hw hs hrel).trans hf)
  have hcap := Keyword.text_upper t hmem
  obtain ⟨a, ha⟩ := List.length_eq_one_iff.mp hlen
  rw [ha] at hentry hcap hstart
  rw [List.head?_cons, Option.any_some] at hstart
  rw [toList_tailText_cons, room, not_spaced_of_not_isWordy hw, ha, hs]
  intro hread
  have hread : tokens (a :: c :: (s ++ (Line.tailText u us).toList)) = .ok (t :: ts) := hread
  -- the two characters spell an operator, so a spelling of at least that length is found
  obtain ⟨k, hk, hkeq⟩ := List.mem_map.mp hentry
  have hfit : k.1 <+: (a :: c :: (s ++ (Line.tailText u us).toList)).map Char.toUpper := by
    simp only [List.map_cons, List.map_nil, List.cons.injEq, and_true] at hcap
    rw [hkeq, List.map_cons, List.map_cons, hcap, hupper]
    exact List.prefix_append [a, c] _
  cases hfound : Keyword.longest? (a :: c :: (s ++ (Line.tailText u us).toList)) with
  | none => exact Keyword.longest?_eq_none.mp hfound k hk hfit
  | some r =>
    obtain ⟨n, t'⟩ := r
    obtain ⟨k', hk', rfl, -, hmax⟩ := Keyword.longest?_sound hfound
    have hlong : 2 ≤ k'.length := by simpa [hkeq] using hmax k hk hfit
    obtain rfl := eq_of_longest? hstart hfound hread
    have hone : k'.length = 1 := comparison_length _ hk' hcmp hlen
    omega

/-! ### Remarks and data -/

theorem remark_tailText {tail : List Token} (h : IsRemark tail) :
    remark (Line.tailText (.word .REM) tail).toList = tail := by
  cases h with
  | blank => rfl
  | @text b hne htrim =>
    have hlist : (Line.tailText (.word .REM) [.verbatim b]).toList = b.toList := by
      simp [Line.tailText, Line.spaced, Token.text]
    rw [hlist, remark, htrim]
    simp [hne]

theorem tailText_append {u : Token} (hu : ∀ b, Line.spaced b u = false) (us : List Token)
    (b : Token) (ts : List Token) : (Line.tailText b (ts ++ u :: us)).toList =
      (Line.tailText b ts).toList ++ (u.text.toList ++ (Line.tailText u us).toList) := by
  induction ts generalizing b with
  | nil =>
    rw [List.nil_append, toList_tailText_cons, room, hu b]
    rfl
  | cons t ts ih =>
    rw [List.cons_append, toList_tailText_cons, ih t, toList_tailText_cons]
    simp only [List.append_assoc]

theorem not_spaced_comma (b : Token) : Line.spaced b .comma = false := Bool.and_false _

theorem not_spaced_colon (b : Token) : Line.spaced b .colon = false := Bool.and_false _

/-- Where an item of data ends, no quote is near. -/
theorem head?_ne_quote {rest : List Char} (hr : Stops (fun c => !endsItem c) rest) :
    (rest.dropWhile isSpace).head? ≠ some '"' := by
  cases rest with
  | nil => simp
  | cons c rest =>
    have hc := stops_cons.mp hr
    simp only [endsItem, Bool.not_eq_false', Bool.or_eq_true, beq_iff_eq] at hc
    rcases hc with rfl | rfl <;> simp [isSpace]

theorem head?_ne_quote_append {b rest : List Char}
    (hq : (b.dropWhile isSpace).head? ≠ some '"') (hr : Stops (fun c => !endsItem c) rest) :
    ((b ++ rest).dropWhile isSpace).head? ≠ some '"' := by
  rw [List.dropWhile_append]
  split
  · exact head?_ne_quote hr
  · rw [List.head?_append]
    cases h : b.dropWhile isSpace with
    | nil => simp_all
    | cons c s => rw [h] at hq; simpa using hq

/-- A listed item is read back, be it before a comma, before a colon or at the end of the line. -/
theorem dataItem_tailText (b : Token) {item : List Token} {rest : List Char}
    (h : IsItem rest.isEmpty item) (hr : Stops (fun c => !endsItem c) rest) :
    dataItem ((Line.tailText b item).toList ++ rest) = (item, rest) := by
  have hroom : ∀ (t : Token) (s : List Char), (room b t ++ '"' :: s).dropWhile isSpace = '"' :: s := by
    intro t s
    unfold room
    split <;> rfl
  cases h with
  | empty =>
    have hread := dataItem_bare (b := []) (by simp) hr (head?_ne_quote_append (by simp) hr)
    rw [kept_eq_self fun _ => rfl] at hread
    exact hread
  | @bare v hne hv hq hlast =>
    have htext : (Line.tailText b [.verbatim v]).toList = v.toList := by
      simp [Line.tailText, Line.spaced, Token.text]
    rw [htext, dataItem_bare hv hr (head?_ne_quote_append hq hr), kept_eq_self hlast]
    simp [hne]
  | @quoted q hq =>
    have htext : (Line.tailText b [.string q]).toList ++ rest =
        room b (.string q) ++ '"' :: (q.toList ++ '"' :: ([] ++ rest)) := by
      rw [toList_tailText_cons]
      simp [Line.tailText, Token.text]
    rw [htext, dataItem_quoted (hroom _ _) (quoted_append hq _) (by simp) hr, kept_eq_self fun _ => rfl]
    simp
  | @both q v hq hblank hv hlast =>
    have htext : (Line.tailText b [.string q, .verbatim v]).toList ++ rest =
        room b (.string q) ++ '"' :: (q.toList ++ '"' :: (v.toList ++ rest)) := by
      rw [toList_tailText_cons]
      simp [Line.tailText, Line.spaced, Token.text]
    rw [htext, dataItem_quoted (hroom _ _) (quoted_append hq _) hv hr, kept_eq_self hlast, hblank]
    simp

/-- A listed `DATA` list is read back. -/
theorem dataItems_tailText (b : Token) {items : List Token} {rest : List Char}
    (h : IsItems rest.isEmpty items) (hr : rest = [] ∨ ∃ r, rest = ':' :: r) :
    dataItems ((Line.tailText b items).toList ++ rest) = (items, rest) := by
  have hstop : Stops (fun c => !endsItem c) rest := by
    rcases hr with rfl | ⟨r, rfl⟩
    · exact stops_nil _
    · exact stops_cons.mpr rfl
  induction h generalizing b with
  | one hitem =>
    rw [dataItems_eq, dataItem_tailText b hitem hstop]
    rcases hr with rfl | ⟨r, rfl⟩ <;> rfl
  | @cons item items hitem hitems ih =>
    rw [tailText_append not_spaced_comma, List.append_assoc]
    have hread : dataItem ((Line.tailText b item).toList ++
        ',' :: ((Line.tailText .comma items).toList ++ rest)) = (item, _) :=
      dataItem_tailText b hitem (stops_cons.mpr rfl)
    have htext : Token.comma.text.toList ++ (Line.tailText .comma items).toList ++ rest =
        ',' :: ((Line.tailText .comma items).toList ++ rest) := rfl
    rw [htext, dataItems_eq, hread]
    simp only [ih .comma]

/-! ### All of a line -/

/-- No two neighbours fuse. -/
def Apart (ts : List Token) : Prop := ts.IsChain fun a b => a.fuses b = false

theorem apart_cons_of_not_fuses {t : Token} (ht : ∀ u, t.fuses u = false) {ts : List Token} :
    Apart (t :: ts) ↔ Apart ts := by
  rw [Apart, List.isChain_cons]
  exact and_iff_right fun u _ => ht u

theorem IsItem.apart_append {last : Bool} {item : List Token} (h : IsItem last item)
    (ts : List Token) : Apart (item ++ ts) ↔ Apart ts := by
  cases h with
  | empty => rfl
  | bare | quoted => exact apart_cons_of_not_fuses fun _ => rfl
  | both =>
    exact (apart_cons_of_not_fuses fun _ => rfl).trans (apart_cons_of_not_fuses fun _ => rfl)

/-- The tokens of data never fuse with a neighbour. -/
theorem IsItems.apart_append {last : Bool} {items : List Token} (h : IsItems last items)
    (ts : List Token) : Apart (items ++ ts) ↔ Apart ts := by
  induction h with
  | one h => exact h.apart_append ts
  | cons h _ ih =>
    rw [List.append_assoc, h.apart_append, List.cons_append,
      apart_cons_of_not_fuses fun _ => rfl]
    exact ih

theorem map_append_eq_ok (us : List Token) {ts : List Token} {r : Except Condition (List Token)} :
    r.map (us ++ ·) = .ok (us ++ ts) ↔ r = .ok ts := by
  cases r with
  | error e => exact ⟨fun h => (by cases h), fun h => (by cases h)⟩
  | ok vs => simp [Except.map]

theorem Lexed.head {t : Token} {ts : List Token} (h : Lexed (t :: ts)) :
    Plain t ∨ t ∈ Keyword.tokens := by
  cases h with
  | plain ht _ => exact .inl ht
  | remark _ => exact .inr (by decide)
  | data _ _ _ => exact .inr (by decide)

/-- The listed text of a line is read back exactly if no two neighbours in it fuse. -/
theorem tokens_tokensText_iff {ts : List Token} (h : Lexed ts) :
    tokens (Line.tokensText ts).toList = .ok ts ↔ Apart ts := by
  induction h with
  | nil => exact ⟨fun _ => List.isChain_nil, fun _ => tokens_nil⟩
  | @plain t ts ht hts ih =>
    rw [toList_tokensText_cons]
    cases ts with
    | nil =>
      refine ⟨fun _ => List.isChain_singleton _, fun _ => ?_⟩
      rw [tokens_plain ht (by cases t <;> simp [Closes, Stops, Line.tailText]), Line.tailText]
      simp [tokens_nil, Except.map]
    | cons u us =>
      cases hf : t.fuses u with
      | true =>
        refine iff_of_false (tokens_ne_of_fuses hf) fun hapart => ?_
        have := (List.isChain_cons_cons.mp hapart).1
        rw [hf] at this
        cases this
      | false =>
        rw [tokens_plain ht (closes_tailText ht hts.head hf), tokens_tailText]
        refine (map_append_eq_ok [t]).trans (ih.trans ?_)
        rw [Apart, Apart, List.isChain_cons_cons]
        exact (and_iff_right hf).symm
  | @remark tail htail =>
    rw [toList_tokensText_cons,
      tokens_keyword_of_extenders_eq_nil (by decide) (by decide +kernel)]
    simp only [keywordLexeme, remark_tailText htail, tokens_nil, Except.map, List.append_nil]
    refine iff_of_true trivial ((apart_cons_of_not_fuses fun _ => rfl).mpr ?_)
    cases htail with
    | blank => exact List.isChain_nil
    | text => exact List.isChain_singleton _
  | @data items ts hitems hts _ ih =>
    have hsplit : ∃ rest, (Line.tailText (.word .DATA) (items ++ ts)).toList =
        (Line.tailText (.word .DATA) items).toList ++ rest ∧ rest.isEmpty = ts.isEmpty ∧
        (rest = [] ∨ ∃ r, rest = ':' :: r) ∧ tokens rest = tokens (Line.tokensText ts).toList := by
      rcases hts with rfl | ⟨us, rfl⟩
      · exact ⟨[], by simp, rfl, .inl rfl, rfl⟩
      · refine ⟨':' :: (Line.tailText .colon us).toList, ?_, rfl, .inr ⟨_, rfl⟩, ?_⟩
        · rw [tailText_append not_spaced_colon]
          rfl
        · rw [toList_tokensText_cons]
          rfl
    obtain ⟨rest, htext, hempty, hcolon, htokens⟩ := hsplit
    rw [toList_tokensText_cons,
      tokens_keyword_of_extenders_eq_nil (by decide) (by decide +kernel), htext]
    simp only [keywordLexeme, dataItems_tailText _ (hempty ▸ hitems) hcolon, htokens]
    rw [apart_cons_of_not_fuses fun _ => rfl, hitems.apart_append, ← ih]
    exact map_append_eq_ok (.word .DATA :: items)

end LineBasic.Lexer
