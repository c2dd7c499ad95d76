import Mathlib.Data.List.Forall2
import LineBasic.Machine.Session
import LineBasic.Proofs.Program.Edits
import LineBasic.Proofs.Program.RoundTrip

/-! Loading a program comes to the same as typing it. Where every line of a text can be read and has a number,
the program is then the one that entering the lines one after another gives; and where one cannot be read
or has no number, nothing has changed. How the lines end makes no difference. -/

namespace LineBasic

/-! ## The lines of a text -/

namespace Text

/-- The lines of a text. A line ends at a line feed, and a carriage return right before that belongs to the end. -/
def typedLines : List Char → List (List Char)
  | [] => [[]]
  | '\n' :: rest => [] :: typedLines rest
  | '\r' :: '\n' :: rest => [] :: typedLines rest
  | c :: rest => (typedLines rest).modifyHead (c :: ·)

/-- The lines of a text that are not blank. -/
def written (s : String) : List String := ((typedLines s.toList).filter (!·.all isBlank)).map String.ofList

/-- The same line, which may have kept the carriage return of its end. -/
def SameLine (a b : List Char) : Prop := b = a ∨ b = a ++ ['\r']

theorem SameLine.cons {a b : List Char} (h : SameLine a b) (c : Char) : SameLine (c :: a) (c :: b) := by
  rcases h with rfl | rfl
  · exact .inl rfl
  · exact .inr rfl

theorem SameLine.all_isBlank {a b : List Char} (h : SameLine a b) : b.all isBlank = a.all isBlank := by
  have hreturn : isBlank '\r' = true := by decide
  rcases h with rfl | rfl
  · rfl
  · simp [hreturn]

theorem SameLine.ofText {a b : List Char} (h : SameLine a b) :
    Line.ofText (String.ofList b) = Line.ofText (String.ofList a) := by
  rcases h with rfl | rfl
  · rfl
  · have hend : Line.isLineEnd '\r' = true := by decide
    have hdrop : dropEndWhile Line.isLineEnd (a ++ ['\r']) = dropEndWhile Line.isLineEnd a := by
      simp [dropEndWhile, hend]
    simp only [Line.ofText_eq, String.toList_ofList, hdrop]

theorem lines_cons (c : Char) (s : List Char) :
    lines (c :: s) = if c = '\n' then [] :: lines s else (lines s).modifyHead (c :: ·) := by
  rw [lines, List.splitOnP_cons_eq_if_modifyHead]
  simp [lines]

theorem sameLine_lines (s : List Char) : List.Forall₂ SameLine (typedLines s) (lines s) := by
  fun_induction typedLines s with
  | case1 => exact .cons (.inl rfl) .nil
  | case2 rest ih =>
    rw [lines_cons, if_pos rfl]
    exact .cons (.inl rfl) ih
  | case3 rest ih =>
    rw [lines_cons, if_neg (by decide), lines_cons, if_pos rfl]
    exact .cons (.inr rfl) ih
  | case4 c rest hfeed hreturn ih =>
    rw [lines_cons, if_neg hfeed]
    generalize typedLines rest = typed, lines rest = pieces at ih
    cases ih with
    | nil => exact .nil
    | cons hline hrest => exact .cons (hline.cons c) hrest

end Text

/-! ## Lines that are taken and lines that are refused -/

namespace Line

/-- A line that can be read and has a number. -/
def Numbered (s : String) : Prop := ∃ n ts, ofText s = .ok ⟨some n, ts⟩

/-- A line that is not, and what is reported of it. -/
inductive Refused (s : String) : Condition → Prop
  | unread {c : Condition} (h : ofText s = .error c) : Refused s c
  | unnumbered {ts : List Token} (h : ofText s = .ok ⟨none, ts⟩) :
    Refused s (.of .illegalDirect "LINE NUMBER MISSING")

theorem numbered_or_refused (s : String) : Numbered s ∨ ∃ c, Refused s c := by
  cases h : ofText s with
  | error c => exact .inr ⟨c, .unread h⟩
  | ok l =>
    obtain ⟨_ | n, ts⟩ := l
    · exact .inr ⟨_, .unnumbered h⟩
    · exact .inl ⟨n, ts, h⟩

/-- A typed line, or an empty one in place of one that cannot be read. -/
def typed (s : String) : Line := (ofText s).toOption.getD ⟨none, []⟩

theorem typed_of_ok {s : String} {l : Line} (h : ofText s = .ok l) : typed s = l := by
  rw [typed, h]
  rfl

theorem typed_eq_some_iff {s : String} {n : Nat} {ts : List Token} :
    typed s = ⟨some n, ts⟩ ↔ ofText s = .ok ⟨some n, ts⟩ := by
  constructor
  · intro h
    cases hs : ofText s with
    | error c =>
      rw [typed, hs] at h
      cases h
    | ok l => rw [← h, typed_of_ok hs]
  · exact typed_of_ok

end Line

namespace Listing

variable {p : Listing} {row : List Char} {rows : List (List Char)}

/-! ## Entering the lines of a text -/

theorem enterLines_of_numbered (hrow : row.all Text.isBlank = false) (h : Line.Numbered (String.ofList row)) :
    p.enterLines (row :: rows) = (p.enter (Line.typed (String.ofList row))).enterLines rows := by
  obtain ⟨n, ts, hline⟩ := h
  rw [enterLines, hrow, hline, Line.typed_of_ok hline]
  rfl

theorem enterLines_of_refused {c : Condition} (hrow : row.all Text.isBlank = false)
    (h : Line.Refused (String.ofList row) c) : p.enterLines (row :: rows) = .error c := by
  rw [enterLines, hrow]
  cases h with
  | unread h =>
    rw [h]
    rfl
  | unnumbered h =>
    rw [h]
    rfl

/-- A carriage return at the end of a line makes no difference. -/
theorem enterLines_congr {rows' : List (List Char)} (h : List.Forall₂ Text.SameLine rows rows') (p : Listing) :
    p.enterLines rows' = p.enterLines rows := by
  induction h generalizing p with
  | nil => rfl
  | cons hrow _ ih => simp only [enterLines, hrow.all_isBlank, hrow.ofText, ih]

theorem enterLines_filter (p : Listing) (rows : List (List Char)) :
    p.enterLines (rows.filter (!·.all Text.isBlank)) = p.enterLines rows := by
  induction rows generalizing p with
  | nil => rfl
  | cons row rows ih =>
    cases hrow : row.all Text.isBlank with
    | true => simp [enterLines, hrow, ih]
    | false => simp [enterLines, hrow, ih]

theorem ofText_eq (s : String) :
    ofText s = empty.enterLines ((Text.typedLines s.toList).filter (!·.all Text.isBlank)) := by
  rw [ofText, enterLines_filter, enterLines_congr (Text.sameLine_lines s.toList)]

/-- Lines with numbers are entered one after another. -/
theorem enterLines_eq_ok (hrows : ∀ row ∈ rows, row.all Text.isBlank = false)
    (h : ∀ row ∈ rows, Line.Numbered (String.ofList row)) :
    p.enterLines rows = .ok ((rows.map String.ofList).foldl (fun p s => p.enter (Line.typed s)) p) := by
  induction rows generalizing p with
  | nil => rfl
  | cons row rows ih =>
    rw [enterLines_of_numbered (hrows row List.mem_cons_self) (h row List.mem_cons_self)]
    exact ih (fun r hr => hrows r (List.mem_cons_of_mem _ hr)) fun r hr => h r (List.mem_cons_of_mem _ hr)

/-- The first line that is refused ends it, whatever comes after. -/
theorem enterLines_eq_error (hrows : ∀ row ∈ rows, row.all Text.isBlank = false)
    (h : ¬ ∀ row ∈ rows, Line.Numbered (String.ofList row)) : ∃ before row after c,
      rows = before ++ row :: after ∧ (∀ r ∈ before, Line.Numbered (String.ofList r)) ∧
      Line.Refused (String.ofList row) c ∧ p.enterLines rows = .error c := by
  induction rows generalizing p with
  | nil => simp at h
  | cons row rows ih =>
    have hrow := hrows row List.mem_cons_self
    rcases Line.numbered_or_refused (String.ofList row) with hnumbered | ⟨c, hrefused⟩
    · have hrest : ¬ ∀ r ∈ rows, Line.Numbered (String.ofList r) := by
        intro hall
        exact h (List.forall_mem_cons.mpr ⟨hnumbered, hall⟩)
      obtain ⟨before, r, after, c, hsplit, hbefore, hrefused, herror⟩ :=
        ih (p := p.enter (Line.typed (String.ofList row))) (fun r hr => hrows r (List.mem_cons_of_mem _ hr)) hrest
      refine ⟨row :: before, r, after, c, by rw [hsplit]; rfl, List.forall_mem_cons.mpr ⟨hnumbered, hbefore⟩,
        hrefused, ?_⟩
      rw [enterLines_of_numbered hrow hnumbered, herror]
    · exact ⟨[], row, rows, c, rfl, by simp, hrefused, enterLines_of_refused hrow hrefused⟩

/-- A line with tokens was typed, and no line typed later has its number. -/
def LastTyped (texts : List String) (l : ProgramLine) : Prop :=
  l.tokens ≠ [] ∧ ∃ before text after, texts = before ++ text :: after ∧
    Line.ofText text = .ok ⟨some l.number, l.tokens⟩ ∧
    ∀ t ∈ after, ∀ ts, Line.ofText t ≠ .ok ⟨some l.number, ts⟩

def Edit.typed (s : String) : Edit := .enter (Line.typed s)

theorem concerns_typed {n : Nat} {s : String} :
    (Edit.typed s).Concerns n ↔ ∃ ts, Line.ofText s = .ok ⟨some n, ts⟩ := by
  constructor
  · intro h
    exact ⟨(Line.typed s).tokens, Line.typed_eq_some_iff.mp (congrArg (Line.mk · _) h)⟩
  · rintro ⟨ts, h⟩
    rw [Edit.typed, Line.typed_of_ok h]
    rfl

theorem stored_typed {texts : List String} {l : ProgramLine} :
    Stored (texts.map Edit.typed) l ↔ LastTyped texts l := by
  constructor
  · rintro ⟨htokens, first, last, hsplit, hlast⟩
    obtain ⟨before, rest, rfl, -, hrest⟩ := List.map_eq_append_iff.mp hsplit
    obtain ⟨text, after, rfl, htext, rfl⟩ := List.map_eq_cons_iff.mp hrest
    refine ⟨htokens, before, text, after, rfl, Line.typed_eq_some_iff.mp (Edit.enter.inj htext), ?_⟩
    intro t ht ts hts
    exact hlast _ (List.mem_map_of_mem ht) (concerns_typed.mpr ⟨ts, hts⟩)
  · rintro ⟨htokens, before, text, after, rfl, htext, hafter⟩
    refine ⟨htokens, before.map Edit.typed, after.map Edit.typed, ?_, ?_⟩
    · rw [List.map_append, List.map_cons, Edit.typed, Line.typed_of_ok htext]
    · intro e he
      obtain ⟨t, ht, rfl⟩ := List.mem_map.mp he
      rw [concerns_typed]
      rintro ⟨ts, hts⟩
      exact hafter t ht ts hts

theorem get_typed {texts : List String} {l : ProgramLine} :
    (texts.foldl (fun p s => p.enter (Line.typed s)) empty).get l.number = .ok l ↔ LastTyped texts l := by
  have hedited : texts.foldl (fun p s => p.enter (Line.typed s)) empty =
      edited (texts.map Edit.typed) := by
    rw [edited, List.foldl_map]
    rfl
  rw [hedited, get_eq_ok_iff, mem_edited, stored_typed]
  simp

end Listing

/-! ## Loading -/

namespace Machine

theorem enter_of_numbered {m : Machine} {s : String} (hidle : m.running = false) (h : Line.Numbered s) :
    (m.enter s).2 = { m with program := m.program.enter (Line.typed s), continuation := none } := by
  obtain ⟨n, ts, hline⟩ := h
  rw [enter, hline, Line.typed_of_ok hline]
  simp [hidle, Line.isDirect]

theorem program_of_entered {m : Machine} {texts : List String} (hidle : m.running = false)
    (h : ∀ s ∈ texts, Line.Numbered s) :
    (texts.foldl (fun m s => (m.enter s).2) m).program =
      texts.foldl (fun p s => p.enter (Line.typed s)) m.program := by
  induction texts generalizing m with
  | nil => rfl
  | cons s texts ih =>
    obtain ⟨hs, hrest⟩ := List.forall_mem_cons.mp h
    rw [List.foldl_cons, List.foldl_cons, enter_of_numbered hidle hs]
    exact ih hidle hrest

/-- Where every line of a text that is not blank can be read and has a number, loading gives the program that
entering those lines into an idle machine without a program gives, in which a later line replaces an
earlier one and a number alone deletes; variables are gone, and all that controls a run is as in a new
machine. Otherwise loading reports what is wrong with the first other line, and leaves the machine as it was. -/
theorem load_as_typed (m : Machine) (s : String) :
    ((∀ t ∈ Text.written s, Line.Numbered t) → ∃ program : Listing,
      m.load s = (.ok (), { m with
        program, store := {}, continuation := none, data := none, failure := none, trap := none,
        handling := false, breakRequested := false, stack := m.stack.clear, functions := ∅,
        inquiry := none }) ∧
      (∀ idle : Machine, idle.running = false → idle.program = .empty →
        ((Text.written s).foldl (fun k t => (k.enter t).2) idle).program = program) ∧
      ∀ l, program.get l.number = .ok l ↔ Listing.LastTyped (Text.written s) l) ∧
    ((¬ ∀ t ∈ Text.written s, Line.Numbered t) → ∃ before t after c,
      Text.written s = before ++ t :: after ∧ (∀ u ∈ before, Line.Numbered u) ∧ Line.Refused t c ∧
      m.load s = (.error c, m)) := by
  have hrows : ∀ row ∈ (Text.typedLines s.toList).filter (!·.all Text.isBlank), row.all Text.isBlank = false := by
    intro row hrow
    simpa using (List.mem_filter.mp hrow).2
  constructor
  · intro h
    have hnumbered := List.forall_mem_map.mp h
    refine ⟨_, ?_, fun idle hidle hempty => ?_, fun l => Listing.get_typed⟩
    · rw [load, Listing.ofText_eq, Listing.enterLines_eq_ok hrows hnumbered]
      rfl
    · rw [program_of_entered hidle h, hempty, Text.written]
  · intro h
    have hnumbered : ¬ ∀ row ∈ (Text.typedLines s.toList).filter (!·.all Text.isBlank),
        Line.Numbered (String.ofList row) := fun hall => h (List.forall_mem_map.mpr hall)
    obtain ⟨before, row, after, c, hsplit, hbefore, hrefused, herror⟩ :=
      Listing.enterLines_eq_error (p := .empty) hrows hnumbered
    refine ⟨before.map String.ofList, String.ofList row, after.map String.ofList, c, ?_, ?_, hrefused, ?_⟩
    · rw [Text.written, hsplit, List.map_append, List.map_cons]
    · exact List.forall_mem_map.mpr hbefore
    · rw [load, Listing.ofText_eq, herror]

theorem load_as_typed_replaced :
    ∃ m', Machine.load {} "10 END\r\n\n20 STOP\n10 RETURN\n20\n" = (.ok (), m') ∧
      m'.program.get 10 = .ok ⟨10, [.word .RETURN]⟩ := by
  have hwritten : Text.written "10 END\r\n\n20 STOP\n10 RETURN\n20\n" =
      ["10 END", "20 STOP", "10 RETURN", "20"] := rfl
  obtain ⟨hend, hstop, hreturn, hbare⟩ : Line.ofText "10 END" = .ok ⟨some 10, [.word .END]⟩ ∧
      Line.ofText "20 STOP" = .ok ⟨some 20, [.word .STOP]⟩ ∧
      Line.ofText "10 RETURN" = .ok ⟨some 10, [.word .RETURN]⟩ ∧ Line.ofText "20" = .ok ⟨some 20, []⟩ := by
    decide +kernel
  have hnumbered : ∀ t ∈ Text.written "10 END\r\n\n20 STOP\n10 RETURN\n20\n", Line.Numbered t := by
    simp [hwritten, Line.Numbered, hend, hstop, hreturn, hbare]
  obtain ⟨program, hload, -, hget⟩ := (load_as_typed {} _).1 hnumbered
  refine ⟨_, hload, (hget ⟨10, [.word .RETURN]⟩).mpr ⟨by simp, ?_⟩⟩
  refine ⟨["10 END", "20 STOP"], "10 RETURN", ["20"], hwritten, hreturn, ?_⟩
  simp [hbare]

end Machine

end LineBasic
