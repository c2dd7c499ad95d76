import LineBasic.Proofs.Program.DataItems
import LineBasic.Proofs.Program.RoundTrip

/-! Where the pointer to the data may stand. From the start of a statement on, and from anywhere else in a
line that was typed, the search for `DATA` finds items of the program only. A pointer that expects to be
in a list takes what stands there for an item, and so has to stand in one. -/

namespace LineBasic

open Lexer (IsItem IsItems IsRemark Lexed)

/-! ## The lines of a listing -/

/-- Every line was typed. -/
def Listing.Typed (p : Listing) : Prop := ∀ l ∈ p.lines, Lexed l.tokens

namespace Listing.Typed

variable {p p' : Listing}

theorem filter (h : p.Typed) (test : ProgramLine → Bool) : (p.filter test).Typed :=
  fun l hl => h l (List.mem_filter.mp hl).1

theorem enter (h : p.Typed) {l : Line} (hl : Lexed l.tokens) : (p.enter l).Typed := by
  rw [Listing.enter]
  split
  · exact h
  · split
    · exact h.filter _
    · intro x hx
      rcases mem_insertLine hx with rfl | hx
      · exact hl
      · exact h x hx

theorem enterLines (h : p.Typed) {texts : List (List Char)} (hlines : p.enterLines texts = .ok p') :
    p'.Typed := by
  induction texts generalizing p with
  | nil =>
    cases hlines
    exact h
  | cons s rest ih =>
    rw [Listing.enterLines] at hlines
    split at hlines
    · exact ih h hlines
    · cases hl : Line.ofText (String.ofList s) with
      | error c =>
        rw [hl] at hlines
        cases hlines
      | ok l =>
        rw [hl] at hlines
        cases hnumber : require (!l.isDirect) (.of .illegalDirect "LINE NUMBER MISSING") with
        | error c =>
          simp only [bind, Except.bind, hnumber] at hlines
          cases hlines
        | ok _ =>
          simp only [bind, Except.bind, hnumber] at hlines
          exact ih (h.enter (Line.lexed_of_ofText hl).1) hlines

theorem ofText {s : String} (h : Listing.ofText s = .ok p) : p.Typed :=
  enterLines (p := .empty) nofun h

end Listing.Typed

namespace Datum

/-! ## The items from a place in a line on -/

theorem of_mem_items {last : Bool} {items : List Token} (h : IsItems last items) :
    ∀ t ∈ items, t ≠ .colon ∧ t ≠ .word .DATA := by
  intro t ht
  rcases h.mem_cases ht with rfl | ⟨q, rfl⟩ | ⟨b, rfl⟩ <;> simp

theorem of_mem_remark {tail : List Token} (h : IsRemark tail) : ∀ t ∈ tail, t ≠ .word .DATA := by
  cases h <;> simp

theorem ofStatements_append (line : Nat) {before : List Token} (h : ∀ t ∈ before, t ≠ .word .DATA)
    (after : List Token) : ofStatements line (before ++ after) = ofStatements line after := by
  induction before with
  | nil => rfl
  | cons t before ih =>
    obtain ⟨ht, hbefore⟩ := List.forall_mem_cons.mp h
    rw [List.cons_append, ofStatements_of_ne line ht, ih hbefore]

/-- The statements after a list have their items after those of the list. -/
theorem subset_ofListOn (line : Nat) {items tokens : List Token} (h : ∀ t ∈ items, t ≠ .colon)
    (htokens : tokens = [] ∨ ∃ rest, tokens = .colon :: rest) :
    ofStatements line tokens ⊆ ofListOn line (items ++ tokens) := by
  have hcolon : Token.colon ∉ items := fun hmem => h _ hmem rfl
  rcases htokens with rfl | ⟨rest, rfl⟩
  · exact List.nil_subset _
  · rw [ofStatements_of_ne line (t := .colon) nofun, ofListOn, splitOn_append hcolon]
    exact List.subset_append_right (ofList line (items ++ [])) (ofStatements line rest)

/-- The search finds items of the line wherever it starts, for within a list there is no other. -/
theorem ofStatements_drop_subset {tokens : List Token} (h : Lexed tokens) (line k : Nat) :
    ofStatements line (tokens.drop k) ⊆ ofStatements line tokens := by
  induction h generalizing k with
  | nil =>
    rw [List.drop_nil]
    exact List.Subset.refl _
  | @plain t tokens ht _ ih =>
    cases k with
    | zero => exact List.Subset.refl _
    | succ k =>
      have hne : t ≠ .word .DATA := by
        rintro rfl
        exact ht.2 rfl
      rw [List.drop_succ_cons, ofStatements_of_ne line hne]
      exact ih k
  | @remark tail htail =>
    have hnone : ∀ t ∈ (Token.word .REM :: tail).drop k, t ≠ .word .DATA := by
      intro t ht
      rcases List.mem_cons.mp (List.mem_of_mem_drop ht) with rfl | ht
      · exact nofun
      · exact of_mem_remark htail t ht
    have hempty := ofStatements_append line hnone []
    rw [List.append_nil] at hempty
    rw [hempty]
    exact List.nil_subset _
  | @data items tokens hitems htokens _ ih =>
    cases k with
    | zero => exact List.Subset.refl _
    | succ k =>
      have hin := of_mem_items hitems
      have hafter := subset_ofListOn line (fun t ht => (hin t ht).1) htokens
      have hrest : ∀ t ∈ items.drop k, t ≠ .word .DATA :=
        fun t ht => (hin t (List.mem_of_mem_drop ht)).2
      rw [List.drop_succ_cons, List.drop_append, ofStatements_append line hrest, ofStatements_data]
      exact List.Subset.trans (ih _) hafter

theorem line_of_mem_ofList {line : Nat} {list : List Token} {d : Datum} (h : d ∈ ofList line list) :
    d.line = line := by
  obtain ⟨item, -, rfl⟩ := List.mem_map.mp h
  exact ofTokens_line line item

theorem line_of_mem_ofStatements {line : Nat} {tokens : List Token} {d : Datum}
    (h : d ∈ ofStatements line tokens) : d.line = line := by
  obtain ⟨statement, -, hd⟩ := List.mem_flatMap.mp h
  rw [ofStatement] at hd
  split at hd
  · cases hd
  · exact line_of_mem_ofList hd

theorem line_of_mem_onLine {l : ProgramLine} {p : DataPointer} {d : Datum} (h : d ∈ onLine l p) :
    d.line = l.number := by
  rw [onLine] at h
  split at h
  · -- the list goes on as if `DATA` stood before it
    rw [← ofStatements_data] at h
    exact line_of_mem_ofStatements h
  · exact line_of_mem_ofStatements h

/-! ## The items ahead -/

/-- What is still to come are items of the lines. -/
def Supplied (lines : List ProgramLine) (p : Option DataPointer) : Prop := ahead lines p ⊆ ofLines lines

section

variable {lines : List ProgramLine} {p : DataPointer}

theorem ofStatements_subset {l : ProgramLine} (hl : l ∈ lines) :
    ofStatements l.number l.tokens ⊆ ofLines lines :=
  fun _ hd => List.mem_flatMap.mpr ⟨l, hl, hd⟩

theorem ofLines_subset {lines' : List ProgramLine} (h : lines' ⊆ lines) :
    ofLines lines' ⊆ ofLines lines := by
  intro d hd
  obtain ⟨l, hl, hd⟩ := List.mem_flatMap.mp hd
  exact ofStatements_subset (h hl) hd

/-- The pointer is in its line where only items of that line are ahead in it. -/
theorem supplied_of_onLine (h : ∀ l ∈ lines, l.number = p.line →
    onLine l p ⊆ ofStatements l.number l.tokens) : Supplied lines (some p) := by
  rw [Supplied, ahead]
  cases hdrop : lines.dropWhile (·.number < p.line) with
  | nil => exact List.nil_subset _
  | cons l rest =>
    have hmem : l :: rest ⊆ lines := hdrop ▸ (List.dropWhile_suffix _).subset
    have hl : l ∈ lines := hmem List.mem_cons_self
    refine List.append_subset.mpr ⟨?_, ofLines_subset fun x hx => hmem (List.mem_cons_of_mem _ hx)⟩
    by_cases hp : l.number = p.line
    · simp only [hp, beq_self_eq_true, if_true]
      exact List.Subset.trans (h l hl hp) (ofStatements_subset hl)
    · simp only [beq_false_of_ne hp, Bool.false_eq_true, if_false]
      exact ofStatements_subset hl

theorem onLine_subset (hlines : lines.Pairwise (·.number < ·.number)) (h : Supplied lines (some p))
    {l : ProgramLine} (hl : l ∈ lines) (hp : l.number = p.line) :
    onLine l p ⊆ ofStatements l.number l.tokens := by
  obtain ⟨before, rest, hsplit⟩ := List.append_of_mem hl
  have hahead := ahead_of_suffix hlines ⟨before, hsplit.symm⟩ p.token p.inList
  rw [hp] at hahead
  intro d hd
  have hmem : d ∈ ofLines lines := h (by rw [hahead]; exact List.mem_append_left _ hd)
  obtain ⟨l', hl', hd'⟩ := List.mem_flatMap.mp hmem
  have hnumber : l'.number = l.number :=
    (line_of_mem_ofStatements hd').symm.trans (line_of_mem_onLine hd)
  have hsame : l' = l := by
    have hinj := List.inj_on_of_nodup_map (f := ProgramLine.number) (l := lines) ?_ hl' hl hnumber
    · exact hinj
    · exact (List.pairwise_map.mpr hlines).imp Nat.ne_of_lt
  rwa [hsame] at hd'

end

variable {p : Listing} {data : Option DataPointer}

/-- Reading leaves less ahead. -/
theorem Supplied.read (h : Supplied p.lines data) : Supplied p.lines (Datum.read p data).2 := by
  have hread := read_delivers p data
  rw [Supplied] at h ⊢
  generalize (Datum.read p data).1 = r at hread
  generalize ahead p.lines (Datum.read p data).2 = after at hread ⊢
  generalize ahead p.lines data = before at hread h
  cases hread with
  | item d => exact List.Subset.trans (List.subset_cons_self d _) h
  | none => exact h

theorem Supplied.mem_of_read (h : Supplied p.lines data) {d : Datum}
    (hd : (Datum.read p data).1 = .ok d) : d ∈ ofLines p.lines := by
  have hread := read_delivers p data
  rw [hd] at hread
  rw [Supplied] at h
  generalize ahead p.lines (Datum.read p data).2 = after at hread
  generalize ahead p.lines data = before at hread h
  cases hread
  exact h List.mem_cons_self

theorem supplied_restore (p : Listing) (n : Nat) : Supplied p.lines (some ⟨n, 0, false⟩) := by
  rw [Supplied, ahead_of_line p.ascending]
  exact ofLines_subset List.filter_sublist.subset

/-- Outside a list the pointer may stand anywhere. -/
theorem supplied_of_typed (h : p.Typed) (hdata : ∀ q, data = some q → q.inList = false) :
    Supplied p.lines data := by
  cases data with
  | none => exact List.Subset.refl _
  | some q =>
    refine supplied_of_onLine fun l hl _ => ?_
    rw [onLine, hdata q rfl]
    exact ofStatements_drop_subset (h l hl) l.number q.token

/-- A change of the program leaves the pointer in place, unless it stands in a list of a line that has
become another. -/
theorem Supplied.edit {p' : Listing} (h : Supplied p.lines data) (htyped : p'.Typed)
    (hlist : ∀ q, data = some q → q.inList = true → ∀ l ∈ p'.lines, l.number = q.line → l ∈ p.lines) :
    Supplied p'.lines data := by
  by_cases hout : ∀ q, data = some q → q.inList = false
  · exact supplied_of_typed htyped hout
  · simp only [not_forall, Bool.not_eq_false] at hout
    obtain ⟨q, rfl, hin⟩ := hout
    refine supplied_of_onLine fun l hl hnumber => ?_
    exact onLine_subset p.ascending h (hlist q rfl hin l hl hnumber) hnumber

end Datum

end LineBasic
