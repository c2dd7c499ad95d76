import LineBasic.Proofs.Statement.Extension

/-! The items of a program, and the order in which they are read. A statement with `DATA` has one item
more than its list has commas, and reading gives the items of all lines one after another, each once.
`ahead` says for every place of the pointer which items are still to come. -/

namespace LineBasic

namespace Datum

/-! ## The items of a program -/

/-- The items of the list behind `DATA`, which stand between its commas. -/
def ofList (line : Nat) (list : List Token) : List Datum := (list.splitOn .comma).map (ofTokens line)

/-- The items of a statement, which has some only if `DATA` stands there. -/
def ofStatement (line : Nat) (statement : List Token) : List Datum :=
  match statement.dropWhile (· != .word .DATA) with
  | [] => []
  | _ :: list => ofList line list

/-- The items of the statements between the colons of some tokens. -/
def ofStatements (line : Nat) (tokens : List Token) : List Datum :=
  (tokens.splitOn .colon).flatMap (ofStatement line)

/-- The items of some lines. -/
def ofLines (lines : List ProgramLine) : List Datum :=
  lines.flatMap fun l => ofStatements l.number l.tokens

/-- A list with `c` commas has `c + 1` items, empty ones included. -/
theorem length_ofList (line : Nat) (list : List Token) :
    (ofList line list).length = list.count .comma + 1 := by
  rw [ofList, List.length_map]
  induction list with
  | nil => rfl
  | cons t list ih =>
    rw [List.splitOn, List.splitOnP_cons_eq_if_modifyHead, List.count_cons]
    split
    · exact congrArg (· + 1) ih
    · rw [List.length_modifyHead]
      exact ih

/-! ## The items from a token on -/

/-- The items of a list that goes on here, and of the statements after it. -/
def ofListOn (line : Nat) (tokens : List Token) : List Datum :=
  match tokens.splitOn .colon with
  | [] => []
  | list :: statements => ofList line list ++ statements.flatMap (ofStatement line)

theorem splitOn_append {t : Token} {before : List Token} (h : t ∉ before) (after : List Token) :
    (before ++ after).splitOn t = (after.splitOn t).modifyHead (before ++ ·) := by
  induction before with
  | nil =>
    rw [List.nil_append]
    cases after.splitOn t <;> rfl
  | cons u before ih =>
    rw [List.mem_cons, not_or] at h
    obtain ⟨hu, hbefore⟩ := h
    have hne : ¬ (u == t) = true := by simpa using fun heq => hu heq.symm
    rw [List.cons_append, List.splitOn, List.splitOnP_cons_eq_if_modifyHead, if_neg hne]
    rw [← List.splitOn, ih hbefore, List.modifyHead_modifyHead]
    rfl

section

variable (line : Nat) {tokens : List Token}

theorem ofStatements_data : ofStatements line (.word .DATA :: tokens) = ofListOn line tokens := by
  rw [ofStatements, List.splitOn, List.splitOnP_cons_eq_if_modifyHead, if_neg (by decide)]
  rw [ofListOn, List.splitOn]
  cases tokens.splitOnP (· == .colon) with
  | nil => rfl
  | cons list statements => rfl

theorem ofStatements_of_ne {t : Token} (ht : t ≠ .word .DATA) :
    ofStatements line (t :: tokens) = ofStatements line tokens := by
  rw [ofStatements, ofStatements, List.splitOn, List.splitOnP_cons_eq_if_modifyHead]
  split
  · rfl
  · rw [List.splitOn]
    cases tokens.splitOnP (· == .colon) with
    | nil => rfl
    | cons statement statements =>
      have hdrop : ofStatement line (t :: statement) = ofStatement line statement := by
        rw [ofStatement, List.dropWhile_cons_of_pos (by simpa using ht)]
        rfl
      rw [List.modifyHead_cons, List.flatMap_cons, List.flatMap_cons, hdrop]

/-- The search for a list finds all items there are. -/
theorem ofStatements_eq (tokens : List Token) : ofStatements line tokens =
    match tokens.findIdx? (· == .word .DATA) with
    | some i => ofListOn line (tokens.drop (i + 1))
    | none => [] := by
  induction tokens with
  | nil => rfl
  | cons t tokens ih =>
    rw [List.findIdx?_cons]
    by_cases ht : t = .word .DATA
    · rw [ht, ofStatements_data]
      rfl
    · rw [ofStatements_of_ne line ht, ih, if_neg (by simpa using ht)]
      cases tokens.findIdx? (· == .word .DATA) <;> rfl

theorem ofList_of_not_mem {item : List Token} (h : .comma ∉ item) :
    ofList line item = [ofTokens line item] := by
  rw [ofList, List.splitOn_eq_singleton h]
  rfl

theorem ofList_append_comma {item : List Token} (h : .comma ∉ item) (list : List Token) :
    ofList line (item ++ .comma :: list) = ofTokens line item :: ofList line list := by
  have hitem : ∀ t ∈ item, (t == Token.comma) = false := by
    intro t ht
    exact beq_false_of_ne fun heq => h (heq ▸ ht)
  rw [ofList, List.splitOn, List.splitOnP_append_cons_of_forall_mem hitem .comma rfl]
  rfl

/-- The item at the front of a list, and what comes after it: the next item behind a comma, or else
the statements that follow. -/
theorem ofListOn_eq (tokens : List Token) : ofListOn line tokens =
    ofTokens line (tokens.takeWhile (!endsItem ·)) ::
      match tokens.dropWhile (!endsItem ·) with
      | .comma :: rest => ofListOn line rest
      | rest => ofStatements line rest := by
  have hitem : ∀ t ∈ tokens.takeWhile (!endsItem ·), t ≠ .comma ∧ t ≠ .colon := by
    intro t ht
    simpa [endsItem] using List.all_eq_true.mp List.all_takeWhile t ht
  have hsplit := List.takeWhile_append_dropWhile (p := (!endsItem ·)) (l := tokens)
  have hhead := List.head?_dropWhile_not (!endsItem ·) tokens
  generalize tokens.takeWhile (!endsItem ·) = item at hitem hsplit
  generalize tokens.dropWhile (!endsItem ·) = rest at hsplit hhead
  subst hsplit
  have hcomma : Token.comma ∉ item := fun h => (hitem _ h).1 rfl
  have hcolon : Token.colon ∉ item := fun h => (hitem _ h).2 rfl
  rw [ofListOn, splitOn_append hcolon]
  cases rest with
  | nil =>
    show ofList line (item ++ []) ++ [] = _
    rw [List.append_nil, List.append_nil, ofList_of_not_mem line hcomma]
    rfl
  | cons t rest =>
    have ht : t = .comma ∨ t = .colon :=
      Decidable.or_iff_not_imp_left.mpr (by simpa [endsItem] using hhead)
    rcases ht with rfl | rfl
    · show _ = ofTokens line item :: ofListOn line rest
      rw [List.splitOn, List.splitOnP_cons_eq_if_modifyHead, if_neg (by decide), ofListOn, List.splitOn]
      cases hrest : rest.splitOnP (· == .colon) with
      | nil => exact absurd hrest (List.splitOnP_ne_nil _ _)
      | cons list statements =>
        show ofList line (item ++ .comma :: list) ++ _ = _
        rw [ofList_append_comma line hcomma]
        rfl
    · show ofList line (item ++ []) ++ ofStatements line rest = _
      rw [List.append_nil, ofList_of_not_mem line hcomma, ← ofStatements_of_ne line (t := .colon) nofun]
      rfl

end

/-! ## The items ahead of the pointer -/

/-- The items of a line from the pointer on. -/
def onLine (l : ProgramLine) (p : DataPointer) : List Datum :=
  if p.inList then ofListOn l.number (l.tokens.drop p.token)
  else ofStatements l.number (l.tokens.drop p.token)

theorem onLine_eq (l : ProgramLine) (p : DataPointer) : onLine l p =
    match itemStart? l.tokens p with
    | some start => ofListOn l.number (l.tokens.drop start)
    | none => [] := by
  rw [onLine, itemStart?]
  split
  · have hdrop : l.tokens.drop (min p.token l.tokens.length) = l.tokens.drop p.token := by
      rcases Nat.le_total p.token l.tokens.length with h | h
      · rw [Nat.min_eq_left h]
      · rw [Nat.min_eq_right h, List.drop_length, List.drop_eq_nil_of_le h]
    show _ = ofListOn l.number (l.tokens.drop (min p.token l.tokens.length))
    rw [hdrop]
  · rw [ofStatements_eq]
    cases (l.tokens.drop p.token).findIdx? (· == .word .DATA) with
    | none => rfl
    | some i =>
      show ofListOn _ ((l.tokens.drop p.token).drop (i + 1)) = ofListOn _ (l.tokens.drop (p.token + i + 1))
      rw [List.drop_drop, Nat.add_assoc]

/-- The item where one starts is the first of those to come, and the others come from where it ends. -/
theorem ofListOn_itemAt (l : ProgramLine) (start : Nat) :
    ofListOn l.number (l.tokens.drop start) = (itemAt l start).1 :: onLine l (itemAt l start).2 := by
  rw [ofListOn_eq]
  refine congrArg (List.cons _) ?_
  have hrest : l.tokens.drop (start + ((l.tokens.drop start).takeWhile (!endsItem ·)).length) =
      (l.tokens.drop start).dropWhile (!endsItem ·) := by
    have hdrop : ∀ item rest : List Token, (item ++ rest).drop item.length = rest := fun _ _ => List.drop_left
    have hstop := hdrop ((l.tokens.drop start).takeWhile (!endsItem ·))
      ((l.tokens.drop start).dropWhile (!endsItem ·))
    rwa [List.takeWhile_append_dropWhile, List.drop_drop] at hstop
  rw [onLine, itemAt, ← hrest]
  generalize start + ((l.tokens.drop start).takeWhile (!endsItem ·)).length = stop
  have hstop : l.tokens[stop]? = (l.tokens.drop stop).head? := List.head?_drop.symm
  have hnext : l.tokens.drop (stop + 1) = (l.tokens.drop stop).tail := List.tail_drop.symm
  simp only [hstop]
  split
  · rename_i rest hcomma
    rw [hcomma] at hnext ⊢
    exact congrArg (ofListOn l.number) hnext.symm
  · rename_i hother
    have hmore : ((l.tokens.drop stop).head? == some .comma) = false := by
      refine beq_false_of_ne fun hhead => ?_
      obtain ⟨rest, hrest⟩ := List.head?_eq_some_iff.mp hhead
      exact hother rest hrest
    rw [hmore]
    rfl

/-- The items that are still to come in some lines, wherever the pointer is. -/
def ahead (lines : List ProgramLine) : Option DataPointer → List Datum
  | none => ofLines lines
  | some p =>
    match lines.dropWhile (·.number < p.line) with
    | [] => []
    | l :: rest => onLine l (if l.number == p.line then p else ⟨l.number, 0, false⟩) ++ ofLines rest

theorem dropWhile_lt_of_suffix {lines rest : List ProgramLine} {l : ProgramLine}
    (hlines : lines.Pairwise (·.number < ·.number)) (h : l :: rest <:+ lines) :
    lines.dropWhile (·.number < l.number) = l :: rest := by
  obtain ⟨before, rfl⟩ := h
  have hbefore := (List.pairwise_append.mp hlines).2.2
  rw [List.dropWhile_append_of_pos fun x hx => by simpa using hbefore x hx l List.mem_cons_self]
  exact List.dropWhile_cons_of_neg (by simp)

theorem ahead_of_suffix {lines rest : List ProgramLine} {l : ProgramLine}
    (hlines : lines.Pairwise (·.number < ·.number)) (h : l :: rest <:+ lines) (token : Nat)
    (inList : Bool) :
    ahead lines (some ⟨l.number, token, inList⟩) = onLine l ⟨l.number, token, inList⟩ ++ ofLines rest := by
  rw [ahead, dropWhile_lt_of_suffix hlines h]
  simp only [beq_self_eq_true, if_true]

/-- From the start of a line on come the items of that line and of all after it, also where the line
itself is not there. -/
theorem ahead_of_line {lines : List ProgramLine} (hlines : lines.Pairwise (·.number < ·.number))
    (n : Nat) : ahead lines (some ⟨n, 0, false⟩) = ofLines (lines.filter (n ≤ ·.number)) := by
  induction lines with
  | nil => rfl
  | cons l lines ih =>
    obtain ⟨hl, hrest⟩ := List.pairwise_cons.mp hlines
    by_cases hn : n ≤ l.number
    · have hall : lines.filter (n ≤ ·.number) = lines :=
        List.filter_eq_self.mpr fun x hx => by simpa using Nat.le_trans hn (Nat.le_of_lt (hl x hx))
      rw [ahead, List.dropWhile_cons_of_neg (by simpa using hn), List.filter_cons_of_pos (by simpa using hn),
        hall]
      show onLine l _ ++ ofLines lines = ofStatements l.number l.tokens ++ ofLines lines
      split <;> rfl
    · rw [ahead, List.dropWhile_cons_of_pos (by simpa using hn),
        List.filter_cons_of_neg (by simpa using hn)]
      exact ih hrest

/-! ## Reading -/

/-- What one reading gives of the items to come: the first, or that there is none. -/
inductive Delivers : List Datum → Except Condition Datum → List Datum → Prop
  | item (d : Datum) (ds : List Datum) : Delivers (d :: ds) (.ok d) ds
  | none : Delivers [] (.error (.of .outOfData)) []

theorem delivers_itemAt {lines rest : List ProgramLine} {l : ProgramLine} {p : DataPointer} {start : Nat}
    (hlines : lines.Pairwise (·.number < ·.number)) (h : l :: rest <:+ lines)
    (hstart : itemStart? l.tokens p = some start) :
    Delivers (onLine l p ++ ofLines rest) (readLines p (l :: rest)).1
      (ahead lines (readLines p (l :: rest)).2) := by
  have hread : readLines p (l :: rest) = (.ok (itemAt l start).1, some (itemAt l start).2) := by
    rw [readLines.eq_def]
    simp only [hstart]
  have hahead : ahead lines (some (itemAt l start).2) = onLine l (itemAt l start).2 ++ ofLines rest :=
    ahead_of_suffix hlines h _ _
  rw [hread, hahead, onLine_eq, hstart]
  simp only [ofListOn_itemAt]
  exact .item _ _

theorem readLines_delivers {lines rest : List ProgramLine} {l : ProgramLine}
    (hlines : lines.Pairwise (·.number < ·.number)) (h : l :: rest <:+ lines) (p : DataPointer) :
    Delivers (onLine l p ++ ofLines rest) (readLines p (l :: rest)).1
      (ahead lines (readLines p (l :: rest)).2) := by
  induction rest generalizing l p with
  | nil =>
    cases hstart : itemStart? l.tokens p with
    | some start => exact delivers_itemAt hlines h hstart
    | none =>
      have hdone : ahead lines (some ⟨l.number, l.tokens.length, false⟩) = [] := by
        rw [ahead_of_suffix hlines h, onLine, List.drop_length]
        rfl
      rw [onLine_eq, readLines, hstart]
      simp only [hdone]
      exact .none
  | cons next rest ih =>
    cases hstart : itemStart? l.tokens p with
    | some start => exact delivers_itemAt hlines h hstart
    | none =>
      have hread : readLines p (l :: next :: rest) =
          readLines ⟨next.number, 0, false⟩ (next :: rest) := by
        rw [readLines.eq_def]
        simp only [hstart]
      rw [hread, onLine_eq, hstart]
      exact ih ((List.suffix_cons _ _).trans h) ⟨next.number, 0, false⟩

/-- Wherever the pointer is, one reading takes the first of the items to come. -/
theorem read_delivers (program : Listing) (p : Option DataPointer) :
    Delivers (ahead program.lines p) (read program p).1 (ahead program.lines (read program p).2) := by
  cases p with
  | none =>
    rw [read, ahead]
    cases hlines : program.lines with
    | nil => exact .none
    | cons l rest =>
      have hread := readLines_delivers program.ascending ⟨[], hlines.symm⟩ ⟨l.number, 0, false⟩
      rw [hlines] at hread
      exact hread
  | some p =>
    rw [read, ahead]
    cases hdrop : program.lines.dropWhile (·.number < p.line) with
    | nil =>
      show Delivers _ _ (ahead program.lines (some p))
      rw [ahead, hdrop]
      exact .none
    | cons l rest => exact readLines_delivers program.ascending (hdrop ▸ List.dropWhile_suffix _) _

/-- What the reading after `k` others gives. -/
def nth (program : Listing) (p : Option DataPointer) : Nat → Except Condition Datum
  | 0 => (read program p).1
  | k + 1 => nth program (read program p).2 k

/-- What is read where `k` of these items were read before. -/
def given (items : List Datum) (k : Nat) : Except Condition Datum :=
  match items[k]? with
  | some d => .ok d
  | none => .error (.of .outOfData)

theorem Delivers.given {before after : List Datum} {r : Except Condition Datum}
    (h : Delivers before r after) : r = given before 0 ∧ ∀ k, given after k = given before (k + 1) := by
  cases h with
  | item d ds => exact ⟨rfl, fun k => rfl⟩
  | none => exact ⟨rfl, fun k => rfl⟩

/-- From every place on, reading gives the items ahead one after another, and then none any more. -/
theorem nth_eq (program : Listing) (p : Option DataPointer) (k : Nat) :
    nth program p k = given (ahead program.lines p) k := by
  induction k generalizing p with
  | zero => exact (read_delivers program p).given.1
  | succ k ih =>
    rw [nth, ih]
    exact (read_delivers program p).given.2 k

theorem ofTokens_line (line : Nat) (item : List Token) : (ofTokens line item).line = line := by
  rw [ofTokens.eq_def]
  split <;> rfl

/-- An item is quoted if a string is all of it. -/
theorem ofTokens_quoted (line : Nat) (item : List Token) :
    (ofTokens line item).quoted = true ↔ ∃ s, item = [.string s] := by
  rw [ofTokens.eq_def]
  split
  · rename_i s
    exact ⟨fun _ => ⟨s, rfl⟩, fun _ => rfl⟩
  · exact ⟨nofun, nofun⟩
  · rename_i hstring _
    exact ⟨nofun, fun ⟨s, hs⟩ => absurd hs (hstring s)⟩

end Datum

namespace Statement

theorem restore_of_get {m : Machine} {t : Token} {n : Nat} {l : ProgramLine}
    (hpeek : m.cursor.peek? = some t) (ht : t.lineNumber = .ok n) (hl : m.program.get n = .ok l) :
    ∃ w, restore m = (.ok .done, { m with toWorkspace := w, data := some ⟨n, 0, false⟩ }) := by
  obtain ⟨rest, hrest⟩ := List.head?_eq_some_iff.mp hpeek
  have hw : m.toWorkspace.between m.cursor.passed (t :: rest) = m.toWorkspace := by
    rw [← hrest]
    rfl
  have hnumber : Eval.lineNumber? (m.toWorkspace.between m.cursor.passed (t :: rest)) =
      (.ok (some n), m.toWorkspace.between (t :: m.cursor.passed) rest) :=
    Eval.lineNumber?_of_ok m.toWorkspace m.cursor.passed ht
  rw [hw] at hnumber
  refine ⟨m.toWorkspace.between (t :: m.cursor.passed) rest, ?_⟩
  rw [restore, bind_of_ok (Extends.liftM_apply hnumber)]
  simp only []
  rw [bind_get, hl]
  rfl

end Statement

namespace Datum

/-- Reading gives the items of all lists in the order of the lines, each once, and then none any more;
after `RESTORE` with the number of a line it gives in the same way those from that line on. -/
theorem reads_in_order (m : Machine) :
    (∀ line list, (ofList line list).length = list.count .comma + 1) ∧
    (∀ line item, (ofTokens line item).line = line ∧
      ((ofTokens line item).quoted = true ↔ ∃ s, item = [.string s])) ∧
    (∀ k, nth m.program none k = given (ofLines m.program.lines) k) ∧
    ∀ t n l, m.cursor.peek? = some t → t.lineNumber = .ok n → m.program.get n = .ok l →
      ∃ m', Statement.restore m = (.ok .done, m') ∧ m'.program = m.program ∧
        ∀ k, nth m'.program m'.data k = given (ofLines (m.program.lines.filter (n ≤ ·.number))) k := by
  refine ⟨length_ofList, fun line item => ⟨ofTokens_line line item, ofTokens_quoted line item⟩,
    nth_eq m.program none, ?_⟩
  intro t n l hpeek ht hl
  obtain ⟨w, hrestore⟩ := Statement.restore_of_get hpeek ht hl
  refine ⟨_, hrestore, rfl, fun k => ?_⟩
  rw [nth_eq, ahead_of_line m.program.ascending]

/-- A list with an empty item, one that is only an empty item, and a line without a list. -/
theorem reads_in_order_empty_items : ∃ m : Machine,
    m.program.lines = [⟨10, [.word .DATA, .verbatim "1", .comma, .comma, .string "A"]⟩,
      ⟨20, [.word .END]⟩, ⟨30, [.word .DATA, .colon, .word .DATA, .verbatim " 2"]⟩] ∧
    ofLines m.program.lines = [⟨"1", false, 10⟩, ⟨"", false, 10⟩, ⟨"A", true, 10⟩, ⟨"", false, 30⟩,
      ⟨"2", false, 30⟩] ∧
    m.cursor.peek? = some (.number "20") ∧ (Token.number "20").lineNumber = .ok 20 ∧
    m.program.get 20 = .ok ⟨20, [.word .END]⟩ ∧
    (∀ k, nth m.program none k = given (ofLines m.program.lines) k) ∧
    ∃ m', Statement.restore m = (.ok .done, m') ∧ m'.program = m.program ∧
      ∀ k, nth m'.program m'.data k = given (ofLines (m.program.lines.filter (20 ≤ ·.number))) k := by
  refine ⟨{ program := ⟨_, ?_, ?_⟩, cursor := ⟨[.word .RESTORE], [.number "20"]⟩ }, rfl, ?_⟩
  · decide
  · decide
  · have ht : (Token.number "20").lineNumber = .ok 20 := rfl
    obtain ⟨-, -, hread, hrestore⟩ := reads_in_order _
    exact ⟨by decide +kernel, rfl, ht, rfl, hread, hrestore _ _ _ rfl ht rfl⟩

end Datum

end LineBasic
