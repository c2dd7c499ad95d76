import LineBasic.Proofs.Memory.Cells
import LineBasic.Proofs.Memory.Limits
import LineBasic.Proofs.Statement.Calls

/-! What `INPUT` makes of the lines that are typed. A line ends an item at each comma outside of its quotes, and what
stands between quotes is taken as it is. A line with an item that is no number where one is wanted is rejected as a
whole; the items of the others, put end to end, fill the variables one after another. -/

namespace LineBasic

namespace Answer

/-! ## Items -/

/-- At a comma outside of quotes the items of a line end and others start. -/
theorem splitFrom_append {s : List Char} {i : Item} (h : Even (s.count '"' + i.isOpen.toNat)) (rest : List Char) :
    splitFrom i (s ++ ',' :: rest) = splitFrom i s ++ splitFrom {} rest := by
  -- each quote changes both parts of the sum by one, so it stays even and none is open where the comma comes
  induction s generalizing i with
  | nil =>
    have hclosed : i.isOpen = false := by
      cases hopen : i.isOpen with
      | false => rfl
      | true => simp [hopen] at h
    simp [splitFrom, hclosed]
  | cons c s ih =>
    by_cases hquote : c = '"'
    · subst hquote
      have hnext : Even (s.count '"' + (!i.isOpen).toNat) := by
        cases hopen : i.isOpen <;> simp_all [Nat.even_add_one, parity_simps]
      simpa [splitFrom] using ih (i := { i with isOpen := !i.isOpen, quoted := true }) hnext
    · have hcount : (c :: s).count '"' = s.count '"' := List.count_cons_of_ne hquote
      rw [hcount] at h
      cases hcut : c == ',' && !i.isOpen with
      | true =>
        have hclosed : i.isOpen = false := by simpa using (Bool.and_eq_true_iff.mp hcut).2
        rw [hclosed] at h
        simpa [splitFrom, hquote, hcut] using ih (i := {}) h
      | false => simpa [splitFrom, hquote, hcut] using ih (i := { i with chars := c :: i.chars }) h

theorem split_append {a : String} (ha : Even (a.toList.count '"')) (b : String) :
    split (a ++ "," ++ b) = split a ++ split b := by
  have hsplit := splitFrom_append (i := {}) (s := a.toList) (by simpa using ha) b.toList
  simpa [split] using hsplit

/-- One line may be cut into several at commas outside of its quotes. -/
inductive Cuts : String → List String → Prop
  | whole (s : String) : Cuts s [s]
  | cut {a rest : String} {pieces : List String} (ha : Even (a.toList.count '"')) (h : Cuts rest pieces) :
      Cuts (a ++ "," ++ rest) (a :: pieces)

theorem Cuts.split_eq {s : String} {pieces : List String} (h : Cuts s pieces) :
    split s = pieces.flatMap split := by
  induction h with
  | whole s => simp
  | cut ha _ ih => rw [split_append ha, ih, List.flatMap_cons]

/-- Lines whose quotes are all closed are cut where they were joined. -/
theorem cuts_intercalate {pieces : List String} (hne : pieces ≠ [])
    (h : ∀ p ∈ pieces, Even (p.toList.count '"')) : Cuts (",".intercalate pieces) pieces := by
  induction pieces with
  | nil => exact absurd rfl hne
  | cons p pieces ih =>
    obtain ⟨hp, hpieces⟩ := List.forall_mem_cons.mp h
    cases pieces with
    | nil =>
      rw [String.intercalate_singleton]
      exact .whole p
    | cons p' pieces =>
      rw [String.intercalate_cons_cons]
      exact .cut hp (ih (List.cons_ne_nil _ _) hpieces)

/-! ## Quoted items -/

/-- While a quote is open, all up to the next one belongs to the item, commas and blanks too. -/
theorem splitFrom_of_open {s : List Char} (hs : '"' ∉ s) {i : Item} (hopen : i.isOpen = true) (rest : List Char) :
    splitFrom i (s ++ '"' :: rest) =
      splitFrom { chars := s.reverse ++ i.chars, isOpen := false, quoted := true } rest := by
  induction s generalizing i with
  | nil => simp [splitFrom, hopen]
  | cons c s ih =>
    obtain ⟨hc, hs⟩ := List.ne_and_not_mem_of_not_mem_cons hs
    have hnext := ih hs (i := { i with chars := c :: i.chars }) hopen
    simpa [splitFrom, Ne.symm hc, hopen] using hnext

/-- A text as it is typed between quotes. -/
def enquote (t : String) : String := "\"" ++ t ++ "\""

theorem toList_enquote (t : String) : (enquote t).toList = '"' :: (t.toList ++ ['"']) := by
  simp [enquote]

theorem even_count_enquote {t : String} (ht : '"' ∉ t.toList) : Even ((enquote t).toList.count '"') := by
  have hcount : t.toList.count '"' = 0 := List.count_eq_zero.mpr ht
  simp [toList_enquote, hcount]

/-- Between quotes a text is one item, with the blanks around it. -/
theorem split_enquote {t : String} (ht : '"' ∉ t.toList) : split (enquote t) = [t] := by
  have hread := splitFrom_of_open ht (i := { isOpen := true, quoted := true }) rfl []
  rw [split, toList_enquote, splitFrom]
  simpa [splitFrom, Item.text] using hread

/-- Texts that are typed between quotes are the items of a line as they are, and what stands on either side of a
comma outside of quotes is split on its own. -/
theorem split_at_outer_commas :
    (∀ texts : List String, texts ≠ [] → (∀ t ∈ texts, '"' ∉ t.toList) →
      split (",".intercalate (texts.map enquote)) = texts) ∧
    ∀ a b : String, Even (a.toList.count '"') → split (a ++ "," ++ b) = split a ++ split b := by
  refine ⟨fun texts hne htexts => ?_, fun a b ha => split_append ha b⟩
  have heven : ∀ p ∈ texts.map enquote, Even (p.toList.count '"') := by
    intro p hp
    obtain ⟨t, ht, rfl⟩ := List.mem_map.mp hp
    exact even_count_enquote (htexts t ht)
  have hsplit : ∀ t ∈ texts, split (enquote t) = [t] := fun t ht => split_enquote (htexts t ht)
  rw [(cuts_intercalate (by simpa using hne) heven).split_eq, List.flatMap_map, List.flatMap_congr hsplit]
  exact List.flatMap_singleton' texts

/-- Commas and blanks between the quotes and a text that is empty; then quotes that open and close inside an item,
before a line with one that stays open. -/
theorem split_at_outer_commas_mixed :
    split "\" A, B \",\"\",\"C\"" = [" A, B ", "", "C"] ∧
    Even (" D\",\"E ".toList.count '"') ∧
    split " D\",\"E , F,\" G,H" = [" D,E "] ++ ["F", " G,H"] := by
  have heven : Even (" D\",\"E ".toList.count '"') := by decide
  exact ⟨split_at_outer_commas.1 [" A, B ", "", "C"] (by decide) (by decide), heven,
    split_at_outer_commas.2 " D\",\"E " " F,\" G,H" heven⟩

/-! ## Rejected lines -/

/-- Of the items that face the variables in order, one that faces a numeric variable is no number. -/
def Rejects (cells : List Cell) (items : List String) : Prop :=
  ∃ p ∈ cells.zip items, p.1.isString = false ∧ Number.read? p.2.toList = none

instance (cells : List Cell) (items : List String) : Decidable (Rejects cells items) :=
  inferInstanceAs (Decidable (∃ p ∈ cells.zip items, p.1.isString = false ∧ Number.read? p.2.toList = none))

theorem value?_eq_none_iff {c : Cell} {s : String} :
    value? c s = none ↔ c.isString = false ∧ Number.read? s.toList = none := by
  cases hc : c.isString <;> simp [value?, hc]

theorem values?_eq_none_iff {cells : List Cell} {items : List String} :
    values? cells items = none ↔ Rejects cells items := by
  induction cells generalizing items with
  | nil => simp [values?, Rejects]
  | cons c cells ih =>
    cases items with
    | nil => simp [values?, Rejects]
    | cons s items =>
      have hrejects : Rejects (c :: cells) (s :: items) ↔ value? c s = none ∨ Rejects cells items := by
        simp [Rejects, value?_eq_none_iff]
      rw [hrejects, ← ih, values?]
      cases value? c s <;> cases values? cells items <;> simp

theorem zip_append_items {cells : List Cell} (xs ys : List String) :
    cells.zip (xs ++ ys) = cells.zip xs ++ (cells.drop xs.length).zip ys := by
  induction xs generalizing cells with
  | nil => simp
  | cons x xs ih =>
    cases cells with
    | nil => simp
    | cons c cells => simpa using ih

theorem rejects_append {cells : List Cell} {xs ys : List String} :
    Rejects cells (xs ++ ys) ↔ Rejects cells xs ∨ Rejects (cells.drop xs.length) ys := by
  simp only [Rejects, zip_append_items, List.mem_append, or_and_right, exists_or]

/-- The items of the lines that are accepted, put end to end. -/
def accepted (cells : List Cell) : List String → List String
  | [] => []
  | line :: lines =>
    if Rejects cells (split line) then accepted cells lines
    else split line ++ accepted (cells.drop (split line).length) lines

theorem accepted_append {cells : List Cell} (lines more : List String) : accepted cells (lines ++ more) =
    accepted cells lines ++ accepted (cells.drop (accepted cells lines).length) more := by
  induction lines generalizing cells with
  | nil => simp [accepted]
  | cons first lines ih =>
    rw [List.cons_append, accepted, accepted]
    by_cases hfirst : Rejects cells (split first)
    · rw [if_pos hfirst, if_pos hfirst, ih]
    · rw [if_neg hfirst, if_neg hfirst, ih, List.append_assoc, List.drop_drop, List.length_append]

theorem accepted_singleton {cells : List Cell} (line : String) :
    accepted cells [line] = if Rejects cells (split line) then [] else split line := by
  simp [accepted]

/-- Where no item is rejected, no line is. -/
theorem accepted_eq {cells : List Cell} {lines : List String} (h : ¬ Rejects cells (lines.flatMap split)) :
    accepted cells lines = lines.flatMap split := by
  induction lines generalizing cells with
  | nil => rfl
  | cons line lines ih =>
    rw [List.flatMap_cons, rejects_append, not_or] at h
    rw [accepted, if_neg h.1, ih h.2, List.flatMap_cons]

/-- However a line is cut, the variables face the same items. -/
theorem zip_accepted_of_cuts {cells : List Cell} {t : String} {pieces lines : List String} (h : Cuts t pieces)
    (ht : cells.length ≤ (accepted cells [t]).length) (hlines : lines <+: pieces)
    (hfilled : cells.length ≤ (accepted cells lines).length) :
    cells.zip (accepted cells lines) = cells.zip (accepted cells [t]) := by
  cases cells with
  | nil => simp
  | cons c cells =>
    have htaken : ¬ Rejects (c :: cells) (split t) := by
      intro hrejects
      rw [accepted_singleton, if_pos hrejects] at ht
      cases ht
    have hwhole : accepted (c :: cells) [t] = split t := by rw [accepted_singleton, if_neg htaken]
    obtain ⟨left, rfl⟩ := hlines
    have hsplit := h.split_eq
    rw [List.flatMap_append] at hsplit
    rw [hsplit, rejects_append, not_or] at htaken
    rw [accepted_eq htaken.1] at hfilled ⊢
    rw [hwhole, hsplit, zip_append_items, List.drop_eq_nil_of_le hfilled, List.zip_nil_left, List.append_nil]

/-! ## Assignments -/

/-- What an item is to a variable: to a string variable the text itself, to any other one the number that it
reads as. -/
inductive Means (c : Cell) (item : String) : Value → Prop
  | string (h : c.isString = true) : Means c item (.string item)
  | number {x : Float} (h : c.isString = false) (hx : Number.read? item.toList = some x) : Means c item (.number x)

section

variable {c : Cell} {item : String} {v v' : Value}

theorem value?_eq_some_iff : value? c item = some v ↔ Means c item v := by
  constructor
  · intro h
    rw [value?] at h
    split at h
    · rename_i hstring
      cases h
      exact .string hstring
    · rename_i hnumber
      obtain ⟨x, hx, rfl⟩ := Option.map_eq_some_iff.mp h
      exact .number (Bool.eq_false_iff.mpr hnumber) hx
  · intro h
    cases h with
    | string h => rw [value?, if_pos h]
    | number h hx =>
      rw [value?, h, hx]
      rfl

theorem Means.unique (h : Means c item v) (h' : Means c item v') : v = v' :=
  Option.some.inj ((value?_eq_some_iff.mpr h).symm.trans (value?_eq_some_iff.mpr h'))

theorem Means.conform (h : Means c item v) (hshort : c.isString = true → item.length ≤ 255) :
    Store.conform c.name v = .ok v := by
  cases h with
  | string h =>
    refine Store.conform_of_type h.symm ?_
    rintro _ ⟨⟩
    exact hshort h
  | number h => exact Store.conform_of_type h.symm nofun

end

/-- One after another these variables are assigned the items they face. -/
inductive Fills : List (Cell × String) → Store → Store → Prop
  | nil (s : Store) : Fills [] s s
  | cons {c : Cell} {item : String} {v : Value} {rest : List (Cell × String)} {s s₁ s' : Store}
      (hv : Means c item v) (hset : s.set c v = (.ok (), s₁)) (h : Fills rest s₁ s') :
      Fills ((c, item) :: rest) s s'

variable {ps qs : List (Cell × String)} {s s₁ s' : Store}

theorem Fills.append (h : Fills ps s s₁) (h' : Fills qs s₁ s') : Fills (ps ++ qs) s s' := by
  induction h with
  | nil => exact h'
  | cons hv hset _ ih => exact .cons hv hset (ih h')

/-- A variable that faces no item has the value that it had. -/
theorem Fills.get_of_forall_ne (h : Fills ps s s') {c : Cell} (hc : ∀ p ∈ ps, p.1 ≠ c) : s'.get c = s.get c := by
  induction h with
  | nil => rfl
  | cons _ hset _ ih =>
    obtain ⟨hne, hrest⟩ := List.forall_mem_cons.mp hc
    rw [ih hrest, Store.get_of_set_of_ne hset hne.symm]

/-- A variable has the value of the last item that it faces. -/
theorem Fills.get_of_last {c : Cell} {item : String} {before after : List (Cell × String)} (h : Fills ps s s')
    (hps : ps = before ++ (c, item) :: after) (hafter : ∀ p ∈ after, p.1 ≠ c) : Means c item (s'.get c) := by
  subst hps
  -- what comes before it is assigned first and plays no part
  induction before generalizing s with
  | nil =>
    cases h with
    | cons hv hset h =>
      rw [h.get_of_forall_ne hafter, (Store.get_of_set hset).1]
      exact hv
  | cons p before ih =>
    cases h with
    | cons _ _ h => exact ih h

theorem Fills.unique (h : Fills ps s s₁) (h' : Fills ps s s') : s₁ = s' := by
  induction h with
  | nil =>
    cases h'
    rfl
  | cons hv hset _ ih =>
    cases h' with
    | cons hv' hset' h' =>
      obtain rfl := hv.unique hv'
      cases hset.symm.trans hset'
      exact ih h'

theorem Fills.persists (h : Fills ps s s') : s.Persists s' := by
  induction h with
  | nil s => exact .refl s
  | @cons c _ v _ s _ _ _ hset _ ih =>
    have hpersists := s.set_persists c v
    rw [hset] at hpersists
    exact hpersists.trans ih

/-- No item is too long for the string variable it faces. -/
def Short (ps : List (Cell × String)) : Prop := ∀ p ∈ ps, p.1.isString = true → p.2.length ≤ 255

instance (ps : List (Cell × String)) : Decidable (Short ps) :=
  inferInstanceAs (Decidable (∀ p ∈ ps, p.1.isString = true → p.2.length ≤ 255))

theorem Short.of_append (h : Short (ps ++ qs)) : Short ps ∧ Short qs :=
  ⟨fun p hp => h p (List.mem_append_left _ hp), fun p hp => h p (List.mem_append_right _ hp)⟩

end Answer

namespace Statement

open Answer

variable {m : Machine} {cells : List Cell} {items : List String} {values : List Value}

theorem assignAll_of_values (hvalues : values? cells items = some values) (hshort : Short (cells.zip items))
    (hsized : m.store.Sized) (hcells : ∀ c ∈ cells, m.store.Holds c) :
    ∃ store, assignAll cells values m = (.ok (), { m with store }) ∧ Fills (cells.zip items) m.store store ∧
      values.length = min cells.length items.length := by
  induction cells generalizing items values m with
  | nil =>
    cases hvalues
    exact ⟨m.store, rfl, .nil _, by simp⟩
  | cons c cells ih =>
    cases items with
    | nil =>
      cases hvalues
      exact ⟨m.store, rfl, .nil _, by simp⟩
    | cons item items =>
      obtain ⟨v, hv, hrest⟩ := Option.bind_eq_some_iff.mp hvalues
      obtain ⟨values, hothers, hcons⟩ := Option.bind_eq_some_iff.mp hrest
      cases hcons
      have hmeans := value?_eq_some_iff.mp hv
      obtain ⟨store₁, hset, hputs⟩ := Store.set_of_holds hsized (hcells c List.mem_cons_self)
        (hmeans.conform (hshort (c, item) List.mem_cons_self))
      have hassign : Exec.assign c v m = (.ok (), { m with store := store₁ }) := by
        refine Extends.liftM_apply ?_
        rw [Eval.onStore_apply, hset]
      obtain ⟨store, hall, hfills, hlength⟩ := ih (m := { m with store := store₁ }) hothers
        (fun p hp => hshort p (List.mem_cons_of_mem _ hp)) (hputs.persists.sized_of_sized hsized)
        fun c' hc' => hputs.persists.holds (hcells c' (List.mem_cons_of_mem _ hc'))
      refine ⟨store, ?_, .cons hmeans hset hfills, ?_⟩
      · rw [assignAll, bind_of_ok hassign, hall]
      · rw [List.length_cons, List.length_cons, List.length_cons, hlength]
        omega

/-! ## Answers -/

variable {q q' : Inquiry} {line : String} {rest : List String} {m' : Machine}

theorem take_of_rejects (h : Rejects q.cells items) :
    take q items m = (.ok (some q), m.write ("?REDO FROM START\n" ++ q.prompt ++ "? ")) := by
  rw [take, values?_eq_none_iff.mpr h]
  rfl

theorem take_of_accepts (h : ¬ Rejects q.cells items) (hshort : Short (q.cells.zip items))
    (hsized : m.store.Sized) (hcells : ∀ c ∈ q.cells, m.store.Holds c) :
    ∃ (t : Tape) (store : Store), t.input = m.tape.input ∧ Fills (q.cells.zip items) m.store store ∧
      take q items m = (.ok (if items.length < q.cells.length then some ⟨"?", q.cells.drop items.length⟩ else none),
        { m with store, tape := t }) := by
  obtain ⟨values, hvalues⟩ := Option.ne_none_iff_exists'.mp (mt values?_eq_none_iff.mp h)
  obtain ⟨store, hall, hfills, hlength⟩ := assignAll_of_values hvalues hshort hsized hcells
  rw [take, hvalues]
  by_cases hless : items.length < q.cells.length
  · have hvaluesLength : values.length = items.length := by omega
    simp only [bind_of_ok hall, hvaluesLength, if_pos hless]
    exact ⟨m.tape.write "?? ", store, rfl, hfills, rfl⟩
  · have hvaluesLength : values.length = q.cells.length := by omega
    simp only [bind_of_ok hall, hvaluesLength, if_neg (Nat.lt_irrefl _), if_neg hless]
    by_cases hextra : q.cells.length < items.length
    · rw [if_pos hextra]
      exact ⟨m.tape.write "?EXTRA IGNORED\n", store, rfl, hfills, rfl⟩
    · rw [if_neg hextra]
      exact ⟨m.tape, store, rfl, hfills, rfl⟩

/-- The machine when a line has been read and these are left. -/
def pastLine (m : Machine) (rest : List String) : Machine :=
  { m with tape := { m.tape with input := rest, column := 0 } }

theorem poll_of_cons (h : m.tape.input = line :: rest) : poll q m = take q (split line) (pastLine m rest) := by
  have hread : m.tape.read = (some line, { m.tape with input := rest, column := 0 }) := by rw [Tape.read, h]
  have hline : readLine m = (.ok (some line), pastLine m rest) := by
    show (Except.ok m.tape.read.1, { m with tape := m.tape.read.2 }) = _
    rw [hread]
    rfl
  rw [poll, bind_of_ok hline]

/-- A line that is rejected changes nothing but the tape. -/
theorem pollInput_of_rejects (hinput : m.tape.input = line :: rest) (h : Rejects q.cells (split line)) :
    ∃ t : Tape, t.input = rest ∧ pollInput q m = (.ok .waiting, { m with tape := t, inquiry := some q }) := by
  have hpoll := (poll_of_cons hinput).trans (take_of_rejects h)
  rw [pollInput, bind_of_ok hpoll]
  exact ⟨_, rfl, rfl⟩

/-- A line that is accepted fills as many variables as it has items. -/
theorem pollInput_of_accepts (hinput : m.tape.input = line :: rest) (h : ¬ Rejects q.cells (split line))
    (hshort : Short (q.cells.zip (split line))) (hsized : m.store.Sized)
    (hcells : ∀ c ∈ q.cells, m.store.Holds c) (hend : m.cursor.atStatementEnd = true) :
    ∃ (t : Tape) (store : Store), t.input = rest ∧ Fills (q.cells.zip (split line)) m.store store ∧
      pollInput q m =
        if (split line).length < q.cells.length then
          (.ok .waiting, { m with
            store, tape := t, inquiry := some ⟨"?", q.cells.drop (split line).length⟩ })
        else (.ok .done, { m with store, tape := t }) := by
  obtain ⟨t, store, ht, hfills, htake⟩ := take_of_accepts (m := pastLine m rest) h hshort hsized hcells
  have hpoll := (poll_of_cons hinput).trans htake
  refine ⟨t, store, ht, hfills, ?_⟩
  rw [pollInput, bind_of_ok hpoll]
  split
  · rfl
  · have hended : (liftM Eval.endStatement : Exec Unit) { m with store, tape := t } =
        (require m.cursor.atStatementEnd (.of .syntaxError), { m with store, tape := t }) := rfl
    rw [hend] at hended
    exact bind_of_ok (f := fun _ => pure Flow.done) hended

/-! ## Questions -/

/-- All variables of a list are there when it has been read. -/
theorem holds_of_separated {ctx : Context} {n : Nat} {w w' : Workspace}
    (h : separated (Eval.accept .comma) (Expression.target ctx) n w = (.ok cells, w')) :
    ∀ c ∈ cells, w'.store.Holds c := by
  induction n generalizing cells w with
  | zero =>
    obtain ⟨c, w₁, hc, hpure⟩ := bind_eq_ok h
    cases hpure
    simpa using Forward.holds_of_target hc
  | succ n ih =>
    obtain ⟨c, w₁, hc, hmore⟩ := bind_eq_ok h
    obtain ⟨more, w₂, haccept, hend⟩ := bind_eq_ok hmore
    have hholds := Forward.holds_of_target hc
    cases more with
    | false =>
      obtain rfl := Eval.accept_eq_false haccept
      cases hend
      simpa using hholds
    | true =>
      obtain ⟨others, w₃, hothers, hpure⟩ := bind_eq_ok hend
      cases hpure
      have haccepted : Past w₁ w₂ := ((Forward.accept .comma w₁ (.refl w₁)).ok haccept).2
      have hpast : Past w₁ w' :=
        ((Steady.separated (Forward.accept .comma) (Forward.target ctx) n w₂ haccepted).ok hothers).2
      intro c' hc'
      rcases List.mem_cons.mp hc' with rfl | hc'
      · exact hpast.store.persists.holds hholds
      · exact ih hothers c' hc'

/-- Where `INPUT` asks, there are variables to fill, all of them are there, and it has come to its end. -/
theorem inquire_eq_ok (h : inquire m = (.ok q, m')) : q.cells ≠ [] ∧ (∀ c ∈ q.cells, m'.store.Holds c) ∧
    m'.cursor.atStatementEnd = true ∧ m'.tape.input = m.tape.input := by
  obtain ⟨_, m₁, hdirect, hrest⟩ := bind_eq_ok h
  obtain ⟨prompt, m₂, hprompt, hrest⟩ := bind_eq_ok hrest
  obtain ⟨ctx, m₃, hcontext, hrest⟩ := bind_eq_ok hrest
  obtain ⟨cells, m₄, hlist, hrest⟩ := bind_eq_ok hrest
  obtain ⟨_, m₅, hended, hrest⟩ := bind_eq_ok hrest
  obtain ⟨_, m₆, hwritten, hrest⟩ := bind_eq_ok hrest
  cases hrest
  cases hwritten
  cases hcontext
  obtain rfl : m = m₁ := (Prod.mk.inj hdirect).2
  obtain ⟨w, hw, rfl⟩ := liftM_eq_ok hlist
  obtain ⟨w', hw', rfl⟩ := liftM_eq_ok hended
  obtain ⟨_, _, rfl⟩ := liftM_eq_ok hprompt
  obtain ⟨n, w₁, -, hseparated⟩ := bind_eq_ok hw
  have hatEnd := Eval.atStatementEnd_of_endStatement hw'
  obtain rfl := Eval.endStatement_eq_ok hw'
  exact ⟨Forward.list_ne_nil hw, holds_of_separated hseparated, hatEnd, rfl⟩

end Statement

end LineBasic
