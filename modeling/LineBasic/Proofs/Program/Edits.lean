import Mathlib.Data.List.Induction
import LineBasic.Program.Listing

/-! A program under edits. Whatever is entered, deleted and cleared, the program answers as an ordered map:
under a number it has the line that was last stored there, unless an edit since then removed it, and all
that asks for lines by their order or by a range sees the same lines, in ascending order. -/

namespace LineBasic.Listing

variable {p : Listing} {l : ProgramLine} {n : Nat}

/-! ## Lines by their numbers -/

theorem get?_of_mem (h : l ∈ p.lines) : p.get? l.number = some l := by
  rw [get?, List.find?_eq_some_iff_append]
  obtain ⟨before, after, hlines⟩ := List.append_of_mem h
  refine ⟨by simp, before, after, hlines, fun x hx => ?_⟩
  have hascending := p.ascending
  rw [hlines, List.pairwise_append] at hascending
  have hlt : x.number < l.number := hascending.2.2 x hx l List.mem_cons_self
  simpa using Nat.ne_of_lt hlt

theorem get_of_mem (h : l ∈ p.lines) : p.get l.number = .ok l := by
  rw [get, get?_of_mem h]

theorem mem_of_get (h : p.get n = .ok l) : l ∈ p.lines ∧ l.number = n := by
  rw [get] at h
  cases hfind : p.get? n with
  | none =>
    rw [hfind] at h
    cases h
  | some l' =>
    rw [hfind] at h
    cases h
    exact ⟨List.mem_of_find?_eq_some hfind, by simpa using List.find?_some hfind⟩

theorem get_eq_ok_iff : p.get n = .ok l ↔ l ∈ p.lines ∧ l.number = n := by
  constructor
  · exact mem_of_get
  · rintro ⟨hl, rfl⟩
    exact get_of_mem hl

theorem get_of_forall_ne (h : ∀ l ∈ p.lines, l.number ≠ n) : p.get n = .error (.of .undefinedStatement) := by
  have hnone : p.get? n = none := by simpa [get?] using h
  rw [get, hnone]

theorem eq_of_number {l' : ProgramLine} (hl : l ∈ p.lines) (hl' : l' ∈ p.lines)
    (h : l.number = l'.number) : l = l' := by
  have hget := get?_of_mem hl
  rw [h, get?_of_mem hl'] at hget
  exact (Option.some.inj hget).symm

/-! ## Lines by their order -/

/-- The one with the least number of the lines of which `P` holds. -/
def Least (P : ProgramLine → Prop) (l : ProgramLine) : Prop := P l ∧ ∀ x, P x → l.number ≤ x.number

/-- The first line that passes a test is the one with the least number. -/
theorem least_of_find? {test : ProgramLine → Bool} (h : p.lines.find? test = some l) :
    Least (fun x => x ∈ p.lines ∧ test x = true) l := by
  obtain ⟨htest, before, after, hlines, hbefore⟩ := List.find?_eq_some_iff_append.mp h
  have hascending := p.ascending
  rw [hlines, List.pairwise_append, List.pairwise_cons] at hascending
  rw [hlines]
  refine ⟨⟨by simp, htest⟩, ?_⟩
  intro x hx
  obtain ⟨hmem, hpass⟩ := hx
  rcases List.mem_append.mp hmem with hx | hx
  · have hfails := hbefore x hx
    simp [hpass] at hfails
  · rcases List.mem_cons.mp hx with rfl | hx
    · exact Nat.le_refl _
    · exact Nat.le_of_lt (hascending.2.1.1 x hx)

theorem find?_eq_some_iff_least {test : ProgramLine → Bool} :
    p.lines.find? test = some l ↔ Least (fun x => x ∈ p.lines ∧ test x = true) l := by
  constructor
  · exact least_of_find?
  · intro hl
    obtain ⟨⟨hmem, htest⟩, hleast⟩ := hl
    cases hfind : p.lines.find? test with
    | none =>
      have hfails := List.find?_eq_none.mp hfind l hmem
      contradiction
    | some l' =>
      obtain ⟨⟨hmem', htest'⟩, hleast'⟩ := least_of_find? hfind
      have hnumber := Nat.le_antisymm (hleast' l ⟨hmem, htest⟩) (hleast l' ⟨hmem', htest'⟩)
      rw [eq_of_number hmem' hmem hnumber]

/-- The line that comes to be visited after so many others, from the first line on to the next again and
again. -/
def visit (p : Listing) : Nat → Option ProgramLine
  | 0 => p.first?
  | k + 1 => (p.visit k).bind fun l => p.next? l.number

theorem next?_of_getElem? {k : Nat} (h : p.lines[k]? = some l) : p.next? l.number = p.lines[k + 1]? := by
  obtain ⟨hk, hl⟩ := List.getElem?_eq_some_iff.mp h
  have hlines : p.lines = p.lines.take k ++ l :: p.lines.drop (k + 1) := by
    rw [← hl, ← List.drop_eq_getElem_cons hk, List.take_append_drop]
  have hascending := p.ascending
  rw [hlines, List.pairwise_append, List.pairwise_cons] at hascending
  obtain ⟨-, ⟨hafter, -⟩, hbefore⟩ := hascending
  have hnone : (p.lines.take k).find? (l.number < ·.number) = none := by
    rw [List.find?_eq_none]
    intro x hx
    have hlt := hbefore x hx l List.mem_cons_self
    simp only [decide_eq_true_eq]
    omega
  have hnext : (p.lines.drop (k + 1)).find? (l.number < ·.number) = (p.lines.drop (k + 1)).head? := by
    cases hdrop : p.lines.drop (k + 1) with
    | nil => rfl
    | cons x rest =>
      rw [hdrop] at hafter
      simp [hafter x List.mem_cons_self]
  rw [next?, hlines, List.find?_append, hnone, Option.none_or, List.find?_cons_of_neg (by simp), hnext,
    List.head?_drop, ← hlines]

/-- The lines are visited one after another, all of them and none twice. -/
theorem visit_eq (p : Listing) (k : Nat) : p.visit k = p.lines[k]? := by
  induction k with
  | zero => exact List.head?_eq_getElem?
  | succ k ih =>
    rw [visit, ih]
    cases h : p.lines[k]? with
    | none =>
      have hlength := List.getElem?_eq_none_iff.mp h
      rw [Option.bind_none, List.getElem?_eq_none (by omega)]
    | some l => exact next?_of_getElem? h

/-! ## Edits -/

/-- What may be done to a program. -/
inductive Edit where
  | enter (l : Line)
  | delete (start stop : Nat)
  | clear

/-- An edit that stores or removes the line with this number, if there is one. -/
def Edit.Concerns (n : Nat) : Edit → Prop
  | enter l => l.number = some n
  | delete start stop => start ≤ n ∧ n ≤ stop
  | clear => True

def edit (p : Listing) : Edit → Listing
  | .enter l => p.enter l
  | .delete start stop => p.delete start stop
  | .clear => empty

/-- An empty program after some edits, the first one first. -/
def edited (es : List Edit) : Listing := es.foldl edit empty

/-- A line with tokens was entered, and no edit since then concerns its number. -/
def Stored (es : List Edit) (l : ProgramLine) : Prop :=
  l.tokens ≠ [] ∧ ∃ before after, es = before ++ .enter ⟨some l.number, l.tokens⟩ :: after ∧
    ∀ e ∈ after, ¬ e.Concerns l.number

theorem mem_insertLine_iff {x : ProgramLine} {xs : List ProgramLine} (h : xs.Pairwise (·.number < ·.number)) :
    x ∈ insertLine l xs ↔ x = l ∨ x ∈ xs ∧ x.number ≠ l.number := by
  induction xs with
  | nil => simp [insertLine]
  | cons y ys ih =>
    obtain ⟨hy, hys⟩ := List.pairwise_cons.mp h
    have hne : ∀ x ∈ ys, l.number ≤ y.number → x.number ≠ l.number := by
      intro x hx hle
      have hlt := hy x hx
      omega
    rw [insertLine]
    split
    · rename_i hlt
      have hy' : y.number ≠ l.number := by omega
      simp only [List.mem_cons]
      grind
    · split
      · simp only [List.mem_cons]
        grind
      · simp only [List.mem_cons, ih hys]
        grind

/-- What one edit does: it stores a line, or it keeps the lines that it does not concern. -/
theorem mem_edit (p : Listing) (e : Edit) (l : ProgramLine) : l ∈ (p.edit e).lines ↔
    l.tokens ≠ [] ∧ e = .enter ⟨some l.number, l.tokens⟩ ∨ l ∈ p.lines ∧ ¬ e.Concerns l.number := by
  cases e with
  | clear => simp [edit, empty, Edit.Concerns]
  | delete start stop =>
    have hkept : l ∈ (p.delete start stop).lines ↔ l ∈ p.lines ∧ !within start stop l := List.mem_filter
    simp [edit, hkept, within, Edit.Concerns, imp_iff_not_or]
  | enter line =>
    obtain ⟨number, tokens⟩ := line
    obtain ⟨m, ts⟩ := l
    cases number with
    | none => simp [edit, enter, Edit.Concerns]
    | some n =>
      by_cases htokens : tokens = []
      · have hedit : p.edit (.enter ⟨some n, tokens⟩) = p.erase n := by simp [edit, enter, htokens]
        have hkept : ⟨m, ts⟩ ∈ (p.erase n).lines ↔ ⟨m, ts⟩ ∈ p.lines ∧ m != n := List.mem_filter
        rw [hedit, hkept]
        grind [Edit.Concerns]
      · have hedit : p.edit (.enter ⟨some n, tokens⟩) = p.insert ⟨n, tokens⟩ htokens := by
          simp [edit, enter, htokens]
        have hkept : ⟨m, ts⟩ ∈ (p.insert ⟨n, tokens⟩ htokens).lines ↔
            ProgramLine.mk m ts = ⟨n, tokens⟩ ∨ ⟨m, ts⟩ ∈ p.lines ∧ m ≠ n := mem_insertLine_iff p.ascending
        rw [hedit, hkept]
        grind [Edit.Concerns]

theorem stored_concat {es : List Edit} {e : Edit} : Stored (es ++ [e]) l ↔
    l.tokens ≠ [] ∧ e = .enter ⟨some l.number, l.tokens⟩ ∨ Stored es l ∧ ¬ e.Concerns l.number := by
  constructor
  · rintro ⟨htokens, before, after, hes, hafter⟩
    rcases List.eq_nil_or_concat after with rfl | ⟨rest, last, rfl⟩
    · obtain ⟨-, he⟩ := List.append_inj' hes rfl
      exact .inl ⟨htokens, List.singleton_inj.mp he⟩
    · rw [List.concat_eq_append, ← List.cons_append, ← List.append_assoc] at hes
      obtain ⟨hbefore, he⟩ := List.append_inj' hes rfl
      obtain rfl := List.singleton_inj.mp he
      refine .inr ⟨⟨htokens, before, rest, hbefore, ?_⟩, hafter e (by simp)⟩
      intro x hx
      exact hafter x (by simp [hx])
  · rintro (⟨htokens, rfl⟩ | ⟨⟨htokens, before, after, rfl, hafter⟩, he⟩)
    · exact ⟨htokens, es, [], rfl, by simp⟩
    · refine ⟨htokens, before, after ++ [e], by simp, ?_⟩
      simpa [or_imp, forall_and] using ⟨hafter, he⟩

/-- What any number of edits come to, by induction from the last one back. -/
theorem mem_edited {es : List Edit} : l ∈ (edited es).lines ↔ Stored es l := by
  induction es using List.reverseRecOn with
  | nil => simp [edited, empty, Stored]
  | append_singleton es e ih =>
    have hlast : edited (es ++ [e]) = (edited es).edit e := by simp [edited]
    rw [hlast, mem_edit, stored_concat, ih]

/-- A program answers as the ordered map of the lines of which `Holds` is true. -/
structure AnswersAs (p : Listing) (Holds : ProgramLine → Prop) : Prop where
  get : ∀ n l, p.get n = .ok l ↔ Holds l ∧ l.number = n
  undefined : ∀ n, (∀ l, Holds l → l.number ≠ n) → p.get n = .error (.of .undefinedStatement)
  inhabited : ∀ l, Holds l → l.tokens ≠ []
  /-- From the first line on to the next again and again, every line is visited once, in ascending order, and
  that ends. A range is listed in the same order, each line as the text of its number and its tokens. -/
  visits : ∃ lines : List ProgramLine, (∀ l, l ∈ lines ↔ Holds l) ∧ lines.Pairwise (·.number < ·.number) ∧
    (∀ k, p.visit k = lines[k]?) ∧ ∀ start stop, p.list start stop =
      (lines.filter fun l => start ≤ l.number ∧ l.number ≤ stop).map fun l => Line.text ⟨some l.number, l.tokens⟩
  next : ∀ n l, p.next? n = some l ↔ Least (fun x => Holds x ∧ n < x.number) l
  next_none : ∀ n, p.next? n = none ↔ ∀ l, Holds l → l.number ≤ n
  atOrAfter : ∀ n l, p.atOrAfter? n = some l ↔ Least (fun x => Holds x ∧ n ≤ x.number) l
  atOrAfter_none : ∀ n, p.atOrAfter? n = none ↔ ∀ l, Holds l → l.number < n
  reversed : ∀ start stop, stop < start → p.list start stop = []

theorem answersAs (p : Listing) : p.AnswersAs (· ∈ p.lines) where
  get _ _ := get_eq_ok_iff
  undefined _ := get_of_forall_ne
  inhabited := p.inhabited
  visits := by
    refine ⟨p.lines, fun l => Iff.rfl, p.ascending, p.visit_eq, fun start stop => ?_⟩
    have hrange : within start stop = fun l => decide (start ≤ l.number ∧ l.number ≤ stop) := by
      funext l
      simp [within]
    have htext : ProgramLine.text = fun l => Line.text ⟨some l.number, l.tokens⟩ := rfl
    rw [list, hrange, htext]
  next n l := by
    rw [next?, find?_eq_some_iff_least]
    simp
  next_none n := by simp [next?]
  atOrAfter n l := by
    rw [atOrAfter?, find?_eq_some_iff_least]
    simp
  atOrAfter_none n := by simp [atOrAfter?]
  reversed start stop h := by
    have hnone : p.lines.filter (within start stop) = [] := by
      rw [List.filter_eq_nil_iff]
      intro l _
      simp only [within, Bool.and_eq_true, decide_eq_true_eq]
      omega
    rw [list, hnone, List.map_nil]

/-- After any edits of an empty program it answers as the ordered map of the lines that were entered and that no
later edit has replaced or removed. -/
theorem edited_answersAs (es : List Edit) : (edited es).AnswersAs (Stored es) := by
  have hstored : Stored es = (· ∈ (edited es).lines) := by
    funext l
    exact propext mem_edited.symm
  rw [hstored]
  exact answersAs _

end LineBasic.Listing
