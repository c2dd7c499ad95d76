import Mathlib
import LineBasic.Token.Lexer
import LineBasic.Proofs.Token.Keyword

/-! What the scanners take from the front of a text. Each one is described by the texts it can take,
and takes such a text back from any longer one that does not go on with a character of its own. -/

namespace LineBasic.Lexer

open Text

/-! ### Runs of a class of characters -/

/-- A text that does not start with a character of a class. -/
def Stops (p : Char → Bool) (s : List Char) : Prop := ∀ c ∈ s.head?, p c = false

theorem stops_nil (p : Char → Bool) : Stops p [] := by simp [Stops]

theorem stops_cons {p : Char → Bool} {c : Char} {s : List Char} : Stops p (c :: s) ↔ p c = false := by
  simp [Stops]

theorem Stops.mono {p q : Char → Bool} {s : List Char} (h : Stops p s)
    (hpq : ∀ c, q c = true → p c = true) : Stops q s := by
  intro c hc
  have hp := h c hc
  by_contra hq
  simp [hpq c (by simpa using hq)] at hp

theorem stops_dropWhile (p : Char → Bool) (s : List Char) : Stops p (s.dropWhile p) := by
  intro c hc
  have h := List.head?_dropWhile_not p s
  rw [Option.mem_def.mp hc] at h
  exact h

theorem Stops.takeWhile {p : Char → Bool} {s : List Char} (h : Stops p s) : s.takeWhile p = [] := by
  cases s with
  | nil => rfl
  | cons c s => rw [List.takeWhile_cons, stops_cons.mp h]; rfl

theorem Stops.dropWhile {p : Char → Bool} {s : List Char} (h : Stops p s) : s.dropWhile p = s := by
  cases s with
  | nil => rfl
  | cons c s => rw [List.dropWhile_cons, stops_cons.mp h]; rfl

theorem takeWhile_run {p : Char → Bool} {s rest : List Char} (hs : ∀ c ∈ s, p c = true)
    (hr : Stops p rest) : (s ++ rest).takeWhile p = s := by
  rw [List.takeWhile_append_of_pos hs, hr.takeWhile, List.append_nil]

theorem dropWhile_run {p : Char → Bool} {s rest : List Char} (hs : ∀ c ∈ s, p c = true)
    (hr : Stops p rest) : (s ++ rest).dropWhile p = rest := by
  rw [List.dropWhile_append_of_pos hs, hr.dropWhile]

/-! ### Capitals -/

theorem toUpper_of_isDigit {c : Char} (h : c.isDigit = true) : c.toUpper = c := by
  apply Char.toUpper_eq_of_not_isLower
  intro hlower
  simp only [Char.isDigit, Char.isLower, UInt32.le_iff_toNat_le, ge_iff_le] at h hlower
  simp at h hlower
  omega

theorem isAlphanum_toUpper {c : Char} (h : c.isAlphanum = true) : c.toUpper.isAlphanum = true := by
  rw [Char.isAlphanum, Bool.or_eq_true] at h ⊢
  rcases h with h | h
  · exact .inl ((Char.isAlpha_toUpper_eq_isAlpha c).trans h)
  · rw [toUpper_of_isDigit h]
    exact .inr h

theorem map_toUpper_of_isDigit {s : List Char} (h : ∀ c ∈ s, c.isDigit = true) :
    s.map Char.toUpper = s := by
  conv_rhs => rw [← List.map_id s]
  exact List.map_congr_left fun c hc => toUpper_of_isDigit (h c hc)

theorem map_toUpper_map_toUpper (s : List Char) :
    (s.map Char.toUpper).map Char.toUpper = s.map Char.toUpper := by
  simp

/-! ### Numerals -/

def IsSign (s : List Char) : Prop := s = [] ∨ s = ['+'] ∨ s = ['-']

/-- The part of a numeral after its mantissa: nothing, or a mark, a sign and some digits. -/
inductive IsExponent : List Char → Prop
  | none : IsExponent []
  | marked {mark : Char} {sgn digits : List Char} : mark.toUpper = 'E' → IsSign sgn → digits ≠ [] →
      (∀ c ∈ digits, c.isDigit = true) → IsExponent (mark :: (sgn ++ digits))

structure IsMantissa (m : Numeral.Mantissa) : Prop where
  ne_nil : m.digits ≠ []
  isDigit : ∀ c ∈ m.digits, c.isDigit = true

/-- A numeral as it is written. -/
def IsNumeral (s : List Char) : Prop :=
  ∃ m e, IsMantissa m ∧ IsExponent e ∧ s = m.text ++ e

/-- A character with which a numeral may go on after its mantissa. -/
def extendsNumeral (c : Char) : Bool := c.isDigit || c == '.' || c.toUpper == 'E'

theorem sign_sound (s : List Char) :
    IsSign (Numeral.sign s).1 ∧ (Numeral.sign s).1 ++ (Numeral.sign s).2 = s := by
  unfold Numeral.sign IsSign
  split <;> simp

theorem sign_append {sgn : List Char} (h : IsSign sgn) {d : Char} (hd : d.isDigit = true)
    (rest : List Char) : Numeral.sign (sgn ++ d :: rest) = (sgn, d :: rest) := by
  rcases h with rfl | rfl | rfl
  · unfold Numeral.sign
    split
    · simp_all
    · simp_all
    · rfl
  · rfl
  · rfl

theorem mantissa_sound (s : List Char) :
    (Numeral.mantissa s).1.text ++ (Numeral.mantissa s).2 = s ∧
      ∀ c ∈ (Numeral.mantissa s).1.digits, c.isDigit = true := by
  have hs := List.takeWhile_append_dropWhile (p := Char.isDigit) (l := s)
  unfold Numeral.mantissa
  dsimp only
  split
  · rename_i rest hd
    rw [hd] at hs
    refine ⟨?_, fun c hc => ?_⟩
    · simp only [Numeral.Mantissa.text, List.append_assoc, List.cons_append,
        List.takeWhile_append_dropWhile]
      exact hs
    · rcases List.mem_append.mp hc with hc | hc <;> exact List.mem_takeWhile_imp hc
  · refine ⟨hs, fun c hc => ?_⟩
    simp only [Numeral.Mantissa.digits, Option.getD_none, List.append_nil] at hc
    exact List.mem_takeWhile_imp hc

theorem mantissa_append {m : Numeral.Mantissa} (hm : ∀ c ∈ m.digits, c.isDigit = true)
    {rest : List Char} (hr : Stops (fun c => c.isDigit || c == '.') rest) :
    Numeral.mantissa (m.text ++ rest) = (m, rest) := by
  obtain ⟨whole, fraction⟩ := m
  have hdigit : Stops Char.isDigit rest := hr.mono fun c hc => by simp [hc]
  cases fraction with
  | none =>
    have hw : ∀ c ∈ whole, c.isDigit = true := fun c hc => hm c (List.mem_append_left _ hc)
    simp only [Numeral.mantissa, Numeral.Mantissa.text, takeWhile_run hw hdigit,
      dropWhile_run hw hdigit]
    split
    · rename_i r
      simp [stops_cons] at hr
    · rfl
  | some ds =>
    have hw : ∀ c ∈ whole, c.isDigit = true := fun c hc => hm c (List.mem_append_left _ hc)
    have hds : ∀ c ∈ ds, c.isDigit = true := fun c hc => hm c (List.mem_append_right _ hc)
    have hpoint : Stops Char.isDigit ('.' :: (ds ++ rest)) := stops_cons.mpr (by decide)
    simp only [Numeral.mantissa, Numeral.Mantissa.text, List.append_assoc, List.cons_append,
      takeWhile_run hw hpoint, dropWhile_run hw hpoint, takeWhile_run hds hdigit,
      dropWhile_run hds hdigit]

theorem exponent_sound {s e rest : List Char} (h : exponent s = .ok (e, rest)) :
    IsExponent e ∧ e ++ rest = s := by
  unfold exponent at h
  split at h
  · cases h
    exact ⟨.none, rfl⟩
  · rename_i mark tail
    obtain ⟨hsgn, hsplit⟩ := sign_sound tail
    simp only at h
    split at h
    · rename_i hmark
      split at h
      · rename_i hdigits
        cases h
        refine ⟨.marked (by simpa using hmark) hsgn (by simpa using hdigits)
          fun c hc => List.mem_takeWhile_imp hc, ?_⟩
        simp only [List.cons_append, List.append_assoc, List.takeWhile_append_dropWhile, hsplit]
      · split at h
        · cases h
        · cases h
          exact ⟨.none, rfl⟩
    · cases h
      exact ⟨.none, rfl⟩

theorem exponent_append {e rest : List Char} (he : IsExponent e) (hr : Stops extendsNumeral rest) :
    exponent (e ++ rest) = .ok (e, rest) := by
  cases he with
  | none =>
    cases rest with
    | nil => rfl
    | cons c rest =>
      have hc : (c.toUpper == 'E') = false := by
        have := stops_cons.mp hr
        simp only [extendsNumeral, Bool.or_eq_false_iff] at this
        exact this.2
      simp [exponent, hc]
  | @marked mark sgn digits hmark hsgn hne hdigits =>
    obtain ⟨d, ds, rfl⟩ := List.exists_cons_of_ne_nil hne
    have hdigit : Stops Char.isDigit rest := hr.mono fun c hc => by simp [extendsNumeral, hc]
    have hsign : Numeral.sign (sgn ++ (d :: ds ++ rest)) = (sgn, d :: ds ++ rest) :=
      sign_append hsgn (hdigits d (by simp)) (ds ++ rest)
    rw [List.cons_append, List.append_assoc]
    simp only [exponent, hmark, hsign, takeWhile_run hdigits hdigit, dropWhile_run hdigits hdigit]
    simp

theorem numeral_sound {s text rest : List Char} (h : numeral s = .ok (text, rest)) :
    IsNumeral text ∧ text ++ rest = s := by
  obtain ⟨hsplit, hdigits⟩ := mantissa_sound s
  unfold numeral at h
  simp only at h
  split at h
  · cases h
  · rename_i hc
    simp only [Bool.or_eq_true, not_or] at hc
    split at h
    · rename_i e r he
      obtain ⟨hexp, hrest⟩ := exponent_sound he
      cases h
      refine ⟨⟨_, e, ⟨by simpa using hc.1, hdigits⟩, hexp, rfl⟩, ?_⟩
      rw [List.append_assoc, hrest, hsplit]
    · cases h

/-- The text after a mantissa starts with its exponent or is what follows the numeral. -/
theorem IsExponent.stops {e rest : List Char} (he : IsExponent e) (hr : Stops extendsNumeral rest) :
    Stops (fun c => c.isDigit || c == '.') (e ++ rest) := by
  cases he with
  | none => exact hr.mono fun c hc => by simp only [extendsNumeral, hc, Bool.true_or]
  | @marked mark _ _ hmark =>
    refine stops_cons.mpr ?_
    rw [Bool.or_eq_false_iff]
    constructor
    · by_contra hd
      rw [toUpper_of_isDigit (by simpa using hd)] at hmark
      subst hmark
      simp at hd
    · by_contra hp
      simp only [beq_iff_eq, Bool.not_eq_false] at hp
      subst hp
      simp at hmark

theorem numeral_append {text rest : List Char} (ht : IsNumeral text)
    (hr : Stops extendsNumeral rest) : numeral (text ++ rest) = .ok (text, rest) := by
  obtain ⟨m, e, hm, he, rfl⟩ := ht
  have hstop := he.stops hr
  have hpoint : ((e ++ rest).head? == some '.') = false := by
    cases hs : e ++ rest with
    | nil => rfl
    | cons c s =>
      rw [hs] at hstop
      have := stops_cons.mp hstop
      simp only [Bool.or_eq_false_iff] at this
      simpa using this.2
  have hne : m.digits.isEmpty = false := by simpa using hm.ne_nil
  rw [List.append_assoc]
  simp only [numeral, mantissa_append hm.isDigit hstop, hpoint, hne, exponent_append he hr]
  rfl

theorem IsExponent.upper {e : List Char} (he : IsExponent e) : IsExponent (e.map Char.toUpper) := by
  cases he with
  | none => exact .none
  | @marked mark sgn digits hmark hsgn hne hdigits =>
    have hs : sgn.map Char.toUpper = sgn := by rcases hsgn with rfl | rfl | rfl <;> rfl
    rw [List.map_cons, List.map_append, hs, map_toUpper_of_isDigit hdigits]
    exact .marked (by rw [Char.toUpper_toUpper_eq_toUpper, hmark]) hsgn hne hdigits

theorem IsNumeral.upper {s : List Char} (h : IsNumeral s) : IsNumeral (s.map Char.toUpper) := by
  obtain ⟨m, e, hm, he, rfl⟩ := h
  refine ⟨m, _, hm, he.upper, ?_⟩
  rw [List.map_append]
  congr 1
  have hd := map_toUpper_of_isDigit hm.isDigit
  obtain ⟨whole, fraction⟩ := m
  cases fraction with
  | none => simpa [Numeral.Mantissa.digits, Numeral.Mantissa.text] using hd
  | some ds =>
    simp only [Numeral.Mantissa.digits, Option.getD_some, List.map_append] at hd
    obtain ⟨hw, hf⟩ := List.append_inj hd (by simp)
    simp only [Numeral.Mantissa.text, List.map_append, List.map_cons, hw, hf]
    rfl

/-! ### Names -/

/-- A character that may stand inside a word or a numeral. -/
def isInner (c : Char) : Bool := c.isAlphanum || c == '$' || c == '.'

theorem isInner_of_extendsNumeral {c : Char} (h : extendsNumeral c = true) : isInner c = true := by
  simp only [extendsNumeral, isInner, Char.isAlphanum, Bool.or_eq_true, beq_iff_eq] at h ⊢
  rcases h with (h | h) | h
  · exact .inl (.inl (.inr h))
  · exact .inr h
  · refine .inl (.inl (.inl ?_))
    rw [← Char.isAlpha_toUpper_eq_isAlpha, h]
    decide

theorem isInner_of_toUpper {c : Char} (h : (c.toUpper.isAlpha || c.toUpper == '$') = true) :
    isInner c = true := by
  simp only [isInner, Char.isAlphanum, Bool.or_eq_true, beq_iff_eq,
    Char.isAlpha_toUpper_eq_isAlpha] at h ⊢
  rcases h with h | h
  · exact .inl (.inl (.inl h))
  · by_cases hlower : c.isLower = true
    · exact .inl (.inl (.inl (by simp [Char.isAlpha, hlower])))
    · rw [Char.toUpper_eq_of_not_isLower hlower] at h
      exact .inl (.inr h)

/-- Letters and digits, and perhaps a dollar sign after them. -/
def HasNameShape (s : List Char) : Prop :=
  ∃ body, (∀ c ∈ body, c.isAlphanum = true) ∧ (s = body ∨ s = body ++ ['$'])

/-- A name as it is listed. No keyword starts it, or that keyword would have been read. -/
structure IsName (s : List Char) : Prop where
  letter : ∃ c ∈ s.head?, c.isAlpha = true
  shape : HasNameShape s
  upper : s.map Char.toUpper = s
  free : ∀ k ∈ Keyword.longestFirst, ¬ k.1 <+: s

theorem name_sound (s : List Char) : (name s).1 ++ (name s).2 = s ∧ HasNameShape (name s).1 := by
  have hs := List.takeWhile_append_dropWhile (p := Char.isAlphanum) (l := s)
  have hbody : ∀ c ∈ s.takeWhile Char.isAlphanum, c.isAlphanum = true :=
    fun c hc => List.mem_takeWhile_imp hc
  unfold name
  split
  · rename_i rest hd
    rw [hd] at hs
    exact ⟨by simpa using hs, _, hbody, .inr rfl⟩
  · exact ⟨hs, _, hbody, .inl rfl⟩

theorem name_append {s rest : List Char} (hs : HasNameShape s) (hr : Stops isInner rest) :
    name (s ++ rest) = (s, rest) := by
  obtain ⟨body, hbody, hs⟩ := hs
  have hstop : Stops Char.isAlphanum rest := hr.mono fun c hc => by simp [isInner, hc]
  rcases hs with rfl | rfl
  · simp only [name, takeWhile_run hbody hstop, dropWhile_run hbody hstop]
    split
    · rename_i r
      simp [stops_cons, isInner] at hr
    · rfl
  · have hdollar : Stops Char.isAlphanum ('$' :: rest) := stops_cons.mpr (by decide)
    rw [List.append_assoc, List.singleton_append]
    simp only [name, takeWhile_run hbody hdollar, dropWhile_run hbody hdollar]

theorem HasNameShape.upper {s : List Char} (h : HasNameShape s) :
    HasNameShape (s.map Char.toUpper) := by
  obtain ⟨body, hbody, hs⟩ := h
  refine ⟨body.map Char.toUpper, fun c hc => ?_, ?_⟩
  · obtain ⟨d, hd, rfl⟩ := List.mem_map.mp hc
    exact isAlphanum_toUpper (hbody d hd)
  · rcases hs with rfl | rfl
    · exact .inl rfl
    · exact .inr (by rw [List.map_append]; rfl)

/-- Where no keyword is found, a letter starts a name. -/
theorem isName_of_longest?_eq_none {c : Char} {s : List Char} (hc : c.isAlpha = true)
    (hk : Keyword.longest? (c :: s) = none) : IsName ((name (c :: s)).1.map Char.toUpper) := by
  obtain ⟨hsplit, hshape⟩ := name_sound (c :: s)
  refine ⟨?_, hshape.upper, map_toUpper_map_toUpper _, fun k hmem hpre => ?_⟩
  · have halnum : c.isAlphanum = true := by simp [Char.isAlphanum, hc]
    refine ⟨c.toUpper, ?_, (Char.isAlpha_toUpper_eq_isAlpha c).trans hc⟩
    unfold name
    rw [List.takeWhile_cons_of_pos halnum, List.dropWhile_cons_of_pos halnum]
    split <;> simp
  · apply Keyword.longest?_eq_none.mp hk k hmem
    have hmap := congrArg (List.map Char.toUpper) hsplit
    rw [List.map_append] at hmap
    exact hpre.trans ⟨_, hmap⟩

theorem keyword_letters : ∀ k ∈ Keyword.longestFirst, k.1.head?.any Char.isAlpha = true →
    k.1.all (fun c => c.isAlpha || c == '$') = true := by decide +kernel

/-- A listed name is not read as a keyword. -/
theorem IsName.longest?_append {s rest : List Char} (hs : IsName s) (hr : Stops isInner rest) :
    Keyword.longest? (s ++ rest) = none := by
  refine Keyword.longest?_eq_none.mpr fun k hmem hpre => ?_
  rw [List.map_append, hs.upper] at hpre
  by_cases hlen : k.1.length ≤ s.length
  · exact hs.free k hmem (List.prefix_of_prefix_length_le hpre (List.prefix_append ..) hlen)
  · -- a longer keyword would have to go on with the character after the name
    obtain ⟨more, hmore⟩ :=
      List.prefix_of_prefix_length_le (List.prefix_append s _) hpre (by omega)
    rw [← hmore, List.prefix_append_right_inj] at hpre
    obtain ⟨a, ha, halpha⟩ := hs.letter
    have hhead : k.1.head?.any Char.isAlpha = true := by
      rw [← hmore, List.head?_append, Option.mem_def.mp ha]
      simpa using halpha
    have hall := keyword_letters k hmem hhead
    cases more with
    | nil => simp [← hmore] at hlen
    | cons d more =>
      cases rest with
      | nil => simp at hpre
      | cons c rest =>
        have hd : d = c.toUpper := (List.cons_prefix_cons.mp hpre).1
        have hletter := List.all_eq_true.mp hall d (by simp [← hmore])
        rw [hd] at hletter
        have hinner := stops_cons.mp hr
        rw [isInner_of_toUpper hletter] at hinner
        cases hinner

/-! ### Quoted and verbatim text -/

theorem quoted_sound (s : List Char) : '"' ∉ (quoted s).1 := by
  intro h
  have := List.mem_takeWhile_imp h
  simp at this

theorem quoted_append {q : List Char} (hq : '"' ∉ q) (rest : List Char) :
    quoted (q ++ '"' :: rest) = (q, rest) := by
  have hall : ∀ c ∈ q, (c != '"') = true := by
    intro c hc
    simp only [bne_iff_ne]
    rintro rfl
    exact hq hc
  have hstop : Stops (· != '"') ('"' :: rest) := stops_cons.mpr (by decide)
  rw [quoted, takeWhile_run hall hstop, dropWhile_run hall hstop]
  rfl

theorem dropEndWhile_append (p : Char → Bool) (s : List Char) :
    ∃ t, s = dropEndWhile p s ++ t ∧ ∀ c ∈ t, p c = true := by
  refine ⟨(s.reverse.takeWhile p).reverse, ?_, fun c hc => ?_⟩
  · rw [dropEndWhile, ← List.reverse_append, List.takeWhile_append_dropWhile, List.reverse_reverse]
  · exact List.mem_takeWhile_imp (List.mem_reverse.mp hc)

theorem trimEnd_trimEnd (s : List Char) : trimEnd (trimEnd s) = trimEnd s := by
  simp only [trimEnd, dropEndWhile, List.reverse_reverse]
  rw [(stops_dropWhile isBlank s.reverse).dropWhile]

theorem mem_trimEnd {s : List Char} {c : Char} (h : c ∈ trimEnd s) : c ∈ s := by
  rw [trimEnd, dropEndWhile, List.mem_reverse] at h
  exact List.mem_reverse.mp ((List.dropWhile_suffix _).mem h)

/-- The tokens of one item of a `DATA` list. Blanks at the end are kept unless the item is the last of
its line. -/
inductive IsItem (last : Bool) : List Token → Prop
  | empty : IsItem last []
  | bare {b : String} : b.toList ≠ [] → (∀ c ∈ b.toList, (!endsItem c) = true) →
      (b.toList.dropWhile isSpace).head? ≠ some '"' → (last = true → trimEnd b.toList = b.toList) →
      IsItem last [.verbatim b]
  | quoted {q : String} : '"' ∉ q.toList → IsItem last [.string q]
  | both {q b : String} : '"' ∉ q.toList → b.toList.all isBlank = false →
      (∀ c ∈ b.toList, (!endsItem c) = true) → (last = true → trimEnd b.toList = b.toList) →
      IsItem last [.string q, .verbatim b]

/-- The tokens of a `DATA` list. -/
inductive IsItems (last : Bool) : List Token → Prop
  | one {item : List Token} : IsItem last item → IsItems last item
  | cons {item items : List Token} : IsItem false item → IsItems last items →
      IsItems last (item ++ .comma :: items)

theorem IsItem.mem_cases {last : Bool} {item : List Token} (h : IsItem last item) {t : Token}
    (ht : t ∈ item) : (∃ q, t = .string q) ∨ ∃ b, t = .verbatim b := by
  cases h with
  | empty => cases ht
  | bare => exact .inr ⟨_, List.mem_singleton.mp ht⟩
  | quoted => exact .inl ⟨_, List.mem_singleton.mp ht⟩
  | both =>
    rcases List.mem_cons.mp ht with ht | ht
    · exact .inl ⟨_, ht⟩
    · exact .inr ⟨_, List.mem_singleton.mp ht⟩

/-- A `DATA` list holds nothing but text and commas. -/
theorem IsItems.mem_cases {last : Bool} {items : List Token} (h : IsItems last items) {t : Token}
    (ht : t ∈ items) : t = .comma ∨ (∃ q, t = .string q) ∨ ∃ b, t = .verbatim b := by
  induction h with
  | one hitem => exact .inr (hitem.mem_cases ht)
  | cons hitem _ ih =>
    rcases List.mem_append.mp ht with ht | ht
    · exact .inr (hitem.mem_cases ht)
    · rcases List.mem_cons.mp ht with ht | ht
      · exact .inl ht
      · exact ih ht

/-- The text of an item that is kept, where `rest` follows it. -/
def kept (written rest : List Char) : List Char := if rest.isEmpty then trimEnd written else written

theorem kept_trimmed {written rest : List Char} (h : rest.isEmpty = true) :
    trimEnd (kept written rest) = kept written rest := by
  rw [kept, if_pos h, trimEnd_trimEnd]

theorem mem_kept {written rest : List Char} {c : Char} (h : c ∈ kept written rest) : c ∈ written := by
  unfold kept at h
  split at h
  · exact mem_trimEnd h
  · exact h

theorem kept_eq_self {b rest : List Char} (h : rest.isEmpty = true → trimEnd b = b) :
    kept b rest = b := by
  unfold kept
  split
  · exact h ‹_›
  · rfl

theorem dataItem_bare {b rest : List Char} (hb : ∀ c ∈ b, (!endsItem c) = true)
    (hr : Stops (fun c => !endsItem c) rest)
    (hq : ((b ++ rest).dropWhile isSpace).head? ≠ some '"') :
    dataItem (b ++ rest) =
      (if (kept b rest).isEmpty then [] else [.verbatim (String.ofList (kept b rest))], rest) := by
  have hopen : dataQuoted (b ++ rest) = ([], b ++ rest) := by
    unfold dataQuoted
    split
    · rename_i hs
      simp [hs] at hq
    · rfl
  simp only [dataItem, hopen, takeWhile_run hb hr, dropWhile_run hb hr, kept]
  rfl

theorem dataItem_quoted {s r q b rest : List Char} (hs : s.dropWhile isSpace = '"' :: r)
    (hq : quoted r = (q, b ++ rest)) (hb : ∀ c ∈ b, (!endsItem c) = true)
    (hr : Stops (fun c => !endsItem c) rest) :
    dataItem s =
      (.string (String.ofList q) :: (if (kept b rest).all isBlank then []
        else [.verbatim (String.ofList (kept b rest))]), rest) := by
  have hopen : dataQuoted s = ([.string (String.ofList q)], b ++ rest) := by
    simp only [dataQuoted, hs, hq]
  simp only [dataItem, hopen, takeWhile_run hb hr, dropWhile_run hb hr, kept]
  rfl

/-- Any text is what belongs to an item and what does not. -/
theorem exists_item_split (s : List Char) : ∃ b rest, s = b ++ rest ∧
    (∀ c ∈ b, (!endsItem c) = true) ∧ Stops (fun c => !endsItem c) rest :=
  ⟨s.takeWhile fun c => !endsItem c, s.dropWhile fun c => !endsItem c,
    List.takeWhile_append_dropWhile.symm,
    fun _ hc => List.mem_takeWhile_imp (p := fun c => !endsItem c) hc, stops_dropWhile _ _⟩

/-- The first character of a text after its spaces is also that of a longer text. -/
theorem head?_dropWhile_append {p : Char → Bool} {s t : List Char} {c : Char}
    (h : (s.dropWhile p).head? = some c) : ((s ++ t).dropWhile p).head? = some c := by
  rw [List.dropWhile_append, if_neg (by cases hs : s.dropWhile p <;> simp_all)]
  rw [List.head?_append, h]
  rfl

theorem kept_append (b rest : List Char) :
    ∃ t, b = kept b rest ++ t ∧ ∀ c ∈ t, isBlank c = true := by
  unfold kept
  split
  · exact dropEndWhile_append isBlank b
  · exact ⟨[], by simp⟩

/-- What is read as an item is one, and ends where an item ends. -/
theorem dataItem_sound {s rest : List Char} {item : List Token} (h : dataItem s = (item, rest)) :
    IsItem rest.isEmpty item ∧ Stops (fun c => !endsItem c) rest := by
  by_cases hquote : (s.dropWhile isSpace).head? = some '"'
  · obtain ⟨r, hs⟩ := List.head?_eq_some_iff.mp hquote
    obtain ⟨b, rest', hb, hin, hstop⟩ := exists_item_split (quoted r).2
    have hq : quoted r = ((quoted r).1, b ++ rest') := by rw [← hb]
    rw [dataItem_quoted hs hq hin hstop, Prod.mk.injEq] at h
    obtain ⟨rfl, rfl⟩ := h
    refine ⟨?_, hstop⟩
    split
    · exact .quoted (by simpa using quoted_sound r)
    · rename_i hblank
      refine .both (by simpa using quoted_sound r) (by simpa using hblank) ?_ ?_
      · intro c hc
        exact hin c (mem_kept (by simpa using hc))
      · intro hlast
        rw [String.toList_ofList, kept_trimmed hlast]
  · obtain ⟨b, rest', rfl, hin, hstop⟩ := exists_item_split s
    rw [dataItem_bare hin hstop hquote, Prod.mk.injEq] at h
    obtain ⟨rfl, rfl⟩ := h
    refine ⟨?_, hstop⟩
    split
    · exact .empty
    · rename_i hne
      refine .bare (by simpa using hne) ?_ ?_ ?_
      · intro c hc
        exact hin c (mem_kept (by simpa using hc))
      · rw [String.toList_ofList]
        intro hk
        obtain ⟨t, ht, _⟩ := kept_append b rest'
        apply hquote
        rw [ht, List.append_assoc]
        exact head?_dropWhile_append hk
      · intro hlast
        rw [String.toList_ofList, kept_trimmed hlast]

end LineBasic.Lexer
