import LineBasic.Proofs.Token.Reading

/-! The texts that spell a number: a sign, a mantissa and an exponent, of which only the mantissa has to be
there. `Writes` says which numeral such a text stands for, and reading a text gives the numeral that it
writes, or none where it writes none. -/

namespace LineBasic.Numeral

open Lexer

/-! ### Texts and what they stand for -/

def signed (sgn : List Char) (n : Nat) : Int := if sgn = ['-'] then -n else n

/-- The exponent that a text writes. -/
inductive WritesExponent : List Char → Int → Prop
  | none : WritesExponent [] 0
  | marked {mark : Char} {sgn digits : List Char} : mark.toUpper = 'E' → IsSign sgn → digits ≠ [] →
      (∀ c ∈ digits, c.isDigit = true) →
      WritesExponent (mark :: (sgn ++ digits)) (signed sgn (Nat.ofDigitChars 10 digits 0))

/-- The numeral that a text writes. Digits behind the point count down the exponent. -/
inductive Writes : List Char → Numeral → Prop
  | mk {sgn : List Char} {m : Mantissa} {e : List Char} {k : Int} : IsSign sgn → IsMantissa m →
      WritesExponent e k → Writes (sgn ++ (m.text ++ e))
        ⟨sgn == ['-'], Nat.ofDigitChars 10 m.digits 0, k - (m.fraction.getD []).length⟩

/-- A text that spells a number, with or without a sign. -/
def IsDecimal (s : List Char) : Prop := ∃ sgn t, IsSign sgn ∧ IsNumeral t ∧ s = sgn ++ t

theorem WritesExponent.isExponent {e : List Char} {k : Int} (h : WritesExponent e k) :
    IsExponent e := by
  cases h with
  | none => exact .none
  | marked hmark hsgn hne hdigits => exact .marked hmark hsgn hne hdigits

theorem exists_writesExponent {e : List Char} (h : IsExponent e) : ∃ k, WritesExponent e k := by
  cases h with
  | none => exact ⟨0, .none⟩
  | marked hmark hsgn hne hdigits => exact ⟨_, .marked hmark hsgn hne hdigits⟩

theorem isDecimal_iff {s : List Char} : IsDecimal s ↔ ∃ n, Writes s n := by
  constructor
  · rintro ⟨sgn, t, hsgn, ⟨m, e, hm, he, rfl⟩, rfl⟩
    obtain ⟨k, hk⟩ := exists_writesExponent he
    exact ⟨_, .mk hsgn hm hk⟩
  · rintro ⟨n, ⟨hsgn, hm, hk⟩⟩
    exact ⟨_, _, hsgn, ⟨_, _, hm, hk.isExponent, rfl⟩, rfl⟩

theorem IsDecimal.ne_nil {s : List Char} (h : IsDecimal s) : s ≠ [] := by
  obtain ⟨sgn, t, _, ht, rfl⟩ := h
  obtain ⟨c, t, rfl, _⟩ := ht.head
  simp

/-! ### The characters of numbers -/

theorem isNumeralChar_of_isDigit {c : Char} (h : c.isDigit = true) :
    Number.isNumeralChar c = true := by
  simp [Number.isNumeralChar, h]

theorem isNumeralChar_of_isSign {sgn : List Char} (h : IsSign sgn) :
    ∀ c ∈ sgn, Number.isNumeralChar c = true := by
  rcases h with rfl | rfl | rfl <;> simp [Number.isNumeralChar]

theorem isNumeralChar_of_mark {c : Char} (h : c.toUpper = 'E') : Number.isNumeralChar c = true := by
  by_cases hlower : c.isLower = true
  · have hc := congrArg Char.toLower h
    rw [Char.toLower_toUpper_eq_toLower,
      Char.toLower_eq_of_not_isUpper (Char.not_isUpper_of_isLower hlower)] at hc
    rw [hc]
    decide
  · rw [Char.toUpper_eq_of_not_isLower hlower] at h
    rw [h]
    decide

theorem isNumeralChar_of_mantissa {m : Mantissa} (hm : IsMantissa m) :
    ∀ c ∈ m.text, Number.isNumeralChar c = true := by
  obtain ⟨whole, fraction⟩ := m
  have hwhole : ∀ c ∈ whole, Number.isNumeralChar c = true := fun c hc =>
    isNumeralChar_of_isDigit (hm.isDigit c (List.mem_append_left _ hc))
  cases fraction with
  | none => exact hwhole
  | some ds =>
    intro c hc
    rcases List.mem_append.mp hc with hc | hc
    · exact hwhole c hc
    · rcases List.mem_cons.mp hc with rfl | hc
      · decide
      · exact isNumeralChar_of_isDigit (hm.isDigit c (List.mem_append_right _ hc))

theorem isNumeralChar_of_exponent {e : List Char} (he : IsExponent e) :
    ∀ c ∈ e, Number.isNumeralChar c = true := by
  cases he with
  | none => simp
  | marked hmark hsgn _ hdigits =>
    intro c hc
    rcases List.mem_cons.mp hc with rfl | hc
    · exact isNumeralChar_of_mark hmark
    · rcases List.mem_append.mp hc with hc | hc
      · exact isNumeralChar_of_isSign hsgn c hc
      · exact isNumeralChar_of_isDigit (hdigits c hc)

theorem IsDecimal.isNumeralChar {s : List Char} (h : IsDecimal s) :
    ∀ c ∈ s, Number.isNumeralChar c = true := by
  obtain ⟨sgn, _, hsgn, ⟨m, e, hm, he, rfl⟩, rfl⟩ := h
  intro c hc
  rcases List.mem_append.mp hc with hc | hc
  · exact isNumeralChar_of_isSign hsgn c hc
  · rcases List.mem_append.mp hc with hc | hc
    · exact isNumeralChar_of_mantissa hm c hc
    · exact isNumeralChar_of_exponent he c hc

/-! ### Reading -/

theorem exponent?_eq_some_iff {s : List Char} {k : Int} :
    exponent? s = some k ↔ WritesExponent s k := by
  constructor
  · intro h
    unfold exponent? at h
    split at h
    · cases h
      exact .none
    · rename_i mark rest
      obtain ⟨hsgn, hrest⟩ := sign_sound rest
      dsimp only at h
      split at h
      · rename_i hc
        simp only [Bool.and_eq_true, beq_iff_eq, Bool.not_eq_true', List.isEmpty_eq_false_iff,
          List.all_eq_true] at hc
        cases h
        have hw := WritesExponent.marked hc.1.1 hsgn hc.1.2 hc.2
        rw [hrest] at hw
        simpa [signed] using hw
      · cases h
  · intro h
    cases h with
    | none => rfl
    | @marked mark sgn digits hmark hsgn hne hdigits =>
      obtain ⟨d, ds, rfl⟩ := List.exists_cons_of_ne_nil hne
      have hsign := sign_append hsgn (hdigits d List.mem_cons_self) ds
      have hall : (d :: ds).all Char.isDigit = true := List.all_eq_true.mpr hdigits
      simp only [exponent?, hsign, hmark, hall, signed]
      simp

/-- What follows a mantissa that is the longest at the front of a text. -/
theorem WritesExponent.stops {e : List Char} {k : Int} (h : WritesExponent e k) :
    Stops (fun c => c.isDigit || c == '.') e := by
  have hstop := h.isExponent.stops (stops_nil extendsNumeral)
  rwa [List.append_nil] at hstop

theorem sign_numeral {sgn t : List Char} (hsgn : IsSign sgn) (ht : IsNumeral t) :
    sign (sgn ++ t) = (sgn, t) := by
  obtain ⟨c, t, rfl, hc⟩ := ht.head
  rcases hsgn with rfl | rfl | rfl
  · unfold sign
    split
    · simp_all
    · simp_all
    · rfl
  · rfl
  · rfl

/-- Reading gives the numeral that is written. -/
theorem ofChars?_eq_some_iff {s : List Char} {n : Numeral} : ofChars? s = some n ↔ Writes s n := by
  constructor
  · intro h
    obtain ⟨hsgn, hs⟩ := sign_sound s
    obtain ⟨ht, hdigits⟩ := mantissa_sound (sign s).2
    unfold ofChars? at h
    dsimp only at h
    split at h
    · cases h
    · rename_i hne
      obtain ⟨k, hk, rfl⟩ := Option.map_eq_some_iff.mp h
      have hw := Writes.mk hsgn ⟨by simpa using hne, hdigits⟩ (exponent?_eq_some_iff.mp hk)
      rwa [ht, hs] at hw
  · rintro ⟨hsgn, hm, hk⟩
    have hne : (Mantissa.digits _).isEmpty = false := List.isEmpty_eq_false_iff.mpr hm.ne_nil
    have hsign := sign_numeral hsgn ⟨_, _, hm, hk.isExponent, rfl⟩
    simp only [ofChars?, hsign, mantissa_append hm.isDigit hk.stops, hne,
      exponent?_eq_some_iff.mpr hk]
    rfl

/-- A text writes at most one numeral. -/
theorem Writes.unique {s : List Char} {n k : Numeral} (hn : Writes s n) (hk : Writes s k) : n = k :=
  Option.some.inj ((ofChars?_eq_some_iff.mpr hn).symm.trans (ofChars?_eq_some_iff.mpr hk))

instance (s : List Char) : Decidable (IsDecimal s) :=
  decidable_of_iff ((ofChars? s).isSome = true) <| by
    rw [isDecimal_iff, Option.isSome_iff_exists]
    simp only [ofChars?_eq_some_iff]

end LineBasic.Numeral
