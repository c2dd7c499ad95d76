import LineBasic.Proofs.Number.Rounding
import LineBasic.Proofs.Number.Spelling

/-! How nine digits are laid out as text. The zeros at the end of the digits go, and a point is put among
the digits that stay: `Mantissa.ofPoint`. Wherever the point falls the mantissa is `Tidy` and keeps its
value, so a text without exponent and one with exponent are two uses of the same mantissa. -/

namespace LineBasic.Numeral

open Lexer

/-! ### Digits and their value -/

/-- The number that a numeral stands for. -/
def value (n : Numeral) : ℚ := (if n.negative then -1 else 1) * (n.coefficient * 10 ^ n.exponent)

theorem exists_digitChar {c : Char} (h : c.isDigit = true) : ∃ d < 10, c = Nat.digitChar d := by
  obtain ⟨hlo, hhi⟩ := Char.isDigit_iff_toNat.mp h
  change 48 ≤ c.toNat at hlo
  change c.toNat ≤ 57 at hhi
  have hlt : c.toNat - 48 < 10 := by omega
  refine ⟨c.toNat - 48, hlt, Char.toNat_inj.mp ?_⟩
  rw [Nat.toNat_digitChar_of_lt_ten hlt]
  omega

theorem ofDigitChars_lt {ds : List Char} (h : ∀ c ∈ ds, c.isDigit = true) (acc : ℕ) :
    Nat.ofDigitChars 10 ds acc < 10 ^ ds.length * (acc + 1) := by
  induction ds generalizing acc with
  | nil => simp
  | cons c cs ih =>
    obtain ⟨d, hd, rfl⟩ := exists_digitChar (h c List.mem_cons_self)
    rw [Nat.ofDigitChars_cons_digitChar_of_lt_ten hd]
    calc Nat.ofDigitChars 10 cs (10 * acc + d) < 10 ^ cs.length * (10 * acc + d + 1) :=
          ih (fun c hc => h c (List.mem_cons_of_mem _ hc)) _
      _ ≤ 10 ^ cs.length * (10 * (acc + 1)) := Nat.mul_le_mul_left _ (by omega)
      _ = 10 ^ (d.digitChar :: cs).length * (acc + 1) := by
          rw [List.length_cons, pow_succ, mul_assoc]

theorem toDigits_append {cs : List Char} (h : ∀ c ∈ cs, c.isDigit = true) {acc : ℕ} (hacc : 0 < acc) :
    Nat.toDigits 10 acc ++ cs = Nat.toDigits 10 (Nat.ofDigitChars 10 cs acc) := by
  induction cs generalizing acc with
  | nil => simp
  | cons c cs ih =>
    obtain ⟨d, hd, rfl⟩ := exists_digitChar (h c List.mem_cons_self)
    have hstep := Nat.toDigits_append_toDigits (b := 10) (by norm_num) hacc hd
    rw [Nat.toDigits_of_lt_base hd] at hstep
    rw [Nat.ofDigitChars_cons_digitChar_of_lt_ten hd,
      ← ih (fun c hc => h c (List.mem_cons_of_mem _ hc)) (by omega), ← hstep, List.append_assoc,
      List.singleton_append]

/-- Digits without a zero at the front are the digits of their value. -/
theorem toDigits_ofDigitChars {ds : List Char} (hne : ds ≠ []) (h : ∀ c ∈ ds, c.isDigit = true)
    (hfront : ds.head? ≠ some '0') : Nat.toDigits 10 (Nat.ofDigitChars 10 ds 0) = ds := by
  obtain ⟨c, cs, rfl⟩ := List.exists_cons_of_ne_nil hne
  obtain ⟨d, hd, rfl⟩ := exists_digitChar (h c List.mem_cons_self)
  have hpos : 0 < d := by
    rw [Nat.pos_iff_ne_zero]
    rintro rfl
    exact hfront rfl
  have happ := toDigits_append (fun c hc => h c (List.mem_cons_of_mem _ hc)) hpos
  rw [Nat.toDigits_of_lt_base hd] at happ
  rw [Nat.ofDigitChars_cons_digitChar_of_lt_ten hd, mul_zero, zero_add]
  exact happ.symm

/-- Digits that do not end in a zero are no multiple of ten. -/
theorem ofDigitChars_mod_ten {ds : List Char} (h : ∀ c ∈ ds, c.isDigit = true) {c : Char}
    (hlast : ds.getLast? = some c) (hc : c ≠ '0') : Nat.ofDigitChars 10 ds 0 % 10 ≠ 0 := by
  obtain ⟨init, rfl⟩ := List.getLast?_eq_some_iff.mp hlast
  obtain ⟨d, hd, rfl⟩ := exists_digitChar (h c (by simp))
  have hne : d ≠ 0 := by
    rintro rfl
    exact hc rfl
  rw [Nat.ofDigitChars_append, Nat.ofDigitChars_cons_digitChar_of_lt_ten hd, Nat.ofDigitChars_nil]
  omega

/-! ### Mantissas -/

/-- The number that a mantissa stands for. -/
def Mantissa.value (m : Mantissa) : ℚ :=
  Nat.ofDigitChars 10 m.digits 0 * 10 ^ (-(m.fraction.getD []).length : ℤ)

/-- A mantissa with no zero at its front, no zero at the end of its fraction and no point at its end. -/
structure Mantissa.Tidy (m : Mantissa) : Prop where
  isMantissa : IsMantissa m
  front : m.whole.head? ≠ some '0'
  back : ∀ ds, m.fraction = some ds → ∃ c, ds.getLast? = some c ∧ c ≠ '0'

/-- Digits with a point so that `point` of them stand before it; zeros fill the gap between the digits
and a point outside them. -/
def Mantissa.ofPoint (ds : List Char) (point : ℤ) : Mantissa :=
  if point ≤ 0 then ⟨[], some (List.replicate (-point).toNat '0' ++ ds)⟩
  else if ds.length ≤ point.toNat then ⟨ds ++ List.replicate (point.toNat - ds.length) '0', none⟩
  else ⟨ds.take point.toNat, some (ds.drop point.toNat)⟩

/-- Digits that neither start nor end with a zero. -/
structure Significant (ds : List Char) : Prop where
  isDigit : ∀ c ∈ ds, c.isDigit = true
  front : ∃ c, ds.head? = some c ∧ c ≠ '0'
  back : ∃ c, ds.getLast? = some c ∧ c ≠ '0'

theorem Significant.ne_nil {ds : List Char} (h : Significant ds) : ds ≠ [] := by
  obtain ⟨c, hc, _⟩ := h.front
  rintro rfl
  cases hc

theorem Mantissa.ofPoint_tidy {ds : List Char} (h : Significant ds) (point : ℤ) :
    (ofPoint ds point).Tidy := by
  have hzero : ∀ k, ∀ c ∈ List.replicate k '0', c.isDigit = true := by
    intro k c hc
    rw [List.eq_of_mem_replicate hc]
    rfl
  obtain ⟨c, hfront, hc⟩ := h.front
  have hhead : ds.head? ≠ some '0' := by
    rw [hfront]
    simpa using hc
  unfold ofPoint
  split
  · refine ⟨⟨by simp [digits, h.ne_nil], ?_⟩, by simp, ?_⟩
    · change ∀ c ∈ List.replicate _ '0' ++ ds, c.isDigit = true
      exact List.forall_mem_append.mpr ⟨hzero _, h.isDigit⟩
    · rintro _ ⟨⟩
      rw [List.getLast?_append_of_ne_nil _ h.ne_nil]
      exact h.back
  · rename_i hpoint
    split
    · refine ⟨⟨by simp [digits, h.ne_nil], ?_⟩, ?_, by simp⟩
      · rw [digits, Option.getD_none, List.append_nil]
        exact List.forall_mem_append.mpr ⟨h.isDigit, hzero _⟩
      · rwa [List.head?_append_of_ne_nil _ h.ne_nil]
    · rename_i hlength
      refine ⟨⟨by simp [digits, h.ne_nil], ?_⟩, ?_, ?_⟩
      · rw [digits, Option.getD_some, List.take_append_drop]
        exact h.isDigit
      · rwa [List.head?_take, if_neg (by omega)]
      · rintro _ ⟨⟩
        rw [List.getLast?_drop, if_neg hlength]
        exact h.back

theorem Mantissa.ofPoint_value (ds : List Char) (point : ℤ) :
    (ofPoint ds point).value = Nat.ofDigitChars 10 ds 0 * 10 ^ (point - ds.length) := by
  unfold ofPoint value digits
  split
  · rw [List.nil_append, Option.getD_some, Nat.ofDigitChars_append, Nat.ofDigitChars_replicate_zero,
      mul_zero, List.length_append, List.length_replicate]
    congr 2
    omega
  · split
    · have hexp : point - ds.length = ((point.toNat - ds.length : ℕ) : ℤ) := by omega
      rw [Option.getD_none, List.append_nil, Nat.ofDigitChars_append, Nat.ofDigitChars_replicate_zero,
        hexp, zpow_natCast, Nat.cast_mul, Nat.cast_pow, mul_comm (Nat.cast _)]
      simp
    · rw [Option.getD_some, List.take_append_drop, List.length_drop]
      congr 2
      omega

theorem Mantissa.text_ofPoint (ds : List Char) (point : ℤ) : (ofPoint ds point).text =
    if point ≤ 0 then '.' :: List.replicate (-point).toNat '0' ++ ds
    else if ds.length ≤ point.toNat then ds ++ List.replicate (point.toNat - ds.length) '0'
    else ds.take point.toNat ++ '.' :: ds.drop point.toNat := by
  unfold ofPoint
  split_ifs
  · rfl
  · rfl
  · rfl

theorem Mantissa.text_ofPoint_one {ds : List Char} (h : ds ≠ []) : (ofPoint ds 1).text =
    ds.take 1 ++ if ds.length ≤ 1 then [] else '.' :: ds.drop 1 := by
  have hpos := List.length_pos_iff.mpr h
  rw [text_ofPoint, if_neg (by norm_num)]
  by_cases hle : ds.length ≤ 1
  · have hone : ds.length = 1 := le_antisymm hle hpos
    simp [hone, List.take_of_length_le hle]
  · simp [hle]

theorem Mantissa.length_whole_ofPoint {ds : List Char} (h : ds ≠ []) :
    (ofPoint ds 1).whole.length = 1 := by
  have hpos := List.length_pos_iff.mpr h
  unfold ofPoint
  rw [if_neg (by norm_num)]
  split
  · rename_i hle
    rw [List.length_append, List.length_replicate]
    omega
  · rw [List.length_take]
    omega

theorem Mantissa.value_mul (m : Mantissa) (k : ℤ) :
    (Nat.ofDigitChars 10 m.digits 0 : ℚ) * 10 ^ (k - (m.fraction.getD []).length) = m.value * 10 ^ k := by
  rw [value, mul_assoc, ← zpow_add₀ (by norm_num)]
  congr 2
  ring

/-! ### Texts with and without exponent -/

/-- A number written without exponent. -/
def IsFixed (t : List Char) : Prop := ∃ m : Mantissa, m.Tidy ∧ t = m.text

/-- A number written with one digit before the point and a signed exponent of two digits or more. -/
def IsScientific (t : List Char) : Prop :=
  ∃ (m : Mantissa) (sgn : Char) (digits : List Char), m.Tidy ∧ m.whole.length = 1 ∧
    (sgn = '+' ∨ sgn = '-') ∧ 2 ≤ digits.length ∧ (∀ c ∈ digits, c.isDigit = true) ∧
    t = m.text ++ 'E' :: sgn :: digits

theorem not_mem_text {m : Mantissa} (hm : IsMantissa m) : 'E' ∉ m.text := by
  obtain ⟨whole, fraction⟩ := m
  intro hmem
  have hdigit : 'E' ∉ Mantissa.digits ⟨whole, fraction⟩ := by
    intro h
    exact absurd (hm.isDigit _ h) (by decide)
  cases fraction with
  | none => exact hdigit (by simpa [Mantissa.digits, Mantissa.text] using hmem)
  | some ds => exact hdigit (by simpa [Mantissa.digits, Mantissa.text] using hmem)

theorem IsFixed.not_isScientific {t : List Char} (h : IsFixed t) : ¬ IsScientific t := by
  obtain ⟨m, hm, rfl⟩ := h
  rintro ⟨k, sgn, digits, _, _, _, _, _, hk⟩
  apply not_mem_text hm.isMantissa
  rw [hk]
  simp

/-- A whole number written without exponent is written by its digits. -/
theorem IsFixed.eq_toDigits {t : List Char} (h : IsFixed t) {n : Numeral} (hn : Writes t n) {k : ℕ}
    (hk : n.value = k) : t = Nat.toDigits 10 k := by
  obtain ⟨m, hm, rfl⟩ := h
  have hw := Writes.mk (.inl rfl) hm.isMantissa .none
  rw [List.nil_append, List.append_nil] at hw
  obtain rfl := hn.unique hw
  have hmk : m.value = k := by
    rw [← hk, Numeral.value, m.value_mul]
    simp
  obtain ⟨whole, fraction⟩ := m
  cases fraction with
  | none =>
    have hdigits : Nat.ofDigitChars 10 whole 0 = k := by
      simpa [Mantissa.value, Mantissa.digits] using hmk
    have hne : whole ≠ [] := by simpa [Mantissa.digits] using hm.isMantissa.ne_nil
    have hall : ∀ c ∈ whole, c.isDigit = true := by
      simpa [Mantissa.digits] using hm.isMantissa.isDigit
    rw [← hdigits, toDigits_ofDigitChars hne hall hm.front]
    rfl
  | some ds =>
    -- A fraction that ends in no zero keeps the value from being whole.
    obtain ⟨c, hlast, hc⟩ := hm.back ds rfl
    obtain ⟨init, rfl⟩ := List.getLast?_eq_some_iff.mp hlast
    have hmod := ofDigitChars_mod_ten hm.isMantissa.isDigit (c := c)
      (by simp [Mantissa.digits]) hc
    have hcast : (Nat.ofDigitChars 10 (whole ++ (init ++ [c])) 0 : ℚ) = k * 10 ^ (init.length + 1) := by
      rw [← hmk, Mantissa.value, Option.getD_some, List.length_append, List.length_singleton, zpow_neg,
        zpow_natCast, mul_assoc, inv_mul_cancel₀ (by positivity), mul_one]
      rfl
    have heq : Nat.ofDigitChars 10 (whole ++ (init ++ [c])) 0 = k * 10 ^ init.length * 10 := by
      rw [mul_assoc, ← pow_succ]
      exact_mod_cast hcast
    exact absurd (heq ▸ Nat.mul_mod_left _ _) hmod

end LineBasic.Numeral

namespace LineBasic.Number

open Numeral

/-! ### Nine digits as text -/

/-- The digits that are written. -/
def Nine.significant (n : Nine) : List Char := Text.dropEndWhile (· == '0') (Nat.toDigits 10 n.digits)

theorem isDigit_toDigits (n : ℕ) : ∀ c ∈ Nat.toDigits 10 n, c.isDigit = true :=
  fun _ hc => Nat.isDigit_of_mem_toDigits (by norm_num) (by norm_num) hc

theorem head?_toDigits_ne_zero {n : ℕ} (hn : n ≠ 0) : (Nat.toDigits 10 n).head? ≠ some '0' := by
  intro hhead
  obtain ⟨rest, hrest⟩ := List.head?_eq_some_iff.mp hhead
  have hcount : rest.length = Nat.log 10 n := by
    have h := digitCount_eq hn
    rw [digitCount, hrest, List.length_cons] at h
    omega
  have hvalue : Nat.ofDigitChars 10 rest 0 = n := by
    have h := Nat.ofDigitChars_ten_toDigits (n := n)
    rwa [hrest, Nat.ofDigitChars_cons] at h
  -- The digits behind the zero are too few for the number.
  have hlt := ofDigitChars_lt (fun c hc => isDigit_toDigits n c (hrest ▸ List.mem_cons_of_mem _ hc)) 0
  rw [hvalue, hcount, zero_add, mul_one] at hlt
  exact absurd (Nat.pow_log_le_self 10 hn) (by omega)

theorem Nine.exists_zeros (n : Nine) :
    ∃ k, Nat.toDigits 10 n.digits = n.significant ++ List.replicate k '0' := by
  obtain ⟨zeros, hzeros, hall⟩ := Lexer.dropEndWhile_append (· == '0') (Nat.toDigits 10 n.digits)
  have hrep : zeros = List.replicate zeros.length '0' :=
    List.eq_replicate_iff.mpr ⟨rfl, fun c hc => by simpa using hall c hc⟩
  exact ⟨_, hrep ▸ hzeros⟩

theorem Nine.isSignificant {n : Nine} (hn : n.digits ≠ 0) : Significant n.significant := by
  obtain ⟨k, hk⟩ := n.exists_zeros
  have hdigit : ∀ c ∈ n.significant, c.isDigit = true := fun c hc =>
    isDigit_toDigits n.digits c (hk ▸ List.mem_append_left _ hc)
  have hhead := head?_toDigits_ne_zero hn
  have hne : n.significant ≠ [] := by
    intro h
    rw [hk, h, List.nil_append] at hhead
    have hpos : k ≠ 0 := by
      rintro rfl
      exact Nat.toDigits_ne_nil (by rw [hk, h]; rfl)
    exact hhead (by simp [List.head?_replicate, hpos])
  rw [hk, List.head?_append_of_ne_nil _ hne] at hhead
  have hlast : ∀ c ∈ n.significant.getLast?, (c == '0') = false := by
    rw [significant, Text.dropEndWhile, List.getLast?_reverse]
    exact Lexer.stops_dropWhile _ _
  refine ⟨hdigit, ⟨n.significant.head hne, List.head?_eq_some_head hne, ?_⟩,
    ⟨n.significant.getLast hne, List.getLast?_eq_some_getLast hne, ?_⟩⟩
  · intro h
    exact hhead (by rw [List.head?_eq_some_head hne, h])
  · exact beq_eq_false_iff_ne.mp (hlast _ (List.getLast?_eq_some_getLast hne))

theorem Nine.significant_value {n : Nine} (hlo : 10 ^ 8 ≤ n.digits) (hhi : n.digits < 10 ^ 9) :
    n.value = Nat.ofDigitChars 10 n.significant 0 * 10 ^ (n.exponent + 1 - n.significant.length) := by
  obtain ⟨k, hk⟩ := n.exists_zeros
  have hlog : Nat.log 10 n.digits = 8 :=
    (Nat.log_eq_iff (by norm_num)).mpr ⟨hlo, hhi⟩
  have hlength : n.significant.length + k = 9 := by
    have h := digitCount_eq (n := n.digits) (by omega)
    rw [digitCount, hk, hlog, List.length_append, List.length_replicate] at h
    exact h
  have hdigits : n.digits = 10 ^ k * Nat.ofDigitChars 10 n.significant 0 := by
    rw [← Nat.ofDigitChars_replicate_zero, ← Nat.ofDigitChars_append, ← hk,
      Nat.ofDigitChars_ten_toDigits]
  rw [value, hdigits, Nat.cast_mul, Nat.cast_pow, Nat.cast_ofNat, mul_comm (_ ^ k), mul_assoc,
    pow_mul_zpow]
  congr 2
  omega

/-- The digits of an exponent, two at least. -/
def padded (k : ℕ) : List Char :=
  List.replicate (2 - (Nat.toDigits 10 k).length) '0' ++ Nat.toDigits 10 k

theorem isDigit_padded (k : ℕ) : ∀ c ∈ padded k, c.isDigit = true := by
  refine List.forall_mem_append.mpr ⟨fun c hc => ?_, isDigit_toDigits k⟩
  rw [List.eq_of_mem_replicate hc]
  rfl

theorem ofDigitChars_padded (k : ℕ) : Nat.ofDigitChars 10 (padded k) 0 = k := by
  rw [padded, Nat.ofDigitChars_append, Nat.ofDigitChars_replicate_zero, mul_zero,
    Nat.ofDigitChars_ten_toDigits]

theorem two_le_length_padded (k : ℕ) : 2 ≤ (padded k).length := by
  rw [padded, List.length_append, List.length_replicate]
  omega

/-- The sign of an exponent, which is always written. -/
def exponentSign (e : ℤ) : Char := if e < 0 then '-' else '+'

theorem exponentSign_cases (e : ℤ) : exponentSign e = '+' ∨ exponentSign e = '-' := by
  unfold exponentSign
  split
  · exact .inr rfl
  · exact .inl rfl

theorem writesExponent_padded (e : ℤ) :
    WritesExponent ('E' :: exponentSign e :: padded e.natAbs) e := by
  have hsgn : Lexer.IsSign [exponentSign e] :=
    .inr ((exponentSign_cases e).imp (congrArg List.singleton) (congrArg List.singleton))
  have hne : padded e.natAbs ≠ [] := by simp [padded, Nat.toDigits_ne_nil]
  have hmark : 'E'.toUpper = 'E' := rfl
  have hw := WritesExponent.marked hmark hsgn hne (isDigit_padded _)
  have he : signed [exponentSign e] (Nat.ofDigitChars 10 (padded e.natAbs) 0) = e := by
    rw [ofDigitChars_padded, signed, exponentSign]
    by_cases h : e < 0
    · rw [if_pos h, if_pos rfl]
      omega
    · rw [if_neg h, if_neg (by decide)]
      omega
  rwa [he] at hw

theorem Nine.text_eq {n : Nine} (hn : n.digits ≠ 0) : n.text.toList =
    if -2 ≤ n.exponent ∧ n.exponent ≤ 8 then (Mantissa.ofPoint n.significant (n.exponent + 1)).text
    else (Mantissa.ofPoint n.significant 1).text ++
      'E' :: exponentSign n.exponent :: padded n.exponent.natAbs := by
  have hne := (isSignificant hn).ne_nil
  rw [Mantissa.text_ofPoint, Mantissa.text_ofPoint_one hne]
  simp only [text, apply_ite String.toList, String.toList_ofList]
  rfl

theorem Nine.isFixed {n : Nine} (hn : n.digits ≠ 0) (h : -2 ≤ n.exponent ∧ n.exponent ≤ 8) :
    IsFixed n.text.toList := by
  rw [text_eq hn, if_pos h]
  exact ⟨_, Mantissa.ofPoint_tidy (isSignificant hn) _, rfl⟩

theorem Nine.isScientific {n : Nine} (hn : n.digits ≠ 0) (h : ¬ (-2 ≤ n.exponent ∧ n.exponent ≤ 8)) :
    IsScientific n.text.toList := by
  have hsig := isSignificant hn
  rw [text_eq hn, if_neg h]
  exact ⟨_, _, _, Mantissa.ofPoint_tidy hsig 1, Mantissa.length_whole_ofPoint hsig.ne_nil,
    exponentSign_cases _, two_le_length_padded _, isDigit_padded _, rfl⟩

theorem Nine.isFixed_iff {n : Nine} (hn : n.digits ≠ 0) :
    IsFixed n.text.toList ↔ -2 ≤ n.exponent ∧ n.exponent ≤ 8 := by
  constructor
  · intro hfixed
    by_contra h
    exact hfixed.not_isScientific (isScientific hn h)
  · exact isFixed hn

theorem Nine.isScientific_iff {n : Nine} (hn : n.digits ≠ 0) :
    IsScientific n.text.toList ↔ ¬ (-2 ≤ n.exponent ∧ n.exponent ≤ 8) := by
  constructor
  · intro hscientific h
    exact (isFixed hn h).not_isScientific hscientific
  · exact isScientific hn

/-- Nine digits as text are a mantissa and an exponent that together keep the value. -/
theorem Nine.exists_parts {n : Nine} (hlo : 10 ^ 8 ≤ n.digits) (hhi : n.digits < 10 ^ 9) :
    ∃ (m : Mantissa) (e : List Char) (k : ℤ), Lexer.IsMantissa m ∧ WritesExponent e k ∧
      n.text.toList = m.text ++ e ∧ m.value * 10 ^ k = n.value := by
  have hn : n.digits ≠ 0 := by omega
  have htidy := Mantissa.ofPoint_tidy (isSignificant hn)
  rw [text_eq hn, significant_value hlo hhi]
  split
  · refine ⟨_, [], 0, (htidy (n.exponent + 1)).isMantissa, .none, (List.append_nil _).symm, ?_⟩
    rw [Mantissa.ofPoint_value, zpow_zero, mul_one]
  · refine ⟨_, _, n.exponent, (htidy 1).isMantissa, writesExponent_padded n.exponent, rfl, ?_⟩
    rw [Mantissa.ofPoint_value, mul_assoc, ← zpow_add₀ (by norm_num)]
    congr 2
    ring

end LineBasic.Number
