import LineBasic.Value.Basic
import LineBasic.Proofs.Number.Leading
import LineBasic.Proofs.Number.Range

/-! Numbers as they are printed: the nine digits to which the exact value of a number rounds, in a text that
writes those digits exactly and reads back whole. Whole numbers of up to nine digits print as their digits. -/

namespace LineBasic

open Numeral

namespace Text

theorem trim_cons_of_isBlank {c : Char} (hc : isBlank c = true) (s : List Char) :
    trim (c :: s) = trim s := by
  rw [trim, trimStart, List.dropWhile_cons_of_pos hc]
  rfl

theorem trim_eq_self {s : List Char} (h : ∀ c ∈ s, isBlank c = false) : trim s = s := by
  have hstop {r : List Char} (hr : ∀ c ∈ r, isBlank c = false) : r.dropWhile isBlank = r :=
    Lexer.Stops.dropWhile fun c hc => hr c (List.mem_of_mem_head? hc)
  rw [trim, trimStart, hstop h, trimEnd, dropEndWhile,
    hstop fun c hc => h c (List.mem_reverse.mp hc), List.reverse_reverse]

theorem isBlank_of_isNumeralChar {c : Char} (h : Number.isNumeralChar c = true) : isBlank c = false := by
  simp only [Number.isNumeralChar, Bool.or_eq_true, beq_iff_eq] at h
  rcases h with ((((h | rfl) | rfl) | rfl) | rfl) | rfl
  · obtain ⟨hlo, hhi⟩ := Char.isDigit_iff_toNat.mp h
    change 48 ≤ c.toNat at hlo
    change c.toNat ≤ 57 at hhi
    simp [isBlank, blankRanges]
    omega
  · decide
  · decide
  · decide
  · decide
  · decide

end Text

namespace Number

/-! ### Reading back -/

/-- A text that writes a number within range is read as a whole. -/
theorem read?_of_writes {s : List Char} {n : Numeral} (h : Writes s n)
    (hle : (n.coefficient : ℚ) * 10 ^ n.exponent ≤ limit) :
    read? s = some n.toFloat := by
  have hdecimal : IsDecimal s := isDecimal_iff.mpr ⟨n, h⟩
  have htrim : Text.trim s = s :=
    Text.trim_eq_self fun c hc => Text.isBlank_of_isNumeralChar (hdecimal.isNumeralChar c hc)
  have hne : s.isEmpty = false := List.isEmpty_eq_false_iff.mpr hdecimal.ne_nil
  have hfinite := finite?_eq_some_iff.mpr ⟨n, h, isFinite_toFloat hle, rfl⟩
  simp only [read?, htrim, hne, hfinite]
  rfl

theorem read?_cons_of_isBlank {c : Char} (hc : Text.isBlank c = true) (s : List Char) :
    read? (c :: s) = read? s := by
  rw [read?, read?, Text.trim_cons_of_isBlank hc]

/-! ### The value of a number -/

open Float.Model.UnpackedFloat in
/-- The number that a binary64 number stands for, exactly. What is not finite stands for none. -/
def value (x : Float) : ℚ :=
  match x.toModel.unpack with
  | .finite s m e _ => s.apply m * 2 ^ e
  | _ => 0

theorem Binary.negative_eq {bits : UInt64} {b : Binary} (h : ofBits? bits = some b) :
    b.negative = signBit bits := by
  unfold ofBits? at h
  dsimp only at h
  split at h
  · cases h
  · cases h
    rfl

theorem Binary.size_nonneg (b : Binary) : 0 ≤ b.size := by
  unfold size
  positivity

theorem Binary.size_eq_zero_iff {b : Binary} : b.size = 0 ↔ b.significand = 0 := by
  rw [size, mul_eq_zero, Nat.cast_eq_zero, or_iff_left (zpow_ne_zero _ (by norm_num))]

theorem exists_binary {x : Float} (hx : x.isFinite = true) :
    ∃ b, Binary.ofBits? x.toBits = some b ∧ value x = if b.negative then -b.size else b.size := by
  cases hb : Binary.ofBits? x.toBits with
  | none =>
    have hinfinite := Binary.isFinite_unpack_of_none (a := x.toModel) hb
    rw [show x.isFinite = x.toModel.unpack.isFinite from rfl, hinfinite] at hx
    cases hx
  | some b =>
    refine ⟨b, rfl, ?_⟩
    unfold value
    rw [Binary.unpack_of_some (a := x.toModel) hb, Binary.unpacked]
    by_cases hzero : b.significand = 0
    · rw [dif_pos hzero, Binary.size_eq_zero_iff.mpr hzero]
      simp
    · rw [dif_neg hzero]
      cases hneg : b.negative <;> simp [Binary.sign, hneg, Binary.size, Float.Model.UnpackedFloat.Sign.apply]

/-- The text of a finite number: its sign, unless it is zero, and its size. -/
theorem toList_text {x : Float} {b : Binary} (hb : Binary.ofBits? x.toBits = some b)
    (hvalue : value x = if b.negative then -b.size else b.size) :
    (text x).toList = (if value x < 0 then '-' else ' ') :: (sizeText (some b)).toList := by
  have hsign : (signBit x.toBits && !(some b).any Binary.isZero) = decide (value x < 0) := by
    rw [← Binary.negative_eq hb, hvalue, Option.any_some, Binary.isZero]
    by_cases hzero : b.significand = 0
    · rw [Binary.size_eq_zero_iff.mpr hzero]
      simp [hzero]
    · have hpos : 0 < b.size :=
        lt_of_le_of_ne b.size_nonneg fun h => hzero (Binary.size_eq_zero_iff.mp h.symm)
      cases b.negative <;> simp [hzero, hpos, hpos.le]
  rw [text, textOfBits, hb, hsign, String.toList_append]
  by_cases hneg : value x < 0
  · simp [hneg]
  · simp [hneg]

theorem abs_value {x : Float} {b : Binary} (hvalue : value x = if b.negative then -b.size else b.size) :
    |value x| = b.size := by
  rw [hvalue]
  cases b.negative <;> simp [abs_of_nonneg b.size_nonneg]

/-- The text of a number that is not zero, with the digits that it rounds to. -/
theorem exists_nine {x : Float} (hx : x.isFinite = true) (h : value x ≠ 0) :
    ∃ n : Nine, n.Rounds |value x| ∧ n.value ≤ limit ∧
      (text x).toList = (if value x < 0 then '-' else ' ') :: n.text.toList := by
  obtain ⟨b, hb, hvalue⟩ := exists_binary hx
  have hne : b.significand ≠ 0 := by
    intro hzero
    apply h
    rw [hvalue, Binary.size_eq_zero_iff.mpr hzero]
    simp
  have hrounds := Binary.ofRatio_rounds (Nat.pos_of_ne_zero hne)
  refine ⟨_, by rwa [abs_value hvalue], hrounds.value_le_limit hb (Nat.pos_of_ne_zero hne), ?_⟩
  have hzero : b.isZero = false := by simpa [Binary.isZero] using hne
  rw [toList_text hb hvalue, sizeText, hzero]
  rfl

/-- The numerals that the text of nine digits writes, without a sign and with one. -/
theorem Nine.Rounds.exists_writes {n : Nine} {x : ℚ} (hn : n.Rounds x) : ∃ (c : ℕ) (e : ℤ),
    c * 10 ^ e = n.value ∧ Writes n.text.toList ⟨false, c, e⟩ ∧
      Writes ('-' :: n.text.toList) ⟨true, c, e⟩ := by
  obtain ⟨m, e, k, hm, he, htext, hvalue⟩ := exists_parts hn.lower hn.upper
  rw [htext]
  exact ⟨_, _, (m.value_mul k).trans hvalue, .mk (.inl rfl) hm he, .mk (.inr (.inr rfl)) hm he⟩

theorem toList_text_zero {x : Float} (hx : x.isFinite = true) (h : value x = 0) :
    (text x).toList = [' ', '0'] := by
  obtain ⟨b, hb, hvalue⟩ := exists_binary hx
  have hzero : b.isZero = true := by
    rw [Binary.isZero, beq_iff_eq, ← Binary.size_eq_zero_iff, ← abs_value hvalue, h, abs_zero]
  rw [toList_text hb hvalue, sizeText, if_pos hzero, h, if_neg (lt_irrefl _)]
  rfl

/-- A whole number of up to nine digits prints as its digits. -/
theorem toList_text_intCast {x : Float} (hx : x.isFinite = true) {i : ℤ} (hi : value x = i)
    (hlt : i.natAbs < 10 ^ 9) :
    (text x).toList = (if i < 0 then '-' else ' ') :: Nat.toDigits 10 i.natAbs := by
  have hsign : value x < 0 ↔ i < 0 := by
    rw [hi]
    exact Int.cast_lt_zero
  by_cases hzero : value x = 0
  · have hi₀ : i = 0 := by
      rw [hi] at hzero
      exact_mod_cast hzero
    rw [toList_text_zero hx hzero, hi₀]
    rfl
  · obtain ⟨n, hn, _, htext⟩ := exists_nine hx hzero
    have habs : |value x| = (i.natAbs : ℕ) := by rw [hi, ← Int.cast_abs, Int.abs_eq_natAbs, Int.cast_natCast]
    rw [habs] at hn
    obtain ⟨c, e, hvalue, hwrites, _⟩ := hn.exists_writes
    have hdigits : n.digits ≠ 0 := Nat.ne_of_gt ((by norm_num : 0 < 10 ^ 8).trans_le hn.lower)
    have hbounds := hn.exponent_bounds hlt
    have hfixed := n.isFixed hdigits ⟨by omega, hbounds.2⟩
    have hwhole : Numeral.value ⟨false, c, e⟩ = (i.natAbs : ℕ) := by
      rw [Numeral.value, ← hn.value_eq hlt, ← hvalue]
      simp
    rw [htext, hfixed.eq_toDigits hwrites hwhole]
    simp only [hsign]

/-- Numbers print their value at nine significant digits exactly. With `n` the nine digits that a number
other than zero rounds to, the text is a sign and a text that writes `n`: without an exponent where `n` has
an exponent from -2 to 8, with one elsewhere, and read back whole. So a whole number of up to nine digits
prints as its digits. -/
theorem text_exact (x : Float) (hx : x.isFinite = true) :
    (value x ≠ 0 → (∃ n : Nine, n.Rounds |value x|) ∧ ∀ n : Nine, n.Rounds |value x| →
      ∃ (t : List Char) (k : Numeral),
        (Value.number x).text.toList = (if value x < 0 then '-' else ' ') :: t ∧
        Writes t k ∧ k.value = n.value ∧
        (IsFixed t ↔ -2 ≤ n.exponent ∧ n.exponent ≤ 8) ∧
        (IsScientific t ↔ ¬ (-2 ≤ n.exponent ∧ n.exponent ≤ 8)) ∧
        read? t = some k.toFloat ∧
        read? (Value.number x).text.toList = some (if value x < 0 then -k.toFloat else k.toFloat)) ∧
    ∀ i : ℤ, value x = i → i.natAbs < 10 ^ 9 →
      (Value.number x).text.toList = (if i < 0 then '-' else ' ') :: Nat.toDigits 10 i.natAbs := by
  refine ⟨fun hne => ?_, fun i hi hlt => toList_text_intCast hx hi hlt⟩
  obtain ⟨n, hn, hle, htext⟩ := exists_nine hx hne
  refine ⟨⟨n, hn⟩, fun n' hn' => ?_⟩
  obtain rfl := hn.unique hn'
  obtain ⟨c, e, hvalue, hplain, hminus⟩ := hn.exists_writes
  have hdigits : n.digits ≠ 0 := Nat.ne_of_gt ((by norm_num : 0 < 10 ^ 8).trans_le hn.lower)
  rw [← hvalue] at hle
  refine ⟨_, _, htext, hplain, ?_, Nine.isFixed_iff hdigits, Nine.isScientific_iff hdigits,
    read?_of_writes hplain hle, ?_⟩
  · rw [← hvalue, Numeral.value]
    simp
  · change read? (text x).toList = _
    rw [htext]
    by_cases hneg : value x < 0
    · rw [if_pos hneg, if_pos hneg]
      exact read?_of_writes hminus hle
    · rw [if_neg hneg, if_neg hneg, read?_cons_of_isBlank (by decide)]
      exact read?_of_writes hplain hle

/-- Half a unit below ten digits the tie goes up to the even neighbour, and the carry leaves the range that
is written without exponent. -/
theorem text_exact_carry : (999999999.5 : Float).isFinite = true ∧ value 999999999.5 = 1999999999 / 2 ∧
    Nine.Rounds ⟨10 ^ 8, 9⟩ |value 999999999.5| ∧
    ∃ t, (Value.number 999999999.5).text.toList = ' ' :: t ∧ IsScientific t := by
  have hunpack : (999999999.5 : Float).toModel.unpack =
    .finite .positive 8388607995805696 (-23) (by norm_num) := rfl
  have hfinite : (999999999.5 : Float).isFinite = true := rfl
  have hvalue : value 999999999.5 = 1999999999 / 2 := by
    rw [value, hunpack]
    norm_num [Float.Model.UnpackedFloat.Sign.apply]
  have hrounds : Nine.Rounds ⟨10 ^ 8, 9⟩ |value 999999999.5| := by
    have hlog : Int.log 10 (1999999999 / 2 : ℚ) = 8 := log_eq_of_bounds (by norm_num) (by norm_num)
    rw [hvalue, abs_of_pos (by norm_num)]
    refine ⟨le_rfl, by norm_num, 10 ^ 9, ⟨?_, fun _ => by decide⟩, ?_⟩
    · rw [hlog]
      norm_num [abs_le]
    · rw [hlog]
      norm_num [Nine.value]
  obtain ⟨t, k, htext, _, _, _, hscientific, _⟩ :=
    ((text_exact 999999999.5 hfinite).1 (by rw [hvalue]; norm_num)).2 _ hrounds
  rw [if_neg (by rw [hvalue]; norm_num)] at htext
  exact ⟨hfinite, hvalue, hrounds, t, htext, hscientific.mpr (by norm_num)⟩

end Number

end LineBasic
