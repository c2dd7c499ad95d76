import LineBasic.Proofs.Number.Range

/-! The number at the front of a text. All beginnings are tried, the longest first, and one that spells no
number or one too large is passed over. So the whole number is read if it has a value. If it is too large,
a shorter beginning takes its place, down to its first digit, which always has one. -/

namespace LineBasic.Number

open Text Numeral Lexer

/-! ### Beginnings of a text -/

/-- The longest beginning of `s` that has a property. -/
structure Longest (P : List Char → Prop) (s p : List Char) : Prop where
  starts : p <+: s
  holds : P p
  longest : ∀ q, q <+: s → P q → q.length ≤ p.length

theorem exists_longest {P : List Char → Prop} {s p : List Char} (hp : p <+: s) (h : P p) :
    ∃ q, Longest P s q := by
  classical
  have htake : ∀ q, q <+: s → s.take q.length = q := fun q hq => (List.prefix_iff_eq_take.mp hq).symm
  let k := Nat.findGreatest (fun k => P (s.take k)) s.length
  have hp' : P (s.take p.length) := by rwa [htake p hp]
  have hk : P (s.take k) := Nat.findGreatest_spec (P := fun k => P (s.take k)) hp.length_le hp'
  refine ⟨s.take k, List.take_prefix k s, hk, ?_⟩
  intro q hq hPq
  rw [List.length_take, Nat.min_eq_left (Nat.findGreatest_le _)]
  exact Nat.le_findGreatest hq.length_le (by rwa [htake q hq])

/-- Only the beginnings of each length have to be looked at. -/
theorem longest_iff {P : List Char → Prop} {s p : List Char} :
    Longest P s p ↔ p <+: s ∧ P p ∧ ∀ k ≤ s.length, P (s.take k) → k ≤ p.length := by
  constructor
  · rintro ⟨hp, h, hmax⟩
    refine ⟨hp, h, fun k hk hPk => ?_⟩
    have hle := hmax _ (List.take_prefix k s) hPk
    rwa [List.length_take, Nat.min_eq_left hk] at hle
  · rintro ⟨hp, h, hmax⟩
    refine ⟨hp, h, fun q hq hPq => hmax _ hq.length_le ?_⟩
    rwa [← List.prefix_iff_eq_take.mp hq]

instance {P : List Char → Prop} [DecidablePred P] (s p : List Char) : Decidable (Longest P s p) :=
  decidable_of_iff _ longest_iff.symm

/-- A text that spells a number which is not too large. -/
def IsFinite (s : List Char) : Prop := ∃ n, Writes s n ∧ n.toFloat.isFinite = true

theorem finite?_eq_some_iff {s : List Char} {x : Float} :
    finite? s = some x ↔ ∃ n, Writes s n ∧ n.toFloat.isFinite = true ∧ n.toFloat = x := by
  rw [finite?, Option.filter_eq_some_iff, Option.map_eq_some_iff]
  simp only [ofChars?_eq_some_iff]
  constructor
  · rintro ⟨⟨n, hn, rfl⟩, hfinite⟩
    exact ⟨n, hn, hfinite, rfl⟩
  · rintro ⟨n, hn, hfinite, rfl⟩
    exact ⟨⟨n, hn, rfl⟩, hfinite⟩

theorem finite?_eq_none_iff {s : List Char} : finite? s = none ↔ ¬ IsFinite s := by
  rw [Option.eq_none_iff_forall_ne_some]
  constructor
  · rintro h ⟨n, hn, hfinite⟩
    exact h _ (finite?_eq_some_iff.mpr ⟨n, hn, hfinite, rfl⟩)
  · intro h x hx
    obtain ⟨n, hn, hfinite, _⟩ := finite?_eq_some_iff.mp hx
    exact h ⟨n, hn, hfinite⟩

/-! ### The search -/

theorem longestWithin?_eq_some {s : List Char} {n k : Nat} {x : Float} (hpos : 0 < k) (hk : k ≤ n)
    (hx : finite? (s.take k) = some x)
    (hmax : ∀ j, k < j → j ≤ n → finite? (s.take j) = none) : longestWithin? s n = some x := by
  induction n with
  | zero => omega
  | succ n ih =>
    rw [longestWithin?]
    rcases Nat.lt_or_eq_of_le hk with hlt | rfl
    · rw [hmax (n + 1) hlt (Nat.le_refl _), Option.none_or]
      exact ih (Nat.le_of_lt_succ hlt) fun j hj hjn => hmax j hj (Nat.le_succ_of_le hjn)
    · rw [hx, Option.some_or]

theorem longestWithin?_eq_none {s : List Char} {n : Nat} (h : ∀ j, finite? (s.take j) = none) :
    longestWithin? s n = none := by
  induction n with
  | zero => rfl
  | succ n ih => rw [longestWithin?, h, ih, Option.none_or]

theorem IsFinite.isDecimal {s : List Char} (h : IsFinite s) : IsDecimal s := by
  obtain ⟨n, hn, _⟩ := h
  exact isDecimal_iff.mpr ⟨n, hn⟩

/-- A number at the front of a text lies within the run of characters that is searched. -/
theorem starts_run {s p : List Char} (h : IsDecimal p) (hp : p <+: s) :
    p <+: s.takeWhile isNumeralChar := by
  obtain ⟨rest, rfl⟩ := hp
  rw [List.takeWhile_append_of_pos h.isNumeralChar]
  exact List.prefix_append ..

theorem leading_of_longest {s p : List Char} {n : Numeral} (h : Longest IsFinite (trimStart s) p)
    (hn : Writes p n) : leading s = n.toFloat := by
  have hdecimal := h.holds.isDecimal
  have hrun := starts_run hdecimal h.starts
  have hfinite : finite? p = some n.toFloat := by
    obtain ⟨k, hk, hfinite⟩ := h.holds
    exact finite?_eq_some_iff.mpr ⟨n, hn, hk.unique hn ▸ hfinite, rfl⟩
  rw [List.prefix_iff_eq_take.mp hrun] at hfinite
  have hsearch := longestWithin?_eq_some (List.length_pos_iff.mpr hdecimal.ne_nil) hrun.length_le
    hfinite fun j hj hjn => ?_
  · rw [leading, hsearch, Option.getD_some]
  · rw [finite?_eq_none_iff]
    intro hlonger
    have hle := h.longest _ ((List.take_prefix _ _).trans (List.takeWhile_prefix _)) hlonger
    rw [List.length_take, Nat.min_eq_left hjn] at hle
    omega

theorem leading_of_none {s : List Char} (h : ∀ p, p <+: trimStart s → ¬ IsFinite p) :
    leading s = 0 := by
  rw [leading, longestWithin?_eq_none, Option.getD_none]
  intro j
  exact finite?_eq_none_iff.mpr (h _ ((List.take_prefix _ _).trans (List.takeWhile_prefix _)))

/-! ### What takes the place of a number that is too large -/

theorem digit_isFinite {negative : Bool} {d : Nat} {e : Int} (hd : d < 10) (he : e ≤ 0) :
    (Numeral.mk negative d e).toFloat.isFinite = true := by
  apply isFinite_toFloat_of_le le_rfl (by norm_num)
  calc (d : ℚ) * 10 ^ e ≤ d * 1 :=
        mul_le_mul_of_nonneg_left (zpow_le_one_of_nonpos₀ (by norm_num) he) (Nat.cast_nonneg d)
    _ ≤ (roomy * 2 ^ 124 : ℕ) := by
        rw [mul_one]
        exact_mod_cast hd.le.trans (by decide)

/-- The first digit of a number, with its sign and its point, is a number of its own. -/
theorem exists_isFinite {s : List Char} (h : IsDecimal s) : ∃ p, p <+: s ∧ IsFinite p := by
  obtain ⟨sgn, _, hsgn, ⟨⟨whole, fraction⟩, e, hm, _, rfl⟩, rfl⟩ := h
  have hlt : ∀ {c : Char}, c.isDigit = true → Nat.ofDigitChars 10 [c] 0 < 10 := by
    intro c hc
    have hle : c.toNat ≤ 57 := by
      simp only [Char.isDigit, Bool.and_eq_true, decide_eq_true_eq, UInt32.le_iff_toNat_le] at hc
      exact hc.2
    rw [Nat.ofDigitChars_cons, Nat.ofDigitChars_nil]
    simp
    omega
  cases whole with
  | cons d ds =>
    have hd : d.isDigit = true := hm.isDigit d (List.mem_append_left _ List.mem_cons_self)
    have hone : IsMantissa ⟨[d], none⟩ := ⟨by simp [Mantissa.digits], by simpa [Mantissa.digits] using hd⟩
    refine ⟨sgn ++ (Mantissa.text ⟨[d], none⟩ ++ []), ?_, _, .mk hsgn hone .none, ?_⟩
    · cases fraction <;> simp [Mantissa.text]
    · exact digit_isFinite (hlt hd) (by simp)
  | nil =>
    cases fraction with
    | none => exact absurd rfl hm.ne_nil
    | some ds =>
      cases ds with
      | nil => exact absurd rfl hm.ne_nil
      | cons d ds =>
        have hd : d.isDigit = true := hm.isDigit d (List.mem_append_right _ List.mem_cons_self)
        have hone : IsMantissa ⟨[], some [d]⟩ :=
          ⟨by simp [Mantissa.digits], by simpa [Mantissa.digits] using hd⟩
        refine ⟨sgn ++ (Mantissa.text ⟨[], some [d]⟩ ++ []), ?_, _, .mk hsgn hone .none, ?_⟩
        · simp [Mantissa.text]
        · exact digit_isFinite (hlt hd) (by simp)

/-- The longest number at the front of a text is read as a whole if it is not too large. If it is, the
longest of its beginnings that is not takes its place; and without a number there the text reads as zero. -/
theorem leading_longest (s : List Char) :
    ((∀ p, p <+: trimStart s → ¬ IsDecimal p) → leading s = 0) ∧
    ∀ p n, Longest IsDecimal (trimStart s) p → Writes p n →
      (n.toFloat.isFinite = true → leading s = n.toFloat) ∧
      (n.toFloat.isFinite = false → ∃ q k, Longest IsFinite (trimStart s) q ∧ q.length < p.length ∧
        Writes q k ∧ leading s = k.toFloat) := by
  refine ⟨fun h => leading_of_none fun p hp hfinite => h p hp hfinite.isDecimal, ?_⟩
  intro p n hp hn
  constructor
  · intro hfinite
    refine leading_of_longest ⟨hp.starts, ⟨n, hn, hfinite⟩, fun q hq hPq => ?_⟩ hn
    exact hp.longest q hq hPq.isDecimal
  · intro hlarge
    obtain ⟨q₀, hq₀, hfinite₀⟩ := exists_isFinite hp.holds
    obtain ⟨q, hq⟩ := exists_longest (hq₀.trans hp.starts) hfinite₀
    obtain ⟨k, hk, hfinite⟩ := hq.holds
    refine ⟨q, k, hq, ?_, hk, leading_of_longest hq hk⟩
    refine Nat.lt_of_le_of_ne (hp.longest q hq.starts hq.holds.isDecimal) fun hlen => ?_
    have hqp := (List.prefix_of_prefix_length_le hq.starts hp.starts hlen.le).eq_of_length hlen
    rw [hqp] at hk
    rw [hk.unique hn, hlarge] at hfinite
    cases hfinite

/-- Blanks, a sign, a point after the exponent; a number that is too large; and a text without number. -/
theorem leading_longest_signed :
    (Longest IsDecimal (trimStart " -12.5E+3.7".toList) "-12.5E+3".toList ∧
      Writes "-12.5E+3".toList ⟨true, 125, 2⟩ ∧ (Numeral.mk true 125 2).toFloat.isFinite = true ∧
      leading " -12.5E+3.7".toList = (Numeral.mk true 125 2).toFloat) ∧
    (Longest IsDecimal (trimStart "1E999X".toList) "1E999".toList ∧ Writes "1E999".toList ⟨false, 1, 999⟩ ∧
      (Numeral.mk false 1 999).toFloat.isFinite = false ∧
      ∃ q k, Longest IsFinite (trimStart "1E999X".toList) q ∧ q.length < "1E999".toList.length ∧
        Writes q k ∧ leading "1E999X".toList = k.toFloat) ∧
    (∀ p, p <+: trimStart "-.E5".toList → ¬ IsDecimal p) ∧ leading "-.E5".toList = 0 := by
  have hwhole : Longest IsDecimal (trimStart " -12.5E+3.7".toList) "-12.5E+3".toList ∧
      ofChars? "-12.5E+3".toList = some ⟨true, 125, 2⟩ ∧
      (Numeral.mk true 125 2).toFloat.isFinite = true := by decide +kernel
  have hlarge : Longest IsDecimal (trimStart "1E999X".toList) "1E999".toList ∧
      ofChars? "1E999".toList = some ⟨false, 1, 999⟩ ∧
      (Numeral.mk false 1 999).toFloat.isFinite = false := by decide +kernel
  have hnone : ∀ p, p <+: trimStart "-.E5".toList → ¬ IsDecimal p := by
    have htake : ∀ k ≤ 4, ¬ IsDecimal ((trimStart "-.E5".toList).take k) := by decide +kernel
    intro p hp
    rw [List.prefix_iff_eq_take.mp hp]
    exact htake _ hp.length_le
  obtain ⟨hp, hn, hfinite⟩ := hwhole
  obtain ⟨hp', hn', hlarge⟩ := hlarge
  rw [ofChars?_eq_some_iff] at hn hn'
  exact ⟨⟨hp, hn, hfinite, ((leading_longest _).2 _ _ hp hn).1 hfinite⟩,
    ⟨hp', hn', hlarge, ((leading_longest _).2 _ _ hp' hn').2 hlarge⟩, hnone, (leading_longest _).1 hnone⟩

/-- Where the number is too large, the text reads as a beginning of it. -/
theorem leading_of_large :
    Longest IsDecimal (trimStart "1E999".toList) "1E999".toList ∧
    "1E99".toList <+: "1E999".toList ∧ Writes "1E99".toList ⟨false, 1, 99⟩ ∧
    leading "1E999".toList = (Numeral.mk false 1 99).toFloat := by
  rw [← ofChars?_eq_some_iff]
  decide +kernel

end LineBasic.Number
