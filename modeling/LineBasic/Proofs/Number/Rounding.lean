import Mathlib
import LineBasic.Number.Decimal

/-! Rounding to nine significant digits. `Nine.Rounds n x` says, of rationals, that `n` is `x` rounded to
nine significant digits, a half to the even digit; there is exactly one such `n` for a positive `x`, and
`Nine.ofRatio` computes it from a fraction. -/

namespace LineBasic.Number

/-- The size of a number, exactly. -/
def Binary.size (b : Binary) : ℚ := b.significand * 2 ^ b.exponent

/-- The number that nine digits stand for. -/
def Nine.value (n : Nine) : ℚ := n.digits * 10 ^ (n.exponent - 8)

/-- `d` is the natural nearest to `y`, and the even one where two are equally near. -/
def RoundsTo (y : ℚ) (d : ℕ) : Prop := |y - d| ≤ 1 / 2 ∧ (|y - d| = 1 / 2 → Even d)

/-- `n` is `x` rounded to nine significant digits: the place of the ninth digit of `x` is the unit in
which `x` is rounded. A carry out of the nine digits moves the exponent. -/
structure Nine.Rounds (n : Nine) (x : ℚ) : Prop where
  lower : 10 ^ 8 ≤ n.digits
  upper : n.digits < 10 ^ 9
  nearest : ∃ d, RoundsTo (x / 10 ^ (Int.log 10 x - 8)) d ∧ n.value = d * 10 ^ (Int.log 10 x - 8)

/-! ### Powers of ten -/

theorem ten_zpow_pos (e : ℤ) : (0 : ℚ) < 10 ^ e := zpow_pos (by norm_num) e

theorem pow_mul_zpow (k : ℕ) (e : ℤ) : (10 : ℚ) ^ k * 10 ^ e = 10 ^ (k + e) := by
  rw [zpow_add₀ (by norm_num), zpow_natCast]

theorem log_eq_of_bounds {x : ℚ} {e : ℤ} (hlo : 10 ^ e ≤ x) (hhi : x < 10 ^ (e + 1)) :
    Int.log 10 x = e := by
  have hx : 0 < x := lt_of_lt_of_le (ten_zpow_pos e) hlo
  have hle : e ≤ Int.log 10 x := (Int.zpow_le_iff_le_log (by norm_num) hx).mp (by exact_mod_cast hlo)
  have hlt : Int.log 10 x < e + 1 :=
    (Int.lt_zpow_iff_log_lt (by norm_num) hx).mp (by exact_mod_cast hhi)
  omega

theorem zpow_log_le {x : ℚ} (hx : 0 < x) : 10 ^ Int.log 10 x ≤ x := by
  exact_mod_cast Int.zpow_log_le_self (b := 10) (by norm_num) hx

theorem lt_zpow_log_add_one (x : ℚ) : x < 10 ^ (Int.log 10 x + 1) := by
  exact_mod_cast Int.lt_zpow_succ_log_self (b := 10) (by norm_num) x

/-- A number in units of its ninth digit has nine digits before the point. -/
theorem scaled_bounds {x : ℚ} (hx : 0 < x) :
    10 ^ 8 ≤ x / 10 ^ (Int.log 10 x - 8) ∧ x / 10 ^ (Int.log 10 x - 8) < 10 ^ 9 := by
  have hunit := ten_zpow_pos (Int.log 10 x - 8)
  constructor
  · rw [le_div_iff₀ hunit, pow_mul_zpow, Nat.cast_ofNat, add_sub_cancel]
    exact zpow_log_le hx
  · have hexp : ((9 : ℕ) : ℤ) + (Int.log 10 x - 8) = Int.log 10 x + 1 := by omega
    rw [div_lt_iff₀ hunit, pow_mul_zpow, hexp]
    exact lt_zpow_log_add_one x

/-! ### Rounding to a natural -/

theorem RoundsTo.unique {y : ℚ} {d k : ℕ} (hd : RoundsTo y d) (hk : RoundsTo y k) : d = k := by
  obtain ⟨hdl, hdu⟩ := abs_le.mp hd.1
  obtain ⟨hkl, hku⟩ := abs_le.mp hk.1
  -- Two different naturals within a half of `y` are neighbours, and both are a half away: both even.
  have hnear : d ≤ k + 1 ∧ k ≤ d + 1 := by
    constructor
    · exact_mod_cast (by linarith : (d : ℚ) ≤ k + 1)
    · exact_mod_cast (by linarith : (k : ℚ) ≤ d + 1)
  rcases lt_trichotomy d k with hlt | heq | hgt
  · have hkd : k = d + 1 := by omega
    have hcast : (k : ℚ) = d + 1 := by exact_mod_cast hkd
    have hed : Even d := hd.2 (by rw [abs_of_nonneg] <;> linarith)
    have hek : Even k := hk.2 (by rw [abs_of_nonpos] <;> linarith)
    rw [hkd] at hek
    exact absurd hed (by simpa [Nat.even_add_one] using hek)
  · exact heq
  · have hdk : d = k + 1 := by omega
    have hcast : (d : ℚ) = k + 1 := by exact_mod_cast hdk
    have hek : Even k := hk.2 (by rw [abs_of_nonneg] <;> linarith)
    have hed : Even d := hd.2 (by rw [abs_of_nonpos] <;> linarith)
    rw [hdk] at hed
    exact absurd hek (by simpa [Nat.even_add_one] using hed)

theorem roundsTo_natCast (d : ℕ) : RoundsTo d d := by simp [RoundsTo]

/-- Rounding stays between the naturals that a number lies between. -/
theorem RoundsTo.bounds {y : ℚ} {d lo hi : ℕ} (h : RoundsTo y d) (hlo : lo ≤ y) (hhi : y < hi) :
    lo ≤ d ∧ d ≤ hi := by
  obtain ⟨hl, hu⟩ := abs_le.mp h.1
  have h₁ : (lo : ℚ) < d + 1 := by linarith
  have h₂ : (d : ℚ) < hi + 1 := by linarith
  norm_cast at h₁ h₂
  omega

theorem roundsTo_below {q : ℕ} {f : ℚ} (hf : 0 ≤ f) (h : f < 1 / 2 ∨ f = 1 / 2 ∧ Even q) :
    RoundsTo (q + f) q := by
  unfold RoundsTo
  rw [add_sub_cancel_left, abs_of_nonneg hf]
  rcases h with hlt | ⟨heq, heven⟩
  · exact ⟨hlt.le, fun h => absurd h hlt.ne⟩
  · exact ⟨heq.le, fun _ => heven⟩

theorem roundsTo_above {q : ℕ} {f : ℚ} (hf : f ≤ 1) (h : 1 / 2 < f ∨ f = 1 / 2 ∧ ¬ Even q) :
    RoundsTo (q + f) (q + 1) := by
  have hdist : |(q : ℚ) + f - (q + 1 : ℕ)| = 1 - f := by
    push_cast
    rw [abs_of_nonpos (by linarith)]
    ring
  unfold RoundsTo
  rw [hdist]
  rcases h with hlt | ⟨heq, hodd⟩
  · exact ⟨by linarith, fun h => by linarith⟩
  · exact ⟨by linarith, fun _ => Nat.even_add_one.mpr hodd⟩

theorem roundedDiv_roundsTo (num : ℕ) {den : ℕ} (hden : 0 < den) :
    RoundsTo (num / den) (roundedDiv num den) := by
  have hpos : (0 : ℚ) < den := by exact_mod_cast hden
  have hsplit : (num : ℚ) = den * (num / den : ℕ) + (num % den : ℕ) := by
    exact_mod_cast (Nat.div_add_mod num den).symm
  have hy : (num : ℚ) / den = (num / den : ℕ) + (num % den : ℕ) / den := by
    field_simp
    exact hsplit
  have hrem := Nat.mod_lt num hden
  unfold roundedDiv
  rw [hy]
  dsimp only
  generalize num / den = q
  generalize num % den = r at hrem
  have hf₀ : 0 ≤ (r : ℚ) / den := by positivity
  have hf₁ : (r : ℚ) / den ≤ 1 := (div_le_one hpos).mpr (by exact_mod_cast hrem.le)
  have hlt_iff : (r : ℚ) / den < 1 / 2 ↔ 2 * r < den := by
    rw [div_lt_div_iff₀ hpos (by norm_num), one_mul, mul_comm]
    exact_mod_cast Iff.rfl
  have heq_iff : (r : ℚ) / den = 1 / 2 ↔ 2 * r = den := by
    rw [div_eq_div_iff hpos.ne' (by norm_num), one_mul, mul_comm]
    exact_mod_cast Iff.rfl
  split
  · rename_i h
    rw [Bool.or_eq_true, Bool.and_eq_true, decide_eq_true_eq, beq_iff_eq, beq_iff_eq, ← hlt_iff,
      ← heq_iff, ← Nat.even_iff] at h
    exact roundsTo_below hf₀ h
  · rename_i h
    rw [Bool.or_eq_true, Bool.and_eq_true, decide_eq_true_eq, beq_iff_eq, beq_iff_eq, ← hlt_iff,
      ← heq_iff, ← Nat.even_iff, not_or, not_lt, not_and] at h
    exact roundsTo_above hf₁ ((lt_or_eq_of_le h.1).imp_right fun heq => ⟨heq.symm, h.2 heq.symm⟩)

/-! ### The exponent -/

theorem digitCount_eq {n : ℕ} (hn : n ≠ 0) : digitCount n = Nat.log 10 n + 1 := by
  have hle (k : ℕ) (hk : 0 < k) : digitCount n ≤ k ↔ Nat.log 10 n < k := by
    rw [digitCount, Nat.length_toDigits_le_iff (by norm_num) hk, Nat.log_lt_iff_lt_pow (by norm_num) hn]
  have hpos : 0 < digitCount n := List.length_pos_iff.mpr Nat.toDigits_ne_nil
  have h₁ := (hle _ hpos).mp le_rfl
  have h₂ := (hle (Nat.log 10 n + 1) (by omega)).mpr (by omega)
  omega

theorem decimalExponent_eq {num den : ℕ} (hnum : 0 < num) (hden : 0 < den) :
    decimalExponent num den = Int.log 10 (num / den : ℚ) := by
  have hn : (0 : ℚ) < num := by exact_mod_cast hnum
  have hd : (0 : ℚ) < den := by exact_mod_cast hden
  unfold decimalExponent
  split
  · rename_i hle
    have hone : (1 : ℚ) ≤ num / den := (one_le_div hd).mpr (by exact_mod_cast hle)
    rw [Int.log_of_one_le_right 10 hone, Nat.floor_div_eq_div,
      digitCount_eq (Nat.div_pos hle hden).ne']
    push_cast
    ring
  · rename_i hlt
    have hq : (den - 1) / num ≠ 0 := (Nat.div_pos (by omega) hnum).ne'
    have hlo : 10 ^ Nat.log 10 ((den - 1) / num) * num < den := by
      have h := Nat.pow_log_le_self 10 hq
      rw [Nat.le_div_iff_mul_le hnum] at h
      omega
    have hhi : den ≤ 10 ^ (Nat.log 10 ((den - 1) / num) + 1) * num := by
      have h := Nat.lt_pow_succ_log_self (b := 10) (by norm_num) ((den - 1) / num)
      rw [Nat.succ_eq_add_one, Nat.div_lt_iff_lt_mul hnum] at h
      omega
    rw [digitCount_eq hq]
    generalize Nat.log 10 ((den - 1) / num) = l at hlo hhi
    refine (log_eq_of_bounds ?_ ?_).symm
    · rw [zpow_neg, zpow_natCast, inv_le_comm₀ (by positivity) (by positivity), inv_div,
        div_le_iff₀ hn]
      exact_mod_cast hhi
    · have hneg : -((l + 1 : ℕ) : ℤ) + 1 = -(l : ℤ) := by
        push_cast
        ring
      rw [hneg, zpow_neg, zpow_natCast, lt_inv_comm₀ (by positivity) (by positivity), inv_div,
        lt_div_iff₀ hn]
      exact_mod_cast hlo

/-! ### Nine digits -/

theorem Nine.log_value {n : Nine} (hlo : 10 ^ 8 ≤ n.digits) (hhi : n.digits < 10 ^ 9) :
    Int.log 10 n.value = n.exponent := by
  have hunit := ten_zpow_pos (n.exponent - 8)
  apply log_eq_of_bounds
  · calc (10 : ℚ) ^ n.exponent = 10 ^ 8 * 10 ^ (n.exponent - 8) := by
          rw [pow_mul_zpow, Nat.cast_ofNat, add_sub_cancel]
      _ ≤ n.value := mul_le_mul_of_nonneg_right (by exact_mod_cast hlo) hunit.le
  · calc n.value < 10 ^ 9 * 10 ^ (n.exponent - 8) :=
          mul_lt_mul_of_pos_right (by exact_mod_cast hhi) hunit
      _ = 10 ^ (n.exponent + 1) := by
          rw [pow_mul_zpow]
          congr 1
          omega

theorem Nine.Rounds.unique {n k : Nine} {x : ℚ} (hn : n.Rounds x) (hk : k.Rounds x) : n = k := by
  obtain ⟨d, hd, hnv⟩ := hn.nearest
  obtain ⟨d', hd', hkv⟩ := hk.nearest
  have hvalue : n.value = k.value := by rw [hnv, hkv, hd.unique hd']
  have hexp : n.exponent = k.exponent := by
    rw [← log_value hn.lower hn.upper, hvalue, log_value hk.lower hk.upper]
  have hdigits : n.digits = k.digits := by
    unfold value at hvalue
    rw [hexp] at hvalue
    exact_mod_cast mul_right_cancel₀ (ten_zpow_pos _).ne' hvalue
  cases n
  cases k
  simp_all

theorem log_natCast_bounds {k : ℕ} (hk : k < 10 ^ 9) :
    0 ≤ Int.log 10 (k : ℚ) ∧ Int.log 10 (k : ℚ) ≤ 8 := by
  have hlt : Nat.log 10 k < 9 := Nat.log_lt_of_lt_pow' (by norm_num) hk
  rw [Int.log_natCast]
  omega

/-- Whole numbers of up to nine digits round to themselves. -/
theorem Nine.Rounds.value_eq {n : Nine} {k : ℕ} (hn : n.Rounds k) (hk : k < 10 ^ 9) : n.value = k := by
  obtain ⟨d, hd, hvalue⟩ := hn.nearest
  have hlog := log_natCast_bounds hk
  have hscale : (k : ℚ) / 10 ^ (Int.log 10 (k : ℚ) - 8) =
      (k * 10 ^ (8 - Int.log 10 (k : ℚ)).toNat : ℕ) := by
    rw [Nat.cast_mul, Nat.cast_pow, Nat.cast_ofNat, ← zpow_natCast, div_eq_mul_inv, ← zpow_neg]
    congr 2
    omega
  rw [hscale] at hd
  rw [hvalue, hd.unique (roundsTo_natCast _), ← hscale, div_mul_cancel₀ _ (ten_zpow_pos _).ne']

theorem Nine.Rounds.exponent_bounds {n : Nine} {k : ℕ} (hn : n.Rounds k) (hk : k < 10 ^ 9) :
    0 ≤ n.exponent ∧ n.exponent ≤ 8 := by
  rw [← log_value hn.lower hn.upper, hn.value_eq hk]
  exact log_natCast_bounds hk

/-- Scaling a fraction of naturals by a power of ten, which keeps it a fraction of naturals. -/
theorem scaled_ratio (num den : ℕ) (e : ℤ) :
    ((num * 10 ^ (8 - e).toNat : ℕ) : ℚ) / (den * 10 ^ (e - 8).toNat : ℕ) =
      num / den / 10 ^ (e - 8) := by
  have hpow : (10 : ℚ) ^ (e - 8) * 10 ^ (8 - e).toNat = 10 ^ (e - 8).toNat := by
    rw [← zpow_natCast, ← zpow_natCast, ← zpow_add₀ (by norm_num)]
    congr 1
    omega
  push_cast
  rw [← hpow, div_div]
  field_simp

/-- The nine digits of a fraction are the fraction rounded. -/
theorem Nine.ofRatio_rounds {num den : ℕ} (hnum : 0 < num) (hden : 0 < den) :
    (Nine.ofRatio num den).Rounds (num / den) := by
  have hx : (0 : ℚ) < num / den := by positivity
  have hscale : 0 < den * 10 ^ (decimalExponent num den - 8).toNat := by positivity
  have hd := roundedDiv_roundsTo (num * 10 ^ (8 - decimalExponent num den).toNat) hscale
  obtain ⟨hlo, hhi⟩ := scaled_bounds hx
  rw [scaled_ratio, decimalExponent_eq hnum hden] at hd
  have hbounds : 10 ^ 8 ≤ _ ∧ _ ≤ 10 ^ 9 :=
    hd.bounds (by exact_mod_cast hlo) (by exact_mod_cast hhi)
  unfold ofRatio
  simp only [Nat.pow_eq, beq_iff_eq, decimalExponent_eq hnum hden] at *
  generalize roundedDiv _ _ = d at *
  split
  · -- The carry: nine nines round up to a one and nine zeros.
    rename_i hcarry
    refine ⟨le_rfl, by norm_num, d, hd, ?_⟩
    rw [hcarry, value, Nat.cast_pow, Nat.cast_pow, Nat.cast_ofNat, pow_mul_zpow, pow_mul_zpow]
    dsimp only
    congr 1
    omega
  · rename_i hne
    exact ⟨hbounds.1, lt_of_le_of_ne hbounds.2 hne, d, hd, rfl⟩

/-- The exact size of a number, as its fraction. -/
theorem Binary.size_eq_ratio (b : Binary) : b.size = (b.ratio.1 : ℚ) / b.ratio.2 := by
  have hpow : (2 : ℚ) ^ b.exponent * 2 ^ (-b.exponent).toNat = 2 ^ b.exponent.toNat := by
    rw [← zpow_natCast, ← zpow_natCast, ← zpow_add₀ (by norm_num)]
    congr 1
    omega
  unfold size ratio
  simp only [Nat.pow_eq, Nat.cast_mul, Nat.cast_pow, Nat.cast_ofNat]
  rw [← hpow, ← mul_assoc, mul_div_cancel_right₀ _ (by positivity)]

theorem Binary.ofRatio_rounds {b : Binary} (hb : 0 < b.significand) :
    (Nine.ofRatio b.ratio.1 b.ratio.2).Rounds b.size := by
  rw [size_eq_ratio]
  exact Nine.ofRatio_rounds (Nat.mul_pos hb (Nat.pow_pos (by norm_num))) (Nat.pow_pos (by norm_num))

end LineBasic.Number
