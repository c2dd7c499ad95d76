import LineBasic.Proofs.Number.Layout
import LineBasic.Proofs.Number.Pattern

/-! The range of numbers that are read without overflow. A binary number is finite as long as its exponent
stays below the largest one, so the bounds here follow exponents through rounding, products and quotients.
The main statement is that a numeral below the largest finite number reads as a finite one. -/

namespace LineBasic.Number

open Float.Model Float.Model.UnpackedFloat

/-- A finite number whose exponent is at most `k`. -/
def Bounded (k : ℤ) : UnpackedFloat → Prop
  | .zero _ => True
  | .finite _ _ e _ => e ≤ k
  | .infinity _ => False
  | .notANumber => False

theorem Bounded.isFinite {k : ℤ} {u : UnpackedFloat} (h : Bounded k u) : u.isFinite = true := by
  cases u with
  | zero => rfl
  | finite => rfl
  | infinity => exact h.elim
  | notANumber => exact h.elim

/-- The largest significand from which rounding up still leaves a significand. -/
def roomy : ℕ := 2 ^ 53 - 2

/-! ### Rounding -/

theorem roomy_mul_pow_lt (k : ℕ) : roomy * 2 ^ k < 2 ^ (53 + k) := by
  rw [pow_add]
  exact Nat.mul_lt_mul_of_pos_right (by decide) (Nat.two_pow_pos k)

theorem mantissa_shiftRight (em : ExtendedMantissa) (n : ℕ) :
    (em >>> n).mantissa = em.mantissa / 2 ^ n := by
  change (n.repeat ExtendedMantissa.shiftRightOne em).mantissa = _
  induction n with
  | zero => simp [Nat.repeat]
  | succ n ih =>
    rw [Nat.repeat, ExtendedMantissa.shiftRightOne, ih, Nat.div_div_eq_div_mul, pow_succ]

theorem roundedMantissa_le (em : ExtendedMantissa) : em.roundedMantissa ≤ em.mantissa + 1 := by
  unfold ExtendedMantissa.roundedMantissa Accuracy.roundToNearestEven
  split <;> omega

theorem mantissa_ofMantissaAndAccuracy (m : ℕ) (acc : Accuracy) :
    (ExtendedMantissa.ofMantissaAndAccuracy m acc).mantissa = m := by
  unfold ExtendedMantissa.ofMantissaAndAccuracy
  split <;> rfl

theorem targetExponent_eq (m : ℕ) (e : ℤ) :
    Format.binary64.targetExponent (totalExponent m e) = max (m.log2 + e - 52) (-1074) := by
  simp only [Format.targetExponent, totalExponent, Format.mantissaBits, Format.minExponent]
  norm_num
  omega

theorem log2_lt_of_lt {m k : ℕ} (hk : 0 < k) (h : m < 2 ^ k) : m.log2 < k := by
  rcases Nat.eq_zero_or_pos m with rfl | hm
  · simpa using hk
  · exact (Nat.log2_lt hm.ne').mpr h

/-- The exponent that rounding gives: the significand is shifted to its target, rounded, and shifted again
in case of a carry. -/
theorem bounded_round_steps {k e : ℤ} {m r : ℕ} {s : Sign} {acc : Accuracy}
    (hr : (shiftToTargetExponent Format.binary64 m e acc).1.roundedMantissa = r)
    (h : max (max e (max (m.log2 + e - 52) (-1074)))
      (r.log2 + max e (max (m.log2 + e - 52) (-1074)) - 52) ≤ k) :
    Bounded k (roundWithAccuracy Format.binary64 s m e acc) := by
  have hfirst : (shiftToTargetExponent Format.binary64 m e acc).2 =
      max e (max (m.log2 + e - 52) (-1074)) := by
    rw [shiftToTargetExponent, targetExponent_eq, shiftToExponent]
    dsimp only
    omega
  have hsecond : (shiftToTargetExponent Format.binary64 r
      (shiftToTargetExponent Format.binary64 m e acc).2 .exact).2 ≤ k := by
    rw [hfirst, shiftToTargetExponent, targetExponent_eq, shiftToExponent]
    dsimp only
    omega
  unfold roundWithAccuracy
  dsimp only
  rw [hr]
  split
  · trivial
  · exact hsecond

/-- A significand with room for a carry at the exponent `k` rounds to an exponent of at most `k`. -/
theorem bounded_roundWithAccuracy {k e : ℤ} {m : ℕ} (hk : -1074 ≤ k) (he : e ≤ k)
    (hm : m ≤ roomy * 2 ^ (k - e).toNat) (s : Sign) (acc : Accuracy) :
    Bounded k (roundWithAccuracy Format.binary64 s m e acc) := by
  have hlog : m.log2 < 53 + (k - e).toNat :=
    log2_lt_of_lt (by omega) (hm.trans_lt (roomy_mul_pow_lt _))
  have hfirst : (shiftToTargetExponent Format.binary64 m e acc).1.mantissa =
      m / 2 ^ (max (m.log2 + e - 52) (-1074) - e).toNat := by
    rw [shiftToTargetExponent, shiftToExponent, mantissa_shiftRight, mantissa_ofMantissaAndAccuracy,
      targetExponent_eq]
  have hround := roundedMantissa_le (shiftToTargetExponent Format.binary64 m e acc).1
  rw [hfirst] at hround
  have hsmall : m / 2 ^ (max (m.log2 + e - 52) (-1074) - e).toNat < 2 ^ 53 := by
    rw [Nat.div_lt_iff_lt_mul (Nat.two_pow_pos _), ← pow_add]
    exact Nat.lt_log2_self.trans_le (Nat.pow_le_pow_right (by norm_num) (by omega))
  refine bounded_round_steps rfl ?_
  generalize (shiftToTargetExponent Format.binary64 m e acc).1.roundedMantissa = r at hround
  -- Below `k` there is room for the shift that a carry makes; at `k` itself there is no carry.
  rcases lt_or_eq_of_le (show max e (max (m.log2 + e - 52) (-1074)) ≤ k by omega) with hlt | heq
  · have hr : r.log2 < 54 := log2_lt_of_lt (by norm_num) (by omega)
    omega
  · have hshift : (max (m.log2 + e - 52 : ℤ) (-1074) - e).toNat = (k - e).toNat := by omega
    have hquot : m / 2 ^ (k - e).toNat ≤ roomy := by
      rw [← Nat.mul_div_cancel roomy (Nat.two_pow_pos (k - e).toNat)]
      exact Nat.div_le_div_right hm
    have hr : r.log2 < 53 := by
      rw [hshift] at hround
      apply log2_lt_of_lt (by norm_num)
      unfold roomy at hquot
      omega
    omega

/-! ### Products and quotients -/

theorem bounded_mul {k e₁ e₂ : ℤ} {m₁ m₂ : ℕ} {h₁ : 0 < m₁} {h₂ : 0 < m₂} (hk : -1074 ≤ k)
    (he : e₁ + e₂ ≤ k) (hm : m₁ * m₂ ≤ roomy * 2 ^ (k - (e₁ + e₂)).toNat) (s₁ s₂ : Sign) :
    Bounded k (UnpackedFloat.mul Format.binary64 (.finite s₁ m₁ e₁ h₁) (.finite s₂ m₂ e₂ h₂)) :=
  bounded_roundWithAccuracy hk he hm _ _

theorem bounded_div {k e₁ e₂ : ℤ} {m₁ m₂ : ℕ} {h₁ : 0 < m₁} {h₂ : 0 < m₂} (hk : -1074 ≤ k)
    (he : e₁ - e₂ ≤ k) (hm : m₁ ≤ m₂ * (roomy * 2 ^ (k - (e₁ - e₂)).toNat)) (s₁ s₂ : Sign) :
    Bounded k (UnpackedFloat.div Format.binary64 (.finite s₁ m₁ e₁ h₁) (.finite s₂ m₂ e₂ h₂)) := by
  unfold UnpackedFloat.div divCore
  dsimp only
  generalize ht : min (e₁ - e₂) _ = t
  have hle : t ≤ e₁ - e₂ := by omega
  refine bounded_roundWithAccuracy hk (hle.trans he) ?_ _ _
  rw [Nat.shiftLeft_eq]
  apply Nat.div_le_of_le_mul
  -- The shift before the division scales both sides.
  have hexp : (k - t).toNat = (k - (e₁ - e₂)).toNat + (e₁ - e₂ - t).toNat := by omega
  calc m₁ * 2 ^ (e₁ - e₂ - t).toNat
      ≤ m₂ * (roomy * 2 ^ (k - (e₁ - e₂)).toNat) * 2 ^ (e₁ - e₂ - t).toNat := Nat.mul_le_mul_right _ hm
    _ = m₂ * (roomy * 2 ^ (k - t).toNat) := by
        rw [hexp, pow_add]
        ring

/-! ### Patterns -/

theorem bounded_unpack {k : ℤ} {bits : BitVec Format.binary64.numBits} (hlo : -1074 ≤ k) (hhi : k ≤ 971)
    (h : ((unpackExponent bits).toNat : ℤ) ≤ k + 1075) :
    Bounded k (UnpackedFloat.unpack Format.binary64 bits) := by
  rcases Nat.eq_zero_or_pos (unpackExponent bits).toNat with hx | hx
  · rcases Nat.eq_zero_or_pos (unpackMantissa bits).toNat with hm | hm
    · rw [unpack_of_zeros hx hm]
      trivial
    · rw [unpack_of_subnormal hx hm]
      exact hlo
  · rw [unpack_of_normal hx.ne' (by omega)]
    change _ - _ ≤ k
    omega

theorem bounded_unpack_pack {k : ℤ} {u : UnpackedFloat} (hlo : -1074 ≤ k) (hhi : k ≤ 971)
    (h : Bounded k u) : Bounded k (Float.Model.pack u).unpack := by
  cases u with
  | infinity => exact h.elim
  | notANumber => exact h.elim
  | zero s =>
    change Bounded k (UnpackedFloat.unpack _ (packedZero _ s))
    rw [unpack_packedZero]
    trivial
  | finite s m e hm =>
    change e ≤ k at h
    have hroom : ¬ 2 ^ 11 ≤ (e + (1023 : ℕ) + (52 : ℕ)).toNat + 1 := by omega
    apply bounded_unpack hlo hhi
    change ((unpackExponent (UnpackedFloat.pack Format.binary64 (.finite s m e hm))).toNat : ℤ) ≤ _
    unfold UnpackedFloat.pack
    dsimp only
    rw [exponentBias_eq, if_neg hroom]
    split
    · rw [unpackExponent_packComponents, BitVec.toNat_ofNat, Nat.mod_eq_of_lt (by omega)]
      omega
    · rw [unpackExponent_packComponents, BitVec.toNat_ofNat, Nat.zero_mod]
      omega

theorem bounded_unpack_neg {k : ℤ} {a : Float.Model} (hlo : -1074 ≤ k) (hhi : k ≤ 971)
    (h : Bounded k a.unpack) : Bounded k (-a).unpack := by
  apply bounded_unpack_pack hlo hhi
  cases hu : a.unpack with
  | zero => trivial
  | finite s m e hm => rwa [hu] at h
  | infinity => rwa [hu] at h
  | notANumber => rwa [hu] at h

theorem significand_lt {a : Float.Model} {s : Sign} {m : ℕ} {e : ℤ} {hm : 0 < m}
    (h : a.unpack = .finite s m e hm) : m < 2 ^ 53 := by
  cases hb : Binary.ofBits? a.toBits with
  | none =>
    have hfinite := Binary.isFinite_unpack_of_none hb
    rw [h] at hfinite
    cases hfinite
  | some b =>
    rw [Binary.unpack_of_some hb, Binary.unpacked] at h
    split at h
    · cases h
    · cases h
      exact (Binary.bounds hb).1

/-! ### Decimal numbers -/

theorem bounded_ofUInt64 (n : UInt64) : Bounded 12 (UnpackedFloat.ofUInt64 Format.binary64 n) := by
  have hn : n.toNat < 2 ^ 64 := n.toNat_lt
  unfold UnpackedFloat.ofUInt64 UnpackedFloat.ofNat UnpackedFloat.ofInt UnpackedFloat.normalize
  split
  · rename_i hlt
    rw [Int.compare_eq_lt] at hlt
    omega
  · trivial
  · unfold UnpackedFloat.round decreaseExponent
    dsimp only
    rw [targetExponent_eq, Int.toNat_natCast, Nat.shiftLeft_eq]
    generalize (0 - max (n.toNat.log2 + 0 - 52 : ℤ) (-1074)).toNat = shift
    refine bounded_roundWithAccuracy (by norm_num) (by omega) ?_ _ _
    have hexp : (12 - (0 - (shift : ℤ))).toNat = 12 + shift := by omega
    rw [hexp, pow_add, ← mul_assoc]
    exact Nat.mul_le_mul_right _ (hn.le.trans (by decide))

/-- A finite number with its exponent between `lo` and `hi`, and no zero. -/
def Between (lo hi : ℤ) : UnpackedFloat → Bool
  | .finite _ _ e _ => lo ≤ e && e ≤ hi
  | _ => false

theorem between_powersOfTen {p : Float} (hp : p ∈ Float.exactlyRepresentablePowersOfTen) :
    Between (-52) 21 p.toModel.unpack = true := by
  have hall : Float.exactlyRepresentablePowersOfTen.toList.all
      (fun p => Between (-52) 21 p.toModel.unpack) = true := rfl
  exact List.all_eq_true.mp hall p hp.val

/-- A product or quotient of a number that an integer of 64 bits gives and a small power of ten. -/
theorem bounded_exact {k : ℕ} {a p : Float} (hk : 124 ≤ k) (hk' : k ≤ 971)
    (ha : Bounded 12 a.toModel.unpack) (hp : Between (-52) 21 p.toModel.unpack = true) :
    Bounded k (a * p).toModel.unpack ∧ Bounded k (a / p).toModel.unpack := by
  suffices h : Bounded k (UnpackedFloat.mul Format.binary64 a.toModel.unpack p.toModel.unpack) ∧
      Bounded k (UnpackedFloat.div Format.binary64 a.toModel.unpack p.toModel.unpack) from
    h.imp (bounded_unpack_pack (by omega) (by omega)) (bounded_unpack_pack (by omega) (by omega))
  have hroom (j : ℕ) (hj : 60 ≤ j) : 2 ^ 106 ≤ roomy * 2 ^ j :=
    (show 2 ^ 106 ≤ roomy * 2 ^ 60 by decide).trans
      (Nat.mul_le_mul_left _ (Nat.pow_le_pow_right (by norm_num) hj))
  cases hup : p.toModel.unpack with
  | zero => simp [hup, Between] at hp
  | infinity => simp [hup, Between] at hp
  | notANumber => simp [hup, Between] at hp
  | finite s₂ m₂ e₂ h₂ =>
    have hm₂ := significand_lt hup
    simp only [hup, Between, Bool.and_eq_true, decide_eq_true_eq] at hp
    cases hua : a.toModel.unpack with
    | infinity => simp [hua, Bounded] at ha
    | notANumber => simp [hua, Bounded] at ha
    | zero => exact ⟨trivial, trivial⟩
    | finite s₁ m₁ e₁ h₁ =>
      have hm₁ := significand_lt hua
      simp only [hua, Bounded] at ha
      constructor
      · refine bounded_mul (by omega) (by omega) ?_ s₁ s₂
        calc m₁ * m₂ ≤ 2 ^ 53 * 2 ^ 53 := Nat.mul_le_mul hm₁.le hm₂.le
          _ = 2 ^ 106 := by norm_num
          _ ≤ roomy * 2 ^ (k - (e₁ + e₂)).toNat := hroom _ (by omega)
      · refine bounded_div (by omega) (by omega) ?_ s₁ s₂
        calc m₁ ≤ 2 ^ 106 := hm₁.le.trans (by norm_num)
          _ ≤ roomy * 2 ^ (k - (e₁ - e₂)).toNat := hroom _ (by omega)
          _ ≤ m₂ * (roomy * 2 ^ (k - (e₁ - e₂)).toNat) := Nat.le_mul_of_pos_left _ h₂

theorem bounded_unpacked_ofScientific {k c : ℕ} {e : ℤ} (hk : k ≤ 971)
    (h : c * 10 ^ e.toNat ≤ 10 ^ (-e).toNat * (roomy * 2 ^ k)) :
    Bounded k (UnpackedFloat.ofScientific Format.binary64 c e) := by
  unfold UnpackedFloat.ofScientific
  split
  · trivial
  · rename_i hc
    split
    · -- So large an exponent is out of reach.
      rename_i hbig
      change (2 : ℤ) ^ 11 < e at hbig
      have hlarge : 2 ^ (53 + k) ≤ c * 10 ^ e.toNat :=
        calc 2 ^ (53 + k) ≤ 10 ^ (53 + k) := Nat.pow_le_pow_left (by norm_num) _
          _ ≤ 10 ^ e.toNat := Nat.pow_le_pow_right (by norm_num) (by omega)
          _ ≤ c * 10 ^ e.toNat := Nat.le_mul_of_pos_left _ (Nat.pos_of_ne_zero hc)
      rw [show (-e).toNat = 0 by omega, pow_zero, one_mul] at h
      exact absurd (hlarge.trans h) (roomy_mul_pow_lt k).not_ge
    · split
      · trivial
      · split
        · rename_i hnonneg
          rw [show (-e).toNat = 0 by omega, pow_zero, one_mul] at h
          apply bounded_mul (by omega)
          · change (-(53 : ℕ) + 0 : ℤ) ≤ k
            omega
          · change c <<< 53 * 10 ^ e.toNat ≤ roomy * 2 ^ ((k : ℤ) - (-(53 : ℕ) + 0)).toNat
            rw [show ((k : ℤ) - (-(53 : ℕ) + 0)).toNat = k + 53 by omega, Nat.shiftLeft_eq, pow_add,
              ← mul_assoc, mul_right_comm]
            exact Nat.mul_le_mul_right _ h
        · rename_i hneg
          rw [show e.toNat = 0 by omega, pow_zero, mul_one] at h
          apply bounded_div (by omega) (by omega)
          rwa [show ((k : ℤ) - (0 - 0)).toNat = k by omega]

theorem bounded_ofScientific {k c e : ℕ} {negative : Bool} (hk : 124 ≤ k) (hk' : k ≤ 971)
    (h : if negative then c ≤ 10 ^ e * (roomy * 2 ^ k) else c * 10 ^ e ≤ roomy * 2 ^ k) :
    Bounded k (Float.ofScientific c negative e).toModel.unpack := by
  unfold Float.ofScientific
  split
  · rename_i hsmall
    have hsize : e < Float.exactlyRepresentablePowersOfTen.size := by
      change e < 23
      omega
    have ha : Bounded 12 c.toUInt64.toFloat.toModel.unpack :=
      bounded_unpack_pack (by norm_num) (by norm_num) (bounded_ofUInt64 _)
    obtain ⟨hmul, hdiv⟩ := bounded_exact hk hk' ha (between_powersOfTen (Array.getElem_mem hsize))
    dsimp only
    split
    · exact hdiv
    · exact hmul
  · dsimp only
    apply bounded_unpack_pack (by omega) (by omega)
    apply bounded_unpacked_ofScientific hk'
    cases negative with
    | true =>
      have he : Int.negOfNat e = -(e : ℤ) := Int.negOfNat_eq
      rw [if_pos rfl, he, show (-(e : ℤ)).toNat = 0 by omega, neg_neg, Int.toNat_natCast, pow_zero,
        mul_one]
      simpa using h
    | false =>
      rw [if_neg (by decide)]
      change c * 10 ^ (e : ℤ).toNat ≤ 10 ^ (-(e : ℤ)).toNat * _
      rw [show (-(e : ℤ)).toNat = 0 by omega, Int.toNat_natCast, pow_zero, one_mul]
      simpa using h

/-- A bound on a decimal number, cleared of negative powers. -/
theorem mul_pow_le_of_le {c l : ℕ} {e : ℤ} (h : (c : ℚ) * 10 ^ e ≤ l) :
    c * 10 ^ e.toNat ≤ 10 ^ (-e).toNat * l := by
  have hpow : (10 : ℚ) ^ (-e).toNat * 10 ^ e = 10 ^ e.toNat := by
    rw [pow_mul_zpow, ← zpow_natCast]
    congr 1
    omega
  have hq : (c : ℚ) * 10 ^ e.toNat ≤ 10 ^ (-e).toNat * l := by
    rw [← hpow, mul_left_comm]
    exact mul_le_mul_of_nonneg_left h (by positivity)
  exact_mod_cast hq

theorem bounded_magnitude {k : ℕ} {n : Numeral} (hk : 124 ≤ k) (hk' : k ≤ 971)
    (h : (n.coefficient : ℚ) * 10 ^ n.exponent ≤ (roomy * 2 ^ k : ℕ)) :
    Bounded k n.magnitude.toModel.unpack := by
  have hzero : (0 : Float).toModel.unpack = .zero .positive := by rfl
  have hnat := mul_pow_le_of_le h
  unfold Numeral.magnitude Numeral.extent
  split
  · rw [hzero]
    trivial
  · rename_i hc
    split
    · -- The numbers that overflow by their exponent alone are above every bound here.
      rename_i hbig
      have hlarge : 2 ^ (53 + k) ≤ n.coefficient * 10 ^ n.exponent.toNat :=
        calc 2 ^ (53 + k) ≤ 2 ^ (3 * n.exponent.toNat) := Nat.pow_le_pow_right (by norm_num) (by omega)
          _ = 8 ^ n.exponent.toNat := pow_mul 2 3 _
          _ ≤ 10 ^ n.exponent.toNat := Nat.pow_le_pow_left (by norm_num) _
          _ ≤ n.coefficient * 10 ^ n.exponent.toNat :=
            Nat.le_mul_of_pos_left _ (Nat.pos_of_ne_zero (by simpa using hc))
      rw [show (-n.exponent).toNat = 0 by omega, pow_zero, one_mul] at hnat
      exact absurd (hlarge.trans hnat) (roomy_mul_pow_lt k).not_ge
    · split
      · rw [hzero]
        trivial
      · apply bounded_ofScientific hk hk'
        by_cases hneg : n.exponent < 0
        · rw [show n.exponent.toNat = 0 by omega, pow_zero, mul_one,
            show (-n.exponent).toNat = n.exponent.natAbs by omega] at hnat
          simpa [hneg] using hnat
        · rw [show (-n.exponent).toNat = 0 by omega, pow_zero, one_mul,
            show n.exponent.toNat = n.exponent.natAbs by omega] at hnat
          simpa [hneg] using hnat

theorem isFinite_toFloat_of_le {k : ℕ} {n : Numeral} (hk : 124 ≤ k) (hk' : k ≤ 971)
    (h : (n.coefficient : ℚ) * 10 ^ n.exponent ≤ (roomy * 2 ^ k : ℕ)) : n.toFloat.isFinite = true := by
  have hbounded := bounded_magnitude hk hk' h
  unfold Numeral.toFloat
  split
  · exact (bounded_unpack_neg (by omega) (by omega) hbounded).isFinite
  · exact hbounded.isFinite

/-- A bound for what is read as a finite number, a little below the largest one. -/
@[irreducible] def limit : ℕ := roomy * 2 ^ 971

theorem isFinite_toFloat {n : Numeral} (h : (n.coefficient : ℚ) * 10 ^ n.exponent ≤ limit) :
    n.toFloat.isFinite = true := by
  unfold limit at h
  exact isFinite_toFloat_of_le (by norm_num) le_rfl h

/-! ### The largest numbers that are printed -/

/-- Below the middle above a nine-digit number, rounding does not pass that number. -/
theorem Nine.Rounds.value_le {n : Nine} {x : ℚ} {b : ℕ} {p : ℤ} (hn : n.Rounds x) (hx : 0 < x)
    (hlo : 10 ^ 8 ≤ b) (hhi : b < 10 ^ 9) (hlt : x < (b + 1 / 2) * 10 ^ p) : n.value ≤ b * 10 ^ p := by
  obtain ⟨d, hd, hvalue⟩ := hn.nearest
  obtain ⟨hyl, hyu⟩ := scaled_bounds hx
  have hlog : Int.log 10 x < p + 9 := by
    apply (Int.lt_zpow_iff_log_lt (by norm_num) hx).mp
    have hb : (b : ℚ) + 1 / 2 ≤ 10 ^ 9 := by
      have h : (b : ℚ) + 1 ≤ 10 ^ 9 := by exact_mod_cast hhi
      linarith
    calc x < (b + 1 / 2) * 10 ^ p := hlt
      _ ≤ 10 ^ 9 * 10 ^ p := mul_le_mul_of_nonneg_right hb (ten_zpow_pos p).le
      _ = ((10 : ℕ) : ℚ) ^ (p + 9) := by
          rw [pow_mul_zpow, add_comm]
          rfl
  rw [hvalue]
  rcases lt_or_eq_of_le (show Int.log 10 x - 8 ≤ p by omega) with hless | heq
  · have hd₉ : 10 ^ 8 ≤ d ∧ d ≤ 10 ^ 9 := hd.bounds (by exact_mod_cast hyl) (by exact_mod_cast hyu)
    calc (d : ℚ) * 10 ^ (Int.log 10 x - 8) ≤ 10 ^ 9 * 10 ^ (p - 1) :=
          mul_le_mul (by exact_mod_cast hd₉.2) (zpow_le_zpow_right₀ (by norm_num) (by omega))
            (ten_zpow_pos _).le (by norm_num)
      _ = 10 ^ 8 * 10 ^ p := by
          rw [pow_mul_zpow, pow_mul_zpow]
          congr 1
          omega
      _ ≤ b * 10 ^ p := mul_le_mul_of_nonneg_right (by exact_mod_cast hlo) (ten_zpow_pos p).le
  · rw [heq] at hd ⊢
    have hy : x / 10 ^ p < b + 1 / 2 := (div_lt_iff₀ (ten_zpow_pos p)).mpr hlt
    obtain ⟨hl, hu⟩ := abs_le.mp hd.1
    have hdb : d ≤ b := by
      have h : (d : ℚ) < b + 1 := by linarith
      norm_cast at h
      omega
    exact mul_le_mul_of_nonneg_right (by exact_mod_cast hdb) (ten_zpow_pos p).le

-- The powers are split into factors whose exponents are small enough to be evaluated.
theorem two_pow_lt : 2 ^ 1024 * 2 < 359538627 * 10 ^ 300 := by
  rw [show 1024 = 128 * 8 from rfl, show 300 = 100 * 3 from rfl, pow_mul, pow_mul]
  norm_num

theorem le_limit : 179769313 * 10 ^ 300 ≤ limit := by
  unfold limit roomy
  rw [show 971 = 203 + 256 * 3 from rfl, show 300 = 100 * 3 from rfl, pow_add, pow_mul, pow_mul]
  norm_num

theorem Binary.size_lt {bits : UInt64} {b : Binary} (hb : ofBits? bits = some b) :
    b.size < ((179769313 : ℕ) + 1 / 2) * 10 ^ (300 : ℤ) := by
  obtain ⟨hsignificand, hexponent⟩ := bounds hb
  have hlt : b.size < (2 ^ 1024 : ℕ) :=
    calc b.size < (2 ^ 53 : ℕ) * 2 ^ b.exponent :=
          mul_lt_mul_of_pos_right (by exact_mod_cast hsignificand) (zpow_pos (by norm_num) _)
      _ ≤ (2 ^ 53 : ℕ) * 2 ^ ((971 : ℕ) : ℤ) :=
          mul_le_mul_of_nonneg_left (zpow_le_zpow_right₀ (by norm_num) hexponent) (Nat.cast_nonneg _)
      _ = (2 ^ 1024 : ℕ) := by
          rw [zpow_natCast, Nat.cast_pow, Nat.cast_pow, Nat.cast_ofNat, ← pow_add]
  have htwice : (2 ^ 1024 : ℕ) * (2 : ℚ) < 359538627 * 10 ^ (300 : ℤ) := by
    exact_mod_cast two_pow_lt
  rw [Nat.cast_ofNat]
  linarith

/-- The digits of a finite number never stand for more than can be read back. -/
theorem Nine.Rounds.value_le_limit {n : Nine} {b : Binary} {bits : UInt64}
    (hb : Binary.ofBits? bits = some b) (hpos : 0 < b.significand) (hn : n.Rounds b.size) :
    n.value ≤ limit := by
  have hsize : 0 < b.size := mul_pos (by exact_mod_cast hpos) (zpow_pos (by norm_num) _)
  have hle := hn.value_le hsize (by norm_num) (by norm_num) (Binary.size_lt hb)
  exact hle.trans (by exact_mod_cast le_limit)

end LineBasic.Number
