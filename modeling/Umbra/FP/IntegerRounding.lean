import Umbra.FP.RoundTrip
import Umbra.FP.ToFixed

/-!
Rounding to an integer in two's complement.

`FPToFixed` and `FPRoundInt` shift a signed mantissa to the right and add one
where the mode rounds up.  The shifted word is the integer part of the number,
the residual error tells how large the fraction is, and the sum is the integer
the rounding mode makes of the number.
-/

namespace Umbra.FP

open Umbra.Lib

def residualOfFract (f : ℚ) : ResidualError :=
  if f = 0 then .zero else if f < 1 / 2 then .lessThanHalf
  else if f = 1 / 2 then .half else .greaterThanHalf

theorem residualOfFract_of_lt {f : ℚ} (hpos : 0 < f) (hlt : f < 1 / 2) :
    residualOfFract f = .lessThanHalf := by
  rw [residualOfFract, if_neg hpos.ne', if_pos hlt]

theorem residualOfFract_of_gt {f : ℚ} (hgt : 1 / 2 < f) : residualOfFract f = .greaterThanHalf := by
  rw [residualOfFract, if_neg (by linarith), if_neg (by linarith), if_neg hgt.ne']

theorem intCast_mul_zpow_neg (a : ℤ) (n : ℕ) :
    (a : ℚ) * 2 ^ (-(n : ℤ)) = a / ((2 ^ n : ℕ) : ℚ) := by
  rw [zpow_neg, zpow_natCast, Nat.cast_pow, Nat.cast_ofNat, div_eq_mul_inv]

theorem intCast_mul_zpow (a : ℤ) (n : ℕ) : (a : ℚ) * 2 ^ (n : ℤ) = ((a * 2 ^ n : ℤ) : ℚ) := by
  push_cast
  rw [zpow_natCast]

theorem floor_toInt_div_of_ge (w : BitVec 64) {n : ℕ} (hn : 64 ≤ n) :
    w.toInt / 2 ^ n = if w.msb then -1 else 0 := by
  have hlow : -2 ^ 63 ≤ w.toInt := w.le_toInt
  have hhigh : w.toInt < 2 ^ 63 := w.toInt_lt
  have hpow : (2 : ℤ) ^ 64 ≤ 2 ^ n := pow_le_pow_right₀ (by norm_num) hn
  rw [BitVec.msb_eq_toInt]
  by_cases hneg : w.toInt < 0
  · simp only [hneg, decide_true, ↓reduceIte]
    exact Int.ediv_eq_neg_one_of_neg_of_le hneg (by omega)
  · simp only [hneg, decide_false, Bool.false_eq_true, ↓reduceIte]
    exact Int.ediv_eq_zero_of_lt (by omega) (by omega)

theorem arithmeticShiftLeft_eq (w : BitVec 64) (e : ℤ) :
    arithmeticShiftLeft w e = BitVec.ofInt 64 ⌊(w.toInt : ℚ) * 2 ^ e⌋ := by
  unfold arithmeticShiftLeft
  rcases le_or_gt 0 e with hnonneg | hneg
  · obtain ⟨n, rfl⟩ := Int.eq_ofNat_of_zero_le hnonneg
    have hmul : BitVec.ofInt 64 (w.toInt * 2 ^ n) = w <<< n := by
      rw [BitVec.ofInt_mul, BitVec.ofInt_toInt, BitVec.shiftLeft_eq_mul_twoPow]
      congr 1
      refine BitVec.eq_of_toNat_eq ?_
      rw [BitVec.toNat_ofInt, BitVec.toNat_twoPow]
      exact_mod_cast rfl
    rw [intCast_mul_zpow, Int.floor_intCast, hmul, if_neg (not_lt.mpr hnonneg), Int.toNat_natCast]
    split_ifs with hlarge
    · exact (BitVec.shiftLeft_eq_zero (by omega)).symm
    · rfl
  · obtain ⟨n, hn⟩ := Int.eq_ofNat_of_zero_le (show 0 ≤ -e by omega)
    obtain rfl : e = -(n : ℤ) := by omega
    rw [intCast_mul_zpow_neg, Rat.floor_intCast_div_natCast, if_neg (by omega), if_pos hneg, neg_neg,
      Int.toNat_natCast]
    push_cast
    split_ifs with hlarge hmsb
    · rw [floor_toInt_div_of_ge w (by omega), if_pos hmsb]
      rfl
    · rw [floor_toInt_div_of_ge w (by omega), if_neg hmsb]
      rfl
    · rw [BitVec.sshiftRight_eq, Int.shiftRight_eq_div_pow]
      push_cast
      rfl

theorem residual_eq_residualOfFract (r k : ℕ) :
    residual r k = residualOfFract ((r : ℚ) / 2 ^ k) := by
  have hpos : (0 : ℚ) < 2 ^ k := by positivity
  have hlt : (r : ℚ) / 2 ^ k < 1 / 2 ↔ 2 * r < 2 ^ k := by
    rw [div_lt_div_iff₀ hpos two_pos, one_mul, mul_comm]
    exact_mod_cast Iff.rfl
  have heq : (r : ℚ) / 2 ^ k = 1 / 2 ↔ 2 * r = 2 ^ k := by
    rw [div_eq_div_iff hpos.ne' two_ne_zero, one_mul, mul_comm]
    exact_mod_cast Iff.rfl
  simp only [residual, residualOfFract, hlt, heq, div_eq_zero_iff, Nat.cast_eq_zero, hpos.ne',
    or_false]

theorem toInt_emod_two_pow (w : BitVec 64) {n : ℕ} (hn : n ≤ 64) :
    w.toInt % 2 ^ n = ((w.toNat % 2 ^ n : ℕ) : ℤ) := by
  have hdvd : (2 : ℤ) ^ n ∣ 2 ^ 64 := pow_dvd_pow 2 hn
  rw [BitVec.toInt_eq_toNat_cond, Int.natCast_emod, Nat.cast_pow, Nat.cast_pow, Nat.cast_ofNat]
  split
  · rfl
  · rw [Int.sub_emod, Int.emod_eq_zero_of_dvd hdvd, sub_zero, Int.emod_emod]

/-- The residual error tells how large the fraction is that the shift cuts off. -/
theorem residualErrorOnRightShift_eq_fract (w : BitVec 64) (e : ℤ) :
    residualErrorOnRightShift w (-e) = residualOfFract (Int.fract ((w.toInt : ℚ) * 2 ^ e)) := by
  rcases le_or_gt 0 e with hnonneg | hneg
  · obtain ⟨n, rfl⟩ := Int.eq_ofNat_of_zero_le hnonneg
    rw [intCast_mul_zpow, Int.fract_intCast, residualErrorOnRightShift, if_pos (.inl (by omega))]
    rfl
  · obtain ⟨n, hn⟩ := Int.eq_ofNat_of_zero_le (show 0 ≤ -e by omega)
    obtain rfl : e = -(n : ℤ) := by omega
    rw [intCast_mul_zpow_neg, Int.fract_div_intCast_eq_div_intCast_mod, neg_neg]
    push_cast
    rcases le_or_gt n 64 with hsmall | hlarge
    · rw [toInt_emod_two_pow w hsmall, residualErrorOnRightShift_eq fun h => absurd hsmall (by omega),
        residual_eq_residualOfFract]
      push_cast
      rfl
    · -- All that is left is the sign.
      have hpow : (2 : ℤ) ^ 65 ≤ 2 ^ n := pow_le_pow_right₀ (by norm_num) hlarge
      have hlow : -2 ^ 63 ≤ w.toInt := w.le_toInt
      have hhigh : w.toInt < 2 ^ 63 := w.toInt_lt
      have hpos : (0 : ℚ) < 2 ^ n := by positivity
      have hpow' : (2 : ℚ) ^ 65 ≤ 2 ^ n := by exact_mod_cast hpow
      by_cases hzero : w = 0#64
      · subst hzero
        simp [residualErrorOnRightShift, residualOfFract]
      have hne : w.toInt ≠ 0 := fun h => hzero (BitVec.eq_of_toInt_eq (by simpa using h))
      rw [residualErrorOnRightShift, if_neg (by simp [hzero]; omega), if_pos (by omega),
        BitVec.msb_eq_toInt]
      by_cases hsign : w.toInt < 0
      · have hmod : w.toInt % 2 ^ n = w.toInt + 2 ^ n := by
          rw [← Int.add_emod_right]
          exact Int.emod_eq_of_lt (by omega) (by omega)
        have hlow' : (-2 ^ 63 : ℚ) ≤ w.toInt := by exact_mod_cast hlow
        rw [hmod, decide_eq_true hsign, if_pos rfl]
        refine (residualOfFract_of_gt ?_).symm
        push_cast
        rw [div_lt_div_iff₀ two_pos hpos]
        linarith
      · rw [Int.emod_eq_of_lt (by omega) (by omega), decide_eq_false hsign,
          if_neg Bool.false_ne_true]
        have hpos' : (0 : ℚ) < w.toInt := by exact_mod_cast (show 0 < w.toInt by omega)
        have hhigh' : (w.toInt : ℚ) < 2 ^ 63 := by exact_mod_cast hhigh
        refine (residualOfFract_of_lt (by positivity) ?_).symm
        rw [div_lt_div_iff₀ hpos two_pos]
        linarith

theorem getLsbD_zero_ofInt (z : ℤ) : (BitVec.ofInt 64 z).getLsbD 0 = decide (Odd z) := by
  have hodd : Odd z ↔ z % 2 = 1 := Int.odd_iff
  rw [BitVec.getLsbD, BitVec.toNat_ofInt, Nat.testBit_zero, decide_eq_decide, hodd]
  push_cast
  omega

theorem msb_ofInt {z : ℤ} (hlow : -2 ^ 63 ≤ z) (hhigh : z < 2 ^ 63) :
    (BitVec.ofInt 64 z).msb = decide (z < 0) := by
  rw [BitVec.msb_eq_toInt, BitVec.toInt_ofInt_eq_self (by norm_num) hlow hhigh]

theorem residualOfFract_eq_zero_iff {f : ℚ} : residualOfFract f = .zero ↔ f = 0 := by
  unfold residualOfFract
  split_ifs <;> simp_all

theorem residualOfFract_eq_half_iff {f : ℚ} : residualOfFract f = .half ↔ f = 1 / 2 := by
  unfold residualOfFract
  split_ifs with h0 hlt heq
  · simp [h0]
  · exact iff_of_false (by decide) hlt.ne
  · exact iff_of_true rfl heq
  · exact iff_of_false (by decide) heq

theorem residualOfFract_eq_greaterThanHalf_iff {f : ℚ} :
    residualOfFract f = .greaterThanHalf ↔ 1 / 2 < f := by
  unfold residualOfFract
  split_ifs with h0 hlt heq
  · simp [h0]
  · exact iff_of_false (by decide) (not_lt.mpr hlt.le)
  · exact iff_of_false (by decide) (not_lt.mpr heq.le)
  · exact iff_of_true rfl (lt_of_le_of_ne (not_lt.mp hlt) (Ne.symm heq))

theorem residualOfFract_eq_lessThanHalf_iff {f : ℚ} (hf : 0 ≤ f) :
    residualOfFract f = .lessThanHalf ↔ 0 < f ∧ f < 1 / 2 := by
  unfold residualOfFract
  split_ifs with h0 hlt heq
  · simp [h0]
  · exact iff_of_true rfl ⟨lt_of_le_of_ne hf (Ne.symm h0), hlt⟩
  · exact iff_of_false (by decide) fun h => hlt h.2
  · exact iff_of_false (by decide) fun h => hlt h.2

/-- For every mantissa, read with its sign, and every shift the residual error says where the
fraction that is cut off lies. -/
theorem residualErrorOnRightShift_classifies (mantissa : BitVec 64) (shiftAmount : ℤ) :
    (residualErrorOnRightShift mantissa shiftAmount = .zero ↔
      Int.fract ((mantissa.toInt : ℚ) / 2 ^ shiftAmount) = 0) ∧
    (residualErrorOnRightShift mantissa shiftAmount = .lessThanHalf ↔
      0 < Int.fract ((mantissa.toInt : ℚ) / 2 ^ shiftAmount) ∧
        Int.fract ((mantissa.toInt : ℚ) / 2 ^ shiftAmount) < 1 / 2) ∧
    (residualErrorOnRightShift mantissa shiftAmount = .half ↔
      Int.fract ((mantissa.toInt : ℚ) / 2 ^ shiftAmount) = 1 / 2) ∧
    (residualErrorOnRightShift mantissa shiftAmount = .greaterThanHalf ↔
      1 / 2 < Int.fract ((mantissa.toInt : ℚ) / 2 ^ shiftAmount) ∧
        Int.fract ((mantissa.toInt : ℚ) / 2 ^ shiftAmount) < 1) := by
  have hresidual : residualErrorOnRightShift mantissa shiftAmount =
      residualOfFract (Int.fract ((mantissa.toInt : ℚ) / 2 ^ shiftAmount)) := by
    have h := residualErrorOnRightShift_eq_fract mantissa (-shiftAmount)
    rwa [neg_neg, zpow_neg, ← div_eq_mul_inv] at h
  rw [hresidual]
  refine ⟨residualOfFract_eq_zero_iff, residualOfFract_eq_lessThanHalf_iff (Int.fract_nonneg _),
    residualOfFract_eq_half_iff, residualOfFract_eq_greaterThanHalf_iff.trans ?_⟩
  exact (and_iff_left (Int.fract_lt_one _)).symm

theorem fixedRoundsUp_iff {rounding : RoundingMode} (hodd : rounding ≠ .toOdd) {x : ℚ}
    (hrange : Int.fract x ≠ 0 → -2 ^ 63 ≤ ⌊x⌋ ∧ ⌊x⌋ < 2 ^ 63) :
    fixedRoundsUp rounding (BitVec.ofInt 64 ⌊x⌋) (residualOfFract (Int.fract x)) = true ↔
      rounding.RoundsUp x := by
  have hmsb : Int.fract x ≠ 0 → (BitVec.ofInt 64 ⌊x⌋).msb = decide (¬0 ≤ x) := fun hne => by
    rw [msb_ofInt (hrange hne).1 (hrange hne).2, decide_eq_decide, ← Int.floor_nonneg, not_le]
  have hlsb := getLsbD_zero_ofInt ⌊x⌋
  cases rounding with
  | toNearestTieEven =>
      simp only [fixedRoundsUp, Bool.or_eq_true, Bool.and_eq_true, decide_eq_true_eq, hlsb,
        residualOfFract_eq_half_iff, residualOfFract_eq_greaterThanHalf_iff]
      rfl
  | towardsPlusInfinity =>
      simp only [fixedRoundsUp, decide_eq_true_eq, ne_eq, residualOfFract_eq_zero_iff]
      rfl
  | towardsMinusInfinity => exact iff_of_false Bool.false_ne_true id
  | towardsZero =>
      simp only [fixedRoundsUp, Bool.and_eq_true, decide_eq_true_eq, ne_eq,
        residualOfFract_eq_zero_iff]
      refine and_congr_right fun hne => ?_
      rw [hmsb hne, decide_eq_true_eq]
  | toNearestTieAwayFromZero =>
      simp only [fixedRoundsUp, Bool.or_eq_true, Bool.and_eq_true, decide_eq_true_eq,
        Bool.not_eq_true', residualOfFract_eq_half_iff, residualOfFract_eq_greaterThanHalf_iff]
      refine or_congr_right (and_congr_right fun hhalf => ?_)
      rw [hmsb (by rw [hhalf]; norm_num), decide_eq_false_iff_not, not_not]
  | toOdd => exact absurd rfl hodd

section Mantissa

variable {sign : Bool} {mantissa : BitVec 64} {e : ℤ} {rounding : RoundingMode}

def fixedValue (sign : Bool) (mantissa : BitVec 64) (e : ℤ) : ℚ :=
  signed sign (mantissa.toNat * 2 ^ e)

theorem toInt_signedMantissa (hhigh : mantissa.toNat < 2 ^ 63) :
    ((if sign then negate mantissa else mantissa).toInt : ℚ) = signed sign mantissa.toNat := by
  have htoInt : mantissa.toInt = mantissa.toNat := by
    rw [BitVec.toInt_eq_toNat_of_lt]
    omega
  cases sign with
  | false => simp [signed, htoInt]
  | true =>
      have hneg : negate mantissa = -mantissa := (BitVec.neg_eq_not_add mantissa).symm
      have hne : mantissa ≠ BitVec.intMin 64 := by
        rintro rfl
        exact absurd hhigh (by decide)
      simp only [signed, ↓reduceIte, hneg]
      rw [BitVec.toInt_neg_of_ne_intMin hne, htoInt]
      push_cast
      rfl

theorem signedMantissa_mul (hhigh : mantissa.toNat < 2 ^ 63) :
    ((if sign then negate mantissa else mantissa).toInt : ℚ) * 2 ^ e =
      fixedValue sign mantissa e := by
  rw [toInt_signedMantissa hhigh, signed_mul, fixedValue]

theorem neg_of_fract_ne_zero (hhigh : mantissa.toNat < 2 ^ 63)
    (hfract : Int.fract (fixedValue sign mantissa e) ≠ 0) : e < 0 := by
  by_contra hnonneg
  obtain ⟨n, rfl⟩ := Int.eq_ofNat_of_zero_le (not_lt.mp hnonneg)
  refine hfract ?_
  rw [← signedMantissa_mul hhigh, intCast_mul_zpow, Int.fract_intCast]

/-- Where a number has a fraction, its integer part is far from the limits of a word. -/
theorem floor_fixedValue_range (hhigh : mantissa.toNat < 2 ^ 63)
    (hfract : Int.fract (fixedValue sign mantissa e) ≠ 0) :
    -2 ^ 63 ≤ ⌊fixedValue sign mantissa e⌋ ∧ ⌊fixedValue sign mantissa e⌋ < 2 ^ 63 := by
  have hneg := neg_of_fract_ne_zero hhigh hfract
  have hpos : (0 : ℚ) < 2 ^ e := by positivity
  have hone : (2 : ℚ) ^ e ≤ 1 := zpow_le_one_of_nonpos₀ one_le_two hneg.le
  have hm : (mantissa.toNat : ℚ) < 2 ^ 63 := by exact_mod_cast hhigh
  have hm' : (0 : ℚ) ≤ mantissa.toNat := Nat.cast_nonneg _
  have hmagnitude : (mantissa.toNat : ℚ) * 2 ^ e < 2 ^ 63 :=
    lt_of_le_of_lt (mul_le_of_le_one_right hm' hone) hm
  have hmagnitude' : (0 : ℚ) ≤ mantissa.toNat * 2 ^ e := mul_nonneg hm' hpos.le
  rw [Int.le_floor, Int.floor_lt]
  cases sign with
  | false =>
      simp only [fixedValue, signed, Bool.false_eq_true, ↓reduceIte]
      push_cast
      constructor <;> linarith
  | true =>
      simp only [fixedValue, signed, ↓reduceIte]
      push_cast
      constructor <;> linarith

theorem rounded_fixedValue (hhigh : mantissa.toNat < 2 ^ 63) (hodd : rounding ≠ .toOdd) :
    (if fixedRoundsUp rounding (BitVec.ofInt 64 ⌊fixedValue sign mantissa e⌋)
        (residualOfFract (Int.fract (fixedValue sign mantissa e))) = true then
        BitVec.ofInt 64 ⌊fixedValue sign mantissa e⌋ + 1#64
      else BitVec.ofInt 64 ⌊fixedValue sign mantissa e⌋) =
        BitVec.ofInt 64 (rounding.toInteger (fixedValue sign mantissa e)) := by
  have hup := fixedRoundsUp_iff hodd (@floor_fixedValue_range sign mantissa e hhigh)
  split
  · rename_i h
    rw [toInteger_of_roundsUp (hup.mp h), BitVec.ofInt_add]
    rfl
  · rename_i h
    rw [toInteger_of_not_roundsUp fun h' => h (hup.mpr h')]

theorem fixedValue_eq (value : FPUnpacked) (fbits : ℕ) :
    fixedValue value.sign value.mantissa (value.exponent + fbits - 62) =
      value.value * 2 ^ fbits := by
  rw [fixedValue, FPUnpacked.value, signed_mul, mul_assoc, ← zpow_natCast, zpow_mul_two_zpow]
  congr 3
  ring

end Mantissa

end Umbra.FP
