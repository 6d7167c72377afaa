import Umbra.FP.MulAdd
import Umbra.FP.UnpackSpec

/-!
What `FusedMulAdd` computes.

The exact sum is rounded to odd in every branch, with enough bits for the later
rounding not to notice.  The one exception is a difference in which more than 60
leading bits cancel: its result is taken to be `2 ^ 62` times what it is.
-/

namespace Umbra.FP

open Umbra.Common Umbra.Lib

variable {info : FPInfo}

/-- The unpacked number is the magnitude, rounded to odd if need be. -/
structure Approximates (y : ℚ) (u : FPUnpacked) : Prop where
  rounds : RoundsToOdd (y * 2 ^ (62 - u.exponent)) u.mantissa.toNat
  wide : (u.mantissa.toNat : ℚ) = y * 2 ^ (62 - u.exponent) ∨ 2 ^ 60 ≤ u.mantissa.toNat

namespace Approximates

variable {y : ℚ} {u : FPUnpacked}

theorem eq_mul (y : ℚ) (u : FPUnpacked) :
    y = y * 2 ^ (62 - u.exponent) * 2 ^ (u.exponent - 62) := by
  rw [mul_assoc, ← zpow_add₀ two_ne_zero, sub_add_sub_cancel, sub_self, zpow_zero, mul_one]

theorem exact (hm : u.magnitude = y) : Approximates y u := by
  have : (u.mantissa.toNat : ℚ) = y * 2 ^ (62 - u.exponent) := by
    rw [← hm, FPUnpacked.magnitude, mul_assoc, ← zpow_add₀ two_ne_zero, sub_add_sub_cancel,
      sub_self, zpow_zero, mul_one]
  exact ⟨.inl this, .inl this⟩

theorem ne_zero (h : Approximates y u) (hy : 0 < y) : u.mantissa ≠ 0#64 := by
  rintro hzero
  rcases h.wide with heq | hle
  · have hpos : 0 < y * 2 ^ (62 - u.exponent) := by positivity
    rw [← heq, hzero] at hpos
    exact absurd hpos (by simp)
  · rw [hzero] at hle
    exact absurd hle (by decide)

theorem halved (h : Approximates y u) (k : ℕ) :
    Approximates (y / 2 ^ k) { u with exponent := u.exponent - k } := by
  have hscaled : y / 2 ^ k * 2 ^ (62 - (u.exponent - k)) = y * 2 ^ (62 - u.exponent) := by
    rw [div_eq_mul_inv, ← zpow_natCast, ← zpow_neg, mul_assoc, ← zpow_add₀ two_ne_zero]
    congr 2
    ring
  exact ⟨by rw [hscaled]; exact h.rounds, by rw [hscaled]; exact h.wide⟩

/-- The rounding to the format does not notice the rounding to odd. -/
theorem sameRounding (h : Approximates y u) (mode : Mode) :
    info.format.SameRounding mode u.value (signed u.sign y) := by
  rcases h.wide with heq | hle
  · have hvalue : u.value = signed u.sign y := by
      rw [FPUnpacked.value, heq, ← eq_mul]
    rw [hvalue]
    exact .refl _ _ _
  · have hwide : 2 ^ (info.format.fraction + 2) ≤ u.mantissa.toNat := by
      refine le_trans (Nat.pow_le_pow_right (by norm_num) ?_) hle
      have := info.explicitMantissaWidth_le
      change info.explicitMantissaWidth + 2 ≤ 60
      omega
    have hround := info.format.round_roundsToOdd mode u.sign h.rounds hwide (u.exponent - 62)
    rw [← eq_mul] at hround
    exact hround.symm

end Approximates

/-! ### The product -/

structure Wide (y : ℚ) (exponent : ℤ) (w : ℕ) : Prop where
  value_eq : (w : ℚ) * 2 ^ (exponent - 124) = y
  le_value : 2 ^ 124 ≤ w
  value_lt : w < 2 ^ 125
  dvd_value : 2 ^ 19 ∣ w

variable {op1 op2 : FPUnpacked} {e : ℤ} {w result : U128}

/-- The product is exact in 128 bits, and normalized. -/
theorem unpackedProduct_spec (h1 : op1.Normal info) (h2 : op2.Normal info) :
    Wide (op1.magnitude * op2.magnitude) (unpackedProduct op1 op2).1
      (unpackedProduct op1 op2).2.toNat := by
  have hproduct := U128.toNat_multiply64To128 op1.mantissa op2.mantissa
  have hlow : 2 ^ 62 * 2 ^ 62 ≤ op1.mantissa.toNat * op2.mantissa.toNat :=
    Nat.mul_le_mul h1.le_mantissa h2.le_mantissa
  have hhigh : op1.mantissa.toNat * op2.mantissa.toNat < 2 ^ 63 * 2 ^ 63 :=
    Nat.mul_lt_mul'' h1.mantissa_lt h2.mantissa_lt
  have hdvd : 2 ^ 20 ∣ op1.mantissa.toNat * op2.mantissa.toNat := by
    have hF := info.explicitMantissaWidth_le
    have hten : ∀ {v : FPUnpacked}, v.Normal info → 2 ^ 10 ∣ v.mantissa.toNat := fun hv =>
      dvd_trans (pow_dvd_pow 2 (by omega)) hv.dvd_mantissa
    rw [show 2 ^ 20 = 2 ^ 10 * 2 ^ 10 by norm_num]
    exact mul_dvd_mul (hten h1) (hten h2)
  have hvalue : op1.magnitude * op2.magnitude =
      ((op1.mantissa.toNat * op2.mantissa.toNat : ℕ) : ℚ) *
        2 ^ (op1.exponent + op2.exponent - 124) := by
    rw [FPUnpacked.magnitude, FPUnpacked.magnitude,
      show op1.exponent + op2.exponent - 124 = (op1.exponent - 62) + (op2.exponent - 62) by ring,
      zpow_add₀ two_ne_zero]
    push_cast
    ring
  have hbit : (U128.multiply64To128 op1.mantissa op2.mantissa).bit (productPointPosition + 1) = true ↔
      2 ^ 125 ≤ op1.mantissa.toNat * op2.mantissa.toNat := by
    rw [U128.bit_eq_testBit, hproduct, Nat.testBit_eq_decide_div_mod_eq, decide_eq_true_eq]
    change _ / 2 ^ 125 % 2 = 1 ↔ _
    omega
  rw [hvalue]
  unfold unpackedProduct
  simp only
  split_ifs with hset
  · have hge := hbit.mp hset
    have hhalf : ((U128.multiply64To128 op1.mantissa op2.mantissa).shiftRight 1).toNat * 2 =
        op1.mantissa.toNat * op2.mantissa.toNat := by
      rw [U128.toNat_shiftRight_of_nonneg _ (by norm_num), hproduct]
      exact Nat.div_mul_cancel (dvd_trans (by norm_num) hdvd)
    rw [← hhalf] at hlow hhigh hdvd hge ⊢
    dsimp only
    refine ⟨?_, by omega, by omega, ?_⟩
    · push_cast
      rw [show op1.exponent + op2.exponent + 1 - 124 = op1.exponent + op2.exponent - 124 + 1 by ring,
        zpow_add_one₀ two_ne_zero]
      ring
    · exact Nat.dvd_of_mul_dvd_mul_right two_pos (by simpa using hdvd)
  · have hlt := not_le.mp fun h => hset (hbit.mpr h)
    rw [← hproduct] at hlow hlt hdvd ⊢
    exact ⟨rfl, by omega, hlt, dvd_trans (by norm_num) hdvd⟩

theorem unpackedProduct_eq_zero (h : op1.mantissa = 0#64 ∨ op2.mantissa = 0#64) :
    (unpackedProduct op1 op2).2 = U128.ofU64 0#64 := by
  have hproduct : (U128.multiply64To128 op1.mantissa op2.mantissa).toNat = 0 := by
    rw [U128.toNat_multiply64To128]
    rcases h with h | h <;> simp [h]
  rw [U128.toNat_eq_zero_iff] at hproduct
  rw [unpackedProduct, hproduct]
  rfl

/-! ### Reducing the mantissa -/

theorem toNat_reduced (w : U128) :
    (w.upper ||| if w.lower ≠ 0#64 then 1#64 else 0#64).toNat = stickyShift w.toNat 64 := by
  have hlower := w.lower.isLt
  have hmod : w.toNat % 2 ^ 64 = w.lower.toNat := by
    unfold U128.toNat
    omega
  have hdiv : w.toNat / 2 ^ 64 = w.upper.toNat := by
    unfold U128.toNat
    omega
  rw [stickyShift, hmod, hdiv, BitVec.toNat_or]
  by_cases hzero : w.lower = 0#64
  · simp [hzero]
  · have hne : w.lower.toNat ≠ 0 := fun h => hzero (BitVec.eq_of_toNat_eq h)
    rw [if_pos hzero, if_neg hne]
    rfl

theorem reduceMantissa_spec {y : ℚ} (sign : Bool)
    (hround : RoundsToOdd (y * 2 ^ (60 - e)) (stickyShift w.toNat 64)) (hlow : 2 ^ 124 ≤ w.toNat)
    (hhigh : w.toNat < 2 ^ 127) :
    (reduceMantissa sign e w).sign = sign ∧ Approximates y (reduceMantissa sign e w) ∧
      (reduceMantissa sign e w).mantissa.msb = false := by
  have hmantissa : (reduceMantissa sign e w).mantissa.toNat = stickyShift w.toNat 64 :=
    toNat_reduced w
  have hexponent : (reduceMantissa sign e w).exponent = e + 2 := rfl
  refine ⟨rfl, ⟨?_, .inr ?_⟩, msb_eq_false_of_lt ?_⟩
  · rw [hmantissa, hexponent, show 62 - (e + 2) = 60 - e by ring]
    exact hround
  · rw [hmantissa]
    exact le_stickyShift (by norm_num) hlow
  · rw [hmantissa]
    exact stickyShift_lt (by norm_num) hhigh

theorem reduceMantissa_of_roundsToOdd {y t : ℚ} (sign : Bool) (ht : RoundsToOdd t w.toNat)
    (hy : t * 2 ^ (e - 124) = y) (hlow : 2 ^ 124 ≤ w.toNat) (hhigh : w.toNat < 2 ^ 127) :
    (reduceMantissa sign e w).sign = sign ∧ Approximates y (reduceMantissa sign e w) ∧
      (reduceMantissa sign e w).mantissa.msb = false := by
  refine reduceMantissa_spec sign ?_ hlow hhigh
  have heq : y * 2 ^ (60 - e) = t / 2 ^ 64 := by
    rw [← hy, mul_assoc, ← zpow_add₀ two_ne_zero, show e - 124 + (60 - e) = -((64 : ℕ) : ℤ) by
      push_cast; ring, zpow_neg, zpow_natCast, div_eq_mul_inv]
  rw [heq]
  exact ht.shift 64

/-! ### Addition -/

theorem stickyLogicalShiftRight_spec {amount : ℤ}
    (hfits : amount < 0 → w.toNat * 2 ^ (-amount).toNat < 2 ^ 128) :
    RoundsToOdd (w.toNat * 2 ^ (-amount)) (w.stickyLogicalShiftRight amount).toNat := by
  rcases lt_or_ge amount 0 with hneg | hnonneg
  · left
    rw [U128.toNat_stickyLogicalShiftRight_of_neg w hneg, Nat.mod_eq_of_lt (hfits hneg)]
    push_cast
    rw [← zpow_natCast, Int.toNat_of_nonneg (by omega)]
  · obtain ⟨n, rfl⟩ := Int.eq_ofNat_of_zero_le hnonneg
    rw [U128.toNat_stickyLogicalShiftRight w hnonneg, zpow_neg, zpow_natCast, ← div_eq_mul_inv]
    exact (RoundsToOdd.exact _).shift n

theorem natCast_mul_zpow_lt {n a b : ℕ} (h : n < 2 ^ a) (hab : a + e ≤ b) :
    (n : ℚ) * 2 ^ e < 2 ^ b := by
  have hn : (n : ℚ) < 2 ^ (a : ℤ) := by exact_mod_cast h
  calc (n : ℚ) * 2 ^ e < 2 ^ (a : ℤ) * 2 ^ e := mul_lt_mul_of_pos_right hn (by positivity)
    _ = 2 ^ (a + e) := zpow_mul_two_zpow _ _
    _ ≤ 2 ^ (b : ℤ) := zpow_le_zpow_right₀ one_le_two hab
    _ = 2 ^ b := zpow_natCast _ _

theorem toNat_stickyLogicalShiftRight_lt {amount : ℤ} {a b : ℕ} (hb : 0 < b) (hb' : b ≤ 128)
    (hw : w.toNat < 2 ^ a) (hab : a - amount ≤ b) :
    (w.stickyLogicalShiftRight amount).toNat < 2 ^ b ∧
      RoundsToOdd (w.toNat * 2 ^ (-amount)) (w.stickyLogicalShiftRight amount).toNat := by
  have hlt : (w.toNat : ℚ) * 2 ^ (-amount) < 2 ^ b := natCast_mul_zpow_lt hw (by omega)
  have hround : RoundsToOdd (w.toNat * 2 ^ (-amount)) (w.stickyLogicalShiftRight amount).toNat := by
    refine stickyLogicalShiftRight_spec fun hneg => ?_
    have hle : (2 : ℚ) ^ b ≤ 2 ^ 128 := pow_le_pow_right₀ one_le_two hb'
    rw [← Int.toNat_of_nonneg (show 0 ≤ -amount by omega), zpow_natCast] at hlt
    exact_mod_cast hlt.trans_le hle
  refine ⟨?_, hround⟩
  rw [hround.lt_iff (even_two_pow hb)]
  exact_mod_cast hlt

variable {addend : FPUnpacked} {productExponent : ℤ} {productValue : U128} {p : ℚ}

/-- A sum of equal signs is rounded to odd once, in 64 bits. -/
theorem fusedAddition_spec (ha : addend.Normal info)
    (hp : Wide p productExponent productValue.toNat) :
    let u := fusedAddition addend addend.sign productExponent productValue
    u.sign = addend.sign ∧ Approximates (addend.magnitude + p) u ∧
      (u.mantissa.msb = true → addend.exponent ≤ u.exponent) := by
  have hA := ha.mantissa_lt
  have hA' := ha.le_mantissa
  have hAeven : Even addend.mantissa.toNat := by
    have hF := info.explicitMantissaWidth_le
    exact even_iff_two_dvd.mpr (dvd_trans (dvd_pow_self 2 (by omega)) ha.dvd_mantissa)
  have hPeven : Even productValue.toNat :=
    even_iff_two_dvd.mpr (dvd_trans (by norm_num) hp.dvd_value)
  unfold fusedAddition
  simp only [normalizedPointPosition]
  split_ifs with hdiff
  · -- The addend is the greater: the product is shifted to its place.
    obtain ⟨hlt, hround⟩ := toNat_stickyLogicalShiftRight_lt (b := 63) (by norm_num) (by norm_num)
      hp.value_lt (show (125 : ℕ) - ((62 : ℕ) - (productExponent - addend.exponent)) ≤ (63 : ℕ) by
        push_cast; omega)
    generalize productValue.stickyLogicalShiftRight _ = shifted at hlt hround ⊢
    have hlower : shifted.lower.toNat = shifted.toNat := by
      have := shifted.lower.isLt
      unfold U128.toNat at hlt ⊢
      omega
    have hsum : (addend.mantissa + shifted.lower).toNat =
        addend.mantissa.toNat + shifted.toNat := by
      rw [BitVec.toNat_add, hlower, Nat.mod_eq_of_lt (by omega)]
    refine ⟨rfl, ⟨?_, .inr ?_⟩, fun _ => le_rfl⟩
    · dsimp only
      rw [hsum]
      have heq : (addend.magnitude + p) * 2 ^ (62 - addend.exponent) =
          addend.mantissa.toNat + productValue.toNat *
            2 ^ (-((62 : ℕ) - (productExponent - addend.exponent))) := by
        rw [FPUnpacked.magnitude, ← hp.value_eq, add_mul, mul_assoc, mul_assoc, zpow_mul_two_zpow,
          zpow_mul_two_zpow]
        congr 1
        · rw [show addend.exponent - 62 + (62 - addend.exponent) = 0 by ring, zpow_zero, mul_one]
        · congr 2
          push_cast
          ring
      rw [heq]
      exact hround.even_add hAeven
    · dsimp only
      rw [hsum]
      omega
  · -- The product is the greater.
    have hshift : (63 : ℕ) - (productExponent - addend.exponent - (62 : ℕ)) ≤ ((124 : ℕ) : ℤ) := by
      push_cast
      omega
    obtain ⟨hlt, hround⟩ := toNat_stickyLogicalShiftRight_lt (w := U128.ofU64 addend.mantissa)
      (b := 124) (by norm_num) (by norm_num) (by rwa [U128.toNat_ofU64]) hshift
    rw [U128.toNat_ofU64] at hround
    generalize (U128.ofU64 addend.mantissa).stickyLogicalShiftRight _ = shifted at hlt hround ⊢
    have hP := hp.value_lt
    have hP' := hp.le_value
    have hsum : (productValue.add shifted).toNat = productValue.toNat + shifted.toNat :=
      U128.toNat_add (by omega)
    have heq : ((productValue.toNat : ℚ) + addend.mantissa.toNat *
        2 ^ (-(productExponent - addend.exponent - (62 : ℕ)))) * 2 ^ (productExponent - 124) =
          addend.magnitude + p := by
      rw [FPUnpacked.magnitude, ← hp.value_eq, add_mul, mul_assoc, zpow_mul_two_zpow, add_comm]
      congr 3
      push_cast
      ring
    have ht := hround.even_add hPeven
    rw [← hsum] at ht
    obtain ⟨hsign, happrox, hmsb⟩ :=
      reduceMantissa_of_roundsToOdd addend.sign ht heq (by omega) (by omega)
    exact ⟨hsign, happrox, fun htrue => (Bool.false_ne_true (hmsb.symm.trans htrue)).elim⟩

/-! ### Subtraction -/

theorem toNat_addendLong (h : addend.mantissa.toNat < 2 ^ 63) :
    ((U128.ofU64 addend.mantissa).shiftLeft normalizedPointPosition).toNat =
      addend.mantissa.toNat * 2 ^ 62 := by
  rw [U128.toNat_shiftLeft_of_nonneg _ (Int.natCast_nonneg _), U128.toNat_ofU64, Int.toNat_natCast,
    normalizedPointPosition]
  exact Nat.mod_eq_of_lt (by omega)

theorem addendLong_spec (ha : addend.Normal info) :
    Wide addend.magnitude addend.exponent
      ((U128.ofU64 addend.mantissa).shiftLeft normalizedPointPosition).toNat := by
  have hlow := ha.le_mantissa
  have hhigh := ha.mantissa_lt
  rw [toNat_addendLong hhigh]
  refine ⟨?_, by omega, by omega, Dvd.dvd.mul_left (pow_dvd_pow 2 (by norm_num)) _⟩
  rw [FPUnpacked.magnitude, Nat.cast_mul, Nat.cast_pow, Nat.cast_ofNat, mul_assoc, ← zpow_natCast,
    zpow_mul_two_zpow]
  congr 2
  push_cast
  ring

/-- The difference of two wide numbers, rounded to odd: exact, or hardly smaller than
the greater one. -/
structure Difference (y : ℚ) (exponent : ℤ) (result : U128) : Prop where
  rounds : RoundsToOdd (y * 2 ^ (124 - exponent)) result.toNat
  wide : (result.toNat : ℚ) = y * 2 ^ (124 - exponent) ∨ 2 ^ 123 ≤ result.toNat
  result_lt : result.toNat < 2 ^ 125

/-- The lesser operand is rounded to odd before it is subtracted. -/
theorem sub_stickyLogicalShiftRight_spec {y z : ℚ} {e' : ℤ} {v : U128} (hw : Wide y e w.toNat)
    (hv : Wide z e' v.toNat) (hle : e' ≤ e) (hge : e' = e → v.toNat ≤ w.toNat) :
    Difference (y - z) e (w.sub (v.stickyLogicalShiftRight (e - e'))) := by
  have hw' := hw.le_value
  have hw'' := hw.value_lt
  have heven : Even w.toNat := even_iff_two_dvd.mpr (dvd_trans (by norm_num) hw.dvd_value)
  obtain ⟨k, hk⟩ := Int.eq_ofNat_of_zero_le (show 0 ≤ e - e' by omega)
  have hshift : (v.stickyLogicalShiftRight (e - e')).toNat = stickyShift v.toNat k := by
    rw [U128.toNat_stickyLogicalShiftRight v (by omega), hk, Int.toNat_natCast]
  have hround : RoundsToOdd (v.toNat / 2 ^ k) (stickyShift v.toNat k) :=
    (RoundsToOdd.exact _).shift k
  have hsmall : stickyShift v.toNat k ≤ w.toNat := by
    rcases Nat.eq_zero_or_pos k with rfl | hpos
    · simpa [stickyShift, Nat.mod_one] using hge (by omega)
    · refine le_trans (stickyShift_lt (j := 124) (by norm_num) ?_).le hw'
      exact lt_of_lt_of_le hv.value_lt (Nat.pow_le_pow_right (by norm_num) (by omega))
  have hsub : (w.sub (v.stickyLogicalShiftRight (e - e'))).toNat =
      w.toNat - stickyShift v.toNat k := by
    rw [U128.toNat_sub (hshift.trans_le hsmall), hshift]
  have heq : (y - z) * 2 ^ (124 - e) = w.toNat - v.toNat / 2 ^ k := by
    rw [← hw.value_eq, ← hv.value_eq, sub_mul, mul_assoc, mul_assoc, zpow_mul_two_zpow,
      zpow_mul_two_zpow, show e - 124 + (124 - e) = 0 by ring, zpow_zero, mul_one,
      show e' - 124 + (124 - e) = -(k : ℤ) by omega, zpow_neg, zpow_natCast, div_eq_mul_inv]
  refine ⟨?_, ?_, by omega⟩
  · rw [hsub, heq]
    exact hround.even_sub heven hsmall
  · rw [hsub, heq]
    rcases le_or_gt k 19 with hexact | hlarge
    · left
      have hmod : v.toNat % 2 ^ k = 0 :=
        Nat.mod_eq_zero_of_dvd (dvd_trans (pow_dvd_pow 2 hexact) hv.dvd_value)
      have hdiv : ((v.toNat / 2 ^ k : ℕ) : ℚ) = v.toNat / 2 ^ k := by
        rw [eq_div_iff (by positivity)]
        exact_mod_cast Nat.div_mul_cancel (Nat.dvd_of_mod_eq_zero hmod)
      rw [Nat.cast_sub hsmall, stickyShift, if_pos hmod, hdiv]
    · right
      have : stickyShift v.toNat k < 2 ^ 105 := by
        refine stickyShift_lt (by norm_num) ?_
        exact lt_of_lt_of_le hv.value_lt (Nat.pow_le_pow_right (by norm_num) (by omega))
      omega

theorem Difference.lt_iff {y : ℚ} (h : Difference y e result) :
    result.toNat < 2 ^ 64 ↔ y < 2 ^ (e - 60) := by
  have hpos : (0 : ℚ) < 2 ^ (124 - e) := by positivity
  have hsplit : (2 : ℚ) ^ (e - 60) * 2 ^ (124 - e) = ((2 ^ 64 : ℕ) : ℚ) := by
    rw [zpow_mul_two_zpow, show e - 60 + (124 - e) = ((64 : ℕ) : ℤ) by push_cast; ring,
      zpow_natCast]
    norm_num
  rw [h.rounds.lt_iff (even_two_pow (by norm_num)), ← hsplit, mul_lt_mul_iff_left₀ hpos]

/-- A difference that has lost more than 60 leading bits keeps its exponent, so that it
becomes `2 ^ 62` times as large. -/
theorem normalizeDifference_of_lt {y : ℚ} (h : Difference y e result) (sign : Bool)
    (hlt : y < 2 ^ (e - 60)) :
    (normalizeDifference sign e result).sign = sign ∧
      (normalizeDifference sign e result).exponent = e ∧
      (normalizeDifference sign e result).magnitude = y * 2 ^ 62 := by
  have hresult := h.lt_iff.mpr hlt
  have hexact : (result.toNat : ℚ) = y * 2 ^ (124 - e) := h.wide.resolve_right (by omega)
  rw [normalizeDifference, if_pos (U128.upper_eq_zero_iff.mpr hresult)]
  refine ⟨rfl, rfl, ?_⟩
  have hlower : result.lower.toNat = result.toNat := by
    have := result.lower.isLt
    unfold U128.toNat at hresult ⊢
    omega
  rw [FPUnpacked.magnitude]
  dsimp only
  rw [hlower, hexact, mul_assoc, zpow_mul_two_zpow,
    show 124 - e + (e - 62) = ((62 : ℕ) : ℤ) by push_cast; ring, zpow_natCast]

theorem reduceMantissa_shiftLeft {y : ℚ} (h : Difference y e result) (sign : Bool) {r : ℕ}
    (hr : r ≤ 64) (hlow : 2 ^ 126 ≤ result.toNat * 2 ^ r) (hhigh : result.toNat * 2 ^ r < 2 ^ 127) :
    (reduceMantissa sign (e - r) (result.shiftLeft r)).sign = sign ∧
      Approximates y (reduceMantissa sign (e - r) (result.shiftLeft r)) ∧
      (reduceMantissa sign (e - r) (result.shiftLeft r)).mantissa.msb = false := by
  have hshift : (result.shiftLeft r).toNat = result.toNat * 2 ^ r := by
    rw [U128.toNat_shiftLeft_of_nonneg _ (Int.natCast_nonneg r), Int.toNat_natCast]
    exact Nat.mod_eq_of_lt (by omega)
  obtain ⟨s, hs⟩ := Nat.exists_eq_add_of_le hr
  refine reduceMantissa_spec sign ?_ (by omega) (by omega)
  have heq : y * 2 ^ (60 - (e - r)) = y * 2 ^ (124 - e) / 2 ^ s := by
    rw [div_eq_mul_inv, ← zpow_natCast, ← zpow_neg, mul_assoc, zpow_mul_two_zpow]
    congr 2
    omega
  rw [hshift, hs, stickyShift_mul_two_pow, heq]
  exact h.rounds.shift s

/-- A difference that keeps 60 leading bits fills the upper word. -/
theorem normalizeDifference_of_le {y : ℚ} (h : Difference y e result) (sign : Bool)
    (hle : 2 ^ (e - 60) ≤ y) :
    (normalizeDifference sign e result).sign = sign ∧
      Approximates y (normalizeDifference sign e result) ∧
      (normalizeDifference sign e result).mantissa.msb = false := by
  have hresult : 2 ^ 64 ≤ result.toNat := not_lt.mp fun hlt => not_lt.mpr hle (h.lt_iff.mp hlt)
  have hhigh := h.result_lt
  have hupper : result.upper ≠ 0#64 := fun hzero =>
    absurd (U128.upper_eq_zero_iff.mp hzero) (not_lt.mpr hresult)
  have hdiv : result.upper.toNat = result.toNat / 2 ^ 64 := by
    have := result.lower.isLt
    unfold U128.toNat
    omega
  have hne : result.upper.toNat ≠ 0 := by omega
  have hlog := Nat.pow_log_le_self 2 hne
  have hlog' := Nat.lt_pow_succ_log_self (b := 2) (by norm_num) result.upper.toNat
  have hsmall : Nat.log 2 result.upper.toNat < 61 := Nat.log_lt_of_lt_pow hne (by omega)
  rw [normalizeDifference, if_neg hupper, highestSetBit_eq hupper, normalizedPointPosition]
  generalize Nat.log 2 result.upper.toNat = j at hlog hlog' hsmall ⊢
  obtain ⟨r, hr⟩ := Nat.exists_eq_add_of_le (show j ≤ 62 by omega)
  rw [show ((62 : ℕ) : ℤ) - j = r by omega]
  rw [hdiv] at hlog hlog'
  refine reduceMantissa_shiftLeft h sign (by omega) ?_ ?_
  · calc 2 ^ 126 = 2 ^ j * 2 ^ 64 * 2 ^ r := by
          rw [mul_right_comm, ← pow_add, ← hr, ← pow_add]
      _ ≤ result.toNat * 2 ^ r := Nat.mul_le_mul_right _ (by omega)
  · calc result.toNat * 2 ^ r < 2 ^ (j + 1) * 2 ^ 64 * 2 ^ r :=
          Nat.mul_lt_mul_of_pos_right (by omega) (by positivity)
      _ = 2 ^ 127 := by
          rw [mul_right_comm, ← pow_add, show j + 1 + r = 63 by omega, ← pow_add]

theorem Difference.nonneg {y : ℚ} (h : Difference y e result) : 0 ≤ y := by
  have hscaled := (h.rounds.le_iff (k := 0) (by decide)).mp (Nat.zero_le _)
  have hpos : (0 : ℚ) < 2 ^ (124 - e) := by positivity
  exact nonneg_of_mul_nonneg_left (by exact_mod_cast hscaled) hpos

/-- The greater operand decides sign and exponent of a difference. -/
theorem fusedDifference_spec {productSign : Bool} (ha : addend.Normal info)
    (hp : Wide p productExponent productValue.toNat) (hsign : addend.sign = !productSign) :
    let d := fusedDifference addend productSign productExponent productValue
    d.2.1 = max addend.exponent productExponent ∧
      Difference |addend.magnitude - p| d.2.1 d.2.2 ∧
      signed d.1 |addend.magnitude - p| = signed addend.sign (addend.magnitude - p) := by
  have hlong := addendLong_spec ha
  -- Whichever is the minuend, the sign of the difference follows from its being one.
  have haddend : ∀ {result}, Difference (addend.magnitude - p) addend.exponent result →
      Difference |addend.magnitude - p| addend.exponent result ∧
        signed (!productSign) |addend.magnitude - p| =
          signed addend.sign (addend.magnitude - p) := by
    intro result h
    rw [abs_of_nonneg h.nonneg, hsign]
    exact ⟨h, rfl⟩
  have hproduct : ∀ {result}, Difference (p - addend.magnitude) productExponent result →
      Difference |addend.magnitude - p| productExponent result ∧
        signed productSign |addend.magnitude - p| =
          signed addend.sign (addend.magnitude - p) := by
    intro result h
    rw [abs_sub_comm, abs_of_nonneg h.nonneg, hsign]
    refine ⟨h, ?_⟩
    cases productSign <;> simp [signed]
  unfold fusedDifference
  simp only
  generalize (U128.ofU64 addend.mantissa).shiftLeft normalizedPointPosition = long at hlong ⊢
  split_ifs with heq hle
  · have hlt := U128.lt_iff.mp heq.2
    have h := sub_stickyLogicalShiftRight_spec hp hlong (by omega) fun _ => hlt.le
    rw [show productExponent - addend.exponent = 0 from heq.1] at h
    have hmax : addend.exponent ≤ productExponent := by omega
    exact ⟨(max_eq_right hmax).symm, hproduct h⟩
  · have h := sub_stickyLogicalShiftRight_spec hlong hp (by omega) fun hexp =>
      not_lt.mp fun hlt => heq ⟨by omega, U128.lt_iff.mpr hlt⟩
    rw [show addend.exponent - productExponent = -(productExponent - addend.exponent) by ring] at h
    have hmax : productExponent ≤ addend.exponent := by omega
    exact ⟨(max_eq_left hmax).symm, haddend h⟩
  · have h := sub_stickyLogicalShiftRight_spec hp hlong (by omega) fun hexp => by omega
    have hmax : addend.exponent ≤ productExponent := by omega
    exact ⟨(max_eq_right hmax).symm, hproduct h⟩

/-! ### The fused sum -/

/-- More than 60 leading bits of the greater of the two cancel. -/
def Cancels (a p : ℚ) : Prop := |a + p| < 2 ^ (Int.log 2 (max |a| |p|) - 60)

theorem not_cancels_of_max_le {a p : ℚ} (hpos : 0 < max |a| |p|) (h : max |a| |p| ≤ |a + p|) :
    ¬Cancels a p := by
  have hlog : (2 : ℚ) ^ Int.log 2 (max |a| |p|) ≤ max |a| |p| := (two_zpow_le_iff hpos).mpr le_rfl
  exact not_lt.mpr ((zpow_le_zpow_right₀ one_le_two (by omega)).trans (hlog.trans h))

namespace Wide

variable {y z : ℚ} {e e' : ℤ} {w v : ℕ}

theorem zpow_le (h : Wide y e w) : 2 ^ e ≤ y := by
  have hle : (2 : ℚ) ^ (124 : ℤ) ≤ w := by exact_mod_cast h.le_value
  rw [← h.value_eq]
  calc (2 : ℚ) ^ e = 2 ^ (124 : ℤ) * 2 ^ (e - 124) := by rw [zpow_mul_two_zpow, add_sub_cancel]
    _ ≤ w * 2 ^ (e - 124) := mul_le_mul_of_nonneg_right hle (by positivity)

theorem pos (h : Wide y e w) : 0 < y := lt_of_lt_of_le (by positivity) h.zpow_le

theorem log_eq (h : Wide y e w) : Int.log 2 y = e := by
  refine log_two_eq h.zpow_le ?_
  have hlt : (w : ℚ) < 2 ^ (125 : ℤ) := by exact_mod_cast h.value_lt
  rw [← h.value_eq]
  calc (w : ℚ) * 2 ^ (e - 124) < 2 ^ (125 : ℤ) * 2 ^ (e - 124) :=
        mul_lt_mul_of_pos_right hlt (by positivity)
    _ = 2 ^ (e + 1) := by
        rw [zpow_mul_two_zpow]
        congr 1
        ring

theorem log_max (h : Wide y e w) (h' : Wide z e' v) : Int.log 2 (max y z) = max e e' := by
  rw [← h.log_eq, ← h'.log_eq]
  rcases le_total y z with hle | hle
  · rw [max_eq_right hle, max_eq_right (Int.log_mono_right h.pos hle)]
  · rw [max_eq_left hle, max_eq_left (Int.log_mono_right h'.pos hle)]

end Wide

structure Fuses (info : FPInfo) (a p : ℚ) (u : FPUnpacked) : Prop where
  le_exponent : u.mantissa.msb = true → info.exponentMin - info.explicitMantissaWidth ≤ u.exponent
  signed_eq : ¬Cancels a p → signed u.sign |a + p| = a + p
  approximates : ¬Cancels a p → Approximates |a + p| u
  value_eq : Cancels a p → u.value = (a + p) * 2 ^ 62

theorem FPUnpacked.value_mul (v v' : FPUnpacked) :
    v.value * v'.value = signed (v.sign != v'.sign) (v.magnitude * v'.magnitude) := by
  rw [value_eq_signed, value_eq_signed]
  cases v.sign <;> cases v'.sign <;> simp [signed]

theorem FPUnpacked.value_halved (u : FPUnpacked) (k : ℕ) :
    FPUnpacked.value { u with exponent := u.exponent - k } = u.value / 2 ^ k := by
  rw [FPUnpacked.value, FPUnpacked.value, div_eq_mul_inv, signed_mul, mul_assoc, ← zpow_natCast,
    ← zpow_neg, zpow_mul_two_zpow]
  congr 3
  ring

theorem FPUnpacked.Normal.msb_eq {v : FPUnpacked} (h : v.Normal info) : v.mantissa.msb = false :=
  msb_eq_false_of_lt h.mantissa_lt

theorem fuses_of_zero {a p y : ℚ} {u : FPUnpacked} {sign : Bool} (hy : 0 < y)
    (hzero : a = 0 ∧ p = signed sign y ∨ p = 0 ∧ a = signed sign y) (hsign : u.sign = sign)
    (hu : Approximates y u) (hmsb : u.mantissa.msb = false) : Fuses info a p u := by
  have hsum : a + p = signed sign y := by
    rcases hzero with ⟨rfl, rfl⟩ | ⟨rfl, rfl⟩ <;> simp
  have habs : |a + p| = y := by rw [hsum, abs_signed, abs_of_pos hy]
  have hmax : max |a| |p| = y := by
    rcases hzero with ⟨rfl, rfl⟩ | ⟨rfl, rfl⟩ <;>
      simp [abs_signed, abs_of_pos hy, hy.le]
  have hcancels : ¬Cancels a p :=
    not_cancels_of_max_le (by rwa [hmax]) (by rw [hmax, habs])
  refine ⟨fun h => absurd h (by simp [hmsb]), fun _ => ?_, fun _ => ?_, fun h => absurd h hcancels⟩
  · rw [habs, hsum, hsign]
  · rwa [habs]

theorem fuses_fusedAddition (ha : addend.Normal info)
    (hp : Wide p productExponent productValue.toNat) :
    Fuses info addend.value (signed addend.sign p)
      (fusedAddition addend addend.sign productExponent productValue) := by
  obtain ⟨hsign, happrox, hmsb⟩ := fusedAddition_spec ha hp
  have hapos := (addendLong_spec ha).pos
  have hsum : addend.value + signed addend.sign p = signed addend.sign (addend.magnitude + p) := by
    rw [FPUnpacked.value_eq_signed]
    cases addend.sign <;> simp [signed, add_comm]
  have habs : |addend.value + signed addend.sign p| = addend.magnitude + p := by
    rw [hsum, abs_signed, abs_of_pos (add_pos hapos hp.pos)]
  have hmax : max |addend.value| |signed addend.sign p| = max addend.magnitude p := by
    rw [FPUnpacked.value_eq_signed, abs_signed, abs_signed, abs_of_pos hapos, abs_of_pos hp.pos]
  have hcancels : ¬Cancels addend.value (signed addend.sign p) := by
    refine not_cancels_of_max_le ?_ ?_
    · rw [hmax]
      exact lt_max_of_lt_left hapos
    · rw [hmax, habs]
      exact max_le (le_add_of_nonneg_right hp.pos.le) (le_add_of_nonneg_left hapos.le)
  refine ⟨fun h => ha.le_exponent.trans (hmsb h), fun _ => ?_, fun _ => ?_,
    fun h => absurd h hcancels⟩
  · rw [habs, hsum, hsign]
  · rwa [habs]

theorem fuses_fusedDifference {productSign : Bool} (ha : addend.Normal info)
    (hp : Wide p productExponent productValue.toNat) (hsign : addend.sign = !productSign) :
    let d := fusedDifference addend productSign productExponent productValue
    Fuses info addend.value (signed productSign p) (normalizeDifference d.1 d.2.1 d.2.2) := by
  intro d
  obtain ⟨hexponent, hdiff, hsigned⟩ := fusedDifference_spec ha hp hsign
  have hlong := addendLong_spec ha
  have hsum : addend.value + signed productSign p = signed addend.sign (addend.magnitude - p) := by
    rw [FPUnpacked.value_eq_signed, hsign]
    cases productSign <;> simp [signed] <;> ring
  have habs : |addend.value + signed productSign p| = |addend.magnitude - p| := by
    rw [hsum, abs_signed]
  have hmax : max |addend.value| |signed productSign p| = max addend.magnitude p := by
    rw [FPUnpacked.value_eq_signed, abs_signed, abs_signed, abs_of_pos hlong.pos,
      abs_of_pos hp.pos]
  have hcancels : Cancels addend.value (signed productSign p) ↔
      |addend.magnitude - p| < 2 ^ (d.2.1 - 60) := by
    rw [Cancels, habs, hmax, hlong.log_max hp, ← hexponent]
  by_cases hlt : |addend.magnitude - p| < 2 ^ (d.2.1 - 60)
  · obtain ⟨hs, he, hm⟩ := normalizeDifference_of_lt hdiff d.1 hlt
    refine ⟨fun _ => ?_, fun h => absurd (hcancels.mpr hlt) h,
      fun h => absurd (hcancels.mpr hlt) h, fun _ => ?_⟩
    · rw [he, hexponent]
      exact ha.le_exponent.trans (le_max_left _ _)
    · rw [FPUnpacked.value_eq_signed, hs, hm, ← signed_mul, hsigned, hsum]
  · obtain ⟨hs, happrox, hmsb⟩ := normalizeDifference_of_le hdiff d.1 (not_lt.mp hlt)
    refine ⟨fun h => absurd (hmsb.symm.trans h) Bool.false_ne_true, fun _ => ?_, fun _ => ?_,
      fun h => absurd (hcancels.mp h) hlt⟩
    · rw [habs, hs, hsigned, hsum]
    · rwa [habs]

def FPUnpacked.ZeroOrNormal (info : FPInfo) (v : FPUnpacked) : Prop :=
  v.mantissa = 0#64 ∨ v.Normal info

/-- The branches of `FusedMulAdd`. -/
theorem fusedMulAdd_cases (addend : FPUnpacked) (h1 : op1.ZeroOrNormal info)
    (h2 : op2.ZeroOrNormal info) :
    (op1.mantissa = 0#64 ∨ op2.mantissa = 0#64) ∧ fusedMulAdd addend op1 op2 = addend ∨
    ∃ e value, Wide (op1.magnitude * op2.magnitude) e value.toNat ∧
      (addend.mantissa = 0#64 ∧
          fusedMulAdd addend op1 op2 = reduceMantissa (op1.sign != op2.sign) e value ∨
        addend.mantissa ≠ 0#64 ∧ (op1.sign != op2.sign) = addend.sign ∧
          fusedMulAdd addend op1 op2 = fusedAddition addend addend.sign e value ∨
        addend.mantissa ≠ 0#64 ∧ addend.sign = !(op1.sign != op2.sign) ∧
          ∃ d, d = fusedDifference addend (op1.sign != op2.sign) e value ∧
            fusedMulAdd addend op1 op2 = normalizeDifference d.1 d.2.1 d.2.2) := by
  unfold fusedMulAdd
  simp only
  by_cases hzero : op1.mantissa = 0#64 ∨ op2.mantissa = 0#64
  · exact .inl ⟨hzero, if_pos (unpackedProduct_eq_zero hzero)⟩
  · have hp := unpackedProduct_spec (h1.resolve_left fun h => hzero (.inl h))
      (h2.resolve_left fun h => hzero (.inr h))
    have hnonzero : (unpackedProduct op1 op2).2 ≠ U128.ofU64 0#64 := by
      intro heq
      have hle := hp.le_value
      rw [heq] at hle
      exact absurd hle (by decide)
    refine .inr ⟨_, _, hp, ?_⟩
    rw [if_neg hnonzero]
    by_cases ha : addend.mantissa = 0#64
    · exact .inl ⟨ha, if_pos ha⟩
    · rw [if_neg ha]
      by_cases hsign : (op1.sign != op2.sign) = addend.sign
      · exact .inr (.inl ⟨ha, hsign, by rw [if_pos hsign, hsign]⟩)
      · refine .inr (.inr ⟨ha, ?_, _, rfl, if_neg hsign⟩)
        cases hs : addend.sign <;> simp_all

theorem fusedMulAdd_spec (ha : addend.ZeroOrNormal info) (h1 : op1.ZeroOrNormal info)
    (h2 : op2.ZeroOrNormal info) (hne : addend.value + op1.value * op2.value ≠ 0) :
    Fuses info addend.value (op1.value * op2.value) (fusedMulAdd addend op1 op2) := by
  rcases fusedMulAdd_cases addend h1 h2 with ⟨hzero, hrun⟩ | ⟨e, value, hp, hrun⟩
  · have hp : op1.value * op2.value = 0 := by
      rcases hzero with h | h <;> rw [FPUnpacked.value_eq_zero h] <;> simp
    have ha' : addend.Normal info := ha.resolve_left fun h => by
      rw [hp, FPUnpacked.value_eq_zero h] at hne
      simp at hne
    rw [hrun, hp]
    exact fuses_of_zero (addendLong_spec ha').pos (.inr ⟨rfl, rfl⟩) rfl (.exact rfl) ha'.msb_eq
  · rw [FPUnpacked.value_mul]
    rcases hrun with ⟨hzero, hrun⟩ | ⟨hnz, hsign, hrun⟩ | ⟨hnz, hsign, d, rfl, hrun⟩
    · rw [hrun, FPUnpacked.value_eq_zero hzero]
      obtain ⟨hs, happrox, hmsb⟩ := reduceMantissa_of_roundsToOdd (op1.sign != op2.sign) (.exact _)
        hp.value_eq hp.le_value (lt_trans hp.value_lt (by norm_num))
      exact fuses_of_zero hp.pos (.inl ⟨rfl, rfl⟩) hs happrox hmsb
    · rw [hrun, hsign]
      exact fuses_fusedAddition (ha.resolve_left hnz) hp
    · rw [hrun]
      exact fuses_fusedDifference (ha.resolve_left hnz) hp hsign

/-- Only a sum that is not normalized can have the highest bit of the mantissa set, and then its
exponent is no less than that of the addend. -/
theorem exponent_le_fusedMulAdd (ha : addend.Normal info) (h1 : op1.ZeroOrNormal info)
    (h2 : op2.ZeroOrNormal info) (hmsb : (fusedMulAdd addend op1 op2).mantissa.msb = true) :
    addend.exponent ≤ (fusedMulAdd addend op1 op2).exponent := by
  rcases fusedMulAdd_cases addend h1 h2 with ⟨-, hrun⟩ | ⟨e, value, hp, hrun⟩
  · rw [hrun]
  · rcases hrun with ⟨hzero, -⟩ | ⟨-, -, hrun⟩ | ⟨-, hsign, d, rfl, hrun⟩
    · exact absurd ha.le_mantissa (by rw [hzero]; decide)
    · rw [hrun] at hmsb ⊢
      exact (fusedAddition_spec ha hp).2.2 hmsb
    · obtain ⟨hexponent, hdiff, -⟩ := fusedDifference_spec ha hp hsign
      rw [hrun] at hmsb ⊢
      by_cases hlt : |addend.magnitude - op1.magnitude * op2.magnitude| <
          2 ^ ((fusedDifference addend (op1.sign != op2.sign) e value).2.1 - 60)
      · rw [(normalizeDifference_of_lt hdiff _ hlt).2.1, hexponent]
        exact le_max_left _ _
      · rw [(normalizeDifference_of_le hdiff _ (not_lt.mp hlt)).2.2] at hmsb
        cases hmsb

end Umbra.FP
