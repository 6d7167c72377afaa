import Umbra.FP.IntegerRounding

/-!
What `FPToFixed` returns.

The integer it ends up with is the number rounded in the mode asked for.  Whether
that integer is out of range is decided by the exponent of the mantissa, to which
one unit has been added where the number was rounded up.  For a negative number
that makes the magnitude larger where it should become smaller: what is rounded up
to the second smallest integer of the range is taken to be out of it.
-/

namespace Umbra.FP

open Umbra.Lib

/-! ### The specification -/

def fixedMin (ibits : ℕ) (unsigned : Bool) : ℤ := if unsigned then 0 else -2 ^ (ibits - 1)

def fixedMax (ibits : ℕ) (unsigned : Bool) : ℤ :=
  if unsigned then 2 ^ ibits - 1 else 2 ^ (ibits - 1) - 1

def saturate (ibits : ℕ) (unsigned : Bool) (z : ℤ) : ℤ :=
  max (fixedMin ibits unsigned) (min (fixedMax ibits unsigned) z)

def ReturnsFixed (ibits : ℕ) (z : ℤ) (operation : FPSR → Option (BitVec 64 × FPSR)) : Prop :=
  ∀ fpsr, ∃ result fpsr', operation fpsr = some (result, fpsr') ∧
    (result.toNat : ℤ) = z % 2 ^ ibits

/-! ### The overflow test -/

section Nonzero

variable {ibits : ℕ} {unsigned sign : Bool} {mantissa : BitVec 64} {e : ℤ}
  {rounding : RoundingMode} {fpcr : FPCR}

theorem overflow_test_iff {N : BitVec 64} (hN : N ≠ 0#64) (w : ℕ) :
    e ≥ w - highestSetBit N ↔ (2 : ℚ) ^ w ≤ N.toNat * 2 ^ e := by
  have hpos : (0 : ℚ) < N.toNat := by exact_mod_cast toNat_pos_of_ne hN
  have hscaled : (0 : ℚ) < N.toNat * 2 ^ e := by positivity
  rw [highestSetBit_eq hN, ← zpow_natCast, two_zpow_le_iff hscaled, log_two_mul_zpow hpos,
    Int.log_natCast, ge_iff_le, sub_le_iff_le_add']

theorem toNat_incremented (hhigh : mantissa.toNat < 2 ^ 63) (up : Bool) (hup : up = true → e < 0) :
    ((mantissa + if up then logicalShiftRight 1#64 e else 0#64).toNat : ℚ) * 2 ^ e =
      mantissa.toNat * 2 ^ e + if up = true ∧ -64 < e then 1 else 0 := by
  cases up with
  | false => simp
  | true =>
      have hneg := hup rfl
      rw [if_pos rfl, logicalShiftRight, if_neg (by omega), if_pos hneg]
      obtain ⟨n, hn⟩ := Int.eq_ofNat_of_zero_le (show 0 ≤ -e by omega)
      by_cases hlarge : -e ≥ 64
      · rw [if_pos hlarge, if_neg (by omega), BitVec.add_zero, add_zero]
      · have hpow : 2 ^ n ≤ 2 ^ 63 := Nat.pow_le_pow_right (by norm_num) (by omega)
        have hbit : (1#64 <<< n).toNat = 2 ^ n := by
          rw [BitVec.toNat_shiftLeft, BitVec.toNat_ofNat, Nat.shiftLeft_eq,
            Nat.one_mod_two_pow (by norm_num), one_mul, Nat.mod_eq_of_lt (by omega)]
        rw [if_neg hlarge, if_pos ⟨rfl, by omega⟩, hn, Int.toNat_natCast, BitVec.toNat_add, hbit,
          Nat.mod_eq_of_lt (by omega), show e = -(n : ℤ) by omega, zpow_neg, zpow_natCast]
        push_cast
        rw [add_mul, mul_inv_cancel₀ (by positivity)]

theorem incremented_ne_zero (hlow : 2 ^ 62 ≤ mantissa.toNat) (hhigh : mantissa.toNat < 2 ^ 63)
    (up : Bool) (hup : up = true → e < 0) :
    (mantissa + if up then logicalShiftRight 1#64 e else 0#64) ≠ 0#64 := by
  intro hzero
  have heq := toNat_incremented hhigh up hup
  have hpos : (0 : ℚ) < mantissa.toNat * 2 ^ e := by
    have : (0 : ℚ) < mantissa.toNat := by exact_mod_cast (show 0 < mantissa.toNat by omega)
    positivity
  have hnonneg : (0 : ℚ) ≤ if up = true ∧ -64 < e then 1 else 0 := by split <;> norm_num
  rw [hzero] at heq
  simp only [BitVec.toNat_ofNat, Nat.zero_mod, Nat.cast_zero, zero_mul] at heq
  linarith

/-- The overflow test of `FPToFixed`, against the limit `2 ^ w`. -/
def Overflows (rounding : RoundingMode) (sign : Bool) (mantissa : BitVec 64) (e : ℤ) (w : ℕ) :
    Prop :=
  (2 : ℚ) ^ w ≤ mantissa.toNat * 2 ^ e ∨
    rounding.RoundsUp (fixedValue sign mantissa e) ∧ -64 < e ∧
      (2 : ℚ) ^ w ≤ mantissa.toNat * 2 ^ e + 1

def magnitudeBits (ibits : ℕ) (unsigned : Bool) : ℕ := ibits - if unsigned then 0 else 1

theorem toNat_ones {count : ℕ} (h : count ≤ 64) : (ones count).toNat = 2 ^ count - 1 := by
  unfold ones
  split
  · rename_i hzero
    rw [hzero]
    rfl
  · rw [BitVec.toNat_ushiftRight, Nat.shiftRight_eq_div_pow]
    have hall : (~~~0#64 : BitVec 64).toNat = 2 ^ 64 - 1 := by decide
    have hsplit : 2 ^ 64 = 2 ^ count * 2 ^ (64 - count) := by
      rw [← pow_add, Nat.add_sub_cancel' h]
    have hpos : 0 < 2 ^ (64 - count) := by positivity
    rw [hall, hsplit, Nat.div_eq_of_lt_le]
    · have : 1 ≤ 2 ^ count := Nat.one_le_two_pow
      rw [Nat.sub_mul]
      omega
    · rw [Nat.sub_add_cancel Nat.one_le_two_pow]
      exact Nat.sub_lt (by positivity) one_pos

theorem toNat_and_ones {ibits : ℕ} (h : ibits ≤ 64) (v : BitVec 64) :
    (v &&& ones ibits).toNat = v.toNat % 2 ^ ibits := by
  rw [BitVec.toNat_and, toNat_ones h, Nat.and_two_pow_sub_one_eq_mod]

theorem toNat_one_shiftLeft {k : ℕ} (h : k < 64) : (1#64 <<< k).toNat = 2 ^ k := by
  have hpow : 2 ^ k < 2 ^ 64 := Nat.pow_lt_pow_right (by norm_num) h
  rw [BitVec.toNat_shiftLeft, BitVec.toNat_ofNat, Nat.shiftLeft_eq,
    Nat.one_mod_two_pow (by norm_num), one_mul, Nat.mod_eq_of_lt hpow]

theorem negate_and_ones {ibits : ℕ} (hbits : 1 ≤ ibits) (hle : ibits ≤ 64) :
    negate (1#64 <<< (ibits - 1)) &&& ones ibits = 1#64 <<< (ibits - 1) := by
  obtain ⟨k, rfl⟩ := Nat.exists_eq_add_of_le' hbits
  have hbit := toNat_one_shiftLeft (show k < 64 by omega)
  have hneg : negate (1#64 <<< k) = -(1#64 <<< k) := (BitVec.neg_eq_not_add _).symm
  have hsplit : 2 ^ 64 = 2 ^ (k + 1) * 2 ^ (63 - k) := by
    rw [← pow_add]
    congr 1
    omega
  have hone : 1 ≤ 2 ^ (63 - k) := Nat.one_le_two_pow
  obtain ⟨c, hc⟩ := Nat.exists_eq_add_of_le' hone
  refine BitVec.eq_of_toNat_eq ?_
  rw [toNat_and_ones hle, Nat.add_sub_cancel, hneg, BitVec.toNat_neg, hbit]
  have hpow : 2 ^ (k + 1) = 2 ^ k * 2 := pow_succ 2 k
  have hpos : 0 < 2 ^ k := by positivity
  have hdiff : 2 ^ 64 - 2 ^ k = 2 ^ k + 2 ^ (k + 1) * c := by
    rw [hsplit, hc, Nat.mul_add, Nat.mul_one]
    omega
  have hlt : 2 ^ 64 - 2 ^ k < 2 ^ 64 := Nat.sub_lt (by positivity) hpos
  rw [Nat.mod_eq_of_lt hlt, hdiff, Nat.add_mul_mod_self_left, Nat.mod_eq_of_lt (by omega)]

/-- The smallest integer of a signed range passes the overflow test all the same. -/
def Spared (ibits : ℕ) (unsigned : Bool) (rounding : RoundingMode) (sign : Bool)
    (mantissa : BitVec 64) (e : ℤ) : Prop :=
  (unsigned || !sign) = false ∧ ¬Overflows rounding sign mantissa e ibits ∧
    BitVec.ofInt 64 (rounding.toInteger (fixedValue sign mantissa e)) =
      negate (1#64 <<< (ibits - 1))

/-- `FPToFixed` behind its special cases, in terms of the number: it overflows or returns the
integer. -/
theorem toFixedNonzero_cases (hlow : 2 ^ 62 ≤ mantissa.toNat) (hhigh : mantissa.toNat < 2 ^ 63)
    (hbits : 1 ≤ ibits) (hodd : rounding ≠ .toOdd) (hfpcr : fpcr.Untrapped) (fpsr : FPSR) :
    Overflows rounding sign mantissa e (magnitudeBits ibits unsigned) ∧
        ¬Spared ibits unsigned rounding sign mantissa e ∧
        toFixedNonzero ibits unsigned sign mantissa e rounding fpcr fpsr =
          some (if unsigned || !sign then ones (magnitudeBits ibits unsigned)
            else 1#64 <<< (ibits - 1), fpsr.raise FPExc.invalidOp.cumulativeBit) ∨
      (Overflows rounding sign mantissa e (magnitudeBits ibits unsigned) →
        Spared ibits unsigned rounding sign mantissa e) ∧
        toFixedNonzero ibits unsigned sign mantissa e rounding fpcr fpsr =
          some (BitVec.ofInt 64 (rounding.toInteger (fixedValue sign mantissa e)) &&& ones ibits,
            if Int.fract (fixedValue sign mantissa e) ≠ 0 then
              fpsr.raise FPExc.inexact.cumulativeBit else fpsr) := by
  have hvalue : ((if sign then negate mantissa else mantissa).toInt : ℚ) * 2 ^ e =
      fixedValue sign mantissa e := signedMantissa_mul hhigh
  have hup := fixedRoundsUp_iff hodd (@floor_fixedValue_range sign mantissa e hhigh)
  have hneg : fixedRoundsUp rounding (BitVec.ofInt 64 ⌊fixedValue sign mantissa e⌋)
      (residualOfFract (Int.fract (fixedValue sign mantissa e))) = true → e < 0 :=
    fun h => neg_of_fract_ne_zero hhigh (hup.mp h).fract_ne_zero
  have hrounded := @rounded_fixedValue sign mantissa e rounding hhigh hodd
  have hsome : ibits ≠ 0 := by omega
  unfold toFixedNonzero
  simp only [residualErrorOnRightShift_eq_fract, arithmeticShiftLeft_eq, hvalue, hrounded, hsome,
    and_false, ↓reduceIte]
  generalize fixedRoundsUp rounding (BitVec.ofInt 64 ⌊fixedValue sign mantissa e⌋)
    (residualOfFract (Int.fract (fixedValue sign mantissa e))) = up at hup hneg ⊢
  have htest : ∀ w : ℕ, e ≥ w - highestSetBit
      (mantissa + if up then logicalShiftRight 1#64 e else 0#64) ↔
        Overflows rounding sign mantissa e w := by
    intro w
    rw [overflow_test_iff (incremented_ne_zero hlow hhigh up hneg),
      toNat_incremented hhigh up hneg, Overflows, ← hup, ← and_assoc]
    split
    · rename_i hincremented
      simp only [hincremented, and_self, true_and]
      exact ⟨.inr, fun h => h.elim (fun h => by linarith) id⟩
    · rename_i hincremented
      rw [add_zero, or_iff_left fun h => hincremented h.1]
  generalize highestSetBit (mantissa + if up then logicalShiftRight 1#64 e else 0#64) = highest
    at htest ⊢
  have hw : (magnitudeBits ibits unsigned : ℤ) = ibits - if unsigned then 0 else 1 := by
    cases unsigned <;> simp [magnitudeBits, hbits]
  have hover := htest (magnitudeBits ibits unsigned)
  rw [hw, sub_right_comm] at hover
  have hspared : e ≥ ibits - highest - (if unsigned then 0 else 1) → (unsigned || !sign) = false →
      (e = ibits - highest - (if unsigned then 0 else 1) ↔
        ¬Overflows rounding sign mantissa e ibits) := by
    intro hge hsigned
    obtain rfl : unsigned = false := by simp_all
    rw [← htest]
    simp only [Bool.false_eq_true, ↓reduceIte] at hge ⊢
    omega
  have hexact : ∀ v : BitVec 64,
      (do
        let fpsr ← if residualOfFract (Int.fract (fixedValue sign mantissa e)) ≠ .zero then
            fpProcessException .inexact fpcr fpsr
          else some fpsr
        pure (v, fpsr)) = some (v, if Int.fract (fixedValue sign mantissa e) ≠ 0 then
          fpsr.raise FPExc.inexact.cumulativeBit else fpsr) := by
    intro v
    rw [fpProcessException_of_untrapped hfpcr .inexact fpsr]
    simp only [ne_eq, residualOfFract_eq_zero_iff]
    split <;> rfl
  generalize (ibits : ℤ) - highest - (if unsigned then 0 else 1) = minExponentForOverflow
    at hover hspared ⊢
  have hraised := fpProcessException_of_untrapped hfpcr .invalidOp fpsr
  by_cases hT : e ≥ minExponentForOverflow
  · cases hpositive : unsigned || !sign with
    | true =>
        refine .inl ⟨hover.mp hT, fun h => by simp [h.1] at hpositive, ?_⟩
        simp only [hT, hraised, and_self, ↓reduceIte]
        rfl
    | false =>
        by_cases hmin : e = minExponentForOverflow ∧
            BitVec.ofInt 64 (rounding.toInteger (fixedValue sign mantissa e)) =
              negate (1#64 <<< (ibits - 1))
        · -- The smallest integer of the range, which is not an overflow after all.
          refine .inr ⟨fun _ => ⟨hpositive, (hspared hT hpositive).mp hmin.1, hmin.2⟩, ?_⟩
          rw [if_neg (by simp), if_neg fun h => h.2 hmin]
          exact hexact _
        · refine .inl ⟨hover.mp hT, fun h => hmin ⟨(hspared hT hpositive).mpr h.2.1, h.2.2⟩, ?_⟩
          rw [if_neg (by simp), if_pos ⟨hT, hmin⟩, hraised, if_neg Bool.false_ne_true]
          rfl
  · refine .inr ⟨fun h => absurd (hover.mpr h) hT, ?_⟩
    rw [if_neg fun h => hT h.1, if_neg fun h => hT h.1]
    exact hexact _

theorem toFixedNonzero_eq (hlow : 2 ^ 62 ≤ mantissa.toNat) (hhigh : mantissa.toNat < 2 ^ 63)
    (hbits : 1 ≤ ibits) (hle : ibits ≤ 64) (hodd : rounding ≠ .toOdd) (hfpcr : fpcr.Untrapped)
    (fpsr : FPSR) :
    ∃ result fpsr', toFixedNonzero ibits unsigned sign mantissa e rounding fpcr fpsr =
        some (result, fpsr') ∧
      (Overflows rounding sign mantissa e (magnitudeBits ibits unsigned) →
        result = if unsigned || !sign then ones (magnitudeBits ibits unsigned)
          else 1#64 <<< (ibits - 1)) ∧
      (¬Overflows rounding sign mantissa e (magnitudeBits ibits unsigned) →
        result = BitVec.ofInt 64 (rounding.toInteger (fixedValue sign mantissa e)) &&&
          ones ibits) := by
  rcases @toFixedNonzero_cases ibits unsigned sign mantissa e rounding fpcr hlow hhigh hbits hodd
    hfpcr fpsr with ⟨hover, -, hrun⟩ | ⟨hspared, hrun⟩
  · exact ⟨_, _, hrun, fun _ => rfl, fun h => absurd hover h⟩
  · refine ⟨_, _, hrun, fun hover => ?_, fun _ => rfl⟩
    obtain ⟨hpositive, -, hmin⟩ := hspared hover
    rw [hmin, hpositive, negate_and_ones hbits hle]
    rfl

/-! ### Where the test is right -/

theorem half_le_iff (hlow : 2 ^ 62 ≤ mantissa.toNat) (hhigh : mantissa.toNat < 2 ^ 63) :
    1 / 2 ≤ (mantissa.toNat : ℚ) * 2 ^ e ↔ -64 < e := by
  have hlow' : (2 : ℚ) ^ (62 : ℤ) ≤ mantissa.toNat := by exact_mod_cast hlow
  have hhigh' : (mantissa.toNat : ℚ) < 2 ^ (63 : ℤ) := by exact_mod_cast hhigh
  have hpos : (0 : ℚ) < 2 ^ e := by positivity
  constructor
  · intro hle
    by_contra hsmall
    have hlt : (mantissa.toNat : ℚ) * 2 ^ e < 2 ^ (63 : ℤ) * 2 ^ e :=
      mul_lt_mul_of_pos_right hhigh' hpos
    rw [zpow_mul_two_zpow] at hlt
    have hexp : (2 : ℚ) ^ (63 + e) ≤ 2 ^ (-1 : ℤ) := zpow_le_zpow_right₀ one_le_two (by omega)
    norm_num at hexp
    linarith
  · intro hgt
    have hle : (2 : ℚ) ^ (62 : ℤ) * 2 ^ e ≤ mantissa.toNat * 2 ^ e :=
      mul_le_mul_of_nonneg_right hlow' hpos.le
    rw [zpow_mul_two_zpow] at hle
    have hexp : (2 : ℚ) ^ (-1 : ℤ) ≤ 2 ^ (62 + e) := zpow_le_zpow_right₀ one_le_two (by omega)
    norm_num at hexp
    linarith

theorem toNat_ofInt_and_ones (hle : ibits ≤ 64) (z : ℤ) :
    ((BitVec.ofInt 64 z &&& ones ibits).toNat : ℤ) = z % 2 ^ ibits := by
  have hdvd : (2 : ℤ) ^ ibits ∣ 2 ^ 64 := pow_dvd_pow 2 hle
  have hnonneg : 0 ≤ z % 2 ^ 64 := Int.emod_nonneg z (by norm_num)
  rw [toNat_and_ones hle, BitVec.toNat_ofInt, Int.natCast_emod, Nat.cast_pow, Nat.cast_pow,
    Nat.cast_ofNat, Int.toNat_of_nonneg hnonneg, Int.emod_emod_of_dvd z hdvd]

theorem fixedMax_eq (ibits : ℕ) (unsigned : Bool) :
    fixedMax ibits unsigned = 2 ^ magnitudeBits ibits unsigned - 1 := by
  cases unsigned <;> rfl

theorem fixedMin_nonpos (ibits : ℕ) (unsigned : Bool) : fixedMin ibits unsigned ≤ 0 := by
  cases unsigned with
  | false => exact neg_nonpos.mpr (by positivity)
  | true => exact le_rfl

theorem saturate_of_nonneg {z : ℤ} (hz : 0 ≤ z) :
    saturate ibits unsigned z = min (2 ^ magnitudeBits ibits unsigned - 1) z := by
  have hone : (1 : ℤ) ≤ 2 ^ magnitudeBits ibits unsigned := one_le_pow₀ (by norm_num)
  have hmin := fixedMin_nonpos ibits unsigned
  rw [saturate, fixedMax_eq]
  exact max_eq_right (le_min (by omega) (by omega))

theorem two_pow_magnitudeBits_le (ibits : ℕ) (unsigned : Bool) :
    (2 : ℤ) ^ magnitudeBits ibits unsigned ≤ 2 ^ ibits :=
  pow_le_pow_right₀ (by norm_num) (Nat.sub_le _ _)

theorem scaled_pos (hlow : 2 ^ 62 ≤ mantissa.toNat) : (0 : ℚ) < mantissa.toNat * 2 ^ e := by
  have : (0 : ℚ) < mantissa.toNat := by exact_mod_cast (show 0 < mantissa.toNat by omega)
  positivity

/-- What is rounded up to one from far below is not found out: the unit added to the mantissa
lies above all its bits. -/
theorem not_overflows_of_small (hlow : 2 ^ 62 ≤ mantissa.toNat) (hhigh : mantissa.toNat < 2 ^ 63)
    (hsmall : (mantissa.toNat : ℚ) * 2 ^ e < 1 / 2) (w : ℕ) :
    ¬Overflows rounding sign mantissa e w := by
  have hone : (1 : ℚ) ≤ 2 ^ w := one_le_pow₀ one_le_two
  rintro (h | ⟨-, hexp, -⟩)
  · linarith
  · exact absurd ((half_le_iff hlow hhigh).mpr hexp) (not_le.mpr hsmall)

theorem roundsUp_of_small {y : ℚ} (hodd : rounding ≠ .toOdd) (hpos : 0 < y) (hsmall : y < 1 / 2) :
    rounding.RoundsUp y ↔ rounding = .towardsPlusInfinity := by
  have hfract : Int.fract y = y := Int.fract_eq_self.mpr ⟨hpos.le, by linarith⟩
  cases rounding with
  | towardsPlusInfinity =>
      exact iff_of_true (show Int.fract y ≠ 0 by rw [hfract]; exact hpos.ne') rfl
  | towardsMinusInfinity => exact iff_of_false id (by decide)
  | towardsZero => exact iff_of_false (fun h => absurd hpos.le h.2) (by decide)
  | toOdd => exact absurd rfl hodd
  | toNearestTieEven | toNearestTieAwayFromZero =>
      refine iff_of_false ?_ (by decide)
      rintro (h | h)
      · linarith
      · linarith [h.1]

/-- The overflow test is right about the positive numbers, but for those rounded up to one from
far below where one is out of range. -/
theorem positive_overflows_iff (hlow : 2 ^ 62 ≤ mantissa.toNat) (hhigh : mantissa.toNat < 2 ^ 63)
    (hodd : rounding ≠ .toOdd) (w : ℕ) :
    (Overflows rounding false mantissa e w ↔
        2 ^ w ≤ rounding.toInteger (fixedValue false mantissa e)) ↔
      ¬(w = 0 ∧ rounding = .towardsPlusInfinity ∧ fixedValue false mantissa e < 1 / 2) := by
  have hvalue : fixedValue false mantissa e = mantissa.toNat * 2 ^ e := rfl
  have hpos := @scaled_pos mantissa e hlow
  have hlimit : ∀ z : ℚ, (2 : ℚ) ^ w ≤ z ↔ (2 : ℤ) ^ w ≤ ⌊z⌋ := fun z => by
    rw [Int.le_floor]
    push_cast
    rfl
  rcases lt_or_ge ((mantissa.toNat : ℚ) * 2 ^ e) (1 / 2) with hsmall | hlarge
  · have hzero : ⌊(mantissa.toNat : ℚ) * 2 ^ e⌋ = 0 :=
      Int.floor_eq_zero_iff.mpr ⟨hpos.le, by linarith⟩
    have hmode := roundsUp_of_small hodd hpos hsmall
    rw [iff_false_left (not_overflows_of_small hlow hhigh hsmall w), hvalue]
    refine not_congr ?_
    by_cases hup : rounding.RoundsUp (mantissa.toNat * 2 ^ e)
    · rw [toInteger_of_roundsUp hup, hzero, zero_add, and_iff_left ⟨hmode.mp hup, hsmall⟩]
      constructor
      · intro hle
        by_contra hw
        exact absurd hle (not_le.mpr (one_lt_pow₀ (by norm_num) hw))
      · rintro rfl
        exact le_rfl
    · rw [toInteger_of_not_roundsUp hup, hzero]
      exact iff_of_false (not_le.mpr (by positivity)) fun h => hup (hmode.mpr h.2.1)
  · have hexp := (half_le_iff hlow hhigh).mp hlarge
    refine iff_of_true ?_ fun h => absurd h.2.2 (not_lt.mpr hlarge)
    unfold Overflows
    rw [hvalue]
    by_cases hup : rounding.RoundsUp (mantissa.toNat * 2 ^ e)
    · rw [toInteger_of_roundsUp hup, ← Int.floor_add_one, ← hlimit]
      exact ⟨fun h => h.elim (fun h => by linarith) fun h => h.2.2, fun h => .inr ⟨hup, hexp, h⟩⟩
    · rw [toInteger_of_not_roundsUp hup, ← hlimit]
      exact ⟨fun h => h.elim id fun h => absurd h.1 hup, .inl⟩

theorem magnitudeBits_eq_zero_iff (hbits : 1 ≤ ibits) :
    magnitudeBits ibits unsigned = 0 ↔ unsigned = false ∧ ibits = 1 := by
  cases unsigned with
  | false =>
      exact ⟨fun h => ⟨rfl, by simp [magnitudeBits] at h; omega⟩, fun h => by simp [magnitudeBits, h.2]⟩
  | true => exact iff_of_false (by simp [magnitudeBits]; omega) (by simp)

/-- A positive number is misjudged when it is rounded up to one from far below, and one is
out of range. -/
theorem positive_returns_iff {result : BitVec 64} (hlow : 2 ^ 62 ≤ mantissa.toNat)
    (hhigh : mantissa.toNat < 2 ^ 63) (hbits : 1 ≤ ibits) (hle : ibits ≤ 64)
    (hodd : rounding ≠ .toOdd)
    (hover : Overflows rounding false mantissa e (magnitudeBits ibits unsigned) →
      result = ones (magnitudeBits ibits unsigned))
    (hfits : ¬Overflows rounding false mantissa e (magnitudeBits ibits unsigned) →
      result = BitVec.ofInt 64 (rounding.toInteger (fixedValue false mantissa e)) &&&
        ones ibits) :
    (result.toNat : ℤ) =
        saturate ibits unsigned (rounding.toInteger (fixedValue false mantissa e)) % 2 ^ ibits ↔
      ¬(unsigned = false ∧ ibits = 1 ∧ rounding = .towardsPlusInfinity ∧
        fixedValue false mantissa e < 1 / 2) := by
  have hvalue : fixedValue false mantissa e = mantissa.toNat * 2 ^ e := rfl
  have hpos := @scaled_pos mantissa e hlow
  have hnonneg : 0 ≤ rounding.toInteger (fixedValue false mantissa e) :=
    (Int.floor_nonneg.mpr (hvalue ▸ hpos.le)).trans (toInteger_bounds rounding _).1
  have hexact := positive_overflows_iff (e := e) hlow hhigh hodd (magnitudeBits ibits unsigned)
  rw [magnitudeBits_eq_zero_iff hbits, and_assoc] at hexact
  rw [saturate_of_nonneg hnonneg]
  have hwle := two_pow_magnitudeBits_le ibits unsigned
  have hone : (1 : ℤ) ≤ 2 ^ magnitudeBits ibits unsigned := one_le_pow₀ (by norm_num)
  have hw64 : magnitudeBits ibits unsigned ≤ 64 := (Nat.sub_le _ _).trans hle
  by_cases hbad : unsigned = false ∧ ibits = 1 ∧ rounding = .towardsPlusInfinity ∧
      fixedValue false mantissa e < 1 / 2
  · obtain ⟨rfl, rfl, rfl, hsmall⟩ := hbad
    have hup : RoundingMode.RoundsUp .towardsPlusInfinity (fixedValue false mantissa e) :=
      (roundsUp_of_small hodd hpos hsmall).mpr rfl
    have hzero : ⌊fixedValue false mantissa e⌋ = 0 :=
      Int.floor_eq_zero_iff.mpr ⟨hpos.le, lt_trans hsmall (by norm_num)⟩
    rw [hfits (not_overflows_of_small hlow hhigh hsmall _), toNat_ofInt_and_ones hle,
      toInteger_of_roundsUp hup, hzero]
    exact iff_of_false (by decide) fun h => h ⟨rfl, rfl, rfl, hsmall⟩
  · refine iff_of_true ?_ hbad
    have htest := hexact.mpr hbad
    by_cases hT : Overflows rounding false mantissa e (magnitudeBits ibits unsigned)
    · have hge := htest.mp hT
      rw [hover hT, toNat_ones hw64, min_eq_left (by omega),
        Int.emod_eq_of_lt (by omega) (by omega)]
      push_cast [Nat.one_le_two_pow]
      rfl
    · have hlt := not_le.mp fun h => hT (htest.mpr h)
      rw [hfits hT, toNat_ofInt_and_ones hle, min_eq_right (by omega)]

theorem two_pow_eq_emod_iff {k : ℕ} {z : ℤ} (hz : z ≤ 0) :
    (2 : ℤ) ^ k = max (-2 ^ k) z % 2 ^ (k + 1) ↔ z ≤ -2 ^ k := by
  have hM : (1 : ℤ) ≤ 2 ^ k := one_le_pow₀ (by norm_num)
  have hpow : (2 : ℤ) ^ (k + 1) = 2 * 2 ^ k := by rw [pow_succ, mul_comm]
  have hmod : ∀ a : ℤ, a < 0 → -2 ^ k ≤ a → a % 2 ^ (k + 1) = a + 2 ^ (k + 1) := fun a ha hle => by
    rw [← Int.add_emod_right]
    exact Int.emod_eq_of_lt (by omega) (by omega)
  rcases le_or_gt z (-2 ^ k) with hle | hgt
  · rw [max_eq_left hle, hmod _ (by omega) le_rfl]
    omega
  · rw [max_eq_right hgt.le]
    rcases lt_or_eq_of_le hz with hneg | rfl
    · rw [hmod z hneg hgt.le]
      omega
    · rw [Int.zero_emod]
      omega

theorem toInteger_nonpos {x : ℚ} (hx : x < 0) : rounding.toInteger x ≤ 0 := by
  have hfloor : ⌊x⌋ < 0 := Int.floor_lt.mpr (by simpa using hx)
  have hbounds := toInteger_bounds rounding x
  omega

theorem roundsUp_of_floor_lt {x : ℚ} (hlt : ⌊x⌋ < rounding.toInteger x) : rounding.RoundsUp x := by
  by_contra hup
  rw [toInteger_of_not_roundsUp hup] at hlt
  exact lt_irrefl _ hlt

/-- Where a negative number is taken to overflow although its integer is above the smallest one,
it was rounded up to the second smallest. -/
theorem lt_toInteger_iff_of_overflows (hlow : 2 ^ 62 ≤ mantissa.toNat)
    (hhigh : mantissa.toNat < 2 ^ 63)
    (hT : Overflows rounding true mantissa e (ibits - 1)) :
    -2 ^ (ibits - 1) < rounding.toInteger (fixedValue true mantissa e) ↔
      fixedValue true mantissa e < 1 - 2 ^ (ibits - 1) ∧
        rounding.toInteger (fixedValue true mantissa e) = 1 - 2 ^ (ibits - 1) ∧
        (ibits = 1 → fixedValue true mantissa e ≤ -1 / 2) := by
  refine ⟨fun hgt => ?_, fun h => by omega⟩
  have hvalue : fixedValue true mantissa e = -(mantissa.toNat * 2 ^ e) := rfl
  have hhalf := half_le_iff (e := e) hlow hhigh
  unfold Overflows at hT
  rw [hvalue] at hT hgt ⊢
  generalize (mantissa.toNat : ℚ) * 2 ^ e = y at hhalf hT hgt ⊢
  generalize ibits - 1 = k at hT hgt ⊢
  have hfloor := Int.floor_le (-y)
  have hbounds := toInteger_bounds rounding (-y)
  have hup : rounding.RoundsUp (-y) := by
    rcases hT with hge | hT
    · refine roundsUp_of_floor_lt (lt_of_le_of_lt ?_ hgt)
      have : ((⌊-y⌋ : ℤ) : ℚ) ≤ ((-2 ^ k : ℤ) : ℚ) := by
        push_cast
        linarith
      exact_mod_cast this
    · exact hT.1
  have hint : ∀ z : ℤ, -y ≠ z := fun z heq => hup.fract_ne_zero (by rw [heq, Int.fract_intCast])
  have hR := toInteger_of_roundsUp hup
  have hge : ((-2 ^ k : ℤ) : ℚ) ≤ ⌊-y⌋ := by exact_mod_cast (show -2 ^ k ≤ ⌊-y⌋ by omega)
  have hlt : y < 2 ^ k := by
    have hne := hint (-2 ^ k)
    push_cast at hge hne
    rcases lt_or_eq_of_le (hge.trans hfloor) with h | h
    · linarith
    · exact absurd h.symm hne
  obtain ⟨-, hexp, hnear⟩ := hT.resolve_left (not_le.mpr hlt)
  have hlt' : -y < 1 - 2 ^ k := by
    have hne := hint (1 - 2 ^ k)
    push_cast at hne
    exact lt_of_le_of_ne (by linarith) hne
  have hfloorlt : ⌊-y⌋ < 1 - 2 ^ k := Int.floor_lt.mpr (by push_cast; exact hlt')
  have := hhalf.mpr hexp
  exact ⟨hlt', by omega, fun _ => by linarith⟩

/-- Where a negative number is not taken to overflow, its integer is in range. -/
theorem toInteger_of_not_overflows (hlow : 2 ^ 62 ≤ mantissa.toNat)
    (hhigh : mantissa.toNat < 2 ^ 63) (hbits : 1 ≤ ibits)
    (hT : ¬Overflows rounding true mantissa e (ibits - 1)) :
    -2 ^ (ibits - 1) ≤ rounding.toInteger (fixedValue true mantissa e) ∧
      ¬(fixedValue true mantissa e < 1 - 2 ^ (ibits - 1) ∧
        rounding.toInteger (fixedValue true mantissa e) = 1 - 2 ^ (ibits - 1) ∧
        (ibits = 1 → fixedValue true mantissa e ≤ -1 / 2)) := by
  have hvalue : fixedValue true mantissa e = -(mantissa.toNat * 2 ^ e) := rfl
  have hhalf := half_le_iff (e := e) hlow hhigh
  unfold Overflows at hT
  rw [hvalue] at hT ⊢
  generalize (mantissa.toNat : ℚ) * 2 ^ e = y at hhalf hT ⊢
  obtain ⟨k, rfl⟩ := Nat.exists_eq_add_of_le' hbits
  rw [Nat.add_sub_cancel] at hT ⊢
  obtain ⟨hsmall, hnotup⟩ := not_or.mp hT
  have hge : -2 ^ k ≤ ⌊-y⌋ := Int.le_floor.mpr (by push_cast; linarith)
  refine ⟨hge.trans (toInteger_bounds rounding _).1, ?_⟩
  rintro ⟨hlt, heq, htiny⟩
  have hfloorlt : ⌊-y⌋ < 1 - 2 ^ k := Int.floor_lt.mpr (by push_cast; exact hlt)
  refine hnotup ⟨roundsUp_of_floor_lt (by omega), hhalf.mp ?_, by linarith⟩
  rcases Nat.eq_zero_or_pos k with rfl | hk
  · linarith [htiny rfl]
  · have : (2 : ℚ) ^ 1 ≤ 2 ^ k := pow_le_pow_right₀ one_le_two hk
    linarith

/-- A negative number is misjudged when it is rounded up to the second smallest integer of
the range, unless the unit added to the mantissa lies above all its bits. -/
theorem negative_returns_iff {result : BitVec 64} (hlow : 2 ^ 62 ≤ mantissa.toNat)
    (hhigh : mantissa.toNat < 2 ^ 63) (hbits : 1 ≤ ibits) (hle : ibits ≤ 64)
    (hover : Overflows rounding true mantissa e (ibits - 1) → result = 1#64 <<< (ibits - 1))
    (hfits : ¬Overflows rounding true mantissa e (ibits - 1) →
      result = BitVec.ofInt 64 (rounding.toInteger (fixedValue true mantissa e)) &&& ones ibits) :
    (result.toNat : ℤ) =
        saturate ibits false (rounding.toInteger (fixedValue true mantissa e)) % 2 ^ ibits ↔
      ¬(fixedValue true mantissa e < 1 - 2 ^ (ibits - 1) ∧
        rounding.toInteger (fixedValue true mantissa e) = 1 - 2 ^ (ibits - 1) ∧
        (ibits = 1 → fixedValue true mantissa e ≤ -1 / 2)) := by
  have hnonpos : rounding.toInteger (fixedValue true mantissa e) ≤ 0 :=
    toInteger_nonpos (neg_lt_zero.mpr (scaled_pos hlow))
  have hone : (1 : ℤ) ≤ 2 ^ (ibits - 1) := one_le_pow₀ (by norm_num)
  have hsat : saturate ibits false (rounding.toInteger (fixedValue true mantissa e)) =
      max (-2 ^ (ibits - 1)) (rounding.toInteger (fixedValue true mantissa e)) := by
    change max (-2 ^ (ibits - 1)) (min (2 ^ (ibits - 1) - 1) _) = _
    rw [min_eq_right (by omega)]
  rw [hsat]
  by_cases hT : Overflows rounding true mantissa e (ibits - 1)
  · have hresult : (result.toNat : ℤ) = 2 ^ (ibits - 1) := by
      rw [hover hT, toNat_one_shiftLeft (by omega)]
      push_cast
      rfl
    have hmin := two_pow_eq_emod_iff (k := ibits - 1) hnonpos
    rw [Nat.sub_add_cancel hbits] at hmin
    rw [hresult, hmin, ← lt_toInteger_iff_of_overflows hlow hhigh hT, not_lt]
  · obtain ⟨hge, hnot⟩ := toInteger_of_not_overflows hlow hhigh hbits hT
    rw [hfits hT, toNat_ofInt_and_ones hle, max_eq_right hge]
    exact iff_of_true rfl hnot

end Nonzero

/-! ### The whole operation -/

/-- The numbers for which the overflow test of a signed conversion is wrong. -/
def Misjudged (ibits : ℕ) (rounding : RoundingMode) (x : ℚ) : Prop :=
  x < 1 - 2 ^ (ibits - 1) ∧ rounding.toInteger x = 1 - 2 ^ (ibits - 1) ∧
      (ibits = 1 → x ≤ -1 / 2) ∨
    ibits = 1 ∧ rounding = .towardsPlusInfinity ∧ 0 < x ∧ x < 1 / 2

section

variable {info : FPInfo} {op : BitVec info.totalWidth} {ibits fbits : ℕ} {unsigned sign : Bool}
  {rounding : RoundingMode} {fpcr : FPCR} {mantissa : BitVec 64} {e : ℤ}

theorem returnsFixed_iff {z : ℤ} {operation : FPSR → Option (BitVec 64 × FPSR)} {P : Prop}
    (h : ∀ fpsr, ∃ result fpsr', operation fpsr = some (result, fpsr') ∧
      ((result.toNat : ℤ) = z % 2 ^ ibits ↔ P)) : ReturnsFixed ibits z operation ↔ P := by
  constructor
  · intro hreturns
    obtain ⟨result, fpsr', hrun, hresult⟩ := hreturns ⟨0#32⟩
    obtain ⟨result', fpsr'', hrun', hiff⟩ := h ⟨0#32⟩
    obtain ⟨rfl, -⟩ := Prod.mk.inj (Option.some.inj (hrun.symm.trans hrun'))
    exact hiff.mp hresult
  · intro hP fpsr
    obtain ⟨result, fpsr', hrun, hiff⟩ := h fpsr
    exact ⟨result, fpsr', hrun, hiff.mpr hP⟩

/-- Saturation is right unless the overflow test misjudges the number. -/
theorem returnsFixed_toFixedNonzero_iff (hlow : 2 ^ 62 ≤ mantissa.toNat)
    (hhigh : mantissa.toNat < 2 ^ 63) (hbits : 1 ≤ ibits) (hle : ibits ≤ 64)
    (hodd : rounding ≠ .toOdd) (hfpcr : fpcr.Untrapped) (hsign : (sign && unsigned) = false) :
    ReturnsFixed ibits
        (saturate ibits unsigned (rounding.toInteger (fixedValue sign mantissa e)))
        (toFixedNonzero ibits unsigned sign mantissa e rounding fpcr) ↔
      ¬(unsigned = false ∧ Misjudged ibits rounding (fixedValue sign mantissa e)) := by
  have hm : (0 : ℚ) < mantissa.toNat := by exact_mod_cast (show 0 < mantissa.toNat by omega)
  have hpos : (0 : ℚ) < mantissa.toNat * 2 ^ e := by positivity
  have hone : (1 : ℚ) ≤ 2 ^ (ibits - 1) := one_le_pow₀ one_le_two
  refine returnsFixed_iff fun fpsr => ?_
  obtain ⟨result, fpsr', hrun, hover, hfits⟩ := @toFixedNonzero_eq ibits unsigned sign mantissa e
    rounding fpcr hlow hhigh hbits hle hodd hfpcr fpsr
  refine ⟨result, fpsr', hrun, ?_⟩
  cases sign with
  | false =>
      have hvalue : fixedValue false mantissa e = mantissa.toNat * 2 ^ e := rfl
      rw [positive_returns_iff hlow hhigh hbits hle hodd (by simpa using hover) hfits]
      refine not_congr (and_congr_right fun _ => ?_)
      constructor
      · rintro ⟨h1, h2, h3⟩
        exact .inr ⟨h1, h2, hvalue ▸ hpos, h3⟩
      · rintro (⟨hlt, -, -⟩ | ⟨h1, h2, -, h3⟩)
        · rw [hvalue] at hlt
          linarith
        · exact ⟨h1, h2, h3⟩
  | true =>
      obtain rfl : unsigned = false := by simpa using hsign
      have hvalue : fixedValue true mantissa e = -(mantissa.toNat * 2 ^ e) := rfl
      rw [negative_returns_iff hlow hhigh hbits hle (by simpa [magnitudeBits] using hover)
        (by simpa [magnitudeBits] using hfits)]
      refine not_congr ?_
      constructor
      · exact fun h => ⟨rfl, .inl h⟩
      · rintro ⟨-, h | ⟨-, -, hpos', -⟩⟩
        · exact h
        · rw [hvalue] at hpos'
          linarith

theorem fpUnpack_infinity (h : decode info op = .infinity sign) (fpsr : FPSR) :
    fpUnpack info op fpcr fpsr =
      some ((.infinity, sign, toNormalized sign 1000000 1#64), fpsr) := by
  unfold decode at h
  simp only at h
  split_ifs at h with hones hfrac hsubnormal
  obtain rfl : signBit info op = sign := by simpa using h
  have hzero : fracRaw info op = 0 := BitVec.eq_of_toNat_eq (by simpa using hfrac)
  rw [fpUnpack, fpUnpackBase_special ⟨hones, .inr fpcr.ahp_clearAHP⟩, if_pos hzero]

theorem fpUnpack_nan (h : decode info op = .nan) (fpsr : FPSR) :
    ∃ type sign, fpUnpack info op fpcr fpsr = some ((type, sign, ⟨sign, 0, 0#64⟩), fpsr) ∧
      (type = .sNaN ∨ type = .qNaN) := by
  unfold decode at h
  simp only at h
  split_ifs at h with hones hfrac hsubnormal
  have hne : fracRaw info op ≠ 0 := fun heq => hfrac (by rw [heq]; simp)
  refine ⟨_, _, by rw [fpUnpack, fpUnpackBase_special ⟨hones, .inr fpcr.ahp_clearAHP⟩,
    if_neg hne], ?_⟩
  split
  · exact .inr rfl
  · exact .inl rfl

theorem assertions_hold (hle : ibits ≤ 64) (hf : fbits ≤ ibits) (hodd : rounding ≠ .toOdd) :
    ¬(rounding = .toOdd ∨ 64 < ibits ∨ ibits < fbits) := by
  rintro (h | h | h)
  · exact hodd h
  · omega
  · omega

theorem fpToFixed_eq {type : FPType} {value : FPUnpacked} (hle : ibits ≤ 64)
    (hf : fbits ≤ ibits) (hodd : rounding ≠ .toOdd) {fpsr : FPSR}
    (hunpack : fpUnpack info op fpcr fpsr = some ((type, sign, value), fpsr))
    (htype : type ≠ .sNaN ∧ type ≠ .qNaN) (hm : value.mantissa ≠ 0#64)
    (hsign : (sign && unsigned) = false) :
    fpToFixed info ibits op fbits unsigned fpcr rounding fpsr =
      toFixedNonzero ibits unsigned sign value.mantissa (value.exponent + fbits - 62) rounding
        fpcr fpsr := by
  have hnumber : ¬(type = .sNaN ∨ type = .qNaN) := not_or.mpr htype
  rw [fpToFixed, if_neg (assertions_hold hle hf hodd)]
  simp only [hunpack, Option.bind_eq_bind, Option.bind_some, if_neg hnumber, if_neg hm, hsign]
  rfl

theorem saturate_zero (ibits : ℕ) (unsigned : Bool) : saturate ibits unsigned 0 = 0 := by
  have hone : (1 : ℤ) ≤ 2 ^ magnitudeBits ibits unsigned := one_le_pow₀ (by norm_num)
  rw [saturate_of_nonneg le_rfl]
  exact min_eq_right (by omega)

theorem saturate_unsigned_of_nonpos {z : ℤ} (hz : z ≤ 0) : saturate ibits true z = 0 := by
  change max 0 (min _ z) = 0
  exact max_eq_left (min_le_of_right_le hz)

/-- A negative number has no unsigned counterpart but zero. -/
theorem fpToFixed_negative_unsigned {type : FPType} {value : FPUnpacked} (hle : ibits ≤ 64)
    (hf : fbits ≤ ibits) (hodd : rounding ≠ .toOdd) (hplain : fpcr.Plain)
    (hunpack : ∀ fpsr, fpUnpack info op fpcr fpsr = some ((type, true, value), fpsr))
    (htype : type ≠ .sNaN ∧ type ≠ .qNaN) (hm : value.mantissa ≠ 0#64) (fpsr : FPSR) :
    fpToFixed info ibits op fbits true fpcr rounding fpsr =
      some (0#64, fpsr.raise FPExc.invalidOp.cumulativeBit) := by
  simp [fpToFixed, assertions_hold hle hf hodd, hunpack, htype, hm,
    fpProcessException_of_untrapped hplain.untrapped]

/-- What becomes of a finite number: zero is returned at once, a negative number is rejected by
an unsigned conversion, every other number reaches the overflow test. -/
theorem fpToFixed_finite_cases {magnitude : ℚ} (hle : ibits ≤ 64) (hf : fbits ≤ ibits)
    (hplain : fpcr.Plain) (hodd : rounding ≠ .toOdd)
    (h : decode info op = .finite sign magnitude) :
    signed sign magnitude * 2 ^ fbits = 0 ∧
        (∀ fpsr, fpToFixed info ibits op fbits unsigned fpcr rounding fpsr = some (0#64, fpsr)) ∨
      (unsigned = true ∧ signed sign magnitude * 2 ^ fbits < 0 ∧
        ∀ fpsr, fpToFixed info ibits op fbits unsigned fpcr rounding fpsr =
          some (0#64, fpsr.raise FPExc.invalidOp.cumulativeBit)) ∨
      ∃ mantissa e, 2 ^ 62 ≤ mantissa.toNat ∧ mantissa.toNat < 2 ^ 63 ∧
        fixedValue sign mantissa e = signed sign magnitude * 2 ^ fbits ∧
        (sign && unsigned) = false ∧
        fpToFixed info ibits op fbits unsigned fpcr rounding =
          toFixedNonzero ibits unsigned sign mantissa e rounding fpcr := by
  obtain ⟨type, value, hunpack, hvalue⟩ := fpUnpack_spec hplain.fz hplain.fz16 h
  rw [← hvalue.value_eq]
  rcases hvalue.type_eq with ⟨rfl, hzero⟩ | ⟨rfl, hnormal⟩
  · refine .inl ⟨by rw [FPUnpacked.value_eq_zero hzero, zero_mul], fun fpsr => ?_⟩
    simp [fpToFixed, assertions_hold hle hf hodd, hunpack, hzero]
  · have hm : value.mantissa ≠ 0#64 := fun hzero => by
      have := hnormal.le_mantissa
      rw [hzero] at this
      exact absurd this (by decide)
    by_cases hsign : sign = true ∧ unsigned = true
    · obtain ⟨rfl, rfl⟩ := hsign
      refine .inr (.inl ⟨rfl, ?_, fpToFixed_negative_unsigned hle hf hodd hplain hunpack
        (by decide) hm⟩)
      have hpos := magnitude_pos hm
      rw [FPUnpacked.value_eq_signed, hvalue.sign_eq]
      exact mul_neg_of_neg_of_pos (by simpa [signed] using hpos) (by positivity)
    · have hsign' : (sign && unsigned) = false := by
        simpa [Bool.and_eq_true] using hsign
      refine .inr (.inr ⟨value.mantissa, value.exponent + fbits - 62, hnormal.le_mantissa,
        hnormal.mantissa_lt, ?_, hsign',
        funext fun fpsr => fpToFixed_eq hle hf hodd (hunpack fpsr) (by decide) hm hsign'⟩)
      rw [← fixedValue_eq, hvalue.sign_eq]

/-- An infinity is converted as a number that no range contains. -/
theorem fpToFixed_infinity_cases (hle : ibits ≤ 64) (hf : fbits ≤ ibits) (hplain : fpcr.Plain)
    (hodd : rounding ≠ .toOdd) (h : decode info op = .infinity sign) :
    (sign = true ∧ unsigned = true ∧
        ∀ fpsr, fpToFixed info ibits op fbits unsigned fpcr rounding fpsr =
          some (0#64, fpsr.raise FPExc.invalidOp.cumulativeBit)) ∨
      ∃ mantissa e x, 2 ^ 62 ≤ mantissa.toNat ∧ mantissa.toNat < 2 ^ 63 ∧
        fixedValue sign mantissa e = signed sign x ∧ 2 ^ 64 ≤ x ∧ (sign && unsigned) = false ∧
        fpToFixed info ibits op fbits unsigned fpcr rounding =
          toFixedNonzero ibits unsigned sign mantissa e rounding fpcr := by
  have hunpack := @fpUnpack_infinity info op sign fpcr h
  obtain ⟨hs, hmagnitude, hlow, hhigh, -, -, -⟩ := @toNormalized_spec sign 1000000 1#64 1
    (by decide) (by decide) (by norm_num)
  obtain ⟨value, hvalue⟩ : ∃ value, value = toNormalized sign 1000000 1#64 := ⟨_, rfl⟩
  simp only [← hvalue] at hunpack hs hmagnitude hlow hhigh
  have hm : value.mantissa ≠ 0#64 := fun hzero => by
    rw [hzero] at hlow
    exact absurd hlow (by decide)
  by_cases hsign : sign = true ∧ unsigned = true
  · obtain ⟨rfl, rfl⟩ := hsign
    exact .inl ⟨rfl, rfl, fpToFixed_negative_unsigned hle hf hodd hplain hunpack (by decide) hm⟩
  · have hsign' : (sign && unsigned) = false := by simpa [Bool.and_eq_true] using hsign
    refine .inr ⟨value.mantissa, value.exponent + fbits - 62, value.magnitude * 2 ^ fbits, hlow,
      hhigh, ?_, ?_, hsign',
      funext fun fpsr => fpToFixed_eq hle hf hodd (hunpack fpsr) (by decide) hm hsign'⟩
    · rw [← hs, fixedValue_eq, FPUnpacked.value_eq_signed, signed_mul]
    · have hpow : (2 : ℚ) ^ (64 : ℕ) ≤ 2 ^ (1000000 : ℤ) := by
        rw [← zpow_natCast]
        exact zpow_le_zpow_right₀ one_le_two (by norm_num)
      have hone : (1 : ℚ) ≤ 2 ^ fbits := one_le_pow₀ one_le_two
      rw [hmagnitude, show ((1#64).toNat : ℚ) = 1 from rfl, one_mul]
      exact hpow.trans (le_mul_of_one_le_right (by positivity) hone)

theorem fpToFixed_nan_eq (hle : ibits ≤ 64) (hf : fbits ≤ ibits) (hplain : fpcr.Plain)
    (hodd : rounding ≠ .toOdd) (h : decode info op = .nan) (fpsr : FPSR) :
    fpToFixed info ibits op fbits unsigned fpcr rounding fpsr =
      some (0#64, fpsr.raise FPExc.invalidOp.cumulativeBit) := by
  obtain ⟨type, sign, hunpack, htype⟩ := @fpUnpack_nan info op fpcr h fpsr
  simp [fpToFixed, assertions_hold hle hf hodd, hunpack, htype,
    fpProcessException_of_untrapped hplain.untrapped]

theorem ReturnsFixed.zero {operation : FPSR → Option (BitVec 64 × FPSR)} {raised : FPSR → FPSR}
    (h : ∀ fpsr, operation fpsr = some (0#64, raised fpsr)) : ReturnsFixed ibits 0 operation :=
  fun fpsr => ⟨0#64, raised fpsr, h fpsr, by simp⟩

theorem fpToFixed_finite_iff {magnitude : ℚ} (hbits : 1 ≤ ibits) (hle : ibits ≤ 64)
    (hf : fbits ≤ ibits) (hplain : fpcr.Plain) (hodd : rounding ≠ .toOdd)
    (h : decode info op = .finite sign magnitude) :
    ReturnsFixed ibits
        (saturate ibits unsigned (rounding.toInteger (signed sign magnitude * 2 ^ fbits)))
        (fpToFixed info ibits op fbits unsigned fpcr rounding) ↔
      ¬(unsigned = false ∧ Misjudged ibits rounding (signed sign magnitude * 2 ^ fbits)) := by
  have hone : (1 : ℚ) ≤ 2 ^ (ibits - 1) := one_le_pow₀ one_le_two
  rcases @fpToFixed_finite_cases info op ibits fbits unsigned sign rounding fpcr magnitude hle hf
    hplain hodd h with
    ⟨hzero, hrun⟩ | ⟨rfl, hneg, hrun⟩ | ⟨mantissa, e, hlow, hhigh, hvalue, hsign, hrun⟩
  · rw [hzero, toInteger_zero, saturate_zero]
    refine iff_of_true (.zero hrun) ?_
    rintro ⟨-, ⟨hlt, -, -⟩ | ⟨-, -, hpos, -⟩⟩
    · linarith
    · exact lt_irrefl _ hpos
  · rw [saturate_unsigned_of_nonpos (toInteger_nonpos hneg)]
    exact iff_of_true (.zero hrun) (by simp)
  · rw [hrun, ← hvalue]
    exact returnsFixed_toFixedNonzero_iff hlow hhigh hbits hle hodd hplain.untrapped hsign

theorem fixedMax_lt (hle : ibits ≤ 64) : fixedMax ibits unsigned < 2 ^ 64 := by
  have hpow : (2 : ℤ) ^ ibits ≤ 2 ^ 64 := pow_le_pow_right₀ (by norm_num) hle
  have hhalf : (2 : ℤ) ^ (ibits - 1) ≤ 2 ^ 63 := pow_le_pow_right₀ (by norm_num) (by omega)
  cases unsigned <;> simp only [fixedMax, ↓reduceIte, Bool.false_eq_true] <;> omega

theorem lt_fixedMin (hle : ibits ≤ 64) : 1 - 2 ^ 64 < fixedMin ibits unsigned := by
  have hhalf : (2 : ℤ) ^ (ibits - 1) ≤ 2 ^ 63 := pow_le_pow_right₀ (by norm_num) (by omega)
  cases unsigned <;> simp only [fixedMin, ↓reduceIte, Bool.false_eq_true] <;> omega

theorem fixedMax_nonneg (ibits : ℕ) (unsigned : Bool) : 0 ≤ fixedMax ibits unsigned := by
  have hone : (1 : ℤ) ≤ 2 ^ magnitudeBits ibits unsigned := one_le_pow₀ (by norm_num)
  rw [fixedMax_eq]
  omega

theorem le_toInteger_of_large {x : ℚ} (hx : 2 ^ 64 ≤ x) : 2 ^ 64 ≤ rounding.toInteger x :=
  (Int.le_floor.mpr (by exact_mod_cast hx)).trans (toInteger_bounds rounding x).1

theorem toInteger_le_of_large {x : ℚ} (hx : 2 ^ 64 ≤ x) :
    rounding.toInteger (-x) ≤ 1 - 2 ^ 64 := by
  have hfloor : ⌊-x⌋ ≤ -2 ^ 64 := by
    have := (Int.floor_le (-x)).trans (neg_le_neg hx)
    exact_mod_cast this
  have hbounds := toInteger_bounds rounding (-x)
  omega

theorem saturate_of_large {x : ℚ} (hle : ibits ≤ 64) (hx : 2 ^ 64 ≤ x) :
    saturate ibits unsigned (rounding.toInteger (signed sign x)) =
      if sign then fixedMin ibits unsigned else fixedMax ibits unsigned := by
  have hmin := fixedMin_nonpos ibits unsigned
  have hmax := fixedMax_nonneg ibits unsigned
  cases sign with
  | false =>
      have hlarge := @le_toInteger_of_large rounding x hx
      have hlt := @fixedMax_lt ibits unsigned hle
      change max _ (min _ (rounding.toInteger x)) = fixedMax ibits unsigned
      rw [min_eq_left (by omega), max_eq_right (by omega)]
  | true =>
      have hlarge := @toInteger_le_of_large rounding x hx
      have hlt := @lt_fixedMin ibits unsigned hle
      change max _ (min _ (rounding.toInteger (-x))) = fixedMin ibits unsigned
      rw [min_eq_right (by omega), max_eq_left (by omega)]

theorem not_misjudged_of_large {x : ℚ} (hle : ibits ≤ 64) (hx : 2 ^ 64 ≤ x) :
    ¬Misjudged ibits rounding (signed sign x) := by
  have hone : (1 : ℚ) ≤ 2 ^ (ibits - 1) := one_le_pow₀ one_le_two
  cases sign with
  | false =>
      change ¬Misjudged ibits rounding x
      rintro (⟨hlt, -, -⟩ | ⟨-, -, -, hlt⟩)
      · linarith
      · linarith
  | true =>
      change ¬Misjudged ibits rounding (-x)
      have hlarge := @toInteger_le_of_large rounding x hx
      have hhalf : (2 : ℤ) ^ (ibits - 1) ≤ 2 ^ 63 := pow_le_pow_right₀ (by norm_num) (by omega)
      rintro (⟨-, heq, -⟩ | ⟨-, -, hpos, -⟩)
      · omega
      · linarith

theorem fpToFixed_infinity (hbits : 1 ≤ ibits) (hle : ibits ≤ 64) (hf : fbits ≤ ibits)
    (hplain : fpcr.Plain) (hodd : rounding ≠ .toOdd) (h : decode info op = .infinity sign) :
    ReturnsFixed ibits (if sign then fixedMin ibits unsigned else fixedMax ibits unsigned)
      (fpToFixed info ibits op fbits unsigned fpcr rounding) := by
  rcases @fpToFixed_infinity_cases info op ibits fbits unsigned sign rounding fpcr hle hf hplain
    hodd h with ⟨rfl, rfl, hrun⟩ | ⟨mantissa, e, x, hlow, hhigh, hvalue, hlarge, hsign, hrun⟩
  · exact .zero hrun
  · rw [hrun, ← saturate_of_large hle hlarge, ← hvalue]
    refine (returnsFixed_toFixedNonzero_iff hlow hhigh hbits hle hodd hplain.untrapped hsign).mpr ?_
    rw [hvalue]
    exact fun hbad => not_misjudged_of_large hle hlarge hbad.2

/-- The conversion returns the number times `2 ^ fbits`, rounded in the mode asked for and
brought into the range of the result, unless it is signed and the number misjudged. -/
theorem fpToFixed_saturates_iff (hbits : 1 ≤ ibits) (hle : ibits ≤ 64) (hf : fbits ≤ ibits)
    (hplain : fpcr.Plain) (hodd : rounding ≠ .toOdd) :
    (∀ v, (decode info op).toRat = some v →
      (ReturnsFixed ibits (saturate ibits unsigned (rounding.toInteger (v * 2 ^ fbits)))
          (fpToFixed info ibits op fbits unsigned fpcr rounding) ↔
        ¬(unsigned = false ∧ Misjudged ibits rounding (v * 2 ^ fbits)))) ∧
    (∀ sign, decode info op = .infinity sign →
      ReturnsFixed ibits (if sign then fixedMin ibits unsigned else fixedMax ibits unsigned)
        (fpToFixed info ibits op fbits unsigned fpcr rounding)) ∧
    (decode info op = .nan →
      ReturnsFixed ibits 0 (fpToFixed info ibits op fbits unsigned fpcr rounding)) := by
  refine ⟨fun v hv => ?_, fun sign h => fpToFixed_infinity hbits hle hf hplain hodd h,
    fun h => .zero (fpToFixed_nan_eq hle hf hplain hodd h)⟩
  obtain ⟨sign, magnitude, hfinite, rfl⟩ := exists_finite hv
  exact fpToFixed_finite_iff hbits hle hf hplain hodd hfinite

end

/-- The number one as a word of 32 bits. -/
theorem fpToFixed_saturates_one :
    ReturnsFixed 32 (saturate 32 false (RoundingMode.towardsZero.toInteger (1 * 2 ^ 0)))
      (fpToFixed .double 32 0x3FF0000000000000#64 0 false ⟨0#32⟩ .towardsZero) := by
  refine (((fpToFixed_saturates_iff (by norm_num) (by norm_num) (by norm_num) plain_zero
    (by decide)).1 1 ?_).mpr ?_)
  · exact toRat_decode false 1023 0 rfl rfl rfl (by decide) (by norm_num [signed, FPInfo.double])
  · rintro ⟨-, ⟨hlt, -, -⟩ | ⟨hone, -, -, -⟩⟩
    · norm_num at hlt
    · norm_num at hone

/-- The number -2147483647.5 is rounded towards zero to an integer of 32 bits, but the
conversion returns the smallest one. -/
theorem fpToFixed_not_saturates :
    (decode .double 0xC1DFFFFFFFE00000#64).toRat = some (-2147483647.5) ∧
    saturate 32 false (RoundingMode.towardsZero.toInteger (-2147483647.5 * 2 ^ 0)) = -2147483647 ∧
    ¬ReturnsFixed 32
        (saturate 32 false (RoundingMode.towardsZero.toInteger (-2147483647.5 * 2 ^ 0)))
        (fpToFixed .double 32 0xC1DFFFFFFFE00000#64 0 false ⟨0#32⟩ .towardsZero) := by
  have hsaturate : saturate 32 false
      (RoundingMode.towardsZero.toInteger (-2147483647.5 * 2 ^ 0)) = -2147483647 := by
    norm_num [RoundingMode.toInteger, saturate, fixedMin, fixedMax]
  refine ⟨toRat_decode true 1053 0xFFFFFFFE00000 rfl rfl rfl (by decide)
    (by norm_num [signed, FPInfo.double]), hsaturate, fun h => ?_⟩
  rw [hsaturate] at h
  obtain ⟨result, fpsr', hrun, hresult⟩ := h ⟨0#32⟩
  have hcode : fpToFixed .double 32 0xC1DFFFFFFFE00000#64 0 false ⟨0#32⟩ .towardsZero ⟨0#32⟩ =
      some (0x80000000#64, ⟨1#32⟩) := rfl
  rw [hcode] at hrun
  obtain ⟨rfl, -⟩ := Prod.mk.inj (Option.some.inj hrun)
  exact absurd hresult (by decide)

end Umbra.FP
