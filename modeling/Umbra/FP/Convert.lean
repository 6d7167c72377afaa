import Umbra.FP.RoundTrip
import Umbra.FP.ToFixed

/-!
`FPConvert`: conversion between the floating-point formats.

A number of a narrow format is a normal number of a wider one, so that widening
it is exact and narrowing gives it back; the payload of a NaN keeps its place
below the quiet bit.  A number of a wide format is rounded once.
-/

namespace Umbra.FP

open Umbra.Lib

def fpConvertNaN (infoFrom infoTo : FPInfo) (op : BitVec infoFrom.totalWidth) :
    BitVec infoTo.totalWidth :=
  let sign := op.getLsbD (infoFrom.totalWidth - 1)
  let frac : BitVec 64 :=
    if infoFrom.totalWidth = 64 then (op.extractLsb' 0 51).setWidth 64
    else if infoFrom.totalWidth = 32 then (op.extractLsb' 0 22).setWidth 64 <<< 29
    else (op.extractLsb' 0 9).setWidth 64 <<< 42
  let shiftedSign := (BitVec.ofBool sign).setWidth 64 <<< (infoTo.totalWidth - 1)
  let exponent := ones (infoTo.totalWidth - infoTo.explicitMantissaWidth)
  if infoTo.totalWidth = 64 then
    (shiftedSign ||| exponent <<< 51 ||| frac).setWidth infoTo.totalWidth
  else if infoTo.totalWidth = 32 then
    (shiftedSign ||| exponent <<< 22 ||| (frac.extractLsb' 29 22).setWidth 64).setWidth
      infoTo.totalWidth
  else
    (shiftedSign ||| exponent <<< 9 ||| (frac.extractLsb' 42 9).setWidth 64).setWidth
      infoTo.totalWidth

def fpConvert (infoFrom infoTo : FPInfo) (op : BitVec infoFrom.totalWidth) (fpcr : FPCR)
    (rounding : RoundingMode) (fpsr : FPSR) : Option (BitVec infoTo.totalWidth × FPSR) := do
  let ((type, sign, value), fpsr) ← fpUnpackCV infoFrom op fpcr fpsr
  let isAlthp := infoTo.totalWidth == 16 && fpcr.ahp
  if type = .sNaN ∨ type = .qNaN then
    let result := if isAlthp then infoTo.zero sign else if fpcr.dn then infoTo.defaultNaN
      else fpConvertNaN infoFrom infoTo op
    let fpsr ← raiseIf (type = .sNaN ∨ isAlthp) .invalidOp fpcr fpsr
    return (result, fpsr)
  else if type = .infinity then
    if isAlthp then
      let fpsr ← fpProcessException .invalidOp fpcr fpsr
      return (((BitVec.ofBool sign).setWidth 32 <<< 15 ||| 0x7FFF#32).setWidth infoTo.totalWidth,
        fpsr)
    else return (infoTo.infinity sign, fpsr)
  else if type = .zero then return (infoTo.zero sign, fpsr)
  else
    fpRoundCV infoTo value fpcr rounding fpsr

def formatPairs : List (FPInfo × FPInfo) :=
  [(.half, .single), (.half, .double), (.single, .double)]

variable {narrow wide : FPInfo}

theorem getLsbD_ones {count : ℕ} (h : count ≤ 64) (i : ℕ) :
    (ones count).getLsbD i = decide (i < count) := by
  unfold ones
  split
  · rename_i hzero
    simp [hzero]
  · rw [BitVec.getLsbD_ushiftRight, BitVec.getLsbD_not, BitVec.getLsbD_zero]
    simp
    omega

theorem getLsbD_fpConvertNaN {infoFrom infoTo : FPInfo}
    (hpair : (infoFrom, infoTo) ∈ formatPairs ∨ (infoTo, infoFrom) ∈ formatPairs)
    (op : BitVec infoFrom.totalWidth) {i : ℕ} (hi : i < infoTo.totalWidth) :
    (fpConvertNaN infoFrom infoTo op).getLsbD i =
      if i = infoTo.totalWidth - 1 then op.getLsbD (infoFrom.totalWidth - 1)
      else if infoTo.explicitMantissaWidth - 1 ≤ i then true
      else decide (infoTo.explicitMantissaWidth ≤ i + infoFrom.explicitMantissaWidth) &&
        op.getLsbD (i + infoFrom.explicitMantissaWidth - infoTo.explicitMantissaWidth) := by
  simp only [formatPairs, List.mem_cons, List.not_mem_nil, or_false, Prod.mk.injEq] at hpair
  rcases hpair with (⟨rfl, rfl⟩ | ⟨rfl, rfl⟩ | ⟨rfl, rfl⟩) | (⟨rfl, rfl⟩ | ⟨rfl, rfl⟩ | ⟨rfl, rfl⟩)
  all_goals
    simp only [fpConvertNaN, FPInfo.half, FPInfo.single, FPInfo.double] at hi op ⊢
    simp
    rw [getLsbD_ones (by norm_num)]
    grind

/-! ### NaNs -/

section NaN

variable {info : FPInfo} {op : BitVec info.totalWidth} {fpcr : FPCR}

def IsQuiet (info : FPInfo) (op : BitVec info.totalWidth) : Prop :=
  ∀ i, info.explicitMantissaWidth - 1 ≤ i → i < info.exponentWidth + info.explicitMantissaWidth →
    op.getLsbD i = true

def IsSignalling (info : FPInfo) (op : BitVec info.totalWidth) (fpcr : FPCR) : Prop :=
  IsSpecial info op fpcr ∧ (fracRaw info op).toNat ≠ 0 ∧
    op.getLsbD (info.explicitMantissaWidth - 1) = false

theorem expRaw_eq_allOnes_iff :
    (expRaw info op).toNat = 2 ^ info.exponentWidth - 1 ↔
      ∀ i, info.explicitMantissaWidth ≤ i →
        i < info.exponentWidth + info.explicitMantissaWidth → op.getLsbD i = true := by
  rw [← BitVec.toNat_allOnes, BitVec.toNat_inj]
  constructor
  · intro h i hlow hhigh
    have hbit := congrArg (fun v => v.getLsbD (i - info.explicitMantissaWidth)) h
    simp only [expRaw, BitVec.getLsbD_extractLsb', BitVec.getLsbD_allOnes, Nat.add_sub_cancel' hlow,
      show i - info.explicitMantissaWidth < info.exponentWidth by omega, decide_true,
      Bool.true_and] at hbit
    exact hbit
  · intro h
    refine BitVec.eq_of_getLsbD_eq fun i hi => ?_
    simp only [expRaw, BitVec.getLsbD_extractLsb', BitVec.getLsbD_allOnes, hi, decide_true,
      Bool.true_and]
    exact h _ (by omega) (by omega)

theorem isQuiet_iff :
    IsQuiet info op ↔ (expRaw info op).toNat = 2 ^ info.exponentWidth - 1 ∧
      op.getLsbD (info.explicitMantissaWidth - 1) = true := by
  have hF := info.explicitMantissaWidth_pos
  rw [expRaw_eq_allOnes_iff]
  constructor
  · intro h
    exact ⟨fun i hlow hhigh => h i (by omega) hhigh, h _ le_rfl (by omega)⟩
  · rintro ⟨hones, hquiet⟩ i hlow hhigh
    rcases (by omega : i = info.explicitMantissaWidth - 1 ∨ info.explicitMantissaWidth ≤ i) with
      rfl | hle
    · exact hquiet
    · exact hones i hle hhigh

theorem fpUnpackCV_quiet (h : IsQuiet info op)
    (hmode : isHalfPrecision info = false ∨ fpcr.clearFZ16.ahp = false) (fpsr : FPSR) :
    fpUnpackCV info op fpcr fpsr =
      some ((.qNaN, signBit info op, ⟨signBit info op, 0, 0#64⟩), fpsr) := by
  have hF := info.explicitMantissaWidth_pos
  obtain ⟨hones, hquiet⟩ := isQuiet_iff.mp h
  have hfrac : fracRaw info op ≠ 0 := by
    intro hzero
    have hbit := congrArg (fun v => v.getLsbD (info.explicitMantissaWidth - 1)) hzero
    simp only [fracRaw, BitVec.getLsbD_extractLsb',
      show info.explicitMantissaWidth - 1 < info.explicitMantissaWidth by omega, decide_true,
      Bool.true_and, zero_add, hquiet] at hbit
    simp at hbit
  rw [fpUnpackCV, fpUnpackBase_special ⟨hones, hmode⟩, if_neg hfrac, if_pos hquiet]

variable {infoFrom infoTo : FPInfo}
  (hpair : (infoFrom, infoTo) ∈ formatPairs ∨ (infoTo, infoFrom) ∈ formatPairs)

include hpair

theorem isQuiet_fpConvertNaN (op : BitVec infoFrom.totalWidth) :
    IsQuiet infoTo (fpConvertNaN infoFrom infoTo op) := by
  intro i hlow hhigh
  have hwidth := infoTo.totalWidth_eq
  rw [getLsbD_fpConvertNaN hpair op (by omega), if_neg (by omega), if_pos hlow]

theorem fpConvertNaN_fpConvertNaN
    (hle : infoFrom.explicitMantissaWidth ≤ infoTo.explicitMantissaWidth)
    {op : BitVec infoFrom.totalWidth} (h : IsQuiet infoFrom op) :
    fpConvertNaN infoTo infoFrom (fpConvertNaN infoFrom infoTo op) = op := by
  have hwidth := infoTo.totalWidth_eq
  have hwidth' := infoFrom.totalWidth_eq
  refine BitVec.eq_of_getLsbD_eq fun i hi => ?_
  rw [getLsbD_fpConvertNaN hpair.symm _ hi]
  split_ifs with hsign hones
  · rw [getLsbD_fpConvertNaN hpair op (by omega), if_pos rfl, hsign]
  · exact (h i hones (by omega)).symm
  · rw [getLsbD_fpConvertNaN hpair op (by omega), if_neg (by omega), if_neg (by omega),
      decide_eq_true (by omega), decide_eq_true (by omega), Bool.true_and, Bool.true_and]
    congr 1
    omega

end NaN

/-! ### Numbers -/

theorem FPCR.fz_clearFZ16 (fpcr : FPCR) : fpcr.clearFZ16.fz = fpcr.fz := by
  simp [FPCR.fz, FPCR.clearFZ16]

theorem FPCR.fz16_clearFZ16 (fpcr : FPCR) : fpcr.clearFZ16.fz16 = false := by
  simp [FPCR.fz16, FPCR.clearFZ16]

theorem FPCR.ahp_clearFZ16 (fpcr : FPCR) : fpcr.clearFZ16.ahp = fpcr.ahp := by
  simp [FPCR.ahp, FPCR.clearFZ16]

theorem FPCR.ufe_clearFZ16 (fpcr : FPCR) : fpcr.clearFZ16.ufe = fpcr.ufe := by
  simp [FPCR.ufe, FPCR.clearFZ16]

theorem FPCR.traps_clearFZ16 {fpcr : FPCR} {f : Format} {r : Rounding} {x : ℚ} :
    fpcr.clearFZ16.Traps f r x ↔ fpcr.Traps f r x := by
  have hbit (exception : FPExc) : fpcr.clearFZ16.value.getLsbD exception.enableBit =
      fpcr.value.getLsbD exception.enableBit := by
    cases exception <;> simp [FPCR.clearFZ16, FPExc.enableBit]
  simp only [FPCR.Traps, hbit]

structure Wider (narrow wide : FPInfo) : Prop where
  explicitMantissaWidth_le : narrow.explicitMantissaWidth ≤ wide.explicitMantissaWidth
  exponentMin_le : wide.exponentMin ≤ narrow.exponentMin - narrow.explicitMantissaWidth
  le_exponentMax : narrow.exponentMax + 1 ≤ wide.exponentMax
  isHalfPrecision_eq : isHalfPrecision wide = false

theorem wider_of_mem (h : (narrow, wide) ∈ formatPairs) : Wider narrow wide := by
  simp only [formatPairs, List.mem_cons, List.not_mem_nil, or_false, Prod.mk.injEq] at h
  rcases h with ⟨rfl, rfl⟩ | ⟨rfl, rfl⟩ | ⟨rfl, rfl⟩ <;>
    exact ⟨by decide, by decide, by decide, by decide⟩

theorem max_expRaw_sub_bias_le (op : BitVec narrow.totalWidth) :
    max ((expRaw narrow op).toNat : ℤ) 1 - narrow.exponentBias ≤ narrow.exponentMax + 1 := by
  by_cases h : (expRaw narrow op).toNat = 2 ^ narrow.exponentWidth - 1
  · have hpow : (2 : ℤ) ^ narrow.exponentWidth = 2 * 2 ^ (narrow.exponentWidth - 1) := by
      rw [← pow_succ', Nat.sub_add_cancel (by have := narrow.two_le_exponentWidth; omega)]
    have hone : (2 : ℤ) ^ 1 ≤ 2 ^ (narrow.exponentWidth - 1) :=
      pow_le_pow_right₀ (by norm_num) (by have := narrow.two_le_exponentWidth; omega)
    have hcast : ((expRaw narrow op).toNat : ℤ) = 2 ^ narrow.exponentWidth - 1 := by
      rw [h]
      push_cast [Nat.one_le_two_pow]
      rfl
    rw [narrow.exponentMax_eq, hcast, narrow.exponentBias_eq]
    omega
  · have := expRaw_sub_bias_le h
    omega

theorem fpRoundCV_widen (hwider : Wider narrow wide) {op : BitVec narrow.totalWidth}
    {u : FPUnpacked} (hu : u.Normalizes narrow op) {fpcr : FPCR} (hfz : fpcr.fz = false)
    {rounding : RoundingMode} (haway : rounding ≠ .toNearestTieAwayFromZero) :
    ∃ w, (∀ fpsr, fpRoundCV wide u fpcr rounding fpsr = some (w, fpsr)) ∧
      decode wide w = .finite u.sign u.magnitude := by
  have hm : u.mantissa ≠ 0#64 := fun hzero => by
    have := hu.le_mantissa
    rw [hzero] at this
    exact absurd this (by decide)
  have hlog : Nat.log 2 u.mantissa.toNat = 62 :=
    Nat.log_eq_of_pow_le_of_lt_pow hu.le_mantissa hu.mantissa_lt
  have hexponent : u.valueExponent = u.exponent := by
    rw [FPUnpacked.valueExponent, hlog]
    omega
  have hmin : wide.exponentMin ≤ u.valueExponent :=
    hexponent ▸ hwider.exponentMin_le.trans hu.le_exponent
  have hmax : u.valueExponent ≤ wide.exponentMax :=
    hexponent ▸ (hu.exponent_le.trans (max_expRaw_sub_bias_le op)).trans hwider.le_exponentMax
  have hF := wide.explicitMantissaWidth_le
  refine fpRoundBase_representable hm hu.mantissa_lt haway (fpcr.fz_clearFZ16.trans hfz)
    fpcr.fz16_clearFZ16 ?_ ?_ ?_
  · -- The mantissa has as many low zeros as the narrow format leaves.
    have hdvd : 2 ^ (62 - wide.explicitMantissaWidth) ∣ u.mantissa.toNat :=
      (pow_dvd_pow 2 (by have := hwider.explicitMantissaWidth_le; omega)).trans hu.dvd_mantissa
    obtain ⟨n, hn⟩ := hdvd
    have hshift : roundingShift wide u = ((62 - wide.explicitMantissaWidth : ℕ) : ℤ) := by
      rw [roundingShift, hlog, max_eq_left hmin]
      omega
    have hunits : wide.format.units u.magnitude = n := by
      rw [units_magnitude hm, hshift, hn, zpow_neg, zpow_natCast]
      push_cast
      rw [mul_comm (2 ^ _) (n : ℚ), mul_assoc, mul_inv_cancel₀ (by positivity), mul_one]
    rw [hunits, Nat.floor_natCast]
  · rw [two_zpow_le_iff (magnitude_pos hm), log_magnitude hm]
    exact hmin
  · rw [lt_two_zpow_iff (magnitude_pos hm), log_magnitude hm]
    exact Int.lt_add_one_of_le hmax

/-! ### The whole operation -/

section Conversion

variable {infoFrom infoTo : FPInfo} {op : BitVec infoFrom.totalWidth} {fpcr : FPCR} {fpsr : FPSR}
  {rounding : RoundingMode} {sign : Bool} {value : FPUnpacked}

theorem fpConvert_zero
    (h : fpUnpackCV infoFrom op fpcr fpsr = some ((.zero, sign, value), fpsr)) :
    fpConvert infoFrom infoTo op fpcr rounding fpsr = some (infoTo.zero sign, fpsr) := by
  simp [fpConvert, h]

theorem fpConvert_nonzero
    (h : fpUnpackCV infoFrom op fpcr fpsr = some ((.nonzero, sign, value), fpsr)) :
    fpConvert infoFrom infoTo op fpcr rounding fpsr = fpRoundCV infoTo value fpcr rounding fpsr := by
  simp [fpConvert, h]

theorem fpConvert_infinity (halthp : isHalfPrecision infoTo = false ∨ fpcr.ahp = false)
    (h : fpUnpackCV infoFrom op fpcr fpsr = some ((.infinity, sign, value), fpsr)) :
    fpConvert infoFrom infoTo op fpcr rounding fpsr = some (infoTo.infinity sign, fpsr) := by
  have hmode : (infoTo.totalWidth == 16 && fpcr.ahp) = false := by
    rw [Bool.and_eq_false_iff]
    exact halthp
  simp [fpConvert, h, hmode]

theorem fpConvert_quiet (halthp : isHalfPrecision infoTo = false ∨ fpcr.ahp = false)
    (hdn : fpcr.dn = false)
    (h : fpUnpackCV infoFrom op fpcr fpsr = some ((.qNaN, sign, value), fpsr)) :
    fpConvert infoFrom infoTo op fpcr rounding fpsr =
      some (fpConvertNaN infoFrom infoTo op, fpsr) := by
  have hmode : (infoTo.totalWidth == 16 && fpcr.ahp) = false := by
    rw [Bool.and_eq_false_iff]
    exact halthp
  simp [fpConvert, h, hmode, hdn, raiseIf]

end Conversion

theorem eq_infinity {info : FPInfo} {op : BitVec info.totalWidth}
    (hones : (expRaw info op).toNat = 2 ^ info.exponentWidth - 1) (hfrac : fracRaw info op = 0) :
    op = info.infinity (signBit info op) := by
  have hdecode := decode_infinity info (signBit info op)
  simp only [decode] at hdecode
  split_ifs at hdecode with hones' hfrac'
  simp only [Datum.infinity.injEq] at hdecode
  refine BitVec.eq_of_toNat_eq ?_
  rw [toNat_eq_parts op, toNat_eq_parts (info.infinity _), hdecode, hones, hones', hfrac', hfrac]
  simp

def IsSubnormal (info : FPInfo) (op : BitVec info.totalWidth) : Prop :=
  (expRaw info op).toNat = 0 ∧ (fracRaw info op).toNat ≠ 0

instance (info : FPInfo) (op : BitVec info.totalWidth) : Decidable (IsSubnormal info op) :=
  inferInstanceAs (Decidable (_ ∧ _))

theorem fpUnpackCV_zero (info : FPInfo) (sign : Bool) (fpcr : FPCR) (fpsr : FPSR) :
    fpUnpackCV info (info.zero sign) fpcr fpsr = some ((.zero, sign, ⟨sign, 0, 0#64⟩), fpsr) := by
  have htoNat : (info.zero sign).toNat = (sign.toNat * 2 ^ info.exponentWidth + 0) *
      2 ^ info.explicitMantissaWidth + 0 := by
    rw [toNat_zero, add_zero, add_zero]
  obtain ⟨hsign, hexp, hfrac⟩ := parts_of_toNat (by positivity) (by positivity) htoNat
  have hexp' : expRaw info (info.zero sign) = 0 := BitVec.eq_of_toNat_eq (by simpa using hexp)
  have hfrac' : fracRaw info (info.zero sign) = 0 := BitVec.eq_of_toNat_eq (by simpa using hfrac)
  simp [fpUnpackCV, fpUnpackBase, hexp', hfrac', hsign]

section RoundTrip

variable {op : BitVec narrow.totalWidth} {fpcr fpcr' : FPCR} {rounding rounding' : RoundingMode}

/-- Infinities and quiet NaNs keep their payload on the way there and back. -/
theorem fpConvert_special (hpair : (narrow, wide) ∈ formatPairs) (hahp : fpcr.ahp = fpcr'.ahp)
    (hdn : fpcr.dn = false) (hdn' : fpcr'.dn = false) (hspecial : IsSpecial narrow op fpcr)
    (hsignalling : ¬IsSignalling narrow op fpcr) (fpsr : FPSR) :
    ∃ w, fpConvert narrow wide op fpcr rounding fpsr = some (w, fpsr) ∧
      fpConvert wide narrow w fpcr' rounding' fpsr = some (op, fpsr) := by
  have hwide := (wider_of_mem hpair).isHalfPrecision_eq
  have hmode : isHalfPrecision narrow = false ∨ fpcr'.ahp = false := hahp ▸ hspecial.2
  have hspecial' : IsSpecial narrow op fpcr.clearFZ16 :=
    ⟨hspecial.1, by rw [fpcr.ahp_clearFZ16]; exact hspecial.2⟩
  by_cases hfrac : fracRaw narrow op = 0
  · have hdecode := decode_infinity wide (signBit narrow op)
    simp only [decode] at hdecode
    split_ifs at hdecode with hones hfrac'
    simp only [Datum.infinity.injEq] at hdecode
    have hzero : fracRaw wide (wide.infinity (signBit narrow op)) = 0 :=
      BitVec.eq_of_toNat_eq (by simpa using hfrac')
    have hunpack : fpUnpackCV narrow op fpcr fpsr = _ := fpUnpackBase_special hspecial' fpsr
    have hunpack' : fpUnpackCV wide (wide.infinity (signBit narrow op)) fpcr' fpsr = _ :=
      fpUnpackBase_special ⟨hones, .inl hwide⟩ fpsr
    rw [if_pos hfrac] at hunpack
    rw [if_pos hzero, hdecode] at hunpack'
    refine ⟨wide.infinity (signBit narrow op), fpConvert_infinity (.inl hwide) hunpack, ?_⟩
    rw [fpConvert_infinity hmode hunpack', ← eq_infinity hspecial.1 hfrac]
  · have hquiet : IsQuiet narrow op := isQuiet_iff.mpr ⟨hspecial.1, by
      by_contra hclear
      refine hsignalling ⟨hspecial, fun hzero => hfrac ?_, by simpa using hclear⟩
      exact BitVec.eq_of_toNat_eq (by simpa using hzero)⟩
    refine ⟨fpConvertNaN narrow wide op, fpConvert_quiet (.inl hwide) hdn
      (fpUnpackCV_quiet hquiet hspecial'.2 fpsr), ?_⟩
    rw [fpConvert_quiet hmode hdn' (fpUnpackCV_quiet (isQuiet_fpConvertNaN (.inl hpair) op)
      (.inl hwide) fpsr), fpConvertNaN_fpConvertNaN (.inl hpair)
      (wider_of_mem hpair).explicitMantissaWidth_le hquiet]

theorem encodedMagnitude_ne_zero_iff :
    encodedMagnitude narrow op ≠ 0 ↔
      (expRaw narrow op).toNat ≠ 0 ∨ (fracRaw narrow op).toNat ≠ 0 := by
  have hunit : (2 : ℚ) ^ (max ((expRaw narrow op).toNat : ℤ) 1 - 1 + narrow.exponentMin -
      narrow.explicitMantissaWidth) ≠ 0 := by positivity
  have hF : 0 < 2 ^ narrow.explicitMantissaWidth := by positivity
  rw [encodedMagnitude_eq, ne_eq, mul_eq_zero, or_iff_left hunit, Nat.cast_eq_zero, encodedMantissa]
  split <;> omega

/-- Numbers come back, unless the result is subnormal and the trap is enabled. -/
theorem fpConvert_number (hpair : (narrow, wide) ∈ formatPairs) (hahp : fpcr.ahp = fpcr'.ahp)
    (hfz : fpcr.fz = false) (hfz' : fpcr'.fz = false) (hspecial : ¬IsSpecial narrow op fpcr)
    (haway : rounding ≠ .toNearestTieAwayFromZero) (haway' : rounding' ≠ .toNearestTieAwayFromZero)
    (fpsr : FPSR) :
    ∃ w, fpConvert narrow wide op fpcr rounding fpsr = some (w, fpsr) ∧
      fpConvert wide narrow w fpcr' rounding' fpsr =
        if IsSubnormal narrow op ∧ fpcr'.ufe = true then none else some (op, fpsr) := by
  have hwider := wider_of_mem hpair
  have hspecial₁ : ¬IsSpecial narrow op fpcr.clearFZ16 := by
    rwa [IsSpecial, fpcr.ahp_clearFZ16]
  have hspecial₂ : ¬IsSpecial narrow op fpcr'.clearFZ16 := by
    rwa [IsSpecial, fpcr'.ahp_clearFZ16, ← hahp]
  by_cases hzero : encodedMagnitude narrow op = 0
  · have hparts := (not_congr encodedMagnitude_ne_zero_iff).mp (not_not.mpr hzero)
    have hpow : 2 ^ 2 ≤ 2 ^ narrow.exponentWidth :=
      Nat.pow_le_pow_right (by norm_num) narrow.two_le_exponentWidth
    have hop : op = narrow.zero (signBit narrow op) := by
      refine eq_zero_of_decode ?_
      rw [decode_eq_finite (by omega), hzero]
    have hnot : ¬(IsSubnormal narrow op ∧ fpcr'.ufe = true) := fun h => hparts (.inr h.1.2)
    refine ⟨wide.zero (signBit narrow op), ?_, ?_⟩
    · have hunpack := fpUnpackCV_zero narrow (signBit narrow op) fpcr fpsr
      rw [← hop] at hunpack
      exact fpConvert_zero hunpack
    · rw [if_neg hnot, fpConvert_zero (fpUnpackCV_zero wide _ fpcr' fpsr), ← hop]
  · obtain ⟨type, u, hunpack, hsign, hmagnitude, ⟨-, hmantissa⟩ | ⟨rfl, hu⟩⟩ :=
      fpUnpackBase_spec (fpcr.fz_clearFZ16.trans hfz) fpcr.fz16_clearFZ16 hspecial₁
    · refine absurd ?_ hzero
      rw [← hmagnitude, FPUnpacked.magnitude, hmantissa]
      simp
    obtain ⟨w, hwiden, hdecode⟩ := fpRoundCV_widen hwider hu hfz haway
    have hones := expRaw_ne_of_finite hdecode
    rw [decode_eq_finite hones, Datum.finite.injEq, hsign, hmagnitude] at hdecode
    obtain ⟨type', v, hunpack', hsign', hmagnitude', ⟨-, hmantissa⟩ | ⟨rfl, hv⟩⟩ :=
      fpUnpackBase_spec (fpcr'.fz_clearFZ16.trans hfz') fpcr'.fz16_clearFZ16
        (fun h => hones h.1 : ¬IsSpecial wide w fpcr'.clearFZ16)
    · refine absurd ?_ hzero
      rw [← hdecode.2, ← hmagnitude', FPUnpacked.magnitude, hmantissa]
      simp
    have hm : v.mantissa ≠ 0#64 := fun hmantissa => by
      have := hv.le_mantissa
      rw [hmantissa] at this
      exact absurd this (by decide)
    refine ⟨w, (fpConvert_nonzero (hunpack fpsr)).trans (hwiden fpsr), ?_⟩
    rw [fpConvert_nonzero (hunpack' fpsr), fpRoundCV, fpRoundBase_encoded hm hv.mantissa_lt haway'
      (fpcr'.fz_clearFZ16.trans hfz') fpcr'.fz16_clearFZ16 (hsign'.trans hdecode.1)
      (hmagnitude'.trans hdecode.2) hspecial₂, fpcr'.ufe_clearFZ16]
    have hsubnormal : (expRaw narrow op).toNat = 0 ↔ IsSubnormal narrow op :=
      ⟨fun h => ⟨h, (encodedMagnitude_ne_zero_iff.mp hzero).resolve_left (not_not.mpr h)⟩,
        fun h => h.1⟩
    simp only [hsubnormal]

/-- Widening and narrowing gives the bit pattern back, unless it is that of a signalling NaN or
of a number below the normal ones that is trapped. -/
theorem fpConvert_roundTrip_iff (hpair : (narrow, wide) ∈ formatPairs)
    (hahp : fpcr.ahp = fpcr'.ahp) (hfz : fpcr.fz = false) (hfz' : fpcr'.fz = false)
    (hdn : fpcr.dn = false) (hdn' : fpcr'.dn = false) (hsignalling : ¬IsSignalling narrow op fpcr)
    (haway : rounding ≠ .toNearestTieAwayFromZero) (haway' : rounding' ≠ .toNearestTieAwayFromZero)
    (fpsr : FPSR) :
    (∃ w, fpConvert narrow wide op fpcr rounding fpsr = some (w, fpsr) ∧
        fpConvert wide narrow w fpcr' rounding' fpsr = some (op, fpsr)) ↔
      (IsSubnormal narrow op → fpcr'.ufe = false) := by
  by_cases hspecial : IsSpecial narrow op fpcr
  · refine iff_of_true (fpConvert_special hpair hahp hdn hdn' hspecial hsignalling fpsr) ?_
    rintro ⟨hzero, -⟩
    have hpow : 2 ^ 2 ≤ 2 ^ narrow.exponentWidth :=
      Nat.pow_le_pow_right (by norm_num) narrow.two_le_exponentWidth
    have := hspecial.1
    omega
  · obtain ⟨w, hwiden, hnarrow⟩ :=
      @fpConvert_number narrow wide op fpcr fpcr' rounding rounding' hpair hahp hfz hfz' hspecial
        haway haway' fpsr
    constructor
    · rintro ⟨w', hwiden', hnarrow'⟩ hsubnormal
      obtain ⟨rfl, -⟩ := Prod.mk.inj (Option.some.inj (hwiden.symm.trans hwiden'))
      by_contra htrap
      rw [hnarrow, if_pos ⟨hsubnormal, by simpa using htrap⟩] at hnarrow'
      cases hnarrow'
    · intro h
      refine ⟨w, hwiden, ?_⟩
      rw [hnarrow, if_neg fun hbad => by simp [h hbad.1] at hbad]

end RoundTrip

/-- A finite number is rounded once, with the exceptions of that rounding, unless one of them
is trapped. -/
theorem fpConvert_finite_iff {infoFrom infoTo : FPInfo} {op : BitVec infoFrom.totalWidth}
    {fpcr : FPCR} {rounding : RoundingMode} {x : ℚ} (hx : (decode infoFrom op).toRat = some x)
    (hfz : fpcr.fz = false) (hahp : fpcr.ahp = false)
    (haway : rounding ≠ .toNearestTieAwayFromZero) (fpsr : FPSR) :
    (∃ result fpsr', fpConvert infoFrom infoTo op fpcr rounding fpsr = some (result, fpsr') ∧
      decode infoTo result = (if x = 0 then .finite (signBit infoFrom op) 0
        else infoTo.format.roundBy rounding.rounding x) ∧
      Raised fpsr (fun e => x ≠ 0 ∧ roundExceptions infoTo.format rounding.rounding x e) fpsr') ↔
      (x ≠ 0 → ¬fpcr.Traps infoTo.format rounding.rounding x) := by
  obtain ⟨sign, magnitude, hfinite, rfl⟩ := exists_finite hx
  have hones := expRaw_ne_of_finite hfinite
  obtain ⟨rfl, rfl⟩ : signBit infoFrom op = sign ∧ encodedMagnitude infoFrom op = magnitude := by
    rw [decode_eq_finite hones] at hfinite
    simpa using hfinite
  obtain ⟨type, u, hunpack, hsign, hmagnitude, ⟨rfl, hmantissa⟩ | ⟨rfl, hu⟩⟩ :=
    fpUnpackBase_spec (fpcr.fz_clearFZ16.trans hfz) fpcr.fz16_clearFZ16
      (fun h => hones h.1 : ¬IsSpecial infoFrom op fpcr.clearFZ16)
  · have hzero : signed (signBit infoFrom op) (encodedMagnitude infoFrom op) = 0 := by
      rw [← hmagnitude, ← hsign, ← u.value_eq_signed, FPUnpacked.value_eq_zero hmantissa]
    refine iff_of_true ⟨infoTo.zero (signBit infoFrom op), fpsr, fpConvert_zero (hunpack fpsr),
      ?_, ?_⟩ fun hne => absurd hzero hne
    · rw [if_pos hzero, decode_zero]
    · exact Raised.refl fun e h => h.1 hzero
  · have hm : u.mantissa ≠ 0#64 := fun hmantissa => by
      have := hu.le_mantissa
      rw [hmantissa] at this
      exact absurd this (by decide)
    obtain ⟨htrapped, hrounds⟩ := @fpRoundBase_cases infoTo u fpcr.clearFZ16 fpsr rounding hm
      (fpcr.fz_clearFZ16.trans hfz) fpcr.fz16_clearFZ16 (fpcr.ahp_clearFZ16.trans hahp) haway
      fun hmsb => absurd hmsb (by simp [msb_eq_false_of_lt hu.mantissa_lt])
    rw [u.value_eq_signed, hsign, hmagnitude, FPCR.traps_clearFZ16] at htrapped hrounds
    have hne : signed (signBit infoFrom op) (encodedMagnitude infoFrom op) ≠ 0 := by
      rw [signed_ne_zero, ← hmagnitude]
      exact (magnitude_pos hm).ne'
    simp only [fpConvert_nonzero (hunpack fpsr), ne_eq, hne, not_false_eq_true, true_and, true_imp_iff,
      if_false]
    refine ⟨fun ⟨result, fpsr', hrun, _⟩ htraps => ?_, hrounds⟩
    exact Option.some_ne_none _ (hrun.symm.trans (htrapped htraps))

theorem fpConvert_finite {infoFrom infoTo : FPInfo} {op : BitVec infoFrom.totalWidth} {fpcr : FPCR}
    {rounding : RoundingMode} {x : ℚ} (hx : (decode infoFrom op).toRat = some x)
    (hplain : fpcr.Plain) (hahp : fpcr.ahp = false)
    (haway : rounding ≠ .toNearestTieAwayFromZero) (fpsr : FPSR) :
    ∃ result fpsr', fpConvert infoFrom infoTo op fpcr rounding fpsr = some (result, fpsr') ∧
      decode infoTo result = (if x = 0 then .finite (signBit infoFrom op) 0
        else infoTo.format.roundBy rounding.rounding x) ∧
      Raised fpsr (fun e => x ≠ 0 ∧ roundExceptions infoTo.format rounding.rounding x e) fpsr' :=
  (fpConvert_finite_iff hx hplain.fz hahp haway fpsr).mpr fun _ => hplain.untrapped.not_traps

/-- Converting to a wider format and back gives the bit pattern back, and converting to a
narrower format rounds once, both exactly where no trap is in the way. -/
theorem fpConvert_exact_and_rounds (hpair : (narrow, wide) ∈ formatPairs) :
    (∀ (op : BitVec narrow.totalWidth) (fpcr fpcr' : FPCR) (rounding rounding' : RoundingMode)
      (fpsr : FPSR), fpcr.ahp = fpcr'.ahp → fpcr.fz = false → fpcr'.fz = false →
      fpcr.dn = false → fpcr'.dn = false → ¬IsSignalling narrow op fpcr →
      rounding ≠ .toNearestTieAwayFromZero → rounding' ≠ .toNearestTieAwayFromZero →
      ((∃ w, fpConvert narrow wide op fpcr rounding fpsr = some (w, fpsr) ∧
          fpConvert wide narrow w fpcr' rounding' fpsr = some (op, fpsr)) ↔
        (IsSubnormal narrow op → fpcr'.ufe = false))) ∧
    ∀ (op : BitVec wide.totalWidth) (fpcr : FPCR) (rounding : RoundingMode) (x : ℚ) (fpsr : FPSR),
      (decode wide op).toRat = some x → fpcr.fz = false → fpcr.ahp = false →
      rounding ≠ .toNearestTieAwayFromZero →
      ((∃ result fpsr', fpConvert wide narrow op fpcr rounding fpsr = some (result, fpsr') ∧
          decode narrow result = (if x = 0 then .finite (signBit wide op) 0
            else narrow.format.roundBy rounding.rounding x) ∧
          Raised fpsr (fun e => x ≠ 0 ∧ roundExceptions narrow.format rounding.rounding x e)
            fpsr') ↔
        (x ≠ 0 → ¬fpcr.Traps narrow.format rounding.rounding x)) := by
  refine ⟨fun op fpcr fpcr' rounding rounding' fpsr hahp hfz hfz' hdn hdn' hsignalling haway haway' =>
    fpConvert_roundTrip_iff hpair hahp hfz hfz' hdn hdn' hsignalling haway haway' fpsr, ?_⟩
  intro op fpcr rounding x fpsr hx hfz hahp haway
  exact fpConvert_finite_iff hx hfz hahp haway fpsr

/-- The least number of half precision, to single precision and back; and one third of single
precision, to half precision. -/
theorem fpConvert_exact_and_rounds_half :
    (∃ w, fpConvert .half .single 0x0001#16 ⟨0#32⟩ .toOdd ⟨0#32⟩ = some (w, ⟨0#32⟩) ∧
      fpConvert .single .half w ⟨0#32⟩ .towardsZero ⟨0#32⟩ = some (0x0001#16, ⟨0#32⟩)) ∧
    ∃ result fpsr', fpConvert .single .half 0x3EAAAAAB#32 ⟨0#32⟩ .toNearestTieEven ⟨0#32⟩ =
        some (result, fpsr') ∧
      decode .half result = (if (11184811 / 2 ^ 25 : ℚ) = 0 then .finite (signBit .single 0x3EAAAAAB#32) 0
        else FPInfo.half.format.roundBy RoundingMode.toNearestTieEven.rounding (11184811 / 2 ^ 25)) ∧
      Raised ⟨0#32⟩ (fun e => (11184811 / 2 ^ 25 : ℚ) ≠ 0 ∧ roundExceptions FPInfo.half.format
        RoundingMode.toNearestTieEven.rounding (11184811 / 2 ^ 25) e) fpsr' := by
  have hpair : (FPInfo.half, FPInfo.single) ∈ formatPairs := by simp [formatPairs]
  refine ⟨((fpConvert_exact_and_rounds hpair).1 0x0001#16 ⟨0#32⟩ ⟨0#32⟩ .toOdd .towardsZero ⟨0#32⟩
    rfl rfl rfl rfl rfl ?_ (by decide) (by decide)).mpr fun _ => rfl,
    ((fpConvert_exact_and_rounds hpair).2 0x3EAAAAAB#32 ⟨0#32⟩ .toNearestTieEven _ ⟨0#32⟩
      (toRat_decode false 125 0x2AAAAB rfl rfl rfl (by decide)
        (by norm_num [signed, FPInfo.single])) rfl rfl (by decide)).mpr fun _ =>
          plain_zero.untrapped.not_traps⟩
  rintro ⟨⟨hones, -⟩, -⟩
  exact absurd hones (by decide)

/-- With the Underflow trap enabled, the least number of half precision does not come back from
single precision: the assertion that trapping is not implemented fails.  With the Inexact trap
enabled, it fails for a third. -/
theorem fpConvert_trapped :
    FPCR.fz ⟨0x800#32⟩ = false ∧ FPCR.fz16 ⟨0x800#32⟩ = false ∧ FPCR.dn ⟨0x800#32⟩ = false ∧
    fpConvert .half .single 0x0001#16 ⟨0x800#32⟩ .toNearestTieEven ⟨0#32⟩ =
      some (0x33800000#32, ⟨0#32⟩) ∧
    fpConvert .single .half 0x33800000#32 ⟨0x800#32⟩ .toNearestTieEven ⟨0#32⟩ = none ∧
    fpConvert .single .half 0x3EAAAAAB#32 ⟨0x1000#32⟩ .toNearestTieEven ⟨0#32⟩ = none :=
  ⟨rfl, rfl, rfl, rfl, rfl, rfl⟩

/-! ### Converting twice -/

theorem isOdd_toOdd : RoundingMode.toOdd.rounding.IsOdd where
  rounds sign y hy := by
    rw [roundMagnitude_odd sign hy]
    split_ifs with hwhole
    · exact .inl hwhole.symm
    · exact .of_between (lt_of_le_of_ne (Nat.floor_le hy) (Ne.symm hwhole)) (Nat.lt_floor_add_one y)
  saturates _ := rfl

theorem finer_half_single : FPInfo.half.format.Finer FPInfo.single.format :=
  ⟨by decide, by decide, by decide⟩

theorem signBit_of_decode {info : FPInfo} {op : BitVec info.totalWidth} {sign : Bool} {magnitude : ℚ}
    (h : decode info op = .finite sign magnitude) : signBit info op = sign := by
  rw [decode_eq_finite (expRaw_ne_of_finite h)] at h
  exact (Datum.finite.inj h).1

/-- A double that is converted to single precision in the mode `ToOdd`, as `FCVTXN` does, and
from there to half precision, is rounded only once: the result is that of the direct
conversion. -/
theorem fpConvert_fpConvert_toOdd {op : BitVec FPInfo.double.totalWidth} {x : ℚ} {fpcr : FPCR}
    (hx : (decode .double op).toRat = some x) (hplain : fpcr.Plain) (hahp : fpcr.ahp = false)
    (fpsr : FPSR) :
    ∃ single fpsr₁ half fpsr₂ direct fpsr₃,
      fpConvert .double .single op fpcr .toOdd fpsr = some (single, fpsr₁) ∧
      fpConvert .single .half single fpcr fpcr.rMode fpsr₁ = some (half, fpsr₂) ∧
      fpConvert .double .half op fpcr fpcr.rMode fpsr = some (direct, fpsr₃) ∧
      decode .half half = decode .half direct := by
  have haway : fpcr.rMode ≠ .toNearestTieAwayFromZero := by
    rcases fpcr.rMode_cases with h | h | h | h <;> simp [h]
  obtain ⟨single, fpsr₁, hsingle, hdecode₁, -⟩ :=
    @fpConvert_finite .double .single op fpcr .toOdd x hx hplain hahp (by decide) fpsr
  obtain ⟨direct, fpsr₃, hdirect, hdecode₃, -⟩ :=
    @fpConvert_finite .double .half op fpcr _ x hx hplain hahp haway fpsr
  by_cases hzero : x = 0
  · rw [if_pos hzero] at hdecode₁ hdecode₃
    obtain ⟨half, fpsr₂, hhalf, hdecode₂, -⟩ :=
      @fpConvert_finite .single .half single fpcr _ 0 (by rw [hdecode₁]; simp [Datum.toRat, signed])
        hplain hahp haway fpsr₁
    refine ⟨single, fpsr₁, half, fpsr₂, direct, fpsr₃, hsingle, hhalf, hdirect, ?_⟩
    rw [hdecode₂, if_pos rfl, hdecode₃, signBit_of_decode hdecode₁]
  · obtain ⟨w, hpos, hodd, hround⟩ := finer_half_single.round_roundBy isOdd_toOdd fpcr.direction
      (decide (x < 0)) (abs_pos.mpr hzero)
    rw [← eq_signed_abs] at hodd hround
    have hne : signed (decide (x < 0)) w ≠ 0 := signed_ne_zero.mpr hpos.ne'
    rw [if_neg hzero] at hdecode₁ hdecode₃
    obtain ⟨half, fpsr₂, hhalf, hdecode₂, -⟩ :=
      @fpConvert_finite .single .half single fpcr _ (signed (decide (x < 0)) w)
        (by rw [hdecode₁, hodd, Datum.toRat]) hplain hahp haway fpsr₁
    refine ⟨single, fpsr₁, half, fpsr₂, direct, fpsr₃, hsingle, hhalf, hdirect, ?_⟩
    rw [hdecode₂, if_neg hne, hdecode₃, fpcr.rounding_rMode, ← Format.round_eq_roundBy _ _ hne,
      ← Format.round_eq_roundBy _ _ hzero, hround]

/-- A number just above the middle between two numbers of half precision: rounded to nearest on
the way, it would come to lie on the middle. -/
theorem fpConvert_fpConvert_toOdd_middle :
    ∃ single fpsr₁ half fpsr₂ direct fpsr₃,
      fpConvert .double .single 0x3FF0020000000001#64 ⟨0#32⟩ .toOdd ⟨0#32⟩ = some (single, fpsr₁) ∧
      fpConvert .single .half single ⟨0#32⟩ (FPCR.rMode ⟨0#32⟩) fpsr₁ = some (half, fpsr₂) ∧
      fpConvert .double .half 0x3FF0020000000001#64 ⟨0#32⟩ (FPCR.rMode ⟨0#32⟩) ⟨0#32⟩ =
        some (direct, fpsr₃) ∧
      decode .half half = decode .half direct :=
  @fpConvert_fpConvert_toOdd 0x3FF0020000000001#64 (1 + 1 / 2 ^ 11 + 1 / 2 ^ 52) ⟨0#32⟩
    (toRat_decode false 1023 0x20000000001 rfl rfl rfl (by decide)
      (by norm_num [signed, FPInfo.double])) plain_zero rfl ⟨0#32⟩

end Umbra.FP
