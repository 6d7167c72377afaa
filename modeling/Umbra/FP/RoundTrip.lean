import Umbra.FP.UnpackSpec

/-!
`FPRound` in every mode it accepts, and the way back from an unpacked number to
its bit pattern.

A magnitude determines the exponent and the mantissa of the pattern that encodes
it.  So rounding the value of a pattern gives that pattern back, whatever the
mode, and nothing is raised.  There is one exception: with the Underflow trap
enabled a number below the normal ones is trapped even though it is exact, and
trapping is not implemented.
-/

namespace Umbra.FP

open Umbra.Lib

variable {info : FPInfo} {u : FPUnpacked} {fpcr : FPCR} {fpsr : FPSR} {rounding : RoundingMode}

/-- `FPRound` returns the value rounded once to the format, and raises the exceptions that go
with it. -/
theorem fpRound_rounds (info : FPInfo) (hm : u.mantissa ≠ 0#64) (hlt : u.mantissa.toNat < 2 ^ 63)
    (haway : rounding ≠ .toNearestTieAwayFromZero) (hplain : fpcr.Plain) (fpsr : FPSR) :
    ∃ result fpsr', fpRoundWith info u fpcr rounding fpsr = some (result, fpsr') ∧
      decode info result = info.format.roundBy rounding.rounding u.value ∧
      Raised fpsr (roundExceptions info.format rounding.rounding u.value) fpsr' :=
  (fpRoundBase_cases hm (fpcr.fz_clearAHP.trans hplain.fz) (fpcr.fz16_clearAHP.trans hplain.fz16)
    fpcr.ahp_clearAHP haway fun hmsb => absurd hmsb (by simp [msb_eq_false_of_lt hlt])).2
    (mt FPCR.traps_clearAHP.mp hplain.untrapped.not_traps)

/-- A number with more bits than the format has, rounded to odd. -/
theorem fpRound_rounds_toOdd :
    ∃ result fpsr', fpRoundWith .single ⟨true, 3, 0x6000000000000001#64⟩ ⟨0#32⟩ .toOdd ⟨0#32⟩ =
        some (result, fpsr') ∧
      decode .single result = FPInfo.single.format.roundBy RoundingMode.toOdd.rounding
        (FPUnpacked.value ⟨true, 3, 0x6000000000000001#64⟩) ∧
      Raised ⟨0#32⟩ (roundExceptions FPInfo.single.format RoundingMode.toOdd.rounding
        (FPUnpacked.value ⟨true, 3, 0x6000000000000001#64⟩)) fpsr' :=
  fpRound_rounds .single (by decide) (by decide) (by decide) plain_zero ⟨0#32⟩

/-! ### From the magnitude to the parts -/

/-- The number of units and the biased exponent of a magnitude with a mantissa in range. -/
theorem units_of_mantissa {y : ℚ} {mantissa b : ℕ} (hpos : 0 < mantissa)
    (hlt : mantissa < 2 ^ (info.explicitMantissaWidth + 1))
    (hb : b = 0 ↔ mantissa < 2 ^ info.explicitMantissaWidth)
    (hy : y = mantissa * 2 ^ (max (b : ℤ) 1 - 1 + info.exponentMin - info.explicitMantissaWidth)) :
    info.format.units y = mantissa ∧ max (Int.log 2 y - info.exponentMin + 1) 0 = b := by
  have hpos' : (0 : ℚ) < mantissa := by exact_mod_cast hpos
  have hypos : 0 < y := by
    rw [hy]
    positivity
  have hlog : Int.log 2 y =
      Nat.log 2 mantissa + (max (b : ℤ) 1 - 1 + info.exponentMin - info.explicitMantissaWidth) := by
    rw [hy, log_two_mul_zpow hpos', Int.log_natCast]
  have hsub : b = 0 → Nat.log 2 mantissa < info.explicitMantissaWidth := fun hzero =>
    Nat.log_lt_of_lt_pow hpos.ne' (hb.mp hzero)
  have hnormal : b ≠ 0 → Nat.log 2 mantissa = info.explicitMantissaWidth := fun hne =>
    Nat.log_eq_of_pow_le_of_lt_pow (not_lt.mp fun h => hne (hb.mpr h)) hlt
  have hscale : info.format.scale y =
      max (b : ℤ) 1 - 1 + info.exponentMin - info.explicitMantissaWidth := by
    rw [Format.scale, abs_of_pos hypos, hlog]
    change max _ info.exponentMin - (info.explicitMantissaWidth : ℤ) = _
    rcases Nat.eq_zero_or_pos b with hzero | hbpos
    · have := hsub hzero
      omega
    · have := hnormal hbpos.ne'
      omega
  constructor
  · rw [Format.units, hscale, hy, mul_assoc, ← zpow_add₀ two_ne_zero, add_neg_cancel, zpow_zero,
      mul_one]
  · rcases Nat.eq_zero_or_pos b with hzero | hbpos
    · have := hsub hzero
      omega
    · have := hnormal hbpos.ne'
      omega

def encodedMantissa (info : FPInfo) (op : BitVec info.totalWidth) : ℕ :=
  if (expRaw info op).toNat = 0 then (fracRaw info op).toNat
  else 2 ^ info.explicitMantissaWidth + (fracRaw info op).toNat

theorem encodedMagnitude_eq (op : BitVec info.totalWidth) :
    encodedMagnitude info op = encodedMantissa info op *
      2 ^ (max ((expRaw info op).toNat : ℤ) 1 - 1 + info.exponentMin - info.explicitMantissaWidth) :=
  rfl

theorem encodedMantissa_lt (op : BitVec info.totalWidth) :
    encodedMantissa info op < 2 ^ (info.explicitMantissaWidth + 1) := by
  have hfrac := (fracRaw info op).isLt
  unfold encodedMantissa
  rw [pow_succ]
  split <;> omega

theorem expRaw_eq_zero_iff (op : BitVec info.totalWidth) :
    (expRaw info op).toNat = 0 ↔ encodedMantissa info op < 2 ^ info.explicitMantissaWidth := by
  have hfrac := (fracRaw info op).isLt
  unfold encodedMantissa
  split <;> omega

theorem toNat_eq_parts (op : BitVec info.totalWidth) :
    op.toNat = ((signBit info op).toNat * 2 ^ info.exponentWidth + (expRaw info op).toNat) *
      2 ^ info.explicitMantissaWidth + (fracRaw info op).toNat := by
  have hlt : op.toNat / 2 ^ info.explicitMantissaWidth / 2 ^ info.exponentWidth < 2 := by
    rw [Nat.div_div_eq_div_mul, Nat.div_lt_iff_lt_mul (by positivity), mul_comm (2 ^ _),
      ← two_pow_totalWidth]
    exact op.isLt
  have hsign : (signBit info op).toNat =
      op.toNat / 2 ^ info.explicitMantissaWidth / 2 ^ info.exponentWidth := by
    rw [signBit_eq, add_comm, pow_add, ← Nat.div_div_eq_div_mul]
    generalize op.toNat / 2 ^ info.explicitMantissaWidth / 2 ^ info.exponentWidth = s at hlt ⊢
    rcases (by omega : s = 0 ∨ s = 1) with rfl | rfl <;> rfl
  rw [hsign, toNat_expRaw, toNat_fracRaw, Nat.div_add_mod', Nat.div_add_mod']

theorem assemble_parts {op : BitVec info.totalWidth} {mantissa : BitVec 64}
    (h : mantissa.toNat = encodedMantissa info op) :
    assemble info (signBit info op) (expRaw info op).toNat mantissa = op := by
  refine BitVec.eq_of_toNat_eq ?_
  rw [toNat_assemble (expRaw info op).isLt, toNat_eq_parts op, h, encodedMantissa]
  congr 1
  split
  · exact Nat.mod_eq_of_lt (fracRaw info op).isLt
  · rw [Nat.add_mod_left, Nat.mod_eq_of_lt (fracRaw info op).isLt]

theorem decode_zero (info : FPInfo) (sign : Bool) : decode info (info.zero sign) = .finite sign 0 := by
  have htoNat : (info.zero sign).toNat = (sign.toNat * 2 ^ info.exponentWidth + 0) *
      2 ^ info.explicitMantissaWidth + 0 := by
    rw [toNat_zero, add_zero, add_zero]
  obtain ⟨hsign, hexp, hfrac⟩ := parts_of_toNat (by positivity) (by positivity) htoNat
  have hpow : 2 ^ 2 ≤ 2 ^ info.exponentWidth :=
    Nat.pow_le_pow_right (by norm_num) info.two_le_exponentWidth
  simp only [decode, hexp, hfrac, hsign]
  rw [if_neg (by omega)]
  simp

theorem eq_zero_of_decode {op : BitVec info.totalWidth} {sign : Bool}
    (h : decode info op = .finite sign 0) : op = info.zero sign := by
  have hones := expRaw_ne_of_finite h
  rw [decode_eq_finite hones] at h
  obtain ⟨rfl, hmagnitude⟩ : signBit info op = sign ∧ encodedMagnitude info op = 0 := by
    simpa using h
  have hmantissa : encodedMantissa info op = 0 := by
    have hunit : (2 : ℚ) ^ (max ((expRaw info op).toNat : ℤ) 1 - 1 + info.exponentMin -
        info.explicitMantissaWidth) ≠ 0 := by positivity
    rw [encodedMagnitude_eq] at hmagnitude
    exact_mod_cast (mul_eq_zero.mp hmagnitude).resolve_right hunit
  have hexp : (expRaw info op).toNat = 0 := by
    rw [expRaw_eq_zero_iff, hmantissa]
    positivity
  have hfrac : (fracRaw info op).toNat = 0 := by
    rwa [encodedMantissa, if_pos hexp] at hmantissa
  refine BitVec.eq_of_toNat_eq ?_
  rw [toNat_eq_parts, hexp, hfrac, toNat_zero, add_zero, add_zero]

/-! ### Rounding an exact value -/

/-- Where no bit is shifted out, rounding only assembles. -/
theorem fpRoundBase_of_exact (hm : u.mantissa ≠ 0#64)
    (haway : rounding ≠ .toNearestTieAwayFromZero) (hfz : fpcr.fz = false)
    (hfz16 : fpcr.fz16 = false)
    (herror : residualErrorOnRightShift u.mantissa (roundingShift info u) = .zero)
    (hrange : max (u.valueExponent - info.exponentMin + 1) 0 <
      if isHalfPrecision info = false ∨ fpcr.ahp = false then (2 : ℤ) ^ info.exponentWidth - 1
        else 2 ^ info.exponentWidth) :
    fpRoundBase info u fpcr rounding fpsr =
      if max (u.valueExponent - info.exponentMin + 1) 0 = 0 ∧ fpcr.ufe = true then none
      else some (assemble info u.sign (max (u.valueExponent - info.exponentMin + 1) 0)
        (logicalShiftRight u.mantissa (roundingShift info u)), fpsr) := by
  have hup : ∀ mantissa, roundsUp rounding u.sign mantissa .zero = false := fun mantissa => by
    cases rounding <;> rfl
  simp only [fpRoundBase, normalize_exponent hm, normalize_second hm, hm, haway, hfz, hfz16,
    raiseIf, herror, hup]
  generalize max (u.valueExponent - info.exponentMin + 1) 0 = biasedExp at hrange ⊢
  have htrap : fpProcessException .underflow fpcr fpsr =
      if fpcr.ufe = true then none else some (fpsr.raise FPExc.underflow.cumulativeBit) := rfl
  by_cases htrapped : biasedExp = 0 ∧ fpcr.ufe = true
  · simp [htrapped, htrap]
  · by_cases hmode : isHalfPrecision info = false ∨ fpcr.ahp = false
    · rw [if_pos hmode] at hrange
      simp [htrapped, hmode, not_le.mpr hrange]
    · rw [if_neg hmode] at hrange
      simp [htrapped, hmode, not_le.mpr hrange]

theorem fpRoundBase_representable (hm : u.mantissa ≠ 0#64) (hlt : u.mantissa.toNat < 2 ^ 63)
    (haway : rounding ≠ .toNearestTieAwayFromZero) (hfz : fpcr.fz = false)
    (hfz16 : fpcr.fz16 = false)
    (hwhole : info.format.units u.magnitude = ⌊info.format.units u.magnitude⌋₊)
    (hnormal : 2 ^ info.format.emin ≤ u.magnitude)
    (hrange : u.magnitude < 2 ^ (info.format.emax + 1)) :
    ∃ op, (∀ fpsr, fpRoundBase info u fpcr rounding fpsr = some (op, fpsr)) ∧
      decode info op = .finite u.sign u.magnitude := by
  obtain ⟨n, k, hmantissa, herror, hdiv⟩ := @shifted_spec info u hm fun hmsb =>
    absurd hmsb (by simp [msb_eq_false_of_lt hlt])
  have hfloor : (logicalShiftRight u.mantissa (roundingShift info u)).toNat =
      ⌊info.format.units u.magnitude⌋₊ := by
    rw [hmantissa, ← hdiv, natFloor_div_two_pow]
  have hexact : residualErrorOnRightShift u.mantissa (roundingShift info u) = .zero := by
    rw [herror, residual_eq_zero_iff, ← div_two_pow_eq_floor_iff, hdiv, ← hwhole]
  have hlt' : ⌊info.format.units u.magnitude⌋₊ < _ := floor_units_lt hm
  have hb : _ ↔ ⌊info.format.units u.magnitude⌋₊ < _ := biased_eq_zero_iff hm
  have hpos : max (u.valueExponent - info.exponentMin + 1) 0 ≠ 0 := by
    have : info.exponentMin ≤ u.valueExponent := by
      rw [← log_magnitude hm, ← two_zpow_le_iff (magnitude_pos hm)]
      exact hnormal
    omega
  obtain ⟨b, hb₀⟩ :=
    Int.eq_ofNat_of_zero_le (le_max_right (u.valueExponent - info.exponentMin + 1) 0)
  have hvalue : u.magnitude = (logicalShiftRight u.mantissa (roundingShift info u)).toNat *
      2 ^ (max (b : ℤ) 1 - 1 + info.exponentMin - info.explicitMantissaWidth) := by
    have hscale : info.format.scale u.magnitude =
        max (b : ℤ) 1 - 1 + info.exponentMin - info.explicitMantissaWidth := by
      rw [scale_magnitude hm]
      omega
    rw [hfloor, ← hwhole, ← hscale, info.format.units_mul_zpow]
  rw [hb₀, Int.toNat_natCast] at hb
  rw [← hfloor] at hlt' hb
  have hsmall : (b : ℤ) < 2 ^ info.exponentWidth - 1 := by
    by_contra hbig
    have hlarge := (overflow_iff hlt' hb).mp (not_lt.mp hbig)
    rw [← hvalue] at hlarge
    exact absurd hrange (not_lt.mpr hlarge)
  refine ⟨assemble info u.sign b (logicalShiftRight u.mantissa (roundingShift info u)),
    fun fpsr => ?_, ?_⟩
  · rw [fpRoundBase_of_exact hm haway hfz hfz16 hexact, if_neg fun h => hpos h.1, hb₀]
    rw [hb₀]
    split <;> omega
  · have hb' : b < 2 ^ info.exponentWidth - 1 := by
      zify [Nat.one_le_two_pow (n := info.exponentWidth)]
      exact hsmall
    rw [decode_assemble hb' hlt' hb, ← hvalue]

/-- The magnitude of a bit pattern is rounded back to the pattern. -/
theorem fpRoundBase_encoded {op : BitVec info.totalWidth} (hm : u.mantissa ≠ 0#64)
    (hlt : u.mantissa.toNat < 2 ^ 63) (haway : rounding ≠ .toNearestTieAwayFromZero)
    (hfz : fpcr.fz = false) (hfz16 : fpcr.fz16 = false) (hsign : u.sign = signBit info op)
    (hmagnitude : u.magnitude = encodedMagnitude info op) (hspecial : ¬IsSpecial info op fpcr) :
    fpRoundBase info u fpcr rounding fpsr =
      if (expRaw info op).toNat = 0 ∧ fpcr.ufe = true then none else some (op, fpsr) := by
  have hpos : 0 < encodedMantissa info op := by
    refine Nat.pos_of_ne_zero fun hzero => (magnitude_pos hm).ne' ?_
    rw [hmagnitude, encodedMagnitude_eq, hzero, Nat.cast_zero, zero_mul]
  obtain ⟨hunits, hexp⟩ := units_of_mantissa hpos (encodedMantissa_lt op) (expRaw_eq_zero_iff op)
    (hmagnitude.trans (encodedMagnitude_eq op))
  rw [log_magnitude hm] at hexp
  obtain ⟨n, k, hmantissa, herror, hdiv⟩ := @shifted_spec info u hm fun hmsb =>
    absurd hmsb (by simp [msb_eq_false_of_lt hlt])
  have hfloor : n / 2 ^ k = encodedMantissa info op := by
    rw [← natFloor_div_two_pow, hdiv, hunits, Nat.floor_natCast]
  have hexact : residualErrorOnRightShift u.mantissa (roundingShift info u) = .zero := by
    rw [herror, residual_eq_zero_iff, ← div_two_pow_eq_floor_iff, hdiv, hunits, Nat.floor_natCast]
  have hE := (expRaw info op).isLt
  have hrange : ((expRaw info op).toNat : ℤ) <
      if isHalfPrecision info = false ∨ fpcr.ahp = false then (2 : ℤ) ^ info.exponentWidth - 1
        else 2 ^ info.exponentWidth := by
    have hcast : ((expRaw info op).toNat : ℤ) < 2 ^ info.exponentWidth := by exact_mod_cast hE
    split
    · rename_i hmode
      have hne : ((expRaw info op).toNat : ℤ) ≠ 2 ^ info.exponentWidth - 1 := fun heq =>
        hspecial ⟨by zify [Nat.one_le_two_pow (n := info.exponentWidth)]; exact heq, hmode⟩
      omega
    · exact hcast
  rw [fpRoundBase_of_exact hm haway hfz hfz16 hexact (hexp ▸ hrange), hexp, hsign,
    assemble_parts (hmantissa.trans hfloor)]
  simp only [Nat.cast_eq_zero]

/-! ### Unpacking and rounding back -/

theorem encodedMagnitude_lt_iff (op : BitVec info.totalWidth) :
    encodedMagnitude info op < 2 ^ info.exponentMin ↔ (expRaw info op).toNat = 0 := by
  have hunit : (0 : ℚ) < 2 ^ (info.exponentMin - info.explicitMantissaWidth) := by positivity
  have hsplit : (2 : ℚ) ^ info.exponentMin =
      2 ^ info.explicitMantissaWidth * 2 ^ (info.exponentMin - info.explicitMantissaWidth) := by
    rw [← zpow_natCast, ← zpow_add₀ two_ne_zero, add_sub_cancel]
  rw [encodedMagnitude_eq, hsplit]
  constructor
  · intro h
    rw [expRaw_eq_zero_iff]
    by_contra hge
    have hge' : (2 : ℚ) ^ info.explicitMantissaWidth ≤ encodedMantissa info op := by
      exact_mod_cast not_lt.mp hge
    have hunit' : (2 : ℚ) ^ (info.exponentMin - info.explicitMantissaWidth) ≤
        2 ^ (max ((expRaw info op).toNat : ℤ) 1 - 1 + info.exponentMin -
          info.explicitMantissaWidth) :=
      zpow_le_zpow_right₀ one_le_two (by omega)
    exact absurd (mul_le_mul hge' hunit' hunit.le (Nat.cast_nonneg _)) (not_le.mpr h)
  · intro hzero
    have hlt : (encodedMantissa info op : ℚ) < 2 ^ info.explicitMantissaWidth := by
      exact_mod_cast (expRaw_eq_zero_iff op).mp hzero
    rw [hzero]
    simpa using mul_lt_mul_of_pos_right hlt hunit

/-- Unpacking a finite number other than zero gives that number with a normalized mantissa, and
rounding it gives the bit pattern back without raising anything; only where the number is below
the normal ones must the Underflow trap not be enabled. -/
theorem fpRound_fpUnpack_iff {op : BitVec info.totalWidth} {x : ℚ}
    (hx : (decode info op).toRat = some x) (hne : x ≠ 0) (hfz : fpcr.fz = false)
    (hfz16 : fpcr.fz16 = false) :
    ∃ u, (∀ fpsr, fpUnpack info op fpcr fpsr = some ((.nonzero, signBit info op, u), fpsr)) ∧
      u.sign = signBit info op ∧ u.value = x ∧
      2 ^ 62 ≤ u.mantissa.toNat ∧ u.mantissa.toNat < 2 ^ 63 ∧
      ∀ rounding, rounding ≠ .toNearestTieAwayFromZero → ∀ fpsr,
        (fpRoundWith info u fpcr rounding fpsr = some (op, fpsr) ↔
          (|x| < 2 ^ info.format.emin → fpcr.ufe = false)) := by
  have hones : (expRaw info op).toNat ≠ 2 ^ info.exponentWidth - 1 := by
    intro hall
    simp only [decode, hall, ↓reduceIte] at hx
    split at hx <;> cases hx
  have hspecial : ¬IsSpecial info op fpcr.clearAHP := fun h => hones h.1
  obtain rfl : signed (signBit info op) (encodedMagnitude info op) = x := by
    rw [decode_eq_finite hones] at hx
    simpa [Datum.toRat] using hx
  obtain ⟨type, u, hunpack, hsign, hmagnitude, htype⟩ :=
    fpUnpackBase_spec (fpcr.fz_clearAHP.trans hfz) (fpcr.fz16_clearAHP.trans hfz16) hspecial
  rcases htype with ⟨-, hzero⟩ | ⟨rfl, hnormal⟩
  · refine absurd ?_ (signed_ne_zero.mp hne)
    rw [← hmagnitude, FPUnpacked.magnitude, hzero]
    simp
  · have hm : u.mantissa ≠ 0#64 := fun hzero => by
      have := hnormal.le_mantissa
      rw [hzero] at this
      exact absurd this (by decide)
    refine ⟨u, hunpack, hsign, ?_, hnormal.le_mantissa, hnormal.mantissa_lt, ?_⟩
    · rw [u.value_eq_signed, hsign, hmagnitude]
    · intro rounding haway fpsr
      have hpos : 0 < encodedMagnitude info op := hmagnitude ▸ magnitude_pos hm
      rw [fpRoundWith, fpRoundBase_encoded hm hnormal.mantissa_lt haway
        (fpcr.fz_clearAHP.trans hfz) (fpcr.fz16_clearAHP.trans hfz16) hsign hmagnitude hspecial,
        fpcr.ufe_clearAHP, abs_signed, abs_of_pos hpos]
      change _ ↔ (encodedMagnitude info op < 2 ^ info.exponentMin → _)
      rw [encodedMagnitude_lt_iff]
      split
      · rename_i h
        simp [h]
      · rename_i h
        simpa using h

/-- The least number of half precision, unpacked and rounded back. -/
theorem fpRound_fpUnpack_least :
    ∃ u, (∀ fpsr, fpUnpack .half 0x0001#16 ⟨0#32⟩ fpsr =
        some ((.nonzero, signBit .half 0x0001#16, u), fpsr)) ∧
      u.sign = signBit .half 0x0001#16 ∧ u.value = 1 / 2 ^ 24 ∧
      2 ^ 62 ≤ u.mantissa.toNat ∧ u.mantissa.toNat < 2 ^ 63 ∧
      ∀ rounding, rounding ≠ .toNearestTieAwayFromZero → ∀ fpsr,
        (fpRoundWith .half u ⟨0#32⟩ rounding fpsr = some (0x0001#16, fpsr) ↔
          (|(1 / 2 ^ 24 : ℚ)| < 2 ^ FPInfo.half.format.emin → FPCR.ufe ⟨0#32⟩ = false)) :=
  @fpRound_fpUnpack_iff .half ⟨0#32⟩ 0x0001#16 _
    (toRat_decode false 0 1 rfl rfl rfl (by decide) (by norm_num [signed, FPInfo.half])) (by norm_num) rfl rfl

/-- With the Underflow trap enabled, rounding the least number of half precision back runs into
the assertion that trapping is not implemented. -/
theorem fpRound_fpUnpack_trapped :
    FPCR.fz ⟨0x800#32⟩ = false ∧ FPCR.fz16 ⟨0x800#32⟩ = false ∧
    (decode .half 0x0001#16).toRat = some (1 / 2 ^ 24) ∧
    ∃ u, fpUnpack .half 0x0001#16 ⟨0x800#32⟩ ⟨0#32⟩ =
        some ((.nonzero, signBit .half 0x0001#16, u), ⟨0#32⟩) ∧
      fpRoundWith .half u ⟨0x800#32⟩ .toNearestTieEven ⟨0#32⟩ = none :=
  ⟨rfl, rfl, toRat_decode false 0 1 rfl rfl rfl (by decide) (by norm_num [signed, FPInfo.half]),
    ⟨false, -24, 0x4000000000000000#64⟩, rfl, rfl⟩

end Umbra.FP
