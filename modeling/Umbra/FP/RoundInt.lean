import Umbra.FP.IntegerRounding

/-!
`FPRoundInt`: rounding a floating-point number to an integral one.

The number is rounded to an integer in two's complement, and the integer is put
back into the format.  An integer that a number of the format is rounded to has
no more bits than the format: nothing is lost on the way back.
-/

namespace Umbra.FP

open Umbra.Lib

/-- The part of `FPRoundInt` behind the special cases: `exponent` is that of the last bit of
the mantissa. -/
def roundIntNonzero (info : FPInfo) (op : BitVec info.totalWidth) (sign : Bool)
    (mantissa : BitVec 64) (exponent : ℤ) (fpcr : FPCR) (rounding : RoundingMode) (exact : Bool)
    (fpsr : FPSR) : Option (BitVec info.totalWidth × FPSR) :=
  if exponent ≥ 0 then some (op, fpsr)
  else do
    let signedMantissa := if sign then negate mantissa else mantissa
    let error := residualErrorOnRightShift signedMantissa (-exponent)
    let shifted := arithmeticShiftLeft signedMantissa exponent
    let intResult := if fixedRoundsUp rounding shifted error then shifted + 1#64 else shifted
    let newSign := intResult.msb
    let absIntResult := if newSign then negate intResult else intResult
    let (result, fpsr) ← if intResult = 0#64 then some (info.zero sign, fpsr)
      else fpRoundWith info ⟨newSign, normalizedPointPosition, absIntResult⟩ fpcr .towardsZero fpsr
    let fpsr ← raiseIf (error ≠ .zero ∧ exact) .inexact fpcr fpsr
    return (result, fpsr)

def fpRoundInt (info : FPInfo) (op : BitVec info.totalWidth) (fpcr : FPCR)
    (rounding : RoundingMode) (exact : Bool) (fpsr : FPSR) :
    Option (BitVec info.totalWidth × FPSR) := do
  if rounding = .toOdd then none
  let ((type, sign, value), fpsr) ← fpUnpack info op fpcr fpsr
  if type = .sNaN ∨ type = .qNaN then fpProcessNaN info type op fpcr fpsr
  else if type = .infinity then some (info.infinity sign, fpsr)
  else if type = .zero then some (info.zero sign, fpsr)
  else
    roundIntNonzero info op sign value.mantissa (value.exponent - normalizedPointPosition) fpcr
      rounding exact fpsr

variable {info : FPInfo} {op : BitVec info.totalWidth} {fpcr : FPCR} {rounding : RoundingMode}
  {exact sign : Bool} {mantissa : BitVec 64} {e : ℤ}

/-! ### The integer -/

theorem abs_fixedValue_lt (hhigh : mantissa.toNat < 2 ^ 63) (he : e < 0) :
    |fixedValue sign mantissa e| < 2 ^ 62 := by
  have hm : (mantissa.toNat : ℚ) < 2 ^ (63 : ℤ) := by exact_mod_cast hhigh
  have hpos : (0 : ℚ) < 2 ^ e := by positivity
  rw [fixedValue, abs_signed, abs_of_nonneg (by positivity)]
  calc (mantissa.toNat : ℚ) * 2 ^ e < 2 ^ (63 : ℤ) * 2 ^ e := mul_lt_mul_of_pos_right hm hpos
    _ = 2 ^ (63 + e) := zpow_mul_two_zpow _ _
    _ ≤ 2 ^ ((62 : ℕ) : ℤ) := zpow_le_zpow_right₀ one_le_two (by push_cast; omega)
    _ = 2 ^ 62 := zpow_natCast _ _

theorem natAbs_toInteger_le {x : ℚ} {n : ℕ} (h : |x| ≤ n) : (rounding.toInteger x).natAbs ≤ n := by
  obtain ⟨hlow, hhigh⟩ := abs_le.mp h
  have hfloor : -(n : ℤ) ≤ ⌊x⌋ := Int.le_floor.mpr (by push_cast; exact hlow)
  have hceil : ⌈x⌉ ≤ (n : ℤ) := Int.ceil_le.mpr (by push_cast; exact hhigh)
  have hle := Int.floor_le_ceil x
  rcases rounding.rounding.floor_or_ceil x with h | h
  · change rounding.toInteger x = _ at h
    omega
  · change rounding.toInteger x = _ at h
    omega

theorem toInteger_of_fract_eq_zero {x : ℚ} (h : Int.fract x = 0) : (rounding.toInteger x : ℚ) = x := by
  rw [toInteger_of_not_roundsUp fun hup => hup.fract_ne_zero h]
  have := Int.floor_add_fract x
  rwa [h, add_zero] at this

theorem toInteger_neg_iff {y : ℚ} (hy : 0 ≤ y) (hne : rounding.toInteger (signed sign y) ≠ 0) :
    decide (rounding.toInteger (signed sign y) < 0) = sign := by
  have hbounds := rounding.rounding.toInteger_signed sign hy
  change (rounding.toInteger (signed sign y) : ℚ) = _ at hbounds
  have hmagnitude : (0 : ℚ) < rounding.rounding.roundMagnitude sign y := by
    have hne' : rounding.rounding.roundMagnitude sign y ≠ 0 := fun h => hne (by
      rw [h] at hbounds
      cases sign <;> simpa [signed] using hbounds)
    exact_mod_cast Nat.pos_of_ne_zero hne'
  have hneg : decide (signed sign (rounding.rounding.roundMagnitude sign y : ℚ) < 0) = sign :=
    signed_lt_zero hmagnitude
  rw [← hbounds] at hneg
  exact_mod_cast hneg

/-- `FPRoundInt` behind its special cases, in terms of the number. -/
theorem roundIntNonzero_eq (hhigh : mantissa.toNat < 2 ^ 63) (hodd : rounding ≠ .toOdd)
    (he : e < 0) {fpsr : FPSR} :
    roundIntNonzero info op sign mantissa e fpcr rounding exact fpsr =
      ((if rounding.toInteger (fixedValue sign mantissa e) = 0 then some (info.zero sign, fpsr)
        else fpRoundWith info ⟨sign, 62, BitVec.ofNat 64
          (rounding.toInteger (fixedValue sign mantissa e)).natAbs⟩ fpcr .towardsZero fpsr).bind
        fun result =>
          (raiseIf (Int.fract (fixedValue sign mantissa e) ≠ 0 ∧ exact) .inexact fpcr result.2).map
            fun fpsr => (result.1, fpsr)) := by
  have hvalue : ((if sign then negate mantissa else mantissa).toInt : ℚ) * 2 ^ e =
      fixedValue sign mantissa e := signedMantissa_mul hhigh
  have hrounded := @rounded_fixedValue sign mantissa e rounding hhigh hodd
  have hle : (rounding.toInteger (fixedValue sign mantissa e)).natAbs ≤ 2 ^ 62 :=
    natAbs_toInteger_le (by exact_mod_cast (abs_fixedValue_lt hhigh he).le)
  have hsign := @toInteger_neg_iff rounding sign (mantissa.toNat * 2 ^ e) (by positivity)
  change rounding.toInteger (fixedValue sign mantissa e) ≠ 0 →
    decide (rounding.toInteger (fixedValue sign mantissa e) < 0) = sign at hsign
  unfold roundIntNonzero
  rw [if_neg (not_le.mpr he)]
  simp only [residualErrorOnRightShift_eq_fract, arithmeticShiftLeft_eq, hvalue, hrounded, ne_eq,
    residualOfFract_eq_zero_iff]
  generalize rounding.toInteger (fixedValue sign mantissa e) = z at hle hsign ⊢
  have hmsb : (BitVec.ofInt 64 z).msb = decide (z < 0) := msb_ofInt (by omega) (by omega)
  have hzero : BitVec.ofInt 64 z = 0#64 ↔ z = 0 := by
    rw [← BitVec.toInt_inj, BitVec.toInt_ofInt_eq_self (by norm_num) (by omega) (by omega)]
    simp
  have habs : (if (BitVec.ofInt 64 z).msb = true then negate (BitVec.ofInt 64 z)
      else BitVec.ofInt 64 z) = BitVec.ofNat 64 z.natAbs := by
    have hneg : negate (BitVec.ofInt 64 z) = BitVec.ofInt 64 (-z) := by
      rw [BitVec.ofInt_neg]
      exact (BitVec.neg_eq_not_add _).symm
    simp only [hmsb, decide_eq_true_eq, hneg, ← BitVec.ofInt_natCast]
    split
    · congr 1
      omega
    · congr 1
      omega
  simp only [habs, hzero]
  have hbind : ∀ result : Option (BitVec info.totalWidth × FPSR),
      (do
        let __x ← result
        let fpsr ← raiseIf (¬Int.fract (fixedValue sign mantissa e) = 0 ∧ exact = true) .inexact
          fpcr __x.2
        pure (__x.1, fpsr)) =
      result.bind fun result =>
        (raiseIf (¬Int.fract (fixedValue sign mantissa e) = 0 ∧ exact = true) .inexact fpcr
          result.2).map fun fpsr => (result.1, fpsr) := by
    rintro (_ | result)
    · rfl
    · change (raiseIf _ _ _ _).bind _ = (raiseIf _ _ _ _).map _
      cases raiseIf _ FPExc.inexact fpcr result.2 <;> rfl
  rw [← hbind]
  by_cases hz : z = 0
  · rw [if_pos hz, if_pos hz]
  · rw [if_neg hz, if_neg hz, hmsb, hsign hz, normalizedPointPosition]
    rfl

/-! ### The whole operation -/

theorem fpRoundInt_eq {value : FPUnpacked} {fpsr : FPSR} (hodd : rounding ≠ .toOdd)
    (hunpack : fpUnpack info op fpcr fpsr = some ((.nonzero, sign, value), fpsr)) :
    fpRoundInt info op fpcr rounding exact fpsr =
      roundIntNonzero info op sign value.mantissa (value.exponent - 62) fpcr rounding exact fpsr := by
  simp [fpRoundInt, hodd, hunpack, normalizedPointPosition]

theorem value_eq_fixedValue {value : FPUnpacked} :
    value.value = fixedValue value.sign value.mantissa (value.exponent - 62) := rfl

theorem magnitude_integer (sign : Bool) {n : ℕ} (hn : n ≤ 2 ^ 62) :
    (⟨sign, 62, BitVec.ofNat 64 n⟩ : FPUnpacked).magnitude = n := by
  rw [FPUnpacked.magnitude, BitVec.toNat_ofNat, Nat.mod_eq_of_lt (by omega)]
  norm_num

theorem ofNat_ne_zero {n : ℕ} (hpos : n ≠ 0) (hn : n ≤ 2 ^ 62) : BitVec.ofNat 64 n ≠ 0#64 := by
  intro h
  have := congrArg BitVec.toNat h
  rw [BitVec.toNat_ofNat, Nat.mod_eq_of_lt (by omega)] at this
  exact hpos this

theorem two_zpow_exponentMin_le_one (info : FPInfo) : (2 : ℚ) ^ info.exponentMin ≤ 1 :=
  zpow_le_one_of_nonpos₀ one_le_two info.exponentMin_le_zero

/-- An integer is returned as it is, by either branch on the exponent. -/
theorem fpRoundInt_of_integer {magnitude : ℚ} (hodd : rounding ≠ .toOdd) (hfz : fpcr.fz = false)
    (hfz16 : fpcr.fz16 = false) (h : decode info op = .finite sign magnitude)
    (hint : Int.fract (signed sign magnitude) = 0) (fpsr : FPSR) :
    fpRoundInt info op fpcr rounding exact fpsr = some (op, fpsr) := by
  obtain ⟨type, value, hunpack, hvalue⟩ := fpUnpack_spec hfz hfz16 h
  rcases hvalue.type_eq with ⟨rfl, hzero⟩ | ⟨rfl, hnormal⟩
  · have hmagnitude : magnitude = 0 := by
      rw [← hvalue.magnitude_eq, FPUnpacked.magnitude, hzero]
      simp
    rw [hmagnitude] at h
    have hop := (eq_zero_of_decode h).symm
    simp [fpRoundInt, hodd, hunpack, hop]
  · rw [fpRoundInt_eq hodd (hunpack fpsr)]
    by_cases he : value.exponent - 62 < 0
    · have hx : fixedValue sign value.mantissa (value.exponent - 62) = signed sign magnitude := by
        rw [← hvalue.value_eq, value_eq_fixedValue, hvalue.sign_eq]
      have hm : value.mantissa ≠ 0#64 := fun hzero => by
        have := hnormal.le_mantissa
        rw [hzero] at this
        exact absurd this (by decide)
      have hpos : 0 < magnitude := hvalue.magnitude_eq ▸ magnitude_pos hm
      have hle : (rounding.toInteger (signed sign magnitude)).natAbs ≤ 2 ^ 62 :=
        natAbs_toInteger_le (by
          rw [← hx]
          exact_mod_cast (abs_fixedValue_lt hnormal.mantissa_lt he).le)
      have hself : ((rounding.toInteger (signed sign magnitude)).natAbs : ℚ) = magnitude := by
        rw [Nat.cast_natAbs, Int.cast_abs, toInteger_of_fract_eq_zero hint, abs_signed,
          abs_of_pos hpos]
      have hne : (rounding.toInteger (signed sign magnitude)).natAbs ≠ 0 := fun hzero => by
        rw [hzero, Nat.cast_zero] at hself
        exact hpos.ne hself
      have hones := expRaw_ne_of_finite h
      obtain ⟨hsign, hencoded⟩ : signBit info op = sign ∧ encodedMagnitude info op = magnitude := by
        rw [decode_eq_finite hones] at h
        simpa using h
      have hlt : (BitVec.ofNat 64 (rounding.toInteger (signed sign magnitude)).natAbs).toNat <
          2 ^ 63 := by
        rw [BitVec.toNat_ofNat]
        omega
      have hround := @fpRoundBase_encoded info
        ⟨sign, 62, BitVec.ofNat 64 (rounding.toInteger (signed sign magnitude)).natAbs⟩
        fpcr.clearAHP fpsr .towardsZero op (ofNat_ne_zero hne hle) hlt (by decide)
        (fpcr.fz_clearAHP.trans hfz) (fpcr.fz16_clearAHP.trans hfz16) hsign.symm
        (by rw [magnitude_integer sign hle, hself, hencoded]) fun h => hones h.1
      have hexp : (expRaw info op).toNat ≠ 0 := by
        rw [ne_eq, ← encodedMagnitude_lt_iff, hencoded, not_lt]
        refine (two_zpow_exponentMin_le_one info).trans ?_
        rw [← hself]
        exact_mod_cast Nat.pos_of_ne_zero hne
      rw [if_neg fun h => hexp h.1] at hround
      rw [roundIntNonzero_eq hnormal.mantissa_lt hodd he, hx, if_neg (Int.natAbs_ne_zero.mp hne),
        fpRoundWith, hround]
      simp [raiseIf, hint]
    · rw [roundIntNonzero, if_pos (not_lt.mp he)]

theorem fract_signed_natCast (sign : Bool) (n : ℕ) : Int.fract (signed sign (n : ℚ)) = 0 := by
  cases sign with
  | false => exact Int.fract_natCast n
  | true => exact Int.fract_neg_eq_zero.mpr (Int.fract_natCast n)

theorem encodedMagnitude_le_of_fraction (hfract : Int.fract (signed sign (encodedMagnitude info op)) ≠ 0) :
    encodedMagnitude info op ≤ 2 ^ info.explicitMantissaWidth := by
  have hlt : (encodedMantissa info op : ℚ) < 2 ^ (info.explicitMantissaWidth + 1) := by
    exact_mod_cast encodedMantissa_lt op
  rw [encodedMagnitude_eq] at hfract ⊢
  generalize max ((expRaw info op).toNat : ℤ) 1 - 1 + info.exponentMin -
    info.explicitMantissaWidth = s at hfract ⊢
  rcases le_or_gt 0 s with hnonneg | hneg
  · obtain ⟨k, rfl⟩ := Int.eq_ofNat_of_zero_le hnonneg
    refine absurd ?_ hfract
    have hcast : (encodedMantissa info op : ℚ) * 2 ^ (k : ℤ) =
        ((encodedMantissa info op * 2 ^ k : ℕ) : ℚ) := by
      push_cast
      rw [zpow_natCast]
    rw [hcast, fract_signed_natCast]
  · have hhalf : (2 : ℚ) ^ s ≤ 2 ^ (-1 : ℤ) := zpow_le_zpow_right₀ one_le_two (by omega)
    have hunit : (0 : ℚ) < 2 ^ s := by positivity
    calc (encodedMantissa info op : ℚ) * 2 ^ s ≤
          2 ^ (info.explicitMantissaWidth + 1) * 2 ^ (-1 : ℤ) :=
          mul_le_mul hlt.le hhalf hunit.le (by positivity)
      _ = 2 ^ info.explicitMantissaWidth := by
          rw [pow_succ, zpow_neg_one, mul_assoc, mul_inv_cancel₀ two_ne_zero, mul_one]

theorem explicitMantissaWidth_le_exponentMax
    (h : info ∈ [FPInfo.half, FPInfo.single, FPInfo.double]) :
    (info.explicitMantissaWidth : ℤ) ≤ info.exponentMax := by
  simp only [List.mem_cons, List.not_mem_nil, or_false] at h
  rcases h with rfl | rfl | rfl <;> decide

theorem units_integer {n : ℕ} (hn : n ≤ 2 ^ info.explicitMantissaWidth) :
    info.format.units n = ⌊info.format.units n⌋₊ := by
  have hlog : Nat.log 2 n ≤ info.explicitMantissaWidth :=
    (Nat.log_mono_right hn).trans (Nat.log_pow one_lt_two _).le
  have hmin := two_zpow_exponentMin_le_one info
  have hmin' : info.exponentMin ≤ 0 := by
    by_contra hgt
    exact absurd hmin (not_le.mpr (one_lt_zpow₀ one_lt_two (not_le.mp hgt)))
  obtain ⟨k, hk⟩ : ∃ k : ℕ, -info.format.scale n = k := by
    refine Int.eq_ofNat_of_zero_le ?_
    rw [Format.scale, abs_of_nonneg (Nat.cast_nonneg n), Int.log_natCast]
    change 0 ≤ -(max _ info.exponentMin - (info.explicitMantissaWidth : ℤ))
    omega
  have hunits : info.format.units n = ((n * 2 ^ k : ℕ) : ℚ) := by
    rw [Format.units, hk]
    push_cast
    rw [zpow_natCast]
  rw [hunits, Nat.floor_natCast]

/-- A number that is not integral is rounded, and Inexact is raised if that was asked for. -/
theorem fpRoundInt_of_fraction {magnitude : ℚ}
    (hinfo : info ∈ [FPInfo.half, FPInfo.single, FPInfo.double]) (hodd : rounding ≠ .toOdd)
    (hfz : fpcr.fz = false) (hfz16 : fpcr.fz16 = false)
    (h : decode info op = .finite sign magnitude)
    (hfract : Int.fract (signed sign magnitude) ≠ 0) :
    ∃ result, decode info result =
        .finite sign |(rounding.toInteger (signed sign magnitude) : ℚ)| ∧
      ∀ fpsr, fpRoundInt info op fpcr rounding exact fpsr =
        (raiseIf exact .inexact fpcr fpsr).map fun fpsr => (result, fpsr) := by
  obtain ⟨type, value, hunpack, hvalue⟩ := fpUnpack_spec hfz hfz16 h
  rcases hvalue.type_eq with ⟨rfl, hzero⟩ | ⟨rfl, hnormal⟩
  · refine absurd ?_ hfract
    rw [← hvalue.value_eq, FPUnpacked.value_eq_zero hzero, Int.fract_zero]
  · have hx : fixedValue sign value.mantissa (value.exponent - 62) = signed sign magnitude := by
      rw [← hvalue.value_eq, value_eq_fixedValue, hvalue.sign_eq]
    have he := neg_of_fract_ne_zero hnormal.mantissa_lt (hx ▸ hfract)
    have hrun : ∀ fpsr, fpRoundInt info op fpcr rounding exact fpsr = _ := fun fpsr =>
      (fpRoundInt_eq hodd (hunpack fpsr)).trans (roundIntNonzero_eq hnormal.mantissa_lt hodd he)
    simp only [hx] at hrun
    by_cases hz : rounding.toInteger (signed sign magnitude) = 0
    · refine ⟨info.zero sign, ?_, fun fpsr => ?_⟩
      · rw [decode_zero, hz, Int.cast_zero, abs_zero]
      · rw [hrun, if_pos hz]
        simp [hfract]
    · have hones := expRaw_ne_of_finite h
      obtain ⟨rfl, rfl⟩ : signBit info op = sign ∧ encodedMagnitude info op = magnitude := by
        rw [decode_eq_finite hones] at h
        simpa using h
      have hencoded := encodedMagnitude_le_of_fraction hfract
      have hn : (rounding.toInteger (signed (signBit info op) (encodedMagnitude info op))).natAbs ≤
          2 ^ info.explicitMantissaWidth := by
        refine natAbs_toInteger_le ?_
        rw [abs_signed, abs_of_nonneg (by rw [encodedMagnitude_eq]; positivity)]
        exact_mod_cast hencoded
      have hne := Int.natAbs_ne_zero.mpr hz
      obtain ⟨n, hnat⟩ : ∃ n, n = (rounding.toInteger
        (signed (signBit info op) (encodedMagnitude info op))).natAbs := ⟨_, rfl⟩
      have habs : |(rounding.toInteger
          (signed (signBit info op) (encodedMagnitude info op)) : ℚ)| = n := by
        rw [hnat, Nat.cast_natAbs, Int.cast_abs]
      rw [← hnat] at hn hne
      simp only [hz, ↓reduceIte, ← hnat] at hrun
      have hle : n ≤ 2 ^ 62 :=
        hn.trans (Nat.pow_le_pow_right (by norm_num) (info.explicitMantissaWidth_le.trans (by norm_num)))
      have hlt : (BitVec.ofNat 64 n).toNat < 2 ^ 63 := by
        rw [BitVec.toNat_ofNat]
        omega
      have hmagnitude := magnitude_integer (signBit info op) hle
      have hone : (1 : ℚ) ≤ n := by exact_mod_cast Nat.pos_of_ne_zero hne
      have hrange : (n : ℚ) < 2 ^ (info.format.emax + 1) := by
        have hpow : (n : ℚ) ≤ 2 ^ info.explicitMantissaWidth := by exact_mod_cast hn
        refine lt_of_le_of_lt hpow ?_
        rw [← zpow_natCast]
        refine zpow_lt_zpow_right₀ one_lt_two ?_
        have := explicitMantissaWidth_le_exponentMax hinfo
        change _ < info.exponentMax + 1
        omega
      obtain ⟨result, hround, hdecode⟩ := @fpRoundBase_representable info
        ⟨signBit info op, 62, BitVec.ofNat 64 n⟩ fpcr.clearAHP .towardsZero
        (ofNat_ne_zero hne hle) hlt (by decide) (fpcr.fz_clearAHP.trans hfz)
        (fpcr.fz16_clearAHP.trans hfz16) (by rw [hmagnitude]; exact units_integer hn)
        (by rw [hmagnitude]; exact (two_zpow_exponentMin_le_one info).trans hone)
        (by rw [hmagnitude]; exact hrange)
      refine ⟨result, ?_, fun fpsr => ?_⟩
      · rw [hdecode, hmagnitude, habs]
      · rw [hrun, fpRoundWith, hround]
        simp [hfract]

/-- `FPRoundInt` returns the integer a finite number is rounded to, with the sign of the number,
raises Inexact exactly when asked to and the number is not integral, and does nothing when
applied once more; unless it is to raise Inexact and the trap for it is enabled. -/
theorem fpRoundInt_rounds_iff {x : ℚ} (hinfo : info ∈ [FPInfo.half, FPInfo.single, FPInfo.double])
    (hx : (decode info op).toRat = some x) (hodd : rounding ≠ .toOdd) (hfz : fpcr.fz = false)
    (hfz16 : fpcr.fz16 = false) (exact : Bool) :
    (∀ fpsr, ∃ result fpsr', fpRoundInt info op fpcr rounding exact fpsr = some (result, fpsr') ∧
        decode info result = .finite (signBit info op) |(rounding.toInteger x : ℚ)| ∧
        Raised fpsr (fun e => e = .inexact ∧ exact = true ∧ Int.fract x ≠ 0) fpsr' ∧
        ∀ fpcr' rounding' exact' fpsr'', fpcr'.fz = false → fpcr'.fz16 = false →
          rounding' ≠ .toOdd →
          fpRoundInt info result fpcr' rounding' exact' fpsr'' = some (result, fpsr'')) ↔
      (exact = true ∧ Int.fract x ≠ 0 → fpcr.ixe = false) := by
  obtain ⟨sign, magnitude, hfinite, rfl⟩ := exists_finite hx
  have hones := expRaw_ne_of_finite hfinite
  obtain ⟨rfl, rfl⟩ : signBit info op = sign ∧ encodedMagnitude info op = magnitude := by
    rw [decode_eq_finite hones] at hfinite
    simpa using hfinite
  by_cases hint : Int.fract (signed (signBit info op) (encodedMagnitude info op)) = 0
  · refine iff_of_true (fun fpsr => ?_) fun h => absurd hint h.2
    refine ⟨op, fpsr, fpRoundInt_of_integer hodd hfz hfz16 hfinite hint fpsr, ?_, ?_, ?_⟩
    · rw [hfinite, toInteger_of_fract_eq_zero hint, abs_signed, abs_of_nonneg]
      rw [encodedMagnitude_eq]
      positivity
    · exact Raised.refl fun e h => h.2.2 hint
    · intro fpcr' rounding' exact' fpsr'' hfz' hfz16' hodd'
      exact fpRoundInt_of_integer hodd' hfz' hfz16' hfinite hint fpsr''
  · obtain ⟨result, hdecode, hrun⟩ :=
      @fpRoundInt_of_fraction info op fpcr rounding exact _ _ hinfo hodd hfz hfz16 hfinite hint
    have htrap : ∀ fpsr, fpProcessException .inexact fpcr fpsr =
        if fpcr.ixe = true then none else some (fpsr.raise FPExc.inexact.cumulativeBit) :=
      fun _ => rfl
    have hagain : ∀ fpcr' rounding' exact' fpsr'', fpcr'.fz = false → fpcr'.fz16 = false →
        rounding' ≠ .toOdd →
        fpRoundInt info result fpcr' rounding' exact' fpsr'' = some (result, fpsr'') := by
      intro fpcr' rounding' exact' fpsr'' hfz' hfz16' hodd'
      refine fpRoundInt_of_integer hodd' hfz' hfz16' hdecode ?_ fpsr''
      rw [← Int.cast_abs, ← Nat.cast_natAbs, fract_signed_natCast]
    constructor
    · rintro h ⟨rfl, -⟩
      obtain ⟨_, _, hsome, -⟩ := h ⟨0#32⟩
      by_contra htrapped
      rw [hrun, raiseIf, if_pos rfl, htrap, if_pos (by simpa using htrapped)] at hsome
      cases hsome
    · intro h fpsr
      cases exact with
      | false =>
          refine ⟨result, fpsr, by simp [hrun, raiseIf], hdecode, Raised.refl ?_, hagain⟩
          rintro e ⟨-, hexact, -⟩
          exact absurd hexact (by decide)
      | true =>
          have hixe := h ⟨rfl, hint⟩
          refine ⟨result, fpsr.raise FPExc.inexact.cumulativeBit, ?_, hdecode, ?_, hagain⟩
          · rw [hrun, raiseIf, if_pos rfl, htrap, hixe]
            rfl
          · refine (Raised.refl (P := fun _ => False) fun _ => id).raise .inexact fun e => ?_
            simp [hint]

/-- The number 2.5, rounded to the nearest integer, the even one of two. -/
theorem fpRoundInt_rounds_half : ∃ result fpsr',
    fpRoundInt .half 0x4100#16 ⟨0#32⟩ .toNearestTieEven true ⟨0#32⟩ = some (result, fpsr') ∧
      decode .half result = .finite (signBit .half 0x4100#16)
        |(RoundingMode.toNearestTieEven.toInteger (5 / 2) : ℚ)| ∧
      Raised ⟨0#32⟩ (fun e => e = .inexact ∧ true = true ∧ Int.fract (5 / 2 : ℚ) ≠ 0) fpsr' ∧
      ∀ fpcr' rounding' exact' fpsr'', fpcr'.fz = false → fpcr'.fz16 = false →
        rounding' ≠ .toOdd →
        fpRoundInt .half result fpcr' rounding' exact' fpsr'' = some (result, fpsr'') :=
  (fpRoundInt_rounds_iff (by simp)
    (toRat_decode false 16 256 rfl rfl rfl (by decide) (by norm_num [signed, FPInfo.half])) (by decide)
    rfl rfl true).mpr (fun _ => rfl) ⟨0#32⟩

/-- With the Inexact trap enabled, the number 2.5 is not rounded exactly: the assertion that
trapping is not implemented fails. -/
theorem fpRoundInt_trapped :
    FPCR.fz ⟨0x1000#32⟩ = false ∧ FPCR.fz16 ⟨0x1000#32⟩ = false ∧
    (decode .half 0x4100#16).toRat = some (5 / 2) ∧
    fpRoundInt .half 0x4100#16 ⟨0x1000#32⟩ .toNearestTieEven true ⟨0#32⟩ = none :=
  ⟨rfl, rfl, toRat_decode false 16 256 rfl rfl rfl (by decide) (by norm_num [signed, FPInfo.half]), rfl⟩

end Umbra.FP
