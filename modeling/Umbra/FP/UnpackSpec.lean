import Umbra.FP.RoundSpec

/-!
What unpacking gives for a finite number: the number itself, with a normalized
mantissa that has as many low zeros as the format leaves.
-/

namespace Umbra.FP

open Umbra.Lib

variable {info : FPInfo}

structure FPUnpacked.Normal (info : FPInfo) (v : FPUnpacked) : Prop where
  le_mantissa : 2 ^ 62 ≤ v.mantissa.toNat
  mantissa_lt : v.mantissa.toNat < 2 ^ 63
  dvd_mantissa : 2 ^ (62 - info.explicitMantissaWidth) ∣ v.mantissa.toNat
  le_exponent : info.exponentMin - info.explicitMantissaWidth ≤ v.exponent
  exponent_le : v.exponent ≤ info.exponentMax

structure Unpacks (info : FPInfo) (sign : Bool) (magnitude : ℚ) (type : FPType)
    (v : FPUnpacked) : Prop where
  sign_eq : v.sign = sign
  magnitude_eq : v.magnitude = magnitude
  type_eq : type = .zero ∧ v.mantissa = 0#64 ∨ type = .nonzero ∧ v.Normal info

theorem Unpacks.value_eq {sign : Bool} {magnitude : ℚ} {type : FPType} {v : FPUnpacked}
    (h : Unpacks info sign magnitude type v) : v.value = signed sign magnitude := by
  rw [FPUnpacked.value, h.sign_eq, ← h.magnitude_eq, FPUnpacked.magnitude]

theorem FPUnpacked.value_eq_zero {v : FPUnpacked} (h : v.mantissa = 0#64) : v.value = 0 := by
  cases hs : v.sign <;> simp [FPUnpacked.value, h, signed, hs]

variable {op : BitVec info.totalWidth}

theorem exists_finite {a : ℚ} (h : (decode info op).toRat = some a) :
    ∃ sign magnitude, decode info op = .finite sign magnitude ∧ a = signed sign magnitude := by
  cases hd : decode info op with
  | finite sign magnitude =>
      rw [hd, Datum.toRat, Option.some.injEq] at h
      exact ⟨sign, magnitude, rfl, h.symm⟩
  | infinity sign => simp [hd, Datum.toRat] at h
  | nan => simp [hd, Datum.toRat] at h

/-- Normalizing shifts the leading bit to place 62 and keeps the value. -/
theorem toNormalized_spec (sign : Bool) (exponent : ℤ) {value : BitVec 64} {w : ℕ}
    (hne : value ≠ 0#64) (hlt : value.toNat < 2 ^ w) (hw : w ≤ 62) :
    let v := toNormalized sign exponent value
    v.sign = sign ∧ v.magnitude = value.toNat * 2 ^ exponent ∧ 2 ^ 62 ≤ v.mantissa.toNat ∧
      v.mantissa.toNat < 2 ^ 63 ∧ 2 ^ (62 - w) ∣ v.mantissa.toNat ∧ exponent ≤ v.exponent ∧
      v.exponent < exponent + w := by
  have hpos := toNat_pos_of_ne hne
  have hlog : Nat.log 2 value.toNat < w := Nat.log_lt_of_lt_pow hpos.ne' hlt
  obtain ⟨d, hd⟩ : ∃ d, d + Nat.log 2 value.toNat = 62 := ⟨62 - Nat.log 2 value.toNat, by omega⟩
  have hlow := Nat.pow_log_le_self 2 hpos.ne'
  have hhigh := Nat.lt_pow_succ_log_self (b := 2) one_lt_two value.toNat
  have hoffset : ((normalizedPointPosition : ℤ) - highestSetBit value).toNat = d := by
    rw [highestSetBit_eq hne, normalizedPointPosition]
    omega
  have hmantissa : (value <<< d).toNat = value.toNat * 2 ^ d := by
    rw [BitVec.toNat_shiftLeft, Nat.shiftLeft_eq, Nat.mod_eq_of_lt]
    calc value.toNat * 2 ^ d < 2 ^ (Nat.log 2 value.toNat + 1) * 2 ^ d :=
          Nat.mul_lt_mul_of_pos_right hhigh (by positivity)
      _ ≤ 2 ^ 64 := by
          rw [← pow_add]
          exact Nat.pow_le_pow_right (by norm_num) (by omega)
  simp only [toNormalized, if_neg hne, hoffset, FPUnpacked.magnitude, hmantissa]
  rw [highestSetBit_eq hne, normalizedPointPosition]
  refine ⟨trivial, ?_, ?_, ?_, ?_, by omega, by omega⟩
  · push_cast
    rw [mul_assoc, ← zpow_natCast, ← zpow_add₀ two_ne_zero]
    congr 2
    omega
  · calc 2 ^ 62 = 2 ^ Nat.log 2 value.toNat * 2 ^ d := by rw [← pow_add, add_comm, hd]
      _ ≤ _ := Nat.mul_le_mul_right _ hlow
  · calc value.toNat * 2 ^ d < 2 ^ (Nat.log 2 value.toNat + 1) * 2 ^ d :=
          Nat.mul_lt_mul_of_pos_right hhigh (by positivity)
      _ = 2 ^ 63 := by
          rw [← pow_add]
          congr 1
          omega
  · exact Dvd.dvd.mul_left (pow_dvd_pow 2 (by omega)) _

theorem toNat_normalMantissa (op : BitVec info.totalWidth) :
    (((fracRaw info op).setWidth 64 ||| info.implicitLeadingBit.setWidth 64) <<<
        (normalizedPointPosition - info.explicitMantissaWidth)).toNat =
      (2 ^ info.explicitMantissaWidth + (fracRaw info op).toNat) *
        2 ^ (62 - info.explicitMantissaWidth) := by
  have hF := info.explicitMantissaWidth_le
  have hfrac := (fracRaw info op).isLt
  have hle : 2 ^ info.explicitMantissaWidth ≤ 2 ^ 52 := Nat.pow_le_pow_right (by norm_num) hF
  have hor : ((fracRaw info op).setWidth 64 ||| info.implicitLeadingBit.setWidth 64).toNat =
      2 ^ info.explicitMantissaWidth + (fracRaw info op).toNat := by
    rw [BitVec.toNat_or, BitVec.toNat_setWidth, BitVec.toNat_setWidth, info.implicitLeadingBit_eq,
      Nat.mod_eq_of_lt (by omega), Nat.mod_eq_of_lt (by omega), Nat.or_comm,
      ← one_mul (2 ^ info.explicitMantissaWidth), ← Nat.shiftLeft_eq,
      ← Nat.shiftLeft_add_eq_or_of_lt hfrac]
  rw [BitVec.toNat_shiftLeft, hor, Nat.shiftLeft_eq, normalizedPointPosition, Nat.mod_eq_of_lt]
  calc _ < 2 ^ (info.explicitMantissaWidth + 1) * 2 ^ (62 - info.explicitMantissaWidth) := by
        refine Nat.mul_lt_mul_of_pos_right ?_ (by positivity)
        rw [pow_succ]
        omega
    _ ≤ 2 ^ 64 := by
        rw [← pow_add]
        exact Nat.pow_le_pow_right (by norm_num) (by omega)

/-- The magnitude a bit pattern has if an exponent of all ones means nothing special. -/
def encodedMagnitude (info : FPInfo) (op : BitVec info.totalWidth) : ℚ :=
  let exp := (expRaw info op).toNat
  let frac := (fracRaw info op).toNat
  (if exp = 0 then frac else 2 ^ info.explicitMantissaWidth + frac : ℕ) *
    2 ^ (max (exp : ℤ) 1 - 1 + info.exponentMin - info.explicitMantissaWidth)

theorem decode_eq_finite (h : (expRaw info op).toNat ≠ 2 ^ info.exponentWidth - 1) :
    decode info op = .finite (signBit info op) (encodedMagnitude info op) := by
  simp only [decode, encodedMagnitude]
  rw [if_neg h]
  split_ifs with hzero
  · simp [hzero]
  · rw [max_eq_left (by omega), info.exponentMin_eq]
    push_cast
    congr 3
    ring

theorem toRat_decode {a : ℚ} (sign : Bool) (e f : ℕ) (hsign : signBit info op = sign)
    (hexp : (expRaw info op).toNat = e) (hfrac : (fracRaw info op).toNat = f)
    (hones : e ≠ 2 ^ info.exponentWidth - 1)
    (ha : signed sign ((if e = 0 then f else 2 ^ info.explicitMantissaWidth + f : ℕ) *
      2 ^ (max (e : ℤ) 1 - 1 + info.exponentMin - info.explicitMantissaWidth)) = a) :
    (decode info op).toRat = some a := by
  rw [decode_eq_finite (hexp ▸ hones), Datum.toRat, encodedMagnitude]
  simp only [hsign, hexp, hfrac, ha]

def IsSpecial (info : FPInfo) (op : BitVec info.totalWidth) (fpcr : FPCR) : Prop :=
  (expRaw info op).toNat = 2 ^ info.exponentWidth - 1 ∧
    (isHalfPrecision info = false ∨ fpcr.ahp = false)

structure FPUnpacked.Normalizes (info : FPInfo) (op : BitVec info.totalWidth) (v : FPUnpacked) :
    Prop where
  le_mantissa : 2 ^ 62 ≤ v.mantissa.toNat
  mantissa_lt : v.mantissa.toNat < 2 ^ 63
  dvd_mantissa : 2 ^ (62 - info.explicitMantissaWidth) ∣ v.mantissa.toNat
  le_exponent : info.exponentMin - info.explicitMantissaWidth ≤ v.exponent
  exponent_le : v.exponent ≤ max ((expRaw info op).toNat : ℤ) 1 - info.exponentBias

/-- Unpacking an ordinary pattern gives its value, normalized or zero. -/
theorem fpUnpackBase_spec {fpcr : FPCR} (hfz : fpcr.fz = false) (hfz16 : fpcr.fz16 = false)
    (h : ¬IsSpecial info op fpcr) :
    ∃ type v, (∀ fpsr, fpUnpackBase info op fpcr fpsr = some ((type, signBit info op, v), fpsr)) ∧
      v.sign = signBit info op ∧ v.magnitude = encodedMagnitude info op ∧
      (type = .zero ∧ v.mantissa = 0#64 ∨ type = .nonzero ∧ v.Normalizes info op) := by
  have hF := info.explicitMantissaWidth_le
  have hfrac := (fracRaw info op).isLt
  have hzero : ∀ {w : ℕ} (x : BitVec w), x = 0 ↔ x.toNat = 0 := fun x => by
    rw [← BitVec.toNat_inj]
    simp
  have hmin := info.exponentMin_eq
  by_cases hsubnormal : (expRaw info op).toNat = 0
  · have hexp0 : expRaw info op = 0 := (hzero _).mpr hsubnormal
    have hencoded : encodedMagnitude info op =
        (fracRaw info op).toNat * 2 ^ (info.exponentMin - info.explicitMantissaWidth) := by
      simp [encodedMagnitude, hsubnormal]
    by_cases hfrac0 : fracRaw info op = 0
    · refine ⟨.zero, ⟨signBit info op, 0, 0#64⟩, ?_, rfl, ?_, .inl ⟨rfl, rfl⟩⟩
      · simp [fpUnpackBase, hexp0, hfrac0]
      · simp [FPUnpacked.magnitude, hencoded, hfrac0]
    · have hsetWidth : ((fracRaw info op).setWidth 64).toNat = (fracRaw info op).toNat := by
        have : 2 ^ info.explicitMantissaWidth ≤ 2 ^ 52 := Nat.pow_le_pow_right (by norm_num) hF
        rw [BitVec.toNat_setWidth, Nat.mod_eq_of_lt (by omega)]
      have hne : (fracRaw info op).setWidth 64 ≠ 0#64 := fun heq => hfrac0 <| (hzero _).mpr <| by
        rw [← hsetWidth, heq]
        rfl
      obtain ⟨hsign, hvalue, hlow, hhigh, hdvd, hexpLow, hexpHigh⟩ := toNormalized_spec
        (signBit info op) (info.exponentMin - info.explicitMantissaWidth) hne
        (hsetWidth ▸ hfrac) (by omega)
      refine ⟨.nonzero, _, ?_, hsign, ?_, .inr ⟨rfl, hlow, hhigh, hdvd, hexpLow, ?_⟩⟩
      · have hfrac0' : fracRaw info op ≠ BitVec.ofNat info.explicitMantissaWidth 0 := hfrac0
        simp [fpUnpackBase, hexp0, hfrac0', hfz, hfz16]
      · rw [hvalue, hsetWidth, hencoded]
      · omega
  · have hexp0 : expRaw info op ≠ 0 := fun heq => hsubnormal ((hzero _).mp heq)
    have hall : ¬(expRaw info op = BitVec.allOnes info.exponentWidth ∧
        (isHalfPrecision info = false ∨ fpcr.ahp = false)) := by
      rintro ⟨heq, hmode⟩
      exact h ⟨by rw [heq, BitVec.toNat_allOnes], hmode⟩
    have hmantissa := toNat_normalMantissa op
    have hsplit : 2 ^ 62 = 2 ^ info.explicitMantissaWidth * 2 ^ (62 - info.explicitMantissaWidth) := by
      rw [← pow_add, Nat.add_sub_cancel' (by omega)]
    refine ⟨.nonzero, ⟨signBit info op, ((expRaw info op).toNat : ℤ) - info.exponentBias,
      ((fracRaw info op).setWidth 64 ||| info.implicitLeadingBit.setWidth 64) <<<
        (normalizedPointPosition - info.explicitMantissaWidth)⟩,
      ?_, rfl, ?_, .inr ⟨rfl, ?_, ?_, ?_, ?_, ?_⟩⟩
    · intro fpsr
      simp only [fpUnpackBase]
      rw [if_neg hexp0, if_neg hall]
    · simp only [FPUnpacked.magnitude, encodedMagnitude, hmantissa]
      rw [if_neg hsubnormal, max_eq_left (by omega), hmin]
      push_cast
      rw [mul_assoc, ← zpow_natCast, ← zpow_natCast, ← zpow_add₀ two_ne_zero]
      congr 2
      push_cast [show info.explicitMantissaWidth ≤ 62 by omega]
      ring
    · rw [hmantissa, hsplit]
      exact Nat.mul_le_mul_right _ (Nat.le_add_right _ _)
    · rw [hmantissa, show 2 ^ 63 = 2 ^ 62 * 2 by norm_num, hsplit, mul_right_comm]
      exact Nat.mul_lt_mul_of_pos_right (by omega) (by positivity)
    · rw [hmantissa]
      exact Dvd.intro_left _ rfl
    · change _ ≤ ((expRaw info op).toNat : ℤ) - info.exponentBias
      omega
    · change ((expRaw info op).toNat : ℤ) - info.exponentBias ≤ _
      omega

theorem expRaw_sub_bias_le (h : (expRaw info op).toNat ≠ 2 ^ info.exponentWidth - 1) :
    max ((expRaw info op).toNat : ℤ) 1 - info.exponentBias ≤ info.exponentMax := by
  have hexp := (expRaw info op).isLt
  have hpow : (2 : ℤ) ^ info.exponentWidth = 2 * 2 ^ (info.exponentWidth - 1) := by
    rw [← pow_succ', Nat.sub_add_cancel (by have := info.two_le_exponentWidth; omega)]
  have hone : (2 : ℤ) ^ 1 ≤ 2 ^ (info.exponentWidth - 1) :=
    pow_le_pow_right₀ (by norm_num) (by have := info.two_le_exponentWidth; omega)
  have hrange : ((expRaw info op).toNat : ℤ) < 2 ^ info.exponentWidth - 1 := by
    have : ((expRaw info op).toNat : ℤ) < ((2 ^ info.exponentWidth - 1 : ℕ) : ℤ) := by
      exact_mod_cast (show (expRaw info op).toNat < 2 ^ info.exponentWidth - 1 by omega)
    push_cast [Nat.one_le_two_pow] at this
    exact this
  have hmax := info.exponentMax_eq
  have hbias := info.exponentBias_eq
  omega

theorem expRaw_ne_of_finite {sign : Bool} {magnitude : ℚ}
    (h : decode info op = .finite sign magnitude) :
    (expRaw info op).toNat ≠ 2 ^ info.exponentWidth - 1 := by
  intro hones
  simp only [decode, hones, ↓reduceIte] at h
  split at h <;> cases h

theorem fpUnpackBase_special {fpcr : FPCR} (h : IsSpecial info op fpcr) (fpsr : FPSR) :
    fpUnpackBase info op fpcr fpsr =
      if fracRaw info op = 0 then
        some ((.infinity, signBit info op, toNormalized (signBit info op) 1000000 1#64), fpsr)
      else
        some ((if op.getLsbD (info.explicitMantissaWidth - 1) then .qNaN else .sNaN,
          signBit info op, ⟨signBit info op, 0, 0#64⟩), fpsr) := by
  have hpow : 2 ^ 2 ≤ 2 ^ info.exponentWidth :=
    Nat.pow_le_pow_right (by norm_num) info.two_le_exponentWidth
  have hne : expRaw info op ≠ 0 := fun hzero => by
    have htoNat := congrArg BitVec.toNat hzero
    rw [h.1] at htoNat
    simp at htoNat
    omega
  have hall : expRaw info op = BitVec.allOnes info.exponentWidth :=
    BitVec.eq_of_toNat_eq (h.1.trans (BitVec.toNat_allOnes).symm)
  simp only [fpUnpackBase]
  rw [if_neg hne, if_pos ⟨hall, h.2⟩]

theorem fpUnpack_spec {sign : Bool} {magnitude : ℚ} {fpcr : FPCR} (hfz : fpcr.fz = false)
    (hfz16 : fpcr.fz16 = false) (h : decode info op = .finite sign magnitude) :
    ∃ type v, (∀ fpsr, fpUnpack info op fpcr fpsr = some ((type, sign, v), fpsr)) ∧
      Unpacks info sign magnitude type v := by
  have hones := expRaw_ne_of_finite h
  obtain ⟨rfl, rfl⟩ : signBit info op = sign ∧ encodedMagnitude info op = magnitude := by
    rw [decode_eq_finite hones] at h
    simpa using h
  have hspecial : ¬IsSpecial info op fpcr.clearAHP := fun h => hones h.1
  obtain ⟨type, v, hunpack, hsign, hmagnitude, htype⟩ :=
    fpUnpackBase_spec (fpcr.fz_clearAHP.trans hfz) (fpcr.fz16_clearAHP.trans hfz16) hspecial
  refine ⟨type, v, hunpack, hsign, hmagnitude, htype.imp_right ?_⟩
  rintro ⟨htype, hv⟩
  exact ⟨htype, hv.le_mantissa, hv.mantissa_lt, hv.dvd_mantissa, hv.le_exponent,
    hv.exponent_le.trans (expRaw_sub_bias_le hones)⟩

end Umbra.FP
