import Mathlib.Algebra.Order.Floor.Semifield
import Umbra.FP.RoundingModes
import Umbra.FP.Unpacked

/-!
What unpacking and rounding compute.

`decode` says which number a bit pattern stands for.  Unpacking gives that
number back, and `FPRoundBase` rounds the value of an unpacked number to the
format once, in any mode but the one it does not accept.  It raises Inexact when
that changes the number, Underflow when moreover the number is below the normal
ones, and Overflow when the rounded number is beyond the range.
-/

namespace Umbra.FP

open Umbra.Lib

def FPCR.direction (fpcr : FPCR) : Mode :=
  match fpcr.rMode with
  | .toNearestTieEven => .nearestEven
  | .towardsPlusInfinity => .up
  | .towardsMinusInfinity => .down
  | _ => .truncate

theorem FPCR.direction_eq (fpcr : FPCR) : fpcr.direction = fpcr.rMode.direction := by
  unfold FPCR.direction RoundingMode.direction
  cases fpcr.rMode <;> rfl

/-- Neither flushing to zero nor trapping is enabled. -/
structure FPCR.Plain (fpcr : FPCR) : Prop where
  fz : fpcr.fz = false
  fz16 : fpcr.fz16 = false
  untrapped : fpcr.Untrapped

namespace FPInfo

variable (info : FPInfo)

theorem one_le_exponentMax : 1 ≤ info.exponentMax := by
  have hbias := info.exponentBias_eq
  have hpow : (2 : ℤ) ^ 1 ≤ 2 ^ (info.exponentWidth - 1) :=
    pow_le_pow_right₀ (by norm_num) (by have := info.two_le_exponentWidth; omega)
  rw [info.exponentMax_eq]
  omega

theorem exponentMin_le_zero : info.exponentMin ≤ 0 := by
  rw [info.exponentMin_eq, ← info.exponentMax_eq]
  have := info.one_le_exponentMax
  omega

theorem exponentMin_le_exponentMax : info.exponentMin ≤ info.exponentMax :=
  info.exponentMin_le_zero.trans (zero_le_one.trans info.one_le_exponentMax)

def format : Format where
  fraction := info.explicitMantissaWidth
  emin := info.exponentMin
  emax := info.exponentMax
  fraction_pos := info.explicitMantissaWidth_pos
  emin_le_emax := info.exponentMin_le_exponentMax

end FPInfo

def decode (info : FPInfo) (op : BitVec info.totalWidth) : Datum :=
  let sign := signBit info op
  let exp := (expRaw info op).toNat
  let frac := (fracRaw info op).toNat
  if exp = 2 ^ info.exponentWidth - 1 then
    if frac = 0 then .infinity sign else .nan
  else if exp = 0 then
    .finite sign (frac * 2 ^ (info.exponentMin - info.explicitMantissaWidth))
  else
    .finite sign ((2 ^ info.explicitMantissaWidth + frac) *
      2 ^ (exp - info.exponentBias - info.explicitMantissaWidth))

def FPUnpacked.value (u : FPUnpacked) : ℚ :=
  signed u.sign (u.mantissa.toNat * 2 ^ (u.exponent - 62))

/-! ### Exceptions -/

/-- Of the cumulative bits, exactly those of the given exceptions have been set. -/
def Raised (fpsr : FPSR) (exceptions : FPExc → Prop) (fpsr' : FPSR) : Prop :=
  ∀ i, fpsr'.value.getLsbD i = true ↔
    fpsr.value.getLsbD i = true ∨ ∃ exception : FPExc, exception.cumulativeBit = i ∧ exceptions exception

def roundExceptions (f : Format) (r : Rounding) (x : ℚ) : FPExc → Prop
  | .inexact => f.InexactBy r x
  | .underflow => |x| < 2 ^ f.emin ∧ f.InexactBy r x
  | .overflow => f.OverflowsBy r x
  | _ => False

/-- Rounding the number runs into a trap.  The Underflow trap is taken for every number below
the normal ones, also for one that is kept. -/
def FPCR.Traps (fpcr : FPCR) (f : Format) (r : Rounding) (x : ℚ) : Prop :=
  ∃ exception : FPExc, fpcr.value.getLsbD exception.enableBit = true ∧
    (roundExceptions f r x exception ∨ exception = .underflow ∧ |x| < 2 ^ f.emin)

section Exceptions

variable {fpsr fpsr' : FPSR} {P Q : FPExc → Prop}

theorem getLsbD_raise (fpsr : FPSR) (exception : FPExc) (i : ℕ) :
    (fpsr.raise exception.cumulativeBit).value.getLsbD i =
      (fpsr.value.getLsbD i || decide (exception.cumulativeBit = i)) := by
  have hlt : exception.cumulativeBit < 32 := by cases exception <;> decide
  have hone : (1#32).getLsbD (i - exception.cumulativeBit) =
      decide (i - exception.cumulativeBit = 0) := by
    simp
  rw [FPSR.raise, BitVec.getLsbD_or, BitVec.getLsbD_shiftLeft, hone]
  congr 1
  by_cases heq : exception.cumulativeBit = i
  · simp [← heq, hlt]
  · by_cases hless : i < exception.cumulativeBit
    · simp [heq, hless]
    · simp [heq, hless]
      omega

theorem Raised.refl (h : ∀ exception, ¬P exception) : Raised fpsr P fpsr := by
  intro i
  rw [or_iff_left]
  rintro ⟨exception, -, hP⟩
  exact h exception hP

theorem Raised.raise (h : Raised fpsr P fpsr') (exception : FPExc)
    (hQ : ∀ e, Q e ↔ P e ∨ e = exception) :
    Raised fpsr Q (fpsr'.raise exception.cumulativeBit) := by
  intro i
  rw [getLsbD_raise, Bool.or_eq_true, decide_eq_true_eq, h i, or_assoc]
  refine or_congr_right ?_
  constructor
  · rintro (⟨e, rfl, hP⟩ | rfl)
    · exact ⟨e, rfl, (hQ e).mpr (.inl hP)⟩
    · exact ⟨exception, rfl, (hQ _).mpr (.inr rfl)⟩
  · rintro ⟨e, rfl, hQe⟩
    rcases (hQ e).mp hQe with hP | rfl
    · exact .inl ⟨e, rfl, hP⟩
    · exact .inr rfl

theorem Raised.raise_if (h : Raised fpsr P fpsr') (exception : FPExc) {c : Prop} [Decidable c]
    (hQ : ∀ e, Q e ↔ P e ∨ e = exception ∧ c) :
    Raised fpsr Q (if c then fpsr'.raise exception.cumulativeBit else fpsr') := by
  split
  · rename_i hc
    exact h.raise exception fun e => by rw [hQ e, and_iff_left hc]
  · rename_i hc
    have hPQ : P = Q := funext fun e => propext (by rw [hQ e, or_iff_left fun h => hc h.2])
    rwa [← hPQ]

/-- An exception has set its bit exactly when it was raised. -/
theorem Raised.getLsbD (h : Raised fpsr P fpsr') (exception : FPExc) :
    fpsr'.value.getLsbD exception.cumulativeBit = true ↔
      fpsr.value.getLsbD exception.cumulativeBit = true ∨ P exception := by
  have hinj : ∀ e e' : FPExc, e.cumulativeBit = e'.cumulativeBit → e = e' := by
    intro e e'
    cases e <;> cases e' <;> decide
  rw [h]
  refine or_congr_right ⟨?_, fun hP => ⟨exception, rfl, hP⟩⟩
  rintro ⟨e, heq, hP⟩
  rwa [← hinj e exception heq]

theorem FPCR.traps_iff {fpcr : FPCR} {f : Format} {r : Rounding} {x : ℚ} :
    fpcr.Traps f r x ↔ (fpcr.ufe = true ∧ |x| < 2 ^ f.emin) ∨
      (fpcr.ofe = true ∧ f.OverflowsBy r x) ∨ (fpcr.ixe = true ∧ f.InexactBy r x) := by
  constructor
  · rintro ⟨exception, henabled, h | ⟨rfl, hsmall⟩⟩
    · cases exception with
      | overflow => exact .inr (.inl ⟨henabled, h⟩)
      | underflow => exact .inl ⟨henabled, h.1⟩
      | inexact => exact .inr (.inr ⟨henabled, h⟩)
      | _ => exact h.elim
    · exact .inl ⟨henabled, hsmall⟩
  · rintro (⟨henabled, hsmall⟩ | ⟨henabled, h⟩ | ⟨henabled, h⟩)
    · exact ⟨.underflow, henabled, .inr ⟨rfl, hsmall⟩⟩
    · exact ⟨.overflow, henabled, .inl h⟩
    · exact ⟨.inexact, henabled, .inl h⟩

theorem FPCR.Untrapped.not_traps {fpcr : FPCR} (h : fpcr.Untrapped) {f : Format} {r : Rounding}
    {x : ℚ} : ¬fpcr.Traps f r x := fun ⟨exception, henabled, _⟩ =>
  Bool.false_ne_true ((h exception).symm.trans henabled)

end Exceptions

/-! ### The parts of a bit pattern -/

section Parts

variable {info : FPInfo} {op : BitVec info.totalWidth}

theorem toNat_expRaw (op : BitVec info.totalWidth) :
    (expRaw info op).toNat = op.toNat / 2 ^ info.explicitMantissaWidth % 2 ^ info.exponentWidth := by
  rw [expRaw, BitVec.extractLsb'_toNat, Nat.shiftRight_eq_div_pow]

theorem toNat_fracRaw (op : BitVec info.totalWidth) :
    (fracRaw info op).toNat = op.toNat % 2 ^ info.explicitMantissaWidth := by
  rw [fracRaw, BitVec.extractLsb'_toNat, Nat.shiftRight_zero]

theorem signBit_eq (op : BitVec info.totalWidth) :
    signBit info op =
      decide (op.toNat / 2 ^ (info.exponentWidth + info.explicitMantissaWidth) = 1) := by
  have hlt : op.toNat / 2 ^ (info.exponentWidth + info.explicitMantissaWidth) < 2 := by
    rw [Nat.div_lt_iff_lt_mul (by positivity), mul_comm, ← pow_succ, ← info.totalWidth_eq]
    exact op.isLt
  rw [signBit, BitVec.getLsbD, Nat.testBit_eq_decide_div_mod_eq, Nat.mod_eq_of_lt hlt]

theorem parts_of_toNat {sign : Bool} {exp frac : ℕ} (hexp : exp < 2 ^ info.exponentWidth)
    (hfrac : frac < 2 ^ info.explicitMantissaWidth)
    (h : op.toNat = (sign.toNat * 2 ^ info.exponentWidth + exp) * 2 ^ info.explicitMantissaWidth + frac) :
    signBit info op = sign ∧ (expRaw info op).toNat = exp ∧ (fracRaw info op).toNat = frac := by
  have hdiv : op.toNat / 2 ^ info.explicitMantissaWidth =
      sign.toNat * 2 ^ info.exponentWidth + exp := by
    rw [h, mul_comm, Nat.mul_add_div (by positivity), Nat.div_eq_of_lt hfrac, Nat.add_zero]
  refine ⟨?_, ?_, ?_⟩
  · rw [signBit_eq, add_comm, pow_add, ← Nat.div_div_eq_div_mul, hdiv, mul_comm,
      Nat.mul_add_div (by positivity), Nat.div_eq_of_lt hexp, Nat.add_zero]
    cases sign <;> rfl
  · rw [toNat_expRaw, hdiv, mul_comm, Nat.mul_add_mod, Nat.mod_eq_of_lt hexp]
  · rw [toNat_fracRaw, h, mul_comm, Nat.mul_add_mod, Nat.mod_eq_of_lt hfrac]

theorem two_pow_totalWidth (info : FPInfo) :
    2 ^ info.totalWidth = 2 * (2 ^ info.exponentWidth * 2 ^ info.explicitMantissaWidth) := by
  rw [info.totalWidth_eq, pow_succ, pow_add, mul_comm]

theorem toNat_zero (info : FPInfo) (sign : Bool) :
    (info.zero sign).toNat =
      sign.toNat * 2 ^ info.exponentWidth * 2 ^ info.explicitMantissaWidth := by
  cases sign with
  | false => simp [FPInfo.zero]
  | true => simp [FPInfo.zero, info.signMask_eq, pow_add]

theorem toNat_or_zero (info : FPInfo) {x : BitVec info.totalWidth} (sign : Bool)
    (hx : x.toNat < 2 ^ info.exponentWidth * 2 ^ info.explicitMantissaWidth) :
    (x ||| info.zero sign).toNat =
      sign.toNat * 2 ^ info.exponentWidth * 2 ^ info.explicitMantissaWidth + x.toNat := by
  rw [BitVec.toNat_or, toNat_zero, mul_assoc, ← pow_add, Nat.or_comm, ← Nat.shiftLeft_eq,
    ← Nat.shiftLeft_add_eq_or_of_lt]
  rwa [pow_add]

theorem decode_infinity (info : FPInfo) (sign : Bool) :
    decode info (info.infinity sign) = .infinity sign := by
  have hE : 1 ≤ 2 ^ info.exponentWidth := Nat.one_le_two_pow
  have hmask := info.exponentMask_eq
  have hlt : (2 ^ info.exponentWidth - 1) * 2 ^ info.explicitMantissaWidth <
      2 ^ info.exponentWidth * 2 ^ info.explicitMantissaWidth :=
    Nat.mul_lt_mul_of_pos_right (by omega) (by positivity)
  have htoNat : (info.infinity sign).toNat = (sign.toNat * 2 ^ info.exponentWidth +
      (2 ^ info.exponentWidth - 1)) * 2 ^ info.explicitMantissaWidth + 0 := by
    rw [FPInfo.infinity, toNat_or_zero info sign (hmask ▸ hlt), hmask, add_mul, add_zero]
  obtain ⟨hsign, hexp, hfrac⟩ := parts_of_toNat (by omega) (by positivity) htoNat
  simp only [decode, hexp, hfrac, hsign, ↓reduceIte]

theorem decode_maxNormal (info : FPInfo) (sign : Bool) :
    decode info (info.maxNormal sign) = .finite sign info.format.maxFinite := by
  have hE : 4 ≤ 2 ^ info.exponentWidth :=
    (pow_le_pow_right₀ one_le_two info.two_le_exponentWidth : 2 ^ 2 ≤ 2 ^ info.exponentWidth)
  have hF : 1 ≤ 2 ^ info.explicitMantissaWidth := Nat.one_le_two_pow
  have hmask := info.exponentMask_eq
  have hsplit : (2 ^ info.exponentWidth - 1) * 2 ^ info.explicitMantissaWidth =
      (2 ^ info.exponentWidth - 2) * 2 ^ info.explicitMantissaWidth +
        2 ^ info.explicitMantissaWidth := by
    rw [← Nat.succ_mul]
    congr 1
    omega
  have hone : (1 : BitVec info.totalWidth).toNat = 1 :=
    BitVec.toNat_one (by rw [info.totalWidth_eq]; omega)
  have hless : (info.exponentMask - 1).toNat =
      (2 ^ info.exponentWidth - 2) * 2 ^ info.explicitMantissaWidth +
        (2 ^ info.explicitMantissaWidth - 1) := by
    rw [BitVec.toNat_sub_of_le (by rw [BitVec.le_def, hone, hmask]; omega), hone, hmask]
    omega
  have hlt : (2 ^ info.exponentWidth - 1) * 2 ^ info.explicitMantissaWidth <
      2 ^ info.exponentWidth * 2 ^ info.explicitMantissaWidth :=
    Nat.mul_lt_mul_of_pos_right (by omega) (by positivity)
  have htoNat : (info.maxNormal sign).toNat = (sign.toNat * 2 ^ info.exponentWidth +
      (2 ^ info.exponentWidth - 2)) * 2 ^ info.explicitMantissaWidth +
        (2 ^ info.explicitMantissaWidth - 1) := by
    rw [FPInfo.maxNormal, toNat_or_zero info sign (by omega), hless, add_mul, add_assoc]
  obtain ⟨hsign, hexp, hfrac⟩ := parts_of_toNat (by omega) (by omega) htoNat
  have hbias : ((2 ^ info.exponentWidth - 2 : ℕ) : ℤ) - info.exponentBias = info.exponentMax := by
    have hpow : (2 : ℤ) ^ info.exponentWidth = 2 * 2 ^ (info.exponentWidth - 1) := by
      rw [← pow_succ', Nat.sub_add_cancel (by have := info.two_le_exponentWidth; omega)]
    rw [info.exponentMax_eq, info.exponentBias_eq]
    push_cast [show 2 ≤ 2 ^ info.exponentWidth by omega]
    rw [hpow]
    ring
  have hcount : (2 : ℚ) ^ info.explicitMantissaWidth + ((2 ^ info.explicitMantissaWidth - 1 : ℕ) : ℚ) =
      2 ^ (info.explicitMantissaWidth + 1) - 1 := by
    push_cast [hF]
    ring
  simp only [decode, hexp, hfrac, hsign]
  rw [if_neg (by omega), if_neg (by omega), hbias, hcount]
  rfl

theorem toNat_assemble {sign : Bool} {biasedExp : ℕ} {mantissa : BitVec 64}
    (hexp : biasedExp < 2 ^ info.exponentWidth) :
    (assemble info sign biasedExp mantissa).toNat =
      (sign.toNat * 2 ^ info.exponentWidth + biasedExp) * 2 ^ info.explicitMantissaWidth +
        mantissa.toNat % 2 ^ info.explicitMantissaWidth := by
  have hwidth := two_pow_totalWidth info
  have hF : 1 ≤ 2 ^ info.explicitMantissaWidth := Nat.one_le_two_pow
  have hle : 2 ^ info.exponentWidth ≤ 2 ^ info.exponentWidth * 2 ^ info.explicitMantissaWidth :=
    Nat.le_mul_of_pos_right _ hF
  have hE : 1 ≤ 2 ^ info.exponentWidth := Nat.one_le_two_pow
  have hscaled : sign.toNat * 2 ^ info.exponentWidth ≤ 2 ^ info.exponentWidth := by
    cases sign <;> simp
  have hsign : ((BitVec.ofBool sign).setWidth info.totalWidth <<< info.exponentWidth).toNat =
      sign.toNat * 2 ^ info.exponentWidth := by
    have hbit : sign.toNat < 2 ^ info.totalWidth := by
      have := Bool.toNat_le sign
      omega
    rw [BitVec.toNat_shiftLeft, BitVec.toNat_setWidth, BitVec.toNat_ofBool, Nat.shiftLeft_eq,
      Nat.mod_eq_of_lt hbit, Nat.mod_eq_of_lt (by omega)]
  have hexp' : (BitVec.ofInt info.totalWidth biasedExp).toNat = biasedExp := by
    rw [BitVec.toNat_ofInt]
    have : (biasedExp : ℤ) % ((2 ^ info.totalWidth : ℕ) : ℤ) = biasedExp :=
      Int.emod_eq_of_lt (by omega) (by exact_mod_cast (by omega : biasedExp < 2 ^ info.totalWidth))
    rw [this, Int.toNat_natCast]
  have hhigh : sign.toNat * 2 ^ info.exponentWidth + biasedExp < 2 * 2 ^ info.exponentWidth := by
    omega
  have hlow : (mantissa.setWidth info.totalWidth &&& info.mantissaMask).toNat =
      mantissa.toNat % 2 ^ info.explicitMantissaWidth := by
    rw [BitVec.toNat_and, BitVec.toNat_setWidth, info.mantissaMask_eq,
      Nat.and_two_pow_sub_one_eq_mod, Nat.mod_mod_of_dvd]
    rw [hwidth]
    exact Dvd.intro_left _ (mul_assoc _ _ _)
  have hshifted : (sign.toNat * 2 ^ info.exponentWidth + biasedExp) *
      2 ^ info.explicitMantissaWidth < 2 ^ info.totalWidth := by
    rw [hwidth, ← mul_assoc]
    exact Nat.mul_lt_mul_of_pos_right hhigh hF
  have hsum : sign.toNat * 2 ^ info.exponentWidth + biasedExp < 2 ^ info.totalWidth := by omega
  rw [assemble, BitVec.toNat_or, hlow, BitVec.toNat_shiftLeft, BitVec.toNat_add, hsign, hexp',
    Nat.shiftLeft_eq, Nat.mod_eq_of_lt hsum, Nat.mod_eq_of_lt hshifted, ← Nat.shiftLeft_eq,
    ← Nat.shiftLeft_add_eq_or_of_lt (Nat.mod_lt _ hF)]

theorem decode_assemble {sign : Bool} {biasedExp : ℕ} {mantissa : BitVec 64}
    (hexp : biasedExp < 2 ^ info.exponentWidth - 1)
    (hmantissa : mantissa.toNat < 2 ^ (info.explicitMantissaWidth + 1))
    (hnormal : biasedExp = 0 ↔ mantissa.toNat < 2 ^ info.explicitMantissaWidth) :
    decode info (assemble info sign biasedExp mantissa) =
      .finite sign (mantissa.toNat *
        2 ^ (max (biasedExp : ℤ) 1 - 1 + info.exponentMin - info.explicitMantissaWidth)) := by
  have hF : 0 < 2 ^ info.explicitMantissaWidth := by positivity
  have htoNat : (assemble info sign biasedExp mantissa).toNat = _ := toNat_assemble (by omega)
  obtain ⟨hsign, hexp', hfrac⟩ := parts_of_toNat (by omega) (Nat.mod_lt _ hF) htoNat
  simp only [decode, hexp', hfrac, hsign]
  rw [if_neg (by omega)]
  by_cases hzero : biasedExp = 0
  · have hlt := hnormal.mp hzero
    rw [if_pos hzero, Nat.mod_eq_of_lt hlt, hzero]
    simp
  · have hge : 2 ^ info.explicitMantissaWidth ≤ mantissa.toNat :=
      not_lt.mp fun hlt => hzero (hnormal.mpr hlt)
    have hmod : mantissa.toNat % 2 ^ info.explicitMantissaWidth =
        mantissa.toNat - 2 ^ info.explicitMantissaWidth := by
      rw [Nat.mod_eq_sub_mod hge, Nat.mod_eq_of_lt]
      rw [pow_succ] at hmantissa
      omega
    have hexponent : max (biasedExp : ℤ) 1 - 1 + info.exponentMin = biasedExp - info.exponentBias := by
      rw [info.exponentMin_eq, max_eq_left (by omega)]
      ring
    rw [if_neg hzero, hmod, hexponent]
    push_cast [hge]
    rw [add_sub_cancel]

end Parts

/-! ### The rounding decision -/

def residual (r k : ℕ) : ResidualError :=
  if r = 0 then .zero
  else if 2 * r < 2 ^ k then .lessThanHalf
  else if 2 * r = 2 ^ k then .half
  else .greaterThanHalf

/-- The residual error compares the bits shifted out with one half. -/
theorem residualErrorOnRightShift_eq {m : BitVec 64} {s : ℕ} (hmsb : 64 < s → m.msb = false) :
    residualErrorOnRightShift m s = residual (m.toNat % 2 ^ s) s := by
  have hm := m.isLt
  unfold residualErrorOnRightShift residual
  by_cases hzero : (s : ℤ) ≤ 0 ∨ m = 0#64
  · rw [if_pos hzero, if_pos]
    rcases hzero with hs | rfl
    · rw [show s = 0 by omega, pow_zero, Nat.mod_one]
    · exact Nat.zero_mod _
  · obtain ⟨hs, hne⟩ := not_or.mp hzero
    have hne' : m.toNat ≠ 0 := fun h => hne (BitVec.eq_of_toNat_eq h)
    rw [if_neg hzero]
    by_cases hlarge : (s : ℤ) > 64
    · have hpow : 2 ^ 65 ≤ 2 ^ s := Nat.pow_le_pow_right (by norm_num) (by omega)
      rw [if_pos hlarge, hmsb (by omega), if_neg Bool.false_ne_true, Nat.mod_eq_of_lt (by omega),
        if_neg hne', if_pos (by omega)]
    · obtain ⟨t, rfl⟩ : ∃ t, s = t + 1 := ⟨s - 1, by omega⟩
      have hle : 2 ^ (t + 1) ≤ 2 ^ 64 := Nat.pow_le_pow_right (by norm_num) (by omega)
      have hpos : 0 < 2 ^ t := by positivity
      have hsucc : 2 ^ (t + 1) = 2 * 2 ^ t := by rw [pow_succ, mul_comm]
      have herror : (m &&& BitVec.ofNat 64 (2 ^ ((t + 1 : ℕ) : ℤ).toNat - 1)).toNat =
          m.toNat % 2 ^ (t + 1) := by
        rw [BitVec.toNat_and, BitVec.toNat_ofNat, Int.toNat_natCast, Nat.mod_eq_of_lt (by omega),
          Nat.and_two_pow_sub_one_eq_mod]
      have hhalf : (1#64 <<< (((t + 1 : ℕ) : ℤ) - 1).toNat).toNat = 2 ^ t := by
        rw [show (((t + 1 : ℕ) : ℤ) - 1).toNat = t by omega, BitVec.toNat_shiftLeft,
          BitVec.toNat_ofNat, Nat.shiftLeft_eq, Nat.one_mod_two_pow (by norm_num), one_mul,
          Nat.mod_eq_of_lt (by omega)]
      rw [if_neg hlarge]
      simp only [← BitVec.toNat_inj, BitVec.lt_def, herror, hhalf, BitVec.toNat_ofNat, Nat.zero_mod]
      rw [hsucc]
      split_ifs <;> first | rfl | omega

theorem natFloor_div_two_pow (n k : ℕ) : ⌊(n : ℚ) / 2 ^ k⌋₊ = n / 2 ^ k := by
  exact_mod_cast Nat.floor_div_eq_div (K := ℚ) n (2 ^ k)

theorem div_two_pow_sub_floor (n k : ℕ) :
    (n : ℚ) / 2 ^ k - ⌊(n : ℚ) / 2 ^ k⌋₊ = (n % 2 ^ k : ℕ) / 2 ^ k := by
  have hpos : (0 : ℚ) < 2 ^ k := by positivity
  have hsplit : (n : ℚ) = (n / 2 ^ k : ℕ) * 2 ^ k + (n % 2 ^ k : ℕ) := by
    exact_mod_cast (Nat.div_add_mod' n (2 ^ k)).symm
  rw [natFloor_div_two_pow]
  field_simp
  linarith

theorem div_two_pow_eq_floor_iff (n k : ℕ) :
    (n : ℚ) / 2 ^ k = ⌊(n : ℚ) / 2 ^ k⌋₊ ↔ n % 2 ^ k = 0 := by
  have hpos : (2 : ℚ) ^ k ≠ 0 := by positivity
  rw [← sub_eq_zero, div_two_pow_sub_floor, div_eq_zero_iff, or_iff_left hpos, Nat.cast_eq_zero]

theorem residual_eq_zero_iff {r k : ℕ} : residual r k = .zero ↔ r = 0 := by
  unfold residual
  split_ifs <;> simp_all

theorem residual_eq_half_iff {r k : ℕ} : residual r k = .half ↔ 2 * r = 2 ^ k := by
  have : 0 < 2 ^ k := by positivity
  unfold residual
  split_ifs <;> simp <;> omega

theorem residual_eq_greaterThanHalf_iff {r k : ℕ} :
    residual r k = .greaterThanHalf ↔ 2 ^ k < 2 * r := by
  have : 0 < 2 ^ k := by positivity
  unfold residual
  split_ifs <;> simp <;> omega

theorem FPCR.rMode_cases (fpcr : FPCR) :
    fpcr.rMode = .toNearestTieEven ∨ fpcr.rMode = .towardsPlusInfinity ∨
      fpcr.rMode = .towardsMinusInfinity ∨ fpcr.rMode = .towardsZero := by
  unfold FPCR.rMode
  split <;> simp

/-- The decision to round up, on the exact quotient. -/
theorem roundsUp_iff (rounding : RoundingMode) (sign : Bool) {mantissa : BitVec 64} {n k : ℕ}
    (hmantissa : mantissa.toNat = n / 2 ^ k) :
    roundsUp rounding sign mantissa (residual (n % 2 ^ k) k) = true ↔
      rounding.direction.Increments sign (n / 2 ^ k) := by
  have hpos : (0 : ℚ) < 2 ^ k := by positivity
  have hwhole := div_two_pow_eq_floor_iff n k
  have hzero : residual (n % 2 ^ k) k ≠ .zero ↔ (n : ℚ) / 2 ^ k ≠ ⌊(n : ℚ) / 2 ^ k⌋₊ := by
    rw [ne_eq, residual_eq_zero_iff, ne_eq, hwhole]
  cases rounding with
  | toNearestTieEven =>
    have hgreater : residual (n % 2 ^ k) k = .greaterThanHalf ↔
        1 / 2 < (n : ℚ) / 2 ^ k - ⌊(n : ℚ) / 2 ^ k⌋₊ := by
      rw [residual_eq_greaterThanHalf_iff, div_two_pow_sub_floor, div_lt_div_iff₀ two_pos hpos,
        one_mul, mul_comm]
      exact_mod_cast Iff.rfl
    have hhalf : residual (n % 2 ^ k) k = .half ↔
        (n : ℚ) / 2 ^ k - ⌊(n : ℚ) / 2 ^ k⌋₊ = 1 / 2 := by
      rw [residual_eq_half_iff, div_two_pow_sub_floor, div_eq_div_iff hpos.ne' two_ne_zero,
        one_mul, mul_comm]
      exact_mod_cast Iff.rfl
    have hodd : mantissa.getLsbD 0 = decide (Odd ⌊(n : ℚ) / 2 ^ k⌋₊) := by
      rw [natFloor_div_two_pow, ← hmantissa, BitVec.getLsbD, Nat.testBit_zero]
      simp only [Nat.odd_iff]
    simp only [roundsUp, RoundingMode.direction, Bool.or_eq_true, Bool.and_eq_true,
      decide_eq_true_eq, hgreater, hhalf, hodd, Mode.Increments]
  | towardsPlusInfinity =>
    simp only [roundsUp, RoundingMode.direction, Mode.Increments, ← hzero]
    cases sign <;> simp
  | towardsMinusInfinity =>
    simp only [roundsUp, RoundingMode.direction, Mode.Increments, ← hzero]
    cases sign <;> simp
  | towardsZero => exact iff_of_false Bool.false_ne_true id
  | toNearestTieAwayFromZero => exact iff_of_false Bool.false_ne_true id
  | toOdd => exact iff_of_false Bool.false_ne_true id

theorem logicalShiftRight_spec {m : BitVec 64} {s : ℤ} (hmsb : 64 < s → m.msb = false)
    (hfits : s < 0 → -s < 64 ∧ m.toNat * 2 ^ (-s).toNat < 2 ^ 64) :
    ∃ n k : ℕ, (logicalShiftRight m s).toNat = n / 2 ^ k ∧
      residualErrorOnRightShift m s = residual (n % 2 ^ k) k ∧
      (n : ℚ) / 2 ^ k = m.toNat * 2 ^ (-s) := by
  rcases lt_or_ge s 0 with hneg | hnonneg
  · obtain ⟨hsmall, hlt⟩ := hfits hneg
    refine ⟨m.toNat * 2 ^ (-s).toNat, 0, ?_, ?_, ?_⟩
    · rw [logicalShiftRight, if_neg (by omega), if_pos hneg, if_neg (by omega), pow_zero,
        Nat.div_one, BitVec.toNat_shiftLeft, Nat.shiftLeft_eq, Nat.mod_eq_of_lt hlt]
    · rw [residualErrorOnRightShift, if_pos (.inl hneg.le), pow_zero, Nat.mod_one]
      rfl
    · push_cast
      rw [pow_zero, div_one, ← zpow_natCast, Int.toNat_of_nonneg (by omega)]
  · obtain ⟨k, rfl⟩ := Int.eq_ofNat_of_zero_le hnonneg
    refine ⟨m.toNat, k, ?_, residualErrorOnRightShift_eq fun hk => hmsb (by omega), ?_⟩
    · unfold logicalShiftRight
      split_ifs with hlarge hneg
      · have hpow : 2 ^ 64 ≤ 2 ^ k := Nat.pow_le_pow_right (by norm_num) (by omega)
        rw [Nat.div_eq_of_lt (lt_of_lt_of_le m.isLt hpow)]
        rfl
      · omega
      · omega
      · rw [BitVec.toNat_ushiftRight, Nat.shiftRight_eq_div_pow, Int.toNat_natCast]
    · rw [zpow_neg, zpow_natCast, div_eq_mul_inv]

/-! ### Rounding up -/

section RoundUp

variable {info : FPInfo}

theorem toNat_mantissaMask64 (info : FPInfo) :
    (mantissaMask64 info).toNat = 2 ^ info.explicitMantissaWidth - 1 := by
  have hle : 2 ^ info.explicitMantissaWidth ≤ 2 ^ 52 :=
    Nat.pow_le_pow_right (by norm_num) info.explicitMantissaWidth_le
  rw [mantissaMask64, BitVec.toNat_setWidth, info.mantissaMask_eq, Nat.mod_eq_of_lt (by omega)]

theorem and_mantissaMask64_iff {mantissa : BitVec 64} :
    mantissa &&& mantissaMask64 info = mantissaMask64 info ↔
      mantissa.toNat % 2 ^ info.explicitMantissaWidth = 2 ^ info.explicitMantissaWidth - 1 := by
  rw [← BitVec.toNat_inj, BitVec.toNat_and, toNat_mantissaMask64, Nat.and_two_pow_sub_one_eq_mod]

/-- Rounding up may carry into the exponent, out of the subnormals too. -/
theorem roundUp_spec {mantissa : BitVec 64} {b : ℕ}
    (hlt : mantissa.toNat < 2 ^ (info.explicitMantissaWidth + 1))
    (hb : b = 0 ↔ mantissa.toNat < 2 ^ info.explicitMantissaWidth) :
    ∃ (mantissa' : BitVec 64) (b' : ℕ), roundUp info mantissa b = (mantissa', (b' : ℤ)) ∧
      mantissa'.toNat < 2 ^ (info.explicitMantissaWidth + 1) ∧
      (b' = 0 ↔ mantissa'.toNat < 2 ^ info.explicitMantissaWidth) ∧
      mantissa'.toNat * 2 ^ max b' 1 = (mantissa.toNat + 1) * 2 ^ max b 1 := by
  have hle : 2 ^ info.explicitMantissaWidth ≤ 2 ^ 52 :=
    Nat.pow_le_pow_right (by norm_num) info.explicitMantissaWidth_le
  have hpos : 0 < 2 ^ info.explicitMantissaWidth := by positivity
  rw [pow_succ] at hlt ⊢
  have hadd : (mantissa + 1#64).toNat = mantissa.toNat + 1 := by
    rw [BitVec.toNat_add, BitVec.toNat_ofNat]
    omega
  unfold roundUp
  by_cases hfull : mantissa.toNat % 2 ^ info.explicitMantissaWidth =
      2 ^ info.explicitMantissaWidth - 1
  · rw [if_pos (and_mantissaMask64_iff.mpr hfull)]
    by_cases hsubnormal : mantissa.toNat < 2 ^ info.explicitMantissaWidth
    · obtain rfl := hb.mpr hsubnormal
      rw [Nat.mod_eq_of_lt hsubnormal] at hfull
      rw [if_pos (BitVec.eq_of_toNat_eq (hfull.trans (toNat_mantissaMask64 info).symm))]
      refine ⟨mantissa + 1#64, 1, rfl, ?_, ?_, ?_⟩
      · omega
      · omega
      · rw [hadd]
        rfl
    · have hb' : b ≠ 0 := fun hzero => hsubnormal (hb.mp hzero)
      have hvalue : mantissa.toNat + 1 = 2 ^ info.explicitMantissaWidth * 2 := by
        rw [Nat.mod_eq_sub_mod (by omega), Nat.mod_eq_of_lt (by omega)] at hfull
        omega
      have hne : mantissa ≠ mantissaMask64 info := by
        intro heq
        have := congrArg BitVec.toNat heq
        rw [toNat_mantissaMask64] at this
        omega
      have hhalf : ((mantissa + 1#64) / 2#64).toNat = 2 ^ info.explicitMantissaWidth := by
        rw [BitVec.toNat_udiv, hadd, hvalue]
        exact Nat.mul_div_cancel _ two_pos
      rw [if_neg hne]
      refine ⟨(mantissa + 1#64) / 2#64, b + 1, rfl, ?_, ?_, ?_⟩
      · omega
      · omega
      · rw [hhalf, hvalue, max_eq_left (by omega), max_eq_left (by omega), pow_succ]
        ring
  · have hvalue : mantissa.toNat + 1 < 2 ^ info.explicitMantissaWidth ∧ b = 0 ∨
        2 ^ info.explicitMantissaWidth ≤ mantissa.toNat ∧ b ≠ 0 ∧
          mantissa.toNat + 1 < 2 ^ info.explicitMantissaWidth * 2 := by
      rcases lt_or_ge mantissa.toNat (2 ^ info.explicitMantissaWidth) with hsub | hnormal
      · rw [Nat.mod_eq_of_lt hsub] at hfull
        exact .inl ⟨by omega, hb.mpr hsub⟩
      · rw [Nat.mod_eq_sub_mod hnormal, Nat.mod_eq_of_lt (by omega)] at hfull
        exact .inr ⟨hnormal, by omega, by omega⟩
    rw [if_neg fun h => hfull (and_mantissaMask64_iff.mp h)]
    refine ⟨mantissa + 1#64, b, rfl, ?_, ?_, ?_⟩
    · omega
    · omega
    · rw [hadd]

end RoundUp

/-! ### Rounding -/

section Round

variable {info : FPInfo} {u : FPUnpacked} {fpcr : FPCR} {fpsr : FPSR} {rounding : RoundingMode}

theorem msb_eq_false_of_lt {m : BitVec 64} (h : m.toNat < 2 ^ 63) : m.msb = false := by
  simpa [BitVec.msb_eq_decide] using h

theorem highestSetBit_eq {m : BitVec 64} (hm : m ≠ 0#64) :
    highestSetBit m = (Nat.log 2 m.toNat : ℤ) := by
  rw [highestSetBit, if_neg hm, Nat.log2_eq_log_two]

def FPUnpacked.valueExponent (u : FPUnpacked) : ℤ :=
  u.exponent + Nat.log 2 u.mantissa.toNat - 62

def roundingShift (info : FPInfo) (u : FPUnpacked) : ℤ :=
  (Nat.log 2 u.mantissa.toNat : ℤ) - info.explicitMantissaWidth +
    (max u.valueExponent info.exponentMin - u.valueExponent)

theorem normalize_exponent (hm : u.mantissa ≠ 0#64) (extra : ℤ) :
    (normalize info.explicitMantissaWidth u extra).exponent = u.valueExponent := by
  rw [normalize, highestSetBit_eq hm]
  rfl

/-- The second normalization, for a number below the normal ones, completes the shift. -/
theorem normalize_second (hm : u.mantissa ≠ 0#64) :
    (if max (u.valueExponent - info.exponentMin + 1) 0 = 0 then
        normalize info.explicitMantissaWidth u (info.exponentMin - u.valueExponent)
      else normalize info.explicitMantissaWidth u 0) =
      ⟨u.valueExponent, logicalShiftRight u.mantissa (roundingShift info u),
        residualErrorOnRightShift u.mantissa (roundingShift info u)⟩ := by
  unfold normalize roundingShift
  rw [highestSetBit_eq hm]
  split_ifs with h
  · rw [max_eq_right (a := u.valueExponent) (by omega)]
    rfl
  · rw [max_eq_left (a := u.valueExponent) (by omega), sub_self]
    rfl

def roundMantissa (info : FPInfo) (rounding : RoundingMode) (sign : Bool) (mantissa : BitVec 64)
    (error : ResidualError) (biasedExp : ℤ) : BitVec 64 × ℤ :=
  let rounded := if roundsUp rounding sign mantissa error then roundUp info mantissa biasedExp
    else (mantissa, biasedExp)
  (if error ≠ .zero ∧ rounding = .toOdd then rounded.1 ||| 1#64 else rounded.1, rounded.2)

theorem raiseIf_eq (condition : Bool) (exception : FPExc) (fpcr : FPCR) (fpsr : FPSR) :
    raiseIf condition exception fpcr fpsr =
      if condition = true ∧ fpcr.value.getLsbD exception.enableBit = true then none
      else some (if condition then fpsr.raise exception.cumulativeBit else fpsr) := by
  cases condition <;> simp [raiseIf, fpProcessException]

/-- `FPRoundBase` with neither flushing nor alternative half-precision: a trap, or the parts of
the result put together. -/
theorem fpRoundBase_eq (hm : u.mantissa ≠ 0#64) (hfz : fpcr.fz = false) (hfz16 : fpcr.fz16 = false)
    (hahp : fpcr.ahp = false) (haway : rounding ≠ .toNearestTieAwayFromZero) :
    fpRoundBase info u fpcr rounding fpsr =
      let shift := roundingShift info u
      let error := residualErrorOnRightShift u.mantissa shift
      let biasedExp := max (u.valueExponent - info.exponentMin + 1) 0
      let rounded := roundMantissa info rounding u.sign (logicalShiftRight u.mantissa shift) error
        biasedExp
      let overflows := rounded.2 ≥ 2 ^ info.exponentWidth - 1
      if (fpcr.ufe = true ∧ biasedExp = 0) ∨ (fpcr.ofe = true ∧ overflows) ∨
          (fpcr.ixe = true ∧ (error ≠ .zero ∨ overflows)) then none
      else
        let fpsr := if biasedExp = 0 ∧ error ≠ .zero then
          fpsr.raise FPExc.underflow.cumulativeBit else fpsr
        if overflows then
          some (if overflowToInf rounding u.sign then info.infinity u.sign
            else info.maxNormal u.sign,
            (fpsr.raise FPExc.overflow.cumulativeBit).raise FPExc.inexact.cumulativeBit)
        else some (assemble info u.sign rounded.2 rounded.1,
          if error ≠ .zero then fpsr.raise FPExc.inexact.cumulativeBit else fpsr) := by
  simp only [fpRoundBase, normalize_exponent hm, normalize_second hm, hm, haway, hfz, hfz16, hahp,
    raiseIf_eq, fpProcessException]
  generalize residualErrorOnRightShift u.mantissa (roundingShift info u) = error
  obtain ⟨rounded, hrounded⟩ : ∃ rounded, rounded = if roundsUp rounding u.sign
      (logicalShiftRight u.mantissa (roundingShift info u)) error = true then
        roundUp info (logicalShiftRight u.mantissa (roundingShift info u))
          (max (u.valueExponent - info.exponentMin + 1) 0)
      else (logicalShiftRight u.mantissa (roundingShift info u),
        max (u.valueExponent - info.exponentMin + 1) 0) := ⟨_, rfl⟩
  simp only [roundMantissa, ← hrounded]
  have hufe : fpcr.value.getLsbD FPExc.underflow.enableBit = fpcr.ufe := rfl
  have hixe : fpcr.value.getLsbD FPExc.inexact.enableBit = fpcr.ixe := rfl
  have hofe : fpcr.value.getLsbD FPExc.overflow.enableBit = fpcr.ofe := rfl
  simp only [hufe, hixe, hofe]
  generalize max (u.valueExponent - info.exponentMin + 1) 0 = biasedExp
  by_cases hover : rounded.2 ≥ 2 ^ info.exponentWidth - 1 <;> by_cases hunder : biasedExp = 0 <;>
    cases fpcr.ufe <;> cases fpcr.ixe <;> cases fpcr.ofe <;> by_cases herror : error = .zero <;>
      simp [hover, hunder, herror]

def FPUnpacked.magnitude (u : FPUnpacked) : ℚ := u.mantissa.toNat * 2 ^ (u.exponent - 62)

theorem toNat_pos_of_ne {m : BitVec 64} (hm : m ≠ 0#64) : 0 < m.toNat :=
  Nat.pos_of_ne_zero fun h => hm (BitVec.eq_of_toNat_eq h)

theorem magnitude_pos (hm : u.mantissa ≠ 0#64) : 0 < u.magnitude := by
  have : (0 : ℚ) < u.mantissa.toNat := by exact_mod_cast toNat_pos_of_ne hm
  unfold FPUnpacked.magnitude
  positivity

theorem log_magnitude (hm : u.mantissa ≠ 0#64) : Int.log 2 u.magnitude = u.valueExponent := by
  have : (0 : ℚ) < u.mantissa.toNat := by exact_mod_cast toNat_pos_of_ne hm
  rw [FPUnpacked.magnitude, log_two_mul_zpow this, Int.log_natCast, FPUnpacked.valueExponent]
  ring

theorem scale_magnitude (hm : u.mantissa ≠ 0#64) :
    info.format.scale u.magnitude =
      max u.valueExponent info.exponentMin - info.explicitMantissaWidth := by
  rw [Format.scale, abs_of_pos (magnitude_pos hm), log_magnitude hm]
  rfl

theorem units_magnitude (hm : u.mantissa ≠ 0#64) :
    info.format.units u.magnitude = u.mantissa.toNat * 2 ^ (-roundingShift info u) := by
  rw [Format.units, scale_magnitude hm, FPUnpacked.magnitude, mul_assoc, ← zpow_add₀ two_ne_zero]
  congr 2
  rw [roundingShift, FPUnpacked.valueExponent]
  ring

theorem log_units (hm : u.mantissa ≠ 0#64) :
    Int.log 2 (info.format.units u.magnitude) =
      u.valueExponent - max u.valueExponent info.exponentMin + info.explicitMantissaWidth := by
  rw [Format.units, log_two_mul_zpow (magnitude_pos hm), log_magnitude hm, scale_magnitude hm]
  ring

theorem units_pos (hm : u.mantissa ≠ 0#64) : 0 < info.format.units u.magnitude := by
  have := magnitude_pos hm
  unfold Format.units
  positivity

/-- The shifted mantissa is the number of whole units, and the error is what it leaves. -/
theorem shifted_spec (hm : u.mantissa ≠ 0#64)
    (hmsb : u.mantissa.msb = true → info.exponentMin - info.explicitMantissaWidth ≤ u.exponent) :
    ∃ n k : ℕ, (logicalShiftRight u.mantissa (roundingShift info u)).toNat = n / 2 ^ k ∧
      residualErrorOnRightShift u.mantissa (roundingShift info u) = residual (n % 2 ^ k) k ∧
      (n : ℚ) / 2 ^ k = info.format.units u.magnitude := by
  have hlog : Nat.log 2 u.mantissa.toNat ≤ 63 :=
    Nat.lt_succ_iff.mp (Nat.log_lt_of_lt_pow (toNat_pos_of_ne hm).ne' u.mantissa.isLt)
  have hF := info.explicitMantissaWidth_le
  rw [units_magnitude hm]
  refine logicalShiftRight_spec (fun hlarge => ?_) fun hneg => ?_
  · by_contra hset
    have hexponent := hmsb (by simpa using hset)
    have hsixtythree : Nat.log 2 u.mantissa.toNat = 63 := by
      have h63 : 2 ^ 63 ≤ u.mantissa.toNat := by
        simpa [BitVec.msb_eq_decide] using hset
      have := Nat.le_log_of_pow_le (b := 2) one_lt_two h63
      omega
    unfold roundingShift FPUnpacked.valueExponent at hlarge
    omega
  · unfold roundingShift at hneg ⊢
    have hgap := le_max_left u.valueExponent info.exponentMin
    refine ⟨by omega, ?_⟩
    have hlt := Nat.lt_pow_succ_log_self (b := 2) one_lt_two u.mantissa.toNat
    calc _ < 2 ^ (Nat.log 2 u.mantissa.toNat + 1) * 2 ^ _ :=
          Nat.mul_lt_mul_of_pos_right hlt (by positivity)
      _ ≤ 2 ^ 64 := by
          rw [← pow_add]
          exact Nat.pow_le_pow_right (by norm_num) (by omega)

theorem biased_eq_zero_iff (hm : u.mantissa ≠ 0#64) :
    (max (u.valueExponent - info.exponentMin + 1) 0).toNat = 0 ↔
      ⌊info.format.units u.magnitude⌋₊ < 2 ^ info.explicitMantissaWidth := by
  have hpos : 0 < info.format.units u.magnitude := units_pos hm
  rw [Nat.floor_lt hpos.le]
  push_cast
  rw [← zpow_natCast, lt_two_zpow_iff hpos, log_units hm]
  omega

theorem floor_units_lt (hm : u.mantissa ≠ 0#64) :
    ⌊info.format.units u.magnitude⌋₊ < 2 ^ (info.explicitMantissaWidth + 1) := by
  have hpos : 0 < info.format.units u.magnitude := units_pos hm
  rw [Nat.floor_lt hpos.le]
  push_cast
  rw [← zpow_natCast, lt_two_zpow_iff hpos, log_units hm]
  have := le_max_left u.valueExponent info.exponentMin
  push_cast
  omega

theorem toNat_or_one_lt {mantissa : BitVec 64} {k : ℕ} (hk : 0 < k) :
    (mantissa ||| 1#64).toNat < 2 ^ k ↔ mantissa.toNat < 2 ^ k := by
  have heven : 2 ^ k % 2 = 0 := Nat.mod_eq_zero_of_dvd (dvd_pow_self 2 hk.ne')
  rw [BitVec.toNat_or, show (1#64).toNat = 1 from rfl, or_one_eq]
  omega

/-- The mantissa and exponent the code comes to stand for the rounded magnitude. -/
theorem roundMantissa_spec (hm : u.mantissa ≠ 0#64)
    (haway : rounding ≠ .toNearestTieAwayFromZero) {mantissa : BitVec 64} {error : ResidualError}
    (hmantissa : mantissa.toNat = ⌊info.format.units u.magnitude⌋₊)
    (hexact : error = .zero ↔ info.format.units u.magnitude = ⌊info.format.units u.magnitude⌋₊)
    (hup : roundsUp rounding u.sign mantissa error = true ↔
      rounding.direction.Increments u.sign (info.format.units u.magnitude)) :
    ∃ (mantissa' : BitVec 64) (b : ℕ),
      roundMantissa info rounding u.sign mantissa error
        (max (u.valueExponent - info.exponentMin + 1) 0) = (mantissa', (b : ℤ)) ∧
      mantissa'.toNat < 2 ^ (info.explicitMantissaWidth + 1) ∧
      (b = 0 ↔ mantissa'.toNat < 2 ^ info.explicitMantissaWidth) ∧
      info.format.magnitudeBy rounding.rounding u.sign u.magnitude = mantissa'.toNat *
        2 ^ (max (b : ℤ) 1 - 1 + info.exponentMin - info.explicitMantissaWidth) := by
  have hlt : ⌊info.format.units u.magnitude⌋₊ < _ := floor_units_lt hm
  have hb : _ ↔ ⌊info.format.units u.magnitude⌋₊ < _ := biased_eq_zero_iff hm
  have hnonneg : 0 ≤ info.format.units u.magnitude := (units_pos hm).le
  rw [← hmantissa] at hlt hb
  obtain ⟨b₀, hb₀⟩ := Int.eq_ofNat_of_zero_le (le_max_right (u.valueExponent - info.exponentMin + 1) 0)
  have hscale : info.format.scale u.magnitude =
      ((max b₀ 1 : ℕ) : ℤ) + (info.exponentMin - 1 - info.explicitMantissaWidth) := by
    rw [scale_magnitude hm]
    omega
  rw [hb₀, Int.toNat_natCast] at hb
  rw [hb₀, Format.magnitudeBy, hscale, zpow_add₀ two_ne_zero, zpow_natCast, ← mul_assoc]
  have hexponent : ∀ b : ℕ, (2 : ℚ) ^ (max (b : ℤ) 1 - 1 + info.exponentMin - info.explicitMantissaWidth) =
      2 ^ max b 1 * 2 ^ (info.exponentMin - 1 - info.explicitMantissaWidth) := fun b => by
    rw [← zpow_natCast, ← zpow_add₀ two_ne_zero]
    congr 1
    push_cast
    ring
  simp only [hexponent, ← mul_assoc]
  by_cases hodd : rounding = .toOdd
  · -- The last bit is set where bits are lost.
    subst hodd
    have hround := roundMagnitude_odd u.sign hnonneg
    simp only [← hexact] at hround
    rw [← hmantissa] at hround
    refine ⟨if error ≠ .zero then mantissa ||| 1#64 else mantissa, b₀, ?_, ?_, ?_, ?_⟩
    · simp [roundMantissa, roundsUp]
    · split_ifs
      · exact (toNat_or_one_lt (Nat.succ_pos _)).mpr hlt
      · exact hlt
    · split_ifs
      · rw [toNat_or_one_lt info.explicitMantissaWidth_pos]
        exact hb
      · exact hb
    · rw [hround]
      by_cases herror : error = .zero
      · rw [if_pos herror, if_neg (not_not.mpr herror)]
      · rw [if_neg herror, if_pos herror, BitVec.toNat_or]
        rfl
  · rw [roundMagnitude_of_ne_odd hodd haway u.sign hnonneg, Mode.roundMagnitude, ← hmantissa]
    by_cases hincr : rounding.direction.Increments u.sign (info.format.units u.magnitude)
    · obtain ⟨mantissa', b, heq, hlt', hb', hvalue⟩ := roundUp_spec hlt hb
      refine ⟨mantissa', b, ?_, hlt', hb', ?_⟩
      · simp [roundMantissa, hup.mpr hincr, heq, hodd]
      · rw [if_pos hincr]
        congr 1
        exact_mod_cast hvalue.symm
    · refine ⟨mantissa, b₀, ?_, hlt, hb, ?_⟩
      · have hnot : roundsUp rounding u.sign mantissa error = false := by
          simpa using fun h => hincr (hup.mp h)
        simp [roundMantissa, hnot, hodd]
      · rw [if_neg hincr, Nat.add_zero]

/-- The biased exponent overflows exactly when the magnitude does. -/
theorem overflow_iff {mantissa b : ℕ} (hlt : mantissa < 2 ^ (info.explicitMantissaWidth + 1))
    (hb : b = 0 ↔ mantissa < 2 ^ info.explicitMantissaWidth) :
    (2 : ℤ) ^ info.exponentWidth - 1 ≤ b ↔
      (2 : ℚ) ^ (info.format.emax + 1) ≤ mantissa *
        2 ^ (max (b : ℤ) 1 - 1 + info.exponentMin - info.explicitMantissaWidth) := by
  have hpow : (2 : ℤ) ^ info.exponentWidth = 2 * 2 ^ (info.exponentWidth - 1) := by
    rw [← pow_succ', Nat.sub_add_cancel (by have := info.two_le_exponentWidth; omega)]
  have hpos : (0 : ℤ) < 2 ^ (info.exponentWidth - 1) := by positivity
  have hrange : (2 : ℤ) ^ info.exponentWidth - 1 = info.format.emax + 2 - info.exponentMin := by
    change _ = info.exponentMax + 2 - _
    rw [info.exponentMin_eq, info.exponentMax_eq, info.exponentBias_eq, hpow]
    ring
  have hsplit : (2 : ℚ) ^ (max (b : ℤ) 1 - 1 + info.exponentMin - info.explicitMantissaWidth) *
      2 ^ info.explicitMantissaWidth = 2 ^ (max (b : ℤ) 1 - 1 + info.exponentMin) := by
    rw [← zpow_natCast, ← zpow_add₀ two_ne_zero, sub_add_cancel]
  have hunit : (0 : ℚ) <
      2 ^ (max (b : ℤ) 1 - 1 + info.exponentMin - info.explicitMantissaWidth) := by positivity
  rcases Nat.eq_zero_or_pos b with rfl | hbpos
  · have hsub : (mantissa : ℚ) < 2 ^ info.explicitMantissaWidth := by exact_mod_cast hb.mp rfl
    refine iff_of_false (by omega) (not_le.mpr ?_)
    calc _ < (2 : ℚ) ^ info.explicitMantissaWidth * _ := mul_lt_mul_of_pos_right hsub hunit
      _ = 2 ^ info.exponentMin := by
          rw [mul_comm, hsplit]
          simp
      _ ≤ 2 ^ (info.format.emax + 1) := by
          have := info.exponentMin_le_exponentMax
          refine zpow_le_zpow_right₀ one_le_two ?_
          change _ ≤ info.exponentMax + 1
          omega
  · have hge : 2 ^ info.explicitMantissaWidth ≤ mantissa := not_lt.mp fun h => by
      have := hb.mpr h
      omega
    have hmpos : (0 : ℚ) < mantissa := by
      exact_mod_cast lt_of_lt_of_le (by positivity : 0 < 2 ^ info.explicitMantissaWidth) hge
    have hlog : Int.log 2 (mantissa : ℚ) = info.explicitMantissaWidth := by
      refine log_two_eq ?_ ?_
      · exact_mod_cast hge
      · exact_mod_cast hlt
    rw [two_zpow_le_iff (mul_pos hmpos hunit), log_two_mul_zpow hmpos, hlog,
      max_eq_left (by omega), hrange]
    omega

theorem overflowToInf_eq (haway : rounding ≠ .toNearestTieAwayFromZero) (sign : Bool) :
    overflowToInf rounding sign = rounding.rounding.overflowsToInfinity sign := by
  cases rounding with
  | toNearestTieAwayFromZero => exact absurd rfl haway
  | _ => rfl

theorem FPUnpacked.value_eq_signed (u : FPUnpacked) : u.value = signed u.sign u.magnitude := rfl

theorem biasedExp_eq_zero_iff (hm : u.mantissa ≠ 0#64) :
    max (u.valueExponent - info.exponentMin + 1) 0 = 0 ↔
      |u.value| < 2 ^ info.format.emin := by
  have hpos := magnitude_pos hm
  rw [u.value_eq_signed, abs_signed, abs_of_pos hpos, lt_two_zpow_iff hpos, log_magnitude hm]
  change _ ↔ _ < info.exponentMin
  omega

/-- The mantissa and the biased exponent the code comes to, and the residual error, set against the
rounding of the exact magnitude. -/
structure RoundedParts (info : FPInfo) (rounding : RoundingMode) (u : FPUnpacked)
    (error : ResidualError) (mantissa : BitVec 64) (b : ℕ) : Prop where
  lt : mantissa.toNat < 2 ^ (info.explicitMantissaWidth + 1)
  subnormal : b = 0 ↔ mantissa.toNat < 2 ^ info.explicitMantissaWidth
  magnitude : info.format.magnitudeBy rounding.rounding u.sign u.magnitude = mantissa.toNat *
    2 ^ (max (b : ℤ) 1 - 1 + info.exponentMin - info.explicitMantissaWidth)
  exact_iff : error = .zero ↔ info.format.units u.magnitude = ⌊info.format.units u.magnitude⌋₊

theorem exists_roundedParts (hm : u.mantissa ≠ 0#64) (haway : rounding ≠ .toNearestTieAwayFromZero)
    (hmsb : u.mantissa.msb = true → info.exponentMin - info.explicitMantissaWidth ≤ u.exponent) :
    let error := residualErrorOnRightShift u.mantissa (roundingShift info u)
    ∃ (mantissa : BitVec 64) (b : ℕ), roundMantissa info rounding u.sign
        (logicalShiftRight u.mantissa (roundingShift info u)) error
        (max (u.valueExponent - info.exponentMin + 1) 0) = (mantissa, (b : ℤ)) ∧
      RoundedParts info rounding u error mantissa b := by
  obtain ⟨n, k, hmantissa, herror, hunits⟩ := shifted_spec hm hmsb
  have hfloor : n / 2 ^ k = ⌊info.format.units u.magnitude⌋₊ := by
    rw [← hunits, natFloor_div_two_pow]
  have hexact : residualErrorOnRightShift u.mantissa (roundingShift info u) = .zero ↔
      info.format.units u.magnitude = ⌊info.format.units u.magnitude⌋₊ := by
    rw [herror, residual_eq_zero_iff, ← hunits, div_two_pow_eq_floor_iff]
  have hup := roundsUp_iff rounding u.sign hmantissa
  rw [← herror, hunits] at hup
  obtain ⟨mantissa, b, hrounded, hlt, hb, hvalue⟩ :=
    roundMantissa_spec hm haway (hmantissa.trans hfloor) hexact hup
  exact ⟨mantissa, b, hrounded, hlt, hb, hvalue, hexact⟩

namespace RoundedParts

variable {error : ResidualError} {mantissa : BitVec 64} {b : ℕ}
  (h : RoundedParts info rounding u error mantissa b) (hm : u.mantissa ≠ 0#64)

include h

theorem large_iff : (2 : ℤ) ^ info.exponentWidth - 1 ≤ b ↔ (2 : ℚ) ^ (info.format.emax + 1) ≤
    info.format.magnitudeBy rounding.rounding u.sign u.magnitude := by
  rw [h.magnitude]
  exact overflow_iff h.lt h.subnormal

include hm

theorem overflowsBy_iff : (2 : ℤ) ^ info.exponentWidth - 1 ≤ b ↔
    info.format.OverflowsBy rounding.rounding u.value :=
  h.large_iff.trans (Format.overflowsBy_signed (magnitude_pos hm)).symm

theorem inexactBy_iff : info.format.InexactBy rounding.rounding u.value ↔
    error ≠ .zero ∨ (2 : ℤ) ^ info.exponentWidth - 1 ≤ b := by
  rw [u.value_eq_signed, Format.inexactBy_signed (magnitude_pos hm), ne_eq, ← h.exact_iff,
    ← h.large_iff]

/-- Underflow goes with a number below the normal ones that is not kept. -/
theorem underflows_iff :
    max (u.valueExponent - info.exponentMin + 1) 0 = 0 ∧ error ≠ .zero ↔
      |u.value| < 2 ^ info.format.emin ∧ info.format.InexactBy rounding.rounding u.value := by
  have hpos := magnitude_pos hm
  rw [biasedExp_eq_zero_iff hm, h.inexactBy_iff hm]
  refine and_congr_right fun hsmall => ⟨.inl, fun hor => hor.elim id fun hbig herr => ?_⟩
  -- One that is kept is not beyond the range.
  have hkept : info.format.magnitudeBy rounding.rounding u.sign u.magnitude = u.magnitude :=
    (Format.magnitudeBy_eq_self_iff hpos.le).mpr (h.exact_iff.mp herr)
  have hlarge := h.large_iff.mp hbig
  rw [hkept] at hlarge
  rw [u.value_eq_signed, abs_signed, abs_of_pos hpos] at hsmall
  have hexp : (2 : ℚ) ^ info.format.emin ≤ 2 ^ (info.format.emax + 1) :=
    zpow_le_zpow_right₀ one_le_two (by have := info.format.emin_le_emax; omega)
  linarith

theorem traps_iff : fpcr.Traps info.format rounding.rounding u.value ↔
      (fpcr.ufe = true ∧ max (u.valueExponent - info.exponentMin + 1) 0 = 0) ∨
        (fpcr.ofe = true ∧ (b : ℤ) ≥ 2 ^ info.exponentWidth - 1) ∨
        (fpcr.ixe = true ∧ (error ≠ .zero ∨ (b : ℤ) ≥ 2 ^ info.exponentWidth - 1)) := by
  rw [FPCR.traps_iff, biasedExp_eq_zero_iff hm, ge_iff_le, ← h.inexactBy_iff hm,
    h.overflowsBy_iff hm]

theorem raised_underflow (fpsr : FPSR) : Raised fpsr
      (fun e => e = .underflow ∧ roundExceptions info.format rounding.rounding u.value e)
      (if max (u.valueExponent - info.exponentMin + 1) 0 = 0 ∧ error ≠ .zero then
        fpsr.raise FPExc.underflow.cumulativeBit else fpsr) := by
  refine (Raised.refl (P := fun _ => False) fun _ => id).raise_if _ fun e => ?_
  rw [false_or, h.underflows_iff hm]
  refine and_congr_right fun he => ?_
  rw [he]
  rfl

theorem decode_assemble (hsmall : ¬(2 : ℤ) ^ info.exponentWidth - 1 ≤ b) :
    decode info (assemble info u.sign b mantissa) =
      info.format.roundBy rounding.rounding u.value := by
  have hb : b < 2 ^ info.exponentWidth - 1 := by
    have : (b : ℤ) < ((2 ^ info.exponentWidth - 1 : ℕ) : ℤ) := by
      push_cast [Nat.one_le_two_pow]
      omega
    omega
  rw [FP.decode_assemble hb h.lt h.subnormal, u.value_eq_signed,
    Format.roundBy_signed (magnitude_pos hm), if_neg fun hlarge => hsmall (h.large_iff.mpr hlarge),
    h.magnitude]

end RoundedParts

/-- `FPRoundBase` runs into a trap, or rounds the value once and raises the exceptions that go
with it. -/
theorem fpRoundBase_cases (hm : u.mantissa ≠ 0#64) (hfz : fpcr.fz = false)
    (hfz16 : fpcr.fz16 = false) (hahp : fpcr.ahp = false)
    (haway : rounding ≠ .toNearestTieAwayFromZero)
    (hmsb : u.mantissa.msb = true → info.exponentMin - info.explicitMantissaWidth ≤ u.exponent) :
    (fpcr.Traps info.format rounding.rounding u.value →
      fpRoundBase info u fpcr rounding fpsr = none) ∧
    (¬fpcr.Traps info.format rounding.rounding u.value →
      ∃ result fpsr', fpRoundBase info u fpcr rounding fpsr = some (result, fpsr') ∧
        decode info result = info.format.roundBy rounding.rounding u.value ∧
        Raised fpsr (roundExceptions info.format rounding.rounding u.value) fpsr') := by
  obtain ⟨mantissa, b, hrounded, hparts⟩ := exists_roundedParts hm haway hmsb
  rw [fpRoundBase_eq hm hfz hfz16 hahp haway]
  simp only [hrounded]
  refine ⟨fun htrapped => if_pos ((hparts.traps_iff hm).mp htrapped), fun htrapped => ?_⟩
  rw [if_neg (mt (hparts.traps_iff hm).mpr htrapped)]
  have hunderflow := hparts.raised_underflow hm fpsr
  have hinexact := hparts.inexactBy_iff hm
  by_cases hbig : (2 : ℤ) ^ info.exponentWidth - 1 ≤ b
  · rw [if_pos hbig]
    refine ⟨_, _, rfl, ?_, ?_⟩
    · rw [u.value_eq_signed, Format.roundBy_signed (magnitude_pos hm),
        if_pos (hparts.large_iff.mp hbig), overflowToInf_eq haway]
      split_ifs
      · exact decode_infinity info u.sign
      · exact decode_maxNormal info u.sign
    · refine (hunderflow.raise .overflow fun _ => Iff.rfl).raise .inexact fun e => ?_
      have hI := hinexact.mpr (.inr hbig)
      have hO := (hparts.overflowsBy_iff hm).mp hbig
      cases e <;> simp [roundExceptions, hI, hO]
  · rw [if_neg hbig]
    refine ⟨_, _, rfl, hparts.decode_assemble hm hbig, ?_⟩
    refine hunderflow.raise_if .inexact fun e => ?_
    rw [or_iff_left hbig] at hinexact
    have hO := mt (hparts.overflowsBy_iff hm).mpr hbig
    cases e <;> simp [roundExceptions, hinexact, hO]

theorem FPCR.rounding_rMode (fpcr : FPCR) : fpcr.rMode.rounding = fpcr.direction.rounding := by
  rw [fpcr.direction_eq]
  rcases fpcr.rMode_cases with h | h | h | h <;> rw [h] <;> rfl

theorem plain_zero : FPCR.Plain ⟨0#32⟩ :=
  ⟨rfl, rfl, fun exception => by cases exception <;> rfl⟩

theorem FPCR.fz_clearAHP (fpcr : FPCR) : fpcr.clearAHP.fz = fpcr.fz := by
  simp [FPCR.fz, FPCR.clearAHP]

theorem FPCR.fz16_clearAHP (fpcr : FPCR) : fpcr.clearAHP.fz16 = fpcr.fz16 := by
  simp [FPCR.fz16, FPCR.clearAHP]

theorem FPCR.ufe_clearAHP (fpcr : FPCR) : fpcr.clearAHP.ufe = fpcr.ufe := by
  simp [FPCR.ufe, FPCR.clearAHP]

theorem FPCR.ahp_clearAHP (fpcr : FPCR) : fpcr.clearAHP.ahp = false := by
  simp [FPCR.ahp, FPCR.clearAHP]

theorem FPCR.traps_clearAHP {f : Format} {r : Rounding} {x : ℚ} :
    fpcr.clearAHP.Traps f r x ↔ fpcr.Traps f r x := by
  have hbit (exception : FPExc) : fpcr.clearAHP.value.getLsbD exception.enableBit =
      fpcr.value.getLsbD exception.enableBit := by
    cases exception <;> simp [FPCR.clearAHP, FPExc.enableBit]
  simp only [FPCR.Traps, hbit]

/-- `FPRound` in the mode of the FPCR fails where the rounding runs into a trap.  Elsewhere it
rounds the value once, and raises Inexact when that changes it. -/
theorem fpRound_cases (hm : u.mantissa ≠ 0#64) (hfz : fpcr.fz = false) (hfz16 : fpcr.fz16 = false)
    (hmsb : u.mantissa.msb = true → info.exponentMin - info.explicitMantissaWidth ≤ u.exponent) :
    (fpcr.Traps info.format fpcr.direction.rounding u.value → fpRound info u fpcr fpsr = none) ∧
    (¬fpcr.Traps info.format fpcr.direction.rounding u.value →
      ∃ result fpsr', fpRound info u fpcr fpsr = some (result, fpsr') ∧
        decode info result = info.format.round fpcr.direction u.value ∧
        fpsr'.ixc = (fpsr.ixc || decide (info.format.Inexact fpcr.direction u.value))) := by
  have haway : fpcr.rMode ≠ .toNearestTieAwayFromZero := by
    rcases fpcr.rMode_cases with h | h | h | h <;> simp [h]
  have hne : u.value ≠ 0 := by
    rw [u.value_eq_signed, signed_ne_zero]
    exact (magnitude_pos hm).ne'
  obtain ⟨htrapped, hrounded⟩ := @fpRoundBase_cases info u fpcr.clearAHP fpsr _ hm
    (fpcr.fz_clearAHP.trans hfz) (fpcr.fz16_clearAHP.trans hfz16) fpcr.ahp_clearAHP haway hmsb
  rw [FPCR.traps_clearAHP, fpcr.rounding_rMode] at htrapped hrounded
  refine ⟨htrapped, fun hnot => ?_⟩
  obtain ⟨result, fpsr', hrun, hdecode, hraised⟩ := hrounded hnot
  refine ⟨result, fpsr', hrun, ?_, ?_⟩
  · rw [hdecode, Format.round_eq_roundBy _ _ hne]
  · have hinexact := hraised.getLsbD .inexact
    simp only [roundExceptions, Format.InexactBy, ← Format.round_eq_roundBy _ _ hne] at hinexact
    rw [Bool.eq_iff_iff, Bool.or_eq_true, decide_eq_true_eq]
    exact hinexact

/-- Numbers that are rounded alike run into the same traps. -/
theorem FPCR.traps_congr {f : Format} {mode : Mode} {x y : ℚ} (h : f.SameRounding mode x y)
    (hx : x ≠ 0) (hy : y ≠ 0) :
    fpcr.Traps f mode.rounding x ↔ fpcr.Traps f mode.rounding y := by
  have hsmall : |x| < 2 ^ f.emin ↔ |y| < 2 ^ f.emin := by
    rw [lt_two_zpow_iff (abs_pos.mpr hx), lt_two_zpow_iff (abs_pos.mpr hy), h.log_eq]
  have hoverflows : f.OverflowsBy mode.rounding x ↔ f.OverflowsBy mode.rounding y := by
    have hunbounded : f.roundUnboundedBy mode.rounding x = f.roundUnboundedBy mode.rounding y :=
      h.unbounded_eq
    rw [Format.OverflowsBy, Format.OverflowsBy, hunbounded]
  have hinexact : f.InexactBy mode.rounding x ↔ f.InexactBy mode.rounding y := by
    rw [Format.InexactBy, Format.InexactBy, ← Format.round_eq_roundBy _ _ hx,
      ← Format.round_eq_roundBy _ _ hy]
    exact h.inexact_iff
  rw [FPCR.traps_iff, FPCR.traps_iff, hsmall, hoverflows, hinexact]

end Round

end Umbra.FP
