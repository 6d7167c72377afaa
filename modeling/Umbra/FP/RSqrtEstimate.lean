import Mathlib.Tactic.LinearCombination
import Umbra.FP.UnpackSpec

/-!
The estimate of a reciprocal square root.

A table gives eight bits of the result for nine bits of the operand.  Its entries are found by a
search for the largest `b` with `a * b * b < 2 ^ 28`.
-/

namespace Umbra.FP

open Umbra.Lib

/-- The loop of `RecipSqrtEstimate`; it ends before the fuel does. -/
def growSqrt (a : ℕ) : ℕ → ℕ → ℕ
  | 0, b => b
  | fuel + 1, b => if a * (b + 1) * (b + 1) < 2 ^ 28 then growSqrt a fuel (b + 1) else b

def recipSqrtEstimate (a : ℕ) : ℕ :=
  let i := a % 512
  if i < 128 then 0
  else
    let a := if i < 256 then i * 2 + 1 else (i ||| 1) * 2
    (growSqrt a 512 512 + 1) / 2 % 256

def fpRSqrtEstimate (info : FPInfo) (op : BitVec info.totalWidth) (fpcr : FPCR) (fpsr : FPSR) :
    Option (BitVec info.totalWidth × FPSR) := do
  let ((type, sign, value), fpsr) ← fpUnpack info op fpcr fpsr
  if type = .sNaN ∨ type = .qNaN then fpProcessNaN info type op fpcr fpsr
  else if type = .zero then
    let fpsr ← fpProcessException .divideByZero fpcr fpsr
    return (info.infinity sign, fpsr)
  else if sign then
    let fpsr ← fpProcessException .invalidOp fpcr fpsr
    return (info.defaultNaN, fpsr)
  else if type = .infinity then return (info.zero false, fpsr)
  else
    let resultExponent := (-(value.exponent + 1)) >>> (1 : ℕ)
    let wasExponentOdd := value.exponent % 2 = 0
    let scaled := logicalShiftRight value.mantissa
      (normalizedPointPosition - if wasExponentOdd then 7 else 8)
    let estimate := recipSqrtEstimate scaled.toNat
    let bitsExponent := BitVec.ofInt info.totalWidth (resultExponent + info.exponentBias)
    let bitsMantissa := BitVec.ofNat 64 (estimate <<< (info.explicitMantissaWidth - 8))
    return (bitsExponent <<< info.explicitMantissaWidth |||
      (bitsMantissa.setWidth info.totalWidth &&& info.mantissaMask), fpsr)

/-- The search ends before the fuel, at the largest `b` with `a * b * b < 2 ^ 28`. -/
theorem growSqrt_spec {a fuel b : ℕ} (ha : 257 ≤ a) (hb : a * b * b < 2 ^ 28)
    (hfuel : 1024 ≤ b + fuel) :
    b ≤ growSqrt a fuel b ∧ a * growSqrt a fuel b * growSqrt a fuel b < 2 ^ 28 ∧
      2 ^ 28 ≤ a * (growSqrt a fuel b + 1) * (growSqrt a fuel b + 1) := by
  induction fuel generalizing b with
  | zero =>
      have := Nat.mul_le_mul (Nat.mul_le_mul ha hfuel) hfuel
      simp only [Nat.add_zero] at this
      omega
  | succ fuel ih =>
      unfold growSqrt
      split_ifs with hgrow
      · obtain ⟨hle, hspec⟩ := ih hgrow (by omega)
        exact ⟨by omega, hspec⟩
      · exact ⟨le_rfl, hb, not_lt.mp hgrow⟩

/-- The table entry is within `2 ^ -8` of the reciprocal root on its interval. -/
theorem recipSqrtEstimate_spec {s : ℕ} (hlo : 128 ≤ s) (hhi : s < 512) :
    ∃ R, 256 ≤ R ∧ R < 512 ∧ recipSqrtEstimate s = R - 256 ∧
      255 ^ 2 * 2 ^ 9 < R ^ 2 * s ∧ R ^ 2 * (s + 1) ≤ 257 ^ 2 * 2 ^ 9 := by
  have hhalf : (s ||| 1) / 2 = s / 2 := by simp [Nat.or_div_two]
  have hodd : (s ||| 1) % 2 = 1 := by simp [Nat.or_mod_two_eq_one]
  obtain ⟨a, ha⟩ : ∃ a, a = if s < 256 then s * 2 + 1 else (s ||| 1) * 2 := ⟨_, rfl⟩
  obtain ⟨hlow, hhigh, hbelow, habove⟩ :
      257 ≤ a ∧ a < 1024 ∧ 128 * a ≤ 257 * s ∧ 257 * (s + 1) ≤ 129 * a := by
    split_ifs at ha <;> omega
  obtain ⟨hb, hsquare, hnext⟩ := @growSqrt_spec a 512 512 hlow (by omega) (by omega)
  have hentry : recipSqrtEstimate s = (growSqrt a 512 512 + 1) / 2 % 256 := by
    rw [recipSqrtEstimate, Nat.mod_eq_of_lt hhi, if_neg (by omega), ← ha]
  generalize growSqrt a 512 512 = b at *
  have hlt : b < 1023 := by
    by_contra hge
    have := Nat.mul_le_mul (Nat.mul_le_mul hlow (not_lt.mp hge)) (not_lt.mp hge)
    omega
  obtain ⟨R, hR⟩ : ∃ R, R = (b + 1) / 2 := ⟨_, rfl⟩
  refine ⟨R, by omega, by omega, by omega, ?_, ?_⟩
  · have hroot : 512 * (b + 1) ≤ 1026 * R := by omega
    have := Nat.mul_le_mul (Nat.mul_le_mul hroot hroot) hbelow
    nlinarith only [this, hnext]
  · have hroot : 1022 * R ≤ 512 * b := by omega
    have := Nat.mul_le_mul (Nat.mul_le_mul hroot hroot) habove
    nlinarith only [this, hsquare]

variable {info : FPInfo} {op : BitVec info.totalWidth}

theorem decode_estimate {E : ℤ} {R d : ℕ} (hd : 8 + d = info.explicitMantissaWidth)
    (hones : info.exponentMax + info.exponentBias < (2 ^ info.exponentWidth - 1 : ℕ))
    (hE : info.exponentMin ≤ E) (hE' : E ≤ info.exponentMax) (hR : 256 ≤ R) (hR' : R < 512) :
    (decode info (assemble info false (E + info.exponentBias)
      (BitVec.ofNat 64 ((R - 256) <<< d)))).toRat = some (R * 2 ^ (E - 8) : ℚ) := by
  have hmin := info.exponentMin_eq
  have hwidth := info.explicitMantissaWidth_le
  obtain ⟨n, hn⟩ : ∃ n : ℕ, E + info.exponentBias = n := Int.eq_ofNat_of_zero_le (by omega)
  have hpow : 2 ^ 8 * 2 ^ d = 2 ^ info.explicitMantissaWidth := by rw [← pow_add, hd]
  have hfrac : (R - 256) * 2 ^ d < 2 ^ info.explicitMantissaWidth :=
    hpow ▸ Nat.mul_lt_mul_of_pos_right (by omega) (by positivity)
  have htoNat := @toNat_assemble info false n (BitVec.ofNat 64 ((R - 256) * 2 ^ d)) (by omega)
  rw [BitVec.toNat_ofNat, Nat.mod_mod_of_dvd _ (pow_dvd_pow 2 (by omega)), Nat.mod_eq_of_lt hfrac]
    at htoNat
  obtain ⟨hsign, hexp, hfrac⟩ := parts_of_toNat (by omega) hfrac htoNat
  rw [hn, Nat.shiftLeft_eq]
  refine toRat_decode false n _ hsign hexp hfrac (by omega) ?_
  rw [if_neg (by omega), max_eq_left (by omega), ← hpow, ← add_mul,
    show 2 ^ 8 + (R - 256) = R by omega]
  change ((R * 2 ^ d : ℕ) * _ : ℚ) = _
  push_cast
  rw [mul_assoc, ← zpow_natCast, zpow_mul_two_zpow]
  congr 2
  omega

/-- An even exponent leaves one bit less of the mantissa, so that half of it is whole. -/
theorem scaled_eq (u : FPUnpacked) : ∃ shift : ℕ, (shift = 54 ∨ shift = 55) ∧
    2 * (-(u.exponent + 1)) >>> (1 : ℕ) + u.exponent = 53 - shift ∧
    (logicalShiftRight u.mantissa
      (normalizedPointPosition - if u.exponent % 2 = 0 then 7 else 8)).toNat =
      u.mantissa.toNat / 2 ^ shift := by
  have hhalf : (-(u.exponent + 1)) >>> (1 : ℕ) = -(u.exponent + 1) / 2 := Int.shiftRight_eq_div_pow _ 1
  rcases Int.emod_two_eq_zero_or_one u.exponent with heven | hodd
  · refine ⟨55, .inr rfl, by omega, ?_⟩
    simp [heven, logicalShiftRight, normalizedPointPosition, Nat.shiftRight_eq_div_pow]
  · refine ⟨54, .inl rfl, by omega, ?_⟩
    simp [hodd, logicalShiftRight, normalizedPointPosition, Nat.shiftRight_eq_div_pow]

/-- The error of an entry is that of the number: the bits below those of the index do not matter. -/
theorem error_of_entry {E e : ℤ} {R m shift : ℕ} (hexponent : 2 * E + e = 53 - shift)
    (hlow : 255 ^ 2 * 2 ^ 9 < R ^ 2 * (m / 2 ^ shift))
    (hhigh : R ^ 2 * (m / 2 ^ shift + 1) ≤ 257 ^ 2 * 2 ^ 9) (hR : 0 < R) :
    (255 / 256 : ℚ) ^ 2 < (R * 2 ^ (E - 8)) ^ 2 * (m * 2 ^ (e - 62)) ∧
      (R * 2 ^ (E - 8)) ^ 2 * (m * 2 ^ (e - 62)) < (257 / 256 : ℚ) ^ 2 := by
  have hunit : (2 : ℚ) ^ (E - 8) * 2 ^ (E - 8) * 2 ^ (e - 62) * (2 ^ shift * 2 ^ 25) = 1 := by
    simp only [← zpow_natCast, zpow_mul_two_zpow]
    rw [show E - 8 + (E - 8) + (e - 62) + (shift + (25 : ℕ)) = 0 by push_cast; omega, zpow_zero]
  have hscale : (R * 2 ^ (E - 8)) ^ 2 * (m * 2 ^ (e - 62)) * (2 ^ shift * 2 ^ 25) =
      ((R ^ 2 * m : ℕ) : ℚ) := by
    push_cast
    linear_combination (R ^ 2 * m : ℚ) * hunit
  have hbelow : 255 ^ 2 * 2 ^ 9 * 2 ^ shift < R ^ 2 * m :=
    calc _ < R ^ 2 * (m / 2 ^ shift) * 2 ^ shift :=
          Nat.mul_lt_mul_of_pos_right hlow (by positivity)
      _ ≤ _ := (mul_assoc _ _ _).trans_le (Nat.mul_le_mul_left _ (Nat.div_mul_le_self _ _))
  have hlt : m < (m / 2 ^ shift + 1) * 2 ^ shift :=
    (Nat.div_lt_iff_lt_mul (by positivity)).mp (Nat.lt_succ_self _)
  have habove : R ^ 2 * m < 257 ^ 2 * 2 ^ 9 * 2 ^ shift :=
    calc _ < R ^ 2 * ((m / 2 ^ shift + 1) * 2 ^ shift) :=
          Nat.mul_lt_mul_of_pos_left hlt (by positivity)
      _ ≤ _ := (mul_assoc _ _ _).symm.trans_le (Nat.mul_le_mul_right _ hhigh)
  rw [← Nat.cast_lt (α := ℚ), ← hscale] at hbelow habove
  push_cast at hbelow habove
  have hpos : (0 : ℚ) ≤ 2 ^ shift * 2 ^ 25 := by positivity
  exact ⟨lt_of_mul_lt_mul_right (by linarith) hpos, lt_of_mul_lt_mul_right (by linarith) hpos⟩

/-- For a positive finite operand the estimate is within a relative error of `2 ^ (-8)` of the
reciprocal square root, and no flag is raised. -/
theorem fpRSqrtEstimate_near {fpcr : FPCR} {v : ℚ} (hinfo : info ∈ [.half, .single, .double])
    (hfz : fpcr.fz = false) (hfz16 : fpcr.fz16 = false) (hop : (decode info op).toRat = some v)
    (hv : 0 < v) (fpsr : FPSR) :
    ∃ result r, fpRSqrtEstimate info op fpcr fpsr = some (result, fpsr) ∧
      (decode info result).toRat = some r ∧ 0 < r ∧
      (255 / 256) ^ 2 < r ^ 2 * v ∧ r ^ 2 * v < (257 / 256) ^ 2 := by
  obtain ⟨hwidth, hbias, hones⟩ : 8 ≤ info.explicitMantissaWidth ∧
      info.explicitMantissaWidth ≤ info.exponentBias ∧
      info.exponentMax + info.exponentBias < (2 ^ info.exponentWidth - 1 : ℕ) := by
    simp only [List.mem_cons, List.not_mem_nil, or_false] at hinfo
    rcases hinfo with rfl | rfl | rfl <;> decide
  obtain ⟨sign, magnitude, hdecode, rfl⟩ := exists_finite hop
  obtain ⟨type, u, hunpack, hu⟩ := fpUnpack_spec hfz hfz16 hdecode
  rw [← hu.value_eq, FPUnpacked.value, hu.sign_eq] at hv ⊢
  obtain ⟨rfl, hle, hlt, -, hexpLow, hexpHigh⟩ := hu.type_eq.resolve_left fun hzero => by
    simp [hzero.2, signed] at hv
  obtain rfl : sign = false := by
    cases sign with
    | false => rfl
    | true => exact absurd hv (not_lt.mpr (neg_nonpos.mpr (by positivity)))
  have hmin := info.exponentMin_eq
  have hmax := info.exponentMax_eq
  obtain ⟨shift, hshift, hexponent, hscaled⟩ := scaled_eq u
  have hindex : 128 ≤ u.mantissa.toNat / 2 ^ shift ∧ u.mantissa.toNat / 2 ^ shift < 512 := by
    rcases hshift with rfl | rfl <;> omega
  obtain ⟨R, hR, hR', hestimate, hlow, hhigh⟩ := recipSqrtEstimate_spec hindex.1 hindex.2
  refine ⟨_, _, ?_, decode_estimate (Nat.add_sub_of_le hwidth) hones (by omega) (by omega) hR hR',
    by positivity, error_of_entry hexponent hlow hhigh (by omega)⟩
  simp only [fpRSqrtEstimate, hunpack, Option.pure_def, Option.bind_eq_bind, Option.bind_some,
    reduceCtorEq, or_self, ↓reduceIte, Bool.false_eq_true, hscaled, hestimate, assemble,
    BitVec.ofBool_false, BitVec.ofNat_eq_ofNat, BitVec.setWidth_zero, BitVec.zero_shiftLeft,
    BitVec.zero_add]

theorem fpRSqrtEstimate_near_least : ∃ result r,
    fpRSqrtEstimate .half 0x0001#16 ⟨0#32⟩ ⟨0#32⟩ = some (result, ⟨0#32⟩) ∧
      (decode .half result).toRat = some r ∧ 0 < r ∧
      (255 / 256) ^ 2 < r ^ 2 * (1 / 2 ^ 24) ∧ r ^ 2 * (1 / 2 ^ 24) < (257 / 256) ^ 2 :=
  fpRSqrtEstimate_near (by simp) rfl rfl (toRat_decode false 0 1 rfl rfl rfl (by decide)
    (by norm_num [signed, FPInfo.half])) (by norm_num) _

end Umbra.FP
