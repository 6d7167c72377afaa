import Umbra.FP.MulAddSpec

/-!
The steps of the Newton iterations, `FPRecipStepFused` and `FPRSqrtStepFused`.

Both hand a constant and the negated product of the operands to `FusedMulAdd` and round what it
returns, so they round the exact value once where `FPMulAdd` does.  The iterations are run where
the product is close to the constant, which is where the fused sum cancels.
-/

namespace Umbra.FP

open Umbra.Common Umbra.Lib

section

variable (info : FPInfo)

/-- `FPValue`, whose assertions hold for the constants it is used for. -/
def fpValue (sign : Bool) (exponent : ℤ) (value : BitVec info.totalWidth) :
    BitVec info.totalWidth :=
  if value = 0 then info.zero sign
  else
    let offset := info.explicitMantissaWidth - Nat.log2 value.toNat
    let normalizedExponent := exponent - offset + info.explicitMantissaWidth
    let mantissa := (value <<< offset) &&& info.mantissaMask
    let biasedExponent := BitVec.ofInt info.totalWidth (normalizedExponent + info.exponentBias)
    info.zero sign ||| mantissa ||| (biasedExponent <<< info.explicitMantissaWidth)

/-- The common body of the two steps: `special` is the result for zero times infinity, and the
sum of the constant and the product is halved `halvings` times. -/
def stepFused (special : BitVec info.totalWidth) (constant : BitVec 64) (halvings : ℕ)
    (op1 op2 : BitVec info.totalWidth) (fpcr : FPCR) (fpsr : FPSR) :
    Option (BitVec info.totalWidth × FPSR) := do
  let op1 := op1 ^^^ info.signMask
  let ((type1, sign1, value1), fpsr) ← fpUnpack info op1 fpcr fpsr
  let ((type2, sign2, value2), fpsr) ← fpUnpack info op2 fpcr fpsr
  let (maybeNaN, fpsr) ← fpProcessNaNs info type1 type2 op1 op2 fpcr fpsr
  if let some result := maybeNaN then
    return (result, fpsr)
  let inf1 := type1 == .infinity
  let inf2 := type2 == .infinity
  let zero1 := type1 == .zero
  let zero2 := type2 == .zero
  if (inf1 && zero2) || (zero1 && inf2) then
    return (special, fpsr)
  if inf1 || inf2 then
    return (info.infinity (sign1 != sign2), fpsr)
  let sum := fusedMulAdd (toNormalized false 0 constant) value1 value2
  let result := { sum with exponent := sum.exponent - halvings }
  if result.mantissa = 0#64 then
    return (info.zero (fpcr.rMode == .towardsMinusInfinity), fpsr)
  fpRound info result fpcr fpsr

/-- `FPRecipStepFused`: `2.0 - op1 * op2`. -/
def fpRecipStepFused : BitVec info.totalWidth → BitVec info.totalWidth → FPCR → FPSR →
    Option (BitVec info.totalWidth × FPSR) :=
  stepFused info (fpValue info false 0 2) 2#64 0

/-- `FPRSqrtStepFused`: `(3.0 - op1 * op2) / 2.0`. -/
def fpRSqrtStepFused : BitVec info.totalWidth → BitVec info.totalWidth → FPCR → FPSR →
    Option (BitVec info.totalWidth × FPSR) :=
  stepFused info (fpValue info false (-1) 3) 3#64 1

end

variable {info : FPInfo} {fpcr : FPCR}

/-- Two and three are numbers of every format, with the exponent 1. -/
theorem normal_toNormalized (info : FPInfo) {constant : BitVec 64}
    (h : constant = 2#64 ∨ constant = 3#64) :
    (toNormalized false 0 constant).Normal info ∧ (toNormalized false 0 constant).exponent = 1 ∧
      (toNormalized false 0 constant).value = constant.toNat := by
  have hwidth := info.explicitMantissaWidth_pos
  have hmax := info.one_le_exponentMax
  have hmin : info.exponentMin - info.explicitMantissaWidth ≤ 1 := by
    have := info.exponentMin_le_zero
    omega
  have hdvd (n : ℕ) : 2 ^ (62 - info.explicitMantissaWidth) ∣ n * 2 ^ 61 :=
    dvd_mul_of_dvd_right (pow_dvd_pow 2 (by omega)) n
  rcases h with rfl | rfl
  · have heq : toNormalized false 0 2#64 = ⟨false, 1, 0x4000000000000000#64⟩ := by decide
    rw [heq]
    refine ⟨⟨by decide, by decide, hdvd 2, hmin, hmax⟩, rfl, ?_⟩
    norm_num [FPUnpacked.value, signed]
  · have heq : toNormalized false 0 3#64 = ⟨false, 1, 0x6000000000000000#64⟩ := by decide
    rw [heq]
    refine ⟨⟨by decide, by decide, hdvd 3, hmin, hmax⟩, rfl, ?_⟩
    norm_num [FPUnpacked.value, signed]

/-- The operation returns the encoding of the number rounded once. -/
def RoundsTo (info : FPInfo) (fpcr : FPCR) (x : ℚ)
    (operation : FPSR → Option (BitVec info.totalWidth × FPSR)) : Prop :=
  ∀ fpsr, ∃ result fpsr', operation fpsr = some (result, fpsr') ∧
    decode info result = info.format.round fpcr.direction x

/-- `FPRound` returns the number rounded once if the number it is handed is rounded to the same
one and none of the enabled traps is taken on the way. -/
theorem roundsTo_fpRound_iff {u : FPUnpacked} (hm : u.mantissa ≠ 0#64) (hfz : fpcr.fz = false)
    (hfz16 : fpcr.fz16 = false)
    (hmsb : u.mantissa.msb = true → info.exponentMin - info.explicitMantissaWidth ≤ u.exponent)
    (x : ℚ) :
    RoundsTo info fpcr x (fpRound info u fpcr) ↔
      info.format.round fpcr.direction u.value = info.format.round fpcr.direction x ∧
        ¬fpcr.Traps info.format fpcr.direction.rounding u.value := by
  constructor
  · intro h
    obtain ⟨result, fpsr', hrun, hdecode⟩ := h ⟨0#32⟩
    obtain ⟨htrapped, hrounded⟩ := @fpRound_cases info u fpcr ⟨0#32⟩ hm hfz hfz16 hmsb
    have hnot : ¬fpcr.Traps info.format fpcr.direction.rounding u.value := fun htraps =>
      Option.some_ne_none _ (hrun.symm.trans (htrapped htraps))
    obtain ⟨result', fpsr'', hrun', hdecode', -⟩ := hrounded hnot
    obtain ⟨rfl, rfl⟩ := Prod.mk.inj (Option.some.inj (hrun.symm.trans hrun'))
    exact ⟨hdecode'.symm.trans hdecode, hnot⟩
  · rintro ⟨hround, hnot⟩ fpsr
    obtain ⟨result, fpsr', hrun, hdecode, -⟩ :=
      (@fpRound_cases info u fpcr fpsr hm hfz hfz16 hmsb).2 hnot
    exact ⟨result, fpsr', hrun, hdecode.trans hround⟩

/-- What `FPRound` makes of a fused sum that has been halved a number of times and is not tiny
when it cancels. -/
theorem Fuses.roundsTo_halved_iff {a p : ℚ} {u : FPUnpacked} (h : Fuses info a p u)
    (hne : a + p ≠ 0) (ha : |a| < 2 ^ (info.exponentMax + 1)) (hfz : fpcr.fz = false)
    (hfz16 : fpcr.fz16 = false) (k : ℕ)
    (hmsb : u.mantissa.msb = true →
      info.exponentMin - info.explicitMantissaWidth ≤ u.exponent - k)
    (hleast : Cancels a p → 2 * info.format.least < 2 ^ 62 * |(a + p) / 2 ^ k|) :
    RoundsTo info fpcr ((a + p) / 2 ^ k)
        (fpRound info { u with exponent := u.exponent - k } fpcr) ↔
      ¬Cancels a p ∧
        ¬fpcr.Traps info.format fpcr.direction.rounding ((a + p) / 2 ^ k) := by
  have hiff := roundsTo_fpRound_iff (u := { u with exponent := u.exponent - k }) (h.ne_zero hne)
    hfz hfz16 hmsb ((a + p) / 2 ^ k)
  rw [hiff, FPUnpacked.value_halved]
  by_cases hc : Cancels a p
  · refine iff_of_false (fun hrounded => ?_) fun hkept => hkept.1 hc
    set x := (a + p) / 2 ^ k with hx
    have habs : |x| = |a + p| / 2 ^ k := by rw [hx, abs_div, abs_pow, abs_two]
    have hsum : 0 < |a + p| := abs_pos.mpr hne
    have hpos : 0 < |x| := by rw [habs]; positivity
    have hlt : |x| < 2 ^ (info.exponentMax - 1) := by
      rw [habs]
      exact (div_le_self hsum.le (one_le_pow₀ one_le_two)).trans_lt (hc.abs_lt hne ha)
    have hvalue : u.value / 2 ^ k = signed (decide (x < 0)) (2 ^ 62 * |x|) := by
      rw [h.value_eq hc, mul_comm _ |x|, ← signed_mul, ← eq_signed_abs, hx]
      ring
    have hround := @Format.round_multiple_ne info.format fpcr.direction (decide (x < 0))
      |x| (2 ^ 62 * |x|) hpos (by linarith) hlt (hleast hc)
    rw [← hvalue, ← eq_signed_abs] at hround
    exact hround hrounded.1
  · have hsame := @Approximates.sameRounding info _ _ ((h.approximates hc).halved k)
      fpcr.direction
    have hsigned : signed u.sign (|a + p| / 2 ^ k) = (a + p) / 2 ^ k := by
      rw [div_eq_mul_inv, ← signed_mul, h.signed_eq hc, div_eq_mul_inv]
    rw [hsigned, FPUnpacked.value_halved] at hsame
    have hne' : (a + p) / 2 ^ k ≠ 0 := div_ne_zero hne (by positivity)
    have hvalue : u.value / 2 ^ k ≠ 0 := by
      refine div_ne_zero ?_ (by positivity)
      rw [u.value_eq_signed, signed_ne_zero]
      exact (magnitude_pos (h.ne_zero hne)).ne'
    rw [FPCR.traps_congr hsame hvalue hne']
    exact and_congr_left' (iff_of_true hsame.round_eq hc)

/-! ### How close the product comes to the constant -/

theorem FPUnpacked.Normal.exists_magnitude {v : FPUnpacked} (h : v.Normal info) :
    ∃ n : ℕ, (n : ℚ) < 2 ^ (info.explicitMantissaWidth + 1) ∧
      v.magnitude = n * 2 ^ (v.exponent - info.explicitMantissaWidth) := by
  have hwidth := info.explicitMantissaWidth_le
  obtain ⟨n, hn⟩ := h.dvd_mantissa
  refine ⟨n, ?_, ?_⟩
  · have hlt := h.mantissa_lt
    rw [hn, show 63 = (62 - info.explicitMantissaWidth) + (info.explicitMantissaWidth + 1) by omega,
      pow_add] at hlt
    exact_mod_cast Nat.lt_of_mul_lt_mul_left hlt
  · rw [FPUnpacked.magnitude, hn]
    push_cast
    rw [mul_comm ((2 : ℚ) ^ _), mul_assoc, ← zpow_natCast, zpow_mul_two_zpow,
      Nat.cast_sub (by omega)]
    congr 2
    push_cast
    ring

/-- The product of two numbers is a multiple of a fixed power of two, if it is at least one. -/
theorem exists_product {v v' : FPUnpacked} (h : v.Normal info) (h' : v'.Normal info)
    (hle : 1 ≤ v.magnitude * v'.magnitude) :
    ∃ n : ℕ, v.magnitude * v'.magnitude = n * 2 ^ (-1 - 2 * (info.explicitMantissaWidth : ℤ)) := by
  obtain ⟨n, hn, hv⟩ := h.exists_magnitude
  obtain ⟨n', hn', hv'⟩ := h'.exists_magnitude
  have hproduct : v.magnitude * v'.magnitude =
      (n * n' : ℚ) * 2 ^ (v.exponent + v'.exponent - 2 * (info.explicitMantissaWidth : ℤ)) := by
    rw [hv, hv', show v.exponent + v'.exponent - 2 * (info.explicitMantissaWidth : ℤ) =
      (v.exponent - info.explicitMantissaWidth) + (v'.exponent - info.explicitMantissaWidth) by ring,
      zpow_add₀ two_ne_zero]
    ring
  have hbits : (n * n' : ℚ) < 2 ^ (2 * (info.explicitMantissaWidth : ℤ) + 2) := by
    calc (n * n' : ℚ) < 2 ^ (info.explicitMantissaWidth + 1) * 2 ^ (info.explicitMantissaWidth + 1) :=
          mul_lt_mul'' hn hn' n.cast_nonneg n'.cast_nonneg
      _ = 2 ^ (2 * (info.explicitMantissaWidth : ℤ) + 2) := by
          rw [← pow_add, ← zpow_natCast]
          congr 1
          push_cast
          ring
  have hexponent : 0 ≤ v.exponent + v'.exponent + 1 := by
    by_contra hlt
    have hsmall : v.magnitude * v'.magnitude < 2 ^ (v.exponent + v'.exponent + 2) := by
      calc v.magnitude * v'.magnitude < 2 ^ (2 * (info.explicitMantissaWidth : ℤ) + 2) *
            2 ^ (v.exponent + v'.exponent - 2 * (info.explicitMantissaWidth : ℤ)) := by
            rw [hproduct]
            exact mul_lt_mul_of_pos_right hbits (by positivity)
        _ = 2 ^ (v.exponent + v'.exponent + 2) := by
            rw [zpow_mul_two_zpow]
            congr 1
            ring
    exact absurd (hle.trans_lt hsmall)
      (not_lt.mpr (zpow_le_one_of_nonpos₀ one_le_two (by omega)))
  obtain ⟨k, hk⟩ := Int.eq_ofNat_of_zero_le hexponent
  refine ⟨n * n' * 2 ^ k, ?_⟩
  rw [hproduct, show v.exponent + v'.exponent - 2 * (info.explicitMantissaWidth : ℤ) =
    k + (-1 - 2 * (info.explicitMantissaWidth : ℤ)) by omega, zpow_add₀ two_ne_zero, zpow_natCast]
  push_cast
  ring

theorem log_max_one {x : ℚ} (h2 : 2 ≤ x) (h4 : x < 4) {y : ℚ} (hy : |y| ≤ x) :
    Int.log 2 (max x |y|) = 1 := by
  rw [max_eq_left hy]
  exact log_two_eq (by simpa using h2) (by norm_num; exact h4)

/-- A difference between a constant and a product is no less than the last bit the product can
have, so it is not tiny after the `2 ^ 62` times that `FusedMulAdd` takes it for. -/
theorem least_lt_of_cancels {c k : ℕ} (hc : c = 2 ∨ c = 3) (hk : k ≤ 1) {v v' : FPUnpacked}
    (h : v.ZeroOrNormal info) (h' : v'.ZeroOrNormal info) (hne : c + v.value * v'.value ≠ 0)
    (hcancels : Cancels c (v.value * v'.value)) :
    2 * info.format.least < 2 ^ 62 * |(c + v.value * v'.value) / 2 ^ k| := by
  have hc2 : (2 : ℚ) ≤ c ∧ (c : ℚ) < 4 := by rcases hc with rfl | rfl <;> norm_num
  have hone : 1 ≤ |v.value * v'.value| := by
    by_contra hlt
    rw [Cancels, abs_of_nonneg (Nat.cast_nonneg c : (0 : ℚ) ≤ c),
      log_max_one hc2.1 hc2.2 (by linarith)] at hcancels
    have hdiff := abs_sub_abs_le_abs_sub (c : ℚ) (-(v.value * v'.value))
    rw [abs_neg, sub_neg_eq_add, abs_of_nonneg c.cast_nonneg] at hdiff
    have hsmall : (2 : ℚ) ^ (1 - 60 : ℤ) ≤ 1 := by norm_num
    linarith
  have hnormal {w : FPUnpacked} (hw : w.ZeroOrNormal info) (hw0 : w.value ≠ 0) : w.Normal info :=
    hw.resolve_left fun hzero => hw0 (FPUnpacked.value_eq_zero hzero)
  have hprod0 : v.value * v'.value ≠ 0 := by
    rw [← abs_pos]
    linarith
  have hv := hnormal h (left_ne_zero_of_mul hprod0)
  have hv' := hnormal h' (right_ne_zero_of_mul hprod0)
  have hvalue := FPUnpacked.value_mul v v'
  have hmagnitude : |v.value * v'.value| = v.magnitude * v'.magnitude := by
    rw [hvalue, abs_signed, abs_of_pos (mul_pos (addendLong_spec hv).pos (addendLong_spec hv').pos)]
  rw [hmagnitude] at hone
  obtain ⟨n, hn⟩ := exists_product hv hv' hone
  set g : ℚ := 2 ^ (-1 - 2 * (info.explicitMantissaWidth : ℤ)) with hg
  have hgpos : 0 < g := by positivity
  obtain ⟨d, hd⟩ : ∃ d : ℤ, c + v.value * v'.value = d * g := by
    have hc' : (c : ℚ) = (c * 2 ^ (1 + 2 * info.explicitMantissaWidth) : ℤ) * g := by
      push_cast
      rw [mul_assoc, ← zpow_natCast, hg, zpow_mul_two_zpow]
      simp
    have hp : v.value * v'.value = (if (v.sign != v'.sign) = true then -n else n : ℤ) * g := by
      rw [hvalue, hn]
      cases v.sign != v'.sign <;> simp [signed]
    exact ⟨_, by rw [hp, hc', ← add_mul, ← Int.cast_add]⟩
  have hd0 : d ≠ 0 := by
    rintro rfl
    exact hne (by rw [hd]; simp)
  have hge : g ≤ |c + v.value * v'.value| := by
    rw [hd, abs_mul, abs_of_pos hgpos]
    exact le_mul_of_one_le_left hgpos.le (by exact_mod_cast Int.one_le_abs hd0)
  have hhalf : |c + v.value * v'.value| / 2 ≤ |(c + v.value * v'.value) / 2 ^ k| := by
    rw [abs_div, abs_pow, abs_two]
    refine div_le_div_of_nonneg_left (abs_nonneg _) (by positivity) ?_
    calc (2 : ℚ) ^ k ≤ 2 ^ 1 := pow_le_pow_right₀ one_le_two hk
      _ = 2 := pow_one 2
  have hleast : 2 * info.format.least < 2 ^ 61 * g := by
    have hwidth := info.explicitMantissaWidth_le
    have hmin := info.exponentMin_le_zero
    calc 2 * info.format.least = 2 ^ (1 + (info.exponentMin - info.explicitMantissaWidth)) := by
          rw [zpow_add₀ two_ne_zero, zpow_one]
          rfl
      _ < 2 ^ (61 + (-1 - 2 * (info.explicitMantissaWidth : ℤ))) :=
          zpow_lt_zpow_right₀ one_lt_two (by omega)
      _ = 2 ^ 61 * g := by
          rw [zpow_add₀ two_ne_zero, hg]
          norm_num
  linarith

/-! ### The whole operations -/

/-- Which values of finite operands a step rounds correctly: those for which at least 60 leading
bits of the greater of the constant and the product are kept, and whose rounding runs into no
trap. -/
theorem stepFused_roundsTo_iff (hfz : fpcr.fz = false) (hfz16 : fpcr.fz16 = false) {constant : BitVec 64}
    (hconstant : constant = 2#64 ∨ constant = 3#64) {k : ℕ} (hk : k ≤ 1)
    (special : BitVec info.totalWidth) {op1 op2 : BitVec info.totalWidth} {a b : ℚ}
    (ha : (decode info op1).toRat = some a) (hb : (decode info op2).toRat = some b)
    (hne : (constant.toNat : ℚ) - a * b ≠ 0) :
    RoundsTo info fpcr ((constant.toNat - a * b) / 2 ^ k)
        (stepFused info special constant k op1 op2 fpcr) ↔
      2 ^ (Int.log 2 (max (constant.toNat : ℚ) |a * b|) - 60) ≤ |constant.toNat - a * b| ∧
        ¬fpcr.Traps info.format fpcr.direction.rounding ((constant.toNat - a * b) / 2 ^ k) := by
  obtain ⟨sign1, magnitude1, h1, rfl⟩ := exists_finite ha
  obtain ⟨sign2, magnitude2, h2, rfl⟩ := exists_finite hb
  obtain ⟨hnormal, hexponent, hvalue⟩ := normal_toNormalized info hconstant
  obtain ⟨type1, value1, hunpack1, hv1⟩ :=
    fpUnpack_spec hfz hfz16 (decode_xor_signMask h1)
  obtain ⟨type2, value2, hunpack2, hv2⟩ := fpUnpack_spec hfz hfz16 h2
  have hproduct : value1.value * value2.value =
      -(signed sign1 magnitude1 * signed sign2 magnitude2) := by
    rw [hv1.value_eq, hv2.value_eq]
    cases sign1 <;> cases sign2 <;> simp [signed]
  have hsum : (constant.toNat : ℚ) - signed sign1 magnitude1 * signed sign2 magnitude2 =
      constant.toNat + value1.value * value2.value := by
    rw [hproduct, sub_eq_add_neg]
  rw [hsum] at hne ⊢
  have hfuses := fusedMulAdd_spec (.inr hnormal) hv1.zeroOrNormal hv2.zeroOrNormal
    (by rwa [hvalue])
  rw [hvalue] at hfuses
  generalize hu : fusedMulAdd (toNormalized false 0 constant) value1 value2 = u at hfuses
  have hrun : stepFused info special constant k op1 op2 fpcr =
      fpRound info { u with exponent := u.exponent - k } fpcr := by
    funext fpsr
    have hnonzero := hfuses.ne_zero hne
    rw [stepFused]
    simp only [hunpack1, hunpack2, Option.bind_eq_bind, Option.bind_some]
    rcases hv1.type_eq with ⟨rfl, -⟩ | ⟨rfl, -⟩ <;> rcases hv2.type_eq with ⟨rfl, -⟩ | ⟨rfl, -⟩ <;>
      simp [fpProcessNaNs, hu, hnonzero]
  have hlt : |(constant.toNat : ℚ)| < 2 ^ (info.exponentMax + 1) := by
    have hwide := addendLong_spec hnormal
    rw [← hvalue, FPUnpacked.value_eq_signed, abs_signed, abs_of_pos hwide.pos,
      lt_two_zpow_iff hwide.pos, hwide.log_eq]
    have := hnormal.exponent_le
    omega
  have hmsb : u.mantissa.msb = true →
      info.exponentMin - info.explicitMantissaWidth ≤ u.exponent - k := by
    intro hset
    rw [← hu] at hset
    have hle := exponent_le_fusedMulAdd hnormal hv1.zeroOrNormal hv2.zeroOrNormal hset
    rw [hu] at hle
    have := hnormal.exponent_le
    have := info.exponentMin_eq
    have := info.exponentMax_eq
    omega
  have hleast := least_lt_of_cancels (c := constant.toNat)
    (by rcases hconstant with rfl | rfl <;> simp) hk hv1.zeroOrNormal hv2.zeroOrNormal hne
  rw [hrun, hfuses.roundsTo_halved_iff hne hlt hfz hfz16 k hmsb hleast, Cancels, not_lt, hproduct,
    abs_neg, abs_of_nonneg (Nat.cast_nonneg constant.toNat)]

/-- `FPRecipStepFused` and `FPRSqrtStepFused` round the exact value once exactly where the
difference keeps at least 60 leading bits of the greater of its terms and its rounding runs into
no trap. -/
theorem fpStepFused_roundsTo_iff (info : FPInfo) {fpcr : FPCR} (hfz : fpcr.fz = false)
    (hfz16 : fpcr.fz16 = false) {op1 op2 : BitVec info.totalWidth} {a b : ℚ}
    (ha : (decode info op1).toRat = some a) (hb : (decode info op2).toRat = some b) :
    (2 - a * b ≠ 0 →
      (RoundsTo info fpcr (2 - a * b) (fpRecipStepFused info op1 op2 fpcr) ↔
        2 ^ (Int.log 2 (max 2 |a * b|) - 60) ≤ |2 - a * b| ∧
          ¬fpcr.Traps info.format fpcr.direction.rounding (2 - a * b))) ∧
    (3 - a * b ≠ 0 →
      (RoundsTo info fpcr ((3 - a * b) / 2) (fpRSqrtStepFused info op1 op2 fpcr) ↔
        2 ^ (Int.log 2 (max 3 |a * b|) - 60) ≤ |3 - a * b| ∧
          ¬fpcr.Traps info.format fpcr.direction.rounding ((3 - a * b) / 2))) := by
  constructor
  · intro hne
    have h := stepFused_roundsTo_iff hfz hfz16 (.inl rfl) (Nat.zero_le 1)
      (fpValue info false 0 2) ha hb (by simpa using hne)
    simpa [fpRecipStepFused] using h
  · intro hne
    have h := stepFused_roundsTo_iff hfz hfz16 (.inr rfl) le_rfl (fpValue info false (-1) 3)
      ha hb (by simpa using hne)
    simpa [fpRSqrtStepFused] using h

/-- One step each from the estimate one for the argument one. -/
theorem fpStepFused_roundsTo_one :
    RoundsTo .double ⟨0#32⟩ (2 - 1 * 1)
        (fpRecipStepFused .double 0x3FF0000000000000#64 0x3FF0000000000000#64 ⟨0#32⟩) ∧
      RoundsTo .double ⟨0#32⟩ ((3 - 1 * 1) / 2)
        (fpRSqrtStepFused .double 0x3FF0000000000000#64 0x3FF0000000000000#64 ⟨0#32⟩) := by
  have hone : (decode .double 0x3FF0000000000000#64).toRat = some 1 :=
    toRat_decode false 1023 0 rfl rfl rfl (by decide) (by norm_num [signed, FPInfo.double])
  obtain ⟨hrecip, hrsqrt⟩ := fpStepFused_roundsTo_iff .double plain_zero.fz plain_zero.fz16 hone hone
  refine ⟨(hrecip (by norm_num)).mpr ⟨?_, plain_zero.untrapped.not_traps⟩,
    (hrsqrt (by norm_num)).mpr ⟨?_, plain_zero.untrapped.not_traps⟩⟩
  · rw [log_max_one (by norm_num) (by norm_num) (by norm_num)]
    norm_num
  · rw [log_max_one (by norm_num) (by norm_num) (by norm_num)]
    norm_num

/-- `2 - (1 + 2 ^ -52) * (2 - 2 ^ -51)` is `2 ^ -103`, and comes out as `2 ^ -41`.  With
Inexact trapped, `2 - (1 + 2 ^ -52) ^ 2` does not come out at all. -/
theorem fpRecipStepFused_not_roundsTo :
    FPCR.Plain ⟨0#32⟩ ∧ (decode .double 0x3FF0000000000001#64).toRat = some (1 + 1 / 2 ^ 52) ∧
      (decode .double 0x3FFFFFFFFFFFFFFE#64).toRat = some (2 - 1 / 2 ^ 51) ∧
      fpRecipStepFused .double 0x3FF0000000000001#64 0x3FFFFFFFFFFFFFFE#64 ⟨0#32⟩ ⟨0#32⟩ =
        some (0x3D60000000000000#64, ⟨0#32⟩) ∧
      ¬RoundsTo .double ⟨0#32⟩ (2 - (1 + 1 / 2 ^ 52) * (2 - 1 / 2 ^ 51))
        (fpRecipStepFused .double 0x3FF0000000000001#64 0x3FFFFFFFFFFFFFFE#64 ⟨0#32⟩) ∧
      fpRecipStepFused .double 0x3FF0000000000001#64 0x3FF0000000000001#64 ⟨0x1000#32⟩ ⟨0#32⟩ =
        none := by
  have ha : (decode .double 0x3FF0000000000001#64).toRat = some (1 + 1 / 2 ^ 52) :=
    toRat_decode false 1023 1 rfl rfl rfl (by decide) (by norm_num [signed, FPInfo.double])
  have hb : (decode .double 0x3FFFFFFFFFFFFFFE#64).toRat = some (2 - 1 / 2 ^ 51) :=
    toRat_decode false 1023 0xFFFFFFFFFFFFE rfl rfl rfl (by decide) (by norm_num [signed, FPInfo.double])
  refine ⟨plain_zero, ha, hb, rfl, fun h => ?_, rfl⟩
  have hiff := stepFused_roundsTo_iff plain_zero.fz plain_zero.fz16 (.inl rfl) (Nat.zero_le 1)
    (fpValue .double false 0 2) ha hb (by norm_num)
  have hle := (hiff.mp (by simpa [fpRecipStepFused] using h)).1
  rw [log_max_one (by norm_num) (by norm_num) (by norm_num [abs_of_pos])] at hle
  norm_num at hle

end Umbra.FP
