import Umbra.FP.FusedSpec

/-!
`FPMulAdd` and `FPMulSub` round the exact sum once.

They do so for every sum of finite numbers that keeps at least 60 leading bits of
the greater term.  A sum that cancels further is handed to `FPRound` as a number
`2 ^ 62` times as large, which goes unnoticed only where that is still far below
the least number of the format.
-/

namespace Umbra.FP

open Umbra.Common Umbra.Lib

variable {info : FPInfo} {fpcr : FPCR}

/-- The operation returns the encoding of the number rounded once, and raises Inexact
exactly when the result is not that number. -/
def RoundsOnce (info : FPInfo) (fpcr : FPCR) (x : ℚ)
    (operation : FPSR → Option (BitVec info.totalWidth × FPSR)) : Prop :=
  ∀ fpsr, ∃ result fpsr', operation fpsr = some (result, fpsr') ∧
    decode info result = info.format.round fpcr.direction x ∧
    fpsr'.ixc = (fpsr.ixc || decide (info.format.Inexact fpcr.direction x))

variable {u v : FPUnpacked} {a p magnitude : ℚ}

theorem roundsOnce_fpRound_iff (hm : u.mantissa ≠ 0#64) (hplain : fpcr.Plain)
    (hmsb : u.mantissa.msb = true → info.exponentMin - info.explicitMantissaWidth ≤ u.exponent)
    (x : ℚ) :
    RoundsOnce info fpcr x (fpRound info u fpcr) ↔
      info.format.round fpcr.direction u.value = info.format.round fpcr.direction x ∧
        (info.format.Inexact fpcr.direction u.value ↔ info.format.Inexact fpcr.direction x) := by
  have hspec (fpsr : FPSR) := (@fpRound_cases info u fpcr fpsr hm hplain.fz hplain.fz16 hmsb).2
    hplain.untrapped.not_traps
  constructor
  · intro h
    -- A clear status register shows whether Inexact was raised.
    obtain ⟨result, fpsr', hrun, hdecode, hixc⟩ := h ⟨0#32⟩
    obtain ⟨result', fpsr'', hrun', hdecode', hixc'⟩ := hspec ⟨0#32⟩
    obtain ⟨rfl, rfl⟩ := Prod.mk.inj (Option.some.inj (hrun.symm.trans hrun'))
    refine ⟨hdecode'.symm.trans hdecode, ?_⟩
    have hclear : FPSR.ixc ⟨0#32⟩ = false := by decide
    rw [hclear, Bool.false_or] at hixc hixc'
    exact decide_eq_decide.mp (hixc'.symm.trans hixc)
  · rintro ⟨hround, hinexact⟩ fpsr
    obtain ⟨result, fpsr', hrun, hdecode, hixc⟩ := hspec fpsr
    exact ⟨result, fpsr', hrun, hdecode.trans hround, by rw [hixc, decide_eq_decide.mpr hinexact]⟩

/-! ### Rounding a fused sum -/

/-- The sum of two terms of which the first is in range is small when it cancels. -/
theorem Cancels.abs_lt {E : ℤ} (h : Cancels a p) (hne : a + p ≠ 0) (ha : |a| < 2 ^ (E + 1)) :
    |a + p| < 2 ^ (E - 1) := by
  have hpos : 0 < max |a| |p| := by
    have hsum : 0 < |a + p| := abs_pos.mpr hne
    have hle : |a + p| ≤ |a| + |p| := abs_add_le a p
    by_contra hzero
    have := le_max_left |a| |p|
    have := le_max_right |a| |p|
    linarith
  set L := Int.log 2 (max |a| |p|) with hL
  have hlog : (2 : ℚ) ^ L ≤ max |a| |p| := (two_zpow_le_iff hpos).mpr le_rfl
  have hsmall : |a + p| < 2 ^ (L - 60) := h
  have hbound : L ≤ E + 1 := by
    by_contra hlt
    have hgap : (2 : ℚ) ^ (E + 1) ≤ 2 ^ (L - 1) := zpow_le_zpow_right₀ one_le_two (by omega)
    have hgap' : (2 : ℚ) ^ (L - 60) ≤ 2 ^ (L - 1) := zpow_le_zpow_right₀ one_le_two (by omega)
    have hp : |p| ≤ |a + p| + |a| := by
      calc |p| = |(a + p) - a| := by rw [add_sub_cancel_left]
        _ ≤ |a + p| + |a| := abs_sub _ _
    have hhalf : (2 : ℚ) ^ L = 2 ^ (L - 1) * 2 := by
      rw [← zpow_add_one₀ two_ne_zero, sub_add_cancel]
    have hmax : max |a| |p| < 2 ^ L := by
      rw [hhalf]
      exact max_lt (by linarith [abs_nonneg a]) (by linarith)
    exact absurd hlog (not_le.mpr hmax)
  exact hsmall.trans_le (zpow_le_zpow_right₀ one_le_two (by omega))

theorem Fuses.ne_zero (h : Fuses info a p u) (hne : a + p ≠ 0) :
    u.mantissa ≠ 0#64 := by
  by_cases hc : Cancels a p
  · intro hzero
    have hvalue := h.value_eq hc
    rw [FPUnpacked.value_eq_zero hzero] at hvalue
    exact mul_ne_zero hne (by positivity) hvalue.symm
  · exact (h.approximates hc).ne_zero (abs_pos.mpr hne)

/-- What `FPRound` makes of a fused sum. -/
theorem Fuses.roundsOnce_iff (h : Fuses info a p u) (hne : a + p ≠ 0)
    (ha : |a| < 2 ^ (info.exponentMax + 1)) (hplain : fpcr.Plain) :
    RoundsOnce info fpcr (a + p) (fpRound info u fpcr) ↔
      ¬Cancels a p ∨ info.format.Vanishes fpcr.direction (2 ^ 62 * |a + p|) := by
  rw [roundsOnce_fpRound_iff (h.ne_zero hne) hplain h.le_exponent]
  by_cases hc : Cancels a p
  · have hpos : 0 < |a + p| := abs_pos.mpr hne
    have hvalue : u.value = signed (decide (a + p < 0)) (2 ^ 62 * |a + p|) := by
      rw [h.value_eq hc, mul_comm _ |a + p|, ← signed_mul, ← eq_signed_abs]
    have hround := @Format.round_multiple_iff info.format fpcr.direction (decide (a + p < 0))
      |a + p| (2 ^ 62 * |a + p|) hpos (by linarith) (hc.abs_lt hne ha)
    rw [← hvalue, ← eq_signed_abs] at hround
    rw [hround, or_iff_right (not_not.mpr hc)]
  · refine iff_of_true ?_ (.inl hc)
    have hsame := @Approximates.sameRounding info _ _ (h.approximates hc) fpcr.direction
    rw [h.signed_eq hc] at hsame
    exact ⟨hsame.round_eq, hsame.inexact_iff⟩

/-! ### The whole operation -/

theorem Unpacks.zeroOrNormal {sign : Bool} {type : FPType} (h : Unpacks info sign magnitude type v) :
    v.ZeroOrNormal info := by
  rcases h.type_eq with ⟨-, hzero⟩ | ⟨-, hnormal⟩
  · exact .inl hzero
  · exact .inr hnormal

theorem Unpacks.magnitude_lt {sign : Bool} {type : FPType} (h : Unpacks info sign magnitude type v) :
    |signed sign magnitude| < 2 ^ (info.exponentMax + 1) := by
  rw [← h.value_eq]
  rcases h.zeroOrNormal with hzero | hnormal
  · rw [FPUnpacked.value_eq_zero hzero, abs_zero]
    positivity
  · have hwide := addendLong_spec hnormal
    rw [FPUnpacked.value_eq_signed, abs_signed, abs_of_pos hwide.pos, lt_two_zpow_iff hwide.pos,
      hwide.log_eq]
    have := hnormal.exponent_le
    omega

theorem Unpacks.eq_zero {sign : Bool} (h : Unpacks info sign magnitude .zero v) :
    signed sign magnitude = 0 := by
  rw [← h.value_eq]
  rcases h.type_eq with ⟨-, hzero⟩ | ⟨htype, -⟩
  · exact FPUnpacked.value_eq_zero hzero
  · exact absurd htype (by decide)

/-- For finite operands with a sum other than zero, `FPMulAdd` rounds the fused sum. -/
theorem fpMulAdd_eq {addend op1 op2 : BitVec info.totalWidth} {signA sign1 sign2 : Bool}
    {magnitudeA magnitude1 magnitude2 : ℚ} (hplain : fpcr.Plain)
    (hA : decode info addend = .finite signA magnitudeA)
    (h1 : decode info op1 = .finite sign1 magnitude1)
    (h2 : decode info op2 = .finite sign2 magnitude2)
    (hne : signed signA magnitudeA + signed sign1 magnitude1 * signed sign2 magnitude2 ≠ 0) :
    ∃ u, Fuses info (signed signA magnitudeA)
        (signed sign1 magnitude1 * signed sign2 magnitude2) u ∧
      |signed signA magnitudeA| < 2 ^ (info.exponentMax + 1) ∧
      fpMulAdd info addend op1 op2 fpcr = fpRound info u fpcr := by
  obtain ⟨typeA, valueA, hunpackA, hvA⟩ := fpUnpack_spec hplain.fz hplain.fz16 hA
  obtain ⟨type1, value1, hunpack1, hv1⟩ := fpUnpack_spec hplain.fz hplain.fz16 h1
  obtain ⟨type2, value2, hunpack2, hv2⟩ := fpUnpack_spec hplain.fz hplain.fz16 h2
  have hfuses : Fuses info (signed signA magnitudeA)
      (signed sign1 magnitude1 * signed sign2 magnitude2) (fusedMulAdd valueA value1 value2) := by
    rw [← hvA.value_eq, ← hv1.value_eq, ← hv2.value_eq] at hne ⊢
    exact fusedMulAdd_spec hvA.zeroOrNormal hv1.zeroOrNormal hv2.zeroOrNormal hne
  have hnonzero := hfuses.ne_zero hne
  -- With a term that is zero and a factor that is zero the sum would be.
  have hterm : ¬(typeA = .zero ∧ (type1 = .zero ∨ type2 = .zero)) := by
    rintro ⟨rfl, rfl | rfl⟩
    · exact hne (by rw [hvA.eq_zero, hv1.eq_zero]; simp)
    · exact hne (by rw [hvA.eq_zero, hv2.eq_zero]; simp)
  have htype : ∀ {sign magnitude type v}, Unpacks info sign magnitude type v →
      type = .zero ∨ type = .nonzero := fun h => h.type_eq.imp And.left And.left
  refine ⟨_, hfuses, hvA.magnitude_lt, ?_⟩
  funext fpsr
  rw [fpMulAdd, hunpackA, Option.bind_eq_bind, Option.bind_some]
  simp only [hunpack1, hunpack2, Option.bind_eq_bind, Option.bind_some]
  rcases htype hvA with rfl | rfl <;> rcases htype hv1 with rfl | rfl <;>
    rcases htype hv2 with rfl | rfl <;> simp [fpProcessNaNs3, hnonzero] at hterm ⊢

theorem expRaw_xor_signMask (op : BitVec info.totalWidth) :
    expRaw info (op ^^^ info.signMask) = expRaw info op := by
  have hmask : (info.signMask.extractLsb' info.explicitMantissaWidth info.exponentWidth) =
      BitVec.ofNat info.exponentWidth 0 := by
    refine BitVec.eq_of_toNat_eq ?_
    rw [BitVec.extractLsb'_toNat, info.signMask_eq, Nat.shiftRight_eq_div_pow, pow_add,
      Nat.mul_div_cancel _ (by positivity), Nat.mod_self, BitVec.toNat_zero]
  rw [expRaw, BitVec.extractLsb'_xor, hmask, BitVec.xor_zero, expRaw]

theorem fracRaw_xor_signMask (op : BitVec info.totalWidth) :
    fracRaw info (op ^^^ info.signMask) = fracRaw info op := by
  have hmask : (info.signMask.extractLsb' 0 info.explicitMantissaWidth) =
      BitVec.ofNat info.explicitMantissaWidth 0 := by
    refine BitVec.eq_of_toNat_eq ?_
    rw [BitVec.extractLsb'_toNat, info.signMask_eq, Nat.shiftRight_zero, pow_add,
      Nat.mul_mod_left, BitVec.toNat_zero]
  rw [fracRaw, BitVec.extractLsb'_xor, hmask, BitVec.xor_zero, fracRaw]

theorem signBit_xor_signMask (op : BitVec info.totalWidth) :
    signBit info (op ^^^ info.signMask) = !signBit info op := by
  have hmask : info.signMask.getLsbD (info.exponentWidth + info.explicitMantissaWidth) = true := by
    rw [BitVec.getLsbD, info.signMask_eq, Nat.testBit_two_pow_self]
  rw [signBit, BitVec.getLsbD_xor, hmask, Bool.xor_true, signBit]

theorem decode_xor_signMask {op : BitVec info.totalWidth} {sign : Bool}
    (h : decode info op = .finite sign magnitude) :
    decode info (op ^^^ info.signMask) = .finite (!sign) magnitude := by
  unfold decode at h ⊢
  simp only [expRaw_xor_signMask, fracRaw_xor_signMask, signBit_xor_signMask] at h ⊢
  split_ifs at h ⊢ with hones hnan hsubnormal <;> simp_all

/-- Which sums of finite numbers `FPMulAdd` and `FPMulSub` round correctly: those that keep
at least 60 leading bits of the greater term, and those so small that being taken for
`2 ^ 62` times as large does not show. -/
theorem fpMulAdd_roundsOnce_iff (info : FPInfo) {fpcr : FPCR} (hplain : fpcr.Plain)
    {addend op1 op2 : BitVec info.totalWidth} {a b c : ℚ}
    (ha : (decode info addend).toRat = some a) (hb : (decode info op1).toRat = some b)
    (hc : (decode info op2).toRat = some c) :
    (a + b * c ≠ 0 →
      (RoundsOnce info fpcr (a + b * c) (fpMulAdd info addend op1 op2 fpcr) ↔
        2 ^ (Int.log 2 (max |a| |b * c|) - 60) ≤ |a + b * c| ∨
          info.format.Vanishes fpcr.direction (2 ^ 62 * |a + b * c|))) ∧
    (a - b * c ≠ 0 →
      (RoundsOnce info fpcr (a - b * c) (fpMulSub info addend op1 op2 fpcr) ↔
        2 ^ (Int.log 2 (max |a| |b * c|) - 60) ≤ |a - b * c| ∨
          info.format.Vanishes fpcr.direction (2 ^ 62 * |a - b * c|))) := by
  obtain ⟨signA, magnitudeA, hA, rfl⟩ := exists_finite ha
  obtain ⟨sign1, magnitude1, h1, rfl⟩ := exists_finite hb
  obtain ⟨sign2, magnitude2, h2, rfl⟩ := exists_finite hc
  constructor
  · intro hne
    obtain ⟨u, hfuses, hlt, hrun⟩ := fpMulAdd_eq hplain hA h1 h2 hne
    rw [hrun, hfuses.roundsOnce_iff hne hlt hplain, Cancels, not_lt]
  · -- The subtraction is the addition with the sign of the first factor flipped.
    intro hne
    have hneg : signed (!sign1) magnitude1 * signed sign2 magnitude2 =
        -(signed sign1 magnitude1 * signed sign2 magnitude2) := by
      cases sign1 <;> cases sign2 <;> simp [signed]
    have hsub := sub_eq_add_neg (signed signA magnitudeA)
      (signed sign1 magnitude1 * signed sign2 magnitude2)
    rw [hsub, ← hneg] at hne ⊢
    obtain ⟨u, hfuses, hlt, hrun⟩ := fpMulAdd_eq hplain hA (decode_xor_signMask h1) h2 hne
    rw [show fpMulSub info addend op1 op2 fpcr = fpRound info u fpcr from hrun,
      hfuses.roundsOnce_iff hne hlt hplain, Cancels, not_lt, hneg, abs_neg]

/-- One plus one times one. -/
theorem fpMulAdd_roundsOnce_one :
    RoundsOnce .double ⟨0#32⟩ (1 + 1 * 1)
      (fpMulAdd .double 0x3FF0000000000000#64 0x3FF0000000000000#64 0x3FF0000000000000#64
        ⟨0#32⟩) := by
  have hone : (decode .double 0x3FF0000000000000#64).toRat = some 1 :=
    toRat_decode false 1023 0 rfl rfl rfl (by decide) (by norm_num [signed, FPInfo.double])
  refine ((fpMulAdd_roundsOnce_iff .double plain_zero hone hone hone).1 (by norm_num)).mpr (.inl ?_)
  have hlog : Int.log 2 (1 : ℚ) = 0 := Int.log_one_right 2
  norm_num [hlog]

/-- `-1 + (1 + 2 ^ -52) * (1 - 2 ^ -52)` is `-2 ^ -104`, and comes out as `-2 ^ -42`
without Inexact. -/
theorem fpMulAdd_not_roundsOnce :
    FPCR.Plain ⟨0#32⟩ ∧ (decode .double 0xBFF0000000000000#64).toRat = some (-1) ∧
      (decode .double 0x3FF0000000000001#64).toRat = some (1 + 1 / 2 ^ 52) ∧
      (decode .double 0x3FEFFFFFFFFFFFFE#64).toRat = some (1 - 1 / 2 ^ 52) ∧
      ¬RoundsOnce .double ⟨0#32⟩ (-1 + (1 + 1 / 2 ^ 52) * (1 - 1 / 2 ^ 52))
        (fpMulAdd .double 0xBFF0000000000000#64 0x3FF0000000000001#64 0x3FEFFFFFFFFFFFFE#64
          ⟨0#32⟩) := by
  refine ⟨plain_zero, toRat_decode true 1023 0 rfl rfl rfl (by decide) (by norm_num [signed, FPInfo.double]),
    toRat_decode false 1023 1 rfl rfl rfl (by decide) (by norm_num [signed, FPInfo.double]),
    toRat_decode false 1022 0xFFFFFFFFFFFFE rfl rfl rfl (by decide) (by norm_num [signed, FPInfo.double]),
    fun h => ?_⟩
  obtain ⟨result, fpsr', hrun, hdecode, hixc⟩ := h ⟨0#32⟩
  have hvalue : fpMulAdd .double 0xBFF0000000000000#64 0x3FF0000000000001#64
      0x3FEFFFFFFFFFFFFE#64 ⟨0#32⟩ ⟨0#32⟩ = some (0xBD50000000000000#64, ⟨0#32⟩) := rfl
  obtain ⟨rfl, rfl⟩ := Prod.mk.inj (Option.some.inj (hrun.symm.trans hvalue))
  -- The result claims to be exact, and is not the sum.
  have hexact : ¬FPInfo.double.format.Inexact (FPCR.direction ⟨0#32⟩)
      (-1 + (1 + 1 / 2 ^ 52) * (1 - 1 / 2 ^ 52)) := by
    have hclear : FPSR.ixc ⟨0#32⟩ = false := by decide
    rw [hclear, Bool.false_or] at hixc
    exact of_decide_eq_false hixc.symm
  rw [Format.Inexact, not_not, ← hdecode] at hexact
  have hresult : (decode .double 0xBD50000000000000#64).toRat = some (-1 / 2 ^ 42) :=
    toRat_decode true 981 0 rfl rfl rfl (by decide) (by norm_num [signed, FPInfo.double])
  rw [hresult] at hexact
  norm_num at hexact

end Umbra.FP
