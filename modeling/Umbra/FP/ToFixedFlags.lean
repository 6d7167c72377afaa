import Umbra.FP.ToFixedSpec

/-!
Which exceptions `FPToFixed` raises.

An operand is rejected with Invalid Operation, or it is converted and the conversion is
Inexact or not.  The specification rejects what has no integer in the range of the
result.  The code rejects what fails its overflow test, and every negative number where
the result is unsigned, even one that is rounded to zero.
-/

namespace Umbra.FP

open Umbra.Lib

/-! ### The specification -/

def OutOfRange (ibits : ℕ) (unsigned : Bool) (z : ℤ) : Prop :=
  z < fixedMin ibits unsigned ∨ fixedMax ibits unsigned < z

def conversionExceptions (rejected inexact : Prop) : FPExc → Prop
  | .invalidOp => rejected
  | .inexact => ¬rejected ∧ inexact
  | _ => False

/-- The exceptions of converting a datum: a NaN, an infinity and what is rounded to an integer
out of range are invalid, any other number is inexact unless it is an integer. -/
def fixedExceptions (ibits fbits : ℕ) (unsigned : Bool) (rounding : RoundingMode)
    (operand : Datum) : FPExc → Prop :=
  match operand.toRat with
  | some v =>
      conversionExceptions (OutOfRange ibits unsigned (rounding.toInteger (v * 2 ^ fbits)))
        (∀ z : ℤ, v * 2 ^ fbits ≠ z)
  | none => conversionExceptions True False

/-- The operation returns, whatever the status register, and adds these exceptions to it. -/
def RaisesExactly (exceptions : FPExc → Prop)
    (operation : FPSR → Option (BitVec 64 × FPSR)) : Prop :=
  ∀ fpsr, ∃ result fpsr', operation fpsr = some (result, fpsr') ∧ Raised fpsr exceptions fpsr'

/-- The numbers for which the exceptions are wrong. -/
def FlagsMisjudged (ibits : ℕ) (unsigned : Bool) (rounding : RoundingMode) (x : ℚ) : Prop :=
  if unsigned then x < 0 ∧ rounding.toInteger x = 0
  else Misjudged ibits rounding x ∨ ibits = 1 ∧ x < -1 ∧ rounding.toInteger x = -1

section Raises

variable {P Q : FPExc → Prop} {operation : FPSR → Option (BitVec 64 × FPSR)}
  {rejected rejected' inexact : Prop}

theorem fract_ne_zero_iff {x : ℚ} : Int.fract x ≠ 0 ↔ ∀ z : ℤ, x ≠ z := by
  constructor
  · rintro h z rfl
    exact h (Int.fract_intCast z)
  · intro h hzero
    refine h ⌊x⌋ ?_
    have := Int.floor_add_fract x
    rw [hzero, add_zero] at this
    exact this.symm

/-- Which exceptions an operation raises is settled by one run. -/
theorem RaisesExactly.iff (h : RaisesExactly Q operation) :
    RaisesExactly P operation ↔ ∀ exception, P exception ↔ Q exception := by
  constructor
  · intro hP exception
    obtain ⟨result, fpsr', hrun, hraised⟩ := hP ⟨0#32⟩
    obtain ⟨result', fpsr'', hrun', hraised'⟩ := h ⟨0#32⟩
    obtain ⟨-, rfl⟩ := Prod.mk.inj (Option.some.inj (hrun.symm.trans hrun'))
    have hclear : ¬((⟨0#32⟩ : FPSR).value.getLsbD exception.cumulativeBit = true) := by simp
    exact (or_iff_right hclear).symm.trans
      ((hraised.getLsbD exception).symm.trans
        ((hraised'.getLsbD exception).trans (or_iff_right hclear)))
  · intro hPQ
    obtain rfl : P = Q := funext fun exception => propext (hPQ exception)
    exact h

theorem conversionExceptions_of_rejected (h : rejected) :
    conversionExceptions rejected inexact = conversionExceptions True False := by
  funext exception
  cases exception <;> simp [conversionExceptions, h]

/-- An operation that rejects its operands for one reason is right about another one if and only
if they agree. -/
theorem RaisesExactly.conversion_iff
    (h : RaisesExactly (conversionExceptions rejected inexact) operation) :
    RaisesExactly (conversionExceptions rejected' inexact) operation ↔ (rejected ↔ rejected') := by
  rw [h.iff]
  constructor
  · exact fun hall => (hall .invalidOp).symm
  · intro hiff exception
    rw [propext hiff]

theorem RaisesExactly.rejects
    (h : ∀ fpsr, ∃ value,
      operation fpsr = some (value, fpsr.raise FPExc.invalidOp.cumulativeBit))
    (hrejected : rejected) : RaisesExactly (conversionExceptions rejected inexact) operation := by
  intro fpsr
  obtain ⟨value, hrun⟩ := h fpsr
  refine ⟨value, _, hrun, Raised.raise (.refl fun _ => id) .invalidOp fun exception => ?_⟩
  cases exception <;> simp [conversionExceptions, hrejected]

theorem RaisesExactly.converts [Decidable inexact]
    (h : ∀ fpsr, ∃ value, operation fpsr =
      some (value, if inexact then fpsr.raise FPExc.inexact.cumulativeBit else fpsr))
    (hrejected : ¬rejected) : RaisesExactly (conversionExceptions rejected inexact) operation := by
  intro fpsr
  obtain ⟨value, hrun⟩ := h fpsr
  refine ⟨value, _, hrun, Raised.raise_if (.refl fun _ => id) .inexact fun exception => ?_⟩
  cases exception <;> simp [conversionExceptions, hrejected]

end Raises

/-! ### Behind the special cases -/

section Nonzero

variable {ibits : ℕ} {unsigned sign : Bool} {mantissa : BitVec 64} {e : ℤ}
  {rounding : RoundingMode} {fpcr : FPCR}

/-- What fails the overflow test is rejected, unless it is spared. -/
theorem toFixedNonzero_raises (hlow : 2 ^ 62 ≤ mantissa.toNat) (hhigh : mantissa.toNat < 2 ^ 63)
    (hbits : 1 ≤ ibits) (hodd : rounding ≠ .toOdd) (hfpcr : fpcr.Untrapped) :
    RaisesExactly
      (conversionExceptions
        (Overflows rounding sign mantissa e (magnitudeBits ibits unsigned) ∧
          ¬Spared ibits unsigned rounding sign mantissa e)
        (∀ z : ℤ, fixedValue sign mantissa e ≠ z))
      (toFixedNonzero ibits unsigned sign mantissa e rounding fpcr) := by
  have hcases := @toFixedNonzero_cases ibits unsigned sign mantissa e rounding fpcr hlow hhigh
    hbits hodd hfpcr
  rw [← fract_ne_zero_iff]
  by_cases hrejected : Overflows rounding sign mantissa e (magnitudeBits ibits unsigned) ∧
      ¬Spared ibits unsigned rounding sign mantissa e
  · refine .rejects (fun fpsr => ?_) hrejected
    rcases hcases fpsr with ⟨-, -, hrun⟩ | ⟨hspared, -⟩
    · exact ⟨_, hrun⟩
    · exact absurd (hspared hrejected.1) hrejected.2
  · refine .converts (fun fpsr => ?_) hrejected
    rcases hcases fpsr with ⟨hover, hspared, -⟩ | ⟨-, hrun⟩
    · exact absurd ⟨hover, hspared⟩ hrejected
    · exact ⟨_, hrun⟩

theorem toNat_ofInt_64 (z : ℤ) : ((BitVec.ofInt 64 z).toNat : ℤ) = z % 2 ^ 64 := by
  rw [BitVec.toNat_ofInt]
  exact Int.toNat_of_nonneg (Int.emod_nonneg z (by norm_num))

theorem ofInt_eq_negate_iff {z : ℤ} (hbits : 1 ≤ ibits) (hle : ibits ≤ 64) (hmin : -2 ^ ibits ≤ z)
    (hz : z ≤ 0) :
    BitVec.ofInt 64 z = negate (1#64 <<< (ibits - 1)) ↔ z = -2 ^ (ibits - 1) := by
  have hone : (1 : ℤ) ≤ 2 ^ (ibits - 1) := one_le_pow₀ (by norm_num)
  have hhalf : (2 : ℤ) ^ (ibits - 1) ≤ 2 ^ 63 := pow_le_pow_right₀ (by norm_num) (by omega)
  have hwhole : (2 : ℤ) ^ ibits ≤ 2 ^ 64 := pow_le_pow_right₀ (by norm_num) hle
  have hneg : ((negate (1#64 <<< (ibits - 1))).toNat : ℤ) = 2 ^ 64 - 2 ^ (ibits - 1) := by
    have hbit := toNat_one_shiftLeft (show ibits - 1 < 64 by omega)
    have hcast : ((2 ^ (ibits - 1) : ℕ) : ℤ) = 2 ^ (ibits - 1) := by push_cast; rfl
    rw [show negate (1#64 <<< (ibits - 1)) = -(1#64 <<< (ibits - 1)) from
      (BitVec.neg_eq_not_add _).symm, BitVec.toNat_neg, hbit]
    omega
  have hcongr := toNat_ofInt_64 z
  constructor
  · intro heq
    rw [heq, hneg] at hcongr
    omega
  · rintro rfl
    refine BitVec.eq_of_toNat_eq ?_
    omega

/-- The smallest integer of the range is spared, except where a number is rounded up to -1 in a
range of one bit. -/
theorem spared_iff (hlow : 2 ^ 62 ≤ mantissa.toNat) (hhigh : mantissa.toNat < 2 ^ 63)
    (hbits : 1 ≤ ibits) (hle : ibits ≤ 64) :
    Spared ibits false rounding true mantissa e ↔
      rounding.toInteger (fixedValue true mantissa e) = -2 ^ (ibits - 1) ∧
        ¬(ibits = 1 ∧ fixedValue true mantissa e < -1) := by
  have hvalue : fixedValue true mantissa e = -(mantissa.toNat * 2 ^ e) := rfl
  have hpos := @scaled_pos mantissa e hlow
  have hnonpos : rounding.toInteger (fixedValue true mantissa e) ≤ 0 :=
    toInteger_nonpos (neg_lt_zero.mpr hpos)
  have hhalf := half_le_iff (e := e) hlow hhigh
  have hbounds := toInteger_bounds rounding (fixedValue true mantissa e)
  unfold Spared Overflows
  rw [hvalue] at hnonpos hbounds ⊢
  generalize (mantissa.toNat : ℚ) * 2 ^ e = y at hpos hhalf hnonpos hbounds ⊢
  have hfloor := Int.floor_le (-y)
  have hceil := Int.lt_floor_add_one (-y)
  constructor
  · rintro ⟨-, hnot, heq⟩
    obtain ⟨hlt, hnotup⟩ := not_or.mp hnot
    have hmin : -2 ^ ibits ≤ ⌊-y⌋ := Int.le_floor.mpr (by push_cast; linarith)
    have hR := (ofInt_eq_negate_iff hbits hle (hmin.trans hbounds.1) hnonpos).mp heq
    refine ⟨hR, ?_⟩
    rintro ⟨rfl, hsmall⟩
    have hfloorlt : ⌊-y⌋ < -1 := Int.floor_lt.mpr (by push_cast; exact hsmall)
    rw [Nat.sub_self, pow_zero] at hR
    exact hnotup ⟨roundsUp_of_floor_lt (by omega), hhalf.mp (by linarith), by linarith⟩
  · rintro ⟨hR, hnot⟩
    have hmin : -2 ^ ibits ≤ rounding.toInteger (-y) := by
      rw [hR]
      exact neg_le_neg (pow_le_pow_right₀ (by norm_num) (Nat.sub_le _ _))
    refine ⟨rfl, ?_, (ofInt_eq_negate_iff hbits hle hmin hnonpos).mpr hR⟩
    -- The number lies within one of the smallest integer, and closer if it is rounded up.
    have hfloorR : ((rounding.toInteger (-y) : ℤ) : ℚ) ≤ ⌊-y⌋ + 1 := by exact_mod_cast hbounds.2
    have hstrict : rounding.RoundsUp (-y) → ((⌊-y⌋ : ℤ) : ℚ) ≠ -y := fun hup heq =>
      fract_ne_zero_iff.mp hup.fract_ne_zero ⌊-y⌋ heq.symm
    rw [hR] at hfloorR
    push_cast at hfloorR
    obtain ⟨k, rfl⟩ := Nat.exists_eq_add_of_le' hbits
    rw [Nat.add_sub_cancel] at hfloorR
    rw [pow_succ]
    rcases Nat.eq_zero_or_pos k with rfl | hk
    · have hle1 : y ≤ 1 := by
        by_contra hgt
        exact hnot ⟨rfl, by linarith⟩
      rintro (hge | ⟨hup, -, hge⟩)
      · linarith
      · have hy : -y = ((-1 : ℤ) : ℚ) := by
          push_cast
          linarith
        exact fract_ne_zero_iff.mp hup.fract_ne_zero _ hy
    · have htwo : (2 : ℚ) ^ 1 ≤ 2 ^ k := pow_le_pow_right₀ one_le_two hk
      rintro (hge | ⟨hup, -, hge⟩)
      · linarith
      · have := lt_of_le_of_ne hfloor (hstrict hup)
        linarith

/-- Where the code and the specification agree on what is rejected. -/
theorem rejected_iff (hlow : 2 ^ 62 ≤ mantissa.toNat) (hhigh : mantissa.toNat < 2 ^ 63)
    (hbits : 1 ≤ ibits) (hle : ibits ≤ 64) (hodd : rounding ≠ .toOdd)
    (hsign : (sign && unsigned) = false) :
    ((Overflows rounding sign mantissa e (magnitudeBits ibits unsigned) ∧
          ¬Spared ibits unsigned rounding sign mantissa e) ↔
        OutOfRange ibits unsigned (rounding.toInteger (fixedValue sign mantissa e))) ↔
      ¬FlagsMisjudged ibits unsigned rounding (fixedValue sign mantissa e) := by
  have hpos := @scaled_pos mantissa e hlow
  have hone : (1 : ℤ) ≤ 2 ^ (ibits - 1) := one_le_pow₀ (by norm_num)
  have honeq : (1 : ℚ) ≤ 2 ^ (ibits - 1) := one_le_pow₀ one_le_two
  cases sign with
  | false =>
      have hvalue : (0 : ℚ) < fixedValue false mantissa e := hpos
      have hnonneg : 0 ≤ rounding.toInteger (fixedValue false mantissa e) :=
        (Int.floor_nonneg.mpr hvalue.le).trans (toInteger_bounds rounding _).1
      have hspared : ¬Spared ibits unsigned rounding false mantissa e := fun h => by simpa using h.1
      have hrange : OutOfRange ibits unsigned (rounding.toInteger (fixedValue false mantissa e)) ↔
          2 ^ magnitudeBits ibits unsigned ≤ rounding.toInteger (fixedValue false mantissa e) := by
        have hmin := fixedMin_nonpos ibits unsigned
        rw [OutOfRange, fixedMax_eq]
        omega
      rw [and_iff_left hspared, hrange, positive_overflows_iff hlow hhigh hodd,
        magnitudeBits_eq_zero_iff hbits, and_assoc]
      refine not_congr ?_
      cases unsigned with
      | true =>
          exact iff_of_false (fun h => by simpa using h.1) fun h => absurd h.1 (not_lt.mpr hvalue.le)
      | false =>
          constructor
          · rintro ⟨-, h1, h2, h3⟩
            exact .inl (.inr ⟨h1, h2, hvalue, h3⟩)
          · rintro ((⟨hlt, -, -⟩ | ⟨h1, h2, -, h3⟩) | ⟨-, hlt, -⟩)
            · linarith
            · exact ⟨rfl, h1, h2, h3⟩
            · linarith
  | true =>
      obtain rfl : unsigned = false := by simpa using hsign
      have hvalue : fixedValue true mantissa e < 0 := neg_lt_zero.mpr hpos
      have hnonpos : rounding.toInteger (fixedValue true mantissa e) ≤ 0 := toInteger_nonpos hvalue
      have hrange : OutOfRange ibits false (rounding.toInteger (fixedValue true mantissa e)) ↔
          rounding.toInteger (fixedValue true mantissa e) < -2 ^ (ibits - 1) := by
        change _ < -2 ^ (ibits - 1) ∨ 2 ^ (ibits - 1) - 1 < _ ↔ _
        omega
      have hwrong : FlagsMisjudged ibits false rounding (fixedValue true mantissa e) ↔
          (fixedValue true mantissa e < 1 - 2 ^ (ibits - 1) ∧
            rounding.toInteger (fixedValue true mantissa e) = 1 - 2 ^ (ibits - 1) ∧
            (ibits = 1 → fixedValue true mantissa e ≤ -1 / 2)) ∨
          ibits = 1 ∧ fixedValue true mantissa e < -1 ∧
            rounding.toInteger (fixedValue true mantissa e) = -1 :=
        or_congr_left (or_iff_left fun h => absurd h.2.2.1 (not_lt.mpr hvalue.le))
      rw [hrange, hwrong, spared_iff hlow hhigh hbits hle]
      change (Overflows rounding true mantissa e (ibits - 1) ∧ _ ↔ _) ↔ _
      by_cases hT : Overflows rounding true mantissa e (ibits - 1)
      · rw [← lt_toInteger_iff_of_overflows hlow hhigh hT, and_iff_right hT]
        by_cases hbelow : ibits = 1 ∧ fixedValue true mantissa e < -1
        · obtain ⟨rfl, hlt⟩ := hbelow
          simp only [hlt, true_and, not_true_eq_false, and_false, not_false_eq_true, true_iff,
            Nat.sub_self, pow_zero]
          omega
        · rw [and_iff_left hbelow, or_iff_left fun h => hbelow ⟨h.1, h.2.1⟩]
          omega
      · obtain ⟨hge, hnot⟩ := toInteger_of_not_overflows hlow hhigh hbits hT
        refine iff_of_true (iff_of_false (fun h => hT h.1) (not_lt.mpr hge)) ?_
        rintro (h | ⟨rfl, hlt, -⟩)
        · exact hnot h
        · refine hT (.inl ?_)
          have hlt' : -((mantissa.toNat : ℚ) * 2 ^ e) < -1 := hlt
          rw [Nat.sub_self, pow_zero]
          linarith

end Nonzero

/-! ### The whole operation -/

section

variable {info : FPInfo} {op : BitVec info.totalWidth} {ibits fbits : ℕ} {unsigned sign : Bool}
  {rounding : RoundingMode} {fpcr : FPCR}

theorem zero_inRange (ibits : ℕ) (unsigned : Bool) : ¬OutOfRange ibits unsigned 0 := by
  have hmin := fixedMin_nonpos ibits unsigned
  have hmax := fixedMax_nonneg ibits unsigned
  rintro (h | h)
  · omega
  · omega

theorem fpToFixed_raises_finite {magnitude : ℚ} (hbits : 1 ≤ ibits) (hle : ibits ≤ 64)
    (hf : fbits ≤ ibits) (hplain : fpcr.Plain) (hodd : rounding ≠ .toOdd)
    (h : decode info op = .finite sign magnitude) :
    RaisesExactly
        (conversionExceptions
          (OutOfRange ibits unsigned (rounding.toInteger (signed sign magnitude * 2 ^ fbits)))
          (∀ z : ℤ, signed sign magnitude * 2 ^ fbits ≠ z))
        (fpToFixed info ibits op fbits unsigned fpcr rounding) ↔
      ¬FlagsMisjudged ibits unsigned rounding (signed sign magnitude * 2 ^ fbits) := by
  rcases @fpToFixed_finite_cases info op ibits fbits unsigned sign rounding fpcr magnitude hle hf
    hplain hodd h with
    ⟨hzero, hrun⟩ | ⟨rfl, hneg, hrun⟩ | ⟨mantissa, e, hlow, hhigh, hvalue, hsign, hrun⟩
  · rw [hzero, toInteger_zero]
    refine iff_of_true (fun fpsr => ⟨_, _, hrun fpsr, .refl fun exception => ?_⟩) ?_
    · have hrange := zero_inRange ibits unsigned
      cases exception with
      | invalidOp => exact hrange
      | inexact => exact fun h => h.2 0 Int.cast_zero.symm
      | _ => exact id
    · have hone : (1 : ℚ) ≤ 2 ^ (ibits - 1) := one_le_pow₀ one_le_two
      cases unsigned with
      | true => exact fun h => lt_irrefl _ h.1
      | false =>
          rintro ((⟨hlt, -, -⟩ | ⟨-, -, hpos, -⟩) | ⟨-, hlt, -⟩)
          · linarith
          · exact lt_irrefl _ hpos
          · linarith
  · have hnonpos := @toInteger_nonpos rounding _ hneg
    have hmax := fixedMax_nonneg ibits true
    rw [(RaisesExactly.rejects (fun fpsr => ⟨_, hrun fpsr⟩) trivial).conversion_iff, true_iff]
    change (_ < 0 ∨ fixedMax ibits true < _) ↔ ¬(_ < 0 ∧ _ = 0)
    rw [and_iff_right hneg]
    omega
  · rw [hrun, ← hvalue,
      (toFixedNonzero_raises hlow hhigh hbits hodd hplain.untrapped).conversion_iff]
    exact rejected_iff hlow hhigh hbits hle hodd hsign

theorem outOfRange_of_large {x : ℚ} (hle : ibits ≤ 64) (hx : 2 ^ 64 ≤ x) :
    OutOfRange ibits unsigned (rounding.toInteger (signed sign x)) := by
  cases sign with
  | false => exact .inr ((fixedMax_lt hle).trans_le (le_toInteger_of_large hx))
  | true => exact .inl ((toInteger_le_of_large hx).trans_lt (lt_fixedMin hle))

theorem not_flagsMisjudged_of_large {x : ℚ} (hle : ibits ≤ 64) (hx : 2 ^ 64 ≤ x) :
    ¬FlagsMisjudged ibits unsigned rounding (signed sign x) := by
  have hout := @outOfRange_of_large ibits unsigned sign rounding x hle hx
  cases unsigned with
  | true =>
      rintro ⟨-, hzero⟩
      rw [hzero] at hout
      exact zero_inRange ibits true hout
  | false =>
      rintro (h | ⟨rfl, -, hone⟩)
      · exact not_misjudged_of_large hle hx h
      · rw [hone] at hout
        exact absurd hout (by simp [OutOfRange, fixedMin, fixedMax])

/-- The conversion raises the exceptions it should, unless the number is misjudged. -/
theorem fpToFixed_raises_iff (hbits : 1 ≤ ibits) (hle : ibits ≤ 64) (hf : fbits ≤ ibits)
    (hplain : fpcr.Plain) (hodd : rounding ≠ .toOdd) :
    RaisesExactly (fixedExceptions ibits fbits unsigned rounding (decode info op))
        (fpToFixed info ibits op fbits unsigned fpcr rounding) ↔
      ∀ v, (decode info op).toRat = some v →
        ¬FlagsMisjudged ibits unsigned rounding (v * 2 ^ fbits) := by
  cases h : decode info op with
  | finite sign magnitude =>
      rw [fixedExceptions]
      simp only [Datum.toRat, Option.some.injEq, forall_eq']
      exact fpToFixed_raises_finite hbits hle hf hplain hodd h
  | infinity sign =>
      refine iff_of_true ?_ (by simp [Datum.toRat])
      change RaisesExactly (conversionExceptions True False) _
      rcases @fpToFixed_infinity_cases info op ibits fbits unsigned sign rounding fpcr hle hf hplain
        hodd h with ⟨rfl, rfl, hrun⟩ | ⟨mantissa, e, x, hlow, hhigh, hvalue, hlarge, hsign, hrun⟩
      · exact .rejects (fun fpsr => ⟨_, hrun fpsr⟩) trivial
      · have hraises := @toFixedNonzero_raises ibits unsigned sign mantissa e rounding fpcr hlow
          hhigh hbits hodd hplain.untrapped
        have hrejected := (rejected_iff hlow hhigh hbits hle hodd hsign).mpr
          (hvalue ▸ not_flagsMisjudged_of_large hle hlarge)
        rw [conversionExceptions_of_rejected (hrejected.mpr (hvalue ▸ outOfRange_of_large hle hlarge))]
          at hraises
        rwa [hrun]
  | nan =>
      refine iff_of_true ?_ (by simp [Datum.toRat])
      exact RaisesExactly.rejects (fun fpsr => ⟨_, fpToFixed_nan_eq hle hf hplain hodd h fpsr⟩) trivial

end

/-- The number 1.5 as a word of 32 bits. -/
theorem fpToFixed_raises_inexact :
    RaisesExactly (fixedExceptions 32 0 false .towardsZero (decode .double 0x3FF8000000000000#64))
      (fpToFixed .double 32 0x3FF8000000000000#64 0 false ⟨0#32⟩ .towardsZero) := by
  refine (fpToFixed_raises_iff (by norm_num) (by norm_num) (by norm_num) plain_zero
    (by decide)).mpr fun v hv => ?_
  obtain rfl : 3 / 2 = v := Option.some.inj <| Eq.trans (toRat_decode false 1023 0x8000000000000
    rfl rfl rfl (by decide) (by norm_num [signed, FPInfo.double])).symm hv
  rintro ((⟨hlt, -, -⟩ | ⟨hone, -, -, -⟩) | ⟨hone, -, -⟩)
  · norm_num at hlt
  · norm_num at hone
  · norm_num at hone

/-- The number -0.25 is rounded towards zero to an integer of the unsigned range, but the
conversion rejects it. -/
theorem fpToFixed_rejects_quarter :
    (decode .double 0xBFD0000000000000#64).toRat = some (-1 / 4) ∧
    ¬OutOfRange 32 true (RoundingMode.towardsZero.toInteger (-1 / 4 * 2 ^ 0)) ∧
    ¬RaisesExactly (fixedExceptions 32 0 true .towardsZero (decode .double 0xBFD0000000000000#64))
      (fpToFixed .double 32 0xBFD0000000000000#64 0 true ⟨0#32⟩ .towardsZero) := by
  have hvalue : (decode .double 0xBFD0000000000000#64).toRat = some (-1 / 4) :=
    toRat_decode true 1021 0 rfl rfl rfl (by decide) (by norm_num [signed, FPInfo.double])
  have hzero : RoundingMode.towardsZero.toInteger (-1 / 4 * 2 ^ 0) = 0 := by
    norm_num [RoundingMode.toInteger]
  have hrange : ¬OutOfRange 32 true (RoundingMode.towardsZero.toInteger (-1 / 4 * 2 ^ 0)) := by
    rw [hzero]
    exact zero_inRange 32 true
  refine ⟨hvalue, hrange, fun h => ?_⟩
  have hrejects : RaisesExactly (conversionExceptions True False)
      (fpToFixed .double 32 0xBFD0000000000000#64 0 true ⟨0#32⟩ .towardsZero) :=
    .rejects (fun fpsr => ⟨0#64, rfl⟩) trivial
  have hraised := (hrejects.iff.mp h .invalidOp).mpr trivial
  rw [fixedExceptions, hvalue] at hraised
  exact hrange hraised

end Umbra.FP
