import Umbra.FP.Unpacked

/-!
`FPToFixed`: conversion of a floating-point number to a fixed-point one.
-/

namespace Umbra.FP

def negate (value : BitVec 64) : BitVec 64 := ~~~value + 1#64

def arithmeticShiftLeft (value : BitVec 64) (shiftAmount : ℤ) : BitVec 64 :=
  if shiftAmount ≥ 64 then 0#64
  else if shiftAmount < 0 then
    if -shiftAmount ≥ 64 then if value.msb then ~~~0#64 else 0#64
    else value.sshiftRight (-shiftAmount).toNat
  else value <<< shiftAmount.toNat

def ones (count : ℕ) : BitVec 64 := if count = 0 then 0#64 else ~~~0#64 >>> (64 - count)

/-- `round_up`; the last case is never reached. -/
def fixedRoundsUp (rounding : RoundingMode) (intResult : BitVec 64) (error : ResidualError) :
    Bool :=
  match rounding with
  | .toNearestTieEven =>
      error = .greaterThanHalf || (error = .half && intResult.getLsbD 0)
  | .towardsPlusInfinity => error ≠ .zero
  | .towardsMinusInfinity => false
  | .towardsZero => error ≠ .zero && intResult.msb
  | .toNearestTieAwayFromZero =>
      error = .greaterThanHalf || (error = .half && !intResult.msb)
  | .toOdd => false

/-- The part of `FPToFixed` behind the special cases: `exponent` is that of the last bit of
the mantissa, after the multiplication by `2 ^ fbits`. -/
def toFixedNonzero (ibits : ℕ) (unsigned sign : Bool) (mantissa : BitVec 64) (exponent : ℤ)
    (rounding : RoundingMode) (fpcr : FPCR) (fpsr : FPSR) : Option (BitVec 64 × FPSR) := do
  let signedMantissa := if sign then negate mantissa else mantissa
  let error := residualErrorOnRightShift signedMantissa (-exponent)
  let shifted := arithmeticShiftLeft signedMantissa exponent
  let roundUp := fixedRoundsUp rounding shifted error
  let intResult := if roundUp then shifted + 1#64 else shifted
  let increment := if roundUp then logicalShiftRight 1#64 exponent else 0#64
  let minExponentForOverflow : ℤ :=
    ibits - highestSetBit (mantissa + increment) - if unsigned then 0 else 1
  -- For no bits at all `ibits - 1` wraps around, which `ones` asserts against.
  if exponent ≥ minExponentForOverflow ∧ !unsigned ∧ ibits = 0 then none
  if exponent ≥ minExponentForOverflow ∧ (unsigned || !sign) then
    let fpsr ← fpProcessException .invalidOp fpcr fpsr
    return (ones (ibits - if unsigned then 0 else 1), fpsr)
  let minValue := negate (1#64 <<< (ibits - 1))
  if exponent ≥ minExponentForOverflow ∧
      ¬(exponent = minExponentForOverflow ∧ intResult = minValue) then
    let fpsr ← fpProcessException .invalidOp fpcr fpsr
    return (1#64 <<< (ibits - 1), fpsr)
  let fpsr ← if error ≠ .zero then fpProcessException .inexact fpcr fpsr else some fpsr
  return (intResult &&& ones ibits, fpsr)

def fpToFixed (info : FPInfo) (ibits : ℕ) (op : BitVec info.totalWidth) (fbits : ℕ)
    (unsigned : Bool) (fpcr : FPCR) (rounding : RoundingMode) (fpsr : FPSR) :
    Option (BitVec 64 × FPSR) := do
  if rounding = .toOdd ∨ 64 < ibits ∨ ibits < fbits then none
  let ((type, sign, value), fpsr) ← fpUnpack info op fpcr fpsr
  let fpsr ← if type = .sNaN ∨ type = .qNaN then fpProcessException .invalidOp fpcr fpsr
    else some fpsr
  if value.mantissa = 0#64 then
    return (0#64, fpsr)
  if sign && unsigned then
    let fpsr ← fpProcessException .invalidOp fpcr fpsr
    return (0#64, fpsr)
  toFixedNonzero ibits unsigned sign value.mantissa
    (value.exponent + fbits - normalizedPointPosition) rounding fpcr fpsr

end Umbra.FP
