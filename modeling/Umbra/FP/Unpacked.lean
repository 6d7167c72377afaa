import Mathlib.Data.Nat.Log
import Umbra.FP.Info

/-!
Unpacking of floating-point numbers, and rounding back.

An unpacked number is a sign, an exponent and a 64-bit mantissa with the binary
point below bit 62.  Exponents are far from the limits of the source's `int`.
-/

namespace Umbra.FP

def normalizedPointPosition : ℕ := 62

structure FPUnpacked where
  sign : Bool
  exponent : ℤ
  mantissa : BitVec 64
deriving DecidableEq

def highestSetBit (value : BitVec 64) : ℤ :=
  if value = 0#64 then -1 else (Nat.log2 value.toNat : ℤ)

def toNormalized (sign : Bool) (exponent : ℤ) (value : BitVec 64) : FPUnpacked :=
  if value = 0#64 then ⟨sign, 0, 0#64⟩
  else
    let offset : ℤ := normalizedPointPosition - highestSetBit value
    ⟨sign, exponent - (offset - normalizedPointPosition), value <<< offset.toNat⟩

section Unpack

variable (info : FPInfo)

def signBit (op : BitVec info.totalWidth) : Bool :=
  op.getLsbD (info.exponentWidth + info.explicitMantissaWidth)

def expRaw (op : BitVec info.totalWidth) : BitVec info.exponentWidth :=
  op.extractLsb' info.explicitMantissaWidth info.exponentWidth

def fracRaw (op : BitVec info.totalWidth) : BitVec info.explicitMantissaWidth :=
  op.extractLsb' 0 info.explicitMantissaWidth

def isHalfPrecision : Bool := info.totalWidth == 16

def fpUnpackBase (op : BitVec info.totalWidth) (fpcr : FPCR) (fpsr : FPSR) :
    Option ((FPType × Bool × FPUnpacked) × FPSR) :=
  let denormalExponent := info.exponentMin - info.explicitMantissaWidth
  let sign := signBit info op
  let frac := (fracRaw info op).setWidth 64
  if expRaw info op = 0 then
    if isHalfPrecision info then
      if fracRaw info op = 0 ∨ fpcr.fz16 then some ((.zero, sign, ⟨sign, 0, 0#64⟩), fpsr)
      else some ((.nonzero, sign, toNormalized sign denormalExponent frac), fpsr)
    else if fracRaw info op = 0 ∨ fpcr.fz then
      (if fracRaw info op ≠ 0 then fpProcessException .inputDenorm fpcr fpsr
        else some fpsr).map fun fpsr => ((.zero, sign, ⟨sign, 0, 0#64⟩), fpsr)
    else some ((.nonzero, sign, toNormalized sign denormalExponent frac), fpsr)
  else
    let expAllOnes := expRaw info op = BitVec.allOnes info.exponentWidth
    if expAllOnes ∧ (isHalfPrecision info = false ∨ fpcr.ahp = false) then
      if fracRaw info op = 0 then
        some ((.infinity, sign, toNormalized sign 1000000 1#64), fpsr)
      else
        let isQuiet := op.getLsbD (info.explicitMantissaWidth - 1)
        some ((if isQuiet then .qNaN else .sNaN, sign, ⟨sign, 0, 0#64⟩), fpsr)
    else
      let exp := ((expRaw info op).toNat : ℤ) - info.exponentBias
      let mantissa := ((fracRaw info op).setWidth 64 ||| info.implicitLeadingBit.setWidth 64) <<<
        (normalizedPointPosition - info.explicitMantissaWidth)
      some ((.nonzero, sign, ⟨sign, exp, mantissa⟩), fpsr)

def fpUnpack (op : BitVec info.totalWidth) (fpcr : FPCR) (fpsr : FPSR) :
    Option ((FPType × Bool × FPUnpacked) × FPSR) :=
  fpUnpackBase info op fpcr.clearAHP fpsr

def fpUnpackCV (op : BitVec info.totalWidth) (fpcr : FPCR) (fpsr : FPSR) :
    Option ((FPType × Bool × FPUnpacked) × FPSR) :=
  fpUnpackBase info op fpcr.clearFZ16 fpsr

end Unpack

inductive ResidualError
  | zero
  | lessThanHalf
  | half
  | greaterThanHalf
deriving DecidableEq

def residualErrorOnRightShift (mantissa : BitVec 64) (shiftAmount : ℤ) : ResidualError :=
  if shiftAmount ≤ 0 ∨ mantissa = 0#64 then .zero
  else if shiftAmount > 64 then
    if mantissa.msb then .greaterThanHalf else .lessThanHalf
  else
    let half := 1#64 <<< (shiftAmount - 1).toNat
    let error := mantissa &&& BitVec.ofNat 64 (2 ^ shiftAmount.toNat - 1)
    if error = 0#64 then .zero
    else if error < half then .lessThanHalf
    else if error = half then .half
    else .greaterThanHalf

def logicalShiftRight (value : BitVec 64) (shiftAmount : ℤ) : BitVec 64 :=
  if shiftAmount ≥ 64 then 0#64
  else if shiftAmount < 0 then
    if -shiftAmount ≥ 64 then 0#64 else value <<< (-shiftAmount).toNat
  else value >>> shiftAmount.toNat

structure Normalized where
  exponent : ℤ
  mantissa : BitVec 64
  error : ResidualError
deriving DecidableEq

def normalize (fractionWidth : ℕ) (op : FPUnpacked) (extraRightShift : ℤ) : Normalized :=
  let highest := highestSetBit op.mantissa
  let shiftAmount := highest - fractionWidth + extraRightShift
  ⟨op.exponent + highest - normalizedPointPosition, logicalShiftRight op.mantissa shiftAmount,
    residualErrorOnRightShift op.mantissa shiftAmount⟩

def roundsUp (rounding : RoundingMode) (sign : Bool) (mantissa : BitVec 64)
    (error : ResidualError) : Bool :=
  match rounding with
  | .toNearestTieEven =>
      error = .greaterThanHalf || (error = .half && mantissa.getLsbD 0)
  | .towardsPlusInfinity => error ≠ .zero && !sign
  | .towardsMinusInfinity => error ≠ .zero && sign
  | _ => false

def overflowToInf (rounding : RoundingMode) (sign : Bool) : Bool :=
  match rounding with
  | .toNearestTieEven => true
  | .towardsPlusInfinity => !sign
  | .towardsMinusInfinity => sign
  | _ => false

section Round

variable (info : FPInfo)

def mantissaMask64 : BitVec 64 := info.mantissaMask.setWidth 64

def roundUp (mantissa : BitVec 64) (biasedExp : ℤ) : BitVec 64 × ℤ :=
  if mantissa &&& mantissaMask64 info = mantissaMask64 info then
    if mantissa = mantissaMask64 info then (mantissa + 1#64, biasedExp + 1)
    else ((mantissa + 1#64) / 2#64, biasedExp + 1)
  else (mantissa + 1#64, biasedExp)

def assemble (sign : Bool) (biasedExp : ℤ) (mantissa : BitVec 64) : BitVec info.totalWidth :=
  (((BitVec.ofBool sign).setWidth info.totalWidth <<< info.exponentWidth +
      BitVec.ofInt info.totalWidth biasedExp) <<< info.explicitMantissaWidth) |||
    (mantissa.setWidth info.totalWidth &&& info.mantissaMask)

def raiseIf (condition : Bool) (exception : FPExc) (fpcr : FPCR) (fpsr : FPSR) : Option FPSR :=
  if condition then fpProcessException exception fpcr fpsr else some fpsr

/-- `FPRoundBase`; `none` where an assertion fails. -/
def fpRoundBase (op : FPUnpacked) (fpcr : FPCR) (rounding : RoundingMode) (fpsr : FPSR) :
    Option (BitVec info.totalWidth × FPSR) := do
  if op.mantissa = 0#64 ∨ rounding = .toNearestTieAwayFromZero then none
  let isFP16 := isHalfPrecision info
  let sign := op.sign
  let first := normalize info.explicitMantissaWidth op 0
  if ((!isFP16 && fpcr.fz) || (isFP16 && fpcr.fz16)) && first.exponent < info.exponentMin then
    return (info.zero sign, fpsr.raise FPExc.underflow.cumulativeBit)
  let biasedExp := max (first.exponent - info.exponentMin + 1) 0
  let second := if biasedExp = 0 then
      normalize info.explicitMantissaWidth op (info.exponentMin - first.exponent)
    else first
  let error := second.error
  let fpsr ← raiseIf (biasedExp = 0 ∧ (error ≠ .zero ∨ fpcr.ufe)) .underflow fpcr fpsr
  let (mantissa, biasedExp) :=
    if roundsUp rounding sign second.mantissa error then roundUp info second.mantissa biasedExp
    else (second.mantissa, biasedExp)
  let mantissa := if error ≠ .zero ∧ rounding = .toOdd then mantissa ||| 1#64 else mantissa
  if isFP16 = false ∨ fpcr.ahp = false then
    if biasedExp ≥ 2 ^ info.exponentWidth - 1 then
      let result :=
        if overflowToInf rounding sign then info.infinity sign else info.maxNormal sign
      let fpsr ← fpProcessException .overflow fpcr fpsr
      let fpsr ← fpProcessException .inexact fpcr fpsr
      return (result, fpsr)
    else
      let fpsr ← raiseIf (error ≠ .zero) .inexact fpcr fpsr
      return (assemble info sign biasedExp mantissa, fpsr)
  else if biasedExp ≥ 2 ^ info.exponentWidth then
    let fpsr ← fpProcessException .invalidOp fpcr fpsr
    return (if sign then 0xFFFF else 0x7FFF, fpsr)
  else
    let fpsr ← raiseIf (error ≠ .zero) .inexact fpcr fpsr
    return (assemble info sign biasedExp mantissa, fpsr)

def fpRound (op : FPUnpacked) (fpcr : FPCR) (fpsr : FPSR) :
    Option (BitVec info.totalWidth × FPSR) :=
  fpRoundBase info op fpcr.clearAHP fpcr.rMode fpsr

def fpRoundWith (op : FPUnpacked) (fpcr : FPCR) (rounding : RoundingMode) (fpsr : FPSR) :
    Option (BitVec info.totalWidth × FPSR) :=
  fpRoundBase info op fpcr.clearAHP rounding fpsr

def fpRoundCV (op : FPUnpacked) (fpcr : FPCR) (rounding : RoundingMode) (fpsr : FPSR) :
    Option (BitVec info.totalWidth × FPSR) :=
  fpRoundBase info op fpcr.clearFZ16 rounding fpsr

end Round

end Umbra.FP
