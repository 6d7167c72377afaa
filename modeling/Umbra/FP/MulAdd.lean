import Umbra.Common.U128
import Umbra.FP.Unpacked

/-!
Fused multiply-add: `FusedMulAdd` on unpacked numbers, and `FPMulAdd` and
`FPMulSub` around it.
-/

namespace Umbra.FP

open Umbra.Common

def productPointPosition : ℕ := normalizedPointPosition * 2

def reduceMantissa (sign : Bool) (exponent : ℤ) (mantissa : U128) : FPUnpacked :=
  let pointPositionCorrection : ℤ := normalizedPointPosition - (productPointPosition - 64)
  ⟨sign, exponent + pointPositionCorrection,
    mantissa.upper ||| if mantissa.lower ≠ 0#64 then 1#64 else 0#64⟩

def unpackedProduct (op1 op2 : FPUnpacked) : ℤ × U128 :=
  let exponent := op1.exponent + op2.exponent
  let value := U128.multiply64To128 op1.mantissa op2.mantissa
  if value.bit (productPointPosition + 1) then (exponent + 1, value.shiftRight 1)
  else (exponent, value)

def fusedAddition (addend : FPUnpacked) (productSign : Bool) (productExponent : ℤ)
    (productValue : U128) : FPUnpacked :=
  let expDiff := productExponent - addend.exponent
  if expDiff ≤ 0 then
    let shifted := productValue.stickyLogicalShiftRight (normalizedPointPosition - expDiff)
    ⟨addend.sign, addend.exponent, addend.mantissa + shifted.lower⟩
  else
    let shifted :=
      (U128.ofU64 addend.mantissa).stickyLogicalShiftRight (expDiff - normalizedPointPosition)
    reduceMantissa productSign productExponent (productValue.add shifted)

def fusedDifference (addend : FPUnpacked) (productSign : Bool) (productExponent : ℤ)
    (productValue : U128) : Bool × ℤ × U128 :=
  let expDiff := productExponent - addend.exponent
  let addendLong := (U128.ofU64 addend.mantissa).shiftLeft normalizedPointPosition
  if expDiff = 0 ∧ addendLong.lt productValue then
    (productSign, productExponent, productValue.sub addendLong)
  else if expDiff ≤ 0 then
    (!productSign, addend.exponent,
      addendLong.sub (productValue.stickyLogicalShiftRight (-expDiff)))
  else
    (productSign, productExponent,
      productValue.sub (addendLong.stickyLogicalShiftRight expDiff))

def normalizeDifference (sign : Bool) (exponent : ℤ) (result : U128) : FPUnpacked :=
  if result.upper = 0#64 then ⟨sign, exponent, result.lower⟩
  else
    let requiredShift := normalizedPointPosition - highestSetBit result.upper
    reduceMantissa sign (exponent - requiredShift) (result.shiftLeft requiredShift)

def fusedMulAdd (addend op1 op2 : FPUnpacked) : FPUnpacked :=
  let productSign := op1.sign != op2.sign
  let (productExponent, productValue) := unpackedProduct op1 op2
  if productValue = U128.ofU64 0#64 then addend
  else if addend.mantissa = 0#64 then reduceMantissa productSign productExponent productValue
  else if productSign = addend.sign then
    fusedAddition addend productSign productExponent productValue
  else
    let (sign, exponent, result) := fusedDifference addend productSign productExponent productValue
    normalizeDifference sign exponent result

section

variable (info : FPInfo)

def fpMulAdd (addend op1 op2 : BitVec info.totalWidth) (fpcr : FPCR) (fpsr : FPSR) :
    Option (BitVec info.totalWidth × FPSR) := do
  let ((typeA, signA, valueA), fpsr) ← fpUnpack info addend fpcr fpsr
  let ((type1, sign1, value1), fpsr) ← fpUnpack info op1 fpcr fpsr
  let ((type2, sign2, value2), fpsr) ← fpUnpack info op2 fpcr fpsr
  let infA := typeA == .infinity
  let inf1 := type1 == .infinity
  let inf2 := type2 == .infinity
  let zeroA := typeA == .zero
  let zero1 := type1 == .zero
  let zero2 := type2 == .zero
  let (maybeNaN, fpsr) ← fpProcessNaNs3 info typeA type1 type2 addend op1 op2 fpcr fpsr
  if typeA = .qNaN ∧ ((inf1 && zero2) || (zero1 && inf2)) then
    let fpsr ← fpProcessException .invalidOp fpcr fpsr
    return (info.defaultNaN, fpsr)
  if let some result := maybeNaN then
    return (result, fpsr)
  let signP := sign1 != sign2
  let infP := inf1 || inf2
  let zeroP := zero1 || zero2
  if (inf1 && zero2) || (zero1 && inf2) || (infA && infP && signA != signP) then
    let fpsr ← fpProcessException .invalidOp fpcr fpsr
    return (info.defaultNaN, fpsr)
  if (infA && !signA) || (infP && !signP) then
    return (info.infinity false, fpsr)
  if (infA && signA) || (infP && signP) then
    return (info.infinity true, fpsr)
  if zeroA && zeroP && signA == signP then
    return (info.zero signA, fpsr)
  let result := fusedMulAdd valueA value1 value2
  if result.mantissa = 0#64 then
    return (info.zero (fpcr.rMode == .towardsMinusInfinity), fpsr)
  fpRound info result fpcr fpsr

def fpMulSub (minuend op1 op2 : BitVec info.totalWidth) (fpcr : FPCR) (fpsr : FPSR) :
    Option (BitVec info.totalWidth × FPSR) :=
  fpMulAdd info minuend (op1 ^^^ info.signMask) op2 fpcr fpsr

end

end Umbra.FP
