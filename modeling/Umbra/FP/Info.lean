import Mathlib.Algebra.Group.Int.Defs
import Mathlib.Algebra.Group.Nat.Defs
import Mathlib.Logic.Basic

/-!
The floating-point formats, the control and status registers, and exceptions.

The three formats differ in their widths and constants only; `FPInfo` holds them
together with the facts about them that the algorithms rely on.
-/

namespace Umbra.FP

structure FPInfo where
  totalWidth : ℕ
  exponentWidth : ℕ
  explicitMantissaWidth : ℕ
  implicitLeadingBit : BitVec totalWidth
  signMask : BitVec totalWidth
  exponentMask : BitVec totalWidth
  mantissaMask : BitVec totalWidth
  exponentMin : ℤ
  exponentMax : ℤ
  exponentBias : ℤ
  totalWidth_eq : totalWidth = exponentWidth + explicitMantissaWidth + 1
  two_le_exponentWidth : 2 ≤ exponentWidth
  explicitMantissaWidth_pos : 0 < explicitMantissaWidth
  explicitMantissaWidth_le : explicitMantissaWidth ≤ 52
  implicitLeadingBit_eq : implicitLeadingBit.toNat = 2 ^ explicitMantissaWidth
  signMask_eq : signMask.toNat = 2 ^ (exponentWidth + explicitMantissaWidth)
  exponentMask_eq :
    exponentMask.toNat = (2 ^ exponentWidth - 1) * 2 ^ explicitMantissaWidth
  mantissaMask_eq : mantissaMask.toNat = 2 ^ explicitMantissaWidth - 1
  exponentBias_eq : exponentBias = 2 ^ (exponentWidth - 1) - 1
  exponentMin_eq : exponentMin = 1 - exponentBias
  exponentMax_eq : exponentMax = exponentBias

namespace FPInfo

def half : FPInfo where
  totalWidth := 16
  exponentWidth := 5
  explicitMantissaWidth := 10
  implicitLeadingBit := 1#16 <<< 10
  signMask := 0x8000#16
  exponentMask := 0x7C00#16
  mantissaMask := 0x3FF#16
  exponentMin := -14
  exponentMax := 15
  exponentBias := 15
  totalWidth_eq := rfl
  two_le_exponentWidth := by decide
  explicitMantissaWidth_pos := by decide
  explicitMantissaWidth_le := by decide
  implicitLeadingBit_eq := by decide
  signMask_eq := by decide
  exponentMask_eq := by decide
  mantissaMask_eq := by decide
  exponentBias_eq := by decide
  exponentMin_eq := rfl
  exponentMax_eq := rfl

def single : FPInfo where
  totalWidth := 32
  exponentWidth := 8
  explicitMantissaWidth := 23
  implicitLeadingBit := 1#32 <<< 23
  signMask := 0x80000000#32
  exponentMask := 0x7F800000#32
  mantissaMask := 0x007FFFFF#32
  exponentMin := -126
  exponentMax := 127
  exponentBias := 127
  totalWidth_eq := rfl
  two_le_exponentWidth := by decide
  explicitMantissaWidth_pos := by decide
  explicitMantissaWidth_le := by decide
  implicitLeadingBit_eq := by decide
  signMask_eq := by decide
  exponentMask_eq := by decide
  mantissaMask_eq := by decide
  exponentBias_eq := by decide
  exponentMin_eq := rfl
  exponentMax_eq := rfl

def double : FPInfo where
  totalWidth := 64
  exponentWidth := 11
  explicitMantissaWidth := 52
  implicitLeadingBit := 1#64 <<< 52
  signMask := 0x8000000000000000#64
  exponentMask := 0x7FF0000000000000#64
  mantissaMask := 0x000FFFFFFFFFFFFF#64
  exponentMin := -1022
  exponentMax := 1023
  exponentBias := 1023
  totalWidth_eq := rfl
  two_le_exponentWidth := by decide
  explicitMantissaWidth_pos := by decide
  explicitMantissaWidth_le := by decide
  implicitLeadingBit_eq := by decide
  signMask_eq := by decide
  exponentMask_eq := by decide
  mantissaMask_eq := by decide
  exponentBias_eq := by decide
  exponentMin_eq := rfl
  exponentMax_eq := rfl

variable (info : FPInfo)

def zero (sign : Bool) : BitVec info.totalWidth := if sign then info.signMask else 0

def infinity (sign : Bool) : BitVec info.totalWidth := info.exponentMask ||| info.zero sign

def maxNormal (sign : Bool) : BitVec info.totalWidth := (info.exponentMask - 1) ||| info.zero sign

def defaultNaN : BitVec info.totalWidth :=
  info.exponentMask ||| 1 <<< (info.explicitMantissaWidth - 1)

end FPInfo

inductive RoundingMode
  | toNearestTieEven
  | towardsPlusInfinity
  | towardsMinusInfinity
  | towardsZero
  | toNearestTieAwayFromZero
  | toOdd
deriving DecidableEq

structure FPCR where
  value : BitVec 32
deriving DecidableEq

namespace FPCR

def ahp (fpcr : FPCR) : Bool := fpcr.value.getLsbD 26

def dn (fpcr : FPCR) : Bool := fpcr.value.getLsbD 25

def fz (fpcr : FPCR) : Bool := fpcr.value.getLsbD 24

def fz16 (fpcr : FPCR) : Bool := fpcr.value.getLsbD 19

def ofe (fpcr : FPCR) : Bool := fpcr.value.getLsbD 10

def ufe (fpcr : FPCR) : Bool := fpcr.value.getLsbD 11

def ixe (fpcr : FPCR) : Bool := fpcr.value.getLsbD 12

def clearAHP (fpcr : FPCR) : FPCR := ⟨fpcr.value &&& ~~~(1#32 <<< 26)⟩

def clearFZ16 (fpcr : FPCR) : FPCR := ⟨fpcr.value &&& ~~~(1#32 <<< 19)⟩

def rMode (fpcr : FPCR) : RoundingMode :=
  match (fpcr.value.extractLsb' 22 2).toNat with
  | 0 => .toNearestTieEven
  | 1 => .towardsPlusInfinity
  | 2 => .towardsMinusInfinity
  | _ => .towardsZero

end FPCR

structure FPSR where
  value : BitVec 32
deriving DecidableEq

namespace FPSR

def ixc (fpsr : FPSR) : Bool := fpsr.value.getLsbD 4

def raise (fpsr : FPSR) (position : ℕ) : FPSR := ⟨fpsr.value ||| 1#32 <<< position⟩

end FPSR

inductive FPExc
  | invalidOp
  | divideByZero
  | overflow
  | underflow
  | inexact
  | inputDenorm
deriving DecidableEq

namespace FPExc

/-- The bit of the FPCR that enables the trap: `IOE`, `DZE`, `OFE`, `UFE`, `IXE`, `IDE`. -/
def enableBit : FPExc → ℕ
  | invalidOp => 8
  | divideByZero => 9
  | overflow => 10
  | underflow => 11
  | inexact => 12
  | inputDenorm => 15

def cumulativeBit : FPExc → ℕ
  | invalidOp => 0
  | divideByZero => 1
  | overflow => 2
  | underflow => 3
  | inexact => 4
  | inputDenorm => 7

end FPExc

/-- `FPProcessException`; `none` where the trap is enabled, which the source asserts it
is not. -/
def fpProcessException (exception : FPExc) (fpcr : FPCR) (fpsr : FPSR) : Option FPSR :=
  if fpcr.value.getLsbD exception.enableBit then none
  else some (fpsr.raise exception.cumulativeBit)

def FPCR.Untrapped (fpcr : FPCR) : Prop :=
  ∀ exception : FPExc, fpcr.value.getLsbD exception.enableBit = false

theorem fpProcessException_of_untrapped {fpcr : FPCR} (h : fpcr.Untrapped) (exception : FPExc)
    (fpsr : FPSR) :
    fpProcessException exception fpcr fpsr = some (fpsr.raise exception.cumulativeBit) := by
  rw [fpProcessException, h exception, if_neg Bool.false_ne_true]

inductive FPType
  | nonzero
  | zero
  | infinity
  | qNaN
  | sNaN
deriving DecidableEq

def fpProcessNaN (info : FPInfo) (type : FPType) (op : BitVec info.totalWidth) (fpcr : FPCR)
    (fpsr : FPSR) : Option (BitVec info.totalWidth × FPSR) :=
  match type with
  | .sNaN =>
      (fpProcessException .invalidOp fpcr fpsr).map fun fpsr =>
        (if fpcr.dn then info.defaultNaN
          else op ||| 1 <<< (info.explicitMantissaWidth - 1), fpsr)
  | .qNaN => some (if fpcr.dn then info.defaultNaN else op, fpsr)
  | _ => none

/-- `FPProcessNaNs`; the inner option is the source's optional result. -/
def fpProcessNaNs (info : FPInfo) (type1 type2 : FPType) (op1 op2 : BitVec info.totalWidth)
    (fpcr : FPCR) (fpsr : FPSR) : Option (Option (BitVec info.totalWidth) × FPSR) :=
  let process (type : FPType) (op : BitVec info.totalWidth) :=
    (fpProcessNaN info type op fpcr fpsr).map fun result => (some result.1, result.2)
  if type1 = .sNaN then process type1 op1
  else if type2 = .sNaN then process type2 op2
  else if type1 = .qNaN then process type1 op1
  else if type2 = .qNaN then process type2 op2
  else some (none, fpsr)

def fpProcessNaNs3 (info : FPInfo) (type1 type2 type3 : FPType)
    (op1 op2 op3 : BitVec info.totalWidth) (fpcr : FPCR) (fpsr : FPSR) :
    Option (Option (BitVec info.totalWidth) × FPSR) :=
  let process (type : FPType) (op : BitVec info.totalWidth) :=
    (fpProcessNaN info type op fpcr fpsr).map fun result => (some result.1, result.2)
  if type1 = .sNaN then process type1 op1
  else if type2 = .sNaN then process type2 op2
  else if type3 = .sNaN then process type3 op3
  else if type1 = .qNaN then process type1 op1
  else if type2 = .qNaN then process type2 op2
  else if type3 = .qNaN then process type3 op3
  else some (none, fpsr)

end Umbra.FP
