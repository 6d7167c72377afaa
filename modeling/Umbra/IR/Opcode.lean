import Mathlib.Data.Nat.Notation
import Umbra.Lib.Lanes

/-!
Types and opcodes of the intermediate representation.

The opcodes that some pass looks at have names here, with the operand size as a parameter where the
source has one opcode per size.  For all others a pass can only see the row of `opcodes.inc`: the
types of the result and of the arguments, and whether there may be side effects.
-/

namespace Umbra.IR

inductive IRType
  | void
  | a32Reg | a32ExtReg | a64Reg | a64Vec
  | opaqueType
  | u1 | u8 | u16 | u32 | u64 | u128
  | coprocInfo | nzcvFlags | cond | table | accType
deriving DecidableEq

def areTypesCompatible (t1 t2 : IRType) : Bool :=
  t1 = t2 || t1 = .opaqueType || t2 = .opaqueType

inductive Width
  | w32 | w64
deriving DecidableEq

namespace Width

def bits : Width → ℕ
  | w32 => 32
  | w64 => 64

def type : Width → IRType
  | w32 => .u32
  | w64 => .u64

end Width

inductive ESize
  | e8 | e16 | e32 | e64
deriving DecidableEq

/-- The opcodes for which `IsAPseudoOperation` holds: what they compute depends on the instruction
they are applied to. -/
inductive PseudoOp
  | getCarryFromOp
  | getOverflowFromOp
  | getGEFromOp
  | getNZCVFromOp
  | getNZFromOp
  | getUpperFromOp
  | getLowerFromOp
  | mostSignificantBit
  | isZero (w : Width)
deriving DecidableEq

inductive AluOp
  | leastSignificantWord | leastSignificantHalf | leastSignificantByte | mostSignificantWord
  | logicalShiftLeft (w : Width) | logicalShiftRight (w : Width)
  | arithmeticShiftRight (w : Width) | rotateRight (w : Width)
  | logicalShiftLeftMasked (w : Width) | logicalShiftRightMasked (w : Width)
  | arithmeticShiftRightMasked (w : Width) | rotateRightMasked (w : Width)
  | add (w : Width) | sub (w : Width) | mul (w : Width)
  | unsignedDiv (w : Width) | signedDiv (w : Width)
  | and (w : Width) | andNot (w : Width) | eor (w : Width) | or (w : Width) | not (w : Width)
  | signExtendByteToWord | signExtendHalfToWord
  | signExtendByteToLong | signExtendHalfToLong | signExtendWordToLong
  | zeroExtendByteToWord | zeroExtendHalfToWord
  | zeroExtendByteToLong | zeroExtendHalfToLong | zeroExtendWordToLong
  | byteReverseWord | byteReverseHalf | byteReverseDual
deriving DecidableEq

/-- The vector opcodes that are replaced by other code on some hosts, and those they are replaced
by. -/
inductive VectorOp
  | sha256Hash | sha256MessageSchedule0 | sha256MessageSchedule1
  | vectorMultiplySignedWiden (esize : ESize) | vectorMultiplyUnsignedWiden (esize : ESize)
  | vectorGetElement (esize : ESize) | vectorSetElement (esize : ESize)
  | vectorAdd (esize : ESize) | vectorMultiply (esize : ESize)
  | vectorEor | vectorOr | vectorExtract
  | vectorLogicalShiftLeft (esize : ESize) | vectorLogicalShiftRight (esize : ESize)
  | vectorRotateWholeVectorRight
  | vectorSignExtend (esize : ESize) | vectorZeroExtend (esize : ESize)
  | vectorZeroUpper | zeroVector
deriving DecidableEq

/-- Any other opcode: a row of `opcodes.inc`. -/
structure OtherOp where
  code : ℕ
  type : IRType
  argTypes : List IRType
  argTypes_le : argTypes.length ≤ 4
  mayHaveSideEffects : Bool
deriving DecidableEq

inductive Opcode
  | void
  | identity
  | pseudo (o : PseudoOp)
  | alu (o : AluOp)
  | vector (o : VectorOp)
  | other (o : OtherOp)
deriving DecidableEq

namespace PseudoOp

def type : PseudoOp → IRType
  | getCarryFromOp | getOverflowFromOp | mostSignificantBit | isZero _ => .u1
  | getGEFromOp => .u32
  | getNZCVFromOp | getNZFromOp => .nzcvFlags
  | getUpperFromOp | getLowerFromOp => .u128

def argType : PseudoOp → IRType
  | mostSignificantBit => .u32
  | isZero w => w.type
  | _ => .opaqueType

end PseudoOp

namespace AluOp

def type : AluOp → IRType
  | leastSignificantWord | mostSignificantWord => .u32
  | leastSignificantHalf => .u16
  | leastSignificantByte => .u8
  | logicalShiftLeft w | logicalShiftRight w | arithmeticShiftRight w | rotateRight w => w.type
  | logicalShiftLeftMasked w | logicalShiftRightMasked w | arithmeticShiftRightMasked w
  | rotateRightMasked w => w.type
  | add w | sub w | mul w | unsignedDiv w | signedDiv w => w.type
  | and w | andNot w | eor w | or w | not w => w.type
  | signExtendByteToWord | signExtendHalfToWord => .u32
  | zeroExtendByteToWord | zeroExtendHalfToWord => .u32
  | signExtendByteToLong | signExtendHalfToLong | signExtendWordToLong => .u64
  | zeroExtendByteToLong | zeroExtendHalfToLong | zeroExtendWordToLong => .u64
  | byteReverseWord => .u32
  | byteReverseHalf => .u16
  | byteReverseDual => .u64

def argTypes : AluOp → List IRType
  | leastSignificantWord | mostSignificantWord => [.u64]
  | leastSignificantHalf | leastSignificantByte => [.u32]
  -- Only the 32-bit shifts take a carry.
  | logicalShiftLeft .w32 | logicalShiftRight .w32 | arithmeticShiftRight .w32
  | rotateRight .w32 => [.u32, .u8, .u1]
  | logicalShiftLeft .w64 | logicalShiftRight .w64 | arithmeticShiftRight .w64
  | rotateRight .w64 => [.u64, .u8]
  | logicalShiftLeftMasked w | logicalShiftRightMasked w | arithmeticShiftRightMasked w
  | rotateRightMasked w => [w.type, w.type]
  | add w | sub w => [w.type, w.type, .u1]
  | mul w | unsignedDiv w | signedDiv w => [w.type, w.type]
  | and w | andNot w | eor w | or w => [w.type, w.type]
  | not w => [w.type]
  | signExtendByteToWord | signExtendByteToLong => [.u8]
  | zeroExtendByteToWord | zeroExtendByteToLong => [.u8]
  | signExtendHalfToWord | signExtendHalfToLong => [.u16]
  | zeroExtendHalfToWord | zeroExtendHalfToLong => [.u16]
  | signExtendWordToLong | zeroExtendWordToLong => [.u32]
  | byteReverseWord => [.u32]
  | byteReverseHalf => [.u16]
  | byteReverseDual => [.u64]

end AluOp

namespace ESize

def type : ESize → IRType
  | e8 => .u8
  | e16 => .u16
  | e32 => .u32
  | e64 => .u64

end ESize

namespace VectorOp

def type : VectorOp → IRType
  | vectorGetElement esize => esize.type
  | _ => .u128

def argTypes : VectorOp → List IRType
  | sha256Hash => [.u128, .u128, .u128, .u1]
  | sha256MessageSchedule0 => [.u128, .u128]
  | sha256MessageSchedule1 => [.u128, .u128, .u128]
  | vectorMultiplySignedWiden _ | vectorMultiplyUnsignedWiden _ => [.u128, .u128]
  | vectorGetElement _ => [.u128, .u8]
  | vectorSetElement esize => [.u128, .u8, esize.type]
  | vectorAdd _ | vectorMultiply _ | vectorEor | vectorOr => [.u128, .u128]
  | vectorExtract => [.u128, .u128, .u8]
  | vectorLogicalShiftLeft _ | vectorLogicalShiftRight _ => [.u128, .u8]
  | vectorRotateWholeVectorRight => [.u128, .u8]
  | vectorSignExtend _ | vectorZeroExtend _ | vectorZeroUpper => [.u128]
  | zeroVector => []

end VectorOp

namespace Opcode

def type : Opcode → IRType
  | void => .void
  | identity => .opaqueType
  | pseudo o => o.type
  | alu o => o.type
  | vector o => o.type
  | other o => o.type

def argTypes : Opcode → List IRType
  | void => []
  | identity => [.opaqueType]
  | pseudo o => [o.argType]
  | alu o => o.argTypes
  | vector o => o.argTypes
  | other o => o.argTypes

def numArgs (op : Opcode) : ℕ := op.argTypes.length

def isAPseudoOperation : Opcode → Bool
  | pseudo _ => true
  | _ => false

def mayGetNZCVFromOp : Opcode → Bool
  | alu (.add _) | alu (.sub _) | alu (.and _) | alu (.andNot _) | alu (.eor _) | alu (.or _)
  | alu (.not _) => true
  | _ => false

def mayHaveSideEffects : Opcode → Bool
  | other o => o.mayHaveSideEffects
  | _ => false

end Opcode

end Umbra.IR
