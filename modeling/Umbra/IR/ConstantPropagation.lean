import Umbra.Common.HostInt
import Umbra.IR.Microinstruction

/-!
The constant propagation pass.

The pass visits the instructions in order and evaluates on the host what the guest would compute,
where it can.  A folded instruction becomes an `Identity`; its uses stay as they are and read
through it.
-/

namespace Umbra.IR.ConstantPropagation

abbrev Pass := StateT IRBlock (Except Stop)

def query {α : Type} (f : IRBlock → Except Stop α) : Pass α := fun b => return (← f b, b)

def update (f : IRBlock → Except Stop IRBlock) : Pass Unit := fun b => return ((), ← f b)

def host {α : Type} : Option α → Pass α
  | some x => pure x
  | none => throw .undefinedBehaviour

section Shorthands

def doIf (c : Bool) (m : Pass Unit) : Pass Unit := if c then m else pure ()

def doIfSome (p : Option ℕ) (m : ℕ → Pass Unit) : Pass Unit :=
  match p with
  | some p => m p
  | none => pure ()

/-- `&&`, which does not evaluate its right side in vain. -/
def both (c d : Pass Bool) : Pass Bool := do if ← c then d else return false

def getArg (a : ℕ) (index : Fin 4) : Pass Value := query (·.getArg a index)

def isImmediate (v : Value) : Pass Bool := query fun b => return b.isImmediate v

def setArg (a : ℕ) (index : Fin 4) (v : Value) : Pass Unit := update (·.setArg a index v)

def replaceUsesWith (a : ℕ) (v : Value) : Pass Unit := update (·.replaceUsesWith a v)

def areAllArgsImmediates (a : ℕ) : Pass Bool := query fun b => return b.areAllArgsImmediates a

def opcode (a : ℕ) : Pass Opcode := query fun b => return (b.inst a).op

end Shorthands

def immOfWidth : Width → BitVec 64 → Imm
  | .w32, value => .u32 (value.setWidth 32)
  | .w64, value => .u64 value

def replaceUsesWithImm (a : ℕ) (w : Width) (value : BitVec 64) : Pass Unit :=
  replaceUsesWith a (.imm (immOfWidth w value))

def getImmediateAsU64 (v : Value) : Pass (BitVec 64) := query (·.getImmediateAsU64 v)

def getImmediateAsS64 (v : Value) : Pass (BitVec 64) := query (·.getImmediateAsS64 v)

def getU8 (v : Value) : Pass (BitVec 8) := query (·.getU8 v)

def getU1AsU64 (v : Value) : Pass (BitVec 64) :=
  query fun b => return (BitVec.ofBool (← b.getU1 v)).setWidth 64

def isSameWithImmediate (other a : ℕ) : Pass Bool :=
  both (do return (← opcode other) = (← opcode a)) (do isImmediate (← getArg other 1))

def foldCommutative (a : ℕ) (w : Width) (immFn : BitVec 64 → BitVec 64 → BitVec 64) :
    Pass Bool := do
  let lhs ← getArg a 0
  let rhs ← getArg a 1
  match ← isImmediate lhs, ← isImmediate rhs with
  | true, true =>
      replaceUsesWithImm a w (immFn (← getImmediateAsU64 lhs) (← getImmediateAsU64 rhs))
      return false
  | true, false =>
      let rhsInst ← query (·.getInstRecursive rhs)
      if ← isSameWithImmediate rhsInst a then
        let combined := immFn (← getImmediateAsU64 lhs) (← getImmediateAsU64 (← getArg rhsInst 1))
        setArg a 0 (← getArg rhsInst 0)
        setArg a 1 (.imm (immOfWidth w combined))
      else
        setArg a 0 rhs
        setArg a 1 lhs
      return true
  | false, true =>
      let lhsInst ← query (·.getInstRecursive lhs)
      if ← isSameWithImmediate lhsInst a then
        let combined := immFn (← getImmediateAsU64 rhs) (← getImmediateAsU64 (← getArg lhsInst 1))
        setArg a 0 (← getArg lhsInst 0)
        setArg a 1 (.imm (immOfWidth w combined))
      return true
  | false, false => return true

def combineAdd (a : ℕ) (w : Width) (lhsInst : ℕ) (rhs : Value) : Pass Unit := do
  let combined := (← getImmediateAsU64 rhs) + (← getImmediateAsU64 (← getArg lhsInst 1)) +
    (← getU1AsU64 (← getArg lhsInst 2))
  if combined = 0 then
    replaceUsesWith a (← getArg lhsInst 0)
  else
    setArg a 0 (← getArg lhsInst 0)
    setArg a 1 (.imm (immOfWidth w combined))

/-- The branch of `FoldAdd` for an immediate on the right only; `true` if it returns. -/
def foldAddImmediate (a : ℕ) (w : Width) (lhs rhs carry : Value) : Pass Bool := do
  let lhsInst ← query (·.getInstRecursive lhs)
  if ← both (isSameWithImmediate lhsInst a) (do isImmediate (← getArg lhsInst 2)) then
    combineAdd a w lhsInst rhs
    return true
  else if ← both (query (·.isZero rhs)) (query (·.isZero carry)) then
    replaceUsesWith a lhs
    return true
  else return false

def foldAddConstants (a : ℕ) (w : Width) (lhs rhs carry : Value) : Pass Unit := do
  if ← areAllArgsImmediates a then
    replaceUsesWithImm a w ((← getImmediateAsU64 lhs) + (← getImmediateAsU64 rhs) +
      (← getU1AsU64 carry))

/-- `FoldAdd` behind the normalization, which leaves no immediate to the left of anything else. -/
def foldAddNormalized (a : ℕ) (w : Width) : Pass Unit := do
  let lhs ← getArg a 0
  let rhs ← getArg a 1
  let carry ← getArg a 2
  if ← query fun b => return (b.inst a).hasAssociatedPseudoOperation then return
  else if !(← isImmediate lhs) && (← isImmediate rhs) then
    if ← foldAddImmediate a w lhs rhs carry then return
    else foldAddConstants a w lhs rhs carry
  else foldAddConstants a w lhs rhs carry

def foldAdd (a : ℕ) (w : Width) : Pass Unit := do
  let lhs ← getArg a 0
  let rhs ← getArg a 1
  let _ ← getArg a 2
  doIf ((← isImmediate lhs) && !(← isImmediate rhs)) do
    setArg a 0 rhs
    setArg a 1 lhs
  foldAddNormalized a w

def foldAND (a : ℕ) (w : Width) : Pass Unit := do
  if ← foldCommutative a w (· &&& ·) then
    let rhs ← getArg a 1
    if ← query (·.isZero rhs) then replaceUsesWithImm a w 0
    else if ← query (·.hasAllBitsSet rhs) then replaceUsesWith a (← getArg a 0)

def foldByteReverse (a : ℕ) (op : AluOp) : Pass Unit := do
  let operand ← getArg a 0
  if ← isImmediate operand then
    let x ← getImmediateAsU64 operand
    match op with
    | .byteReverseWord =>
        replaceUsesWith a (.imm (.u32 (← host (Host.swapBytes32 (x.setWidth 32)))))
    | .byteReverseHalf =>
        replaceUsesWith a (.imm (.u16 (← host (Host.swapBytes16 (x.setWidth 16)))))
    | _ => replaceUsesWith a (.imm (.u64 (← host (Host.swapBytes64 x))))

def foldDivide (a : ℕ) (w : Width) (isSigned : Bool) : Pass Unit := do
  let rhs ← getArg a 1
  if ← query (·.isZero rhs) then replaceUsesWithImm a w 0
  else
    let lhs ← getArg a 0
    if (← isImmediate lhs) && (← isImmediate rhs) then
      if isSigned then
        let x ← getImmediateAsS64 lhs
        let y ← getImmediateAsS64 rhs
        replaceUsesWithImm a w (← host (Host.signedDivide x y))
      else
        let x ← getImmediateAsU64 lhs
        let y ← getImmediateAsU64 rhs
        replaceUsesWithImm a w (← host (Host.divide x y))
    else if ← query (·.isUnsignedImmediate rhs 1) then replaceUsesWith a lhs

def foldEOR (a : ℕ) (w : Width) : Pass Unit := do
  if ← foldCommutative a w (· ^^^ ·) then
    let rhs ← getArg a 1
    if ← query (·.isZero rhs) then replaceUsesWith a (← getArg a 0)

def foldConversion (a : ℕ) (convert : BitVec 64 → Imm) : Pass Unit := do
  if ← areAllArgsImmediates a then
    let operand ← getArg a 0
    replaceUsesWith a (.imm (convert (← getImmediateAsU64 operand)))

def foldLeastSignificantByte (a : ℕ) : Pass Unit := foldConversion a fun x => .u8 (x.setWidth 8)

def foldLeastSignificantHalf (a : ℕ) : Pass Unit := foldConversion a fun x => .u16 (x.setWidth 16)

def foldLeastSignificantWord (a : ℕ) : Pass Unit := foldConversion a fun x => .u32 (x.setWidth 32)

def foldZeroExtendXToWord (a : ℕ) : Pass Unit := foldConversion a fun x => .u32 (x.setWidth 32)

def foldZeroExtendXToLong (a : ℕ) : Pass Unit := foldConversion a fun x => .u64 x

def foldMostSignificantBit (a : ℕ) : Pass Unit := do
  if ← areAllArgsImmediates a then
    let operand ← getArg a 0
    let shifted ← host (Host.shiftRight (← getImmediateAsU64 operand) 31)
    replaceUsesWith a (.imm (.u1 (shifted ≠ 0)))

def foldMostSignificantWord (a : ℕ) : Pass Unit := do
  let carryInst ← query (·.getAssociatedPseudoOperation a (.pseudo .getCarryFromOp))
  if ← areAllArgsImmediates a then
    let operand ← getArg a 0
    doIfSome carryInst fun carryInst => do
      let x ← getImmediateAsU64 operand
      replaceUsesWith carryInst (.imm (.u1 (((← host (Host.shiftRight x 31)) &&& 1) ≠ 0)))
    let x ← getImmediateAsU64 operand
    replaceUsesWith a (.imm (.u32 ((← host (Host.shiftRight x 32)).setWidth 32)))

def foldMultiply (a : ℕ) (w : Width) : Pass Unit := do
  if ← foldCommutative a w (· * ·) then
    let rhs ← getArg a 1
    if ← query (·.isZero rhs) then replaceUsesWithImm a w 0
    else if ← query (·.isUnsignedImmediate rhs 1) then replaceUsesWith a (← getArg a 0)

def foldNOT (a : ℕ) (w : Width) : Pass Unit := do
  let operand ← getArg a 0
  if ← isImmediate operand then replaceUsesWithImm a w (~~~(← getImmediateAsU64 operand))

def foldOR (a : ℕ) (w : Width) : Pass Unit := do
  if ← foldCommutative a w (· ||| ·) then
    let rhs ← getArg a 1
    if ← query (·.isZero rhs) then replaceUsesWith a (← getArg a 0)

def foldShifts (a : ℕ) : Pass Bool := do
  let carryInst ← query (·.getAssociatedPseudoOperation a (.pseudo .getCarryFromOp))
  let numArgs := (← opcode a).numArgs
  doIf (numArgs = 3 && carryInst.isNone) (setArg a 2 (.imm (.u1 false)))
  let shiftAmount ← getArg a 1
  if ← query (·.isZero shiftAmount) then
    doIfSome carryInst fun carryInst => do replaceUsesWith carryInst (← getArg a 2)
    replaceUsesWith a (← getArg a 0)
    return false
  else
    -- The amount is not zero here.
    doIf (numArgs = 3 && (← isImmediate shiftAmount)) (setArg a 2 (.imm (.u1 false)))
    return (← areAllArgsImmediates a) && carryInst.isNone

def foldSignExtendXToWord (a : ℕ) : Pass Unit := do
  if ← areAllArgsImmediates a then
    let value ← getImmediateAsS64 (← getArg a 0)
    replaceUsesWith a (.imm (.u32 (value.setWidth 32)))

def foldSignExtendXToLong (a : ℕ) : Pass Unit := do
  if ← areAllArgsImmediates a then
    let value ← getImmediateAsS64 (← getArg a 0)
    replaceUsesWith a (.imm (.u64 value))

def foldSub (a : ℕ) (w : Width) : Pass Unit := do
  if (← areAllArgsImmediates a) &&
      !(← query fun b => return (b.inst a).hasAssociatedPseudoOperation) then
    let lhs ← getArg a 0
    let rhs ← getArg a 1
    let carry ← getArg a 2
    replaceUsesWithImm a w ((← getImmediateAsU64 lhs) + ~~~(← getImmediateAsU64 rhs) +
      (← getU1AsU64 carry))

def getOfWidth : (w : Width) → Value → Pass (BitVec w.bits)
  | .w32, v => query (·.getU32 v)
  | .w64, v => query (·.getU64 v)

def foldShift (a : ℕ) (w : Width) (shift : {n : ℕ} → BitVec n → ℤ → Option (BitVec n)) :
    Pass Unit := do
  if ← foldShifts a then
    let x ← getOfWidth w (← getArg a 0)
    let amount ← getU8 (← getArg a 1)
    replaceUsesWithImm a w ((← host (shift x amount.toNat)).setWidth 64)

/-- A shift by an amount of the size of the operand, of which only the lowest bits count: the
masks `0x1f` and `0x3f` of the callers are remainders there. -/
def foldShiftMasked (a : ℕ) (w : Width) (shift : {n : ℕ} → BitVec n → ℕ → Option (BitVec n)) :
    Pass Unit := do
  if ← areAllArgsImmediates a then
    let x ← getOfWidth w (← getArg a 0)
    let amount ← getOfWidth w (← getArg a 1)
    replaceUsesWithImm a w ((← host (shift x amount.toNat)).setWidth 64)

def foldIsZero (a : ℕ) (w : Width) : Pass Unit := do
  if ← areAllArgsImmediates a then
    replaceUsesWith a (.imm (.u1 ((← getOfWidth w (← getArg a 0)) = 0)))

def foldOpcode (a : ℕ) (op : Opcode) : Pass Unit :=
  match op with
  | .alu .leastSignificantWord => foldLeastSignificantWord a
  | .alu .mostSignificantWord => foldMostSignificantWord a
  | .alu .leastSignificantHalf => foldLeastSignificantHalf a
  | .alu .leastSignificantByte => foldLeastSignificantByte a
  | .pseudo .mostSignificantBit => foldMostSignificantBit a
  | .pseudo (.isZero w) => foldIsZero a w
  | .alu (.logicalShiftLeft w) => foldShift a w Host.safeLogicalShiftLeft
  | .alu (.logicalShiftRight w) => foldShift a w Host.safeLogicalShiftRight
  | .alu (.arithmeticShiftRight w) => foldShift a w Host.safeArithmeticShiftRight
  | .alu (.rotateRight w) => foldShift a w fun x amount => Host.rotateRight x amount.toNat
  | .alu (.logicalShiftLeftMasked w) =>
      foldShiftMasked a w fun x amount => Host.shiftLeft x (amount % w.bits)
  | .alu (.logicalShiftRightMasked w) =>
      foldShiftMasked a w fun x amount => Host.shiftRight x (amount % w.bits)
  | .alu (.arithmeticShiftRightMasked w) =>
      foldShiftMasked a w fun x amount => Host.signedShiftRight x (amount % w.bits)
  | .alu (.rotateRightMasked w) => foldShiftMasked a w Host.rotateRight
  | .alu (.add w) => foldAdd a w
  | .alu (.sub w) => foldSub a w
  | .alu (.mul w) => foldMultiply a w
  | .alu (.signedDiv w) => foldDivide a w true
  | .alu (.unsignedDiv w) => foldDivide a w false
  | .alu (.and w) => foldAND a w
  | .alu (.eor w) => foldEOR a w
  | .alu (.or w) => foldOR a w
  | .alu (.not w) => foldNOT a w
  | .alu .signExtendByteToWord | .alu .signExtendHalfToWord => foldSignExtendXToWord a
  | .alu .signExtendByteToLong | .alu .signExtendHalfToLong | .alu .signExtendWordToLong =>
      foldSignExtendXToLong a
  | .alu .zeroExtendByteToWord | .alu .zeroExtendHalfToWord => foldZeroExtendXToWord a
  | .alu .zeroExtendByteToLong | .alu .zeroExtendHalfToLong | .alu .zeroExtendWordToLong =>
      foldZeroExtendXToLong a
  | .alu .byteReverseWord => foldByteReverse a .byteReverseWord
  | .alu .byteReverseHalf => foldByteReverse a .byteReverseHalf
  | .alu .byteReverseDual => foldByteReverse a .byteReverseDual
  | _ => pure ()

def foldInst (a : ℕ) : Pass Unit := do foldOpcode a (← opcode a)

def constantPropagation : Pass Unit := do (← get).instructions.forM foldInst

end Umbra.IR.ConstantPropagation
