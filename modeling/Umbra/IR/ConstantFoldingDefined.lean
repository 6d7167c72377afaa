import Umbra.IR.ConstantPropagation
import Umbra.Lib.Triple

/-!
Host arithmetic of the constant propagation pass.

The pass computes on the host with operands that come from the guest.  Everything it evaluates is
defined in C++, divisions apart.
-/

namespace Umbra.IR.ConstantPropagation

open Umbra.Lib

/-! ### Operations on the block compute nothing -/

def Harmless {α : Type} (x : Except Stop α) : Prop := x ≠ .error .undefinedBehaviour

section Harmless

variable {α β : Type} {b : IRBlock} {a g : ℕ} {v : Value} {index : Fin 4}

@[simp] theorem harmless_ok (x : α) : Harmless (.ok x) := nofun

@[simp] theorem harmless_pure (x : α) : Harmless (pure x : Except Stop α) := nofun

@[simp] theorem harmless_assertion : Harmless (.error .assertion : Except Stop α) := nofun

@[simp] theorem harmless_throw_assertion : Harmless (throw .assertion : Except Stop α) := nofun

@[simp] theorem harmless_lost : Harmless (.error .lost : Except Stop α) := nofun

theorem Harmless.bind {x : Except Stop α} {f : α → Except Stop β} (hx : Harmless x)
    (hf : ∀ y, Harmless (f y)) : Harmless (x >>= f) := by
  cases x with
  | error stop => exact fun h => hx (congrArg _ (Except.error.inj h))
  | ok y => exact hf y

theorem Harmless.foldlM {f : β → α → Except Stop β} (hf : ∀ y x, Harmless (f y x)) (l : List α)
    (y : β) : Harmless (l.foldlM f y) := by
  induction l generalizing y with
  | nil => exact harmless_pure y
  | cons x l ih => exact (hf y x).bind ih

theorem harmless_getInst : Harmless v.getInst := by
  cases v <;> simp [Value.getInst]

theorem harmless_asU64 (i : Imm) : Harmless i.asU64 := by
  cases i <;> simp [Imm.asU64]

theorem harmless_asS64 (i : Imm) : Harmless i.asS64 := by
  cases i <;> simp [Imm.asS64]

theorem harmless_getImmediateAsU64 : Harmless (b.getImmediateAsU64 v) := by
  unfold IRBlock.getImmediateAsU64
  split
  · exact harmless_asU64 _
  · simp

theorem harmless_getImmediateAsS64 : Harmless (b.getImmediateAsS64 v) := by
  unfold IRBlock.getImmediateAsS64
  split
  · exact harmless_asS64 _
  · simp

theorem harmless_isUnsignedImmediate {value : BitVec 64} :
    Harmless (b.isUnsignedImmediate v value) := by
  unfold IRBlock.isUnsignedImmediate
  split
  · exact harmless_getImmediateAsU64.bind fun _ => harmless_pure _
  · simp

theorem harmless_isSignedImmediate {value : BitVec 64} :
    Harmless (b.isSignedImmediate v value) := by
  unfold IRBlock.isSignedImmediate
  split
  · exact harmless_getImmediateAsS64.bind fun _ => harmless_pure _
  · simp

theorem harmless_getInstRecursive : Harmless (b.getInstRecursive v) :=
  harmless_getInst.bind fun _ => harmless_getInst

theorem harmless_getArg : Harmless (b.getArg a index) := by
  unfold IRBlock.getArg
  split
  · simp
  · split <;> simp

theorem harmless_findPseudoop {op : Opcode} (n : ℕ) (p : Option ℕ) :
    Harmless (b.findPseudoop op n p) := by
  induction n generalizing p with
  | zero => cases p <;> simp [IRBlock.findPseudoop]
  | succ n ih =>
      cases p with
      | none => simp [IRBlock.findPseudoop]
      | some p =>
          rw [IRBlock.findPseudoop]
          split
          · simp
          · exact ih _

theorem harmless_getAssociatedPseudoOperation {op : Opcode} :
    Harmless (b.getAssociatedPseudoOperation a op) := by
  refine (harmless_findPseudoop _ _).bind fun p => ?_
  cases p with
  | none => simp
  | some p =>
      refine harmless_getArg.bind fun v => harmless_getInst.bind fun g => ?_
      split <;> simp

theorem harmless_useValue : Harmless (b.useValue a v) := by
  unfold IRBlock.useValue
  split
  · simp
  · refine harmless_getInst.bind fun g => ?_
    simp only [IRBlock.use]
    split
    · split
      · simp
      · split <;> simp
    · simp

theorem harmless_undoUseValue : Harmless (b.undoUseValue a v) := by
  unfold IRBlock.undoUseValue
  split
  · simp
  · refine harmless_getInst.bind fun g => ?_
    simp only [IRBlock.undoUse]
    split
    · split <;> simp
    · simp

theorem harmless_setArg : Harmless (b.setArg a index v) := by
  unfold IRBlock.setArg
  split
  · simp
  · split
    · exact harmless_undoUseValue.bind fun _ => harmless_useValue.bind fun _ => harmless_pure _
    · simp

theorem harmless_replaceUsesWith : Harmless (b.replaceUsesWith a v) := by
  have hclear (b : IRBlock) : Harmless (b.clearArgs a) :=
    Harmless.foldlM (fun b index => harmless_undoUseValue.bind fun _ => harmless_pure _) _ _
  have hinvalidate : Harmless (b.invalidate a) := (hclear b).bind fun _ => harmless_pure _
  exact hinvalidate.bind fun _ => harmless_useValue.bind fun _ => harmless_pure _

end Harmless

/-! ### The folders -/

/-- No integer operation of the host that this part makes is undefined. -/
def Defined {α : Type} (m : Pass α) : Prop :=
  Triple (fun _ => True) m (fun _ _ => True) (· ≠ .undefinedBehaviour)

namespace Defined

variable {α β : Type}

theorem pure (x : α) : Defined (Pure.pure x : Pass α) := Triple.pure fun _ _ => trivial

theorem bind {m : Pass α} {k : α → Pass β} (hm : Defined m) (hk : ∀ x, Defined (k x)) :
    Defined (m >>= k) := Triple.bind hm hk

theorem ite {c : Prop} [Decidable c] {m m' : Pass α} (hm : Defined m) (hm' : Defined m') :
    Defined (if c then m else m') := Triple.ite hm hm'

theorem ne {m : Pass α} (h : Defined m) (b : IRBlock) : m b ≠ .error .undefinedBehaviour := by
  intro hb
  have := h b trivial
  rw [hb] at this
  exact this rfl

theorem of_harmless {m : Pass α} (h : ∀ b, Harmless (m b)) : Defined m := by
  intro b _
  cases hb : m b with
  | error stop => exact fun hstop => h b (by rw [hb, hstop])
  | ok p => trivial

theorem query {f : IRBlock → Except Stop α} (h : ∀ b, Harmless (f b)) :
    Defined (ConstantPropagation.query f) :=
  of_harmless fun b => (h b).bind fun _ => harmless_pure _

theorem update {f : IRBlock → Except Stop IRBlock} (h : ∀ b, Harmless (f b)) :
    Defined (ConstantPropagation.update f) :=
  of_harmless fun b => (h b).bind fun _ => harmless_pure _

theorem doIf {c : Bool} {m : Pass Unit} (h : Defined m) :
    Defined (ConstantPropagation.doIf c m) := h.ite (pure ())

theorem doIfSome {p : Option ℕ} {m : ℕ → Pass Unit} (h : ∀ p, Defined (m p)) :
    Defined (ConstantPropagation.doIfSome p m) := by
  cases p with
  | none => exact pure ()
  | some p => exact h p

theorem both {c d : Pass Bool} (hc : Defined c) (hd : Defined d) :
    Defined (ConstantPropagation.both c d) := hc.bind fun _ => hd.ite (pure false)

theorem host {x : Option α} (h : x.isSome = true) : Defined (ConstantPropagation.host x) := by
  obtain ⟨y, rfl⟩ := Option.isSome_iff_exists.mp h
  exact pure y

end Defined

section Folders

variable {a other : ℕ} {w : Width} {v lhs rhs carry : Value} {index : Fin 4}

theorem defined_getArg : Defined (getArg a index) := .query fun _ => harmless_getArg

theorem defined_isImmediate : Defined (isImmediate v) := .query fun _ => harmless_pure _

theorem defined_opcode : Defined (opcode a) := .query fun _ => harmless_pure _

theorem defined_areAllArgsImmediates : Defined (areAllArgsImmediates a) :=
  .query fun _ => harmless_pure _

theorem defined_hasAssociatedPseudoOperation :
    Defined (query fun b => return (b.inst a).hasAssociatedPseudoOperation) :=
  .query fun _ => harmless_pure _

theorem defined_getAssociatedPseudoOperation {op : Opcode} :
    Defined (query (·.getAssociatedPseudoOperation a op)) :=
  .query fun _ => harmless_getAssociatedPseudoOperation

theorem defined_getImmediateAsU64 : Defined (getImmediateAsU64 v) :=
  .query fun _ => harmless_getImmediateAsU64

theorem defined_getImmediateAsS64 : Defined (getImmediateAsS64 v) :=
  .query fun _ => harmless_getImmediateAsS64

theorem defined_getInstRecursive : Defined (query (·.getInstRecursive v)) :=
  .query fun _ => harmless_getInstRecursive

theorem defined_isZero : Defined (query (·.isZero v)) :=
  .query fun _ => harmless_isUnsignedImmediate

theorem defined_isUnsignedImmediate {value : BitVec 64} :
    Defined (query (·.isUnsignedImmediate v value)) :=
  .query fun _ => harmless_isUnsignedImmediate

theorem defined_hasAllBitsSet : Defined (query (·.hasAllBitsSet v)) :=
  .query fun _ => harmless_isSignedImmediate

theorem defined_setArg : Defined (setArg a index v) := .update fun _ => harmless_setArg

theorem defined_replaceUsesWith : Defined (replaceUsesWith a v) :=
  .update fun _ => harmless_replaceUsesWith

theorem defined_replaceUsesWithImm {value : BitVec 64} :
    Defined (replaceUsesWithImm a w value) := defined_replaceUsesWith

theorem defined_getU1AsU64 : Defined (getU1AsU64 v) := by
  refine .query fun b => ?_
  unfold IRBlock.getU1
  split <;> exact nofun

theorem defined_getU8 : Defined (getU8 v) := by
  refine .query fun b => ?_
  unfold IRBlock.getU8
  split <;> exact nofun

theorem defined_getOfWidth : Defined (getOfWidth w v) := by
  cases w
  all_goals
    refine .query fun b => ?_
    simp only [IRBlock.getU32, IRBlock.getU64]
    split <;> exact nofun

theorem defined_isSameWithImmediate : Defined (isSameWithImmediate other a) :=
  .both (defined_opcode.bind fun _ => defined_opcode.bind fun _ => .pure _)
    (defined_getArg.bind fun _ => defined_isImmediate)

/-- The two assignments with which a fold across two instructions ends. -/
theorem defined_setArgs {value : BitVec 64} {x : Bool} :
    Defined (do
      setArg a 0 (← getArg other 0)
      setArg a 1 (.imm (immOfWidth w value))
      return x) :=
  defined_getArg.bind fun _ => defined_setArg.bind fun _ => defined_setArg.bind fun _ => .pure _

theorem defined_foldCommutative {immFn : BitVec 64 → BitVec 64 → BitVec 64} :
    Defined (foldCommutative a w immFn) := by
  refine defined_getArg.bind fun lhs => defined_getArg.bind fun rhs =>
    defined_isImmediate.bind fun l => defined_isImmediate.bind fun r => ?_
  match l, r with
  | true, true =>
      exact defined_getImmediateAsU64.bind fun _ => defined_getImmediateAsU64.bind fun _ =>
        defined_replaceUsesWithImm.bind fun _ => .pure _
  | true, false =>
      refine defined_getInstRecursive.bind fun _ => defined_isSameWithImmediate.bind fun _ =>
        .ite ?_ ?_
      · exact defined_getImmediateAsU64.bind fun _ => defined_getArg.bind fun _ =>
          defined_getImmediateAsU64.bind fun _ => defined_setArgs
      · exact defined_setArg.bind fun _ => defined_setArg.bind fun _ => .pure _
  | false, true =>
      refine defined_getInstRecursive.bind fun _ => defined_isSameWithImmediate.bind fun _ =>
        .ite ?_ (.pure _)
      exact defined_getImmediateAsU64.bind fun _ => defined_getArg.bind fun _ =>
        defined_getImmediateAsU64.bind fun _ => defined_setArgs
  | false, false => exact .pure _

theorem defined_combineAdd : Defined (combineAdd a w other rhs) :=
  defined_getImmediateAsU64.bind fun _ => defined_getArg.bind fun _ =>
    defined_getImmediateAsU64.bind fun _ => defined_getArg.bind fun _ =>
      defined_getU1AsU64.bind fun _ => .ite (defined_getArg.bind fun _ => defined_replaceUsesWith)
        (defined_getArg.bind fun _ => defined_setArg.bind fun _ => defined_setArg)

theorem defined_foldAddImmediate : Defined (foldAddImmediate a w lhs rhs carry) := by
  refine defined_getInstRecursive.bind fun _ => Defined.bind ?_ fun _ => .ite ?_ ?_
  · exact .both defined_isSameWithImmediate (defined_getArg.bind fun _ => defined_isImmediate)
  · exact defined_combineAdd.bind fun _ => .pure _
  · refine (Defined.both defined_isZero defined_isZero).bind fun _ => .ite ?_ (.pure _)
    exact defined_replaceUsesWith.bind fun _ => .pure _

theorem defined_foldAdd : Defined (foldAdd a w) := by
  have hconstants {lhs rhs carry : Value} : Defined (foldAddConstants a w lhs rhs carry) :=
    defined_areAllArgsImmediates.bind fun _ => .ite
      (defined_getImmediateAsU64.bind fun _ => defined_getImmediateAsU64.bind fun _ =>
        defined_getU1AsU64.bind fun _ => defined_replaceUsesWithImm) (.pure _)
  have hnormalized : Defined (foldAddNormalized a w) :=
    defined_getArg.bind fun _ => defined_getArg.bind fun _ => defined_getArg.bind fun _ =>
      defined_hasAssociatedPseudoOperation.bind fun _ => .ite (.pure _)
        (defined_isImmediate.bind fun _ => defined_isImmediate.bind fun _ => .ite
          (defined_foldAddImmediate.bind fun _ => .ite (.pure _) hconstants) hconstants)
  exact defined_getArg.bind fun _ => defined_getArg.bind fun _ => defined_getArg.bind fun _ =>
    defined_isImmediate.bind fun _ => defined_isImmediate.bind fun _ =>
      (Defined.doIf (defined_setArg.bind fun _ => defined_setArg)).bind fun _ => hnormalized

/-- What the folders of commutative operations do with a neutral element on the right. -/
theorem defined_replaceUsesWithLeft {c : Pass Bool} (hc : Defined c) :
    Defined (do if ← c then replaceUsesWith a (← getArg a 0)) :=
  hc.bind fun _ => .ite (defined_getArg.bind fun _ => defined_replaceUsesWith) (.pure _)

theorem defined_foldAND : Defined (foldAND a w) :=
  defined_foldCommutative.bind fun _ => .ite
    (defined_getArg.bind fun _ => defined_isZero.bind fun _ => .ite defined_replaceUsesWithImm
      (defined_replaceUsesWithLeft defined_hasAllBitsSet)) (.pure _)

theorem defined_foldMultiply : Defined (foldMultiply a w) :=
  defined_foldCommutative.bind fun _ => .ite
    (defined_getArg.bind fun _ => defined_isZero.bind fun _ => .ite defined_replaceUsesWithImm
      (defined_replaceUsesWithLeft defined_isUnsignedImmediate)) (.pure _)

theorem defined_foldEOR : Defined (foldEOR a w) :=
  defined_foldCommutative.bind fun _ => .ite
    (defined_getArg.bind fun _ => defined_replaceUsesWithLeft defined_isZero) (.pure _)

theorem defined_foldOR : Defined (foldOR a w) :=
  defined_foldCommutative.bind fun _ => .ite
    (defined_getArg.bind fun _ => defined_replaceUsesWithLeft defined_isZero) (.pure _)

theorem defined_foldNOT : Defined (foldNOT a w) :=
  defined_getArg.bind fun _ => defined_isImmediate.bind fun _ =>
    .ite (defined_getImmediateAsU64.bind fun _ => defined_replaceUsesWithImm) (.pure _)

theorem defined_foldSub : Defined (foldSub a w) :=
  defined_areAllArgsImmediates.bind fun _ => defined_hasAssociatedPseudoOperation.bind fun _ =>
    .ite (defined_getArg.bind fun _ => defined_getArg.bind fun _ => defined_getArg.bind fun _ =>
      defined_getImmediateAsU64.bind fun _ => defined_getImmediateAsU64.bind fun _ =>
        defined_getU1AsU64.bind fun _ => defined_replaceUsesWithImm) (.pure _)

theorem defined_foldConversion {convert : BitVec 64 → Imm} : Defined (foldConversion a convert) :=
  defined_areAllArgsImmediates.bind fun _ => .ite
    (defined_getArg.bind fun _ => defined_getImmediateAsU64.bind fun _ => defined_replaceUsesWith)
    (.pure _)

theorem defined_foldSignExtend {convert : BitVec 64 → Imm} :
    Defined (do
      if ← areAllArgsImmediates a then
        let value ← getImmediateAsS64 (← getArg a 0)
        replaceUsesWith a (.imm (convert value))) :=
  defined_areAllArgsImmediates.bind fun _ => .ite
    (defined_getArg.bind fun _ => defined_getImmediateAsS64.bind fun _ => defined_replaceUsesWith)
    (.pure _)

theorem defined_foldMostSignificantBit : Defined (foldMostSignificantBit a) :=
  defined_areAllArgsImmediates.bind fun _ => .ite
    (defined_getArg.bind fun _ => defined_getImmediateAsU64.bind fun _ =>
      (Defined.host (Host.isSome_shiftRight (by decide))).bind fun _ => defined_replaceUsesWith)
    (.pure _)

theorem defined_foldMostSignificantWord : Defined (foldMostSignificantWord a) := by
  refine defined_getAssociatedPseudoOperation.bind fun _ =>
    defined_areAllArgsImmediates.bind fun _ => .ite (defined_getArg.bind fun _ => ?_) (.pure _)
  refine (Defined.doIfSome fun _ => ?_).bind fun _ => defined_getImmediateAsU64.bind fun _ => ?_
  · exact defined_getImmediateAsU64.bind fun _ =>
      (Defined.host (Host.isSome_shiftRight (by decide))).bind fun _ => defined_replaceUsesWith
  · exact (Defined.host (Host.isSome_shiftRight (by decide))).bind fun _ =>
      defined_replaceUsesWith

theorem defined_foldByteReverse {op : AluOp} : Defined (foldByteReverse a op) := by
  refine defined_getArg.bind fun _ => defined_isImmediate.bind fun _ =>
    .ite (defined_getImmediateAsU64.bind fun x => ?_) (.pure _)
  split
  · exact (Defined.host (Host.isSome_swapBytes32 _)).bind fun _ => defined_replaceUsesWith
  · exact (Defined.host (Host.isSome_swapBytes16 _)).bind fun _ => defined_replaceUsesWith
  · exact (Defined.host (Host.isSome_swapBytes64 _)).bind fun _ => defined_replaceUsesWith

theorem defined_foldShifts : Defined (foldShifts a) := by
  refine defined_getAssociatedPseudoOperation.bind fun _ => defined_opcode.bind fun _ =>
    (Defined.doIf defined_setArg).bind fun _ => defined_getArg.bind fun _ =>
      defined_isZero.bind fun _ => .ite ?_ ?_
  · refine (Defined.doIfSome fun _ => ?_).bind fun _ => ?_
    · exact defined_getArg.bind fun _ => defined_replaceUsesWith
    · exact defined_getArg.bind fun _ => defined_replaceUsesWith.bind fun _ => .pure _
  · exact defined_isImmediate.bind fun _ => (Defined.doIf defined_setArg).bind fun _ =>
      defined_areAllArgsImmediates.bind fun _ => .pure _

theorem defined_foldShift {shift : {n : ℕ} → BitVec n → ℤ → Option (BitVec n)}
    (hshift : ∀ {n : ℕ} (x : BitVec n) (amount : ℕ), 0 < n → (shift x amount).isSome = true) :
    Defined (foldShift a w shift) := by
  have hw : 0 < w.bits := by cases w <;> decide
  exact defined_foldShifts.bind fun _ => .ite
    (defined_getArg.bind fun _ => defined_getOfWidth.bind fun x => defined_getArg.bind fun _ =>
      defined_getU8.bind fun amount => (Defined.host (hshift x amount.toNat hw)).bind fun _ =>
        defined_replaceUsesWithImm) (.pure _)

theorem defined_foldShiftMasked {shift : {n : ℕ} → BitVec n → ℕ → Option (BitVec n)}
    (hshift : ∀ (x : BitVec w.bits) (amount : ℕ), (shift x amount).isSome = true) :
    Defined (foldShiftMasked a w shift) :=
  defined_areAllArgsImmediates.bind fun _ => .ite
    (defined_getArg.bind fun _ => defined_getOfWidth.bind fun x => defined_getArg.bind fun _ =>
      defined_getOfWidth.bind fun amount =>
        (Defined.host (hshift x amount.toNat)).bind fun _ => defined_replaceUsesWithImm) (.pure _)

end Folders

/-- All cases of the `switch` but the divisions. -/
theorem defined_foldOpcode {a : ℕ} {op : Opcode} (hsigned : ∀ w, op ≠ .alu (.signedDiv w))
    (hunsigned : ∀ w, op ≠ .alu (.unsignedDiv w)) : Defined (foldOpcode a op) := by
  have hbits {w : Width} : 0 < w.bits := by cases w <;> decide
  have hmod {w : Width} (amount : ℕ) : amount % w.bits < w.bits := Nat.mod_lt _ hbits
  match op with
  | .void | .identity | .vector _ | .other _ => exact .pure _
  | .pseudo .mostSignificantBit => exact defined_foldMostSignificantBit
  | .pseudo (.isZero w) =>
      exact defined_areAllArgsImmediates.bind fun _ => .ite (defined_getArg.bind fun _ =>
        defined_getOfWidth.bind fun _ => defined_replaceUsesWith) (.pure _)
  | .pseudo .getCarryFromOp | .pseudo .getOverflowFromOp | .pseudo .getGEFromOp
  | .pseudo .getNZCVFromOp | .pseudo .getNZFromOp | .pseudo .getUpperFromOp
  | .pseudo .getLowerFromOp => exact .pure _
  | .alu o => match o with
    | .leastSignificantWord | .leastSignificantHalf | .leastSignificantByte
    | .zeroExtendByteToWord | .zeroExtendHalfToWord | .zeroExtendByteToLong
    | .zeroExtendHalfToLong | .zeroExtendWordToLong => exact defined_foldConversion
    | .mostSignificantWord => exact defined_foldMostSignificantWord
    | .logicalShiftLeft w =>
        exact defined_foldShift fun x n _ => by exact Host.isSome_safeLogicalShiftLeft x n
    | .logicalShiftRight w =>
        exact defined_foldShift fun x n _ => by exact Host.isSome_safeLogicalShiftRight x n
    | .arithmeticShiftRight w =>
        exact defined_foldShift fun x n _ => by exact Host.isSome_safeArithmeticShiftRight x n
    | .rotateRight w =>
        exact @defined_foldShift a w (fun x n => Host.rotateRight x n.toNat) fun x n h =>
          Host.isSome_rotateRight x (n : ℤ).toNat h
    | .logicalShiftLeftMasked w =>
        exact @defined_foldShiftMasked a w (fun x n => Host.shiftLeft x (n % w.bits)) fun x n =>
          Host.isSome_shiftLeft (hmod n)
    | .logicalShiftRightMasked w =>
        exact @defined_foldShiftMasked a w (fun x n => Host.shiftRight x (n % w.bits)) fun x n =>
          Host.isSome_shiftRight (hmod n)
    | .arithmeticShiftRightMasked w =>
        exact @defined_foldShiftMasked a w (fun x n => Host.signedShiftRight x (n % w.bits))
          fun x n => Host.isSome_signedShiftRight (hmod n)
    | .rotateRightMasked w =>
        exact defined_foldShiftMasked fun x n => Host.isSome_rotateRight x n hbits
    | .add w => exact defined_foldAdd
    | .sub w => exact defined_foldSub
    | .mul w => exact defined_foldMultiply
    | .unsignedDiv w => exact absurd rfl (hunsigned w)
    | .signedDiv w => exact absurd rfl (hsigned w)
    | .and w => exact defined_foldAND
    | .andNot w => exact .pure _
    | .eor w => exact defined_foldEOR
    | .or w => exact defined_foldOR
    | .not w => exact defined_foldNOT
    | .signExtendByteToWord | .signExtendHalfToWord => exact defined_foldSignExtend
    | .signExtendByteToLong | .signExtendHalfToLong | .signExtendWordToLong =>
        exact defined_foldSignExtend
    | .byteReverseWord => exact @defined_foldByteReverse a .byteReverseWord
    | .byteReverseHalf => exact @defined_foldByteReverse a .byteReverseHalf
    | .byteReverseDual => exact @defined_foldByteReverse a .byteReverseDual

end Umbra.IR.ConstantPropagation
