import Mathlib.Data.Fintype.Pi
import Umbra.IR.Opcode
import Umbra.Lib.Chain

/-!
Instructions of the intermediate representation.

The instructions of a block live in a pool and refer to each other; a name of an instruction is
its place in the pool.  Besides its arguments an instruction has a count of its uses and the head
of a chain of pseudo-operations, both of which every change of an argument must maintain.
-/

namespace Umbra.IR

open Umbra.Lib

inductive Stop
  /-- An assertion fails. -/
  | assertion
  /-- An integer operation of the host whose result C++ does not define. -/
  | undefinedBehaviour
  /-- A walk along pseudo-operations that runs off the end or round in circles. -/
  | lost
deriving DecidableEq

inductive RefKind
  | a32Reg | a32ExtReg | a64Reg | a64Vec | coprocInfo | nzcvFlags | cond | accType
deriving DecidableEq

def RefKind.type : RefKind → IRType
  | a32Reg => .a32Reg
  | a32ExtReg => .a32ExtReg
  | a64Reg => .a64Reg
  | a64Vec => .a64Vec
  | coprocInfo => .coprocInfo
  | nzcvFlags => .nzcvFlags
  | cond => .cond
  | accType => .accType

/-- The values of a type other than `Opaque`; the empty one has type `Void`. -/
inductive Imm
  | empty
  | u1 (x : Bool)
  | u8 (x : BitVec 8)
  | u16 (x : BitVec 16)
  | u32 (x : BitVec 32)
  | u64 (x : BitVec 64)
  | ref (kind : RefKind) (code : ℕ)
deriving DecidableEq

def Imm.type : Imm → IRType
  | empty => .void
  | u1 _ => .u1
  | u8 _ => .u8
  | u16 _ => .u16
  | u32 _ => .u32
  | u64 _ => .u64
  | ref kind _ => kind.type

def Imm.asU64 : Imm → Except Stop (BitVec 64)
  | u1 x => .ok ((BitVec.ofBool x).setWidth 64)
  | u8 x => .ok (x.setWidth 64)
  | u16 x => .ok (x.setWidth 64)
  | u32 x => .ok (x.setWidth 64)
  | u64 x => .ok x
  | _ => .error .assertion

def Imm.asS64 : Imm → Except Stop (BitVec 64)
  | u1 x => .ok ((BitVec.ofBool x).setWidth 64)
  | u8 x => .ok (x.signExtend 64)
  | u16 x => .ok (x.signExtend 64)
  | u32 x => .ok (x.signExtend 64)
  | u64 x => .ok x
  | _ => .error .assertion

inductive Value
  | imm (i : Imm)
  | inst (id : ℕ)
deriving DecidableEq

instance : Inhabited Value := ⟨.imm .empty⟩

/-- `IR::Inst`.  The use count goes below zero where the source's wraps around. -/
structure Inst where
  op : Opcode
  useCount : ℤ
  args : Fin 4 → Value
  nextPseudoop : Option ℕ
deriving DecidableEq

namespace Inst

def ofOpcode (op : Opcode) : Inst := ⟨op, 0, fun _ => .imm .empty, none⟩

def hasUses (i : Inst) : Bool := i.useCount ≠ 0

def hasAssociatedPseudoOperation (i : Inst) : Bool :=
  i.nextPseudoop.isSome && !i.op.isAPseudoOperation

end Inst

/-- The instructions of an `IR::Block`: the pool, how much of it is in use, and the list. -/
structure IRBlock where
  inst : ℕ → Inst
  allocated : ℕ
  instructions : List ℕ

namespace IRBlock

def initial : IRBlock := ⟨fun _ => .ofOpcode .void, 0, []⟩

variable (b : IRBlock)

def modifyInst (a : ℕ) (f : Inst → Inst) : IRBlock :=
  { b with inst := Function.update b.inst a (f (b.inst a)) }

def next (a : ℕ) : Option ℕ := (b.inst a).nextPseudoop

/-! ### Values -/

def resolveWith : ℕ → Value → Value
  | 0, v => v
  | n + 1, .inst a => if (b.inst a).op = .identity then resolveWith n ((b.inst a).args 0) else .inst a
  | _ + 1, .imm i => .imm i

/-- Follow identities to the end, as the recursive functions of `Value` do.  There are no more of
them in a row than there are instructions, unless they go round in a circle. -/
def resolve (v : Value) : Value := b.resolveWith b.allocated v

def isImmediate (v : Value) : Bool :=
  match b.resolve v with
  | .imm _ => true
  | .inst _ => false

def getType (v : Value) : IRType :=
  match b.resolve v with
  | .imm i => i.type
  | .inst a => (b.inst a).op.type

end IRBlock

def Value.getInst : Value → Except Stop ℕ
  | .inst a => .ok a
  | .imm _ => .error .assertion

namespace IRBlock

variable (b : IRBlock)

def getInstRecursive (v : Value) : Except Stop ℕ := do
  let _ ← v.getInst
  (b.resolve v).getInst

def getU1 (v : Value) : Except Stop Bool :=
  match b.resolve v with
  | .imm (.u1 x) => .ok x
  | _ => .error .assertion

def getU8 (v : Value) : Except Stop (BitVec 8) :=
  match b.resolve v with
  | .imm (.u8 x) => .ok x
  | _ => .error .assertion

def getU32 (v : Value) : Except Stop (BitVec 32) :=
  match b.resolve v with
  | .imm (.u32 x) => .ok x
  | _ => .error .assertion

def getU64 (v : Value) : Except Stop (BitVec 64) :=
  match b.resolve v with
  | .imm (.u64 x) => .ok x
  | _ => .error .assertion

def getImmediateAsU64 (v : Value) : Except Stop (BitVec 64) :=
  match b.resolve v with
  | .imm i => i.asU64
  | .inst _ => .error .assertion

def getImmediateAsS64 (v : Value) : Except Stop (BitVec 64) :=
  match b.resolve v with
  | .imm i => i.asS64
  | .inst _ => .error .assertion

def isUnsignedImmediate (v : Value) (value : BitVec 64) : Except Stop Bool :=
  if b.isImmediate v then return (← b.getImmediateAsU64 v) = value else return false

def isSignedImmediate (v : Value) (value : BitVec 64) : Except Stop Bool :=
  if b.isImmediate v then return (← b.getImmediateAsS64 v) = value else return false

def hasAllBitsSet (v : Value) : Except Stop Bool := b.isSignedImmediate v (-1)

def isZero (v : Value) : Except Stop Bool := b.isUnsignedImmediate v 0

/-! ### Instructions -/

def getArg (a : ℕ) (index : Fin 4) : Except Stop Value :=
  match (b.inst a).op.argTypes[index.val]? with
  | none => .error .assertion
  | some argType =>
      if (b.inst a).args index = .imm .empty ∧ argType ≠ .opaqueType then .error .assertion
      else .ok ((b.inst a).args index)

def areAllArgsImmediates (a : ℕ) : Bool :=
  (List.finRange 4).all fun i => (b.inst a).op.numArgs ≤ i || b.isImmediate ((b.inst a).args i)

def findPseudoop (op : Opcode) : ℕ → Option ℕ → Except Stop (Option ℕ)
  | _, none => .ok none
  | 0, some _ => .error .lost
  | n + 1, some p => if (b.inst p).op = op then .ok (some p) else findPseudoop op n (b.next p)

def getAssociatedPseudoOperation (a : ℕ) (op : Opcode) : Except Stop (Option ℕ) := do
  match ← b.findPseudoop op (b.allocated + 1) (b.next a) with
  | none => return none
  | some p => if (← (← b.getArg p 0).getInst) = a then return some p else throw .assertion

def addUse (g : ℕ) (n : ℤ) : IRBlock :=
  b.modifyInst g fun i => { i with useCount := i.useCount + n }

def setNext (a : ℕ) (next : Option ℕ) : IRBlock :=
  b.modifyInst a fun i => { i with nextPseudoop := next }

def setOp (a : ℕ) (op : Opcode) : IRBlock := b.modifyInst a fun i => { i with op := op }

def putArg (a : ℕ) (index : Fin 4) (value : Value) : IRBlock :=
  b.modifyInst a fun i => { i with args := Function.update i.args index value }

def use (a g : ℕ) : Except Stop IRBlock :=
  let b := b.addUse g 1
  if (b.inst a).op.isAPseudoOperation then
    if (b.inst a).op = .pseudo .getNZCVFromOp ∧ (b.inst g).op.mayGetNZCVFromOp = false then
      .error .assertion
    else
      match Chain.lastFrom b.next (b.allocated + 1) g with
      | none => .error .lost
      | some p => .ok (b.setNext p (some a))
  else .ok b

def undoUse (a g : ℕ) : Except Stop IRBlock :=
  let b := b.addUse g (-1)
  if (b.inst a).op.isAPseudoOperation then
    match Chain.predFrom b.next a (b.allocated + 1) g with
    | none => .error .lost
    | some p => .ok ((b.setNext p (b.next a)).setNext a none)
  else .ok b

def useValue (a : ℕ) (v : Value) : Except Stop IRBlock :=
  if b.isImmediate v then .ok b else do b.use a (← v.getInst)

def undoUseValue (a : ℕ) (v : Value) : Except Stop IRBlock :=
  if b.isImmediate v then .ok b else do b.undoUse a (← v.getInst)

def setArg (a : ℕ) (index : Fin 4) (value : Value) : Except Stop IRBlock := do
  match (b.inst a).op.argTypes[index.val]? with
  | none => throw .assertion
  | some argType =>
      if areTypesCompatible (b.getType value) argType then
        let b ← b.undoUseValue a ((b.inst a).args index)
        let b ← b.useValue a value
        return b.putArg a index value
      else throw .assertion

def clearArg (a : ℕ) (index : Fin 4) : Except Stop IRBlock := do
  let b ← b.undoUseValue a ((b.inst a).args index)
  return b.putArg a index (.imm .empty)

def clearArgs (a : ℕ) : Except Stop IRBlock :=
  (List.finRange 4).foldlM (fun b index => b.clearArg a index) b

def invalidate (a : ℕ) : Except Stop IRBlock := return (← b.clearArgs a).setOp a .void

def replaceUsesWith (a : ℕ) (replacement : Value) : Except Stop IRBlock := do
  let b ← b.invalidate a
  let b := b.setOp a .identity
  let b ← b.useValue a replacement
  return b.putArg a 0 replacement

/-- `insert_before`; `none` is the end of the list. -/
def insertBefore (id : ℕ) : Option ℕ → List ℕ → List ℕ
  | none, l => l ++ [id]
  | some _, [] => [id]
  | some point, a :: l => if a = point then id :: a :: l else a :: insertBefore id (some point) l

def alloc (op : Opcode) : IRBlock :=
  { b with inst := Function.update b.inst b.allocated (.ofOpcode op), allocated := b.allocated + 1 }

def prependNewInst (point : Option ℕ) (op : Opcode) (args : List Value) :
    Except Stop (ℕ × IRBlock) := do
  let id := b.allocated
  if args.length ≠ op.numArgs then throw .assertion
  else
    let b ← ((List.finRange 4).zip args).foldlM (fun b arg => b.setArg id arg.1 arg.2) (b.alloc op)
    return (id, { b with instructions := insertBefore id point b.instructions })

/-! ### What the operations do to the code -/

/-- What an instruction does, without its count and its chain. -/
def code (a : ℕ) : Opcode × (Fin 4 → Value) := ((b.inst a).op, (b.inst a).args)

theorem code_modifyInst (a : ℕ) (f : Inst → Inst) :
    (b.modifyInst a f).code =
      Function.update b.code a ((f (b.inst a)).op, (f (b.inst a)).args) := by
  funext c
  by_cases hc : c = a
  · subst hc
    simp [code, modifyInst]
  · simp [code, modifyInst, hc]

theorem code_setOp (a : ℕ) (op : Opcode) :
    (b.setOp a op).code = Function.update b.code a (op, (b.code a).2) := b.code_modifyInst a _

theorem code_putArg (a : ℕ) (index : Fin 4) (v : Value) :
    (b.putArg a index v).code =
      Function.update b.code a ((b.code a).1, Function.update (b.code a).2 index v) :=
  b.code_modifyInst a _

end IRBlock

/-- The same instructions in the same order, up to the use counts and the chains. -/
structure SameCode (b c : IRBlock) : Prop where
  code : c.code = b.code
  allocated : c.allocated = b.allocated
  instructions : c.instructions = b.instructions

namespace SameCode

variable {b c d : IRBlock}

theorem refl (b : IRBlock) : SameCode b b := ⟨rfl, rfl, rfl⟩

theorem trans (h : SameCode b c) (h' : SameCode c d) : SameCode b d :=
  ⟨h'.code.trans h.code, h'.allocated.trans h.allocated, h'.instructions.trans h.instructions⟩

theorem op (h : SameCode b c) (a : ℕ) : (c.inst a).op = (b.inst a).op :=
  congrArg Prod.fst (congrFun h.code a)

theorem args (h : SameCode b c) (a : ℕ) : (c.inst a).args = (b.inst a).args :=
  congrArg Prod.snd (congrFun h.code a)

theorem addUse (b : IRBlock) (g : ℕ) (n : ℤ) : SameCode b (b.addUse g n) :=
  ⟨(b.code_modifyInst g _).trans (Function.update_eq_self g b.code), rfl, rfl⟩

theorem setNext (b : IRBlock) (a : ℕ) (next : Option ℕ) : SameCode b (b.setNext a next) :=
  ⟨(b.code_modifyInst a _).trans (Function.update_eq_self a b.code), rfl, rfl⟩

theorem resolveWith (h : SameCode b c) (n : ℕ) (v : Value) :
    c.resolveWith n v = b.resolveWith n v := by
  induction n generalizing v with
  | zero => rfl
  | succ n ih =>
      cases v with
      | imm i => rfl
      | inst a => simp only [IRBlock.resolveWith, h.op a, h.args a, ih]

theorem resolve (h : SameCode b c) (v : Value) : c.resolve v = b.resolve v := by
  rw [IRBlock.resolve, IRBlock.resolve, h.allocated, h.resolveWith]

theorem isImmediate (h : SameCode b c) (v : Value) : c.isImmediate v = b.isImmediate v := by
  rw [IRBlock.isImmediate, IRBlock.isImmediate, h.resolve]

end SameCode

namespace IRBlock

variable {b c : IRBlock} {a g : ℕ} {v : Value} {index : Fin 4}

theorem sameCode_use (h : b.use a g = .ok c) : SameCode b c := by
  have huse := SameCode.addUse b g 1
  unfold use at h
  simp only at h
  split_ifs at h
  · split at h
    · cases h
    · obtain rfl := Except.ok.inj h
      exact huse.trans (SameCode.setNext _ _ _)
  · obtain rfl := Except.ok.inj h
    exact huse

theorem sameCode_undoUse (h : b.undoUse a g = .ok c) : SameCode b c := by
  have huse := SameCode.addUse b g (-1)
  unfold undoUse at h
  simp only at h
  split_ifs at h
  · split at h
    · cases h
    · obtain rfl := Except.ok.inj h
      exact huse.trans ((SameCode.setNext _ _ _).trans (SameCode.setNext _ _ _))
  · obtain rfl := Except.ok.inj h
    exact huse

theorem sameCode_useValue (h : b.useValue a v = .ok c) : SameCode b c := by
  unfold useValue at h
  split_ifs at h
  · obtain rfl := Except.ok.inj h
    exact .refl b
  · cases v with
    | imm i => cases h
    | inst g => exact sameCode_use h

theorem sameCode_undoUseValue (h : b.undoUseValue a v = .ok c) : SameCode b c := by
  unfold undoUseValue at h
  split_ifs at h
  · obtain rfl := Except.ok.inj h
    exact .refl b
  · cases v with
    | imm i => cases h
    | inst g => exact sameCode_undoUse h

theorem bind_eq_ok {α β : Type} {x : Except Stop α} {f : α → Except Stop β} {r : β} :
    (x >>= f) = .ok r ↔ ∃ y, x = .ok y ∧ f y = .ok r := by
  cases x with
  | error e => simp [bind, Except.bind]
  | ok y => simp [bind, Except.bind]

theorem setArg_eq_ok (h : b.setArg a index v = .ok c) :
    ∃ argType b₁ b₂, (b.inst a).op.argTypes[index.val]? = some argType ∧
      areTypesCompatible (b.getType v) argType = true ∧
      b.undoUseValue a ((b.inst a).args index) = .ok b₁ ∧ b₁.useValue a v = .ok b₂ ∧
      c = b₂.putArg a index v := by
  unfold setArg at h
  split at h
  · cases h
  · rename_i argType htype
    split_ifs at h with hcompatible
    obtain ⟨b₁, hundo, h⟩ := bind_eq_ok.mp h
    obtain ⟨b₂, huse, h⟩ := bind_eq_ok.mp h
    exact ⟨argType, b₁, b₂, htype, hcompatible, hundo, huse, (Except.ok.inj h).symm⟩

theorem clearArg_eq_ok (h : b.clearArg a index = .ok c) :
    ∃ b₁, b.undoUseValue a ((b.inst a).args index) = .ok b₁ ∧
      c = b₁.putArg a index (.imm .empty) := by
  obtain ⟨b₁, hundo, h⟩ := bind_eq_ok.mp h
  exact ⟨b₁, hundo, (Except.ok.inj h).symm⟩

theorem replaceUsesWith_eq_ok (h : b.replaceUsesWith a v = .ok c) :
    ∃ b₁ b₂, b.clearArgs a = .ok b₁ ∧
      ((b₁.setOp a .void).setOp a .identity).useValue a v = .ok b₂ ∧ c = b₂.putArg a 0 v := by
  obtain ⟨b₁', hinvalidate, h⟩ := bind_eq_ok.mp h
  obtain ⟨b₁, hclear, hvoid⟩ := bind_eq_ok.mp hinvalidate
  obtain rfl := Except.ok.inj hvoid
  obtain ⟨b₂, huse, h⟩ := bind_eq_ok.mp h
  exact ⟨b₁, b₂, hclear, huse, (Except.ok.inj h).symm⟩

structure CodeUpdate (b : IRBlock) (a : ℕ) (op : Opcode) (args : Fin 4 → Value) (c : IRBlock) :
    Prop where
  code : c.code = Function.update b.code a (op, args)
  allocated : c.allocated = b.allocated
  instructions : c.instructions = b.instructions

theorem codeUpdate_setArg (h : b.setArg a index v = .ok c) :
    CodeUpdate b a (b.inst a).op (Function.update (b.inst a).args index v) c := by
  obtain ⟨-, b₁, b₂, -, -, hundo, huse, rfl⟩ := setArg_eq_ok h
  have hsame := (sameCode_undoUseValue hundo).trans (sameCode_useValue huse)
  refine ⟨?_, hsame.allocated, hsame.instructions⟩
  rw [code_putArg, hsame.code]
  rfl

theorem codeUpdate_clearArgs_from (l : List (Fin 4))
    (h : l.foldlM (fun b index => b.clearArg a index) b = .ok c) :
    CodeUpdate b a (b.inst a).op
      (fun i => if i ∈ l then .imm .empty else (b.inst a).args i) c := by
  induction l generalizing b with
  | nil =>
      obtain rfl := Except.ok.inj h
      exact ⟨by simp only [List.not_mem_nil, if_false]
                exact (Function.update_eq_self a b.code).symm, rfl, rfl⟩
  | cons index l ih =>
      obtain ⟨d, hclear, h⟩ := bind_eq_ok.mp h
      obtain ⟨b₁, hundo, rfl⟩ := clearArg_eq_ok hclear
      have hsame := sameCode_undoUseValue hundo
      obtain ⟨hcode, hallocated, hinstructions⟩ := ih h
      refine ⟨?_, hallocated.trans hsame.allocated, hinstructions.trans hsame.instructions⟩
      rw [hcode, code_putArg, Function.update_idem, hsame.code]
      congr 2
      · simp [putArg, modifyInst, hsame.op]
      · funext i
        by_cases hi : i = index
        · subst hi
          simp [putArg, modifyInst]
        · simp [putArg, modifyInst, hsame.args, hi]

theorem codeUpdate_clearArgs (h : b.clearArgs a = .ok c) :
    CodeUpdate b a (b.inst a).op (fun _ => .imm .empty) c := by
  simpa using codeUpdate_clearArgs_from _ h

theorem codeUpdate_invalidate (h : b.invalidate a = .ok c) :
    CodeUpdate b a .void (fun _ => .imm .empty) c := by
  obtain ⟨b₁, hclear, h⟩ := bind_eq_ok.mp h
  obtain rfl := Except.ok.inj h
  obtain ⟨hcode, hallocated, hinstructions⟩ := codeUpdate_clearArgs hclear
  exact ⟨by simp [code_setOp, hcode], hallocated, hinstructions⟩

theorem codeUpdate_replaceUsesWith (h : b.replaceUsesWith a v = .ok c) :
    CodeUpdate b a .identity (Function.update (fun _ => .imm .empty) 0 v) c := by
  obtain ⟨b₁, b₂, hclear, huse, rfl⟩ := replaceUsesWith_eq_ok h
  obtain ⟨hcode, hallocated, hinstructions⟩ := codeUpdate_clearArgs hclear
  have hsame := sameCode_useValue huse
  refine ⟨?_, hsame.allocated.trans hallocated, hsame.instructions.trans hinstructions⟩
  simp [code_putArg, hsame.code, code_setOp, hcode]

end IRBlock

end Umbra.IR
