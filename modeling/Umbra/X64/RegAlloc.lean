import Mathlib.Algebra.Group.Int.Defs
import Mathlib.Algebra.Group.Nat.Defs
import Mathlib.Data.Fin.VecNotation
import Mathlib.Data.List.FinRange
import Umbra.IR.Opcode
import Umbra.Lib.Run
import Umbra.Lib.Unwinding

/-!
The register allocator of the x64 backend.

The allocator keeps a record for every host location.  Two indices spare it the scan over all of
them: a table from the name of an instruction to the location where its value was put last, which
may be stale, and a list of the locations that hold something, which is compacted in place at the
end of every allocation scope.  The records live in a storage that one block's allocator hands to
the next.

The emitted code is left out; emitting it and growing a list of values can throw, which is all the
bookkeeping sees of it.
-/

namespace Umbra.X64

open IR (IRType)

inductive HostLoc
  | gpr (index : Fin 16)
  | xmm (index : Fin 16)
  | flag (index : Fin 6)
  | spill (index : Fin 64)
deriving DecidableEq

namespace HostLoc

def rax : HostLoc := .gpr 0
def rcx : HostLoc := .gpr 1
def rdx : HostLoc := .gpr 2
def rsp : HostLoc := .gpr 4
def rsi : HostLoc := .gpr 6
def rdi : HostLoc := .gpr 7
def r8 : HostLoc := .gpr 8
def r9 : HostLoc := .gpr 9
def r10 : HostLoc := .gpr 10
def r11 : HostLoc := .gpr 11
def r15 : HostLoc := .gpr 15

def isGPR : HostLoc → Bool
  | gpr _ => true
  | _ => false

def isXMM : HostLoc → Bool
  | xmm _ => true
  | _ => false

def isRegister (loc : HostLoc) : Bool := loc.isGPR || loc.isXMM

def bitWidth : HostLoc → ℕ
  | gpr _ => 64
  | xmm _ => 128
  | spill _ => 128
  | flag _ => 1

def nonSpillCount : ℕ := 38

def count : ℕ := nonSpillCount + 64

def all : List HostLoc :=
  (List.finRange 16).map gpr ++ (List.finRange 16).map xmm ++ (List.finRange 6).map flag ++
    (List.finRange 64).map spill

@[simp] theorem mem_all (loc : HostLoc) : loc ∈ all := by
  cases loc <;> simp [all]

/-- The stack pointer and the pointer to the JIT state are never handed out. -/
def Allocatable (loc : HostLoc) : Prop := loc ≠ rsp ∧ loc ≠ r15

instance (loc : HostLoc) : Decidable loc.Allocatable := inferInstanceAs (Decidable (_ ∧ _))

end HostLoc

def getBitWidth : IRType → Option ℕ
  | .u1 => some 8
  | .u8 => some 8
  | .u16 => some 16
  | .u32 => some 32
  | .u64 => some 64
  | .u128 => some 128
  | .nzcvFlags => some 32
  | .a32Reg | .a32ExtReg | .a64Reg | .a64Vec | .coprocInfo | .cond | .void | .table | .accType
  | .opaqueType => none

def isValuelessType (type : IRType) : Bool := type == .table

def canExchange (a b : HostLoc) : Bool := a.isGPR && b.isGPR

namespace RegAlloc

inductive Value (Inst : Type)
  | imm (type : IRType)
  | inst (inst : Inst)

/-- What the allocator reads of a block: its instructions have distinct names below the
instruction count. -/
structure Block (Inst : Type) where
  insts : List Inst
  name : Inst → ℕ
  instructionCount : ℕ
  type : Inst → IRType
  useCount : Inst → BitVec 64
  args : Inst → List (Value Inst)
  name_lt : ∀ v ∈ insts, name v < instructionCount
  name_injective : ∀ v ∈ insts, ∀ w ∈ insts, name v = name w → v = w

def Block.typeOf {Inst : Type} (b : Block Inst) : Value Inst → IRType
  | .imm type => type
  | .inst v => b.type v

end RegAlloc

open RegAlloc (Block Value)

structure HostLocInfo (Inst : Type) where
  isBeingUsedCount : BitVec 64 := 0
  isScratch : Bool := false
  isSetLastUse : Bool := false
  currentReferences : BitVec 64 := 0
  accumulatedUses : BitVec 64 := 0
  totalUses : BitVec 64 := 0
  values : List Inst := []
  maxBitWidth : ℕ := 0
deriving DecidableEq

namespace HostLocInfo

variable {Inst : Type}

def isLocked (i : HostLocInfo Inst) : Bool := i.isBeingUsedCount != 0

def isEmpty (i : HostLocInfo Inst) : Bool := i.isBeingUsedCount == 0 && i.values.isEmpty

def isLastUse (i : HostLocInfo Inst) : Bool :=
  i.isBeingUsedCount == 0 && i.currentReferences == 1 && i.accumulatedUses + 1 == i.totalUses

/-- The functions that assert give nothing where the assertion fails. -/
def setLastUse (i : HostLocInfo Inst) : Option (HostLocInfo Inst) :=
  if i.isLastUse then some { i with isSetLastUse := true } else none

def readLock (i : HostLocInfo Inst) : Option (HostLocInfo Inst) :=
  if i.isScratch then none else some { i with isBeingUsedCount := i.isBeingUsedCount + 1 }

def writeLock (i : HostLocInfo Inst) : Option (HostLocInfo Inst) :=
  if i.isBeingUsedCount = 0 then
    some { i with isBeingUsedCount := i.isBeingUsedCount + 1, isScratch := true }
  else none

def addArgReference (i : HostLocInfo Inst) : Option (HostLocInfo Inst) :=
  let i := { i with currentReferences := i.currentReferences + 1 }
  if i.accumulatedUses + i.currentReferences ≤ i.totalUses then some i else none

def releaseAll (i : HostLocInfo Inst) : HostLocInfo Inst :=
  let i := { i with
    accumulatedUses := i.accumulatedUses + i.currentReferences
    currentReferences := 0
    isSetLastUse := false }
  let i :=
    if i.totalUses = i.accumulatedUses then
      { i with values := [], accumulatedUses := 0, totalUses := 0, maxBitWidth := 0 }
    else i
  { i with isBeingUsedCount := 0, isScratch := false }

def releaseOne (i : HostLocInfo Inst) : HostLocInfo Inst :=
  let i := { i with isBeingUsedCount := i.isBeingUsedCount - 1, isScratch := false }
  if i.currentReferences = 0 then i
  else
    let i := { i with
      accumulatedUses := i.accumulatedUses + 1
      currentReferences := i.currentReferences - 1 }
    if i.currentReferences = 0 then i.releaseAll else i

def containsValue [DecidableEq Inst] (i : HostLocInfo Inst) (inst : Inst) : Bool :=
  inst ∈ i.values

def addValue (b : Block Inst) (i : HostLocInfo Inst) (inst : Inst) :
    Option (HostLocInfo Inst) := do
  let i := if i.isSetLastUse then { i with isSetLastUse := false, values := [] } else i
  let width ← getBitWidth (b.type inst)
  return { i with
    values := i.values ++ [inst]
    totalUses := i.totalUses + b.useCount inst
    maxBitWidth := max i.maxBitWidth width }

end HostLocInfo

structure RegAlloc.Storage (Inst : Type) where
  hostlocInfo : HostLoc → HostLocInfo Inst
  valueLocations : List (Option HostLoc)

/-- `RegAlloc`, and the number of times the emitter and the heap are used before they throw. -/
structure RegAlloc (Inst : Type) extends RegAlloc.Storage Inst where
  activeLocations : List HostLoc
  activeLocationFlags : HostLoc → Bool
  activeLocationCount : ℕ
  reservedStackSpace : BitVec 64
  untilException : ℕ

namespace RegAlloc

variable {Inst : Type}

namespace Storage

def setInfo (st : Storage Inst) (loc : HostLoc) (info : HostLocInfo Inst) : Storage Inst :=
  { st with hostlocInfo := Function.update st.hostlocInfo loc info }

def setIndex (st : Storage Inst) (b : Block Inst) (loc : HostLoc) (v : Inst) : Storage Inst :=
  { st with valueLocations := st.valueLocations.set (b.name v) (some loc) }

def reindex (st : Storage Inst) (b : Block Inst) (loc : HostLoc) : Storage Inst :=
  (st.hostlocInfo loc).values.foldl (fun st v => st.setIndex b loc v) st

def takeInfo (st : Storage Inst) (dest source : HostLoc) : Storage Inst :=
  (st.setInfo source {}).setInfo dest (st.hostlocInfo source)

def swapInfo (st : Storage Inst) (a b : HostLoc) : Storage Inst :=
  (st.setInfo a (st.hostlocInfo b)).setInfo b (st.hostlocInfo a)

end Storage

def active (s : RegAlloc Inst) : List HostLoc := s.activeLocations.take s.activeLocationCount

/-- Why a call does not return: it throws, an assertion ends the program, or the code reads an
empty optional. -/
inductive Stop
  | exception
  | terminated
  | undefinedBehaviour
deriving DecidableEq

abbrev Alloc (Inst : Type) := EStateM Stop (RegAlloc Inst)

def assert (c : Prop) [Decidable c] : Alloc Inst Unit :=
  if c then pure () else throw .terminated

def deref {α : Type} : Option α → Alloc Inst α
  | some a => pure a
  | none => throw .undefinedBehaviour

def mayThrow : Alloc Inst Unit := do
  if (← get).untilException = 0 then throw .exception
  else modify fun s => { s with untilException := s.untilException - 1 }

def modifyStorage (f : Storage Inst → Storage Inst) : Alloc Inst Unit :=
  modify fun s => { s with toStorage := f s.toStorage }

def locInfo (loc : HostLoc) : Alloc Inst (HostLocInfo Inst) := do
  assert loc.Allocatable
  return (← get).hostlocInfo loc

def update (loc : HostLoc) (f : HostLocInfo Inst → Option (HostLocInfo Inst)) :
    Alloc Inst Unit := do
  match f (← locInfo loc) with
  | some info => modifyStorage (·.setInfo loc info)
  | none => throw .terminated

def markActive (loc : HostLoc) : Alloc Inst Unit := do
  if (← get).activeLocationFlags loc then pure ()
  else
    assert ((← get).activeLocationCount < (← get).activeLocations.length)
    modify fun s => { s with
      activeLocationFlags := Function.update s.activeLocationFlags loc true
      activeLocations := s.activeLocations.set s.activeLocationCount loc
      activeLocationCount := s.activeLocationCount + 1 }

/-! ### Emission -/

def isMovableWidth (bitWidth : ℕ) : Bool := bitWidth ∈ [128, 64, 32, 16, 8]

def emitMove (bitWidth : ℕ) (dest source : HostLoc) : Alloc Inst Unit :=
  match dest, source with
  | .xmm _, .xmm _ => mayThrow
  | .gpr _, .gpr _ | .xmm _, .gpr _ | .gpr _, .xmm _ | .gpr _, .spill _ | .spill _, .gpr _ => do
      assert (bitWidth ≠ 128)
      mayThrow
  | .xmm _, .spill _ | .spill _, .xmm _ => do
      assert (isMovableWidth bitWidth)
      mayThrow
  | _, _ => throw .terminated

def emitExchange (a b : HostLoc) : Alloc Inst Unit :=
  if a.isGPR && b.isGPR then mayThrow else throw .terminated

/-- `LoadImmediate`; `GetImmediateAsU64` asserts that the type is that of an integer. -/
def loadImmediate (type : IRType) (loc : HostLoc) : Alloc Inst HostLoc := do
  assert loc.isRegister
  assert (type ∈ [.u1, .u8, .u16, .u32, .u64])
  mayThrow
  return loc

/-! ### Locations -/

section Locations

variable [DecidableEq Inst] (b : Block Inst)

def valueLocation (v : Inst) : Alloc Inst (Option HostLoc) := do
  match (← get).valueLocations[b.name v]? with
  | some (some loc) =>
      let info ← locInfo loc
      return if info.containsValue v then some loc else none
  | some none | none => return none

omit [DecidableEq Inst]

def move (dest source : HostLoc) : Alloc Inst Unit := do
  let bitWidth := (← locInfo source).maxBitWidth
  assert ((← locInfo dest).isEmpty ∧ ¬ (← locInfo source).isLocked)
  assert (bitWidth ≤ dest.bitWidth)
  if (← locInfo source).isEmpty then pure ()
  else
    emitMove bitWidth dest source
    modifyStorage fun st => (st.takeInfo dest source).reindex b dest
    markActive dest

def copyToScratch (bitWidth : ℕ) (dest source : HostLoc) : Alloc Inst Unit := do
  assert ((← locInfo dest).isEmpty ∧ ¬ (← locInfo source).isEmpty)
  emitMove bitWidth dest source

def exchange (x y : HostLoc) : Alloc Inst Unit := do
  assert (¬ (← locInfo x).isLocked ∧ ¬ (← locInfo y).isLocked)
  assert ((← locInfo x).maxBitWidth ≤ y.bitWidth)
  assert ((← locInfo y).maxBitWidth ≤ x.bitWidth)
  if (← locInfo x).isEmpty then move b x y
  else if (← locInfo y).isEmpty then move b y x
  else
    emitExchange x y
    modifyStorage fun st => ((st.swapInfo x y).reindex b x).reindex b y
    markActive x
    markActive y

def findFreeSpill : Alloc Inst HostLoc := do
  let s ← get
  match ((List.finRange 64).map HostLoc.spill).find? fun loc => (s.hostlocInfo loc).isEmpty with
  | some loc => return loc
  | none => throw .terminated

def spillRegister (loc : HostLoc) : Alloc Inst Unit := do
  assert loc.isRegister
  assert (¬ (← locInfo loc).isEmpty)
  assert (¬ (← locInfo loc).isLocked)
  let newLoc ← findFreeSpill
  move b newLoc loc

def moveOutOfTheWay (reg : HostLoc) : Alloc Inst Unit := do
  assert (¬ (← locInfo reg).isLocked)
  if (← locInfo reg).isEmpty then pure () else spillRegister b reg

end Locations

/-- `std::partition`, which orders the two parts as it likes. -/
structure Partition where
  apply : (HostLoc → Bool) → List HostLoc → List HostLoc
  perm : ∀ p l, (apply p l).Perm l
  front : ∀ p l, ∃ yes no, apply p l = yes ++ no ∧ (∀ loc ∈ yes, p loc) ∧ ∀ loc ∈ no, ¬ p loc

def Partition.stable : Partition where
  apply p l := l.filter p ++ l.filter fun loc => !p loc
  perm p l := List.filter_append_perm p l
  front p l := ⟨_, _, rfl, fun loc hloc => (List.mem_filter.mp hloc).2, fun loc hloc => by
    simpa using (List.mem_filter.mp hloc).2⟩

/-- The platform: the calling convention, the register orders of the emitter and the standard
library. -/
structure Platform where
  abiReturn : HostLoc
  abiParam : Fin 4 → HostLoc
  abiAllCallerSave : List HostLoc
  gprOrder : List HostLoc
  xmmOrder : List HostLoc
  partition : Partition

namespace Platform

def anyGpr : List HostLoc := [0, 3, 1, 2, 6, 7, 5, 8, 9, 10, 11, 12, 13, 14].map .gpr

def anyXmm : List HostLoc := (List.finRange 16).tail.map .xmm

open HostLoc in
def windows : Platform where
  abiReturn := rax
  abiParam := ![rcx, rdx, r8, r9]
  abiAllCallerSave := [rax, rcx, rdx, r8, r9, r10, r11] ++ [0, 1, 2, 3, 4, 5].map .xmm
  gprOrder := anyGpr
  xmmOrder := anyXmm
  partition := .stable

open HostLoc in
def systemV : Platform where
  abiReturn := rax
  abiParam := ![rdi, rsi, rdx, rcx]
  abiAllCallerSave :=
    [rax, rcx, rdx, rdi, rsi, r8, r9, r10, r11] ++ (List.finRange 16).map .xmm
  gprOrder := anyGpr
  xmmOrder := anyXmm
  partition := .stable

def otherCallerSave (p : Platform) : List HostLoc :=
  (List.ofFn p.abiParam).foldl List.erase (p.abiAllCallerSave.erase p.abiReturn)

end Platform

/-! ### The calls -/

section Calls

variable (p : Platform)

def selectARegister (desired : List HostLoc) : Alloc Inst HostLoc := do
  assert (desired.length ≤ HostLoc.nonSpillCount)
  match desired with
  | [] => throw .terminated
  | first :: _ =>
      let info ← locInfo first
      if !info.isLocked && info.isEmpty then return first
      else
        desired.forM fun loc => assert loc.Allocatable
        let s ← get
        let unlocked loc := !(s.hostlocInfo loc).isLocked
        let allocatedLocs := desired.countP unlocked
        assert (allocatedLocs ≠ 0)
        let candidates := (p.partition.apply unlocked desired).take allocatedLocs
        match p.partition.apply (fun loc => (s.hostlocInfo loc).isEmpty) candidates with
        | loc :: _ => return loc
        | [] => throw .terminated

variable (b : Block Inst)

def scratchImpl (desired : List HostLoc) : Alloc Inst HostLoc := do
  let location ← selectARegister p desired
  moveOutOfTheWay b location
  markActive location
  update location (·.writeLock)
  return location

variable [DecidableEq Inst]

def useScratchImpl (useValue : Value Inst) (desired : List HostLoc) : Alloc Inst HostLoc :=
  match useValue with
  | .imm type => do loadImmediate type (← scratchImpl p b desired)
  | .inst useInst => do
      let currentLocation ← deref (← valueLocation b useInst)
      match getBitWidth (b.type useInst) with
      | none => throw .terminated
      | some bitWidth =>
          if currentLocation ∈ desired ∧ ¬ (← locInfo currentLocation).isLocked then
            if ¬ (← locInfo currentLocation).isLastUse then moveOutOfTheWay b currentLocation
            else update currentLocation (·.setLastUse)
            markActive currentLocation
            update currentLocation (·.writeLock)
            return currentLocation
          else
            let destination ← selectARegister p desired
            moveOutOfTheWay b destination
            copyToScratch bitWidth destination currentLocation
            markActive destination
            update destination (·.writeLock)
            return destination

def useImpl (useValue : Value Inst) (desired : List HostLoc) : Alloc Inst HostLoc :=
  match useValue with
  | .imm type => do loadImmediate type (← scratchImpl p b desired)
  | .inst useInst => do
      let currentLocation ← deref (← valueLocation b useInst)
      let maxBitWidth := (← locInfo currentLocation).maxBitWidth
      if currentLocation ∈ desired then
        update currentLocation (·.readLock)
        return currentLocation
      else if (← locInfo currentLocation).isLocked then useScratchImpl p b useValue desired
      else
        let destination ← selectARegister p desired
        if maxBitWidth > destination.bitWidth then useScratchImpl p b useValue desired
        else
          if canExchange destination currentLocation then exchange b destination currentLocation
          else
            moveOutOfTheWay b destination
            move b destination currentLocation
          update destination (·.readLock)
          return destination

def defineValueImpl (defInst : Inst) (loc : HostLoc) : Alloc Inst Unit := do
  assert ((← valueLocation b defInst) = none)
  assert (b.name defInst < (← get).valueLocations.length)
  let info ← locInfo loc
  -- a list of values has room for one; only a second one needs memory
  if info.isSetLastUse || info.values.isEmpty then pure () else mayThrow
  match info.addValue b defInst with
  | none => throw .terminated
  | some info =>
      modifyStorage fun st => (st.setInfo loc info).setIndex b loc defInst
      markActive loc

def defineValueImplAs (defInst : Inst) (useInst : Value Inst) : Alloc Inst Unit := do
  assert ((← valueLocation b defInst) = none)
  match useInst with
  | .imm type =>
      let location ← scratchImpl p b p.gprOrder
      defineValueImpl b defInst location
      let _ ← loadImmediate type location
  | .inst v =>
      match ← valueLocation b v with
      | none => throw .terminated
      | some location => defineValueImpl b defInst location

def referToArg (arg : Value Inst) : Alloc Inst Unit :=
  match arg with
  | .imm _ => pure ()
  | .inst v =>
      if isValuelessType (b.type v) then pure ()
      else do
        match ← valueLocation b v with
        | none => throw .terminated
        | some loc => update loc (·.addArgReference)

def getArgumentInfo (inst : Inst) : Alloc Inst (List (Value Inst)) := do
  (b.args inst).forM (referToArg b)
  return b.args inst

def isValueLive (inst : Inst) : Alloc Inst Bool := do
  return (← valueLocation b inst).isSome

def referToArgIfLive (arg : Value Inst) : Alloc Inst Unit :=
  match arg with
  | .imm _ => pure ()
  | .inst v =>
      if isValuelessType (b.type v) then pure ()
      else do
        match ← valueLocation b v with
        | none => pure ()
        | some loc => update loc (·.addArgReference)

def registerPseudoOperation (inst : Inst) : Alloc Inst Unit := do
  assert ((← isValueLive b inst) ∨ b.useCount inst = 0)
  (b.args inst).forM (referToArgIfLive b)

inductive Reg
  | reg (index : Fin 16)
  | xmm (index : Fin 16)

def Reg.hostLoc : Reg → HostLoc
  | .reg i => .gpr i
  | .xmm i => .xmm i

def hostLocToReg64 (loc : HostLoc) : Alloc Inst Reg :=
  match loc with
  | .gpr i => pure (.reg i)
  | _ => throw .terminated

def hostLocToXmm (loc : HostLoc) : Alloc Inst Reg :=
  match loc with
  | .xmm i => pure (.xmm i)
  | _ => throw .terminated

def useGpr (arg : Value Inst) : Alloc Inst Reg := do
  hostLocToReg64 (← useImpl p b arg p.gprOrder)

def useXmm (arg : Value Inst) : Alloc Inst Reg := do
  hostLocToXmm (← useImpl p b arg p.xmmOrder)

def use (arg : Value Inst) (loc : HostLoc) : Alloc Inst Unit := do
  let _ ← useImpl p b arg [loc]

def useScratchGpr (arg : Value Inst) : Alloc Inst Reg := do
  hostLocToReg64 (← useScratchImpl p b arg p.gprOrder)

def useScratchXmm (arg : Value Inst) : Alloc Inst Reg := do
  hostLocToXmm (← useScratchImpl p b arg p.xmmOrder)

def useScratch (arg : Value Inst) (loc : HostLoc) : Alloc Inst Unit := do
  let _ ← useScratchImpl p b arg [loc]

omit [DecidableEq Inst] in
def scratchGpr (desired : List HostLoc) : Alloc Inst Reg := do
  hostLocToReg64 (← scratchImpl p b desired)

omit [DecidableEq Inst] in
def scratchXmm (desired : List HostLoc) : Alloc Inst Reg := do
  hostLocToXmm (← scratchImpl p b desired)

def defineValue (inst : Inst) (reg : Reg) : Alloc Inst Unit := defineValueImpl b inst reg.hostLoc

def defineValueAs (inst : Inst) (arg : Value Inst) : Alloc Inst Unit :=
  defineValueImplAs p b inst arg

omit b [DecidableEq Inst] in
def release (reg : Reg) : Alloc Inst Unit := update reg.hostLoc fun info => some info.releaseOne

def isZeroExtended (type : IRType) : Bool := type ∈ [.u8, .u16, .u32]

def hostCallResult (resultDef : Option Inst) : Alloc Inst Unit :=
  match resultDef with
  | some inst => defineValueImpl b inst p.abiReturn
  | none => pure ()

def hostCallArg (loc : HostLoc) (arg : Option (Value Inst)) : Alloc Inst Unit :=
  match arg with
  | none => pure ()
  | some arg =>
      if b.typeOf arg = .void then pure ()
      else do
        useScratch p b arg loc
        if isZeroExtended (b.typeOf arg) then mayThrow else pure ()

omit [DecidableEq Inst] in
def hostCallNoArg (loc : HostLoc) (arg : Option (Value Inst)) : Alloc Inst Unit :=
  match arg with
  | some _ => pure ()
  | none => discard (scratchGpr p b [loc])

def hostCall (resultDef : Option Inst) (args : Fin 4 → Option (Value Inst)) :
    Alloc Inst Unit := do
  let _ ← scratchGpr p b [p.abiReturn]
  hostCallResult p b resultDef
  (List.finRange 4).forM fun i => hostCallArg p b (p.abiParam i) (args i)
  (List.finRange 4).forM fun i => hostCallNoArg p b (p.abiParam i) (args i)
  p.otherCallerSave.forM fun callerSaved => discard (scratchImpl p b [callerSaved])

omit b [DecidableEq Inst]

def allocStackSpace (stackSpace : BitVec 64) : Alloc Inst Unit := do
  assert (stackSpace.toNat < 2 ^ 31 - 1)
  assert ((← get).reservedStackSpace = 0)
  modify fun s => { s with reservedStackSpace := stackSpace }
  mayThrow

def releaseStackSpace (stackSpace : BitVec 64) : Alloc Inst Unit := do
  assert (stackSpace.toNat < 2 ^ 31 - 1)
  assert ((← get).reservedStackSpace = stackSpace)
  modify fun s => { s with reservedStackSpace := 0 }
  mayThrow

/-- The loop of `EndOfAllocScope` from index `i` on, with the number of turns left; the number of
locations retained. -/
def releaseFrom : (turns i retained : ℕ) → Alloc Inst ℕ
  | 0, _, retained => pure retained
  | turns + 1, i, retained => do
      let loc ← deref (← get).activeLocations[i]?
      update loc fun info => some info.releaseAll
      if (← locInfo loc).isEmpty then
        modify fun s => { s with
          activeLocationFlags := Function.update s.activeLocationFlags loc false }
        releaseFrom turns (i + 1) retained
      else
        modify fun s => { s with activeLocations := s.activeLocations.set retained loc }
        releaseFrom turns (i + 1) (retained + 1)

def endOfAllocScope : Alloc Inst Unit := do
  let retained ← releaseFrom (← get).activeLocationCount 0 0
  modify fun s => { s with activeLocationCount := retained }

def assertNoMoreUses : Alloc Inst Unit := do
  assert ((← get).activeLocationCount = 0)

def construct (b : Block Inst) (storage : Storage Inst) (untilException : ℕ) : RegAlloc Inst where
  hostlocInfo := storage.hostlocInfo
  valueLocations := List.replicate b.instructionCount none
  activeLocations := List.replicate HostLoc.count HostLoc.rax
  activeLocationFlags := fun _ => false
  activeLocationCount := 0
  reservedStackSpace := 0
  untilException := untilException

def destroy : Alloc Inst Unit := do
  (← get).active.forM fun loc => update loc fun _ => some {}

end Calls

/-! ### The emitter and its blocks -/

/-- A call of the emitter.  The flag of an argument that keeps it from being used twice is left
out, so that there are more sequences of calls than in the code. -/
inductive Call (Inst : Type)
  | getArgumentInfo (inst : Inst)
  | registerPseudoOperation (inst : Inst)
  | isValueLive (inst : Inst)
  | useGpr (arg : Value Inst)
  | useXmm (arg : Value Inst)
  | use (arg : Value Inst) (loc : HostLoc)
  | useScratchGpr (arg : Value Inst)
  | useScratchXmm (arg : Value Inst)
  | useScratch (arg : Value Inst) (loc : HostLoc)
  | defineValue (inst : Inst) (reg : Reg)
  | defineValueAs (inst : Inst) (arg : Value Inst)
  | release (reg : Reg)
  | scratchGpr
  | scratchGprAt (loc : HostLoc)
  | scratchXmm
  | scratchXmmAt (loc : HostLoc)
  | hostCall (resultDef : Option Inst) (args : Fin 4 → Option (Value Inst))
  | allocStackSpace (stackSpace : BitVec 64)
  | releaseStackSpace (stackSpace : BitVec 64)
  | endOfAllocScope
  | assertNoMoreUses

variable [DecidableEq Inst] (p : Platform)

def Call.exec (b : Block Inst) : Call Inst → Alloc Inst Unit
  | .getArgumentInfo inst => discard (RegAlloc.getArgumentInfo b inst)
  | .registerPseudoOperation inst => RegAlloc.registerPseudoOperation b inst
  | .isValueLive inst => discard (RegAlloc.isValueLive b inst)
  | .useGpr arg => discard (RegAlloc.useGpr p b arg)
  | .useXmm arg => discard (RegAlloc.useXmm p b arg)
  | .use arg loc => RegAlloc.use p b arg loc
  | .useScratchGpr arg => discard (RegAlloc.useScratchGpr p b arg)
  | .useScratchXmm arg => discard (RegAlloc.useScratchXmm p b arg)
  | .useScratch arg loc => RegAlloc.useScratch p b arg loc
  | .defineValue inst reg => RegAlloc.defineValue b inst reg
  | .defineValueAs inst arg => RegAlloc.defineValueAs p b inst arg
  | .release reg => RegAlloc.release reg
  | .scratchGpr => discard (RegAlloc.scratchGpr p b p.gprOrder)
  | .scratchGprAt loc => discard (RegAlloc.scratchGpr p b [loc])
  | .scratchXmm => discard (RegAlloc.scratchXmm p b p.xmmOrder)
  | .scratchXmmAt loc => discard (RegAlloc.scratchXmm p b [loc])
  | .hostCall resultDef args => RegAlloc.hostCall p b resultDef args
  | .allocStackSpace stackSpace => RegAlloc.allocStackSpace stackSpace
  | .releaseStackSpace stackSpace => RegAlloc.releaseStackSpace stackSpace
  | .endOfAllocScope => RegAlloc.endOfAllocScope
  | .assertNoMoreUses => RegAlloc.assertNoMoreUses

def Call.defines : Call Inst → List Inst
  | .defineValue inst _ | .defineValueAs inst _ => [inst]
  | .hostCall resultDef _ => resultDef.toList
  | _ => []

def Call.releases : Call Inst → List Reg
  | .release reg => [reg]
  | _ => []

inductive Emitter (Inst : Type)
  | idle (storage : Storage Inst)
  | emitting (block : Block Inst) (alloc : RegAlloc Inst)

inductive Action (Inst : Type)
  | construct (block : Block Inst) (untilException : ℕ)
  | call (call : Call Inst)
  | destroy

def destroyed (s : RegAlloc Inst) : Option (Emitter Inst) :=
  match destroy s with
  | .ok _ t => some (.idle t.toStorage)
  | .error _ _ => none

/-- One step of the emitter; nothing where the program ends.  An exception unwinds the emission of
the block, and the destructor runs. -/
def step : Emitter Inst → Action Inst → Option (Emitter Inst)
  | .idle storage, .construct block untilException =>
      some (.emitting block (construct block storage untilException))
  | .emitting block s, .call call =>
      match call.exec p block s with
      | .ok _ t => some (.emitting block t)
      | .error .exception t => destroyed t
      | .error _ _ => none
  | .emitting _ s, .destroy => destroyed s
  | _, _ => none

end RegAlloc

end Umbra.X64
