import Mathlib.Data.List.FinRange
import Umbra.A32.Translate
import Umbra.Lib.FaultingProgram
import Umbra.Lib.Lanes

/-!
The load- and store-multiple instructions, executed with accesses that abort.

With `check_halt_on_memory_access` the emitted code leaves after an access that
aborted: what the instructions before it have stored into the guest state stays,
the program counter is put back to the guest instruction, and the guest executes
it again.  The handlers interleave accesses with register writes, so the second
execution can start from registers that the first one has changed.
-/

namespace Umbra.A32

open Umbra.Lib

abbrev Reg := Fin 16

namespace Reg

def pc : Reg := 15
def sp : Reg := 13

end Reg

abbrev GuestMemory := BitVec 32 → BitVec 8

namespace GuestMemory

def readWord (m : GuestMemory) (address : BitVec 32) : BitVec 32 :=
  m (address + 3#32) ++ m (address + 2#32) ++ m (address + 1#32) ++ m address

def writeWord (m : GuestMemory) (address value : BitVec 32) : GuestMemory := fun x =>
  if x = address then value.extractLsb' 0 8
  else if x = address + 1#32 then value.extractLsb' 8 8
  else if x = address + 2#32 then value.extractLsb' 16 8
  else if x = address + 3#32 then value.extractLsb' 24 8
  else m x

end GuestMemory

/-- The guest state the instructions work on.  `tFlag` is the bit of the upper
location descriptor that a load of the program counter writes. -/
structure GuestState where
  regs : Reg → BitVec 32
  tFlag : Bool
  memory : GuestMemory

namespace GuestState

def setReg (s : GuestState) (r : Reg) (v : BitVec 32) : GuestState :=
  { s with regs := Function.update s.regs r v }

@[simp] theorem setReg_regs (s : GuestState) (r : Reg) (v : BitVec 32) :
    (s.setReg r v).regs = Function.update s.regs r v := rfl

@[simp] theorem setReg_tFlag (s : GuestState) (r : Reg) (v : BitVec 32) :
    (s.setReg r v).tFlag = s.tFlag := rfl

@[simp] theorem setReg_memory (s : GuestState) (r : Reg) (v : BitVec 32) :
    (s.setReg r v).memory = s.memory := rfl

end GuestState

namespace ITState

def isInITBlock (it : ITState) : Bool := it.value.extractLsb' 0 4 ≠ 0#4

def isLastInITBlock (it : ITState) : Bool := it.value.extractLsb' 0 4 = 8#4

end ITState

inductive ArchVersion
  | v3 | v4 | v4T | v5TE | v6K | v6T2 | v7 | v8
deriving DecidableEq

/-- `IREmitter`, without the block it emits to.  `passed` is what
`ArmConditionPassed` answers for the instruction. -/
structure IREmitter where
  currentLocation : Location
  arch : ArchVersion
  passed : Bool

abbrev IR := Program GuestState

namespace IREmitter

variable (ir : IREmitter)

def archVersion : ℕ :=
  match ir.arch with
  | .v3 => 3
  | .v4 => 4
  | .v4T => 4
  | .v5TE => 5
  | .v6K => 6
  | .v6T2 => 6
  | .v7 => 7
  | .v8 => 8

def pc : BitVec 32 :=
  ir.currentLocation.pc + if ir.currentLocation.tFlag then 4#32 else 8#32

def getRegister (r : Reg) : IR (BitVec 32) :=
  if r = Reg.pc then pure ir.pc else .silent fun s => (s.regs r, s)

def setRegister (r : Reg) (value : BitVec 32) : IR Unit :=
  .silent fun s => ((), s.setReg r value)

def byteReverseWord (v : BitVec 32) : BitVec 32 :=
  v.extractLsb' 0 8 ++ v.extractLsb' 8 8 ++ v.extractLsb' 16 8 ++ v.extractLsb' 24 8

def ordered (v : BitVec 32) : BitVec 32 :=
  if ir.currentLocation.eFlag then byteReverseWord v else v

def readMemory32 (vaddr : BitVec 32) : IR (BitVec 32) :=
  .access fun s => (ir.ordered (s.memory.readWord vaddr), s)

def writeMemory32 (vaddr value : BitVec 32) : IR Unit :=
  .access fun s => ((), { s with memory := s.memory.writeWord vaddr (ir.ordered value) })

def branchWritePC (value : BitVec 32) : IR Unit :=
  setRegister Reg.pc (value &&& if ir.currentLocation.tFlag then 0xFFFFFFFE#32 else 0xFFFFFFFC#32)

/-- `IREmitter::BXWritePC`: the lowest bit of the value selects the instruction set. -/
def bxWritePC (value : BitVec 32) : IR Unit :=
  .silent fun s => ((), { s.setReg Reg.pc
    (value &&& if value.getLsbD 0 then 0xFFFFFFFE#32 else 0xFFFFFFFC#32) with
      tFlag := value.getLsbD 0 })

def loadWritePC (value : BitVec 32) : IR Unit :=
  if 5 ≤ ir.archVersion then bxWritePC value else ir.branchWritePC value

/-- `IREmitter::UpdateUpperLocationDescriptor`.  Of the descriptor the state has the
T flag only, which is the same at the end of a block as at its start. -/
def updateUpperLocationDescriptor : IR Unit := .silent fun s => ((), s)

end IREmitter

/-! ### The handlers -/

def lowRegisters (list : BitVec 16) : List Reg :=
  (List.finRange 16).filter fun r => r.val ≤ 14 && list.getLsbD r.val

def countOnes (list : BitVec 16) : ℕ := (List.finRange 16).countP fun r => list.getLsbD r.val

def listSize (list : BitVec 16) : BitVec 32 := BitVec.ofNat 32 (4 * countOnes list)

section Helpers

variable (ir : IREmitter)

def loadRegisters : List Reg → BitVec 32 → IR (BitVec 32)
  | [], address => pure address
  | r :: rs, address => do
      ir.readMemory32 address >>= IREmitter.setRegister r
      loadRegisters rs (address + 4#32)

def storeRegisters : List Reg → BitVec 32 → IR (BitVec 32)
  | [], address => pure address
  | r :: rs, address => do
      ir.getRegister r >>= ir.writeMemory32 address
      storeRegisters rs (address + 4#32)

/-- `LDMHelper`; the Thumb one runs `beforePC` before it loads the program counter. -/
def ldmHelper (beforePC : IR Unit) (W : Bool) (n : Reg) (list : BitVec 16)
    (startAddress writebackAddress : BitVec 32) : IR Bool := do
  let address ← loadRegisters ir (lowRegisters list) startAddress
  if W && !list.getLsbD n.val then
    IREmitter.setRegister n writebackAddress
  if list.getLsbD 15 then do
    beforePC
    ir.readMemory32 address >>= ir.loadWritePC
    pure false
  else
    pure true

/-- `STMHelper` for Thumb, whose lists have no program counter.  It returns the
address after the last word. -/
def stmHelperLow (W : Bool) (n : Reg) (list : BitVec 16)
    (startAddress writebackAddress : BitVec 32) : IR (BitVec 32) := do
  let address ← storeRegisters ir (lowRegisters list) startAddress
  if W then
    IREmitter.setRegister n writebackAddress
  pure address

def stmHelper (W : Bool) (n : Reg) (list : BitVec 16)
    (startAddress writebackAddress : BitVec 32) : IR Bool := do
  let address ← stmHelperLow ir W n list startAddress writebackAddress
  if list.getLsbD 15 then
    ir.writeMemory32 address ir.pc
  pure true

/-- What every ARM load checks before it emits anything: `none` is
`UnpredictableInstruction`, and nothing is emitted when the condition fails. -/
def armLoad (W : Bool) (n : Reg) (list : BitVec 16) (body : IR Bool) : Option (IR Bool) :=
  if n = Reg.pc ∨ countOnes list < 1 then none
  else if W ∧ list.getLsbD n.val then none
  else if !ir.passed then some (pure true)
  else some body

def armStore (n : Reg) (list : BitVec 16) (body : IR Bool) : Option (IR Bool) :=
  if n = Reg.pc ∨ countOnes list < 1 then none
  else if !ir.passed then some (pure true)
  else some body

def armLDM (W : Bool) (n : Reg) (list : BitVec 16) : Option (IR Bool) :=
  armLoad ir W n list do
    let startAddress ← ir.getRegister n
    ldmHelper ir (pure ()) W n list startAddress (startAddress + listSize list)

def armLDMDA (W : Bool) (n : Reg) (list : BitVec 16) : Option (IR Bool) :=
  armLoad ir W n list do
    let startAddress := (← ir.getRegister n) - (listSize list - 4#32)
    ldmHelper ir (pure ()) W n list startAddress (startAddress - 4#32)

def armLDMDB (W : Bool) (n : Reg) (list : BitVec 16) : Option (IR Bool) :=
  armLoad ir W n list do
    let startAddress := (← ir.getRegister n) - listSize list
    ldmHelper ir (pure ()) W n list startAddress startAddress

def armLDMIB (W : Bool) (n : Reg) (list : BitVec 16) : Option (IR Bool) :=
  armLoad ir W n list do
    let startAddress := (← ir.getRegister n) + 4#32
    let writebackAddress := (← ir.getRegister n) + listSize list
    ldmHelper ir (pure ()) W n list startAddress writebackAddress

def armSTM (W : Bool) (n : Reg) (list : BitVec 16) : Option (IR Bool) :=
  armStore ir n list do
    let startAddress ← ir.getRegister n
    stmHelper ir W n list startAddress (startAddress + listSize list)

def armSTMDA (W : Bool) (n : Reg) (list : BitVec 16) : Option (IR Bool) :=
  armStore ir n list do
    let startAddress := (← ir.getRegister n) - (listSize list - 4#32)
    stmHelper ir W n list startAddress (startAddress - 4#32)

def armSTMDB (W : Bool) (n : Reg) (list : BitVec 16) : Option (IR Bool) :=
  armStore ir n list do
    let startAddress := (← ir.getRegister n) - listSize list
    stmHelper ir W n list startAddress startAddress

def armSTMIB (W : Bool) (n : Reg) (list : BitVec 16) : Option (IR Bool) :=
  armStore ir n list do
    let startAddress := (← ir.getRegister n) + 4#32
    let writebackAddress := (← ir.getRegister n) + listSize list
    stmHelper ir W n list startAddress writebackAddress

def itBlockCheck : Bool :=
  ir.currentLocation.it.isInITBlock && !ir.currentLocation.it.isLastInITBlock

def thumbLoad (W : Bool) (n : Reg) (list : BitVec 16) (body : IR Bool) : Option (IR Bool) :=
  if n = Reg.pc ∨ countOnes list < 2 then none
  else if list.getLsbD 15 ∧ list.getLsbD 14 then none
  else if W ∧ list.getLsbD n.val then none
  else if list.getLsbD 13 then none
  else if list.getLsbD 15 ∧ itBlockCheck ir then none
  else some body

def thumbStore (W : Bool) (n : Reg) (list : BitVec 16) (body : IR Bool) : Option (IR Bool) :=
  if n = Reg.pc ∨ countOnes list < 2 then none
  else if W ∧ list.getLsbD n.val then none
  else if list.getLsbD 13 then none
  else some body

def thumb32LDMDB (W : Bool) (n : Reg) (list : BitVec 16) : Option (IR Bool) :=
  thumbLoad ir W n list do
    let startAddress := (← ir.getRegister n) - listSize list
    ldmHelper ir IREmitter.updateUpperLocationDescriptor W n list startAddress startAddress

/-- Also `thumb32_POP`, with writeback and the stack pointer as base. -/
def thumb32LDMIA (W : Bool) (n : Reg) (list : BitVec 16) : Option (IR Bool) :=
  thumbLoad ir W n list do
    let startAddress ← ir.getRegister n
    ldmHelper ir IREmitter.updateUpperLocationDescriptor W n list startAddress
      (startAddress + listSize list)

def thumb32STMIA (W : Bool) (n : Reg) (list : BitVec 15) : Option (IR Bool) :=
  thumbStore W n (list.setWidth 16) do
    let startAddress ← ir.getRegister n
    let _ ← stmHelperLow ir W n (list.setWidth 16) startAddress
      (startAddress + listSize (list.setWidth 16))
    pure true

/-- Also `thumb32_PUSH`, with writeback and the stack pointer as base. -/
def thumb32STMDB (W : Bool) (n : Reg) (list : BitVec 15) : Option (IR Bool) :=
  thumbStore W n (list.setWidth 16) do
    let startAddress := (← ir.getRegister n) - listSize (list.setWidth 16)
    let _ ← stmHelperLow ir W n (list.setWidth 16) startAddress startAddress
    pure true

end Helpers

inductive Multiple
  | armLDM (W : Bool) (n : Reg) (list : BitVec 16)
  | armLDMDA (W : Bool) (n : Reg) (list : BitVec 16)
  | armLDMDB (W : Bool) (n : Reg) (list : BitVec 16)
  | armLDMIB (W : Bool) (n : Reg) (list : BitVec 16)
  | armSTM (W : Bool) (n : Reg) (list : BitVec 16)
  | armSTMDA (W : Bool) (n : Reg) (list : BitVec 16)
  | armSTMDB (W : Bool) (n : Reg) (list : BitVec 16)
  | armSTMIB (W : Bool) (n : Reg) (list : BitVec 16)
  | thumb32LDMDB (W : Bool) (n : Reg) (list : BitVec 16)
  | thumb32LDMIA (W : Bool) (n : Reg) (list : BitVec 16)
  | thumb32STMIA (W : Bool) (n : Reg) (list : BitVec 15)
  | thumb32STMDB (W : Bool) (n : Reg) (list : BitVec 15)
deriving DecidableEq

namespace Multiple

def translate (ir : IREmitter) : Multiple → Option (IR Bool)
  | armLDM W n list => A32.armLDM ir W n list
  | armLDMDA W n list => A32.armLDMDA ir W n list
  | armLDMDB W n list => A32.armLDMDB ir W n list
  | armLDMIB W n list => A32.armLDMIB ir W n list
  | armSTM W n list => A32.armSTM ir W n list
  | armSTMDA W n list => A32.armSTMDA ir W n list
  | armSTMDB W n list => A32.armSTMDB ir W n list
  | armSTMIB W n list => A32.armSTMIB ir W n list
  | thumb32LDMDB W n list => A32.thumb32LDMDB ir W n list
  | thumb32LDMIA W n list => A32.thumb32LDMIA ir W n list
  | thumb32STMIA W n list => A32.thumb32STMIA ir W n list
  | thumb32STMDB W n list => A32.thumb32STMDB ir W n list

end Multiple

/-! ### Execution, abort and restart -/

def GuestState.At (s : GuestState) (ir : IREmitter) : Prop :=
  s.regs Reg.pc = ir.currentLocation.pc ∧ s.tFlag = ir.currentLocation.tFlag

/-- `EmitA32CheckMemoryAbort` after an access that aborted. -/
def IREmitter.memoryAbort (ir : IREmitter) (s : GuestState) : GuestState :=
  { s.setReg Reg.pc ir.currentLocation.pc with tFlag := ir.currentLocation.tFlag }

/-- The state after the instruction: where the handler lets translation go on, the
guest is at the next instruction. -/
def IREmitter.leave (ir : IREmitter) (r : Bool × GuestState) : GuestState :=
  if r.1 then r.2.setReg Reg.pc (ir.currentLocation.pc + 4#32) else r.2

namespace Multiple

def execute (i : Multiple) (ir : IREmitter) (s : GuestState) : Option GuestState :=
  (i.translate ir).map fun p => ir.leave (p.run s)

/-- The state the guest is left in when the access number `k` aborts. -/
def aborted (i : Multiple) (ir : IREmitter) (k : ℕ) (s : GuestState) : Option GuestState :=
  (i.translate ir).bind fun p => (p.committed k s).map ir.memoryAbort

/-- After an abort of the access number `k`, executing the instruction again ends
as if there had been no abort. -/
def Restarts (i : Multiple) (ir : IREmitter) (k : ℕ) (s : GuestState) : Prop :=
  ∀ t, i.aborted ir k s = some t → i.execute ir t = i.execute ir s

end Multiple

end Umbra.A32
