import Umbra.Lib.Interval
import Umbra.Lib.Run

/-!
The A32 translator: `TranslateArm` and `TranslateThumb`.

Both read one guest instruction after the other, hand each to the handler the
decoder finds for it, and stop where the handler, the condition of the next
instruction or single stepping ends the block.  The handlers are parameters.
What the translator depends on is their common shape: a handler may first test
the condition of its instruction and return at once when that fails, and then
emits instructions, sets the terminal and says whether translation goes on.
Every instruction and terminal remembers the guest instruction it was put into
the block for.
-/

namespace Umbra.A32

open Umbra.Lib

inductive Cond
  | eq | ne | cs | cc | mi | pl | vs | vc | hi | ls | ge | lt | gt | le | al | nv
deriving DecidableEq

namespace Cond

def ofBits (bits : BitVec 4) : Cond :=
  match bits.toNat with
  | 0 => eq | 1 => ne | 2 => cs | 3 => cc | 4 => mi | 5 => pl | 6 => vs | 7 => vc
  | 8 => hi | 9 => ls | 10 => ge | 11 => lt | 12 => gt | 13 => le | 14 => al | _ => nv

end Cond

structure ITState where
  value : BitVec 8
deriving DecidableEq

namespace ITState

def cond (it : ITState) : Cond :=
  if it.value = 0#8 then .al else .ofBits (it.value.extractLsb' 4 4)

def advance (it : ITState) : ITState :=
  if it.value.extractLsb' 0 3 = 0#3 then ⟨0#8⟩
  else ⟨it.value.extractLsb' 5 3 ++ it.value.extractLsb' 0 5 <<< 1⟩

end ITState

/-- `A32::LocationDescriptor`: the program counter and the modes that influence
translation. -/
structure Location where
  pc : BitVec 32
  tFlag : Bool
  eFlag : Bool
  it : ITState
  fpscr : BitVec 32
  singleStepping : Bool
deriving DecidableEq

namespace Location

def advancePC (l : Location) (amount : ℕ) : Location :=
  { l with pc := l.pc + BitVec.ofNat 32 amount }

def advanceIT (l : Location) : Location :=
  { l with it := l.it.advance }

end Location

structure Source where
  first : BitVec 32
  length : ℕ
deriving DecidableEq

/-- An IR instruction, as far as the translator looks at it, with the guest
instruction it was emitted for; `none` for the instructions of a hook. -/
structure Inst where
  writesToCPSR : Bool
  source : Option Source
deriving DecidableEq

inductive Terminal
  | linkBlock (next : Location)
  | linkBlockFast (next : Location)
  /-- A terminal set for a guest instruction. -/
  | ofInstruction (source : Source)
  /-- A terminal set by a hook. -/
  | ofHook
deriving DecidableEq

structure TranslatedBlock where
  location : Location
  endLocation : Location
  condition : Cond
  conditionFailedLocation : Option Location
  conditionFailedCycleCount : ℕ
  cycleCount : ℕ
  instructions : List Inst
  terminal : Option Terminal
deriving DecidableEq

namespace TranslatedBlock

def create (location : Location) : TranslatedBlock where
  location := location
  endLocation := location
  condition := .al
  conditionFailedLocation := none
  conditionFailedCycleCount := 0
  cycleCount := 0
  instructions := []
  terminal := none

/-- The guest instructions that something in the block was put there for. -/
def sources (b : TranslatedBlock) : List Source :=
  b.instructions.filterMap (·.source) ++
    match b.terminal with
    | some (.ofInstruction source) => [source]
    | _ => []

/-- The guest range `RegisterNewBasicBlock` registers. -/
def range (b : TranslatedBlock) : Option Interval :=
  Interval.closed b.location.pc.toNat (b.endLocation.pc - 1#32).toNat

end TranslatedBlock

inductive ConditionalState
  | none | break_ | translating | trailing
deriving DecidableEq

/-- `TranslatorVisitor`.  `looked` is a history variable: the bytes of the guest
instructions translation has looked at so far. -/
structure Visitor where
  block : TranslatedBlock
  currentLocation : Location
  condState : ConditionalState
  currentInstructionSize : ℕ
  looked : ℕ
deriving DecidableEq

/-- What a handler does with its instruction: the IR it emits, for each whether it
writes to the CPSR, whether it sets the terminal, and what it returns. -/
structure Body where
  instructions : List Bool
  setsTerm : Bool
  continues : Bool

structure Checked where
  cond : Option Cond
  body : Body

inductive Handler
  /-- Tests its condition with `VFPConditionPassed`. -/
  | vfp (handler : Checked)
  /-- Tests its condition with `ArmConditionPassed`. -/
  | arm (handler : Checked)
  | plain (body : Body)

/-- The decoders.  A handler may look at the location. -/
structure Decoders where
  decodeVFP : BitVec 32 → Option (Location → Checked)
  decodeASIMD : BitVec 32 → Option (Location → Body)
  decodeArm : BitVec 32 → Option (Location → Checked)
  decodeThumb16 : BitVec 16 → Option (Location → Body)
  decodeThumb32 : BitVec 32 → Option (Location → Body)

structure HookEffect where
  instructions : List Bool
  setsTerm : Bool
  proceeds : Bool

structure TranslateCallbacks where
  memoryReadCode : BitVec 32 → Option (BitVec 32)
  preCodeReadHook : Bool → BitVec 32 → TranslatedBlock → HookEffect
  preCodeTranslationHook : Bool → BitVec 32 → TranslatedBlock → HookEffect
  getTicksForCode : Bool → BitVec 32 → BitVec 32 → ℕ

namespace Visitor

def create (location : Location) : Visitor where
  block := .create location
  currentLocation := location
  condState := .none
  currentInstructionSize := 0
  looked := 0

def setTerm (v : Visitor) (terminal : Terminal) : Option Visitor :=
  if v.block.terminal.isSome then none
  else some { v with block := { v.block with terminal := some terminal } }

def put (v : Visitor) (source : Option Source) (flags : List Bool) : Visitor :=
  { v with block := { v.block with
    instructions := v.block.instructions ++ flags.map fun flag => ⟨flag, source⟩ } }

def runBody (v : Visitor) (source : Source) (body : Body) : Option (Bool × Visitor) :=
  let v := v.put (some source) body.instructions
  if body.setsTerm then (v.setTerm (.ofInstruction source)).map fun v => (body.continues, v)
  else some (body.continues, v)

def runHook (v : Visitor) (effect : HookEffect) : Option Visitor :=
  let v := v.put none effect.instructions
  if effect.setsTerm then v.setTerm .ofHook else some v

/-- `RaiseException`: an update of the upper location descriptor, the two
instructions of `BranchWritePC` and the exception itself. -/
def raiseException : Body where
  instructions := [true, false, false, false]
  setsTerm := true
  continues := false

def nextLocation (v : Visitor) : Location :=
  (v.currentLocation.advancePC v.currentInstructionSize).advanceIT

def breakHere (v : Visitor) : Option (Bool × Visitor) :=
  (setTerm { v with condState := .break_ } (.linkBlockFast v.currentLocation)).map fun v =>
    (false, v)

/-- The part of `IsConditionPassed` for a block not made up of conditional
instructions so far. -/
def startCondition (v : Visitor) (cond : Cond) : Option (Bool × Visitor) :=
  if cond = .al then some (true, v)
  else if v.block.instructions ≠ [] then v.breakHere
  else some (true, { v with
    condState := .translating
    block := { v.block with
      condition := cond
      conditionFailedLocation := some v.nextLocation
      conditionFailedCycleCount := v.block.cycleCount + 1 } })

def isConditionPassed (v : Visitor) (source : Source) (cond : Cond) : Option (Bool × Visitor) :=
  if v.condState = .break_ then none
  else if cond = .nv then
    (runBody { v with condState := .break_ } source raiseException).map fun result =>
      (false, result.2)
  else if v.condState = .translating then
    if v.block.conditionFailedLocation ≠ some v.currentLocation ∨ cond = .al then
      startCondition { v with condState := .trailing } cond
    else if cond = v.block.condition then
      some (true, { v with block := { v.block with
        conditionFailedLocation := some v.nextLocation
        conditionFailedCycleCount := v.block.conditionFailedCycleCount + 1 } })
    else v.breakHere
  else v.startCondition cond

/-- `VFPConditionPassed`; `ArmConditionPassed` is `IsConditionPassed` itself. -/
def vfpConditionPassed (v : Visitor) (source : Source) (cond : Cond) : Option (Bool × Visitor) :=
  if v.currentLocation.tFlag then
    if cond = .al then some (true, v) else none
  else v.isConditionPassed source cond

def thumbConditionPassed (v : Visitor) (source : Source) : Option (Bool × Visitor) :=
  v.isConditionPassed source v.currentLocation.it.cond

/-- The common shape of the handlers: return `true` when the condition fails. -/
def runChecked (v : Visitor) (source : Source)
    (passed : Visitor → Source → Cond → Option (Bool × Visitor)) (handler : Checked) :
    Option (Bool × Visitor) :=
  match handler.cond with
  | none => v.runBody source handler.body
  | some cond =>
      match passed v source cond with
      | none => none
      | some (false, v) => some (true, v)
      | some (true, v) => v.runBody source handler.body

def runHandler (v : Visitor) (source : Source) : Handler → Option (Bool × Visitor)
  | .vfp handler => v.runChecked source vfpConditionPassed handler
  | .arm handler => v.runChecked source isConditionPassed handler
  | .plain body => v.runBody source body

/-- `CondCanContinue`, for a state other than `Break`. -/
def condCanContinue (v : Visitor) : Bool :=
  v.condState = .none || v.block.instructions.all fun inst => !inst.writesToCPSR

end Visitor

namespace Visitor

def look (v : Visitor) (size length : ℕ) : Visitor :=
  { v with currentInstructionSize := size, looked := v.looked + length }

end Visitor

structure Turn where
  visitor : Visitor
  shouldContinue : Bool
  again : Bool

namespace Turn

/-- The end of a turn: unless the block breaks here, step over the instruction. -/
def finish (singleStep : Bool) (next : Location) (ticks : ℕ) (shouldContinue : Bool)
    (v : Visitor) : Turn :=
  if v.condState = .break_ then ⟨v, shouldContinue, false⟩
  else
    let v := { v with
      currentLocation := next
      block := { v.block with cycleCount := v.block.cycleCount + ticks } }
    ⟨v, shouldContinue, shouldContinue && v.condCanContinue && !singleStep⟩

end Turn

section Translation

variable (decoders : Decoders) (tcb : TranslateCallbacks)

def armHandler (location : Location) (instruction : BitVec 32) : Handler :=
  match decoders.decodeVFP instruction with
  | some handler => .vfp (handler location)
  | none =>
      match decoders.decodeASIMD instruction with
      | some handler => .plain (handler location)
      | none =>
          match decoders.decodeArm instruction with
          | some handler => .arm (handler location)
          | none => .plain Visitor.raiseException

def armTurn (v : Visitor) : Option Turn := do
  let pc := v.currentLocation.pc
  let hook := tcb.preCodeReadHook false pc v.block
  let v ← v.runHook hook
  if hook.proceeds = false then
    return ⟨v, false, false⟩
  let source : Source := ⟨pc, 4⟩
  let v := v.look 4 source.length
  match tcb.memoryReadCode pc with
  | some instruction =>
      let v ← v.runHook (tcb.preCodeTranslationHook false pc v.block)
      let (shouldContinue, v) ← v.runHandler source
        (armHandler decoders v.currentLocation instruction)
      return .finish v.block.location.singleStepping (v.currentLocation.advancePC 4)
        (tcb.getTicksForCode false pc instruction) shouldContinue v
  | none =>
      let (shouldContinue, v) ← v.runBody source Visitor.raiseException
      return .finish v.block.location.singleStepping (v.currentLocation.advancePC 4)
        1 shouldContinue v

def isThumb16 (firstPart : BitVec 16) : Bool :=
  firstPart < 0xE800#16

def halfword (pc word : BitVec 32) : BitVec 16 :=
  if pc &&& 2#32 ≠ 0#32 then word.extractLsb' 16 16 else word.extractLsb' 0 16

/-- The halfword at an address, through a read of the aligned word around it. -/
def readHalfword (pc : BitVec 32) : Option (BitVec 16) :=
  (tcb.memoryReadCode (pc &&& 0xFFFFFFFC#32)).map (halfword pc)

inductive ThumbInstruction
  | thumb16 (instruction : BitVec 16)
  | thumb32 (instruction : BitVec 32)
  /-- The first halfword cannot be read. -/
  | unreadable
  /-- The first halfword begins a 32-bit instruction whose second cannot be read. -/
  | truncated

/-- `ReadThumbInstruction`; the source returns `nullopt` in both unreadable cases. -/
def readThumbInstruction (pc : BitVec 32) : ThumbInstruction :=
  match readHalfword tcb pc with
  | none => .unreadable
  | some firstPart =>
      if isThumb16 firstPart then .thumb16 firstPart
      else
        match readHalfword tcb (pc + 2#32) with
        | none => .truncated
        | some secondPart => .thumb32 (firstPart ++ secondPart)

/-- `IsUnconditionalInstruction`: `BKPT` and `HLT`. -/
def isUnconditionalInstruction : ThumbInstruction → Bool
  | .thumb16 instruction =>
      instruction &&& 0xFF00#16 = 0xBE00#16 || instruction &&& 0xFFC0#16 = 0xBA80#16
  | _ => false

def convertASIMDInstruction (instruction : BitVec 32) : BitVec 32 :=
  if instruction &&& 0xEF000000#32 = 0xEF000000#32 then
    0xF2000000#32 ||| (instruction.extractLsb' 28 1).setWidth 32 <<< 24 |||
      instruction &&& 0x00FFFFFF#32
  else if instruction &&& 0xFF000000#32 = 0xF9000000#32 then
    0xF4000000#32 ||| instruction &&& 0x00FFFFFF#32
  else 0xF7F0A000#32

def maybeVFPOrASIMDInstruction (instruction : BitVec 32) : Bool :=
  instruction &&& 0xEC000000#32 = 0xEC000000#32 || instruction &&& 0xFF100000#32 = 0xF9000000#32

def thumb32Handler (location : Location) (instruction : BitVec 32) : Handler :=
  match decoders.decodeThumb32 instruction with
  | some handler => .plain (handler location)
  | none => .plain Visitor.raiseException

def thumbHandler (location : Location) : ThumbInstruction → Handler
  | .thumb16 instruction =>
      match decoders.decodeThumb16 instruction with
      | some handler => .plain (handler location)
      | none => .plain Visitor.raiseException
  | .thumb32 instruction =>
      if maybeVFPOrASIMDInstruction instruction then
        match decoders.decodeVFP instruction with
        | some handler => .vfp (handler location)
        | none =>
            match decoders.decodeASIMD (convertASIMDInstruction instruction) with
            | some handler => .plain (handler location)
            | none => thumb32Handler decoders location instruction
      else thumb32Handler decoders location instruction
  | _ => .plain Visitor.raiseException

def ThumbInstruction.size : ThumbInstruction → ℕ
  | .thumb32 _ => 4
  | _ => 2

def ThumbInstruction.length : ThumbInstruction → ℕ
  | .thumb32 _ | .truncated => 4
  | _ => 2

def ThumbInstruction.word : ThumbInstruction → BitVec 32
  | .thumb16 instruction => instruction.setWidth 32
  | .thumb32 instruction => instruction
  | _ => 0#32

def ThumbInstruction.isRead : ThumbInstruction → Bool
  | .thumb16 _ | .thumb32 _ => true
  | _ => false

/-- The guest instruction that is read for a Thumb program counter: it begins at the
halfword the counter points into. -/
def thumbSource (pc : BitVec 32) (instruction : ThumbInstruction) : Source :=
  ⟨pc - BitVec.ofNat 32 (pc.toNat % 2), instruction.length⟩

def runThumb (v : Visitor) (source : Source) (instruction : ThumbInstruction) :
    Option (Bool × Visitor) :=
  if isUnconditionalInstruction instruction then
    v.runHandler source (thumbHandler decoders v.currentLocation instruction)
  else
    match v.thumbConditionPassed source with
    | none => none
    | some (false, v) => some (true, v)
    | some (true, v) => v.runHandler source (thumbHandler decoders v.currentLocation instruction)

def thumbTurn (v : Visitor) : Option Turn := do
  let pc := v.currentLocation.pc
  let hook := tcb.preCodeReadHook true pc v.block
  let v ← v.runHook hook
  if hook.proceeds = false then
    return ⟨v, false, false⟩
  let instruction := readThumbInstruction tcb pc
  let source := thumbSource pc instruction
  let v := v.look instruction.size source.length
  if instruction.isRead then
    let v ← v.runHook (tcb.preCodeTranslationHook true pc v.block)
    let (shouldContinue, v) ← runThumb decoders v source instruction
    return .finish v.block.location.singleStepping v.nextLocation
      (tcb.getTicksForCode true pc instruction.word) shouldContinue v
  else
    let (shouldContinue, v) ← v.runBody source Visitor.raiseException
    return .finish v.block.location.singleStepping v.nextLocation 1 shouldContinue v

/-- A translation loop; `none` when an assertion fails or the fuel runs out. -/
def translateLoop (turn : Visitor → Option Turn) : ℕ → Visitor → Option (Bool × Visitor)
  | 0, _ => none
  | fuel + 1, v =>
      match turn v with
      | none => none
      | some t =>
          if t.again then translateLoop turn fuel t.visitor
          else some (t.shouldContinue, t.visitor)

/-- What follows the loop: link to the next block unless a terminal is due. -/
def endTranslation (shouldContinue : Bool) (v : Visitor) : Option Visitor :=
  let singleStep := v.block.location.singleStepping
  if (v.condState = .translating ∨ v.condState = .trailing ∨ singleStep) ∧ shouldContinue then
    v.setTerm (if singleStep then .linkBlock v.currentLocation
      else .linkBlockFast v.currentLocation)
  else some v

def translateWith (turn : Visitor → Option Turn) (fuel : ℕ) (location : Location) :
    Option Visitor := do
  let (shouldContinue, v) ← translateLoop turn fuel (.create location)
  let v ← endTranslation shouldContinue v
  if v.block.terminal.isNone then none
  else return { v with block := { v.block with endLocation := v.currentLocation } }

def translateArm (fuel : ℕ) (location : Location) : Option Visitor :=
  translateWith (armTurn decoders tcb) fuel location

def translateThumb (fuel : ℕ) (location : Location) : Option Visitor :=
  translateWith (thumbTurn decoders tcb) fuel location

def translate (fuel : ℕ) (location : Location) : Option Visitor :=
  if location.tFlag then translateThumb decoders tcb fuel location
  else translateArm decoders tcb fuel location

end Translation

end Umbra.A32
