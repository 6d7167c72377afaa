import Umbra.Backend.CodeCache

/-!
The native code slab.

A slab owns a code cache, divides its memory into segments that are recycled in
turn, and serves any number of executors.  Requests to drop code are recorded
while some executor is inside emitted code and carried out when the last one
has left; a change that retires entry points also moves the slab to its next
generation.  Every public operation takes the slab mutex, so the functions
below are the atomic steps of the component.
-/

namespace Umbra

abbrev HaltReason := BitVec 32

namespace HaltReason

def cacheInvalidation : HaltReason := 0x00000002#32

def has (hr₁ hr₂ : HaltReason) : Bool := hr₁ &&& hr₂ != 0#32

theorem getLsbD_cacheInvalidation (i : ℕ) :
    cacheInvalidation.getLsbD i = decide (i = 1) := by
  by_cases hi : i < 32
  · revert i
    decide
  · rw [BitVec.getLsbD_of_ge _ _ (by omega)]
    simp
    omega

theorem has_cacheInvalidation_iff (hr : HaltReason) :
    hr.has cacheInvalidation = true ↔ hr.getLsbD 1 = true := by
  have hmask : hr &&& cacheInvalidation = 0#32 ↔ hr.getLsbD 1 = false := by
    constructor
    · intro h
      simpa only [BitVec.getLsbD_and, getLsbD_cacheInvalidation, decide_true, Bool.and_true,
        BitVec.getLsbD_zero] using congrArg (fun w => BitVec.getLsbD w 1) h
    · intro h
      apply BitVec.eq_of_getLsbD_eq
      intro i _
      rw [BitVec.getLsbD_and, getLsbD_cacheInvalidation, BitVec.getLsbD_zero]
      by_cases hi : i = 1
      · rw [hi, h, Bool.false_and]
      · rw [decide_eq_false hi, Bool.and_false]
  rw [has, bne_iff_ne, ne_eq, hmask, Bool.not_eq_false]

@[simp] theorem has_or_cacheInvalidation (hr : HaltReason) :
    has (hr ||| cacheInvalidation) cacheInvalidation = true := by
  rw [has_cacheInvalidation_iff, BitVec.getLsbD_or, getLsbD_cacheInvalidation]
  simp

theorem has_or_left {hr : HaltReason} (other : HaltReason)
    (h : has hr cacheInvalidation = true) : has (hr ||| other) cacheInvalidation = true := by
  rw [has_cacheInvalidation_iff] at h ⊢
  rw [BitVec.getLsbD_or, h, Bool.true_or]

end HaltReason

namespace Backend

open Umbra.Lib Umbra.IR CodeCache

inductive GenerationTransitionKind
  | recycleSegment
  | clearAll
deriving DecidableEq

structure CodeSegment where
  beginPtr : CodePtr
  endPtr : CodePtr
  lastTouch : ℕ
  usedBytes : ℕ
  initialized : Bool
deriving DecidableEq, Inhabited

/-- A registered executor; `state` names its `A32JitState`. -/
structure Executor where
  state : ℕ
  generation : ℕ
  active : Bool
deriving DecidableEq

structure BlockDescriptor where
  entrypoint : CodePtr
  size : ℕ
  generation : ℕ
  newlyEmitted : Bool
deriving DecidableEq

/-- The state of a slab.  `haltReason` holds the halt words of the executors'
states, which the slab and the executors' own `Jit`s both write. -/
structure Slab (C : Type) where
  cache : C
  executors : List Executor
  haltReason : ℕ → HaltReason
  codeSegments : List CodeSegment
  codeSegmentsBegin : CodePtr
  regularSegmentBytes : ℕ
  currentSegment : ℕ
  liveAllocatedCodeBytes : ℕ
  activeExecutions : ℕ
  segmentTouchClock : ℕ
  segmentRecycles : ℕ
  recycledDescriptors : ℕ
  recycledCodeBytes : ℕ
  fullGenerationClears : ℕ
  currentGeneration : ℕ
  pendingGeneration : ℕ
  pendingRanges : IntervalSet
  sharedMode : Bool
  clearPending : Bool
  pendingTransition : GenerationTransitionKind

namespace Slab

variable {C S : Type} [CodeCache C S]

/-! ### Segments -/

def resetCodeSegments (s : Slab C) : Slab C :=
  let cleared := s.codeSegments.map fun segment =>
    { segment with lastTouch := 0, usedBytes := 0, initialized := false }
  let s := { s with
    codeSegments := cleared, currentSegment := 0, segmentTouchClock := 1,
    liveAllocatedCodeBytes := 0 }
  match cleared with
  | [] => s
  | front :: rest =>
      { s with
        codeSegments := { front with initialized := true, lastTouch := 1 } :: rest
        cache := setCurrentCodePtr s.cache front.beginPtr }

/-- `initialize_code_segments`, given the first usable address and the number of
usable bytes behind it.  The latter is a `size_t`, which wraps around where the
prelude leaves no room. -/
def initializeCodeSegments (s : Slab C) (begin_ : CodePtr) (usableBytes : ℕ) : Slab C :=
  let minimumSegmentBytes := 16 * 1024 * 1024
  let targetSegmentBytes := 32 * 1024 * 1024
  let maximumSegmentCount := 48
  let alignment := 4096
  let targetCount :=
    max 1 ((usableBytes + targetSegmentBytes - 1) % 2 ^ 64 / targetSegmentBytes)
  let maximumByMinimum := max 1 (usableBytes / minimumSegmentBytes)
  let segmentCount := min maximumSegmentCount (min targetCount maximumByMinimum)
  let aligned := usableBytes / segmentCount / alignment * alignment
  let segmentBytes := if aligned = 0 then usableBytes else aligned
  resetCodeSegments { s with
    codeSegmentsBegin := begin_
    regularSegmentBytes := segmentBytes
    codeSegments := (List.range segmentCount).map fun index =>
      { beginPtr := begin_ + segmentBytes * index
        endPtr := if index + 1 = segmentCount then (begin_ + usableBytes) % 2 ^ 64
          else begin_ + segmentBytes * index + segmentBytes
        lastTouch := 0, usedBytes := 0, initialized := false } }

def create (cache : C) (begin_ : CodePtr) (usableBytes : ℕ) (shared : Bool) : Slab C :=
  initializeCodeSegments
    { cache
      executors := [], haltReason := fun _ => 0#32
      codeSegments := [], codeSegmentsBegin := 0, regularSegmentBytes := 0
      currentSegment := 0, liveAllocatedCodeBytes := 0, activeExecutions := 0
      segmentTouchClock := 0, segmentRecycles := 0, recycledDescriptors := 0
      recycledCodeBytes := 0, fullGenerationClears := 0
      currentGeneration := 1, pendingGeneration := 1, pendingRanges := []
      sharedMode := shared, clearPending := false, pendingTransition := .clearAll }
    begin_ usableBytes

def codeSegmentIndex (s : Slab C) (address : CodePtr) : Option ℕ :=
  match s.codeSegments.getLast? with
  | none => none
  | some back =>
      if s.regularSegmentBytes = 0 ∨ address < s.codeSegmentsBegin ∨ back.endPtr ≤ address then
        none
      else
        some (min ((address - s.codeSegmentsBegin) / s.regularSegmentBytes)
          (s.codeSegments.length - 1))

def touchCodeSegment (s : Slab C) (entrypoint : CodePtr) : Slab C :=
  match s.codeSegmentIndex entrypoint with
  | none => s
  | some index =>
      { s with
        segmentTouchClock := s.segmentTouchClock + 1
        codeSegments := s.codeSegments.modify index
          fun segment => { segment with lastTouch := s.segmentTouchClock + 1 } }

def activeSegment (s : Slab C) : CodeSegment := s.codeSegments.getD s.currentSegment default

def updateActiveSegmentUsage (s : Slab C) : Slab C :=
  let segment := s.activeSegment
  let current := currentCodePtr s.cache
  let occupied := min current segment.endPtr - segment.beginPtr
  if s.codeSegments = [] ∨ occupied ≤ segment.usedBytes then s
  else
    { s with
      liveAllocatedCodeBytes := s.liveAllocatedCodeBytes + (occupied - segment.usedBytes)
      codeSegments := s.codeSegments.modify s.currentSegment
        fun segment => { segment with usedBytes := occupied } }

def activeSegmentSpaceRemaining (s : Slab C) : ℕ :=
  s.activeSegment.endPtr - currentCodePtr s.cache

/-- `select_recycle_segment`: the next segment never used so far, or else the one
other than the active whose last touch is oldest. -/
def selectRecycleSegment (s : Slab C) : ℕ :=
  let n := s.codeSegments.length
  let segment := fun index => s.codeSegments.getD index default
  if n ≤ 1 then 0
  else
    match (List.range' 1 n).find?
        fun offset => !(segment ((s.currentSegment + offset) % n)).initialized with
    | some offset => (s.currentSegment + offset) % n
    | none =>
        (List.range n).foldl
          (fun victim index =>
            if index = s.currentSegment then victim
            else if (segment index).lastTouch < (segment victim).lastTouch then index
            else victim)
          (if s.currentSegment = 0 then 1 else 0)

def recycleVictim (s : Slab C) : CodeSegment :=
  s.codeSegments.getD s.selectRecycleSegment default

def recycleCodeSegment (s : Slab C) : RetiredCodeStats × Slab C :=
  let victim := s.selectRecycleSegment
  let segment := s.recycleVictim
  let (retired, cache) := retireCodeRange s.cache segment.beginPtr segment.endPtr
  (retired, { s with
    liveAllocatedCodeBytes := s.liveAllocatedCodeBytes - segment.usedBytes
    recycledDescriptors := s.recycledDescriptors + retired.descriptors
    recycledCodeBytes := s.recycledCodeBytes + retired.codeBytes
    segmentRecycles := s.segmentRecycles + 1
    segmentTouchClock := s.segmentTouchClock + 1
    codeSegments := s.codeSegments.modify victim fun segment =>
      { segment with
        initialized := true, lastTouch := s.segmentTouchClock + 1, usedBytes := 0 }
    currentSegment := victim
    cache := setCurrentCodePtr cache segment.beginPtr })

/-! ### Executors and requests -/

def signalActiveExecutors (s : Slab C) : Slab C :=
  { s with
    haltReason := fun id =>
      if s.executors.any fun e => e.state == id && e.active then
        s.haltReason id ||| HaltReason.cacheInvalidation
      else s.haltReason id }

def publishGeneration (s : Slab C) : Slab C :=
  { s with currentGeneration := s.pendingGeneration }

/-- The `ClearAll` branch of `finish_pending_invalidation`. -/
def finishClearAll (s : Slab C) : Slab C :=
  let s := resetCodeSegments { s with cache := clearCache s.cache }
  publishGeneration { s with fullGenerationClears := s.fullGenerationClears + 1 }

def invalidatePendingRanges (s : Slab C) : Slab C :=
  if s.pendingRanges = [] then s
  else { s with cache := invalidateCacheRanges s.cache s.pendingRanges }

def finishRecycle (s : Slab C) : Slab C :=
  let (retired, s) := s.invalidatePendingRanges.recycleCodeSegment
  if retired.descriptors ≠ 0 ∨ retired.codeBytes ≠ 0 then s.publishGeneration else s

def finishPendingInvalidation (s : Slab C) : Slab C :=
  if s.activeExecutions ≠ 0 then s
  else if s.clearPending then
    let s := match s.pendingTransition with
      | .clearAll => s.finishClearAll
      | .recycleSegment => s.finishRecycle
    { s with pendingRanges := [], clearPending := false }
  else { s.invalidatePendingRanges with pendingRanges := [] }

def finishPendingDirectLinkPublication (s : Slab C) : Slab C :=
  if s.activeExecutions ≠ 0 then s else { s with cache := publishLinks s.cache }

/-- The part of `request_generation_transition` that records the request. -/
def recordTransition (s : Slab C) (kind : GenerationTransitionKind) : Slab C :=
  if s.clearPending = false then
    { s with
      clearPending := true
      pendingGeneration := s.currentGeneration + 1
      pendingTransition := kind
      pendingRanges := if kind = .clearAll then [] else s.pendingRanges }
  else if kind = .clearAll then
    { s with pendingTransition := kind, pendingRanges := [] }
  else s

def requestGenerationTransition (s : Slab C) (kind : GenerationTransitionKind)
    (finish : Bool) : Slab C :=
  let s := (s.recordTransition kind).signalActiveExecutors
  if finish then s.finishPendingInvalidation else s

def clearCache (s : Slab C) : Slab C := s.requestGenerationTransition .clearAll true

def recycleCache (s : Slab C) : Slab C := s.requestGenerationTransition .recycleSegment true

def requestCacheClear (s : Slab C) : Slab C := s.requestGenerationTransition .clearAll false

def maxAddress : ℕ := 2 ^ 32 - 1

/-- `InclusiveRangeEnd`: the last address of a nonempty range, cut off at the top
of the address space. -/
def inclusiveRangeEnd (startAddress length : ℕ) : ℕ :=
  if length - 1 > maxAddress - startAddress then maxAddress else startAddress + (length - 1)

def requestRangeTransition (s : Slab C) (startAddress length : ℕ) (finish : Bool) : Slab C :=
  if length = 0 ∨ (s.clearPending = true ∧ s.pendingTransition = .clearAll) then s
  else
    let range := Interval.closed startAddress (inclusiveRangeEnd startAddress length)
    let s := { s with pendingRanges := range.toList.foldl IntervalSet.add s.pendingRanges }
    let s := s.signalActiveExecutors
    if finish then s.finishPendingInvalidation else s

def invalidateCacheRange (s : Slab C) (startAddress length : ℕ) : Slab C :=
  s.requestRangeTransition startAddress length true

def requestCacheRange (s : Slab C) (startAddress length : ℕ) : Slab C :=
  s.requestRangeTransition startAddress length false

def servicePendingInvalidation (s : Slab C) : Slab C :=
  s.finishPendingInvalidation.finishPendingDirectLinkPublication

/-- No request waits to be carried out: the condition `generation` and
`enter_execution` wait for. -/
def quiet (s : Slab C) : Bool := !s.clearPending && s.pendingRanges.isEmpty

/-- `generation`; `none` while the caller would wait. -/
def generation (s : Slab C) : Option ℕ := if s.quiet then some s.currentGeneration else none

def findBlock (s : Slab C) (location : LocationDescriptor) (expectedGeneration : ℕ) :
    Option BlockDescriptor × Slab C :=
  if s.quiet = false ∨ expectedGeneration ≠ s.currentGeneration then (none, s)
  else
    match get s.cache location with
    | none => (none, s)
    | some entrypoint =>
        (some ⟨entrypoint, blockSize s.cache location, s.currentGeneration, false⟩,
          s.touchCodeSegment entrypoint)

/-- `emit`.  The inner `none` is the empty descriptor the source returns when a
request is pending or the generation has moved on. -/
def emit (s : Slab C) (block : Block S) (expectedGeneration : ℕ) (callerExecuting : Bool) :
    Option (Option BlockDescriptor × Slab C) :=
  if s.quiet = false ∨ expectedGeneration ≠ s.currentGeneration then some (none, s)
  else
    let mode : EmitMode := ⟨s.sharedMode, callerExecuting, s.activeExecutions⟩
    match get s.cache block.location with
    | some existing =>
        let s := { s with cache := republish s.cache block.location existing mode }
        some (some ⟨existing, blockSize s.cache block.location, s.currentGeneration, false⟩,
          s.touchCodeSegment existing)
    | none =>
        match CodeCache.emit s.cache block mode with
        | none => none
        | some (entrypoint, cache) =>
            let s := { s with cache := cache }
            let s := s.updateActiveSegmentUsage.touchCodeSegment entrypoint
            some (some ⟨entrypoint, block.size, s.currentGeneration, true⟩, s)

def registerExecutor (s : Slab C) (state : ℕ) : Slab C :=
  if s.executors.any (·.state == state) then s
  else { s with executors := s.executors ++ [⟨state, 0, false⟩] }

def unregisterExecutor (s : Slab C) (state : ℕ) : Option (Slab C) :=
  match s.executors.find? (·.state == state) with
  | none => some s
  | some executor =>
      if executor.active then none
      else some { s with executors := s.executors.eraseP (·.state == state) }

def setExecutor (s : Slab C) (state generation : ℕ) (active : Bool) : Slab C :=
  { s with
    executors := s.executors.map fun e =>
      if e.state = state then ⟨state, generation, active⟩ else e }

/-- `enter_execution`; `none` while the caller would wait, and when the executor
is not registered or already active. -/
def enterExecution (s : Slab C) (state : ℕ) : Option (ℕ × Slab C) :=
  if s.quiet = false then none
  else
    let s := s.finishPendingDirectLinkPublication
    match s.executors.find? (·.state == state) with
    | none => none
    | some executor =>
        if executor.active then none
        else
          some (s.currentGeneration,
            { s.setExecutor state s.currentGeneration true with
              activeExecutions := s.activeExecutions + 1 })

def leaveExecution (s : Slab C) (state generation : ℕ) : Option (Slab C) :=
  match s.executors.find? (·.state == state) with
  | none => none
  | some executor =>
      if executor.active = false ∨ executor.generation ≠ generation ∨
          generation ≠ s.currentGeneration ∨ s.activeExecutions = 0 then none
      else
        let s := { s.setExecutor state executor.generation false with
          activeExecutions := s.activeExecutions - 1 }
        some s.finishPendingInvalidation.finishPendingDirectLinkPublication

end Slab

end Backend

end Umbra
