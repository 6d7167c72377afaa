import Umbra.A32.Session
import Umbra.Arm64.Quiescence

/-!
Portable artifacts in `GetBasicBlock`.

Before it translates a block itself, `GetBasicBlock` asks a provider for one.  Whoever provides an
artifact is told what became of it, through a completion callback.  On the way the artifact may
turn out to be unusable, the code cache may be short, and committing memory, emitting and even
looking at the artifact may throw.  A call is a program that may throw; what it has done before
stays done.

The main result is that whoever handed over an artifact is told its fate exactly once.  It is the
true fate, but for a block that is in the cache when `emit` throws: that is told as a failure, and
the whole cache is cleared.
-/

namespace Umbra.A32.Demand

open Umbra.Lib Umbra.IR Umbra.Backend

variable {C S : Type} [CodeCache C S]

inductive BlockTerminal
  | invalid
  | interpret
  | returnToDispatch
  | linkBlock
  | linkBlockFast
  | popRSBHint
  | fastDispatchHint
  | if_ (then_ else_ : BlockTerminal)
  | checkBit (then_ else_ : BlockTerminal)
  | checkHalt (else_ : BlockTerminal)
deriving DecidableEq

def BlockTerminal.isEmittable : BlockTerminal → Bool
  | invalid => false
  | if_ then_ else_ => then_.isEmittable && else_.isEmittable
  | checkBit then_ else_ => then_.isEmittable && else_.isEmittable
  | checkHalt else_ => else_.isEmittable
  | _ => true

/-- What a provider hands over: a block with its terminal, whose accessors may throw. -/
structure PortableArtifact (S : Type) where
  block : Block S
  terminal : BlockTerminal
  locationThrows : Bool
  terminalThrows : Bool

inductive PortableIREmitOutcome
  | nativeEmitted
  | alreadyPresent
  | emitFailed
deriving DecidableEq

inductive Event
  | lookup (d : LocationDescriptor)
  | completion (d : LocationDescriptor) (generation : ℕ) (outcome : PortableIREmitOutcome)
  | clearCache
  | recycleCache
  | invalidateCacheRange (range : Interval)
  | translationCompleted (d : LocationDescriptor)

structure Callbacks where
  provider : Bool
  completion : Bool
  lookup : Bool
  returnFromRunCode : CodePtr

/-- Where `emit` fails for reasons of its own: before it has written anything, by returning an
empty descriptor, or with the new block in the cache already.  The first two may happen on any
slab here; the source meets them only on the way to new code. -/
inductive EmitFailure
  | before
  | null
  | after
deriving DecidableEq

/-- What a call meets with.  Others may use the slab between two accesses, so that each access
finds a slab of its own. -/
structure Encounter (C S : Type) where
  slabAtLookup : Slab C
  slabAtSpace : Slab C
  slabAtEmit : Slab C
  artifact : Option (PortableArtifact S)
  commitThrows : Bool
  emitFailure : Option EmitFailure
  invalidationThrows : Bool
  /-- The translated block; `none` where the translator throws. -/
  translated : Option (Block S)

/-- `jit`, the halt bit for cache invalidation, `portable_completion_called`, and what was seen so
far. -/
structure CallState where
  jit : Jit
  halted : Bool
  portableCompletionCalled : Bool
  events : List Event

/-- A part of a call; it may throw.  What it has written before stays. -/
abbrev Call := EStateM Unit CallState

def see (event : Event) : Call Unit := modify fun s => { s with events := s.events ++ [event] }

def performRequestedCacheInvalidation (e : Encounter C S) : Call Unit := do
  modify fun s => { s with halted := false }
  let s ← get
  if s.jit.Idle then pure ()
  else if e.invalidationThrows then throw ()
  else
    if s.jit.invalidateEntireCache then
      see (if s.jit.recycleNativeSlab then .recycleCache else .clearCache)
    else s.jit.invalidCacheRanges.forM fun range => see (.invalidateCacheRange range)
    modify fun s => { s with jit := s.jit.served, halted := false }

def requestEntireCacheInvalidation (e : Encounter C S) (recycleSegment : Bool) : Call Unit := do
  modify fun s => { s with jit := s.jit.noteEntire recycleSegment, halted := true }
  let s ← get
  if s.jit.isExecuting then pure ()
  else
    tryCatch (performRequestedCacheInvalidation e) fun _ =>
      modify fun s => { s with jit := { s.jit with invalidateEntireCache := true }, halted := true }

def abandonPortableEmit (e : Encounter C S) : Call Unit := requestEntireCacheInvalidation e false

def requestCapacityRecycle (e : Encounter C S) : Call Unit := requestEntireCacheInvalidation e true

def completePortableArtifact (callbacks : Callbacks) (d : LocationDescriptor) (generation : ℕ)
    (handedOff : Bool) (outcome : PortableIREmitOutcome) : Call Unit := do
  let s ← get
  if !handedOff || s.portableCompletionCalled then pure ()
  else
    modify fun s => { s with portableCompletionCalled := true }
    if callbacks.completion then see (.completion d generation outcome)

def ensureMemoryCommitted (e : Encounter C S) : Call Unit :=
  if e.commitThrows then throw () else pure ()

/-- `NativeCodeSlab::emit` with its failures: what it returns, `none` where it throws, and the
slab it leaves. -/
def Encounter.emit (e : Encounter C S) (block : Block S) (generation : ℕ) (executing : Bool) :
    Option (Option BlockDescriptor) × Slab C :=
  match e.emitFailure with
  | some .before => (none, e.slabAtEmit)
  | some .null => (some none, e.slabAtEmit)
  | failure =>
      match e.slabAtEmit.emit block generation executing with
      | none => (none, e.slabAtEmit)
      | some (emitted, slab) =>
          if failure = some .after ∧ emitted.any (·.newlyEmitted) then
            -- the new code is there, but the segment is neither measured nor touched
            (none, { e.slabAtEmit with cache := slab.cache })
          else (some emitted, slab)

def emitToSlab (e : Encounter C S) (block : Block S) (generation : ℕ) :
    Call (Option BlockDescriptor) := do
  let s ← get
  match (e.emit block generation s.jit.isExecuting).1 with
  | none => throw ()
  | some emitted => pure emitted

def returnFromRunCodeDescriptor (callbacks : Callbacks) (generation : ℕ) : BlockDescriptor :=
  ⟨callbacks.returnFromRunCode, 0, generation, false⟩

/-- The test of an artifact.  `portable_artifact->Location()` comes first and decides alone if the
location is another one. -/
def artifactMatches (artifact : PortableArtifact S) (d : LocationDescriptor) : Call Bool :=
  tryCatch (do
    if artifact.locationThrows then throw ()
    else if artifact.block.location ≠ d then pure false
    else if artifact.terminalThrows then throw ()
    else pure (artifact.terminal ≠ .invalid && artifact.terminal.isEmittable))
    fun _ => pure false

/-- The three ways out of `GetBasicBlock` for an artifact that cannot be emitted. -/
def giveUpArtifact (callbacks : Callbacks) (e : Encounter C S) (d : LocationDescriptor)
    (generation : ℕ) : Call BlockDescriptor := do
  completePortableArtifact callbacks d generation true .emitFailed
  abandonPortableEmit e
  pure (returnFromRunCodeDescriptor callbacks generation)

def emitArtifact (callbacks : Callbacks) (e : Encounter C S) (d : LocationDescriptor)
    (generation : ℕ) (artifact : PortableArtifact S) : Call BlockDescriptor := do
  let committed ← tryCatch (do ensureMemoryCommitted e; pure true) fun _ => pure false
  if !committed then giveUpArtifact callbacks e d generation
  else
    tryCatch (do
      match ← emitToSlab e artifact.block generation with
      | none => giveUpArtifact callbacks e d generation
      | some emitted =>
          completePortableArtifact callbacks d generation true
            (if emitted.newlyEmitted then .nativeEmitted else .alreadyPresent)
          pure emitted)
      fun _ => giveUpArtifact callbacks e d generation

def emitTranslated (callbacks : Callbacks) (e : Encounter C S) (d : LocationDescriptor)
    (generation : ℕ) : Call BlockDescriptor := do
  ensureMemoryCommitted e
  match e.translated with
  | none => throw ()
  | some block =>
      match ← emitToSlab e { block with location := d } generation with
      | none => pure (returnFromRunCodeDescriptor callbacks generation)
      | some emitted =>
          if emitted.newlyEmitted then see (.translationCompleted d)
          pure emitted

def getBasicBlock (callbacks : Callbacks) (e : Encounter C S) (d : LocationDescriptor)
    (generation : ℕ) : Call BlockDescriptor := do
  match (e.slabAtLookup.findBlock d generation).1 with
  | some block =>
      let s ← get
      if s.jit.isExecuting && callbacks.lookup then see (.lookup d)
      pure block
  | none =>
      let portableArtifact := if callbacks.provider then e.artifact else none
      let complete := completePortableArtifact callbacks d generation portableArtifact.isSome
      let accepted ←
        match portableArtifact with
        | none => pure none
        | some artifact =>
            if ← artifactMatches artifact d then pure (some artifact)
            else do
              complete .emitFailed
              pure none
      if e.slabAtSpace.activeSegmentSpaceRemaining < minimumRemainingCodesize then
        complete .emitFailed
        requestCapacityRecycle e
        pure (returnFromRunCodeDescriptor callbacks generation)
      else
        match accepted with
        | some artifact => emitArtifact callbacks e d generation artifact
        | none => emitTranslated callbacks e d generation

/-! ### What the completion callback is told -/

def Event.told? : Event → Option (LocationDescriptor × ℕ × PortableIREmitOutcome)
  | completion d generation outcome => some (d, generation, outcome)
  | _ => none

def CallState.told (s : CallState) : List (LocationDescriptor × ℕ × PortableIREmitOutcome) :=
  s.events.filterMap Event.told?

/-- A full clear is noted for the next boundary, or the slab has been told already. -/
def CallState.FullClearRequested (s : CallState) : Prop :=
  (s.jit.invalidateEntireCache = true ∧ s.jit.recycleNativeSlab = false ∧ s.halted = true) ∨
    Event.clearCache ∈ s.events

def handedOver (callbacks : Callbacks) (e : Encounter C S) (d : LocationDescriptor)
    (generation : ℕ) : Option (PortableArtifact S) :=
  if callbacks.provider && (e.slabAtLookup.findBlock d generation).1.isNone then e.artifact
  else none

def PortableArtifact.Usable (artifact : PortableArtifact S) (d : LocationDescriptor) : Prop :=
  artifact.locationThrows = false ∧ artifact.block.location = d ∧
    artifact.terminalThrows = false ∧ artifact.terminal.isEmittable = true

instance (artifact : PortableArtifact S) (d : LocationDescriptor) :
    Decidable (artifact.Usable d) := inferInstanceAs (Decidable (_ ∧ _ ∧ _ ∧ _))

def ReachesCommit (e : Encounter C S) (d : LocationDescriptor) (artifact : PortableArtifact S) :
    Prop :=
  artifact.Usable d ∧ minimumRemainingCodesize ≤ e.slabAtSpace.activeSegmentSpaceRemaining

instance (e : Encounter C S) (d : LocationDescriptor) (artifact : PortableArtifact S) :
    Decidable (ReachesCommit e d artifact) := inferInstanceAs (Decidable (_ ∧ _))

/-- `emit` is reached with the artifact, returns `b` and leaves the slab `slab`. -/
def Emits (e : Encounter C S) (d : LocationDescriptor) (generation : ℕ) (executing : Bool)
    (artifact : PortableArtifact S) (b : BlockDescriptor) (slab : Slab C) : Prop :=
  ReachesCommit e d artifact ∧ e.commitThrows = false ∧
    e.emit artifact.block generation executing = (some (some b), slab)

/-- `emit` is reached with the artifact; there was no block at `d`, and now there is one. -/
def Installs (e : Encounter C S) (d : LocationDescriptor) (generation : ℕ) (executing : Bool)
    (artifact : PortableArtifact S) : Prop :=
  ReachesCommit e d artifact ∧ e.commitThrows = false ∧
    CodeCache.get e.slabAtEmit.cache d = none ∧
    CodeCache.get (e.emit artifact.block generation executing).2.cache d ≠ none

instance (e : Encounter C S) (d : LocationDescriptor) (generation : ℕ) (executing : Bool)
    (artifact : PortableArtifact S) : Decidable (Installs e d generation executing artifact) :=
  inferInstanceAs (Decidable (_ ∧ _ ∧ _ ∧ _))

def EmitThrows (e : Encounter C S) (generation : ℕ) (executing : Bool)
    (artifact : PortableArtifact S) : Prop :=
  (e.emit artifact.block generation executing).1 = none

instance (e : Encounter C S) (generation : ℕ) (executing : Bool) (artifact : PortableArtifact S) :
    Decidable (EmitThrows e generation executing artifact) := inferInstanceAs (Decidable (_ = _))

/-- There was a block at `d`, and that is the one `emit` returns. -/
def FindsExisting (e : Encounter C S) (d : LocationDescriptor) (generation : ℕ)
    (executing : Bool) (artifact : PortableArtifact S) : Prop :=
  ∃ b slab, Emits e d generation executing artifact b slab ∧
    CodeCache.get e.slabAtEmit.cache d = some b.entrypoint

/-- What committing memory and emitting an artifact give; an exception and an empty descriptor
are both `none`. -/
def emitResult (e : Encounter C S) (generation : ℕ) (executing : Bool)
    (artifact : PortableArtifact S) : Option BlockDescriptor :=
  if e.commitThrows then none else (e.emit artifact.block generation executing).1.join

def blockOf (e : Encounter C S) (d : LocationDescriptor) (generation : ℕ) (executing : Bool)
    (artifact : PortableArtifact S) : Option BlockDescriptor :=
  if ReachesCommit e d artifact then emitResult e generation executing artifact else none

def outcomeOf : Option BlockDescriptor → PortableIREmitOutcome
  | none => .emitFailed
  | some emitted => if emitted.newlyEmitted then .nativeEmitted else .alreadyPresent

section Parts

variable {callbacks : Callbacks} {e : Encounter C S} {d : LocationDescriptor} {generation : ℕ}
  {executing : Bool} {artifact : PortableArtifact S}

@[simp] theorem run_throw {α : Type} (s : CallState) :
    (throw () : Call α).run s = .error () s := rfl

@[simp] theorem run_map {α β : Type} (f : α → β) (x : Call α) (s : CallState) :
    (f <$> x).run s =
      match x.run s with
      | .ok a t => .ok (f a) t
      | .error thrown t => .error thrown t := by
  change EStateM.map f x s = _
  simp only [EStateM.map, EStateM.run]
  cases x s <;> rfl

@[simp] theorem run_tryCatch {α : Type} (x : Call α) (handler : Unit → Call α) (s : CallState) :
    (tryCatch x handler).run s =
      match x.run s with
      | .ok a t => .ok a t
      | .error thrown t => (handler thrown).run t := by
  change EStateM.tryCatch x handler s = _
  simp only [EStateM.tryCatch, EStateM.run]
  cases x s <;> rfl

/-- The state is not rolled back when an exception is caught. -/
@[simp] theorem restore_eq (s : CallState) (saved : PUnit) :
    EStateM.Backtrackable.restore s saved = s := rfl

theorem BlockTerminal.ne_invalid_of_isEmittable {terminal : BlockTerminal}
    (h : terminal.isEmittable = true) : terminal ≠ .invalid := by
  rintro rfl
  simp [BlockTerminal.isEmittable] at h

theorem run_artifactMatches (artifact : PortableArtifact S) (d : LocationDescriptor)
    (s : CallState) :
    (artifactMatches artifact d).run s = .ok (decide (artifact.Usable d)) s := by
  have hterminal := @BlockTerminal.ne_invalid_of_isEmittable artifact.terminal
  rw [artifactMatches, run_tryCatch]
  split_ifs <;> simp_all [PortableArtifact.Usable]

omit [CodeCache C S] in
theorem run_performRequestedCacheInvalidation (e : Encounter C S) {s : CallState}
    (hentire : s.jit.invalidateEntireCache = true) :
    (performRequestedCacheInvalidation e).run s =
      if e.invalidationThrows then .error () { s with halted := false }
      else .ok () { s with
        jit := s.jit.served
        halted := false
        events := s.events ++ [if s.jit.recycleNativeSlab then .recycleCache else .clearCache] } := by
  have hbusy : ¬s.jit.Idle := by simp [Jit.Idle, hentire]
  split_ifs <;> simp_all [performRequestedCacheInvalidation, see]

def CallState.noted (s : CallState) (recycleSegment : Bool) : CallState :=
  { s with jit := s.jit.noteEntire recycleSegment, halted := true }

omit [CodeCache C S] in
theorem run_requestEntireCacheInvalidation (e : Encounter C S) (recycleSegment : Bool)
    (s : CallState) :
    (requestEntireCacheInvalidation e recycleSegment).run s = .ok ()
      (if s.jit.isExecuting || e.invalidationThrows then s.noted recycleSegment
      else { s.noted recycleSegment with
        jit := (s.noted recycleSegment).jit.served
        halted := false
        events := s.events ++
          [if (s.noted recycleSegment).jit.recycleNativeSlab then .recycleCache
            else .clearCache] }) := by
  have hperform := run_performRequestedCacheInvalidation e
    (show (s.noted recycleSegment).jit.invalidateEntireCache = true from rfl)
  have hexecuting : (s.noted recycleSegment).jit.isExecuting = s.jit.isExecuting := rfl
  change (do
    let s ← get
    if s.jit.isExecuting then pure ()
    else tryCatch (performRequestedCacheInvalidation e) _ : Call Unit).run
      (s.noted recycleSegment) = _
  by_cases hrunning : s.jit.isExecuting = true
  · simp [hexecuting, hrunning]
  by_cases hthrows : e.invalidationThrows = true
  · -- A clear that fails stays noted.
    simp [hexecuting, hrunning, hperform, hthrows]
    simp [CallState.noted, Jit.noteEntire, hrunning]
  · simp [hexecuting, hrunning, hperform, hthrows]
    rfl

omit [CodeCache C S] in
theorem abandonPortableEmit_requests (e : Encounter C S) (s : CallState) :
    ∃ t, (abandonPortableEmit e).run s = .ok () t ∧ t.told = s.told ∧ t.FullClearRequested := by
  have hrecycle : (s.noted false).jit.recycleNativeSlab = false := by
    simp [CallState.noted, Jit.noteEntire]
  refine ⟨_, run_requestEntireCacheInvalidation e false s, ?_, ?_⟩
  · split_ifs <;> simp [CallState.told, CallState.noted, Event.told?]
  · by_cases hheld : s.jit.isExecuting || e.invalidationThrows
    · rw [if_pos hheld]
      exact .inl ⟨rfl, hrecycle, rfl⟩
    · rw [if_neg hheld]
      exact .inr (by simp [hrecycle])

omit [CodeCache C S] in
theorem requestCapacityRecycle_told (e : Encounter C S) (s : CallState) :
    ∃ t, (requestCapacityRecycle e).run s = .ok () t ∧ t.told = s.told := by
  refine ⟨_, run_requestEntireCacheInvalidation e true s, ?_⟩
  split_ifs <;> simp [CallState.told, CallState.noted, Event.told?]

/-- Between `s` and `t` the completion callback, if one is set, is told the outcome once. -/
def Tells (callbacks : Callbacks) (d : LocationDescriptor) (generation : ℕ)
    (outcome : PortableIREmitOutcome) (s t : CallState) : Prop :=
  t.told = s.told ++ if callbacks.completion then [(d, generation, outcome)] else []

theorem completePortableArtifact_first (callbacks : Callbacks) (d : LocationDescriptor)
    (generation : ℕ) (outcome : PortableIREmitOutcome) {s : CallState}
    (hfirst : s.portableCompletionCalled = false) :
    ∃ t, (completePortableArtifact callbacks d generation true outcome).run s = .ok () t ∧
      t.portableCompletionCalled = true ∧ t.jit = s.jit ∧
      Tells callbacks d generation outcome s t := by
  unfold completePortableArtifact Tells
  by_cases hset : callbacks.completion = true
  · refine ⟨{ s with portableCompletionCalled := true,
                     events := s.events ++ [.completion d generation outcome] }, ?_, rfl, rfl, ?_⟩
    · simp [hfirst, hset, see]
    · simp [hset, CallState.told, Event.told?]
  · refine ⟨{ s with portableCompletionCalled := true }, ?_, rfl, rfl, ?_⟩
    · simp [hfirst, hset]
    · simp [hset, CallState.told]

theorem completePortableArtifact_idle (callbacks : Callbacks) (d : LocationDescriptor)
    (generation : ℕ) (outcome : PortableIREmitOutcome) {handedOff : Bool} {s : CallState}
    (hidle : handedOff = false ∨ s.portableCompletionCalled = true) :
    (completePortableArtifact callbacks d generation handedOff outcome).run s = .ok () s := by
  have hskip : (!handedOff || s.portableCompletionCalled) = true := by simpa using hidle
  unfold completePortableArtifact
  rw [EStateM.run_bind]
  simp only [EStateM.run_get, hskip, if_true, EStateM.run_pure]

omit [CodeCache C S] in
theorem giveUpArtifact_tells (callbacks : Callbacks) (e : Encounter C S) (d : LocationDescriptor)
    (generation : ℕ) {s : CallState} (hfirst : s.portableCompletionCalled = false) :
    ∃ t, (giveUpArtifact callbacks e d generation).run s =
        .ok (returnFromRunCodeDescriptor callbacks generation) t ∧
      Tells callbacks d generation .emitFailed s t ∧ t.FullClearRequested := by
  obtain ⟨told, htold, -, -, htells⟩ :=
    completePortableArtifact_first callbacks d generation .emitFailed hfirst
  obtain ⟨t, habandon, hsame, hclear⟩ := abandonPortableEmit_requests e told
  refine ⟨t, ?_, ?_, hclear⟩
  · simp only [giveUpArtifact, EStateM.run_bind, htold, habandon, EStateM.run_pure]
  · rw [Tells, hsame, htells]

theorem run_emitArtifact (callbacks : Callbacks) (e : Encounter C S) (d : LocationDescriptor)
    (generation : ℕ) (artifact : PortableArtifact S) {s : CallState}
    (hfirst : s.portableCompletionCalled = false) :
    (emitArtifact callbacks e d generation artifact).run s =
      match emitResult e generation s.jit.isExecuting artifact with
      | none => (giveUpArtifact callbacks e d generation).run s
      | some emitted => (do
          completePortableArtifact callbacks d generation true (outcomeOf (some emitted))
          pure emitted : Call BlockDescriptor).run s := by
  obtain ⟨failed, hfailed, -, -⟩ := giveUpArtifact_tells callbacks e d generation hfirst
  unfold emitArtifact
  cases hcommit : e.commitThrows
  case true => simp [ensureMemoryCommitted, emitResult, hcommit]
  rcases hslab : (e.emit artifact.block generation s.jit.isExecuting).1 with _ | _ | emitted
  · simp [ensureMemoryCommitted, emitToSlab, emitResult, hcommit, hslab]
  · simp [ensureMemoryCommitted, emitToSlab, emitResult, hcommit, hslab, hfailed]
  · obtain ⟨told, htold, -⟩ :=
      completePortableArtifact_first callbacks d generation (outcomeOf (some emitted)) hfirst
    simp only [outcomeOf] at htold
    simp [ensureMemoryCommitted, emitToSlab, emitResult, hcommit, hslab, outcomeOf, htold]

theorem emitArtifact_tells (callbacks : Callbacks) (e : Encounter C S) (d : LocationDescriptor)
    (generation : ℕ) (artifact : PortableArtifact S) {s : CallState}
    (hfirst : s.portableCompletionCalled = false) :
    ∃ r t, (emitArtifact callbacks e d generation artifact).run s = .ok r t ∧
      Tells callbacks d generation
        (outcomeOf (emitResult e generation s.jit.isExecuting artifact)) s t ∧
      (emitResult e generation s.jit.isExecuting artifact = none →
        r = returnFromRunCodeDescriptor callbacks generation ∧ t.FullClearRequested) := by
  rw [run_emitArtifact callbacks e d generation artifact hfirst]
  cases emitResult e generation s.jit.isExecuting artifact with
  | none =>
      obtain ⟨t, hrun, htells, hclear⟩ := giveUpArtifact_tells callbacks e d generation hfirst
      exact ⟨_, t, hrun, htells, fun _ => ⟨rfl, hclear⟩⟩
  | some emitted =>
      obtain ⟨t, hrun, -, -, htells⟩ :=
        completePortableArtifact_first callbacks d generation (outcomeOf (some emitted)) hfirst
      refine ⟨emitted, t, ?_, htells, fun h => nomatch h⟩
      simp [hrun]

def stateAfter {α : Type} : EStateM.Result Unit CallState α → CallState
  | .ok _ s => s
  | .error _ s => s

theorem told_emitTranslated (callbacks : Callbacks) (e : Encounter C S) (d : LocationDescriptor)
    (generation : ℕ) (s : CallState) :
    (stateAfter ((emitTranslated callbacks e d generation).run s)).told = s.told := by
  unfold emitTranslated
  cases hcommit : e.commitThrows
  case true => simp [ensureMemoryCommitted, hcommit, stateAfter]
  cases htranslated : e.translated with
  | none => simp [ensureMemoryCommitted, hcommit, stateAfter]
  | some block =>
      rcases hslab : (e.emit { block with location := d } generation s.jit.isExecuting).1
        with _ | _ | emitted
      · simp [ensureMemoryCommitted, emitToSlab, hcommit, hslab, stateAfter]
      · simp [ensureMemoryCommitted, emitToSlab, hcommit, hslab, stateAfter]
      · by_cases hnew : emitted.newlyEmitted = true <;>
          simp [ensureMemoryCommitted, emitToSlab, hcommit, hslab, stateAfter, hnew, see,
            CallState.told, Event.told?]

theorem newlyEmitted_iff {slab after : Slab C} {block : Block S} {b : BlockDescriptor}
    (hemit : slab.emit block generation executing = some (some b, after)) :
    (b.newlyEmitted = true ↔ CodeCache.get slab.cache block.location = none ∧
      CodeCache.get after.cache block.location = some b.entrypoint) ∧
    (b.newlyEmitted = false ↔ CodeCache.get slab.cache block.location = some b.entrypoint) := by
  rcases Slab.emit_cases hemit with ⟨hnone, -⟩ | ⟨-, -, ⟨p, b', _, _, hget, hb, hp, hold, rfl⟩ |
    ⟨p, cache, _, _, _, hget, hcache, hb, rfl⟩⟩
  · cases hnone
  · obtain rfl := Option.some.inj hb
    simp [hold, hget, hp]
  · obtain rfl := Option.some.inj hb
    have hafter := congrFun (CodeCache.get_emit hcache hget) block.location
    simp_all

/-- An `emit` that returns has done what the slab does. -/
theorem emit_of_returns {block : Block S} {b : BlockDescriptor} {slab : Slab C}
    (h : e.emit block generation executing = (some (some b), slab)) :
    e.slabAtEmit.emit block generation executing = some (some b, slab) := by
  unfold Encounter.emit at h
  split at h
  · cases h
  · cases h
  · split at h
    · cases h
    · next emitted after hslab =>
        split_ifs at h
        · cases h
        · cases h
          exact hslab

/-- An empty descriptor comes with an unchanged slab. -/
theorem emit_of_empty {block : Block S} {slab : Slab C}
    (h : e.emit block generation executing = (some none, slab)) : slab = e.slabAtEmit := by
  unfold Encounter.emit at h
  split at h
  · cases h
  · cases h
    rfl
  · split at h
    · cases h
    · next emitted after hslab =>
        split_ifs at h
        · cases h
        · cases h
          rcases Slab.emit_cases hslab with ⟨-, hsame⟩ | ⟨-, -, ⟨_, _, _, _, _, hb, _⟩ |
            ⟨_, _, _, _, _, _, _, hb, _⟩⟩
          · exact hsame
          · cases hb
          · cases hb

theorem blockOf_eq_some_iff {b : BlockDescriptor} :
    blockOf e d generation executing artifact = some b ↔
      ∃ slab, Emits e d generation executing artifact b slab := by
  unfold blockOf emitResult Emits
  split_ifs with hreaches hthrows
  · simp [hthrows]
  · simp [hreaches, hthrows, Option.join_eq_some_iff, Prod.ext_iff]
  · simp [hreaches]

theorem Emits.location_eq {b : BlockDescriptor} {slab : Slab C}
    (h : Emits e d generation executing artifact b slab) : artifact.block.location = d :=
  h.1.1.2.1

theorem outcomeOf_eq_iff (new : Bool) :
    outcomeOf (blockOf e d generation executing artifact) =
        (if new then .nativeEmitted else .alreadyPresent) ↔
      ∃ b slab, Emits e d generation executing artifact b slab ∧ b.newlyEmitted = new := by
  constructor
  · intro h
    cases hblock : blockOf e d generation executing artifact with
    | none => cases new <;> simp [hblock, outcomeOf] at h
    | some b =>
        obtain ⟨slab, hemits⟩ := blockOf_eq_some_iff.mp hblock
        refine ⟨b, slab, hemits, ?_⟩
        cases new <;> cases hnew : b.newlyEmitted <;> simp_all [outcomeOf]
  · rintro ⟨b, slab, hemits, rfl⟩
    rw [blockOf_eq_some_iff.mpr ⟨slab, hemits⟩]
    rfl

theorem outcomeOf_eq_nativeEmitted_iff :
    outcomeOf (blockOf e d generation executing artifact) = .nativeEmitted ↔
      Installs e d generation executing artifact ∧ ¬EmitThrows e generation executing artifact := by
  refine (outcomeOf_eq_iff true).trans ⟨?_, ?_⟩
  · rintro ⟨b, slab, hemits, hnew⟩
    have hget := (newlyEmitted_iff (emit_of_returns hemits.2.2)).1.mp hnew
    rw [hemits.location_eq] at hget
    refine ⟨⟨hemits.1, hemits.2.1, hget.1, ?_⟩, ?_⟩
    · rw [hemits.2.2, hget.2]
      exact Option.some_ne_none _
    · rw [EmitThrows, hemits.2.2]
      exact Option.some_ne_none _
  · rintro ⟨⟨hreaches, hcommit, hnone, hafter⟩, hreturns⟩
    rw [EmitThrows] at hreturns
    rcases hemit : e.emit artifact.block generation executing with ⟨_ | _ | b, slab⟩ <;>
      rw [hemit] at hafter hreturns
    · exact absurd rfl hreturns
    · rw [emit_of_empty hemit] at hafter
      exact absurd hnone hafter
    · refine ⟨b, slab, ⟨hreaches, hcommit, hemit⟩, ?_⟩
      have hold := (newlyEmitted_iff (emit_of_returns hemit)).2
      rw [hreaches.1.2.1, hnone] at hold
      simpa using hold

theorem outcomeOf_eq_alreadyPresent_iff :
    outcomeOf (blockOf e d generation executing artifact) = .alreadyPresent ↔
      FindsExisting e d generation executing artifact := by
  refine (outcomeOf_eq_iff false).trans (exists₂_congr fun b slab => and_congr_right ?_)
  intro hemits
  rw [(newlyEmitted_iff (emit_of_returns hemits.2.2)).2, hemits.location_eq]

theorem getBasicBlock_untold {s : CallState} (hnone : handedOver callbacks e d generation = none) :
    (stateAfter ((getBasicBlock callbacks e d generation).run s)).told = s.told := by
  unfold getBasicBlock
  cases hfound : (e.slabAtLookup.findBlock d generation).1 with
  | some block =>
      simp only [EStateM.run_bind, EStateM.run_get]
      split_ifs <;> simp [stateAfter, see, CallState.told, Event.told?]
  | none =>
      have hartifact : (if callbacks.provider then e.artifact else none) = none := by
        simpa [handedOver, hfound] using hnone
      simp only [hartifact, EStateM.run_bind, EStateM.run_pure, Option.isSome_none]
      split_ifs with hspace
      · obtain ⟨t, hrun, htold⟩ := requestCapacityRecycle_told e s
        simpa [completePortableArtifact_idle, hrun, stateAfter] using htold
      · exact told_emitTranslated callbacks e d generation s

/-- An artifact is answered once, and one that fails late costs the whole cache. -/
theorem getBasicBlock_tells {s : CallState} (hfirst : s.portableCompletionCalled = false)
    (hsome : handedOver callbacks e d generation = some artifact) :
    Tells callbacks d generation (outcomeOf (blockOf e d generation s.jit.isExecuting artifact)) s
      (stateAfter ((getBasicBlock callbacks e d generation).run s)) ∧
    (ReachesCommit e d artifact → blockOf e d generation s.jit.isExecuting artifact = none →
      ∃ t, (getBasicBlock callbacks e d generation).run s =
        .ok (returnFromRunCodeDescriptor callbacks generation) t ∧ t.FullClearRequested) := by
  have hasked : callbacks.provider = true ∧ (e.slabAtLookup.findBlock d generation).1 = none ∧
      e.artifact = some artifact := by
    simpa [handedOver, and_assoc] using hsome
  obtain ⟨hprovider, hmiss, hartifact⟩ := hasked
  obtain ⟨told, hrun, hcalled, -, htells⟩ :=
    completePortableArtifact_first callbacks d generation .emitFailed hfirst
  unfold getBasicBlock
  simp only [hmiss, hprovider, hartifact, if_true, EStateM.run_bind, run_artifactMatches,
    Option.isSome_some]
  by_cases husable : artifact.Usable d
  · by_cases hspace : e.slabAtSpace.activeSegmentSpaceRemaining < minimumRemainingCodesize
    · have hfar : ¬ReachesCommit e d artifact := fun h => absurd h.2 (by omega)
      obtain ⟨t, hrecycle, hsame⟩ := requestCapacityRecycle_told e told
      refine ⟨?_, fun h => absurd h hfar⟩
      simp only [husable, hspace, decide_true, if_true, EStateM.run_pure, EStateM.run_bind, hrun,
        hrecycle, blockOf, hfar, if_false, outcomeOf, stateAfter]
      rw [Tells, hsame, htells]
    · have hreaches : ReachesCommit e d artifact := ⟨husable, by omega⟩
      obtain ⟨r, t, hemit, htold, hfail⟩ :=
        emitArtifact_tells callbacks e d generation artifact hfirst
      simp only [husable, hspace, decide_true, if_true, EStateM.run_bind, EStateM.run_pure, hemit,
        blockOf, hreaches, if_false, stateAfter]
      refine ⟨htold, fun _ hnone => ⟨t, ?_, (hfail hnone).2⟩⟩
      rw [(hfail hnone).1]
  · -- The artifact is out, and its provider knows; the call goes on without it.
    have hfar : ¬ReachesCommit e d artifact := fun h => husable h.1
    refine ⟨?_, fun h => absurd h hfar⟩
    simp only [husable, decide_false, Bool.false_eq_true, if_false, EStateM.run_bind, hrun,
      EStateM.run_pure, blockOf, hfar, outcomeOf]
    split_ifs with hspace
    · obtain ⟨t, hrecycle, hsame⟩ := requestCapacityRecycle_told e told
      simp only [EStateM.run_bind, completePortableArtifact_idle callbacks d generation .emitFailed
        (.inr hcalled), hrecycle, EStateM.run_pure, stateAfter]
      rw [Tells, hsame, htells]
    · rw [Tells, told_emitTranslated, htells]

end Parts

/-- What is owed to whoever hands over an artifact in a call that finds `e` and ends with
`result`. -/
structure Accounts (callbacks : Callbacks) (e : Encounter C S) (d : LocationDescriptor)
    (generation : ℕ) (executing : Bool) (result : EStateM.Result Unit CallState BlockDescriptor) :
    Prop where
  /-- Nothing is told if there was no artifact. -/
  silent : handedOver callbacks e d generation = none → (stateAfter result).told = []
  /-- For an artifact there is one call of the callback, with its fate. -/
  once : ∀ artifact, handedOver callbacks e d generation = some artifact →
    callbacks.completion = true →
    ∃ outcome, (stateAfter result).told = [(d, generation, outcome)] ∧
      (outcome = .nativeEmitted ↔ Installs e d generation executing artifact ∧
        ¬EmitThrows e generation executing artifact) ∧
      (outcome = .alreadyPresent ↔ FindsExisting e d generation executing artifact) ∧
      (outcome = .emitFailed ↔ ¬FindsExisting e d generation executing artifact ∧
        (Installs e d generation executing artifact → EmitThrows e generation executing artifact))
  /-- An artifact that fails late costs the whole cache, and nothing is entered. -/
  abandoned : ∀ artifact, handedOver callbacks e d generation = some artifact →
    ReachesCommit e d artifact → ¬FindsExisting e d generation executing artifact →
    (Installs e d generation executing artifact → EmitThrows e generation executing artifact) →
    ∃ t, result = .ok (returnFromRunCodeDescriptor callbacks generation) t ∧ t.FullClearRequested

/-- Whatever `GetBasicBlock` meets with, it accounts for the artifact. -/
theorem getBasicBlock_accounts (callbacks : Callbacks) (e : Encounter C S)
    (d : LocationDescriptor) (generation : ℕ) (jit : Jit) (halted : Bool) :
    Accounts callbacks e d generation jit.isExecuting
      ((getBasicBlock callbacks e d generation).run ⟨jit, halted, false, []⟩) where
  silent hnone := getBasicBlock_untold hnone
  once artifact hsome hset := by
    have htells := (@getBasicBlock_tells _ _ _ _ _ _ _ _ ⟨jit, halted, false, []⟩ rfl hsome).1
    rw [Tells, if_pos hset] at htells
    refine ⟨_, htells, outcomeOf_eq_nativeEmitted_iff, outcomeOf_eq_alreadyPresent_iff, ?_⟩
    rw [← not_and_not_right, ← outcomeOf_eq_nativeEmitted_iff, ← outcomeOf_eq_alreadyPresent_iff]
    cases outcomeOf (blockOf e d generation jit.isExecuting artifact) <;> simp
  abandoned artifact hsome hreaches hold hnew := by
    refine (getBasicBlock_tells rfl hsome).2 hreaches ?_
    rw [← not_and_not_right, ← outcomeOf_eq_nativeEmitted_iff] at hnew
    rw [← outcomeOf_eq_alreadyPresent_iff] at hold
    cases hblock : blockOf e d generation jit.isExecuting artifact with
    | none => rfl
    | some b => cases hb : b.newlyEmitted <;> simp_all [outcomeOf]

namespace Sample

open Umbra.Arm64

def artifact : PortableArtifact BlockRelocation where
  block := ⟨0x1000, none, 16, []⟩
  terminal := .returnToDispatch
  locationThrows := false
  terminalThrows := false

/-- A slab in which nothing has been emitted, and a failure right behind `EmitBlock`. -/
def failsAfterCode : Encounter AddressSpace BlockRelocation where
  slabAtLookup := createSlab 0x8000000 0x1000 false
  slabAtSpace := createSlab 0x8000000 0x1000 false
  slabAtEmit := createSlab 0x8000000 0x1000 false
  artifact := some artifact
  commitThrows := false
  emitFailure := some .after
  invalidationThrows := false
  translated := none

def callbacks : Callbacks := ⟨true, true, true, 0x40⟩

end Sample

open Sample in
/-- The block has newly been installed from the artifact, and its provider is told that emitting
it has failed. -/
theorem getBasicBlock_tells_emitFailed :
    Installs failsAfterCode 0x1000 1 false artifact ∧
      (stateAfter ((getBasicBlock callbacks failsAfterCode 0x1000 1).run
        ⟨.initial, false, false, []⟩)).told = [(0x1000, 1, .emitFailed)] := by
  decide +kernel

end Umbra.A32.Demand
