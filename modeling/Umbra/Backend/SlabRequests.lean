import Umbra.Backend.SlabRun

/-!
Requests to the slab.

Requests that arrive while executors are inside emitted code are merged: ranges into
one set, clears and recycles into one pending transition.  Every operation of the
slab records its request, if it makes one, and carries out what is pending if it is
one that does so and nobody is in.
-/

namespace Umbra.Backend

open Umbra.Lib Umbra.IR CodeCache

inductive SlabRequest
  | clear
  | recycle
  | range (startAddress length : ℕ)
deriving DecidableEq

namespace SlabRequest

def kind : SlabRequest → Option GenerationTransitionKind
  | .clear => some .clearAll
  | .recycle => some .recycleSegment
  | .range _ _ => none

def Contains (a : ℕ) : SlabRequest → Prop
  | .clear => True
  | .recycle => False
  | .range start length => start ≤ a ∧ a < start + length ∧ a < 2 ^ 32

instance (a : ℕ) (request : SlabRequest) : Decidable (request.Contains a) := by
  cases request <;> unfold Contains <;> infer_instance

end SlabRequest

def SlabAction.request {S : Type} : SlabAction S → Option SlabRequest
  | .clearCache => some .clear
  | .requestCacheClear => some .clear
  | .recycleCache => some .recycle
  | .invalidateCacheRange startAddress length => some (.range startAddress length)
  | .requestCacheRange startAddress length => some (.range startAddress length)
  | _ => none

def SlabAction.kind {S : Type} (action : SlabAction S) : Option GenerationTransitionKind :=
  action.request.bind SlabRequest.kind

namespace Slab

variable {C S : Type} [CodeCache C S] {s t : Slab C}

/-! ### Blocks over one operation -/

def installs (s t : Slab C) : SlabAction S → Option LocationDescriptor
  | .emit _ block _ =>
      if get s.cache block.location = none ∧ get t.cache block.location ≠ none then
        some block.location
      else none
  | _ => none

theorem installs_of_newlyEmitted {caller generation : ℕ} {block : Block S} {executing : Bool}
    {result : Option BlockDescriptor} (hemit : s.emit block generation executing = some (result, t))
    (hnew : result.any (·.newlyEmitted) = true) :
    s.installs t (.emit caller block generation) = some block.location := by
  rcases emit_cases hemit with ⟨rfl, -⟩ | ⟨-, -, ⟨p, b, segments, clock, -, rfl, -, hold, -⟩ |
    ⟨p, cache, segments, bytes, clock, hget, hcache, -, rfl⟩⟩
  · cases hnew
  · rw [Option.any_some, hold] at hnew
    cases hnew
  · have hinstalled : get cache block.location = some p := by
      rw [get_emit hcache hget, Function.update_self]
    refine if_pos ⟨hget, ?_⟩
    simp only
    rw [hinstalled]
    exact Option.some_ne_none p

variable {action : SlabAction S} {request : SlabRequest} {u : Slab C}

/-- No operation installs a block but the one it reports. -/
theorem evolves_step {d : LocationDescriptor} (hstep : s.step action = some t)
    (hd : s.installs t action ≠ some d) : Evolves s t d := by
  cases action with
  | registerExecutor state =>
      obtain ⟨executors, rfl⟩ := registerExecutor_eq hstep
      exact .of_same d rfl rfl rfl rfl rfl
  | unregisterExecutor state =>
      obtain ⟨executors, rfl⟩ := unregisterExecutor_eq hstep
      exact .of_same d rfl rfl rfl rfl rfl
  | enterExecution state =>
      simp only [step, Option.map_eq_some_iff] at hstep
      obtain ⟨⟨generation, t'⟩, henter, rfl⟩ := hstep
      exact (evolves_enterExecution henter d).2
  | leaveExecution state generation => exact evolves_leaveExecution hstep d
  | findBlock location generation =>
      exact Option.some.inj hstep ▸ s.evolves_findBlock location generation d
  | emit caller block generation =>
      simp only [step, Option.map_eq_some_iff] at hstep
      obtain ⟨⟨result, t'⟩, hemit, rfl⟩ := hstep
      refine evolves_emit hemit fun hnew heq => hd ?_
      rw [heq]
      exact installs_of_newlyEmitted hemit hnew
  | runCode codePtr => exact Option.some.inj hstep ▸ s.evolves_touchCodeSegment codePtr d
  | clearCache => exact Option.some.inj hstep ▸ s.evolves_requestGenerationTransition _ _ d
  | recycleCache => exact Option.some.inj hstep ▸ s.evolves_requestGenerationTransition _ _ d
  | requestCacheClear => exact Option.some.inj hstep ▸ s.evolves_requestGenerationTransition _ _ d
  | invalidateCacheRange start length =>
      exact Option.some.inj hstep ▸ s.evolves_requestRangeTransition _ _ _ d
  | requestCacheRange start length =>
      exact Option.some.inj hstep ▸ s.evolves_requestRangeTransition _ _ _ d
  | servicePendingInvalidation =>
      exact Option.some.inj hstep ▸ s.evolves_servicePendingInvalidation d

/-- The block of the descriptor is one the request is about. -/
def Covers (s : Slab C) (d : LocationDescriptor) : SlabRequest → Prop
  | .clear => True
  | .recycle => False
  | .range start length => ∃ a, start ≤ a ∧ a < start + length ∧ a < 2 ^ 32 ∧ Registered s.cache d a

theorem covers_of_evolves {d : LocationDescriptor} (h : Evolves s t d) (hpresent : t.Present d)
    (hcovers : t.Covers d request) : s.Covers d request := by
  cases request with
  | clear => trivial
  | recycle => exact hcovers
  | range start length =>
      obtain ⟨a, hlo, hhi, hlt, hreg⟩ := hcovers
      exact ⟨a, hlo, hhi, hlt, (h.registered hpresent a).mp hreg⟩

theorem doomed_of_request (hrequest : action.request = some request)
    (hstep : s.step action = some t) {d : LocationDescriptor} (hcovers : s.Covers d request) :
    t.Doomed d := by
  have hrange : ∀ {start length : ℕ} (finish : Bool), s.Covers d (.range start length) →
      (s.requestRangeTransition start length finish).Doomed d := by
    rintro start length finish ⟨a, hlo, hhi, hlt, hreg⟩
    refine doomed_requestRangeTransition finish (by omega) hlo ?_ hreg
    unfold inclusiveRangeEnd maxAddress
    split <;> omega
  have hclear : ∀ finish : Bool, (s.requestGenerationTransition .clearAll finish).Doomed d := by
    intro finish
    have hrecorded := (evolves_signalActiveExecutors _ d).doomed
      (.inr (.inl s.clearAllPending_recordTransition))
    unfold requestGenerationTransition
    split
    · exact (evolves_finishPendingInvalidation _ d).doomed hrecorded
    · exact hrecorded
  cases action <;> cases hrequest
  case clearCache => exact Option.some.inj hstep ▸ hclear true
  case recycleCache => exact absurd hcovers id
  case requestCacheClear => exact Option.some.inj hstep ▸ hclear false
  case invalidateCacheRange => exact Option.some.inj hstep ▸ hrange true hcovers
  case requestCacheRange => exact Option.some.inj hstep ▸ hrange false hcovers

/-! ### Transitions over one operation -/

/-- The transitions begun so far: those carried out and the one pending. -/
def transitions (s : Slab C) : ℕ :=
  s.segmentRecycles + s.fullGenerationClears + if s.clearPending then 1 else 0

theorem transitions_finishPendingInvalidation (s : Slab C) :
    s.finishPendingInvalidation.transitions = s.transitions := by
  unfold finishPendingInvalidation
  split
  · rfl
  · split
    · rename_i hpending
      cases s.pendingTransition with
      | clearAll =>
          obtain ⟨cache, segments, current, clock, bytes, heq⟩ :=
            resetCodeSegments_eq { s with cache := CodeCache.clearCache s.cache }
          simp only [finishClearAll, publishGeneration, heq]
          simp only [Slab.transitions, hpending, Bool.false_eq_true, ↓reduceIte]
          omega
      | recycleSegment =>
          simp only [finishRecycle, invalidatePendingRanges, publishGeneration,
            recycleCodeSegment]
          split_ifs
          all_goals
            simp only [Slab.transitions, hpending, Bool.false_eq_true, ↓reduceIte]
            omega
    · unfold invalidatePendingRanges
      split
      · rfl
      · rfl

theorem finishPendingDirectLinkPublication_eq (s : Slab C) : ∃ cache,
    s.finishPendingDirectLinkPublication = { s with cache } := by
  unfold finishPendingDirectLinkPublication
  split
  · exact ⟨s.cache, rfl⟩
  · exact ⟨_, rfl⟩

theorem transitions_servicePendingInvalidation (s : Slab C) :
    s.servicePendingInvalidation.transitions = s.transitions := by
  obtain ⟨cache, heq⟩ := s.finishPendingInvalidation.finishPendingDirectLinkPublication_eq
  rw [servicePendingInvalidation, heq, ← s.transitions_finishPendingInvalidation]
  rfl

def Requests (action : SlabAction S) (a : ℕ) : Prop :=
  ∃ start length, action.request = some (.range start length) ∧ length ≠ 0 ∧
    start ≤ a ∧ a ≤ inclusiveRangeEnd start length

/-- `u` is `s` with the request of the operation recorded and nothing carried out. -/
structure Recorded (s u : Slab C) (action : SlabAction S) : Prop where
  cache : u.cache = s.cache
  codeSegments : u.codeSegments = s.codeSegments
  currentSegment : u.currentSegment = s.currentSegment
  segmentRecycles : u.segmentRecycles = s.segmentRecycles
  fullGenerationClears : u.fullGenerationClears = s.fullGenerationClears
  clearPending : u.clearPending = (s.clearPending || action.kind.isSome)
  clearAllPending : u.ClearAllPending ↔ action.kind = some .clearAll ∨ s.ClearAllPending
  ranges : ¬u.ClearAllPending → ∀ a,
    u.pendingRanges.Covers a ↔ s.pendingRanges.Covers a ∨ Requests action a
  currentGeneration : u.currentGeneration = s.currentGeneration
  ahead : s.PendingAhead → u.PendingAhead

omit [CodeCache C S] in
theorem Recorded.of_eq (hrequest : action.request = none) (hcache : u.cache = s.cache)
    (hsegments : u.codeSegments = s.codeSegments) (hcurrent : u.currentSegment = s.currentSegment)
    (hrecycles : u.segmentRecycles = s.segmentRecycles)
    (hclears : u.fullGenerationClears = s.fullGenerationClears)
    (hpending : u.clearPending = s.clearPending) (hkind : u.pendingTransition = s.pendingTransition)
    (hranges : u.pendingRanges = s.pendingRanges)
    (hgeneration : u.currentGeneration = s.currentGeneration)
    (hnext : u.pendingGeneration = s.pendingGeneration) : Recorded s u action := by
  have hnone : action.kind = none := by rw [SlabAction.kind, hrequest]; rfl
  refine ⟨hcache, hsegments, hcurrent, hrecycles, hclears, ?_, ?_, fun _ a => ?_, hgeneration,
    fun h => by rwa [PendingAhead, hgeneration, hnext, hpending]⟩
  · rw [hpending, hnone, Option.isSome_none, Bool.or_false]
  · simp [ClearAllPending, hpending, hkind, hnone]
  · simp [Requests, hrequest, hranges]

omit [CodeCache C S] in
theorem Recorded.refl (s : Slab C) (hrequest : action.request = none) :
    Recorded s s action :=
  .of_eq hrequest rfl rfl rfl rfl rfl rfl rfl rfl rfl rfl

omit [CodeCache C S] in
theorem Recorded.transitions (h : Recorded s u action) :
    u.transitions = s.transitions + if action.kind.isSome && !s.clearPending then 1 else 0 := by
  simp only [Slab.transitions, h.segmentRecycles, h.fullGenerationClears, h.clearPending]
  cases s.clearPending <;> cases action.kind <;> simp

omit [CodeCache C S] in
theorem recorded_recordTransition (s : Slab C) {kind : GenerationTransitionKind}
    (hrequest : action.request = some request) (hkind : request.kind = some kind) :
    Recorded s (s.recordTransition kind).signalActiveExecutors action := by
  have haction : action.kind = some kind := by rw [SlabAction.kind, hrequest]; exact hkind
  have hnone : ∀ a, ¬Requests action a := by
    rintro a ⟨start, length, hrange, -⟩
    obtain rfl := Option.some.inj (hrequest.symm.trans hrange)
    cases hkind
  cases kind with
  | clearAll =>
      have hahead := fun h => (keeps_recordTransition (s := s) h .clearAll).ahead
      obtain ⟨generation, heq⟩ := s.recordTransition_clearAll
      rw [heq] at hahead ⊢
      refine ⟨rfl, rfl, rfl, rfl, rfl, ?_, ?_, fun h => absurd ⟨rfl, rfl⟩ h, rfl, hahead⟩
      · simp [signalActiveExecutors, haction]
      · exact iff_of_true ⟨rfl, rfl⟩ (.inl haction)
  | recycleSegment =>
      by_cases hclear : s.ClearAllPending
      · rw [s.recordTransition_recycle_of_clearAllPending hclear]
        refine ⟨rfl, rfl, rfl, rfl, rfl, ?_, ?_, fun h => absurd hclear h, rfl, id⟩
        · simp [signalActiveExecutors, hclear.1]
        · exact iff_of_true hclear (.inr hclear)
      · have hahead := fun h => (keeps_recordTransition (s := s) h .recycleSegment).ahead
        obtain ⟨generation, heq⟩ := s.recordTransition_recycle hclear
        rw [heq] at hahead ⊢
        refine ⟨rfl, rfl, rfl, rfl, rfl, ?_, ?_, fun _ a => ?_, rfl, hahead⟩
        · simp [signalActiveExecutors, haction]
        · simp [ClearAllPending, signalActiveExecutors, haction]
          simpa [ClearAllPending] using hclear
        · simp [signalActiveExecutors, hnone a]

structure Waits (u t : Slab C) : Prop where
  segmentRecycles : t.segmentRecycles = u.segmentRecycles
  fullGenerationClears : t.fullGenerationClears = u.fullGenerationClears
  clearPending : t.clearPending = u.clearPending
  pendingTransition : t.pendingTransition = u.pendingTransition
  pendingRanges : t.pendingRanges = u.pendingRanges

theorem Waits.refl (s : Slab C) : Waits s s := ⟨rfl, rfl, rfl, rfl, rfl⟩

/-- Nobody is in any more when the operation comes to finish what is pending. -/
def Finishes (s : Slab C) : SlabAction S → Prop
  | .leaveExecution _ _ => s.activeExecutions = 1
  | .clearCache => s.activeExecutions = 0
  | .recycleCache => s.activeExecutions = 0
  | .invalidateCacheRange _ _ => s.activeExecutions = 0
  | .servicePendingInvalidation => s.activeExecutions = 0
  | _ => False

/-- Behind the operation on `s` that has led to `u`, what is pending waits or is
carried out. -/
def Carries (s : Slab C) (action : SlabAction S) (u t : Slab C) : Prop :=
  Waits u t ∨ s.Finishes action ∧ u.activeExecutions = 0 ∧
    (t = u.finishPendingInvalidation ∨ t = u.servicePendingInvalidation)

theorem carries_finishPendingInvalidation (hfinishes : u.activeExecutions = 0 → s.Finishes action) :
    Carries s action u u.finishPendingInvalidation := by
  by_cases hactive : u.activeExecutions = 0
  · exact .inr ⟨hfinishes hactive, hactive, .inl rfl⟩
  · rw [finishPendingInvalidation_of_active hactive]
    exact .inl (.refl u)

theorem carries_servicePendingInvalidation (hfinishes : u.activeExecutions = 0 → s.Finishes action) :
    Carries s action u u.servicePendingInvalidation := by
  by_cases hactive : u.activeExecutions = 0
  · exact .inr ⟨hfinishes hactive, hactive, .inr rfl⟩
  · rw [servicePendingInvalidation_of_active hactive]
    exact .inl (.refl u)

theorem waits_touchCodeSegment (s : Slab C) (p : CodePtr) : Waits s (s.touchCodeSegment p) := by
  obtain ⟨segments, clock, heq⟩ := s.touchCodeSegment_eq p
  rw [heq]
  exact ⟨rfl, rfl, rfl, rfl, rfl⟩

theorem waits_findBlock (s : Slab C) (location : LocationDescriptor) (generation : ℕ) :
    Waits s (s.findBlock location generation).2 := by
  unfold findBlock
  split
  · exact ⟨rfl, rfl, rfl, rfl, rfl⟩
  · split
    · exact ⟨rfl, rfl, rfl, rfl, rfl⟩
    · exact s.waits_touchCodeSegment _

theorem waits_emit {block : Block S} {generation : ℕ} {executing : Bool}
    {result : Option BlockDescriptor}
    (hemit : s.emit block generation executing = some (result, t)) : Waits s t := by
  rcases emit_cases hemit with ⟨-, rfl⟩ | ⟨-, -, ⟨p, b, segments, clock, -, -, -, -, rfl⟩ |
    ⟨p, cache, segments, bytes, clock, -, -, -, rfl⟩⟩
  · exact .refl t
  · exact ⟨rfl, rfl, rfl, rfl, rfl⟩
  · exact ⟨rfl, rfl, rfl, rfl, rfl⟩

theorem waits_enterExecution {state generation : ℕ}
    (henter : s.enterExecution state = some (generation, t)) : Waits s t := by
  obtain ⟨-, executors, active, rfl⟩ := enterExecution_eq henter
  obtain ⟨cache, heq⟩ := s.finishPendingDirectLinkPublication_eq
  rw [heq]
  exact ⟨rfl, rfl, rfl, rfl, rfl⟩

theorem recorded_requestGenerationTransition (s : Slab C) {kind : GenerationTransitionKind}
    (hrequest : action.request = some request) (hkind : request.kind = some kind) {finish : Bool}
    (hfinishes : finish = true → s.activeExecutions = 0 → s.Finishes action) :
    ∃ u, Recorded s u action ∧
      Carries s action u (s.requestGenerationTransition kind finish) := by
  refine ⟨_, s.recorded_recordTransition hrequest hkind, ?_⟩
  have hactive : (s.recordTransition kind).activeExecutions = s.activeExecutions := by
    unfold recordTransition
    split_ifs <;> rfl
  unfold requestGenerationTransition
  simp only
  split
  · rename_i hfinish
    exact carries_finishPendingInvalidation fun h => hfinishes hfinish (hactive ▸ h)
  · exact .inl (.refl _)

/-- A range is recorded first, and carried out only with nobody inside. -/
theorem recorded_requestRangeTransition (s : Slab C) {start length : ℕ}
    (hrequest : action.request = some (.range start length)) {finish : Bool}
    (hfinishes : finish = true → s.activeExecutions = 0 → s.Finishes action) :
    ∃ u, Recorded s u action ∧
      Carries s action u (s.requestRangeTransition start length finish) := by
  have hnone : action.kind = none := by rw [SlabAction.kind, hrequest]; rfl
  have hrequests : ∀ a, Requests action a ↔
      length ≠ 0 ∧ start ≤ a ∧ a ≤ inclusiveRangeEnd start length := by
    intro a
    simp only [Requests, hrequest, Option.some.injEq, SlabRequest.range.injEq]
    exact ⟨fun ⟨_, _, ⟨hstart, hlength⟩, h⟩ => hstart ▸ hlength ▸ h,
      fun h => ⟨_, _, ⟨rfl, rfl⟩, h⟩⟩
  unfold requestRangeTransition
  split
  · rename_i hskip
    refine ⟨s, ⟨rfl, rfl, rfl, rfl, rfl, by simp [hnone], by simp [hnone], fun hclear a => ?_, rfl,
      id⟩, .inl (.refl s)⟩
    have hlength : length = 0 := hskip.resolve_right hclear
    simp [hrequests, hlength]
  · rename_i hskip
    obtain ⟨hlength, -⟩ := not_or.mp hskip
    refine ⟨signalActiveExecutors { s with
      pendingRanges := (Interval.closed start (inclusiveRangeEnd start length)).toList.foldl
        IntervalSet.add s.pendingRanges },
      ⟨rfl, rfl, rfl, rfl, rfl, by simp [hnone, signalActiveExecutors], ?_, fun _ a => ?_, rfl,
        id⟩, ?_⟩
    · simp [hnone, signalActiveExecutors, ClearAllPending]
    · refine covers_add_all.trans ?_
      rw [Interval.mem_closed, hrequests, or_comm]
      exact or_congr_right (and_iff_right hlength).symm
    · simp only
      split
      · exact carries_finishPendingInvalidation (hfinishes ‹_›)
      · exact .inl (.refl _)

/-- Every operation records its request, if it makes one, and may then carry out what
is pending. -/
theorem recorded_step (hstep : s.step action = some t) :
    ∃ u, Recorded s u action ∧ Carries s action u t := by
  cases action with
  | registerExecutor state =>
      obtain ⟨executors, rfl⟩ := registerExecutor_eq hstep
      exact ⟨s, .refl s rfl, .inl ⟨rfl, rfl, rfl, rfl, rfl⟩⟩
  | unregisterExecutor state =>
      obtain ⟨executors, rfl⟩ := unregisterExecutor_eq hstep
      exact ⟨s, .refl s rfl, .inl ⟨rfl, rfl, rfl, rfl, rfl⟩⟩
  | enterExecution state =>
      simp only [step, Option.map_eq_some_iff] at hstep
      obtain ⟨⟨generation, t'⟩, henter, rfl⟩ := hstep
      exact ⟨s, .refl s rfl, .inl (waits_enterExecution henter)⟩
  | leaveExecution state generation =>
      obtain ⟨-, hactive, executors, rfl⟩ := leaveExecution_eq hstep
      refine ⟨_, ?_, carries_servicePendingInvalidation fun h => ?_⟩
      · exact .of_eq rfl rfl rfl rfl rfl rfl rfl rfl rfl rfl rfl
      · have : s.activeExecutions - 1 = 0 := h
        simp only [Finishes]
        omega
  | findBlock location generation =>
      exact ⟨s, .refl s rfl, .inl (Option.some.inj hstep ▸ s.waits_findBlock _ _)⟩
  | emit caller block generation =>
      simp only [step, Option.map_eq_some_iff] at hstep
      obtain ⟨⟨result, t'⟩, hemit, rfl⟩ := hstep
      exact ⟨s, .refl s rfl, .inl (waits_emit hemit)⟩
  | runCode codePtr =>
      exact ⟨s, .refl s rfl, .inl (Option.some.inj hstep ▸ s.waits_touchCodeSegment codePtr)⟩
  | clearCache =>
      exact Option.some.inj hstep ▸ s.recorded_requestGenerationTransition rfl rfl fun _ h => h
  | recycleCache =>
      exact Option.some.inj hstep ▸ s.recorded_requestGenerationTransition rfl rfl fun _ h => h
  | requestCacheClear =>
      exact Option.some.inj hstep ▸ s.recorded_requestGenerationTransition rfl rfl (by rintro ⟨⟩)
  | invalidateCacheRange start length =>
      exact Option.some.inj hstep ▸ s.recorded_requestRangeTransition rfl fun _ h => h
  | requestCacheRange start length =>
      exact Option.some.inj hstep ▸ s.recorded_requestRangeTransition rfl (by rintro ⟨⟩)
  | servicePendingInvalidation =>
      exact ⟨s, .refl s rfl, Option.some.inj hstep ▸ carries_servicePendingInvalidation id⟩

theorem Carries.transitions (h : Carries s action u t) : t.transitions = u.transitions := by
  rcases h with h | ⟨-, -, rfl | rfl⟩
  · simp only [Slab.transitions, h.segmentRecycles, h.fullGenerationClears, h.clearPending]
  · exact u.transitions_finishPendingInvalidation
  · exact u.transitions_servicePendingInvalidation

theorem quiet_servicePendingInvalidation (hactive : s.activeExecutions = 0) :
    s.servicePendingInvalidation.quiet = true := by
  obtain ⟨cache, heq⟩ := s.finishPendingInvalidation.finishPendingDirectLinkPublication_eq
  rw [servicePendingInvalidation, heq]
  exact quiet_finishPendingInvalidation hactive

theorem Carries.pending (h : Carries s action u t) (hpending : t.clearPending = true) :
    u.clearPending = true ∧ t.pendingTransition = u.pendingTransition := by
  rcases h with h | ⟨-, hactive, rfl | rfl⟩
  · exact ⟨h.clearPending ▸ hpending, h.pendingTransition⟩
  · have hquiet := quiet_eq_true.mp (quiet_finishPendingInvalidation hactive)
    exact absurd hpending (by simp [hquiet.1])
  · have hquiet := quiet_eq_true.mp (quiet_servicePendingInvalidation hactive)
    exact absurd hpending (by simp [hquiet.1])

/-- A transition that is over was carried out with nobody in. -/
theorem Carries.finished (h : Carries s action u t) (hpending : u.clearPending = true)
    (hover : t.clearPending = false) : u.activeExecutions = 0 ∧
      t.segmentRecycles = u.finishPendingInvalidation.segmentRecycles ∧
      t.fullGenerationClears = u.finishPendingInvalidation.fullGenerationClears ∧
      ∀ d, t.Present d ↔ u.finishPendingInvalidation.Present d := by
  rcases h with h | ⟨-, hactive, rfl | rfl⟩
  · have hclear := h.clearPending
    rw [hover, hpending] at hclear
    cases hclear
  · exact ⟨hactive, rfl, rfl, fun _ => Iff.rfl⟩
  · unfold servicePendingInvalidation finishPendingDirectLinkPublication
    split
    · exact ⟨hactive, rfl, rfl, fun _ => Iff.rfl⟩
    · exact ⟨hactive, rfl, rfl, fun d => by simp [Present]⟩

structure Cleared (s t : Slab C) : Prop where
  fullGenerationClears : t.fullGenerationClears = s.fullGenerationClears + 1
  segmentRecycles : t.segmentRecycles = s.segmentRecycles
  absent : ∀ d, ¬t.Present d

theorem finishClearAll_counts (s : Slab C) :
    s.finishClearAll.segmentRecycles = s.segmentRecycles ∧
      s.finishClearAll.fullGenerationClears = s.fullGenerationClears + 1 := by
  obtain ⟨cache, segments, current, clock, bytes, heq⟩ :=
    resetCodeSegments_eq { s with cache := CodeCache.clearCache s.cache }
  simp only [finishClearAll, publishGeneration, heq, and_self]

theorem Carries.cleared (h : Carries s action u t) (hrecorded : Recorded s u action)
    (hpending : u.ClearAllPending) (hover : t.clearPending = false) : Cleared s t := by
  obtain ⟨hactive, hrecycles, hclears, hpresent⟩ := h.finished hpending.1 hover
  rw [finishPendingInvalidation_of_clearAll hactive hpending] at hrecycles hclears hpresent
  refine ⟨?_, ?_, fun d hd => u.not_present_finishClearAll d ((hpresent d).mp hd)⟩
  · rw [← hrecorded.fullGenerationClears]
    exact hclears.trans u.finishClearAll_counts.2
  · rw [← hrecorded.segmentRecycles]
    exact hrecycles.trans u.finishClearAll_counts.1

theorem finishRecycle_counts (s : Slab C) :
    s.finishRecycle.segmentRecycles = s.segmentRecycles + 1 ∧
      s.finishRecycle.fullGenerationClears = s.fullGenerationClears := by
  simp only [finishRecycle, invalidatePendingRanges, publishGeneration, recycleCodeSegment]
  split_ifs
  all_goals exact ⟨rfl, rfl⟩

/-! ### What waits -/

/-- A request that concerns the guest address waits to be carried out. -/
def Awaits (s : Slab C) (a : ℕ) : Prop := s.ClearAllPending ∨ s.pendingRanges.Covers a

theorem not_awaits_of_quiet (hquiet : s.quiet = true) (a : ℕ) : ¬s.Awaits a := by
  obtain ⟨hclear, hranges⟩ := quiet_eq_true.mp hquiet
  rintro (h | h)
  · exact Bool.false_ne_true (hclear.symm.trans h.1)
  · rw [hranges] at h
    obtain ⟨I, hI, -⟩ := h
    exact List.not_mem_nil hI

theorem generation_of_clearAll (hactive : u.activeExecutions = 0) (hpending : u.ClearAllPending)
    (h : t = u.finishPendingInvalidation ∨ t = u.servicePendingInvalidation) :
    t.currentGeneration = u.pendingGeneration := by
  have hfinish : u.finishPendingInvalidation.currentGeneration = u.pendingGeneration := by
    obtain ⟨cache, segments, current, clock, bytes, heq⟩ :=
      resetCodeSegments_eq { u with cache := CodeCache.clearCache u.cache }
    rw [finishPendingInvalidation_of_clearAll hactive hpending]
    simp only [finishClearAll, publishGeneration, heq]
  rcases h with rfl | rfl
  · exact hfinish
  · obtain ⟨cache, heq⟩ := u.finishPendingInvalidation.finishPendingDirectLinkPublication_eq
    rw [servicePendingInvalidation, heq]
    exact hfinish

/-- What concerns an address goes on waiting while the generation stays, unless ranges
are carried out. -/
theorem awaits_step {a : ℕ} (hahead : s.PendingAhead) (hstep : s.step action = some t)
    (hgeneration : t.currentGeneration = s.currentGeneration)
    (hspares : s.Finishes action → s.ClearAllPending ∨ action.kind = some .clearAll ∨
      ¬s.pendingRanges.Covers a ∧ ¬Requests action a)
    (hawaits : s.Awaits a ∨ action.kind = some .clearAll ∨ Requests action a) : t.Awaits a := by
  obtain ⟨u, hrecorded, hcarries⟩ := recorded_step hstep
  have hu : u.Awaits a := by
    by_cases hclear : u.ClearAllPending
    · exact .inl hclear
    · refine .inr ((hrecorded.ranges hclear a).mpr ?_)
      rcases hawaits with (hs | hs) | hkind | hrequests
      · exact absurd (hrecorded.clearAllPending.mpr (.inr hs)) hclear
      · exact .inl hs
      · exact absurd (hrecorded.clearAllPending.mpr (.inl hkind)) hclear
      · exact .inr hrequests
  rcases hcarries with hwaits | ⟨hfinishes, hactive, hfinished⟩
  · simpa only [Awaits, ClearAllPending, hwaits.clearPending, hwaits.pendingTransition,
      hwaits.pendingRanges] using hu
  · by_cases hclear : u.ClearAllPending
    · have hnext := generation_of_clearAll hactive hclear hfinished
      have hlt := hrecorded.ahead hahead hclear.1
      have := hrecorded.currentGeneration
      omega
    · rcases hspares hfinishes with hs | hkind | ⟨hcovers, hrequests⟩
      · exact absurd (hrecorded.clearAllPending.mpr (.inr hs)) hclear
      · exact absurd (hrecorded.clearAllPending.mpr (.inl hkind)) hclear
      · rcases (hrecorded.ranges hclear a).mp (hu.resolve_left hclear) with h | h
        · exact absurd h hcovers
        · exact absurd h hrequests

end Slab

end Umbra.Backend
