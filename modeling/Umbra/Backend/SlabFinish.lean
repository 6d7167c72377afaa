import Mathlib.Data.List.GetD
import Umbra.Backend.Segmentation
import Umbra.Backend.SlabRun

/-!
What an operation of the slab does to its code.

An operation emits at most one block, or it comes to `finish_pending_invalidation`, which
drops code if nobody is inside, or it leaves the code alone.
-/

namespace Umbra.Backend

open Umbra.Lib Umbra.IR CodeCache

namespace Slab

variable {C S : Type} [CodeCache C S] {s t u : Slab C} {action : SlabAction S}

structure Alike (s t : Slab C) : Prop where
  cache : t.cache = s.cache
  segments : t.codeSegments.map codeRange = s.codeSegments.map codeRange
  current : t.currentSegment = s.currentSegment

theorem Alike.refl (s : Slab C) : Alike s s := ⟨rfl, rfl, rfl⟩

theorem Alike.of_eq (hcache : t.cache = s.cache) (hsegments : t.codeSegments = s.codeSegments)
    (hcurrent : t.currentSegment = s.currentSegment) : Alike s t :=
  ⟨hcache, by rw [hsegments], hcurrent⟩

theorem alike_touchCodeSegment (s : Slab C) (p : CodePtr) : Alike s (s.touchCodeSegment p) := by
  unfold touchCodeSegment
  split
  · exact .refl s
  · exact ⟨rfl, map_modify_of_eq codeRange _ _ fun _ => rfl, rfl⟩

theorem alike_updateActiveSegmentUsage (s : Slab C) : Alike s s.updateActiveSegmentUsage := by
  unfold updateActiveSegmentUsage
  simp only
  split
  · exact .refl s
  · exact ⟨rfl, map_modify_of_eq codeRange _ _ fun _ => rfl, rfl⟩

theorem Alike.trans (hst : Alike s t) (htu : Alike t u) : Alike s u :=
  ⟨htu.cache.trans hst.cache, htu.segments.trans hst.segments, htu.current.trans hst.current⟩

/-! ### Operations that come to finish what is pending -/

/-- The slab as it is when the operation calls `finish_pending_invalidation`, if it does. -/
def beforeFinish (s : Slab C) : SlabAction S → Option (Slab C)
  | .clearCache => some (s.recordTransition .clearAll).signalActiveExecutors
  | .recycleCache => some (s.recordTransition .recycleSegment).signalActiveExecutors
  | .invalidateCacheRange startAddress length =>
      if length = 0 ∨ (s.clearPending = true ∧ s.pendingTransition = .clearAll) then none
      else some (signalActiveExecutors { s with
        pendingRanges := (Interval.closed startAddress
          (inclusiveRangeEnd startAddress length)).toList.foldl IntervalSet.add s.pendingRanges })
  | .leaveExecution state generation =>
      some { s.setExecutor state generation false with activeExecutions := s.activeExecutions - 1 }
  | .servicePendingInvalidation => some s
  | _ => none

/-- The number of active executors at the moment the operation may write to code. -/
def executionsAtPatching (s : Slab C) (action : SlabAction S) : ℕ :=
  ((s.beforeFinish action).getD s).activeExecutions

theorem alike_recordTransition (s : Slab C) (kind : GenerationTransitionKind) :
    Alike s (s.recordTransition kind).signalActiveExecutors := by
  unfold recordTransition
  split
  · exact .of_eq rfl rfl rfl
  · split
    · exact .of_eq rfl rfl rfl
    · exact .of_eq rfl rfl rfl

theorem step_of_beforeFinish (hstep : s.step action = some t)
    (hu : s.beforeFinish action = some u) : Alike s u ∧
      (t = u.finishPendingInvalidation ∨ t = u.servicePendingInvalidation) := by
  cases action with
  | clearCache =>
      obtain rfl := Option.some.inj hstep
      obtain rfl := Option.some.inj hu
      exact ⟨s.alike_recordTransition _, .inl rfl⟩
  | recycleCache =>
      obtain rfl := Option.some.inj hstep
      obtain rfl := Option.some.inj hu
      exact ⟨s.alike_recordTransition _, .inl rfl⟩
  | invalidateCacheRange start length =>
      obtain rfl := Option.some.inj hstep
      simp only [beforeFinish] at hu
      split at hu
      · cases hu
      · rename_i hskip
        obtain rfl := Option.some.inj hu
        exact ⟨.of_eq rfl rfl rfl, .inl (if_neg hskip)⟩
  | leaveExecution state generation =>
      obtain rfl := Option.some.inj hu
      simp only [step, leaveExecution] at hstep
      split at hstep
      · cases hstep
      · split at hstep
        · cases hstep
        · rename_i executor _ hthrows
          obtain rfl := Option.some.inj hstep
          simp only [not_or, ne_eq, not_not] at hthrows
          refine ⟨.of_eq rfl rfl rfl, .inr ?_⟩
          rw [hthrows.2.1]
          rfl
  | servicePendingInvalidation =>
      obtain rfl := Option.some.inj hstep
      obtain rfl := Option.some.inj hu
      exact ⟨.refl _, .inr rfl⟩
  | _ => cases hu

def emitMode (s : Slab C) (caller : ℕ) : EmitMode :=
  ⟨s.sharedMode, s.isActive caller, s.activeExecutions⟩

def Emits (s : Slab C) (caller : ℕ) (block : Block S) (t : Slab C) : Prop :=
  (get s.cache block.location = none ∧
      ∃ p, CodeCache.emit s.cache block (s.emitMode caller) = some (p, t.cache)) ∨
    ∃ p, get s.cache block.location = some p ∧
      t.cache = republish s.cache block.location p (s.emitMode caller)

/-- An emission is refused, or made with what the cache does alone. -/
theorem step_emit {caller generation : ℕ} {block : Block S}
    (hstep : s.step (.emit caller block generation) = some t) :
    (s.quiet = false ∨ generation ≠ s.currentGeneration) ∧ t = s ∨
      ¬(s.quiet = false ∨ generation ≠ s.currentGeneration) ∧
        Alike { s with cache := t.cache } t ∧ s.Emits caller block t := by
  simp only [step, Option.map_eq_some_iff] at hstep
  obtain ⟨⟨result, t'⟩, hemit, rfl⟩ := hstep
  unfold emit at hemit
  split at hemit
  · rename_i hrefused
    obtain ⟨-, rfl⟩ := Prod.mk.inj (Option.some.inj hemit)
    exact .inl ⟨hrefused, rfl⟩
  · rename_i hgo
    simp only at hemit
    refine .inr ⟨hgo, ?_⟩
    split at hemit
    · rename_i p hget
      obtain ⟨-, rfl⟩ := Prod.mk.inj (Option.some.inj hemit)
      have htouch := alike_touchCodeSegment { s with
        cache := republish s.cache block.location p
          ⟨s.sharedMode, s.isActive caller, s.activeExecutions⟩ } p
      simp only [htouch.cache]
      exact ⟨htouch, .inr ⟨p, hget, htouch.cache⟩⟩
    · rename_i hget
      split at hemit
      · cases hemit
      · rename_i p cache hcache
        obtain ⟨-, rfl⟩ := Prod.mk.inj (Option.some.inj hemit)
        have htouch := (alike_updateActiveSegmentUsage { s with cache }).trans
          (alike_touchCodeSegment _ p)
        simp only [htouch.cache]
        exact ⟨htouch, .inl ⟨hget, p, by rw [htouch.cache]; exact hcache⟩⟩

/-- An operation that does not come to finish leaves the code alone, publishes links before an
executor enters, or emits. -/
theorem step_of_not_finishing (hstep : s.step action = some t)
    (hnone : s.beforeFinish action = none) :
    Alike s t ∨ Alike s.finishPendingDirectLinkPublication t ∨
      ∃ caller block generation, action = .emit caller block generation ∧
        Alike { s with cache := t.cache } t ∧ s.Emits caller block t := by
  cases action with
  | registerExecutor state =>
      obtain ⟨executors, rfl⟩ := registerExecutor_eq hstep
      exact .inl (.of_eq rfl rfl rfl)
  | unregisterExecutor state =>
      obtain ⟨executors, rfl⟩ := unregisterExecutor_eq hstep
      exact .inl (.of_eq rfl rfl rfl)
  | enterExecution state =>
      obtain ⟨⟨generation, t'⟩, henter, rfl⟩ := Option.map_eq_some_iff.mp hstep
      obtain ⟨-, executors, active, rfl⟩ := enterExecution_eq henter
      exact .inr (.inl (.of_eq rfl rfl rfl))
  | leaveExecution state generation => cases hnone
  | findBlock location generation =>
      obtain rfl := Option.some.inj hstep
      unfold findBlock
      split
      · exact .inl (.refl s)
      · split
        · exact .inl (.refl s)
        · exact .inl (s.alike_touchCodeSegment _)
  | emit caller block generation =>
      rcases step_emit hstep with ⟨-, rfl⟩ | ⟨-, halike, hemits⟩
      · exact .inl (.refl t)
      · exact .inr (.inr ⟨caller, block, generation, rfl, halike, hemits⟩)
  | runCode codePtr =>
      obtain rfl := Option.some.inj hstep
      exact .inl (s.alike_touchCodeSegment codePtr)
  | clearCache => cases hnone
  | recycleCache => cases hnone
  | requestCacheClear =>
      obtain rfl := Option.some.inj hstep
      exact .inl (s.alike_recordTransition _)
  | invalidateCacheRange start length =>
      obtain rfl := Option.some.inj hstep
      simp only [beforeFinish] at hnone
      split at hnone
      · rename_i hskip
        exact .inl (by rw [invalidateCacheRange, requestRangeTransition, if_pos hskip]; exact .refl s)
      · cases hnone
  | requestCacheRange start length =>
      obtain rfl := Option.some.inj hstep
      unfold requestCacheRange requestRangeTransition
      split
      · exact .inl (.refl s)
      · exact .inl (.of_eq rfl rfl rfl)
  | servicePendingInvalidation => cases hnone

/-- While somebody is inside, an operation emits or leaves the cache alone. -/
theorem step_of_executing (hstep : s.step action = some t)
    (hcount : s.executionsAtPatching action ≠ 0) : t.cache = s.cache ∨
      ∃ caller block generation, action = .emit caller block generation ∧
        Alike { s with cache := t.cache } t ∧ s.Emits caller block t := by
  cases hu : s.beforeFinish action with
  | some u =>
      rw [executionsAtPatching, hu, Option.getD_some] at hcount
      obtain ⟨halike, ht⟩ := step_of_beforeFinish hstep hu
      rw [finishPendingInvalidation_of_active hcount,
        servicePendingInvalidation_of_active hcount, or_self] at ht
      exact .inl (ht ▸ halike.cache)
  | none =>
      rw [executionsAtPatching, hu, Option.getD_none] at hcount
      rcases step_of_not_finishing hstep hu with halike | halike | hemits
      · exact .inl halike.cache
      · rw [finishPendingDirectLinkPublication, if_pos hcount] at halike
        exact .inl halike.cache
      · exact .inr hemits

/-! ### Properties of the cache -/

structure KeptByCache (P : C → Prop) : Prop where
  emit : ∀ {c c' : C} {block : Block S} {mode p}, P c → get c block.location = none →
    CodeCache.emit c block mode = some (p, c') → P c'
  republish : ∀ {c : C} (d p mode), P c → P (CodeCache.republish c d p mode)
  publishLinks : ∀ {c : C}, P c → P (CodeCache.publishLinks c)
  clearCache : ∀ {c : C}, P c → P (CodeCache.clearCache c)
  invalidateCacheRanges : ∀ {c : C} (ranges), P c → P (CodeCache.invalidateCacheRanges c ranges)
  retireCodeRange : ∀ {c : C} (first last), P c → P (CodeCache.retireCodeRange c first last).2
  setCurrentCodePtr : ∀ {c : C} (p), P c → P (CodeCache.setCurrentCodePtr c p)

namespace KeptByCache

variable {P : C → Prop}

theorem invalidatePendingRanges (h : KeptByCache P) (hs : P s.cache) :
    P s.invalidatePendingRanges.cache := by
  unfold Slab.invalidatePendingRanges
  split
  · exact hs
  · exact h.invalidateCacheRanges _ hs

theorem resetCodeSegments (h : KeptByCache P) (hs : P s.cache) : P s.resetCodeSegments.cache := by
  unfold Slab.resetCodeSegments
  simp only
  split
  · exact hs
  · exact h.setCurrentCodePtr _ hs

theorem create (h : KeptByCache P) {cache : C} (hcache : P cache) (begin_ : CodePtr)
    (usableBytes : ℕ) (shared : Bool) : P (Slab.create cache begin_ usableBytes shared).cache :=
  h.resetCodeSegments hcache

theorem finishPendingInvalidation (h : KeptByCache P) (hs : P s.cache) :
    P s.finishPendingInvalidation.cache := by
  unfold Slab.finishPendingInvalidation
  split
  · exact hs
  · split
    · cases s.pendingTransition with
      | clearAll => exact h.resetCodeSegments (h.clearCache hs)
      | recycleSegment =>
          have hrecycled : P s.invalidatePendingRanges.recycleCodeSegment.2.cache :=
            h.setCurrentCodePtr _ (h.retireCodeRange _ _ (h.invalidatePendingRanges hs))
          simp only [finishRecycle]
          split
          · exact hrecycled
          · exact hrecycled
    · exact h.invalidatePendingRanges hs

theorem finishPendingDirectLinkPublication (h : KeptByCache P) (hs : P s.cache) :
    P s.finishPendingDirectLinkPublication.cache := by
  unfold Slab.finishPendingDirectLinkPublication
  split
  · exact hs
  · exact h.publishLinks hs

theorem step (h : KeptByCache P) (hs : P s.cache) (hstep : s.step action = some t) :
    P t.cache := by
  cases hu : s.beforeFinish action with
  | some u =>
      obtain ⟨halike, ht⟩ := step_of_beforeFinish hstep hu
      have hfinished : P u.finishPendingInvalidation.cache :=
        h.finishPendingInvalidation (halike.cache.symm ▸ hs)
      rcases ht with rfl | rfl
      · exact hfinished
      · exact h.finishPendingDirectLinkPublication hfinished
  | none =>
      rcases step_of_not_finishing hstep hu with
        halike | halike | ⟨caller, block, generation, -, -, ⟨hget, p, hemit⟩ | ⟨p, -, hcache⟩⟩
      · exact halike.cache.symm ▸ hs
      · exact halike.cache.symm ▸ h.finishPendingDirectLinkPublication hs
      · exact h.emit hs hget hemit
      · exact hcache.symm ▸ h.republish _ _ _ hs

end KeptByCache

end Slab

end Umbra.Backend
