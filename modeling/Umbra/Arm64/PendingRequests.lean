import Umbra.Arm64.Quiescence
import Umbra.Backend.SlabRequests

/-!
Requests to the slab are not lost.

The log of a slab remembers when blocks were emitted, when requests were made and
which of them were merged into the transition that is pending.  A block that a
request covers is owed to it until it is gone, and every transition ends in exactly
one recycle or clear.
-/

namespace Umbra.Backend

open Umbra.Lib Umbra.IR CodeCache

/-! ### The log -/

structure SlabLog (C : Type) where
  slab : Slab C
  clock : ℕ
  emittedAt : LocationDescriptor → ℕ
  requests : List (ℕ × SlabRequest)
  /-- The requests that make up the pending transition. -/
  merged : List GenerationTransitionKind
  /-- The transitions begun so far. -/
  begun : ℕ

namespace SlabLog

variable {C S : Type} [CodeCache C S]

def create (slab : Slab C) : SlabLog C := ⟨slab, 1, fun _ => 0, [], [], 0⟩

def step (h : SlabLog C) (action : SlabAction S) : Option (SlabLog C) :=
  (h.slab.step action).map fun t =>
    { slab := t
      clock := h.clock + 1
      emittedAt := (h.slab.installs t action).elim h.emittedAt
        (Function.update h.emittedAt · h.clock)
      requests := action.request.toList.map (h.clock, ·) ++ h.requests
      merged := if t.clearPending then h.merged ++ action.kind.toList else []
      begun := h.begun + if action.kind.isSome && !h.slab.clearPending then 1 else 0 }

/-- Every block a request covers is gone or about to go. -/
structure Owed (h : SlabLog C) : Prop where
  past : ∀ {time request}, (time, request) ∈ h.requests → time < h.clock
  doomed : ∀ {time request d}, (time, request) ∈ h.requests → h.emittedAt d < time →
    h.slab.Covers d request → h.slab.Doomed d
  merged : h.slab.clearPending = true →
    (h.slab.pendingTransition = .clearAll ↔ .clearAll ∈ h.merged)
  idle : h.slab.clearPending = false → h.merged = []
  begun : h.slab.transitions = h.begun

theorem Owed.create (cache : C) (begin_ : CodePtr) (usableBytes : ℕ) (shared : Bool) :
    (SlabLog.create (Slab.create cache begin_ usableBytes shared)).Owed := by
  have hreset : ∀ s : Slab C, s.resetCodeSegments.clearPending = s.clearPending ∧
      s.resetCodeSegments.transitions = s.transitions := by
    intro s
    obtain ⟨cache, segments, current, clock, bytes, heq⟩ := s.resetCodeSegments_eq
    rw [heq]
    exact ⟨rfl, rfl⟩
  have hidle : (Slab.create cache begin_ usableBytes shared).clearPending = false := (hreset _).1
  refine ⟨fun hmem => absurd hmem List.not_mem_nil, fun hmem => absurd hmem List.not_mem_nil,
    fun hpending => ?_, fun _ => rfl, (hreset _).2⟩
  exact absurd (hidle.symm.trans hpending) Bool.false_ne_true

theorem Owed.clearAllPending_iff {h : SlabLog C} (howed : h.Owed) :
    h.slab.ClearAllPending ↔ .clearAll ∈ h.merged := by
  cases hpending : h.slab.clearPending with
  | false =>
      rw [howed.idle hpending]
      exact iff_of_false (fun hclear => Bool.false_ne_true (hpending.symm.trans hclear.1))
        List.not_mem_nil
  | true =>
      rw [← howed.merged hpending]
      exact and_iff_right hpending

/-- No operation forgets a request before its blocks are gone. -/
theorem Owed.step {h h' : SlabLog C} (howed : h.Owed) {action : SlabAction S}
    (hstep : h.step action = some h') : h'.Owed := by
  obtain ⟨t, ht, rfl⟩ := Option.map_eq_some_iff.mp hstep
  have hpast : ∀ {time request},
      (time, request) ∈ action.request.toList.map (h.clock, ·) ++ h.requests → time ≤ h.clock := by
    intro time request hmem
    rcases List.mem_append.mp hmem with hnew | hold
    · obtain ⟨request', -, heq⟩ := List.mem_map.mp hnew
      exact (Prod.mk.inj heq).1.ge
    · exact (howed.past hold).le
  obtain ⟨u, hrecorded, hcarries⟩ := Slab.recorded_step ht
  refine ⟨fun hmem => Nat.lt_succ_of_le (hpast hmem), ?_, ?_, ?_, ?_⟩
  · intro time request d hmem hemitted hcovers
    by_cases hpresent : t.Present d
    · by_cases hinstalled : h.slab.installs t action = some d
      · -- The block is newer than all requests.
        simp only [hinstalled, Option.elim_some, Function.update_self] at hemitted
        exact absurd (hpast hmem) (not_le.mpr hemitted)
      · have hevolves := Slab.evolves_step ht hinstalled
        have hcovered := Slab.covers_of_evolves hevolves hpresent hcovers
        rcases List.mem_append.mp hmem with hnew | hold
        · obtain ⟨request', hrequest, heq⟩ := List.mem_map.mp hnew
          obtain ⟨-, rfl⟩ := Prod.mk.inj heq
          exact Slab.doomed_of_request (Option.mem_toList.mp hrequest) ht hcovered
        · refine hevolves.doomed (howed.doomed hold ?_ hcovered)
          cases hinstalls : h.slab.installs t action with
          | none => simpa only [hinstalls, Option.elim_none] using hemitted
          | some d' =>
              have hne : d ≠ d' := fun heq => hinstalled (heq ▸ hinstalls)
              simpa only [hinstalls, Option.elim_some, Function.update_of_ne hne] using hemitted
    · exact .inl hpresent
  · intro hpending
    have hpending : t.clearPending = true := hpending
    obtain ⟨hu, hkind⟩ := hcarries.pending hpending
    simp only [hpending, ↓reduceIte, List.mem_append, ← howed.clearAllPending_iff, hkind]
    rw [← and_iff_right (a := u.clearPending = true) (b := u.pendingTransition = .clearAll) hu]
    refine hrecorded.clearAllPending.trans ?_
    rw [or_comm, Option.mem_toList]
  · intro hpending
    have hpending : t.clearPending = false := hpending
    simp only [hpending, Bool.false_eq_true, ↓reduceIte]
  · rw [hcarries.transitions, hrecorded.transitions, howed.begun]

/-- The slab has no block that a request covers and that is older than the request. -/
def Served (h : SlabLog C) (t : Slab C) : Prop :=
  ∀ time request d, (time, request) ∈ h.requests → h.emittedAt d < time → t.Present d →
    ¬t.Covers d request

theorem Owed.served {h : SlabLog C} (howed : h.Owed) {t : Slab C} (hquiet : t.quiet = true)
    (hevolves : ∀ d, Slab.Evolves h.slab t d) : h.Served t := by
  intro time request d hmem hemitted hpresent hcovers
  have hdoomed := howed.doomed hmem hemitted
    (Slab.covers_of_evolves (hevolves d) hpresent hcovers)
  exact Slab.not_present_of_quiet hquiet ((hevolves d).doomed hdoomed) hpresent

end SlabLog

end Umbra.Backend

namespace Umbra.Arm64

open Umbra.Lib Umbra.IR Umbra.Backend

/-- `t` is `s` after one recycle: the blocks of one segment are gone, and beside them
only those of the ranges. -/
structure Recycled (s t : Slab AddressSpace) (ranges : ℕ → Prop) : Prop where
  segmentRecycles : t.segmentRecycles = s.segmentRecycles + 1
  fullGenerationClears : t.fullGenerationClears = s.fullGenerationClears
  present : ∀ d, t.Present d ↔ s.Present d ∧
    (∀ a, ranges a → ¬s.cache.blockRanges.Registered d a) ∧
    ¬s.cache.EntryWithin d s.recycleVictim.beginPtr s.recycleVictim.endPtr

theorem inVictim_iff {s : Slab AddressSpace} {d : LocationDescriptor} (h : ¬s.RangePending d) :
    s.InVictim d ↔ s.cache.EntryWithin d s.recycleVictim.beginPtr s.recycleVictim.endPtr := by
  have hget : s.invalidatePendingRanges.cache.blockEntries d = s.cache.blockEntries d := by
    rw [Slab.invalidatePendingRanges_cache]
    split
    · rfl
    · exact CodeCache.get_invalidateCacheRanges_of_clear fun a ha hreg => h ⟨a, ha, hreg⟩
  change AddressSpace.EntryWithin _ _ _ _ ↔ _
  simp only [AddressSpace.EntryWithin, hget]

/-- A transition that is carried out and is no full clear is one recycle. -/
theorem recycled_of_carries {s u t : Slab AddressSpace} {action : SlabAction BlockRelocation}
    (hrecorded : Slab.Recorded s u action) (hcarries : Slab.Carries s action u t)
    (hpending : u.clearPending = true) (hkind : ¬u.ClearAllPending)
    (hover : t.clearPending = false) :
    Recycled s t fun a => s.pendingRanges.Covers a ∨ Slab.Requests action a := by
  obtain ⟨hactive, hrecycles, hclears, hpresent⟩ := hcarries.finished hpending hover
  have hrecycle : u.pendingTransition = .recycleSegment := by
    cases hu : u.pendingTransition with
    | recycleSegment => rfl
    | clearAll => exact absurd ⟨hpending, hu⟩ hkind
  rw [Slab.finishPendingInvalidation_of_recycle hactive hpending hrecycle]
    at hrecycles hclears hpresent
  refine ⟨?_, ?_, fun d => (hpresent d).trans ?_⟩
  · rw [← hrecorded.segmentRecycles]
    exact hrecycles.trans u.finishRecycle_counts.1
  · rw [← hrecorded.fullGenerationClears]
    exact hclears.trans u.finishRecycle_counts.2
  · have hvictim : u.recycleVictim = s.recycleVictim := by
      simp only [Slab.recycleVictim, Slab.selectRecycleSegment, hrecorded.codeSegments,
        hrecorded.currentSegment]
    have hranges : u.RangePending d ↔ ∃ a, (s.pendingRanges.Covers a ∨ Slab.Requests action a) ∧
        s.cache.blockRanges.Registered d a := by
      rw [← hrecorded.cache]
      exact exists_congr fun a => and_congr_left' (hrecorded.ranges hkind a)
    have hsame : u.Present d ↔ s.Present d := by rw [Slab.Present, hrecorded.cache]; rfl
    refine Slab.present_finishRecycle.trans ?_
    rw [hsame]
    refine and_congr_right' ((and_congr_right fun h => not_congr (inVictim_iff h)).trans ?_)
    rw [hranges, hvictim, hrecorded.cache]
    simp only [not_exists, not_and]

/-- No request is lost.  When nothing is pending, no block is left that is covered by
a request made after its emission, and with nobody in, servicing reaches that.  A
transition ends in one full clear if one was among the requests merged into it, and
otherwise in one recycle, which takes one segment; the number of transitions carried
out is the number begun. -/
theorem pendingRequests_served {codeCacheSize endOfPrelude : ℕ} {shared : Bool}
    {h : SlabLog AddressSpace}
    (hreach : Reaches SlabLog.step always
      (SlabLog.create (createSlab codeCacheSize endOfPrelude shared)) h) :
    (h.slab.quiet = true → h.Served h.slab) ∧
    (h.slab.activeExecutions = 0 → h.slab.servicePendingInvalidation.quiet = true ∧
      h.Served h.slab.servicePendingInvalidation) ∧
    (∀ action h', h.step action = some h' → h'.slab.clearPending = false →
      (.clearAll ∈ h.merged ++ action.kind.toList → Slab.Cleared h.slab h'.slab) ∧
      (h.merged ++ action.kind.toList ≠ [] → .clearAll ∉ h.merged ++ action.kind.toList →
        Recycled h.slab h'.slab fun a => h.slab.pendingRanges.Covers a ∨
          Slab.Requests action a)) ∧
    h.slab.segmentRecycles + h.slab.fullGenerationClears +
      (if h.slab.clearPending then 1 else 0) = h.begun := by
  have howed : h.Owed := by
    refine hreach.invariant (I := SlabLog.Owed) ?_ fun _ _ _ hu _ hstep => hu.step hstep
    exact .create _ _ _ _
  refine ⟨fun hquiet => howed.served hquiet fun d => .refl _ d, fun hactive => ?_,
    fun action h' hstep hover => ?_, howed.begun⟩
  · have hquiet := Slab.quiet_servicePendingInvalidation hactive
    exact ⟨hquiet, howed.served hquiet fun d => h.slab.evolves_servicePendingInvalidation d⟩
  · obtain ⟨t, ht, rfl⟩ := Option.map_eq_some_iff.mp hstep
    obtain ⟨u, hrecorded, hcarries⟩ := Slab.recorded_step ht
    have hclear : u.ClearAllPending ↔ .clearAll ∈ h.merged ++ action.kind.toList := by
      rw [hrecorded.clearAllPending, howed.clearAllPending_iff, List.mem_append, or_comm,
        Option.mem_toList]
    refine ⟨fun hmem => hcarries.cleared hrecorded (hclear.mpr hmem) hover, fun hne hnot => ?_⟩
    refine recycled_of_carries hrecorded hcarries ?_ (fun h => hnot (hclear.mp h)) hover
    rw [hrecorded.clearPending, Bool.or_eq_true]
    cases hidle : h.slab.clearPending with
    | true => exact .inl rfl
    | false =>
        rw [howed.idle hidle, List.nil_append, ne_eq, Option.toList_eq_nil_iff] at hne
        exact .inr (Option.isSome_iff_ne_none.mpr hne)

/-! A recycle and a clear arrive while an executor is in. -/

def mergingRun : List (SlabAction BlockRelocation) :=
  [.registerExecutor 0, .enterExecution 0, .emit 0 ⟨4096, Interval.closed 4096 4099, 64, []⟩ 1,
    .recycleCache, .requestCacheRange 4096 4, .clearCache]

theorem mergingRun_isSome :
    (run SlabLog.step (SlabLog.create (createSlab (1024 * 1024) 5000 true)) mergingRun).isSome := by
  decide

theorem pendingRequests_served_mergingRun : ∃ h h',
    run SlabLog.step (SlabLog.create (createSlab (1024 * 1024) 5000 true)) mergingRun = some h ∧
    h.step (.leaveExecution 0 1) = some h' ∧ h.slab.Present 4096 ∧
    Slab.Cleared h.slab h'.slab := by
  have hreach := reaches_of_run (Option.some_get mergingRun_isSome).symm
    (follows_always (SlabLog.create (createSlab (1024 * 1024) 5000 true)) mergingRun)
  refine ⟨_, _, (Option.some_get mergingRun_isSome).symm, rfl, by decide, ?_⟩
  exact ((pendingRequests_served hreach).2.2.1 (.leaveExecution 0 1) _ rfl (by decide)).1
    (by decide)

end Umbra.Arm64
