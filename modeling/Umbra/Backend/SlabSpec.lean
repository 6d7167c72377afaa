import Umbra.Backend.Slab

/-!
What the slab owes to a request.

A descriptor is *doomed* when its block is gone or some recorded request will
take it away: a full clear is pending, or one of the addresses the block is
registered at is.  No operation of the slab rescues a doomed block, and none
changes the registration of a block it keeps; the relation `Evolves` says both,
and every operation is shown to satisfy it once.
-/

namespace Umbra.Backend.Slab

open Umbra.Lib Umbra.IR CodeCache

variable {C S : Type} [CodeCache C S]

def Present (s : Slab C) (d : LocationDescriptor) : Prop := get s.cache d ≠ none

instance (s : Slab C) (d : LocationDescriptor) : Decidable (s.Present d) :=
  inferInstanceAs (Decidable (get s.cache d ≠ none))

def ClearAllPending (s : Slab C) : Prop :=
  s.clearPending = true ∧ s.pendingTransition = .clearAll

instance (s : Slab C) : Decidable s.ClearAllPending :=
  inferInstanceAs (Decidable (_ ∧ _))

/-- A pending range meets the registered range of the descriptor. -/
def RangePending (s : Slab C) (d : LocationDescriptor) : Prop :=
  ∃ a, s.pendingRanges.Covers a ∧ Registered s.cache d a

/-- The block of the descriptor is gone, or a pending request takes it away. -/
def Doomed (s : Slab C) (d : LocationDescriptor) : Prop :=
  ¬s.Present d ∨ s.ClearAllPending ∨ s.RangePending d

/-- `t` comes after `s`, and in between no block was installed for `d`. -/
structure Evolves (s t : Slab C) (d : LocationDescriptor) : Prop where
  present : t.Present d → s.Present d
  registered : t.Present d → ∀ a, Registered t.cache d a ↔ Registered s.cache d a
  doomed : s.Doomed d → t.Doomed d

theorem Evolves.refl (s : Slab C) (d : LocationDescriptor) : Evolves s s d :=
  ⟨id, fun _ _ => Iff.rfl, id⟩

variable {s t : Slab C} {d : LocationDescriptor} {a generation state : ℕ}
  {result : Option BlockDescriptor}

theorem Evolves.trans {u : Slab C} (hst : Evolves s t d) (htu : Evolves t u d) : Evolves s u d where
  present h := hst.present (htu.present h)
  registered h a := (htu.registered h a).trans (hst.registered (htu.present h) a)
  doomed h := htu.doomed (hst.doomed h)

theorem Evolves.of_absent (h : ¬t.Present d) :
    Evolves s t d :=
  ⟨fun hp => absurd hp h, fun hp => absurd hp h, fun _ => .inl h⟩

/-- A step that leaves entry point, registration and pending requests alone is
an evolution. -/
theorem Evolves.of_same (d : LocationDescriptor) (hget : get t.cache = get s.cache)
    (hreg : Registered t.cache = Registered s.cache) (hranges : t.pendingRanges = s.pendingRanges)
    (hclear : t.clearPending = s.clearPending) (hkind : t.pendingTransition = s.pendingTransition) :
    Evolves s t d where
  present h := by simpa only [Present, hget] using h
  registered _ a := by rw [hreg]
  doomed h := by
    simpa only [Doomed, Present, ClearAllPending, RangePending, hget, hreg, hranges, hclear,
      hkind] using h

theorem not_present_of_quiet (hquiet : s.quiet = true) (h : s.Doomed d) : ¬s.Present d := by
  simp only [quiet, Bool.and_eq_true, Bool.not_eq_true', List.isEmpty_iff] at hquiet
  rcases h with h | ⟨h, _⟩ | ⟨a, h, _⟩
  · exact h
  · simp [hquiet.1] at h
  · simp [hquiet.2] at h

/-! ### Bookkeeping that no request sees -/

theorem touchCodeSegment_eq (s : Slab C) (p : CodePtr) : ∃ segments clock,
    s.touchCodeSegment p = { s with codeSegments := segments, segmentTouchClock := clock } := by
  unfold touchCodeSegment
  split
  · exact ⟨_, _, rfl⟩
  · exact ⟨_, _, rfl⟩

theorem updateActiveSegmentUsage_eq (s : Slab C) : ∃ segments bytes,
    s.updateActiveSegmentUsage =
      { s with codeSegments := segments, liveAllocatedCodeBytes := bytes } := by
  unfold updateActiveSegmentUsage
  simp only
  split
  · exact ⟨_, _, rfl⟩
  · exact ⟨_, _, rfl⟩

theorem evolves_touchCodeSegment (s : Slab C) (p : CodePtr) (d : LocationDescriptor) :
    Evolves s (s.touchCodeSegment p) d := by
  obtain ⟨segments, clock, h⟩ := s.touchCodeSegment_eq p
  rw [h]
  exact .of_same d rfl rfl rfl rfl rfl

@[simp] theorem resetCodeSegments_cache (s : Slab C) :
    get s.resetCodeSegments.cache = get s.cache := by
  unfold resetCodeSegments
  simp only
  split <;> simp

@[simp] theorem resetCodeSegments_fullGenerationClears (s : Slab C) :
    s.resetCodeSegments.fullGenerationClears = s.fullGenerationClears := by
  unfold resetCodeSegments
  simp only
  split <;> rfl

theorem evolves_signalActiveExecutors (s : Slab C) (d : LocationDescriptor) :
    Evolves s s.signalActiveExecutors d :=
  .of_same d rfl rfl rfl rfl rfl

theorem evolves_finishPendingDirectLinkPublication (s : Slab C) (d : LocationDescriptor) :
    Evolves s s.finishPendingDirectLinkPublication d := by
  unfold finishPendingDirectLinkPublication
  split
  · exact .refl s d
  · exact .of_same d (get_publishLinks _) (registered_publishLinks _) rfl rfl rfl

/-! ### Carrying out the pending work -/

theorem not_present_finishClearAll (s : Slab C) (d : LocationDescriptor) :
    ¬s.finishClearAll.Present d := by
  simp [Present, finishClearAll, publishGeneration]

/-- After its pending ranges were handed over, the cache has lost exactly the
blocks that were registered in them. -/
theorem present_invalidatePendingRanges :
    s.invalidatePendingRanges.Present d ↔ s.Present d ∧ ¬s.RangePending d := by
  unfold invalidatePendingRanges
  split
  · rename_i h
    simp [RangePending, h]
  · by_cases hd : s.RangePending d
    · obtain ⟨a, ha, hreg⟩ := hd
      have := get_invalidateCacheRanges_of_meets ha hreg
      simp only [Present, this, ne_eq, not_true_eq_false, false_iff, not_and, not_not]
      exact fun _ => ⟨a, ha, hreg⟩
    · have hclear := get_invalidateCacheRanges_of_clear
        (fun a ha hreg => hd ⟨a, ha, hreg⟩ : ∀ a, s.pendingRanges.Covers a → ¬Registered s.cache d a)
      simp only [Present, hclear]
      exact ⟨fun h => ⟨h, hd⟩, And.left⟩

theorem registered_invalidatePendingRanges :
    Registered s.invalidatePendingRanges.cache d a ↔
      Registered s.cache d a ∧ ¬s.RangePending d := by
  unfold invalidatePendingRanges
  split
  · rename_i h
    simp [RangePending, h]
  · exact registered_invalidateCacheRanges _ _ d a

theorem finishRecycle_cache (s : Slab C) :
    s.finishRecycle.cache = s.invalidatePendingRanges.recycleCodeSegment.2.cache := by
  unfold finishRecycle
  simp only
  split <;> rfl

def InVictim (s : Slab C) (d : LocationDescriptor) : Prop :=
  RetiredBy s.invalidatePendingRanges.cache d s.recycleVictim.beginPtr s.recycleVictim.endPtr

theorem invalidatePendingRanges_cache (s : Slab C) :
    s.invalidatePendingRanges.cache = if s.pendingRanges = [] then s.cache
      else invalidateCacheRanges s.cache s.pendingRanges := by
  unfold invalidatePendingRanges
  split <;> rfl

theorem invalidatePendingRanges_recycleVictim (s : Slab C) :
    s.invalidatePendingRanges.recycleVictim = s.recycleVictim := by
  unfold invalidatePendingRanges
  split <;> rfl

theorem inVictim_congr (d : LocationDescriptor) (hcache : t.cache = s.cache)
    (hranges : t.pendingRanges = s.pendingRanges) (hsegments : t.codeSegments = s.codeSegments)
    (hcurrent : t.currentSegment = s.currentSegment) : t.InVictim d ↔ s.InVictim d := by
  simp only [InVictim, invalidatePendingRanges_cache, recycleVictim, selectRecycleSegment, hcache,
    hranges, hsegments, hcurrent]

theorem present_finishRecycle :
    s.finishRecycle.Present d ↔ s.Present d ∧ ¬s.RangePending d ∧ ¬s.InVictim d := by
  have hpresent := s.present_invalidatePendingRanges (d := d)
  simp only [Present] at hpresent
  rw [Present, finishRecycle_cache, recycleCodeSegment]
  simp only [get_setCurrentCodePtr, invalidatePendingRanges_recycleVictim]
  by_cases hd : s.InVictim d
  · simp [get_retireCodeRange_of_retiredBy hd, hd]
  · rw [get_retireCodeRange_of_not hd, hpresent]
    simp [Present, hd]

theorem registered_finishRecycle :
    Registered s.finishRecycle.cache d a ↔
      Registered s.cache d a ∧ ¬s.RangePending d ∧ ¬s.InVictim d := by
  rw [finishRecycle_cache, recycleCodeSegment]
  simp only [registered_setCurrentCodePtr, registered_retireCodeRange,
    registered_invalidatePendingRanges, invalidatePendingRanges_recycleVictim, and_assoc]
  rfl

theorem finishPendingInvalidation_of_active (h : s.activeExecutions ≠ 0) :
    s.finishPendingInvalidation = s := if_pos h

theorem finishPendingInvalidation_of_recycle (h : s.activeExecutions = 0)
    (hpending : s.clearPending = true) (hkind : s.pendingTransition = .recycleSegment) :
    s.finishPendingInvalidation =
      { s.finishRecycle with pendingRanges := [], clearPending := false } := by
  simp [finishPendingInvalidation, h, hpending, hkind]

theorem evolves_finishPendingInvalidation (s : Slab C) (d : LocationDescriptor) :
    Evolves s s.finishPendingInvalidation d := by
  unfold finishPendingInvalidation
  split_ifs with hactive hclear
  · exact .refl s d
  · cases hkind : s.pendingTransition with
    | clearAll => exact .of_absent (s.not_present_finishClearAll d)
    | recycleSegment =>
        by_cases hp : s.finishRecycle.Present d
        · have hkept := present_finishRecycle.mp hp
          refine ⟨fun _ => hkept.1, fun _ a => ?_, ?_⟩
          · exact registered_finishRecycle.trans (and_iff_left hkept.2)
          · -- a doomed block does not survive the recycle
            rintro (h | ⟨_, h⟩ | h)
            · exact absurd hkept.1 h
            · rw [hkind] at h
              cases h
            · exact absurd h hkept.2.1
        · exact .of_absent hp
  · by_cases hp : s.invalidatePendingRanges.Present d
    · have hkept := present_invalidatePendingRanges.mp hp
      refine ⟨fun _ => hkept.1, fun _ a => ?_, ?_⟩
      · exact registered_invalidatePendingRanges.trans (and_iff_left hkept.2)
      · rintro (h | ⟨h, _⟩ | h)
        · exact absurd hkept.1 h
        · exact absurd h hclear
        · exact absurd h hkept.2
    · exact .of_absent hp

@[simp] theorem quiet_eq_true :
    s.quiet = true ↔ s.clearPending = false ∧ s.pendingRanges = [] := by
  simp [quiet]

/-- With no executor inside emitted code, nothing stays pending. -/
theorem quiet_finishPendingInvalidation (h : s.activeExecutions = 0) :
    s.finishPendingInvalidation.quiet = true := by
  unfold finishPendingInvalidation
  rw [if_neg (not_not.mpr h)]
  split_ifs with hclear
  · simp
  · have : s.invalidatePendingRanges.clearPending = s.clearPending := by
      unfold invalidatePendingRanges
      split <;> rfl
    simpa [this] using hclear

/-! ### Requests -/

theorem recordTransition_clearAll (s : Slab C) : ∃ generation,
    s.recordTransition .clearAll = { s with
      clearPending := true
      pendingGeneration := generation
      pendingTransition := .clearAll
      pendingRanges := [] } := by
  by_cases h : s.clearPending = false
  · exact ⟨s.currentGeneration + 1, by simp [recordTransition, h]⟩
  · have hpending : s.clearPending = true := by simpa using h
    exact ⟨s.pendingGeneration, by simp [recordTransition, hpending]⟩

theorem recordTransition_recycle (hclearAll : ¬s.ClearAllPending) :
    ∃ generation, s.recordTransition .recycleSegment = { s with
      clearPending := true
      pendingGeneration := generation
      pendingTransition := .recycleSegment } := by
  by_cases h : s.clearPending = false
  · exact ⟨s.currentGeneration + 1, by simp [recordTransition, h]⟩
  · have hpending : s.clearPending = true := by simpa using h
    have hkind : s.pendingTransition = .recycleSegment := by
      cases hk : s.pendingTransition with
      | recycleSegment => rfl
      | clearAll => exact absurd ⟨hpending, hk⟩ hclearAll
    exact ⟨s.pendingGeneration, by cases s; simp_all [recordTransition]⟩

theorem recordTransition_recycle_of_clearAllPending (h : s.ClearAllPending) :
    s.recordTransition .recycleSegment = s := by
  simp [recordTransition, h.1]

theorem clearAllPending_recordTransition (s : Slab C) :
    (s.recordTransition .clearAll).ClearAllPending := by
  obtain ⟨generation, h⟩ := s.recordTransition_clearAll
  rw [h]
  exact ⟨rfl, rfl⟩

theorem evolves_recordTransition (s : Slab C) (kind : GenerationTransitionKind)
    (d : LocationDescriptor) : Evolves s (s.recordTransition kind) d := by
  cases kind with
  | clearAll =>
      have hpending := s.clearAllPending_recordTransition
      obtain ⟨generation, h⟩ := s.recordTransition_clearAll
      rw [h] at hpending ⊢
      exact ⟨id, fun _ _ => Iff.rfl, fun _ => .inr (.inl hpending)⟩
  | recycleSegment =>
      by_cases hclearAll : s.ClearAllPending
      · rw [recordTransition_recycle_of_clearAllPending hclearAll]
        exact .refl s d
      · obtain ⟨generation, h⟩ := recordTransition_recycle hclearAll
        rw [h]
        refine ⟨id, fun _ _ => Iff.rfl, ?_⟩
        rintro (hd | hd | hd)
        · exact .inl hd
        · exact absurd hd hclearAll
        · exact .inr (.inr hd)

theorem evolves_requestGenerationTransition (s : Slab C) (kind : GenerationTransitionKind)
    (finish : Bool) (d : LocationDescriptor) :
    Evolves s (s.requestGenerationTransition kind finish) d := by
  have hrecord := (s.evolves_recordTransition kind d).trans
    (evolves_signalActiveExecutors _ d)
  unfold requestGenerationTransition
  split_ifs
  · exact hrecord.trans (evolves_finishPendingInvalidation _ d)
  · exact hrecord

theorem evolves_requestRangeTransition (s : Slab C) (start length : ℕ) (finish : Bool)
    (d : LocationDescriptor) : Evolves s (s.requestRangeTransition start length finish) d := by
  unfold requestRangeTransition
  split
  · exact .refl s d
  · have hrecord : Evolves s (signalActiveExecutors { s with
        pendingRanges := (Interval.closed start (inclusiveRangeEnd start length)).toList.foldl
          IntervalSet.add s.pendingRanges }) d := by
      refine ⟨id, fun _ _ => Iff.rfl, ?_⟩
      rintro (hd | hd | ⟨a, ha, hreg⟩)
      · exact .inl hd
      · exact .inr (.inl hd)
      · exact .inr (.inr ⟨a, covers_add_all.mpr (.inr ha), hreg⟩)
    simp only
    split_ifs
    · exact hrecord.trans (evolves_finishPendingInvalidation _ d)
    · exact hrecord

theorem doomed_clearCache (s : Slab C) (d : LocationDescriptor) : s.clearCache.Doomed d :=
  (evolves_finishPendingInvalidation _ d).doomed
    ((evolves_signalActiveExecutors _ d).doomed
      (.inr (.inl s.clearAllPending_recordTransition)))

theorem doomed_requestRangeTransition {start length : ℕ} (finish : Bool) (hlength : length ≠ 0)
    (hlo : start ≤ a) (hhi : a ≤ inclusiveRangeEnd start length) (hreg : Registered s.cache d a) :
    (s.requestRangeTransition start length finish).Doomed d := by
  unfold requestRangeTransition
  split
  · rename_i h
    exact .inr (.inl (h.resolve_left hlength))
  · have hrecord : (signalActiveExecutors { s with
        pendingRanges := (Interval.closed start (inclusiveRangeEnd start length)).toList.foldl
          IntervalSet.add s.pendingRanges }).Doomed d :=
      .inr (.inr ⟨a, covers_add_all.mpr (.inl (Interval.mem_closed.mpr ⟨hlo, hhi⟩)), hreg⟩)
    simp only
    split_ifs
    · exact (evolves_finishPendingInvalidation _ d).doomed hrecord
    · exact hrecord

/-- What a recycle request dooms: nothing new while executors are active, and
otherwise the blocks of the recycled segment. -/
theorem doomed_recycleCache :
    s.recycleCache.Doomed d ↔ s.Doomed d ∨ s.activeExecutions = 0 ∧ s.InVictim d := by
  by_cases hclearAll : s.ClearAllPending
  · have hdoomed : s.Doomed d := .inr (.inl hclearAll)
    exact iff_of_true ((s.evolves_requestGenerationTransition _ _ d).doomed hdoomed)
      (.inl hdoomed)
  obtain ⟨generation, hrecord⟩ := recordTransition_recycle hclearAll
  -- the recorded request has the cache, ranges, segments and executors of `s`
  obtain ⟨t, ht⟩ : ∃ t, t = (s.recordTransition .recycleSegment).signalActiveExecutors :=
    ⟨_, rfl⟩
  have hrequest : s.recycleCache = t.finishPendingInvalidation := by rw [ht]; rfl
  rw [hrecord] at ht
  have hpresent : t.Present d ↔ s.Present d := by rw [ht]; rfl
  have hrange : t.RangePending d ↔ s.RangePending d := by rw [ht]; rfl
  have hvictim : t.InVictim d ↔ s.InVictim d := by
    rw [ht]
    exact inVictim_congr d rfl rfl rfl rfl
  have hactive : t.activeExecutions = s.activeExecutions := by rw [ht]; rfl
  have hpending : t.clearPending = true := by rw [ht]; rfl
  have hkind : t.pendingTransition = .recycleSegment := by rw [ht]; rfl
  rw [hrequest, ← hactive]
  have hdoomed : s.Doomed d ↔ ¬t.Present d ∨ t.RangePending d := by
    rw [hpresent, hrange, Doomed]
    exact or_congr Iff.rfl (or_iff_right hclearAll)
  rw [hdoomed, ← hvictim]
  by_cases hidle : t.activeExecutions = 0
  · rw [finishPendingInvalidation_of_recycle hidle hpending hkind]
    have hkept := t.present_finishRecycle (d := d)
    constructor
    · rintro (h | ⟨h, _⟩ | ⟨a, h, _⟩)
      · by_contra hno
        simp only [not_or, not_and, not_not] at hno
        exact h (hkept.mpr ⟨hno.1.1, hno.1.2, hno.2 hidle⟩)
      · cases h
      · simp at h
    · intro h
      refine .inl fun hp => ?_
      obtain ⟨hpresent, hrange, hvictim⟩ := hkept.mp hp
      rcases h with (h | h) | ⟨_, h⟩
      · exact h hpresent
      · exact hrange h
      · exact hvictim h
  · rw [finishPendingInvalidation_of_active hidle]
    constructor
    · rintro (h | ⟨_, h⟩ | h)
      · exact .inl (.inl h)
      · rw [hkind] at h
        cases h
      · exact .inl (.inr h)
    · rintro ((h | h) | ⟨h, _⟩)
      · exact .inl h
      · exact .inr (.inr h)
      · exact absurd h hidle

/-- A full clear was carried out on the way from `s` to `t`, or `t` still has one
pending. -/
def FullClearRequested (s t : Slab C) : Prop :=
  s.fullGenerationClears < t.fullGenerationClears ∨ t.ClearAllPending

theorem finishPendingInvalidation_of_clearAll (h : s.activeExecutions = 0)
    (hpending : s.ClearAllPending) : s.finishPendingInvalidation =
      { s.finishClearAll with pendingRanges := [], clearPending := false } := by
  simp [finishPendingInvalidation, h, hpending.1, hpending.2]

theorem fullClearRequested_finish (h : s.ClearAllPending) :
    FullClearRequested s s.finishPendingInvalidation := by
  by_cases hactive : s.activeExecutions = 0
  · rw [finishPendingInvalidation_of_clearAll hactive h]
    left
    simp [finishClearAll, publishGeneration]
  · rw [finishPendingInvalidation_of_active hactive]
    exact .inr h

theorem fullClearRequested_clearCache (s : Slab C) : FullClearRequested s s.clearCache := by
  have hpending := s.clearAllPending_recordTransition
  have hclears : (s.recordTransition .clearAll).fullGenerationClears =
      s.fullGenerationClears := by
    obtain ⟨generation, h⟩ := s.recordTransition_clearAll
    rw [h]
  have h := fullClearRequested_finish
    (s := (s.recordTransition .clearAll).signalActiveExecutors) hpending
  rw [FullClearRequested, ← hclears]
  exact h

theorem fullClearRequested_recycleCache :
    FullClearRequested s s.recycleCache ↔ s.ClearAllPending := by
  by_cases hclearAll : s.ClearAllPending
  · refine iff_of_true ?_ hclearAll
    have h : s.recycleCache =
        (s.recordTransition .recycleSegment).signalActiveExecutors.finishPendingInvalidation := rfl
    rw [h, recordTransition_recycle_of_clearAllPending hclearAll]
    exact fullClearRequested_finish (s := s.signalActiveExecutors) hclearAll
  · refine iff_of_false ?_ hclearAll
    obtain ⟨generation, hrecord⟩ := recordTransition_recycle hclearAll
    obtain ⟨t, ht⟩ : ∃ t, t = (s.recordTransition .recycleSegment).signalActiveExecutors :=
      ⟨_, rfl⟩
    have hrequest : s.recycleCache = t.finishPendingInvalidation := by rw [ht]; rfl
    rw [hrecord] at ht
    have hclears : t.fullGenerationClears = s.fullGenerationClears := by rw [ht]; rfl
    have hpending : t.clearPending = true := by rw [ht]; rfl
    have hkind : t.pendingTransition = .recycleSegment := by rw [ht]; rfl
    rw [hrequest]
    by_cases hidle : t.activeExecutions = 0
    · have hkept : t.finishRecycle.fullGenerationClears = t.fullGenerationClears := by
        unfold finishRecycle invalidatePendingRanges
        simp only
        split_ifs <;> rfl
      rw [finishPendingInvalidation_of_recycle hidle hpending hkind]
      rintro (h | ⟨h, -⟩)
      · simp [hkept, hclears] at h
      · cases h
    · rw [finishPendingInvalidation_of_active hidle]
      rintro (h | ⟨-, h⟩)
      · simp [hclears] at h
      · rw [hkind] at h
        cases h

/-! ### The executors

What their operations make of the slab, for invariants that do not look at the list of them. -/

theorem registerExecutor_eq (h : some (s.registerExecutor state) = some t) :
    ∃ executors, t = { s with executors } := by
  obtain rfl := Option.some.inj h
  unfold registerExecutor
  split
  · exact ⟨s.executors, rfl⟩
  · exact ⟨_, rfl⟩

theorem unregisterExecutor_eq (h : s.unregisterExecutor state = some t) :
    ∃ executors, t = { s with executors } := by
  unfold unregisterExecutor at h
  split at h
  · exact ⟨s.executors, (Option.some.inj h).symm⟩
  · split at h
    · cases h
    · exact ⟨_, (Option.some.inj h).symm⟩

theorem enterExecution_eq (h : s.enterExecution state = some (generation, t)) :
    s.quiet = true ∧ ∃ executors active, t = { s.finishPendingDirectLinkPublication with
      executors, activeExecutions := active } := by
  unfold enterExecution at h
  split_ifs at h with hquiet
  simp only at h
  split at h
  · cases h
  · split_ifs at h
    exact ⟨by simpa using hquiet, _, _, (Prod.mk.inj (Option.some.inj h)).2.symm⟩

theorem leaveExecution_eq (h : s.leaveExecution state generation = some t) :
    generation = s.currentGeneration ∧ s.activeExecutions ≠ 0 ∧ ∃ executors,
      t = servicePendingInvalidation { s with
        executors, activeExecutions := s.activeExecutions - 1 } := by
  unfold leaveExecution at h
  split at h
  · cases h
  · split_ifs at h with hthrows
    simp only [not_or, not_not] at hthrows
    exact ⟨hthrows.2.2.1, hthrows.2.2.2, _, (Option.some.inj h).symm⟩

/-! ### Lookup, emission and execution -/

theorem evolves_findBlock (s : Slab C) (location : LocationDescriptor) (generation : ℕ)
    (d : LocationDescriptor) : Evolves s (s.findBlock location generation).2 d := by
  unfold findBlock
  split
  · exact .refl s d
  · split
    · exact .refl s d
    · exact s.evolves_touchCodeSegment _ d

theorem findBlock_not_newlyEmitted (s : Slab C) (location : LocationDescriptor) (generation : ℕ)
    (b : BlockDescriptor) (h : (s.findBlock location generation).1 = some b) :
    b.newlyEmitted = false := by
  unfold findBlock at h
  split at h
  · cases h
  · split at h
    · cases h
    · obtain rfl : _ = b := by simpa using h
      rfl

theorem present_of_findBlock {location : LocationDescriptor} {b : BlockDescriptor}
    (h : (s.findBlock location generation).1 = some b) :
    s.Present location := by
  unfold findBlock at h
  split at h
  · cases h
  · split at h
    · cases h
    · rename_i hget
      simp [Present, hget]

/-- The ways an emission can go: refused, found, or newly emitted. -/
theorem emit_cases {block : Block S} {executing : Bool}
    (h : s.emit block generation executing = some (result, t)) :
    (result = none ∧ t = s) ∨
    s.quiet = true ∧ generation = s.currentGeneration ∧
      ((∃ p b segments clock, get s.cache block.location = some p ∧ result = some b ∧
          b.entrypoint = p ∧ b.newlyEmitted = false ∧ t = { s with
            cache := republish s.cache block.location p
              ⟨s.sharedMode, executing, s.activeExecutions⟩
            codeSegments := segments
            segmentTouchClock := clock }) ∨
        ∃ p cache segments bytes clock, get s.cache block.location = none ∧
          CodeCache.emit s.cache block ⟨s.sharedMode, executing, s.activeExecutions⟩ =
            some (p, cache) ∧
          result = some ⟨p, block.size, s.currentGeneration, true⟩ ∧ t = { s with
            cache := cache
            codeSegments := segments
            liveAllocatedCodeBytes := bytes
            segmentTouchClock := clock }) := by
  unfold emit at h
  split at h
  · obtain ⟨rfl, rfl⟩ := Prod.mk.inj (Option.some.inj h)
    exact .inl ⟨rfl, rfl⟩
  · rename_i hgo
    obtain ⟨hquiet, hgeneration⟩ := not_or.mp hgo
    refine .inr ⟨by simpa using hquiet, not_not.mp hgeneration, ?_⟩
    simp only at h
    split at h
    · rename_i p hget
      obtain ⟨rfl, rfl⟩ := Prod.mk.inj (Option.some.inj h)
      obtain ⟨segments, clock, htouch⟩ := touchCodeSegment_eq { s with
        cache := republish s.cache block.location p
          ⟨s.sharedMode, executing, s.activeExecutions⟩ } p
      exact .inl ⟨p, _, segments, clock, hget, rfl, rfl, rfl, htouch⟩
    · rename_i hget
      split at h
      · cases h
      · rename_i p cache hemit
        obtain ⟨rfl, rfl⟩ := Prod.mk.inj (Option.some.inj h)
        obtain ⟨segments, bytes, husage⟩ := updateActiveSegmentUsage_eq { s with cache }
        obtain ⟨segments', clock, htouch⟩ :=
          touchCodeSegment_eq (updateActiveSegmentUsage { s with cache }) p
        rw [htouch, husage]
        exact .inr ⟨p, cache, segments', bytes, clock, hget, hemit, rfl, rfl⟩

theorem evolves_emit {block : Block S} {executing : Bool}
    (h : s.emit block generation executing = some (result, t))
    (hd : result.any (·.newlyEmitted) = true → d ≠ block.location) :
    Evolves s t d := by
  rcases emit_cases h with ⟨-, rfl⟩ | ⟨-, -, ⟨p, b, segments, clock, -, -, -, -, rfl⟩ |
    ⟨p, cache, segments, bytes, clock, hget, hemit, rfl, rfl⟩⟩
  · exact .refl t d
  · exact .of_same d (get_republish _ _ _ _) (registered_republish _ _ _ _) rfl rfl rfl
  · have hne : d ≠ block.location := hd rfl
    have hgets := congrFun (get_emit hemit hget) d
    rw [Function.update_of_ne hne] at hgets
    have hregs : ∀ a, Registered cache d a ↔ Registered s.cache d a := fun a =>
      (registered_emit hemit d a).trans (or_iff_left fun h => hne h.1)
    refine ⟨fun h => ?_, fun _ => hregs, ?_⟩
    · simpa only [Present, hgets] using h
    · simp only [Doomed, Present, RangePending, ClearAllPending, hgets, hregs]
      exact id

theorem evolves_enterExecution (h : s.enterExecution state = some (generation, t))
    (d : LocationDescriptor) :
    s.quiet = true ∧ Evolves s t d := by
  obtain ⟨hquiet, executors, active, rfl⟩ := enterExecution_eq h
  exact ⟨hquiet, (s.evolves_finishPendingDirectLinkPublication d).trans
    (.of_same d rfl rfl rfl rfl rfl)⟩

theorem evolves_servicePendingInvalidation (s : Slab C) (d : LocationDescriptor) :
    Evolves s s.servicePendingInvalidation d :=
  (s.evolves_finishPendingInvalidation d).trans
    (evolves_finishPendingDirectLinkPublication _ d)

theorem evolves_leaveExecution (h : s.leaveExecution state generation = some t)
    (d : LocationDescriptor) :
    Evolves s t d := by
  obtain ⟨-, -, executors, rfl⟩ := leaveExecution_eq h
  refine .trans ?_ (evolves_servicePendingInvalidation _ d)
  exact .of_same d rfl rfl rfl rfl rfl

theorem evolves_invalidateBasicBlocks (s : Slab C) (ds : List LocationDescriptor)
    (d : LocationDescriptor) :
    Evolves s { s with cache := invalidateBasicBlocks s.cache ds } d := by
  by_cases hd : d ∈ ds
  · exact .of_absent (by simp [Present, get_invalidateBasicBlocks, hd])
  · have hget : get (invalidateBasicBlocks s.cache ds) d = get s.cache d := by
      rw [get_invalidateBasicBlocks, if_neg hd]
    refine ⟨fun h => ?_, fun _ a => by rw [registered_invalidateBasicBlocks], ?_⟩
    · simpa only [Present, hget] using h
    · simp only [Doomed, Present, RangePending, ClearAllPending, hget,
        registered_invalidateBasicBlocks]
      exact id

/-! ### Halt words

The slab only ever raises the cache-invalidation bit of an executor. -/

def KeepsHalts (s t : Slab C) : Prop :=
  ∀ id, (s.haltReason id).has HaltReason.cacheInvalidation = true →
    (t.haltReason id).has HaltReason.cacheInvalidation = true

theorem KeepsHalts.of_eq (h : t.haltReason = s.haltReason) : KeepsHalts s t :=
  fun id hid => by rwa [h]

theorem KeepsHalts.trans {u : Slab C} (hst : KeepsHalts s t) (htu : KeepsHalts t u) :
    KeepsHalts s u :=
  fun id hid => htu id (hst id hid)

theorem keepsHalts_signalActiveExecutors (s : Slab C) : KeepsHalts s s.signalActiveExecutors := by
  intro id hid
  simp only [signalActiveExecutors]
  split
  · exact HaltReason.has_or_left _ hid
  · exact hid

@[simp] theorem resetCodeSegments_haltReason (s : Slab C) :
    s.resetCodeSegments.haltReason = s.haltReason := by
  unfold resetCodeSegments
  simp only
  split <;> rfl

@[simp] theorem finishPendingInvalidation_haltReason (s : Slab C) :
    s.finishPendingInvalidation.haltReason = s.haltReason := by
  unfold finishPendingInvalidation
  split_ifs
  · rfl
  · cases s.pendingTransition with
    | clearAll => simp [finishClearAll, publishGeneration]
    | recycleSegment =>
        simp only [finishRecycle, invalidatePendingRanges]
        split_ifs <;> rfl
  · unfold invalidatePendingRanges
    split <;> rfl

@[simp] theorem finishPendingDirectLinkPublication_haltReason (s : Slab C) :
    s.finishPendingDirectLinkPublication.haltReason = s.haltReason := by
  unfold finishPendingDirectLinkPublication
  split <;> rfl

@[simp] theorem touchCodeSegment_haltReason (s : Slab C) (p : CodePtr) :
    (s.touchCodeSegment p).haltReason = s.haltReason := by
  obtain ⟨segments, clock, h⟩ := s.touchCodeSegment_eq p
  rw [h]

theorem keepsHalts_requestGenerationTransition (s : Slab C) (kind : GenerationTransitionKind)
    (finish : Bool) : KeepsHalts s (s.requestGenerationTransition kind finish) := by
  have hrecord : KeepsHalts s (s.recordTransition kind) := .of_eq (by
    unfold recordTransition
    split_ifs <;> rfl)
  have hsignal := hrecord.trans (keepsHalts_signalActiveExecutors _)
  unfold requestGenerationTransition
  split_ifs
  · exact hsignal.trans (.of_eq (finishPendingInvalidation_haltReason _))
  · exact hsignal

theorem keepsHalts_requestRangeTransition (s : Slab C) (start length : ℕ) (finish : Bool) :
    KeepsHalts s (s.requestRangeTransition start length finish) := by
  unfold requestRangeTransition
  split
  · exact .of_eq rfl
  · have hsignal : KeepsHalts s (signalActiveExecutors { s with
        pendingRanges := (Interval.closed start (inclusiveRangeEnd start length)).toList.foldl
          IntervalSet.add s.pendingRanges }) :=
      .trans (.of_eq rfl) (keepsHalts_signalActiveExecutors _)
    simp only
    split_ifs
    · exact hsignal.trans (.of_eq (finishPendingInvalidation_haltReason _))
    · exact hsignal

@[simp] theorem findBlock_haltReason (s : Slab C) (location : LocationDescriptor)
    (generation : ℕ) : (s.findBlock location generation).2.haltReason = s.haltReason := by
  unfold findBlock
  split
  · rfl
  · split
    · rfl
    · exact s.touchCodeSegment_haltReason _

theorem emit_haltReason {block : Block S} {executing : Bool}
    (h : s.emit block generation executing = some (result, t)) :
    t.haltReason = s.haltReason := by
  rcases emit_cases h with ⟨-, rfl⟩ | ⟨-, -, ⟨p, b, segments, clock, -, -, -, -, rfl⟩ |
    ⟨p, cache, segments, bytes, clock, -, -, -, rfl⟩⟩
  · rfl
  · rfl
  · rfl

theorem enterExecution_haltReason (h : s.enterExecution state = some (generation, t)) :
    t.haltReason = s.haltReason := by
  obtain ⟨-, executors, active, rfl⟩ := enterExecution_eq h
  exact s.finishPendingDirectLinkPublication_haltReason

theorem leaveExecution_haltReason (h : s.leaveExecution state generation = some t) :
    t.haltReason = s.haltReason := by
  obtain ⟨-, -, executors, rfl⟩ := leaveExecution_eq h
  rw [servicePendingInvalidation, finishPendingDirectLinkPublication_haltReason,
    finishPendingInvalidation_haltReason]

end Umbra.Backend.Slab
