import Umbra.Arm64.SlabMemory
import Umbra.Backend.SegmentRotation

/-!
The rotation of the arm64 slab's segments.

As long as blocks are emitted where they fit, they lie in segments that have been used, so a
recycle that takes an unused one retires nothing.
-/

namespace Umbra.Arm64

open Umbra.Lib Umbra.IR Umbra.Backend

variable {g : Segmentation} {s t u : Slab AddressSpace} {action : SlabAction BlockRelocation}

namespace SlabPlaced

theorem codeRange_segmentAt (h : SlabPlaced g s) {i : ℕ} (hi : i < g.count) :
    codeRange (s.segmentAt i) = g.segment i :=
  h.codeRange_getD hi

/-- The division by the segment size finds the segment that holds the address. -/
theorem codeSegmentIndex_eq_segmentOf (h : SlabPlaced g s) (p : CodePtr) :
    s.codeSegmentIndex p = s.segmentOf p := by
  by_cases hin : g.first ≤ p ∧ p < g.last
  · obtain ⟨i, segment, hindex, hat, hcontains⟩ := h.codeSegmentIndex hin.1 hin.2
    obtain ⟨hi, hget⟩ := List.getElem?_eq_some_iff.mp hat
    rw [hindex, Slab.segmentOf, eq_comm, List.findIdx?_eq_some_iff_getElem]
    refine ⟨hi, by simpa [hget] using hcontains, fun j hj => ?_⟩
    -- an earlier segment ends where a later one begins
    have hjlt : j < s.codeSegments.length := hj.trans hi
    have hrange : codeRange s.codeSegments[j] = g.segment j := by
      have := h.codeRange_segmentAt (h.length_eq ▸ hjlt)
      rwa [Slab.segmentAt, List.getD_eq_getElem _ _ hjlt] at this
    have hrange' : codeRange segment = g.segment i := by
      have := h.codeRange_segmentAt (h.length_eq ▸ hi)
      rwa [Slab.segmentAt, List.getD_eq_getElem _ _ hi, hget] at this
    have hle := Segmentation.segment_le hj (h.length_eq ▸ hi)
    rw [hrange'] at hcontains
    simp only [hrange, decide_eq_true_eq]
    exact fun hearlier => absurd (hearlier.2.trans_le hle) (not_lt.mpr hcontains.1)
  · have hnone : ¬ ∃ segment ∈ s.codeSegments, (codeRange segment).Contains p := by
      rw [h.exists_contains_iff]
      exact hin
    have hsegment : s.segmentOf p = none := by
      rw [Slab.segmentOf, List.findIdx?_eq_none_iff]
      intro segment hmem
      simpa using fun hcontains => hnone ⟨segment, hmem, hcontains⟩
    obtain ⟨back, hback, hend⟩ := h.exists_getLast
    rw [hsegment, Slab.codeSegmentIndex, hback]
    refine if_pos (.inr ?_)
    rw [h.first, hend]
    by_contra hout
    push Not at hout
    exact hin hout

end SlabPlaced

def usedRanges (g : Segmentation) (s : Slab AddressSpace) : List Range :=
  ((List.range g.count).filter fun i => (s.segmentAt i).initialized).map g.segment

theorem mem_usedRanges {r : Range} : r ∈ usedRanges g s ↔
    ∃ i < g.count, (s.segmentAt i).initialized = true ∧ g.segment i = r := by
  simp [usedRanges, and_assoc]

theorem separate_usedRanges : AddressSpace.Separate (usedRanges g s) := by
  have hmem {r : Range} (hr : r ∈ usedRanges g s) : r ∈ g.segments := by
    obtain ⟨i, hi, -, rfl⟩ := mem_usedRanges.mp hr
    exact Segmentation.mem_segments.mpr ⟨i, hi, rfl⟩
  exact ⟨fun r hr => (separate_segments g).nonnull r (hmem hr),
    fun r hr r' hr' => (separate_segments g).apart r (hmem hr) r' (hmem hr')⟩

namespace AddressSpace.Placed

variable {segments segments' : List Range} {segment : Range} {c : AddressSpace}

theorem mono (h : Placed segments segment c) (hsub : ∀ r ∈ segments, r ∈ segments') :
    Placed segments' segment c where
  linked := h.linked
  segment_mem := hsub _ h.segment_mem
  le_codePtr := h.le_codePtr
  within p info hinfo := by
    obtain ⟨r, hr, hwithin⟩ := h.within p info hinfo
    exact ⟨r, hsub r hr, hwithin⟩

theorem filter_eq_nil (h : Placed segments segment c) {next : Range}
    (hapart : ∀ r ∈ segments, r.2 ≤ next.1 ∨ next.2 ≤ r.1) :
    (c.reverseBlockEntries.filter fun e => next.1 ≤ e.1 && e.1 < next.2) = [] := by
  rw [List.filter_eq_nil_iff]
  intro e he
  obtain ⟨info, hinfo⟩ := Option.isSome_iff_exists.mp
    ((h.linked.tracked e.1).mpr (List.mem_map_of_mem he))
  obtain ⟨r, hr, hlo, hhi, -⟩ := h.within e.1 info hinfo
  have hpos := (h.linked.wellFormed hinfo).1
  have := hapart r hr
  simp only [Bool.and_eq_true, decide_eq_true_eq, not_and, not_lt]
  lia

theorem invalidatePendingRanges (h : Placed segments segment s.cache) :
    Placed segments segment s.invalidatePendingRanges.cache := by
  unfold Slab.invalidatePendingRanges
  split
  · exact h
  · refine AddressSpace.Placed.invalidateBasicBlocks ?_ _
    exact h.of_blockInfos (h.linked.congr rfl rfl rfl rfl rfl) rfl rfl

theorem finishPendingDirectLinkPublication (h : Placed segments segment s.cache) :
    Placed segments segment s.finishPendingDirectLinkPublication.cache := by
  unfold Slab.finishPendingDirectLinkPublication
  split
  · exact h
  · exact h.publishPendingBlockRelinks

theorem finishPendingInvalidation (h : Placed segments segment s.cache)
    (hnone : ¬ (s.activeExecutions = 0 ∧ s.clearPending = true)) :
    Placed segments segment s.finishPendingInvalidation.cache := by
  unfold Slab.finishPendingInvalidation
  split
  · exact h
  · rename_i hactive
    have hpending : s.clearPending = false := by
      simp only [not_and, Bool.not_eq_true] at hnone
      exact hnone (not_not.mp hactive)
    rw [hpending, if_neg (by simp)]
    exact h.invalidatePendingRanges

/-- An operation that carries out no transition leaves the blocks where they are, and a new one is
put where it fits. -/
theorem step (hp : Placed segments (g.segment s.currentSegment) s.cache)
    (hseparate : Separate segments) (h : SlabPlaced g s) (hfits : Fits s action)
    (hstep : s.step action = some t) (hcarries : s.carriesOut action = none) :
    Placed segments (g.segment s.currentSegment) t.cache := by
  cases hu : s.beforeFinish action with
  | some u =>
      have hnone : ¬ (u.activeExecutions = 0 ∧ u.clearPending = true) := by
        simpa [Slab.carriesOut, hu] using hcarries
      obtain ⟨halike, ht⟩ := Slab.step_of_beforeFinish hstep hu
      have hfinish := finishPendingInvalidation (halike.cache.symm ▸ hp) hnone
      rcases ht with rfl | rfl
      · exact hfinish
      · exact hfinish.finishPendingDirectLinkPublication
  | none =>
      rcases Slab.step_of_not_finishing hstep hu with
        halike | halike | ⟨caller, block, generation, rfl, -, ⟨hget, p, hemit⟩ | ⟨p, -, hcache⟩⟩
      · exact halike.cache.symm ▸ hp
      · exact halike.cache.symm ▸ hp.finishPendingDirectLinkPublication
      · refine hp.emitForSlab hseparate hget hfits.1 ?_ hemit
        have hpos := hfits.1.1
        have hspace := hfits.2
        rw [← h.codeRange_getD h.current]
        change block.size ≤ s.activeSegment.endPtr - s.cache.codePtr at hspace
        change s.cache.codePtr + block.size ≤ s.activeSegment.endPtr
        lia
      · exact hcache.symm ▸ hp

end AddressSpace.Placed

theorem finishPendingDirectLinkPublication_eq (s : Slab AddressSpace) :
    ∃ links pendingBlockRelinks, s.finishPendingDirectLinkPublication =
      { s with cache := { s.cache with links, pendingBlockRelinks } } := by
  unfold Slab.finishPendingDirectLinkPublication
  split
  · exact ⟨s.cache.links, s.cache.pendingBlockRelinks, rfl⟩
  · obtain ⟨links, heq⟩ := s.cache.publishPendingBlockRelinks_eq
    exact ⟨links, [], by rw [← heq]; rfl⟩

theorem step_of_transition {kind : GenerationTransitionKind} (hstep : s.step action = some t)
    (hcarries : s.carriesOut action = some kind) :
    ∃ u links pendingBlockRelinks, s.beforeFinish action = some u ∧ u.activeExecutions = 0 ∧
      u.clearPending = true ∧ u.pendingTransition = kind ∧
      t = { u.finishPendingInvalidation with
        cache := { u.finishPendingInvalidation.cache with links, pendingBlockRelinks } } := by
  obtain ⟨u, hu, hactive, hpending, hkind, ht⟩ := Slab.step_of_carriesOut hstep hcarries
  rcases ht with rfl | rfl
  · exact ⟨u, _, _, hu, hactive, hpending, hkind, rfl⟩
  · obtain ⟨links, pending, heq⟩ :=
      finishPendingDirectLinkPublication_eq u.finishPendingInvalidation
    exact ⟨u, links, pending, hu, hactive, hpending, hkind, heq⟩

/-! ### Recycling an unused segment -/

theorem retireCodeRange_of_filter_eq_nil {c : AddressSpace} {first last : CodePtr}
    (h : (c.reverseBlockEntries.filter fun e => first ≤ e.1 && e.1 < last) = []) :
    (c.retireCodeRange first last).stats = ⟨0, 0⟩ ∧
      (c.retireCodeRange first last).space.blockEntries = c.blockEntries := by
  unfold AddressSpace.retireCodeRange
  split
  · exact ⟨rfl, rfl⟩
  · rw [h]
    exact ⟨rfl, rfl⟩

structure RotationPlaced (g : Segmentation) (r : Rotation AddressSpace) : Prop where
  slab : SlabPlaced g r.slab
  used : AddressSpace.Placed (usedRanges g r.slab) (g.segment r.slab.currentSegment) r.slab.cache
  inStep : r.InStep

namespace RotationPlaced

variable {r : Rotation AddressSpace}

theorem selectRecycleSegment_lt (h : RotationPlaced g r) :
    r.slab.selectRecycleSegment < g.count :=
  h.slab.selectRecycleSegment_lt

theorem codeRange_recycleVictim (h : RotationPlaced g r)
    (hu : r.slab.beforeFinish action = some u) :
    codeRange u.invalidatePendingRanges.recycleVictim =
      g.segment r.slab.selectRecycleSegment := by
  have hsame := (Slab.sameSegments_beforeFinish hu).trans u.sameSegments_invalidatePendingRanges
  rw [Slab.recycleVictim, hsame.segments, hsame.selectRecycleSegment]
  exact h.slab.codeRange_getD h.selectRecycleSegment_lt

theorem used_invalidatePendingRanges (h : RotationPlaced g r)
    (hu : r.slab.beforeFinish action = some u) :
    AddressSpace.Placed (usedRanges g r.slab) (g.segment r.slab.currentSegment)
      u.invalidatePendingRanges.cache := by
  obtain ⟨_, _, _, _, _, _, _, rfl⟩ := Slab.beforeFinish_eq hu
  exact AddressSpace.Placed.invalidatePendingRanges h.used

theorem retired_eq_zero (h : RotationPlaced g r) (hu : r.slab.beforeFinish action = some u)
    (hunused : (r.slab.segmentAt r.slab.selectRecycleSegment).initialized = false) :
    u.invalidatePendingRanges.recycleCodeSegment.1 = ⟨0, 0⟩ ∧
      u.invalidatePendingRanges.recycleCodeSegment.2.cache.blockEntries =
        u.invalidatePendingRanges.cache.blockEntries := by
  have hapart : ∀ q ∈ usedRanges g r.slab, q.2 ≤ (g.segment r.slab.selectRecycleSegment).1 ∨
      (g.segment r.slab.selectRecycleSegment).2 ≤ q.1 := by
    intro q hq
    obtain ⟨i, hi, hused, rfl⟩ := mem_usedRanges.mp hq
    rcases Nat.lt_trichotomy i r.slab.selectRecycleSegment with hlt | rfl | hlt
    · exact .inl (Segmentation.segment_le hlt h.selectRecycleSegment_lt)
    · rw [hunused] at hused
      cases hused
    · exact .inr (Segmentation.segment_le hlt hi)
  have hnil := (h.used_invalidatePendingRanges hu).filter_eq_nil hapart
  rw [← h.codeRange_recycleVictim hu] at hnil
  exact retireCodeRange_of_filter_eq_nil hnil

/-- Until every segment has been used, a recycle takes a fresh one. -/
theorem retires_nothing (h : RotationPlaced g r)
    (hrecycles : r.recycles + 1 < r.slab.codeSegments.length)
    (hstep : r.slab.step action = some t)
    (hcarries : r.slab.carriesOut action = some .recycleSegment) :
    t.currentGeneration = r.slab.currentGeneration ∧
      t.recycledDescriptors = r.slab.recycledDescriptors ∧
      t.recycledCodeBytes = r.slab.recycledCodeBytes ∧
      ∀ u, r.slab.beforeFinish action = some u → ∀ d, ¬u.RangePending d →
        t.cache.blockEntries d = r.slab.cache.blockEntries d := by
  obtain ⟨u, links, pending, hu, hactive, hpending, hkind, rfl⟩ :=
    step_of_transition hstep hcarries
  obtain ⟨hretired, hentries⟩ := h.retired_eq_zero hu (h.inStep.select_unused hrecycles)
  have hrecycle : u.finishRecycle = u.invalidatePendingRanges.recycleCodeSegment.2 := by
    unfold Slab.finishRecycle
    simp only
    rw [if_neg (by simp [hretired])]
  rw [Slab.finishPendingInvalidation_of_recycle hactive hpending hkind, hrecycle]
  have hget {d : LocationDescriptor} (hd : ¬u.RangePending d) :
      u.invalidatePendingRanges.recycleCodeSegment.2.cache.blockEntries d =
        r.slab.cache.blockEntries d := by
    rw [hentries]
    refine (Slab.get_invalidatePendingRanges hd).trans ?_
    obtain ⟨_, _, _, _, _, _, _, rfl⟩ := Slab.beforeFinish_eq hu
    rfl
  have hcounts : u.invalidatePendingRanges.currentGeneration = r.slab.currentGeneration ∧
      u.invalidatePendingRanges.recycledDescriptors = r.slab.recycledDescriptors ∧
      u.invalidatePendingRanges.recycledCodeBytes = r.slab.recycledCodeBytes := by
    obtain ⟨cache, heq⟩ := u.invalidatePendingRanges_eq
    rw [heq]
    obtain ⟨_, _, _, _, _, _, _, rfl⟩ := Slab.beforeFinish_eq hu
    exact ⟨rfl, rfl, rfl⟩
  refine ⟨hcounts.1, ?_, ?_, fun u' hu' d hd => ?_⟩
  · change u.invalidatePendingRanges.recycledDescriptors +
      u.invalidatePendingRanges.recycleCodeSegment.1.descriptors = _
    rw [hretired, hcounts.2.1, add_zero]
  · change u.invalidatePendingRanges.recycledCodeBytes +
      u.invalidatePendingRanges.recycleCodeSegment.1.codeBytes = _
    rw [hretired, hcounts.2.2, add_zero]
  · obtain rfl := Option.some.inj (hu.symm.trans hu')
    exact hget hd

theorem codePtr_eq (h : RotationPlaced g r) (hstep : r.slab.step action = some t)
    (hcarries : r.slab.carriesOut action = some .recycleSegment) :
    t.cache.codePtr = (g.segment r.slab.selectRecycleSegment).1 := by
  obtain ⟨u, links, pending, hu, hactive, hpending, hkind, rfl⟩ :=
    step_of_transition hstep hcarries
  rw [Slab.finishPendingInvalidation_of_recycle hactive hpending hkind]
  change u.finishRecycle.cache.codePtr = _
  rw [Slab.finishRecycle_cache, ← h.codeRange_recycleVictim hu]
  rfl

theorem usedRanges_congr (h : ∀ i, (t.segmentAt i).initialized = (s.segmentAt i).initialized) :
    usedRanges g t = usedRanges g s := by
  unfold usedRanges
  simp only [h]

theorem used_recycle (h : RotationPlaced g r) (hstep : r.slab.step action = some t)
    (hcarries : r.slab.carriesOut action = some .recycleSegment) :
    AddressSpace.Placed (usedRanges g t) (g.segment t.currentSegment) t.cache := by
  have hrotated := Slab.step_rotated (Nat.zero_lt_of_lt h.inStep.current_lt) hstep hcarries
  obtain ⟨u, hu, hactive, hpending, hkind, ht⟩ := Slab.step_of_carriesOut hstep hcarries
  have hsub : ∀ q ∈ usedRanges g r.slab, q ∈ usedRanges g t := by
    intro q hq
    obtain ⟨i, hi, hused, rfl⟩ := mem_usedRanges.mp hq
    exact mem_usedRanges.mpr ⟨i, hi, (hrotated.initialized i).mpr (.inr hused), rfl⟩
  have hnext : g.segment r.slab.selectRecycleSegment ∈ usedRanges g t :=
    mem_usedRanges.mpr ⟨_, h.selectRecycleSegment_lt, (hrotated.initialized _).mpr (.inl rfl), rfl⟩
  have hplaced := ((h.used_invalidatePendingRanges hu).mono hsub).recycle separate_usedRanges hnext
  have hfinish : AddressSpace.Placed (usedRanges g t) (g.segment t.currentSegment)
      u.finishPendingInvalidation.cache := by
    rw [Slab.finishPendingInvalidation_of_recycle hactive hpending hkind, hrotated.current]
    change AddressSpace.Placed _ _ u.finishRecycle.cache
    rw [← h.codeRange_recycleVictim hu] at hplaced ⊢
    rw [Slab.finishRecycle_cache]
    exact hplaced.of_blockInfos (hplaced.linked.congr rfl rfl rfl rfl rfl) rfl rfl
  generalize usedRanges g t = segments, g.segment t.currentSegment = segment at hfinish ⊢
  rcases ht with rfl | rfl
  · exact hfinish
  · exact hfinish.finishPendingDirectLinkPublication

theorem used_restart (hplaced : SlabPlaced g t) (hrestarted : s.Restarted t)
    (hnone : ∀ p, t.cache.blockInfos p = none) :
    AddressSpace.Placed (usedRanges g t) (g.segment t.currentSegment) t.cache := by
  have hcurrent : (t.segmentAt t.currentSegment).initialized = true :=
    (hrestarted.initialized _).mpr hrestarted.current
  refine ⟨hplaced.placed.linked, ?_, hplaced.placed.le_codePtr, fun p info hinfo => ?_⟩
  · exact mem_usedRanges.mpr ⟨_, hplaced.current, hcurrent, rfl⟩
  · rw [hnone p] at hinfo
    cases hinfo

theorem resetCodeSegments_blockInfos (s : Slab AddressSpace) :
    s.resetCodeSegments.cache.blockInfos = s.cache.blockInfos := by
  unfold Slab.resetCodeSegments
  simp only
  split
  · rfl
  · rfl

theorem blockInfos_of_clear (hstep : s.step action = some t)
    (hcarries : s.carriesOut action = some .clearAll) (p : CodePtr) :
    t.cache.blockInfos p = none := by
  obtain ⟨u, links, pending, -, hactive, hpending, hkind, rfl⟩ :=
    step_of_transition hstep hcarries
  rw [Slab.finishPendingInvalidation_of_clearAll hactive ⟨hpending, hkind⟩]
  exact congrFun (resetCodeSegments_blockInfos { u with cache := CodeCache.clearCache u.cache }) p

theorem step (h : RotationPlaced g r) (hfits : Fits r.slab action)
    (hstep : r.slab.step action = some t) : RotationPlaced g (r.record action t) := by
  have hplaced := h.slab.step hfits hstep
  have hused : AddressSpace.Placed (usedRanges g t) (g.segment t.currentSegment) t.cache := by
    cases hcarries : r.slab.carriesOut action with
    | none =>
        have ht := Slab.step_touches h.inStep.current_lt hstep hcarries
        rw [usedRanges_congr ht.initialized, ht.current]
        exact h.used.step separate_usedRanges h.slab hfits hstep hcarries
    | some kind =>
        cases kind with
        | clearAll =>
            have hpos := Nat.zero_lt_of_lt h.inStep.current_lt
            exact used_restart hplaced (Slab.step_restarted hpos hstep hcarries)
              (blockInfos_of_clear hstep hcarries)
        | recycleSegment => exact h.used_recycle hstep hcarries
  exact ⟨by simpa using hplaced, by simpa using hused,
    h.inStep.step h.slab.codeSegmentIndex_eq_segmentOf hstep⟩

end RotationPlaced

/-- The record of a run of the slab begins with its creation. -/
theorem exists_rotationPlaced {codeCacheSize endOfPrelude : ℕ} (shared : Bool)
    (hprelude : 0 < endOfPrelude) (hle : endOfPrelude ≤ codeCacheSize)
    (hsize : codeCacheSize ≤ 134217728) : ∃ g : Segmentation,
      RotationPlaced g (.start (createSlab codeCacheSize endOfPrelude shared)) := by
  obtain ⟨g, s, -, -, hcreate, hsegments, hnone, hplaced⟩ :=
    exists_segmentation shared hprelude hle hsize
  generalize createSlab codeCacheSize endOfPrelude shared = created at hcreate hplaced ⊢
  have hpos : 0 < s.codeSegments.length := by
    have hlength := congrArg List.length hsegments
    rw [List.length_map, Segmentation.segments, List.length_map, List.length_range] at hlength
    exact hlength ▸ g.count_pos
  have hrestarted := Slab.restarted_resetCodeSegments hpos
  rw [← hcreate] at hrestarted
  refine ⟨g, hplaced, RotationPlaced.used_restart hplaced hrestarted fun p => ?_,
    Rotation.InStep.restart hpos hrestarted 0⟩
  change created.cache.blockInfos p = none
  rw [hcreate, RotationPlaced.resetCodeSegments_blockInfos]
  exact hnone p

/-- In every run whose emissions fit, the recycles since the creation or the last clear that find
an unused segment take it without retiring a block; each later one takes, among the segments that
are not active, one that has not been touched for longest.  Emission goes on at its start. -/
theorem segmentRotation {codeCacheSize endOfPrelude : ℕ} {shared : Bool}
    (hprelude : 0 < endOfPrelude) (hle : endOfPrelude ≤ codeCacheSize)
    (hsize : codeCacheSize ≤ 128 * 1024 * 1024) {r : Rotation AddressSpace}
    (hreach : Reaches Rotation.step (fun r action => Fits r.slab action)
      (.start (createSlab codeCacheSize endOfPrelude shared)) r)
    {action : SlabAction BlockRelocation} {t : Slab AddressSpace}
    (hstep : r.slab.step action = some t)
    (hcarries : r.slab.carriesOut action = some .recycleSegment) :
    (r.recycles < r.slab.codeSegments.length - 1 →
      t.currentGeneration = r.slab.currentGeneration ∧
      t.recycledDescriptors = r.slab.recycledDescriptors ∧
      t.recycledCodeBytes = r.slab.recycledCodeBytes ∧
      ∀ u, r.slab.beforeFinish action = some u → ∀ d, ¬u.RangePending d →
        t.cache.blockEntries d = r.slab.cache.blockEntries d) ∧
    (r.slab.codeSegments.length - 1 ≤ r.recycles → 1 < r.slab.codeSegments.length →
      t.currentSegment ≠ r.slab.currentSegment ∧
      ∀ i < r.slab.codeSegments.length, i ≠ r.slab.currentSegment →
        r.touchedAt t.currentSegment ≤ r.touchedAt i) ∧
    t.currentSegment < t.codeSegments.length ∧
    t.cache.codePtr = (t.segmentAt t.currentSegment).beginPtr := by
  obtain ⟨g, hstart⟩ := exists_rotationPlaced shared hprelude hle (hsize.trans (by norm_num))
  have h : RotationPlaced g r := by
    refine hreach.invariant hstart fun r action r' hr hfits hr' => ?_
    obtain ⟨t, ht, rfl⟩ := Option.map_eq_some_iff.mp hr'
    exact hr.step hfits ht
  have hrotated := Slab.step_rotated (Nat.zero_lt_of_lt h.inStep.current_lt) hstep hcarries
  have hlt : t.currentSegment < t.codeSegments.length := by
    rw [Rotation.InStep.length_eq_of_ranges hrotated.ranges, hrotated.current, h.slab.length_eq]
    exact h.selectRecycleSegment_lt
  refine ⟨fun hrecycles => h.retires_nothing (by omega) hstep hcarries,
    fun hrecycles hcount => ?_, hlt, ?_⟩
  · rw [hrotated.current]
    exact h.inStep.least_recent hcount (by omega)
  · have hrange : codeRange (t.segmentAt t.currentSegment) =
        g.segment r.slab.selectRecycleSegment := by
      rw [hrotated.current]
      exact SlabPlaced.codeRange_getD_of_segments (hrotated.ranges.trans h.slab.segments)
        h.selectRecycleSegment_lt
    rw [h.codePtr_eq hstep hcarries, ← hrange]
    rfl

instance (s : Slab AddressSpace) : DecidablePred (Fits s)
  | .emit _ block _ => inferInstanceAs (Decidable (WellFormed block.size block.slots ∧
      block.size ≤ s.activeSegmentSpaceRemaining))
  | .registerExecutor _ | .unregisterExecutor _ | .enterExecution _ | .leaveExecution _ _
  | .findBlock _ _ | .runCode _ | .clearCache | .recycleCache | .requestCacheClear
  | .invalidateCacheRange _ _ | .requestCacheRange _ _ | .servicePendingInvalidation =>
      isTrue trivial

/-! Three segments are used one after the other, and the block of the first is run again, so that
the second is the one to be recycled. -/

def blockAt (location : LocationDescriptor) (size : ℕ) : Block BlockRelocation :=
  ⟨location, none, size, []⟩

def rotatingRun : List (SlabAction BlockRelocation) :=
  [.emit 0 (blockAt 1 64) 1, .recycleCache, .emit 0 (blockAt 2 64) 1, .recycleCache,
    .emit 0 (blockAt 3 64) 1, .runCode 8192]

def slabOfThree : Slab AddressSpace := createSlab (8192 + 96 * 1024 * 1024) 5000 false

theorem rotatingRun_isSome : (run Rotation.step (.start slabOfThree) rotatingRun).isSome := by
  decide

def rotated : Rotation AddressSpace :=
  (run Rotation.step (.start slabOfThree) rotatingRun).get rotatingRun_isSome

theorem rotated_step_isSome : (rotated.slab.step .recycleCache).isSome := by
  decide

theorem segmentRotation_rotated :
    ((rotated.slab.step .recycleCache).get rotated_step_isSome).currentSegment = 1 ∧
      rotated.touchedAt 1 ≤ rotated.touchedAt 0 ∧
      ((rotated.slab.step .recycleCache).get rotated_step_isSome).cache.codePtr =
        8192 + 32 * 1024 * 1024 := by
  have hreach : Reaches Rotation.step (fun r action => Fits r.slab action)
      (.start slabOfThree) rotated :=
    reaches_of_run (Option.some_get rotatingRun_isSome).symm (by decide)
  have h := segmentRotation (by norm_num) (by norm_num) (by norm_num) hreach
    (Option.some_get rotated_step_isSome).symm (by decide)
  have hcurrent : ((rotated.slab.step .recycleCache).get rotated_step_isSome).currentSegment = 1 := by
    decide
  refine ⟨hcurrent, ?_, h.2.2.2.trans (by decide)⟩
  have hleast := (h.2.1 (by decide) (by decide)).2 0 (by decide) (by decide)
  rwa [hcurrent] at hleast

/-! Blocks that do not fit go on into a segment that has not been used, and the first recycle
retires those that begin there. -/

def overflowingRun : List (SlabAction BlockRelocation) :=
  (List.range 34).map fun i => .emit 0 (blockAt ⟨BitVec.ofNat 64 i⟩ (1024 * 1024)) 1

def slabOfTwo : Slab AddressSpace := createSlab (8192 + 64 * 1024 * 1024) 5000 false

theorem overflowingRun_isSome :
    (run Rotation.step (.start slabOfTwo) overflowingRun).isSome := by
  decide +kernel

def overflowed : Rotation AddressSpace :=
  (run Rotation.step (.start slabOfTwo) overflowingRun).get overflowingRun_isSome

theorem overflowed_step_isSome : (overflowed.slab.step .recycleCache).isSome := by
  decide +kernel

theorem first_recycle_retires_overflow :
    Reaches Rotation.step always (.start slabOfTwo) overflowed ∧
      overflowed.slab.carriesOut (.recycleCache : SlabAction BlockRelocation) =
        some .recycleSegment ∧
      overflowed.recycles < overflowed.slab.codeSegments.length - 1 ∧
      ((overflowed.slab.step .recycleCache).get overflowed_step_isSome).currentGeneration ≠
        overflowed.slab.currentGeneration := by
  refine ⟨reaches_of_run (Option.some_get overflowingRun_isSome).symm (follows_always _ _), ?_⟩
  decide +kernel

end Umbra.Arm64
