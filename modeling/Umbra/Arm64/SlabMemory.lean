import Umbra.Arm64.LinkTable
import Umbra.Arm64.Quiescence
import Umbra.Backend.Segmentation

/-!
The memory of the arm64 slab.

Emission fills one segment at a time; a segment is emptied before it is filled again.
-/

namespace Umbra.Arm64

open Umbra.Lib Umbra.IR Umbra.Backend

theorem separate_segments (g : Segmentation) : AddressSpace.Separate g.segments where
  nonnull r hr := by
    obtain ⟨i, -, rfl⟩ := Segmentation.mem_segments.mp hr
    exact (Nat.lt_of_lt_of_le (Nat.pos_of_ne_zero g.nonnull) (Nat.le_add_right _ _)).ne'
  apart r hr s hs hne := by
    obtain ⟨i, hi, rfl⟩ := Segmentation.mem_segments.mp hr
    obtain ⟨j, hj, rfl⟩ := Segmentation.mem_segments.mp hs
    rcases Nat.lt_trichotomy i j with hij | rfl | hij
    · exact .inl (Segmentation.segment_le hij hj)
    · exact absurd rfl hne
    · exact .inr (Segmentation.segment_le hij hi)

/-- The segments are those of the division, blocks are placed in them, and the count
of used bytes is theirs. -/
structure SlabPlaced (g : Segmentation) (s : Slab AddressSpace) : Prop where
  segments : s.codeSegments.map codeRange = g.segments
  first : s.codeSegmentsBegin = g.first
  bytes : s.regularSegmentBytes = g.bytes
  current : s.currentSegment < g.count
  placed : AddressSpace.Placed g.segments (g.segment s.currentSegment) s.cache
  used : s.liveAllocatedCodeBytes = (s.codeSegments.map (·.usedBytes)).sum

theorem sum_modify (segments : List CodeSegment) {i : ℕ} (hi : i < segments.length)
    (f : CodeSegment → CodeSegment) :
    ((segments.modify i f).map (·.usedBytes)).sum + (segments.getD i default).usedBytes =
      (segments.map (·.usedBytes)).sum + (f (segments.getD i default)).usedBytes := by
  induction segments generalizing i with
  | nil => cases hi
  | cons segment segments ih =>
      cases i with
      | zero =>
          simp only [List.modify_zero_cons, List.map_cons, List.sum_cons, List.getD_cons_zero]
          omega
      | succ i =>
          have := ih (Nat.lt_of_succ_lt_succ hi)
          simp only [List.modify_succ_cons, List.map_cons, List.sum_cons, List.getD_cons_succ]
          omega

namespace SlabPlaced

variable {g : Segmentation} {s t : Slab AddressSpace}

theorem length_eq (h : SlabPlaced g s) : s.codeSegments.length = g.count := by
  have := congrArg List.length h.segments
  simpa [Segmentation.segments] using this

theorem codeRange_getD_of_segments {segments : List CodeSegment}
    (hsegments : segments.map codeRange = g.segments) {i : ℕ} (hi : i < g.count) :
    codeRange (segments.getD i default) = g.segment i := by
  have hget := congrArg (·[i]?) hsegments
  simp only [List.getElem?_map, Segmentation.segments, List.getElem?_range hi, Option.map_some,
    Option.map_eq_some_iff] at hget
  obtain ⟨segment, hsegment, hrange⟩ := hget
  rw [List.getD_eq_getElem?_getD, hsegment, Option.getD_some]
  exact hrange

theorem codeRange_getD (h : SlabPlaced g s) {i : ℕ} (hi : i < g.count) :
    codeRange (s.codeSegments.getD i default) = g.segment i :=
  codeRange_getD_of_segments h.segments hi

theorem of_eq (h : SlabPlaced g s) (hcache : t.cache = s.cache)
    (hsegments : t.codeSegments = s.codeSegments) (hfirst : t.codeSegmentsBegin = s.codeSegmentsBegin)
    (hbytes : t.regularSegmentBytes = s.regularSegmentBytes)
    (hcurrent : t.currentSegment = s.currentSegment)
    (hused : t.liveAllocatedCodeBytes = s.liveAllocatedCodeBytes) : SlabPlaced g t := by
  constructor
  · rw [hsegments]
    exact h.segments
  · rw [hfirst]
    exact h.first
  · rw [hbytes]
    exact h.bytes
  · rw [hcurrent]
    exact h.current
  · rw [hcurrent, hcache]
    exact h.placed
  · rw [hused, hsegments]
    exact h.used

theorem withCache (h : SlabPlaced g s) {cache : AddressSpace}
    (hplaced : AddressSpace.Placed g.segments (g.segment s.currentSegment) cache) :
    SlabPlaced g { s with cache } :=
  ⟨h.segments, h.first, h.bytes, h.current, hplaced, h.used⟩

theorem touchCodeSegment (h : SlabPlaced g s) (p : CodePtr) :
    SlabPlaced g (s.touchCodeSegment p) := by
  unfold Slab.touchCodeSegment
  split
  · exact h
  · rename_i index hindex
    refine ⟨?_, h.first, h.bytes, h.current, h.placed, ?_⟩
    · exact (map_modify_of_eq codeRange _ _ (by intro; rfl)).trans h.segments
    · exact h.used.trans
        (congrArg List.sum (map_modify_of_eq (·.usedBytes) _ _ (by intro; rfl)).symm)

theorem updateActiveSegmentUsage (h : SlabPlaced g s) :
    SlabPlaced g s.updateActiveSegmentUsage := by
  unfold Slab.updateActiveSegmentUsage
  simp only
  split
  · exact h
  · rename_i hgrown
    obtain ⟨-, hgrown⟩ := not_or.mp hgrown
    refine ⟨(map_modify_of_eq codeRange _ _ (by intro; rfl)).trans h.segments, h.first,
      h.bytes, h.current, h.placed, ?_⟩
    generalize min (CodeCache.currentCodePtr s.cache) s.activeSegment.endPtr -
      s.activeSegment.beginPtr = occupied at hgrown ⊢
    have hlt : s.currentSegment < s.codeSegments.length := h.length_eq ▸ h.current
    have hsum := sum_modify s.codeSegments hlt fun segment =>
      { segment with usedBytes := occupied }
    have hused := h.used
    change _ + s.activeSegment.usedBytes = _ + occupied at hsum
    dsimp only
    lia

theorem selectRecycleSegment_lt (h : SlabPlaced g s) : s.selectRecycleSegment < g.count := by
  rw [← h.length_eq]
  exact s.selectRecycleSegment_lt (h.length_eq ▸ g.count_pos)

theorem recycleCodeSegment (h : SlabPlaced g s) : SlabPlaced g s.recycleCodeSegment.2 := by
  have hlt := h.selectRecycleSegment_lt
  have hrange : codeRange s.recycleVictim = g.segment s.selectRecycleSegment :=
    h.codeRange_getD hlt
  have hsegment : g.segment s.selectRecycleSegment ∈ g.segments :=
    Segmentation.mem_segments.mpr ⟨_, hlt, rfl⟩
  have hplaced := h.placed.recycle (separate_segments g) hsegment
  rw [← hrange] at hplaced
  unfold Slab.recycleCodeSegment
  refine ⟨(map_modify_of_eq codeRange _ _ (by intro; rfl)).trans h.segments, h.first, h.bytes,
    hlt, ?_, ?_⟩
  · rw [← hrange]
    exact hplaced.of_blockInfos (hplaced.linked.congr rfl rfl rfl rfl rfl) rfl rfl
  · have hsum := sum_modify s.codeSegments (h.length_eq ▸ hlt : s.selectRecycleSegment < _)
      fun segment => { segment with
        initialized := true, lastTouch := s.segmentTouchClock + 1, usedBytes := 0 }
    have hused := h.used
    change _ + s.recycleVictim.usedBytes = _ + 0 at hsum
    dsimp only
    omega

theorem resetCodeSegments (hsegments : s.codeSegments.map codeRange = g.segments)
    (hfirst : s.codeSegmentsBegin = g.first) (hbytes : s.regularSegmentBytes = g.bytes)
    (hlinked : s.cache.Linked) (hnone : ∀ p, s.cache.blockInfos p = none) :
    SlabPlaced g s.resetCodeSegments := by
  have hcleared : (s.codeSegments.map fun segment =>
      { segment with lastTouch := 0, usedBytes := 0, initialized := false }).map codeRange =
        g.segments := by
    rw [List.map_map]
    exact hsegments
  have hzero : ((s.codeSegments.map fun segment : CodeSegment =>
      { segment with lastTouch := 0, usedBytes := 0, initialized := false }).map
        (·.usedBytes)).sum = 0 := by
    simp [List.map_map, Function.comp_def]
  have hmem : g.segment 0 ∈ g.segments := Segmentation.mem_segments.mpr ⟨0, g.count_pos, rfl⟩
  unfold Slab.resetCodeSegments
  simp only
  generalize s.codeSegments.map (fun segment => { segment with
    lastTouch := 0, usedBytes := 0, initialized := false }) = cleared at hcleared hzero ⊢
  cases cleared with
  | nil =>
      rw [← hcleared] at hmem
      cases hmem
  | cons front rest =>
      have hfront : codeRange front = g.segment 0 := by
        have hget := congrArg (·[0]?) hcleared
        simp only [List.getElem?_map, Segmentation.segments, List.getElem?_range g.count_pos,
          Option.map_some, List.getElem?_cons_zero] at hget
        exact Option.some.inj hget
      refine ⟨hcleared, hfirst, hbytes, g.count_pos, ?_, hzero.symm⟩
      exact .of_no_blocks (hlinked.congr rfl rfl rfl rfl rfl) hmem
        (congrArg Prod.fst hfront) hnone

theorem invalidatePendingRanges (h : SlabPlaced g s) : SlabPlaced g s.invalidatePendingRanges := by
  unfold Slab.invalidatePendingRanges
  split
  · exact h
  · refine h.withCache (AddressSpace.Placed.invalidateBasicBlocks ?_ _)
    exact h.placed.of_blockInfos (h.placed.linked.congr rfl rfl rfl rfl rfl) rfl rfl

theorem finishPendingInvalidation (h : SlabPlaced g s) :
    SlabPlaced g s.finishPendingInvalidation := by
  unfold Slab.finishPendingInvalidation
  split
  · exact h
  · split
    · cases s.pendingTransition with
      | clearAll =>
          have hreset := @SlabPlaced.resetCodeSegments g
            { s with cache := CodeCache.clearCache s.cache } h.segments h.first h.bytes
            ((AddressSpace.Linked.clearCache s.cache).congr rfl rfl rfl rfl rfl) fun _ => rfl
          exact hreset.of_eq rfl rfl rfl rfl rfl rfl
      | recycleSegment =>
          have hrecycle := h.invalidatePendingRanges.recycleCodeSegment
          simp only [Slab.finishRecycle]
          split
          · exact hrecycle.of_eq rfl rfl rfl rfl rfl rfl
          · exact hrecycle.of_eq rfl rfl rfl rfl rfl rfl
    · exact h.invalidatePendingRanges.of_eq rfl rfl rfl rfl rfl rfl

theorem finishPendingDirectLinkPublication (h : SlabPlaced g s) :
    SlabPlaced g s.finishPendingDirectLinkPublication := by
  unfold Slab.finishPendingDirectLinkPublication
  split
  · exact h
  · exact h.withCache h.placed.publishPendingBlockRelinks

theorem servicePendingInvalidation (h : SlabPlaced g s) :
    SlabPlaced g s.servicePendingInvalidation :=
  h.finishPendingInvalidation.finishPendingDirectLinkPublication

theorem requestGenerationTransition (h : SlabPlaced g s) (kind : GenerationTransitionKind)
    (finish : Bool) : SlabPlaced g (s.requestGenerationTransition kind finish) := by
  have hrecord : SlabPlaced g (s.recordTransition kind).signalActiveExecutors := by
    unfold Slab.recordTransition
    split
    · exact h.of_eq rfl rfl rfl rfl rfl rfl
    · split
      · exact h.of_eq rfl rfl rfl rfl rfl rfl
      · exact h.of_eq rfl rfl rfl rfl rfl rfl
  unfold Slab.requestGenerationTransition
  split
  · exact hrecord.finishPendingInvalidation
  · exact hrecord

theorem requestRangeTransition (h : SlabPlaced g s) (start length : ℕ) (finish : Bool) :
    SlabPlaced g (s.requestRangeTransition start length finish) := by
  unfold Slab.requestRangeTransition
  split
  · exact h
  · have hrecord : SlabPlaced g (Slab.signalActiveExecutors { s with
        pendingRanges := (Interval.closed start (Slab.inclusiveRangeEnd start length)).toList.foldl
          IntervalSet.add s.pendingRanges }) := h.of_eq rfl rfl rfl rfl rfl rfl
    simp only
    split
    · exact hrecord.finishPendingInvalidation
    · exact hrecord

theorem emit (h : SlabPlaced g s) {block : Block BlockRelocation} {generation : ℕ}
    {executing : Bool} {result : Option BlockDescriptor}
    (hwf : WellFormed block.size block.slots) (hfits : block.size ≤ s.activeSegmentSpaceRemaining)
    (hemit : s.emit block generation executing = some (result, t)) : SlabPlaced g t := by
  unfold Slab.emit at hemit
  split at hemit
  · obtain ⟨-, rfl⟩ := Prod.mk.inj (Option.some.inj hemit)
    exact h
  · simp only at hemit
    split at hemit
    · obtain ⟨-, rfl⟩ := Prod.mk.inj (Option.some.inj hemit)
      exact h.touchCodeSegment _
    · rename_i hget
      split at hemit
      · cases hemit
      · rename_i p cache hcache
        obtain ⟨-, rfl⟩ := Prod.mk.inj (Option.some.inj hemit)
        refine (updateActiveSegmentUsage (h.withCache ?_)).touchCodeSegment p
        refine h.placed.emitForSlab (separate_segments g) hget hwf ?_ hcache
        rw [← h.codeRange_getD h.current]
        have hpos := hwf.1
        change block.size ≤ s.activeSegment.endPtr - s.cache.codePtr at hfits
        change s.cache.codePtr + block.size ≤ s.activeSegment.endPtr
        lia

end SlabPlaced

def Fits (s : Slab AddressSpace) : SlabAction BlockRelocation → Prop
  | .emit _ block _ => WellFormed block.size block.slots ∧
      block.size ≤ s.activeSegmentSpaceRemaining
  | _ => True

namespace SlabPlaced

variable {g : Segmentation} {s t : Slab AddressSpace}

theorem step (h : SlabPlaced g s) {action : SlabAction BlockRelocation} (hfits : Fits s action)
    (hstep : s.step action = some t) : SlabPlaced g t := by
  cases action with
  | registerExecutor state =>
      obtain ⟨executors, rfl⟩ := Slab.registerExecutor_eq hstep
      exact h.of_eq rfl rfl rfl rfl rfl rfl
  | unregisterExecutor state =>
      obtain ⟨executors, rfl⟩ := Slab.unregisterExecutor_eq hstep
      exact h.of_eq rfl rfl rfl rfl rfl rfl
  | enterExecution state =>
      obtain ⟨⟨generation, t'⟩, henter, rfl⟩ := Option.map_eq_some_iff.mp hstep
      obtain ⟨-, executors, active, rfl⟩ := Slab.enterExecution_eq henter
      exact h.finishPendingDirectLinkPublication.of_eq rfl rfl rfl rfl rfl rfl
  | leaveExecution state generation =>
      obtain ⟨-, -, executors, rfl⟩ := Slab.leaveExecution_eq hstep
      refine servicePendingInvalidation (h.of_eq ?_ ?_ ?_ ?_ ?_ ?_) <;> rfl
  | findBlock location generation =>
      obtain rfl := Option.some.inj hstep
      unfold Slab.findBlock
      split
      · exact h
      · split
        · exact h
        · exact h.touchCodeSegment _
  | emit caller block generation =>
      simp only [Slab.step, Option.map_eq_some_iff] at hstep
      obtain ⟨⟨result, t'⟩, hemit, rfl⟩ := hstep
      exact h.emit hfits.1 hfits.2 hemit
  | runCode codePtr => exact Option.some.inj hstep ▸ h.touchCodeSegment codePtr
  | clearCache => exact Option.some.inj hstep ▸ h.requestGenerationTransition _ _
  | recycleCache => exact Option.some.inj hstep ▸ h.requestGenerationTransition _ _
  | requestCacheClear => exact Option.some.inj hstep ▸ h.requestGenerationTransition _ _
  | invalidateCacheRange start length =>
      exact Option.some.inj hstep ▸ h.requestRangeTransition _ _ _
  | requestCacheRange start length =>
      exact Option.some.inj hstep ▸ h.requestRangeTransition _ _ _
  | servicePendingInvalidation => exact Option.some.inj hstep ▸ h.servicePendingInvalidation

end SlabPlaced

/-! ### The slab as it is created -/

def codeSegmentsBegin (endOfPrelude : ℕ) : ℕ := (endOfPrelude + 4095) / 4096 * 4096

/-- A new slab is cut into segments that cover the memory behind the prelude. -/
theorem exists_segmentation {codeCacheSize endOfPrelude : ℕ} (shared : Bool)
    (hprelude : 0 < endOfPrelude) (hle : endOfPrelude ≤ codeCacheSize)
    (hsize : codeCacheSize ≤ 134217728) : ∃ (g : Segmentation) (s : Slab AddressSpace),
      g.first = codeSegmentsBegin endOfPrelude ∧ g.last = codeCacheSize ∧
        createSlab codeCacheSize endOfPrelude shared = s.resetCodeSegments ∧
        s.codeSegments.map codeRange = g.segments ∧ (∀ p, s.cache.blockInfos p = none) ∧
        SlabPlaced g (createSlab codeCacheSize endOfPrelude shared) := by
  obtain ⟨first, hfirst⟩ : ∃ first, first = codeSegmentsBegin endOfPrelude := ⟨_, rfl⟩
  obtain ⟨usable, husable⟩ : ∃ usable, usable = (codeCacheSize + 2 ^ 64 - first) % 2 ^ 64 :=
    ⟨_, rfl⟩
  have hbound : endOfPrelude ≤ first ∧ first < endOfPrelude + 4096 := by
    rw [hfirst, codeSegmentsBegin]
    omega
  have hlast : (first + usable) % 2 ^ 64 = codeCacheSize := by omega
  have hwrapped : ¬first ≤ codeCacheSize →
      (usable + 32 * 1024 * 1024 - 1) % 2 ^ 64 / (32 * 1024 * 1024) = 0 := by
    rw [show 32 * 1024 * 1024 = 33554432 by norm_num]
    omega
  have hexact : first ≤ codeCacheSize → first + usable = codeCacheSize := by omega
  obtain ⟨g, s, hg, hglast, hcreate, hcache, hsegments, hbegin, hbytes⟩ :=
    Slab.exists_segmentation_create (AddressSpace.empty codeCacheSize endOfPrelude) shared
      (by omega) hlast hexact hwrapped
  have hnone (p : CodePtr) : s.cache.blockInfos p = none := by
    rw [hcache]
    rfl
  have heq : createSlab codeCacheSize endOfPrelude shared = s.resetCodeSegments := by
    rw [codeSegmentsBegin] at hfirst
    rw [createSlab, ← hfirst, ← husable, hcreate]
  refine ⟨g, s, hg.trans hfirst, hglast, heq, hsegments, hnone, ?_⟩
  rw [heq]
  exact SlabPlaced.resetCodeSegments hsegments hbegin hbytes
    (hcache ▸ AddressSpace.Linked.empty _ _) hnone

/-! ### Safety -/

namespace SlabPlaced

variable {g : Segmentation} {s : Slab AddressSpace}

theorem exists_contains_iff (h : SlabPlaced g s) (a : ℕ) :
    (∃ segment ∈ s.codeSegments, (codeRange segment).Contains a) ↔ g.first ≤ a ∧ a < g.last := by
  rw [← Segmentation.exists_contains_iff, ← h.segments]
  simp

theorem getElem? (h : SlabPlaced g s) {i : ℕ} (hi : i < g.count) :
    s.codeSegments[i]? = some (s.codeSegments.getD i default) := by
  rw [List.getD_eq_getElem?_getD, List.getElem?_eq_getElem (h.length_eq ▸ hi), Option.getD_some]

theorem exists_getLast (h : SlabPlaced g s) :
    ∃ back, s.codeSegments.getLast? = some back ∧ back.endPtr = g.last := by
  have hpos := g.count_pos
  refine ⟨s.codeSegments.getD (g.count - 1) default, ?_, ?_⟩
  · rw [List.getLast?_eq_getElem?, h.length_eq, h.getElem? (by omega)]
  · refine (congrArg Prod.snd (h.codeRange_getD (by omega : g.count - 1 < g.count))).trans ?_
    exact if_pos (by omega)

theorem codeSegmentIndex (h : SlabPlaced g s) {a : ℕ} (hfirst : g.first ≤ a) (hlast : a < g.last) :
    ∃ i segment, s.codeSegmentIndex a = some i ∧ s.codeSegments[i]? = some segment ∧
      (codeRange segment).Contains a := by
  obtain ⟨hlt, hcontains⟩ := Segmentation.contains_segment hfirst hlast
  have hlength := h.length_eq
  have hpos := g.count_pos
  have hbytes := g.bytes_pos (hfirst.trans_lt hlast)
  obtain ⟨i, hi⟩ : ∃ i, i = min ((a - g.first) / g.bytes) (g.count - 1) := ⟨_, rfl⟩
  rw [← hi] at hlt hcontains
  obtain ⟨back, hback, hend⟩ := h.exists_getLast
  refine ⟨i, _, ?_, h.getElem? hlt, ?_⟩
  · unfold Slab.codeSegmentIndex
    rw [hback, h.bytes, h.first, hlength, hi]
    simp only
    rw [if_neg]
    rintro (hzero | hbefore | hbehind)
    · exact hbytes.ne' hzero
    · exact absurd hbefore (not_lt.mpr hfirst)
    · exact absurd hlast (not_lt.mpr (hend ▸ hbehind))
  · rw [h.codeRange_getD hlt]
    exact hcontains

theorem entry_within (h : SlabPlaced g s) {d : LocationDescriptor} {p : CodePtr}
    (hentry : s.cache.blockEntries d = some p) : ∃ info, s.cache.blockInfos p = some info ∧
      g.first ≤ p ∧ p + info.size ≤ g.last := by
  have htracked := (h.placed.linked.tracked p).mpr
    (List.mem_map.mpr ⟨(p, d), s.cache.listed d p hentry, rfl⟩)
  obtain ⟨info, hinfo⟩ := Option.isSome_iff_exists.mp htracked
  obtain ⟨r, hr, hlo, hhi, -⟩ := h.placed.within p info hinfo
  obtain ⟨i, hi, rfl⟩ := Segmentation.mem_segments.mp hr
  obtain ⟨hfirst, hlast⟩ := Segmentation.segment_within hi
  exact ⟨info, hinfo, hfirst.trans hlo, hhi.trans hlast⟩

theorem entries_apart (h : SlabPlaced g s) {d d' : LocationDescriptor} {p p' : CodePtr}
    {info info' : EmittedBlockInfo} (hne : d ≠ d') (hentry : s.cache.blockEntries d = some p)
    (hentry' : s.cache.blockEntries d' = some p') (hinfo : s.cache.blockInfos p = some info)
    (hinfo' : s.cache.blockInfos p' = some info') :
    p + info.size ≤ p' ∨ p' + info'.size ≤ p := by
  have hlinked := h.placed.linked
  by_contra hover
  have hsame : p = p' := by
    refine hlinked.apart hinfo hinfo' ?_
    rw [EmittedBlockInfo.Overlaps, hlinked.keyed hinfo, hlinked.keyed hinfo']
    lia
  subst hsame
  -- An address is listed for one descriptor only.
  have hpair := List.inj_on_of_nodup_map hlinked.nodup (s.cache.listed d p hentry)
    (s.cache.listed d' p hentry') rfl
  exact hne (congrArg Prod.snd hpair)

end SlabPlaced

/-- In every run whose emissions fit, the segments cover the area behind the prelude
without overlap and are found by address, blocks share no byte with each other or
the prelude, and the count of used bytes is that of the segments. -/
theorem slabMemory_safe {codeCacheSize endOfPrelude : ℕ} {shared : Bool}
    (hprelude : 0 < endOfPrelude) (hle : endOfPrelude ≤ codeCacheSize)
    (hsize : codeCacheSize ≤ 128 * 1024 * 1024) {s : Slab AddressSpace}
    (hreach : Reaches Slab.step Fits (createSlab codeCacheSize endOfPrelude shared) s) :
    (∀ a, (∃ segment ∈ s.codeSegments, (codeRange segment).Contains a) ↔
      codeSegmentsBegin endOfPrelude ≤ a ∧ a < codeCacheSize) ∧
    (s.codeSegments.map codeRange).Pairwise (fun r r' => r.2 ≤ r'.1) ∧
    (∀ a, codeSegmentsBegin endOfPrelude ≤ a → a < codeCacheSize →
      ∃ i segment, s.codeSegmentIndex a = some i ∧ s.codeSegments[i]? = some segment ∧
        (codeRange segment).Contains a) ∧
    (∀ d p, s.cache.blockEntries d = some p → ∃ info, s.cache.blockInfos p = some info ∧
      endOfPrelude ≤ p ∧ p + info.size ≤ codeCacheSize) ∧
    (∀ d d' p p' info info', d ≠ d' → s.cache.blockEntries d = some p →
      s.cache.blockEntries d' = some p' → s.cache.blockInfos p = some info →
      s.cache.blockInfos p' = some info' → p + info.size ≤ p' ∨ p' + info'.size ≤ p) ∧
    s.liveAllocatedCodeBytes = (s.codeSegments.map (·.usedBytes)).sum := by
  obtain ⟨g, -, hfirst, hlast, -, -, -, hcreate⟩ :=
    exists_segmentation shared hprelude hle (hsize.trans (by norm_num))
  have h : SlabPlaced g s :=
    hreach.invariant hcreate fun _ _ _ hplaced hfits hstep => hplaced.step hfits hstep
  have hbehind : endOfPrelude ≤ codeSegmentsBegin endOfPrelude := by
    rw [codeSegmentsBegin]
    omega
  rw [← hfirst] at hbehind ⊢
  rw [← hlast]
  refine ⟨h.exists_contains_iff, h.segments ▸ Segmentation.pairwise,
    fun a => h.codeSegmentIndex, fun d p hentry => ?_,
    fun d d' p p' info info' => h.entries_apart, h.used⟩
  obtain ⟨info, hinfo, hlo, hhi⟩ := h.entry_within hentry
  exact ⟨info, hinfo, hbehind.trans hlo, hhi⟩

/-! A block is emitted, its segment recycled, and the block emitted again. -/

def sampleBlock : Block BlockRelocation := ⟨1, none, 64, [⟨2, 8, .branch⟩]⟩

def recyclingRun : List (SlabAction BlockRelocation) :=
  [.emit 0 sampleBlock 1, .recycleCache, .emit 0 sampleBlock 2]

theorem recyclingRun_isSome :
    (run Slab.step (createSlab (1024 * 1024) 5000 false) recyclingRun).isSome := by
  decide

theorem slabMemory_safe_recyclingRun :
    ((run Slab.step (createSlab (1024 * 1024) 5000 false) recyclingRun).get
      recyclingRun_isSome).liveAllocatedCodeBytes = 64 := by
  have hreach : Reaches Slab.step Fits (createSlab (1024 * 1024) 5000 false) _ :=
    reaches_of_run (Option.some_get recyclingRun_isSome).symm
      ⟨⟨by decide, by decide⟩, fun t ht => ⟨trivial, fun u hu => ⟨?_, fun _ _ => trivial⟩⟩⟩
  · exact (slabMemory_safe (by norm_num) (by norm_num) (by norm_num) hreach).2.2.2.2.2.trans
      (by decide)
  · obtain rfl := Option.some.inj ht
    obtain rfl := Option.some.inj hu
    exact ⟨by decide, by decide⟩

end Umbra.Arm64
