import Mathlib.Data.Finset.Card
import Umbra.Backend.SlabFinish

/-!
The order in which the slab recycles its segments.

Every segment carries the time of its last touch.  A recycle takes a segment that has not been
used since the slab was created or cleared, as long as there is one, and then the one that has not
been touched for longest.  Beside the slab a run keeps its own record of what happened, so that
the stamps can be compared with it.
-/

namespace Umbra.Backend

open Umbra.Lib Umbra.IR CodeCache

namespace Slab

variable {C S : Type} [CodeCache C S] {s t u : Slab C} {action : SlabAction S}

def segmentAt (s : Slab C) (i : ℕ) : CodeSegment := s.codeSegments.getD i default

def usedSegments (s : Slab C) : Finset ℕ :=
  (Finset.range s.codeSegments.length).filter fun i => (s.segmentAt i).initialized = true

omit [CodeCache C S] in
theorem mem_usedSegments {i : ℕ} :
    i ∈ s.usedSegments ↔ i < s.codeSegments.length ∧ (s.segmentAt i).initialized = true := by
  simp [usedSegments]

omit [CodeCache C S] in
theorem segmentAt_modify {segments : List CodeSegment} {f : CodeSegment → CodeSegment} {i j : ℕ}
    (hi : i < segments.length) :
    (segments.modify i f).getD j default =
      if i = j then f (segments.getD i default) else segments.getD j default := by
  simp only [List.getD_eq_getElem?_getD, List.getElem?_modify]
  split
  · subst j
    rw [List.getElem?_eq_getElem hi]
    rfl
  · simp

/-! ### The selection -/

/-- The loop of `select_recycle_segment` finds a least key among the indices that are not to be
skipped. -/
theorem foldl_least (key : ℕ → ℕ) (skip : ℕ) (indices : List ℕ) (victim : ℕ)
    (hvictim : victim ≠ skip) :
    let v := indices.foldl (fun victim index =>
      if index = skip then victim else if key index < key victim then index else victim) victim
    v ≠ skip ∧ key v ≤ key victim ∧ ∀ i ∈ indices, i ≠ skip → key v ≤ key i := by
  induction indices generalizing victim with
  | nil => exact ⟨hvictim, le_rfl, fun i hi => absurd hi List.not_mem_nil⟩
  | cons index indices ih =>
      simp only [List.foldl_cons, List.forall_mem_cons]
      by_cases hskip : index = skip
      · obtain ⟨hne, hle, hleast⟩ := ih victim hvictim
        rw [if_pos hskip]
        exact ⟨hne, hle, fun hi => absurd hskip hi, hleast⟩
      · rw [if_neg hskip]
        split
        · rename_i hlt
          obtain ⟨hne, hle, hleast⟩ := ih index hskip
          exact ⟨hne, hle.trans hlt.le, fun _ => hle, hleast⟩
        · rename_i hge
          obtain ⟨hne, hle, hleast⟩ := ih victim hvictim
          exact ⟨hne, hle, fun _ => hle.trans (not_lt.mp hge), hleast⟩

omit [CodeCache C S] in
theorem exists_offset {n current i : ℕ} (hcurrent : current < n) (hi : i < n) :
    ∃ offset ∈ List.range' 1 n, (current + offset) % n = i := by
  by_cases hlt : current < i
  · refine ⟨i - current, List.mem_range'_1.mpr (by omega), ?_⟩
    rw [Nat.add_sub_cancel' hlt.le, Nat.mod_eq_of_lt hi]
  · refine ⟨i + n - current, List.mem_range'_1.mpr (by omega), ?_⟩
    rw [Nat.add_sub_cancel' (by omega), Nat.add_mod_right, Nat.mod_eq_of_lt hi]

theorem selectRecycleSegment_of_unused {i : ℕ} (hcount : 1 < s.codeSegments.length)
    (hcurrent : s.currentSegment < s.codeSegments.length) (hi : i < s.codeSegments.length)
    (hunused : (s.segmentAt i).initialized = false) :
    (s.segmentAt s.selectRecycleSegment).initialized = false := by
  unfold selectRecycleSegment
  simp only
  rw [if_neg (by omega)]
  split
  · rename_i offset hfind
    simpa [segmentAt] using List.find?_some hfind
  · rename_i hfind
    obtain ⟨offset, hmem, hoffset⟩ := exists_offset hcurrent hi
    have := List.find?_eq_none.mp hfind offset hmem
    rw [hoffset] at this
    simp [segmentAt] at hunused
    simp [hunused] at this

/-- When all have been used, the one that has not been touched for longest is taken, apart from
the current one. -/
theorem selectRecycleSegment_of_used (hcount : 1 < s.codeSegments.length)
    (hused : ∀ i < s.codeSegments.length, (s.segmentAt i).initialized = true) :
    s.selectRecycleSegment ≠ s.currentSegment ∧ ∀ i < s.codeSegments.length,
      i ≠ s.currentSegment →
        (s.segmentAt s.selectRecycleSegment).lastTouch ≤ (s.segmentAt i).lastTouch := by
  have hnone : (List.range' 1 s.codeSegments.length).find? (fun offset =>
      !(s.codeSegments.getD ((s.currentSegment + offset) % s.codeSegments.length)
        default).initialized) = none := by
    rw [List.find?_eq_none]
    intro offset _
    have := hused _ (Nat.mod_lt (s.currentSegment + offset) (by omega))
    simpa [segmentAt] using this
  have hleast := foldl_least (fun i => (s.segmentAt i).lastTouch) s.currentSegment
    (List.range s.codeSegments.length) (if s.currentSegment = 0 then 1 else 0)
    (by split_ifs <;> omega)
  have hselect : s.selectRecycleSegment = (List.range s.codeSegments.length).foldl
      (fun victim index => if index = s.currentSegment then victim
        else if (s.segmentAt index).lastTouch < (s.segmentAt victim).lastTouch then index
        else victim) (if s.currentSegment = 0 then 1 else 0) := by
    unfold selectRecycleSegment
    simp only
    rw [if_neg (by omega), hnone]
    rfl
  rw [← hselect] at hleast
  exact ⟨hleast.1, fun i hi hne => hleast.2.2 i (List.mem_range.mpr hi) hne⟩

/-! ### What an operation touches -/

def carriesOut (s : Slab C) (action : SlabAction S) : Option GenerationTransitionKind :=
  match s.beforeFinish action with
  | some u => if u.activeExecutions = 0 ∧ u.clearPending = true then some u.pendingTransition else none
  | none => none

/-- The code a lookup finds, an emission returns or a run begins with. -/
def refersTo (s : Slab C) : SlabAction S → Option CodePtr
  | .findBlock location generation =>
      (s.findBlock location generation).1.map BlockDescriptor.entrypoint
  | .emit caller block generation =>
      (s.emit block generation (s.isActive caller)).bind fun result =>
        result.1.map BlockDescriptor.entrypoint
  | .runCode codePtr => some codePtr
  | _ => none

/-- The stamps of `t` are those of `s`, but that the segment touched has a new one. -/
structure Stamped (s t : Slab C) (touched : Option ℕ) : Prop where
  clock : s.segmentTouchClock ≤ t.segmentTouchClock
  untouched : ∀ i, touched ≠ some i → (t.segmentAt i).lastTouch = (s.segmentAt i).lastTouch
  touched : ∀ i, touched = some i →
    s.segmentTouchClock < (t.segmentAt i).lastTouch ∧
      (t.segmentAt i).lastTouch ≤ t.segmentTouchClock

structure Touches (s t : Slab C) (touched : Option ℕ) : Prop extends Stamped s t touched where
  ranges : t.codeSegments.map codeRange = s.codeSegments.map codeRange
  current : t.currentSegment = s.currentSegment
  initialized : ∀ i, (t.segmentAt i).initialized = (s.segmentAt i).initialized

namespace Touches

omit [CodeCache C S] in
theorem of_eq (hsegments : t.codeSegments = s.codeSegments)
    (hcurrent : t.currentSegment = s.currentSegment)
    (hclock : t.segmentTouchClock = s.segmentTouchClock) : Touches s t none where
  ranges := by rw [hsegments]
  current := hcurrent
  clock := hclock.ge
  initialized i := by rw [segmentAt, hsegments, segmentAt]
  untouched i _ := by rw [segmentAt, hsegments, segmentAt]
  touched i hi := by cases hi

omit [CodeCache C S] in
theorem refl (s : Slab C) : Touches s s none := of_eq rfl rfl rfl

end Touches

omit [CodeCache C S] in
theorem codeSegmentIndex_lt {p : CodePtr} {i : ℕ} (hi : s.codeSegmentIndex p = some i) :
    i < s.codeSegments.length := by
  unfold codeSegmentIndex at hi
  split at hi
  · cases hi
  · rename_i back hback
    have hpos : s.codeSegments ≠ [] := by
      intro hnil
      simp [hnil] at hback
    have := List.length_pos_iff.mpr hpos
    split at hi
    · cases hi
    · obtain rfl := Option.some.inj hi
      omega

omit [CodeCache C S] in
theorem touches_touchCodeSegment (s : Slab C) (p : CodePtr) :
    Touches s (s.touchCodeSegment p) (s.codeSegmentIndex p) := by
  unfold touchCodeSegment
  split
  · rename_i hnone
    rw [hnone]
    exact .refl s
  · rename_i index hindex
    have hlt := codeSegmentIndex_lt hindex
    have hat (i : ℕ) := @segmentAt_modify s.codeSegments
      (fun segment => { segment with lastTouch := s.segmentTouchClock + 1 }) index i hlt
    rw [hindex]
    refine ⟨⟨Nat.le_succ _, fun i hi => ?_, fun i hi => ?_⟩,
      map_modify_of_eq codeRange _ _ fun _ => rfl, rfl, fun i => ?_⟩
    · rw [segmentAt, hat, if_neg fun heq => hi (by rw [heq])]
      rfl
    · obtain rfl := Option.some.inj hi
      rw [segmentAt, hat, if_pos rfl]
      exact ⟨Nat.lt_succ_self _, le_rfl⟩
    · rw [segmentAt, hat]
      split
      · subst i
        rfl
      · rfl

theorem touches_updateActiveSegmentUsage (s : Slab C)
    (hcurrent : s.currentSegment < s.codeSegments.length) :
    Touches s s.updateActiveSegmentUsage none := by
  unfold updateActiveSegmentUsage
  simp only
  split
  · exact .refl s
  · generalize min (currentCodePtr s.cache) s.activeSegment.endPtr - s.activeSegment.beginPtr =
      occupied
    have hat (i : ℕ) := @segmentAt_modify s.codeSegments
      (fun segment => { segment with usedBytes := occupied }) s.currentSegment i hcurrent
    refine ⟨⟨le_rfl, fun i _ => ?_, fun i hi => by cases hi⟩,
      map_modify_of_eq codeRange _ _ fun _ => rfl, rfl, fun i => ?_⟩
    · rw [segmentAt, hat]
      split
      · subst i
        rfl
      · rfl
    · rw [segmentAt, hat]
      split
      · subst i
        rfl
      · rfl

omit [CodeCache C S] in
theorem Touches.trans {touched : Option ℕ} (hst : Touches s t none) (htu : Touches t u touched) :
    Touches s u touched where
  ranges := htu.ranges.trans hst.ranges
  current := htu.current.trans hst.current
  clock := hst.clock.trans htu.clock
  initialized i := (htu.initialized i).trans (hst.initialized i)
  untouched i hi := (htu.untouched i hi).trans (hst.untouched i nofun)
  touched i hi := ⟨hst.clock.trans_lt (htu.touched i hi).1, (htu.touched i hi).2⟩

omit [CodeCache C S] in
theorem codeSegmentIndex_congr (hranges : t.codeSegments.map codeRange = s.codeSegments.map codeRange)
    (hbegin : t.codeSegmentsBegin = s.codeSegmentsBegin)
    (hbytes : t.regularSegmentBytes = s.regularSegmentBytes) (p : CodePtr) :
    t.codeSegmentIndex p = s.codeSegmentIndex p := by
  have hlength : t.codeSegments.length = s.codeSegments.length := by
    simpa using congrArg List.length hranges
  have hlast : (t.codeSegments.getLast?).map codeRange = (s.codeSegments.getLast?).map codeRange := by
    rw [← List.getLast?_map, hranges, List.getLast?_map]
  unfold codeSegmentIndex
  cases ht : t.codeSegments.getLast? with
  | none =>
      cases hs : s.codeSegments.getLast? with
      | none => rfl
      | some back => simp [ht, hs] at hlast
  | some back =>
      cases hs : s.codeSegments.getLast? with
      | none => simp [ht, hs] at hlast
      | some back' =>
          have hend : back.endPtr = back'.endPtr := by
            simp only [ht, hs, Option.map_some, Option.some.injEq, codeRange, Prod.mk.injEq] at hlast
            exact hlast.2
          simp only [hend, hbegin, hbytes, hlength]

structure SameSegments (s t : Slab C) : Prop where
  segments : t.codeSegments = s.codeSegments
  current : t.currentSegment = s.currentSegment
  clock : t.segmentTouchClock = s.segmentTouchClock

omit [CodeCache C S] in
theorem SameSegments.touches (h : SameSegments s t) : Touches s t none :=
  .of_eq h.segments h.current h.clock

omit [CodeCache C S] in
theorem SameSegments.selectRecycleSegment (h : SameSegments s t) :
    t.selectRecycleSegment = s.selectRecycleSegment := by
  unfold Slab.selectRecycleSegment
  rw [h.segments, h.current]

omit [CodeCache C S] in
theorem recordTransition_eq (s : Slab C) (kind : GenerationTransitionKind) :
    ∃ haltReason pendingGeneration pendingRanges clearPending pendingTransition,
      (s.recordTransition kind).signalActiveExecutors = { s with
        haltReason, pendingGeneration, pendingRanges, clearPending, pendingTransition } := by
  unfold recordTransition
  split
  · exact ⟨_, _, _, _, _, rfl⟩
  · split
    · exact ⟨_, _, _, _, _, rfl⟩
    · exact ⟨_, _, _, _, _, rfl⟩

omit [CodeCache C S] in
/-- What an operation does before it comes to finish what is pending concerns the executors and
the requests only. -/
theorem beforeFinish_eq (hu : s.beforeFinish action = some u) :
    ∃ executors haltReason activeExecutions pendingGeneration pendingRanges clearPending
      pendingTransition, u = { s with
        executors, haltReason, activeExecutions, pendingGeneration, pendingRanges, clearPending,
        pendingTransition } := by
  cases action with
  | clearCache =>
      obtain ⟨_, _, _, _, _, heq⟩ := s.recordTransition_eq .clearAll
      exact ⟨_, _, _, _, _, _, _, (Option.some.inj hu).symm.trans heq⟩
  | recycleCache =>
      obtain ⟨_, _, _, _, _, heq⟩ := s.recordTransition_eq .recycleSegment
      exact ⟨_, _, _, _, _, _, _, (Option.some.inj hu).symm.trans heq⟩
  | invalidateCacheRange start length =>
      simp only [beforeFinish] at hu
      split at hu
      · cases hu
      · exact ⟨_, _, _, _, _, _, _, (Option.some.inj hu).symm⟩
  | leaveExecution state generation => exact ⟨_, _, _, _, _, _, _, (Option.some.inj hu).symm⟩
  | servicePendingInvalidation => exact ⟨_, _, _, _, _, _, _, (Option.some.inj hu).symm⟩
  | _ => cases hu

omit [CodeCache C S] in
theorem sameSegments_beforeFinish (hu : s.beforeFinish action = some u) : SameSegments s u := by
  obtain ⟨_, _, _, _, _, _, _, rfl⟩ := beforeFinish_eq hu
  exact ⟨rfl, rfl, rfl⟩

theorem invalidatePendingRanges_eq (s : Slab C) :
    ∃ cache, s.invalidatePendingRanges = { s with cache } := by
  unfold invalidatePendingRanges
  split
  · exact ⟨s.cache, rfl⟩
  · exact ⟨_, rfl⟩

theorem sameSegments_invalidatePendingRanges (s : Slab C) :
    SameSegments s s.invalidatePendingRanges := by
  obtain ⟨cache, heq⟩ := s.invalidatePendingRanges_eq
  rw [heq]
  exact ⟨rfl, rfl, rfl⟩

theorem get_invalidatePendingRanges {d : LocationDescriptor} (h : ¬s.RangePending d) :
    get s.invalidatePendingRanges.cache d = get s.cache d := by
  unfold invalidatePendingRanges
  split
  · rfl
  · exact get_invalidateCacheRanges_of_clear fun a ha hreg => h ⟨a, ha, hreg⟩

theorem touches_finishPendingInvalidation
    (hnone : ¬ (s.activeExecutions = 0 ∧ s.clearPending = true)) :
    Touches s s.finishPendingInvalidation none := by
  unfold finishPendingInvalidation
  split
  · exact .refl s
  · rename_i hactive
    have hpending : s.clearPending = false := by
      simp only [not_and, Bool.not_eq_true] at hnone
      exact hnone (not_not.mp hactive)
    rw [hpending, if_neg (by simp)]
    exact s.sameSegments_invalidatePendingRanges.touches.trans (.of_eq rfl rfl rfl)

theorem touches_finishPendingDirectLinkPublication (s : Slab C) :
    Touches s s.finishPendingDirectLinkPublication none := by
  unfold finishPendingDirectLinkPublication
  split
  · exact .refl s
  · exact .of_eq rfl rfl rfl

theorem refersTo_of_beforeFinish (hu : s.beforeFinish action = some u) :
    s.refersTo action = none := by
  cases action <;> first | rfl | cases hu

/-- An emission touches the segment it writes to, or that of the block found. -/
theorem touches_emit {block : Block S} {generation : ℕ} {executing : Bool}
    {result : Option BlockDescriptor} (hcurrent : s.currentSegment < s.codeSegments.length)
    (hemit : s.emit block generation executing = some (result, t)) :
    Touches s t ((result.map BlockDescriptor.entrypoint).bind s.codeSegmentIndex) := by
  have hcached (cache : C) : Touches s { s with cache } none := .of_eq rfl rfl rfl
  unfold emit at hemit
  split at hemit
  · obtain ⟨rfl, rfl⟩ := Prod.mk.inj (Option.some.inj hemit)
    exact .refl s
  · simp only at hemit
    split at hemit
    · rename_i p _
      obtain ⟨rfl, rfl⟩ := Prod.mk.inj (Option.some.inj hemit)
      rw [Option.map_some, Option.bind_some]
      exact (hcached _).trans (touches_touchCodeSegment _ p)
    · split at hemit
      · cases hemit
      · rename_i p cache hcache
        obtain ⟨rfl, rfl⟩ := Prod.mk.inj (Option.some.inj hemit)
        have hupdate := touches_updateActiveSegmentUsage { s with cache } hcurrent
        have htouch := touches_touchCodeSegment ({ s with cache }).updateActiveSegmentUsage p
        have hindex : ({ s with cache }).updateActiveSegmentUsage.codeSegmentIndex p =
            s.codeSegmentIndex p := by
          refine codeSegmentIndex_congr hupdate.ranges ?_ ?_ p
          · obtain ⟨segments, live, heq⟩ := updateActiveSegmentUsage_eq { s with cache }
            rw [heq]
          · obtain ⟨segments, live, heq⟩ := updateActiveSegmentUsage_eq { s with cache }
            rw [heq]
        rw [hindex] at htouch
        rw [Option.map_some, Option.bind_some]
        exact (hcached cache).trans (hupdate.trans htouch)

theorem touches_findBlock (s : Slab C) (location : LocationDescriptor) (generation : ℕ) :
    Touches s (s.findBlock location generation).2
      (((s.findBlock location generation).1.map BlockDescriptor.entrypoint).bind
        s.codeSegmentIndex) := by
  unfold findBlock
  split
  · exact .refl s
  · split
    · exact .refl s
    · exact s.touches_touchCodeSegment _

/-- An operation that carries out no transition touches the segment of the code it refers to. -/
theorem step_touches (hcurrent : s.currentSegment < s.codeSegments.length)
    (hstep : s.step action = some t) (hcarries : s.carriesOut action = none) :
    Touches s t ((s.refersTo action).bind s.codeSegmentIndex) := by
  cases hu : s.beforeFinish action with
  | some u =>
      have hnone : ¬ (u.activeExecutions = 0 ∧ u.clearPending = true) := by
        simpa [carriesOut, hu] using hcarries
      have hfinish := (sameSegments_beforeFinish hu).touches.trans (touches_finishPendingInvalidation hnone)
      rw [refersTo_of_beforeFinish hu]
      rcases (step_of_beforeFinish hstep hu).2 with rfl | rfl
      · exact hfinish
      · exact hfinish.trans (touches_finishPendingDirectLinkPublication _)
  | none =>
      cases action with
      | findBlock location generation =>
          obtain rfl := Option.some.inj hstep
          exact s.touches_findBlock location generation
      | emit caller block generation =>
          simp only [step, Option.map_eq_some_iff] at hstep
          obtain ⟨⟨result, t'⟩, hemit, rfl⟩ := hstep
          simp only [refersTo, hemit, Option.bind_some]
          exact touches_emit hcurrent hemit
      | runCode codePtr =>
          obtain rfl := Option.some.inj hstep
          exact s.touches_touchCodeSegment codePtr
      | registerExecutor state =>
          obtain ⟨executors, rfl⟩ := registerExecutor_eq hstep
          exact .of_eq rfl rfl rfl
      | unregisterExecutor state =>
          obtain ⟨executors, rfl⟩ := unregisterExecutor_eq hstep
          exact .of_eq rfl rfl rfl
      | enterExecution state =>
          obtain ⟨⟨generation, t'⟩, henter, rfl⟩ := Option.map_eq_some_iff.mp hstep
          obtain ⟨-, executors, active, rfl⟩ := enterExecution_eq henter
          exact s.touches_finishPendingDirectLinkPublication.trans (.of_eq rfl rfl rfl)
      | requestCacheClear =>
          obtain ⟨_, _, _, _, _, heq⟩ := s.recordTransition_eq .clearAll
          have hrecorded := (Option.some.inj hstep).symm.trans heq
          exact hrecorded ▸ .of_eq rfl rfl rfl
      | requestCacheRange start length =>
          obtain rfl := Option.some.inj hstep
          simp only [requestCacheRange, requestRangeTransition]
          split
          · exact .refl s
          · exact .of_eq rfl rfl rfl
      | invalidateCacheRange start length =>
          obtain rfl := Option.some.inj hstep
          simp only [beforeFinish] at hu
          split at hu
          · rename_i hskip
            rw [invalidateCacheRange, requestRangeTransition, if_pos hskip]
            exact .refl s
          · cases hu
      | leaveExecution state generation => cases hu
      | clearCache => cases hu
      | recycleCache => cases hu
      | servicePendingInvalidation => cases hu

/-! ### What a transition does to the segments -/

structure Rotated (s t : Slab C) : Prop extends Stamped s t (some s.selectRecycleSegment) where
  ranges : t.codeSegments.map codeRange = s.codeSegments.map codeRange
  current : t.currentSegment = s.selectRecycleSegment
  initialized : ∀ i, (t.segmentAt i).initialized = true ↔
    i = s.selectRecycleSegment ∨ (s.segmentAt i).initialized = true

theorem rotated_recycleCodeSegment (hpos : 0 < s.codeSegments.length) :
    Rotated s s.recycleCodeSegment.2 := by
  have hlt := s.selectRecycleSegment_lt hpos
  have hat (i : ℕ) := @segmentAt_modify s.codeSegments (fun segment => { segment with
    initialized := true, lastTouch := s.segmentTouchClock + 1, usedBytes := 0 })
      s.selectRecycleSegment i hlt
  unfold recycleCodeSegment
  refine ⟨⟨Nat.le_succ _, fun i hi => ?_, fun i hi => ?_⟩,
    map_modify_of_eq codeRange _ _ fun _ => rfl, rfl, fun i => ?_⟩
  · rw [segmentAt, hat, if_neg fun heq => hi (by rw [heq])]
    rfl
  · obtain rfl := Option.some.inj hi
    rw [segmentAt, hat, if_pos rfl]
    exact ⟨Nat.lt_succ_self _, le_rfl⟩
  · rw [segmentAt, hat]
    split
    · rename_i heq
      simp [heq]
    · rename_i hne
      rw [or_iff_right (Ne.symm hne)]
      rfl

omit [CodeCache C S] in
theorem Rotated.congr {s' t' : Slab C} (h : Rotated s t) (hs : SameSegments s' s)
    (ht : SameSegments t t') : Rotated s' t' := by
  have hselect : s'.selectRecycleSegment = s.selectRecycleSegment := hs.selectRecycleSegment.symm
  have hbefore (i : ℕ) : s'.segmentAt i = s.segmentAt i := by
    rw [segmentAt, segmentAt, hs.segments]
  have hafter (i : ℕ) : t'.segmentAt i = t.segmentAt i := by
    rw [segmentAt, segmentAt, ht.segments]
  refine ⟨⟨?_, fun i hi => ?_, fun i hi => ?_⟩, ?_, ?_, fun i => ?_⟩
  · rw [ht.clock, ← hs.clock]
    exact h.clock
  · rw [hafter, hbefore]
    exact h.untouched i (hselect ▸ hi)
  · rw [hafter, ht.clock, ← hs.clock]
    exact h.touched i (hselect ▸ hi)
  · rw [ht.segments, h.ranges, hs.segments]
  · rw [ht.current, h.current, hselect]
  · rw [hafter, hbefore, hselect]
    exact h.initialized i

/-- An operation that carries out a transition comes to finish with nobody inside. -/
theorem step_of_carriesOut {kind : GenerationTransitionKind} (hstep : s.step action = some t)
    (hcarries : s.carriesOut action = some kind) :
    ∃ u, s.beforeFinish action = some u ∧ u.activeExecutions = 0 ∧ u.clearPending = true ∧
      u.pendingTransition = kind ∧
      (t = u.finishPendingInvalidation ∨ t = u.servicePendingInvalidation) := by
  cases hu : s.beforeFinish action with
  | none => simp [carriesOut, hu] at hcarries
  | some u =>
      simp only [carriesOut, hu, Option.ite_none_right_eq_some, Option.some.injEq] at hcarries
      obtain ⟨⟨hactive, hpending⟩, hkind⟩ := hcarries
      exact ⟨u, rfl, hactive, hpending, hkind, (step_of_beforeFinish hstep hu).2⟩

theorem sameSegments_finishPendingDirectLinkPublication (s : Slab C) :
    SameSegments s s.finishPendingDirectLinkPublication := by
  unfold finishPendingDirectLinkPublication
  split
  · exact ⟨rfl, rfl, rfl⟩
  · exact ⟨rfl, rfl, rfl⟩

theorem sameSegments_finishRecycle (s : Slab C) :
    SameSegments s.invalidatePendingRanges.recycleCodeSegment.2 s.finishRecycle := by
  unfold finishRecycle
  simp only
  split
  · exact ⟨rfl, rfl, rfl⟩
  · exact ⟨rfl, rfl, rfl⟩

omit [CodeCache C S] in
theorem SameSegments.trans (hst : SameSegments s t) (htu : SameSegments t u) : SameSegments s u :=
  ⟨htu.segments.trans hst.segments, htu.current.trans hst.current, htu.clock.trans hst.clock⟩

theorem step_rotated (hpos : 0 < s.codeSegments.length) (hstep : s.step action = some t)
    (hcarries : s.carriesOut action = some .recycleSegment) : Rotated s t := by
  obtain ⟨u, hu, hactive, hpending, hkind, ht⟩ := step_of_carriesOut hstep hcarries
  have hsame := sameSegments_beforeFinish hu
  have hbefore := hsame.trans u.sameSegments_invalidatePendingRanges
  have hrotated := rotated_recycleCodeSegment (s := u.invalidatePendingRanges)
    (by rw [hbefore.segments]; exact hpos)
  have hfinish : SameSegments u.invalidatePendingRanges.recycleCodeSegment.2
      u.finishPendingInvalidation := by
    rw [finishPendingInvalidation_of_recycle hactive hpending hkind]
    exact u.sameSegments_finishRecycle.trans ⟨rfl, rfl, rfl⟩
  rcases ht with rfl | rfl
  · exact hrotated.congr hbefore hfinish
  · exact hrotated.congr hbefore
      (hfinish.trans (sameSegments_finishPendingDirectLinkPublication _))

structure Restarted (s t : Slab C) : Prop where
  ranges : t.codeSegments.map codeRange = s.codeSegments.map codeRange
  current : t.currentSegment = 0
  initialized : ∀ i, (t.segmentAt i).initialized = true ↔ i = 0
  stamp_le : ∀ i, (t.segmentAt i).lastTouch ≤ t.segmentTouchClock

theorem restarted_resetCodeSegments (hpos : 0 < s.codeSegments.length) :
    Restarted s s.resetCodeSegments := by
  obtain ⟨front, rest, hsegments⟩ : ∃ front rest, s.codeSegments = front :: rest :=
    List.exists_cons_of_length_pos hpos
  have hreset : s.resetCodeSegments.codeSegments =
      { front with lastTouch := 1, usedBytes := 0, initialized := true } ::
        rest.map fun segment =>
          { segment with lastTouch := 0, usedBytes := 0, initialized := false } := by
    simp only [resetCodeSegments, hsegments, List.map_cons]
  have hclock : s.resetCodeSegments.segmentTouchClock = 1 := by
    simp only [resetCodeSegments, hsegments, List.map_cons]
  have hcurrent : s.resetCodeSegments.currentSegment = 0 := by
    simp only [resetCodeSegments, hsegments, List.map_cons]
  have hrest (i : ℕ) : (rest.map fun segment : CodeSegment =>
      { segment with lastTouch := 0, usedBytes := 0, initialized := false }).getD i default =
        { rest.getD i default with lastTouch := 0, usedBytes := 0, initialized := false } :=
    List.getD_map rest default _
  refine ⟨?_, hcurrent, fun i => ?_, fun i => ?_⟩
  · rw [hreset, hsegments, List.map_cons, List.map_cons, List.map_map]
    rfl
  · rw [segmentAt, hreset]
    cases i with
    | zero => simp
    | succ i => simp only [List.getD_cons_succ, hrest, Nat.add_eq_zero_iff, one_ne_zero, and_false,
        Bool.false_eq_true]
  · rw [segmentAt, hreset, hclock]
    cases i with
    | zero => exact le_rfl
    | succ i =>
        rw [List.getD_cons_succ, hrest]
        exact Nat.zero_le 1

theorem step_restarted (hpos : 0 < s.codeSegments.length) (hstep : s.step action = some t)
    (hcarries : s.carriesOut action = some .clearAll) : Restarted s t := by
  obtain ⟨u, hu, hactive, hpending, hkind, ht⟩ := step_of_carriesOut hstep hcarries
  have hsame := sameSegments_beforeFinish hu
  have hrestarted := restarted_resetCodeSegments (s := { u with cache := CodeCache.clearCache u.cache })
    (by rw [hsame.segments]; exact hpos)
  have hfinish : SameSegments { u with cache := CodeCache.clearCache u.cache }.resetCodeSegments
      u.finishPendingInvalidation := by
    rw [finishPendingInvalidation_of_clearAll hactive ⟨hpending, hkind⟩]
    exact ⟨rfl, rfl, rfl⟩
  have hthen : SameSegments { u with cache := CodeCache.clearCache u.cache }.resetCodeSegments t := by
    rcases ht with rfl | rfl
    · exact hfinish
    · exact hfinish.trans (sameSegments_finishPendingDirectLinkPublication _)
  refine ⟨?_, hthen.current.trans hrestarted.current, fun i => ?_, fun i => ?_⟩
  · rw [hthen.segments, hrestarted.ranges, hsame.segments]
  · rw [segmentAt, hthen.segments]
    exact hrestarted.initialized i
  · rw [segmentAt, hthen.segments, hthen.clock]
    exact hrestarted.stamp_le i

def segmentOf (s : Slab C) (p : CodePtr) : Option ℕ :=
  s.codeSegments.findIdx? fun segment => (codeRange segment).Contains p

end Slab

/-! ### The record of a run -/

/-- A slab and what has happened to its segments since it was created or cleared: how many
recycles, and for every segment the number of the operation that touched it last. -/
structure Rotation (C : Type) where
  slab : Slab C
  recycles : ℕ
  operations : ℕ
  touchedAt : ℕ → ℕ

namespace Rotation

variable {C S : Type} [CodeCache C S]

def start (s : Slab C) : Rotation C := ⟨s, 0, 0, fun _ => 0⟩

def record (r : Rotation C) (action : SlabAction S) (t : Slab C) : Rotation C :=
  let now := r.operations + 1
  match r.slab.carriesOut action with
  | some .clearAll => ⟨t, 0, now, fun _ => 0⟩
  | some .recycleSegment =>
      ⟨t, r.recycles + 1, now, Function.update r.touchedAt t.currentSegment now⟩
  | none =>
      match (r.slab.refersTo action).bind r.slab.segmentOf with
      | some i => ⟨t, r.recycles, now, Function.update r.touchedAt i now⟩
      | none => ⟨t, r.recycles, now, r.touchedAt⟩

def step (r : Rotation C) (action : SlabAction S) : Option (Rotation C) :=
  (r.slab.step action).map (r.record action)

@[simp]
theorem record_slab (r : Rotation C) (action : SlabAction S) (t : Slab C) :
    (r.record action t).slab = t := by
  unfold record
  simp only
  split
  · rfl
  · rfl
  · split
    · rfl
    · rfl

/-- The stamps of the slab agree with the record. -/
structure InStep (r : Rotation C) : Prop where
  current : r.slab.currentSegment ∈ r.slab.usedSegments
  card : r.slab.usedSegments.card = min (r.recycles + 1) r.slab.codeSegments.length
  stamp_le : ∀ i, (r.slab.segmentAt i).lastTouch ≤ r.slab.segmentTouchClock
  touchedAt_le : ∀ i, r.touchedAt i ≤ r.operations
  order : ∀ i j, r.touchedAt i < r.touchedAt j →
    (r.slab.segmentAt i).lastTouch < (r.slab.segmentAt j).lastTouch

namespace InStep

variable {r : Rotation C} {t : Slab C} {action : SlabAction S}

theorem current_lt (h : r.InStep) : r.slab.currentSegment < r.slab.codeSegments.length :=
  (Slab.mem_usedSegments.mp h.current).1

omit [CodeCache C S] in
/-- A new stamp is above all others, as is the number of the operation. -/
theorem order_of_stamped (h : r.InStep) {touched : Option ℕ} (ht : r.slab.Stamped t touched)
    (touchedAt : ℕ → ℕ) (huntouched : ∀ i, touched ≠ some i → touchedAt i = r.touchedAt i)
    (htouched : ∀ i, touched = some i → touchedAt i = r.operations + 1) :
    (∀ i, (t.segmentAt i).lastTouch ≤ t.segmentTouchClock) ∧
      (∀ i, touchedAt i ≤ r.operations + 1) ∧
      ∀ i j, touchedAt i < touchedAt j →
        (t.segmentAt i).lastTouch < (t.segmentAt j).lastTouch := by
  refine ⟨fun i => ?_, fun i => ?_, fun i j hij => ?_⟩
  · by_cases hi : touched = some i
    · exact (ht.touched i hi).2
    · rw [ht.untouched i hi]
      exact (h.stamp_le i).trans ht.clock
  · by_cases hi : touched = some i
    · exact (htouched i hi).le
    · rw [huntouched i hi]
      exact Nat.le_succ_of_le (h.touchedAt_le i)
  · by_cases hj : touched = some j
    · by_cases hi : touched = some i
      · rw [htouched i hi, htouched j hj] at hij
        exact absurd hij (lt_irrefl _)
      · rw [ht.untouched i hi]
        exact (h.stamp_le i).trans_lt (ht.touched j hj).1
    · rw [huntouched j hj] at hij
      have hi : touched ≠ some i := by
        intro hi
        rw [htouched i hi] at hij
        exact absurd (h.touchedAt_le j) (by omega)
      rw [huntouched i hi] at hij
      rw [ht.untouched i hi, ht.untouched j hj]
      exact h.order i j hij

omit [CodeCache C S] in
theorem length_eq_of_ranges {s : Slab C}
    (hranges : t.codeSegments.map codeRange = s.codeSegments.map codeRange) :
    t.codeSegments.length = s.codeSegments.length := by
  simpa using congrArg List.length hranges

theorem touch (h : r.InStep) {touched : Option ℕ} (ht : r.slab.Touches t touched)
    {touchedAt : ℕ → ℕ} (huntouched : ∀ i, touched ≠ some i → touchedAt i = r.touchedAt i)
    (htouched : ∀ i, touched = some i → touchedAt i = r.operations + 1) :
    InStep ⟨t, r.recycles, r.operations + 1, touchedAt⟩ := by
  obtain ⟨hle, hle', horder⟩ := h.order_of_stamped ht.toStamped touchedAt huntouched htouched
  have hlength := length_eq_of_ranges ht.ranges
  have hused : t.usedSegments = r.slab.usedSegments := by
    ext i
    rw [Slab.mem_usedSegments, Slab.mem_usedSegments, hlength, ht.initialized i]
  refine ⟨?_, ?_, hle, hle', horder⟩
  · rw [hused, ht.current]
    exact h.current
  · rw [hused, hlength]
    exact h.card

/-- All segments have been used as soon as there were enough recycles. -/
theorem all_used (h : r.InStep) (hrecycles : r.slab.codeSegments.length ≤ r.recycles + 1) {i : ℕ}
    (hi : i < r.slab.codeSegments.length) : (r.slab.segmentAt i).initialized = true := by
  have hcard := h.card
  rw [min_eq_right hrecycles] at hcard
  have hall : r.slab.usedSegments = Finset.range r.slab.codeSegments.length :=
    Finset.eq_of_subset_of_card_le (Finset.filter_subset _ _) (by simp [hcard])
  exact (Slab.mem_usedSegments.mp (hall ▸ Finset.mem_range.mpr hi)).2

/-- Until then some segment has not been used, and the next recycle takes such a one. -/
theorem select_unused (h : r.InStep) (hrecycles : r.recycles + 1 < r.slab.codeSegments.length) :
    (r.slab.segmentAt r.slab.selectRecycleSegment).initialized = false := by
  have hcard := h.card
  rw [min_eq_left hrecycles.le] at hcard
  obtain ⟨i, hi, hunused⟩ : ∃ i ∈ Finset.range r.slab.codeSegments.length,
      i ∉ r.slab.usedSegments := by
    by_contra hall
    push Not at hall
    have := Finset.card_le_card (s := Finset.range r.slab.codeSegments.length)
      (t := r.slab.usedSegments) hall
    simp [hcard] at this
    omega
  rw [Finset.mem_range] at hi
  refine Slab.selectRecycleSegment_of_unused (by omega) h.current_lt hi ?_
  rw [Slab.mem_usedSegments, not_and, Bool.not_eq_true] at hunused
  exact hunused hi

/-- The selected segment joins the used ones, with the newest stamp. -/
theorem rotate (h : r.InStep) (ht : r.slab.Rotated t) :
    InStep ⟨t, r.recycles + 1, r.operations + 1,
      Function.update r.touchedAt t.currentSegment (r.operations + 1)⟩ := by
  have hlt := r.slab.selectRecycleSegment_lt (Nat.zero_lt_of_lt h.current_lt)
  obtain ⟨hle, hle', horder⟩ := h.order_of_stamped ht.toStamped
    (Function.update r.touchedAt t.currentSegment (r.operations + 1))
    (fun i hi => Function.update_of_ne (by rw [ht.current]; exact fun heq => hi (by rw [heq])) _ _)
    (fun i hi => by rw [ht.current, Option.some.inj hi, Function.update_self])
  have hlength := length_eq_of_ranges ht.ranges
  have hused : t.usedSegments = insert r.slab.selectRecycleSegment r.slab.usedSegments := by
    ext i
    rw [Finset.mem_insert, Slab.mem_usedSegments, Slab.mem_usedSegments, hlength, ht.initialized i]
    constructor
    · rintro ⟨hi, rfl | hinit⟩
      · exact .inl rfl
      · exact .inr ⟨hi, hinit⟩
    · rintro (rfl | ⟨hi, hinit⟩)
      · exact ⟨hlt, .inl rfl⟩
      · exact ⟨hi, .inr hinit⟩
  refine ⟨?_, ?_, hle, hle', horder⟩
  · change t.currentSegment ∈ t.usedSegments
    rw [hused, ht.current]
    exact Finset.mem_insert_self _ _
  · change t.usedSegments.card = min (r.recycles + 1 + 1) t.codeSegments.length
    rw [hused, hlength]
    have hcard := h.card
    by_cases hrecycles : r.recycles + 1 < r.slab.codeSegments.length
    · rw [Finset.card_insert_of_notMem, hcard]
      · omega
      · rw [Slab.mem_usedSegments, h.select_unused hrecycles]
        simp
    · have hmem : r.slab.selectRecycleSegment ∈ r.slab.usedSegments :=
        Slab.mem_usedSegments.mpr ⟨hlt, h.all_used (not_lt.mp hrecycles) hlt⟩
      rw [Finset.insert_eq_of_mem hmem, hcard]
      omega

theorem restart {s : Slab C} (hpos : 0 < s.codeSegments.length) (ht : s.Restarted t)
    (operations : ℕ) : InStep ⟨t, 0, operations, fun _ => 0⟩ := by
  have hlength := length_eq_of_ranges ht.ranges
  have hused : t.usedSegments = {0} := by
    ext i
    rw [Finset.mem_singleton, Slab.mem_usedSegments, ht.initialized i]
    exact ⟨fun hi => hi.2, fun hi => ⟨by omega, hi⟩⟩
  refine ⟨?_, ?_, ht.stamp_le, fun _ => Nat.zero_le _, fun i j hij => ?_⟩
  · change t.currentSegment ∈ t.usedSegments
    rw [hused, ht.current, Finset.mem_singleton]
  · change t.usedSegments.card = min 1 t.codeSegments.length
    rw [hused, Finset.card_singleton]
    omega
  · exact absurd hij (lt_irrefl _)

/-- Every operation keeps the stamps in step with the record, where segments are found by division
as they are by their addresses. -/
theorem step (h : r.InStep) (hindex : ∀ p, r.slab.codeSegmentIndex p = r.slab.segmentOf p)
    (hstep : r.slab.step action = some t) : (r.record action t).InStep := by
  have hpos : 0 < r.slab.codeSegments.length := Nat.zero_lt_of_lt h.current_lt
  unfold record
  cases hcarries : r.slab.carriesOut action with
  | none =>
      have ht := Slab.step_touches h.current_lt hstep hcarries
      rw [funext hindex] at ht
      simp only
      split
      · rename_i i hi
        rw [hi] at ht
        refine h.touch ht (fun j hj => ?_) fun j hj => ?_
        · exact Function.update_of_ne (fun heq => hj (by rw [heq])) _ _
        · rw [← Option.some.inj hj, Function.update_self]
      · rename_i hnone
        rw [hnone] at ht
        exact h.touch ht (fun _ _ => rfl) nofun
  | some kind =>
      cases kind with
      | clearAll => exact restart hpos (Slab.step_restarted hpos hstep hcarries) _
      | recycleSegment => exact h.rotate (Slab.step_rotated hpos hstep hcarries)

theorem least_recent (h : r.InStep) (hcount : 1 < r.slab.codeSegments.length)
    (hrecycles : r.slab.codeSegments.length ≤ r.recycles + 1) :
    r.slab.selectRecycleSegment ≠ r.slab.currentSegment ∧
      ∀ i < r.slab.codeSegments.length, i ≠ r.slab.currentSegment →
        r.touchedAt r.slab.selectRecycleSegment ≤ r.touchedAt i := by
  obtain ⟨hne, hleast⟩ := Slab.selectRecycleSegment_of_used hcount fun i => h.all_used hrecycles
  refine ⟨hne, fun i hi hcurrent => ?_⟩
  by_contra hlater
  exact absurd (h.order _ _ (not_le.mp hlater)) (not_lt.mpr (hleast i hi hcurrent))

end InStep

end Rotation

end Umbra.Backend
