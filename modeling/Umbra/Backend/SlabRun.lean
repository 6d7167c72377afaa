import Umbra.Backend.SlabSpec
import Umbra.Lib.Run

/-!
Executors and generations of the slab.

A run of the slab is any sequence of its operations, each atomic under the slab
mutex.  An executor that has entered execution holds the slab at its generation:
what would move it on waits for the count of active executors to become zero, and
the count is exact.
-/

namespace Umbra.Backend

open Umbra.Lib Umbra.IR CodeCache

/-- The operations of the slab.  The caller of an emission is the executor of the
`Jit` that translated the block. -/
inductive SlabAction (S : Type)
  | registerExecutor (state : ℕ)
  | unregisterExecutor (state : ℕ)
  | enterExecution (state : ℕ)
  | leaveExecution (state generation : ℕ)
  | findBlock (location : LocationDescriptor) (generation : ℕ)
  | emit (caller : ℕ) (block : Block S) (generation : ℕ)
  /-- What `run_code` and `step_code` do before they jump. -/
  | runCode (codePtr : CodePtr)
  | clearCache
  | recycleCache
  | requestCacheClear
  | invalidateCacheRange (startAddress length : ℕ)
  | requestCacheRange (startAddress length : ℕ)
  | servicePendingInvalidation

def SlabAction.isHostOperation {S : Type} : SlabAction S → Bool
  | .registerExecutor _ | .unregisterExecutor _ | .enterExecution _ | .leaveExecution _ _ => false
  | _ => true

namespace Slab

variable {C S : Type} [CodeCache C S]

/-- The executor is inside emitted code.  A `Jit` keeps this in `is_executing`, which
it sets behind `enter_execution` and resets before `leave_execution`. -/
def isActive (s : Slab C) (state : ℕ) : Bool :=
  s.executors.any fun e => e.state == state && e.active

/-- One operation; `none` where it throws, waits or fails an assertion. -/
def step (s : Slab C) : SlabAction S → Option (Slab C)
  | .registerExecutor state => some (s.registerExecutor state)
  | .unregisterExecutor state => s.unregisterExecutor state
  | .enterExecution state => (s.enterExecution state).map Prod.snd
  | .leaveExecution state generation => s.leaveExecution state generation
  | .findBlock location generation => some (s.findBlock location generation).2
  | .emit caller block generation =>
      (s.emit block generation (s.isActive caller)).map Prod.snd
  | .runCode codePtr => some (s.touchCodeSegment codePtr)
  | .clearCache => some s.clearCache
  | .recycleCache => some s.recycleCache
  | .requestCacheClear => some s.requestCacheClear
  | .invalidateCacheRange startAddress length =>
      some (s.invalidateCacheRange startAddress length)
  | .requestCacheRange startAddress length => some (s.requestCacheRange startAddress length)
  | .servicePendingInvalidation => some s.servicePendingInvalidation

def PendingAhead (s : Slab C) : Prop :=
  s.clearPending = true → s.currentGeneration < s.pendingGeneration

/-! ### Operations that leave the executors alone -/

/-- `t` has the executors of `s`, and another generation only if none was active. -/
structure Keeps (s t : Slab C) : Prop where
  executors : t.executors = s.executors
  activeExecutions : t.activeExecutions = s.activeExecutions
  sharedMode : t.sharedMode = s.sharedMode
  ahead : t.PendingAhead
  generation : t.currentGeneration = s.currentGeneration ∨
    s.activeExecutions = 0 ∧ s.currentGeneration < t.currentGeneration

variable {s t : Slab C}

theorem Keeps.of_eq (h : s.PendingAhead) (hexecutors : t.executors = s.executors)
    (hactive : t.activeExecutions = s.activeExecutions) (hshared : t.sharedMode = s.sharedMode)
    (hcurrent : t.currentGeneration = s.currentGeneration)
    (hpending : t.pendingGeneration = s.pendingGeneration)
    (hclear : t.clearPending = s.clearPending) : Keeps s t :=
  ⟨hexecutors, hactive, hshared, by rwa [PendingAhead, hcurrent, hpending, hclear], .inl hcurrent⟩

theorem Keeps.refl (h : s.PendingAhead) : Keeps s s :=
  .of_eq h rfl rfl rfl rfl rfl rfl

theorem Keeps.trans {u : Slab C} (hst : Keeps s t) (htu : Keeps t u) : Keeps s u where
  executors := htu.executors.trans hst.executors
  activeExecutions := htu.activeExecutions.trans hst.activeExecutions
  sharedMode := htu.sharedMode.trans hst.sharedMode
  ahead := htu.ahead
  generation := by
    have hactive := hst.activeExecutions
    rcases hst.generation with h | h <;> rcases htu.generation with h' | h' <;> omega

theorem Keeps.le (h : Keeps s t) : s.currentGeneration ≤ t.currentGeneration := by
  rcases h.generation with h | h <;> omega

theorem keeps_touchCodeSegment (h : s.PendingAhead) (p : CodePtr) :
    Keeps s (s.touchCodeSegment p) := by
  obtain ⟨segments, clock, heq⟩ := s.touchCodeSegment_eq p
  rw [heq]
  exact .of_eq h rfl rfl rfl rfl rfl rfl

theorem resetCodeSegments_eq (s : Slab C) : ∃ cache segments current clock bytes,
    s.resetCodeSegments = { s with
      cache, codeSegments := segments, currentSegment := current, segmentTouchClock := clock,
      liveAllocatedCodeBytes := bytes } := by
  unfold resetCodeSegments
  simp only
  split
  · exact ⟨_, _, _, _, _, rfl⟩
  · exact ⟨_, _, _, _, _, rfl⟩

theorem keeps_finishPendingInvalidation (h : s.PendingAhead) :
    Keeps s s.finishPendingInvalidation := by
  unfold finishPendingInvalidation
  split_ifs with hactive hclear
  · exact .refl h
  · have hidle : s.activeExecutions = 0 := not_not.mp hactive
    have hlt := h hclear
    cases s.pendingTransition with
    | clearAll =>
        obtain ⟨cache, segments, current, clock, bytes, heq⟩ :=
          resetCodeSegments_eq { s with cache := CodeCache.clearCache s.cache }
        simp only [finishClearAll, publishGeneration, heq]
        exact ⟨rfl, rfl, rfl, fun hpending => absurd hpending Bool.false_ne_true,
          .inr ⟨hidle, hlt⟩⟩
    | recycleSegment =>
        simp only [finishRecycle, invalidatePendingRanges, publishGeneration, recycleCodeSegment]
        split_ifs
        all_goals
          refine ⟨rfl, rfl, rfl, fun hpending => absurd hpending Bool.false_ne_true, ?_⟩
          first
          | exact .inl rfl
          | exact .inr ⟨hidle, hlt⟩
  · unfold invalidatePendingRanges
    split
    · exact .of_eq h rfl rfl rfl rfl rfl rfl
    · exact .of_eq h rfl rfl rfl rfl rfl rfl

theorem keeps_finishPendingDirectLinkPublication (h : s.PendingAhead) :
    Keeps s s.finishPendingDirectLinkPublication := by
  unfold finishPendingDirectLinkPublication
  split
  · exact .refl h
  · exact .of_eq h rfl rfl rfl rfl rfl rfl

theorem keeps_servicePendingInvalidation (h : s.PendingAhead) :
    Keeps s s.servicePendingInvalidation :=
  have hfinish := keeps_finishPendingInvalidation h
  hfinish.trans (keeps_finishPendingDirectLinkPublication hfinish.ahead)

theorem keeps_recordTransition (h : s.PendingAhead) (kind : GenerationTransitionKind) :
    Keeps s (s.recordTransition kind).signalActiveExecutors := by
  unfold recordTransition
  split
  · exact ⟨rfl, rfl, rfl, fun _ => Nat.lt_succ_self _, .inl rfl⟩
  · split
    · exact .of_eq h rfl rfl rfl rfl rfl rfl
    · exact .of_eq h rfl rfl rfl rfl rfl rfl

theorem keeps_requestGenerationTransition (h : s.PendingAhead) (kind : GenerationTransitionKind)
    (finish : Bool) :
    Keeps s (s.requestGenerationTransition kind finish) := by
  have hrecord := keeps_recordTransition h kind
  unfold requestGenerationTransition
  split_ifs
  · exact hrecord.trans (keeps_finishPendingInvalidation hrecord.ahead)
  · exact hrecord

theorem keeps_requestRangeTransition (h : s.PendingAhead) (start length : ℕ) (finish : Bool) :
    Keeps s (s.requestRangeTransition start length finish) := by
  unfold requestRangeTransition
  split
  · exact .refl h
  · have hrecord : Keeps s (signalActiveExecutors { s with
        pendingRanges := (Interval.closed start (inclusiveRangeEnd start length)).toList.foldl
          IntervalSet.add s.pendingRanges }) := .of_eq h rfl rfl rfl rfl rfl rfl
    simp only
    split_ifs
    · exact hrecord.trans (keeps_finishPendingInvalidation hrecord.ahead)
    · exact hrecord

theorem keeps_findBlock (h : s.PendingAhead) (location : LocationDescriptor) (generation : ℕ) :
    Keeps s (s.findBlock location generation).2 := by
  unfold findBlock
  split
  · exact .refl h
  · split
    · exact .refl h
    · exact keeps_touchCodeSegment h _

theorem keeps_emit (h : s.PendingAhead) {block : Block S} {generation : ℕ} {executing : Bool}
    {result : Option BlockDescriptor} (hemit : s.emit block generation executing = some (result, t)) :
    Keeps s t := by
  rcases emit_cases hemit with ⟨-, rfl⟩ | ⟨-, -, ⟨p, b, segments, clock, -, -, -, -, rfl⟩ |
    ⟨p, cache, segments, bytes, clock, -, -, -, rfl⟩⟩
  · exact .refl h
  · exact .of_eq h rfl rfl rfl rfl rfl rfl
  · exact .of_eq h rfl rfl rfl rfl rfl rfl

/-- No host operation moves the generation under an active executor. -/
theorem keeps_step (h : s.PendingAhead) {action : SlabAction S}
    (hhost : action.isHostOperation = true) (hstep : s.step action = some t) : Keeps s t := by
  have hkeeps : ∀ {u : Slab C}, Keeps s u → s.step action = some u → Keeps s t := by
    intro u hu hstep'
    rwa [Option.some.inj (hstep.symm.trans hstep')]
  cases action with
  | registerExecutor state => cases hhost
  | unregisterExecutor state => cases hhost
  | enterExecution state => cases hhost
  | leaveExecution state generation => cases hhost
  | findBlock location generation => exact hkeeps (keeps_findBlock h _ _) rfl
  | emit caller block generation =>
      simp only [step, Option.map_eq_some_iff] at hstep
      obtain ⟨⟨result, t'⟩, hemit, rfl⟩ := hstep
      exact keeps_emit h hemit
  | runCode codePtr => exact hkeeps (keeps_touchCodeSegment h _) rfl
  | clearCache => exact hkeeps (keeps_requestGenerationTransition h _ _) rfl
  | recycleCache => exact hkeeps (keeps_requestGenerationTransition h _ _) rfl
  | requestCacheClear => exact hkeeps (keeps_requestGenerationTransition h _ _) rfl
  | invalidateCacheRange start length => exact hkeeps (keeps_requestRangeTransition h _ _ _) rfl
  | requestCacheRange start length => exact hkeeps (keeps_requestRangeTransition h _ _ _) rfl
  | servicePendingInvalidation => exact hkeeps (keeps_servicePendingInvalidation h) rfl

/-! ### The executors -/

/-- The count of active executors is exact, and they are all at the current
generation. -/
structure Coherent (s : Slab C) : Prop where
  nodup : (s.executors.map (·.state)).Nodup
  count : s.activeExecutions = s.executors.countP (·.active)
  generation : ∀ e ∈ s.executors, e.active = true → e.generation = s.currentGeneration
  ahead : s.PendingAhead

namespace Coherent

variable {s t : Slab C}

theorem keeps (h : s.Coherent) (hkeeps : Keeps s t) : t.Coherent where
  nodup := hkeeps.executors ▸ h.nodup
  count := by rw [hkeeps.activeExecutions, hkeeps.executors, h.count]
  ahead := hkeeps.ahead
  generation := by
    rw [hkeeps.executors]
    intro e he hactive
    rcases hkeeps.generation with hsame | ⟨hidle, -⟩
    · rw [hsame]
      exact h.generation e he hactive
    · rw [h.count, List.countP_eq_zero] at hidle
      exact absurd hactive (hidle e he)

theorem eq_of_state_eq (h : s.Coherent) {e e' : Executor} (he : e ∈ s.executors)
    (he' : e' ∈ s.executors) (hstate : e.state = e'.state) : e = e' :=
  List.inj_on_of_nodup_map h.nodup he he' hstate

variable {state generation : ℕ}

theorem isActive_iff :
    s.isActive state = true ↔ ∃ e ∈ s.executors, e.state = state ∧ e.active = true := by
  simp [isActive]

theorem registerExecutor (h : s.Coherent) (state : ℕ) : (s.registerExecutor state).Coherent := by
  unfold Slab.registerExecutor
  split_ifs with hknown
  · exact h
  · simp only [List.any_eq_true, beq_iff_eq, not_exists, not_and] at hknown
    refine ⟨?_, ?_, ?_, h.ahead⟩
    · rw [List.map_append, List.nodup_append]
      refine ⟨h.nodup, by simp, ?_⟩
      rintro a ha b hb rfl
      obtain ⟨e, he, rfl⟩ := List.mem_map.mp ha
      exact hknown e he (by simpa using hb)
    · rw [List.countP_append, h.count]
      rfl
    · intro e he hactive
      rcases List.mem_append.mp he with he | he
      · exact h.generation e he hactive
      · rw [List.mem_singleton.mp he] at hactive
        cases hactive

theorem exists_append_of_find (h : s.Coherent) {e : Executor}
    (hfind : s.executors.find? (·.state == state) = some e) : ∃ before after,
      s.executors = before ++ e :: after ∧ e.state = state ∧
        (∀ x ∈ before, x.state ≠ state) ∧ ∀ x ∈ after, x.state ≠ state := by
  obtain ⟨hstate, before, after, heq, hbefore⟩ := List.find?_eq_some_iff_append.mp hfind
  have hstate : e.state = state := by simpa using hstate
  refine ⟨before, after, heq, hstate, fun x hx => by simpa using hbefore x hx, ?_⟩
  intro x hx hx'
  have hnodup := h.nodup
  rw [heq, List.map_append, List.map_cons] at hnodup
  have hnotin := (List.nodup_cons.mp hnodup.of_append_right).1
  exact hnotin (List.mem_map.mpr ⟨x, hx, hx'.trans hstate.symm⟩)

theorem unregisterExecutor (h : s.Coherent) (hstep : s.unregisterExecutor state = some t) :
    t.Coherent := by
  unfold Slab.unregisterExecutor at hstep
  split at hstep
  · exact Option.some.inj hstep ▸ h
  · rename_i e hfind
    split_ifs at hstep with hactive
    obtain rfl := Option.some.inj hstep
    have hsub := List.eraseP_sublist (p := (·.state == state)) (l := s.executors)
    refine ⟨h.nodup.sublist (hsub.map _), ?_, fun e he => h.generation e (hsub.subset he), h.ahead⟩
    obtain ⟨before, after, heq, hstate, hbefore, -⟩ := h.exists_append_of_find hfind
    have hcount := h.count
    change s.activeExecutions = (s.executors.eraseP (·.state == state)).countP (·.active)
    rw [heq] at hcount ⊢
    rw [List.eraseP_append_right _ (by simpa using hbefore),
      List.eraseP_cons_of_pos (by simpa using hstate), hcount]
    simp [hactive]

theorem setExecutor_eq (h : s.Coherent) {e : Executor}
    (hfind : s.executors.find? (·.state == state) = some e) (generation : ℕ) (active : Bool) :
    ∃ before after, s.executors = before ++ e :: after ∧
      (s.setExecutor state generation active).executors =
        before ++ ⟨state, generation, active⟩ :: after := by
  obtain ⟨before, after, heq, hstate, hbefore, hafter⟩ := h.exists_append_of_find hfind
  have hkept : ∀ l : List Executor, (∀ x ∈ l, x.state ≠ state) →
      l.map (fun e => if e.state = state then ⟨state, generation, active⟩ else e) = l := by
    intro l hl
    exact (List.map_congr_left fun x hx => if_neg (hl x hx)).trans (List.map_id' l)
  refine ⟨before, after, heq, ?_⟩
  change s.executors.map _ = _
  rw [heq, List.map_append, List.map_cons, hkept before hbefore, hkept after hafter, if_pos hstate]

theorem enterExecution_eq (h : s.Coherent) (henter : s.enterExecution state = some (generation, t)) :
    generation = s.currentGeneration ∧ ∃ before after e, s.executors = before ++ e :: after ∧
      e.state = state ∧ e.active = false ∧ t = { s with
        cache := s.finishPendingDirectLinkPublication.cache
        executors := before ++ ⟨state, generation, true⟩ :: after
        activeExecutions := s.activeExecutions + 1 } := by
  have hpublish : s.finishPendingDirectLinkPublication =
      { s with cache := s.finishPendingDirectLinkPublication.cache } := by
    unfold finishPendingDirectLinkPublication
    split
    · rfl
    · rfl
  unfold Slab.enterExecution at henter
  split_ifs at henter
  obtain ⟨cache, hcache⟩ : ∃ cache, cache = s.finishPendingDirectLinkPublication.cache := ⟨_, rfl⟩
  rw [← hcache] at hpublish ⊢
  simp only [hpublish] at henter
  split at henter
  · cases henter
  · rename_i e hfind
    split_ifs at henter with hactive
    obtain ⟨rfl, rfl⟩ := Prod.mk.inj (Option.some.inj henter)
    obtain ⟨before, after, heq, hset⟩ := h.setExecutor_eq hfind s.currentGeneration true
    have hstate : e.state = state := by simpa using List.find?_some hfind
    exact ⟨rfl, before, after, e, heq, hstate, by simpa using hactive, by rw [← hset]; rfl⟩

theorem enterExecution (h : s.Coherent) (henter : s.enterExecution state = some (generation, t)) :
    t.Coherent := by
  obtain ⟨hgeneration, before, after, e, heq, hstate, hinactive, rfl⟩ :=
    h.enterExecution_eq henter
  refine ⟨?_, ?_, ?_, h.ahead⟩
  · have hnodup := h.nodup
    rw [heq] at hnodup
    simpa [hstate] using hnodup
  · have hactive := h.count
    rw [heq] at hactive
    simp only [List.countP_append, List.countP_cons, hinactive] at hactive ⊢
    simp only [Bool.false_eq_true, ↓reduceIte] at hactive ⊢
    omega
  · intro x hx hactive
    simp only [List.mem_append, List.mem_cons] at hx
    rcases hx with hx | rfl | hx
    · exact h.generation x (by rw [heq]; simp [hx]) hactive
    · exact hgeneration
    · exact h.generation x (by rw [heq]; simp [hx]) hactive

theorem leaveExecution_eq (h : s.Coherent) (hleave : s.leaveExecution state generation = some t) :
    ∃ active before after e, s.executors = before ++ e :: after ∧ e.state = state ∧
      e.active = true ∧ active + 1 = s.activeExecutions ∧
      t = servicePendingInvalidation { s with
        executors := before ++ ⟨e.state, e.generation, false⟩ :: after
        activeExecutions := active } := by
  unfold Slab.leaveExecution at hleave
  split at hleave
  · cases hleave
  · rename_i e hfind
    split_ifs at hleave with hbad
    simp only [not_or, Bool.not_eq_false] at hbad
    obtain ⟨before, after, heq, hset⟩ := h.setExecutor_eq hfind e.generation false
    have hstate : e.state = state := by simpa using List.find?_some hfind
    refine ⟨s.activeExecutions - 1, before, after, e, heq, hstate, hbad.1, ?_, ?_⟩
    · have := hbad.2.2.2
      omega
    · rw [hstate, ← hset]
      exact (Option.some.inj hleave).symm

theorem left (h : s.Coherent) {before after : List Executor} {e : Executor} {active : ℕ}
    (heq : s.executors = before ++ e :: after) (hactive : e.active = true)
    (hcount : active + 1 = s.activeExecutions) : Coherent { s with
      executors := before ++ ⟨e.state, e.generation, false⟩ :: after
      activeExecutions := active } := by
  refine ⟨?_, ?_, ?_, h.ahead⟩
  · have hnodup := h.nodup
    rw [heq] at hnodup
    simpa using hnodup
  · have hcount' := h.count
    rw [heq] at hcount'
    simp only [List.countP_append, List.countP_cons, hactive] at hcount' ⊢
    simp only [Bool.false_eq_true, ↓reduceIte] at hcount' ⊢
    omega
  · intro x hx hxactive
    simp only [List.mem_append, List.mem_cons] at hx
    rcases hx with hx | rfl | hx
    · exact h.generation x (by rw [heq]; simp [hx]) hxactive
    · cases hxactive
    · exact h.generation x (by rw [heq]; simp [hx]) hxactive

theorem leaveExecution (h : s.Coherent) (hleave : s.leaveExecution state generation = some t) :
    t.Coherent := by
  obtain ⟨active, before, after, e, heq, -, hactive, hcount, rfl⟩ := h.leaveExecution_eq hleave
  have hleft := h.left heq hactive hcount
  exact hleft.keeps (keeps_servicePendingInvalidation hleft.ahead)

/-- What every operation does to the executors and the generation. -/
theorem step (h : s.Coherent) {action : SlabAction S} (hstep : s.step action = some t) :
    t.Coherent ∧ t.sharedMode = s.sharedMode ∧ s.currentGeneration ≤ t.currentGeneration := by
  have hkeeps : action.isHostOperation = true →
      t.Coherent ∧ t.sharedMode = s.sharedMode ∧ s.currentGeneration ≤ t.currentGeneration := by
    intro hhost
    have hu := keeps_step h.ahead hhost hstep
    exact ⟨h.keeps hu, hu.sharedMode, hu.le⟩
  cases action with
  | registerExecutor state =>
      obtain ⟨executors, heq⟩ := registerExecutor_eq hstep
      refine ⟨Option.some.inj hstep ▸ h.registerExecutor state, ?_⟩
      exact heq ▸ ⟨rfl, le_refl _⟩
  | unregisterExecutor state =>
      obtain ⟨executors, heq⟩ := unregisterExecutor_eq hstep
      exact ⟨h.unregisterExecutor hstep, heq ▸ ⟨rfl, le_refl _⟩⟩
  | enterExecution state =>
      simp only [Slab.step, Option.map_eq_some_iff] at hstep
      obtain ⟨⟨generation, t'⟩, henter, rfl⟩ := hstep
      refine ⟨h.enterExecution henter, ?_⟩
      obtain ⟨-, _, _, _, -, -, -, rfl⟩ := h.enterExecution_eq henter
      exact ⟨rfl, le_refl _⟩
  | leaveExecution state generation =>
      refine ⟨h.leaveExecution hstep, ?_⟩
      obtain ⟨active, before, after, e, heq, -, hactive, hcount, rfl⟩ := h.leaveExecution_eq hstep
      have hleft := keeps_servicePendingInvalidation (h.left heq hactive hcount).ahead
      exact ⟨hleft.sharedMode, hleft.le⟩
  | _ => exact hkeeps rfl

theorem resetCodeSegments (h : s.Coherent) : s.resetCodeSegments.Coherent := by
  obtain ⟨cache, segments, current, clock, bytes, heq⟩ := s.resetCodeSegments_eq
  rw [heq]
  exact ⟨h.nodup, h.count, h.generation, h.ahead⟩

theorem create (cache : C) (begin_ : CodePtr) (usableBytes : ℕ) (shared : Bool) :
    (Slab.create cache begin_ usableBytes shared).Coherent := by
  refine resetCodeSegments ⟨List.nodup_nil, rfl, ?_, ?_⟩
  · simp
  · simp [PendingAhead]

end Coherent

theorem create_sharedMode (cache : C) (begin_ : CodePtr) (usableBytes : ℕ) (shared : Bool) :
    (Slab.create cache begin_ usableBytes shared).sharedMode = shared := by
  have hreset : ∀ s : Slab C, s.resetCodeSegments.sharedMode = s.sharedMode := by
    intro s
    obtain ⟨cache, segments, current, clock, bytes, heq⟩ := s.resetCodeSegments_eq
    rw [heq]
  exact hreset _

/-! ### Between entering and leaving -/

def Executing (s : Slab C) (state generation : ℕ) : Prop :=
  ∃ e ∈ s.executors, e.state = state ∧ e.active = true ∧ e.generation = generation

def StaysIn (state : ℕ) (_ : Slab C) : SlabAction S → Prop
  | .leaveExecution state' _ => state' ≠ state
  | _ => True

namespace Coherent

variable {s t : Slab C} {state generation : ℕ}

theorem activeExecutions_ne_zero (h : s.Coherent) (hin : s.Executing state generation) :
    s.activeExecutions ≠ 0 := by
  obtain ⟨e, he, -, hactive, -⟩ := hin
  rw [h.count, ne_eq, List.countP_eq_zero]
  exact fun hnone => hnone e he hactive

theorem state_eq_of_one (h : s.Coherent) (hin : s.Executing state generation)
    (hone : s.activeExecutions = 1) {e : Executor} (he : e ∈ s.executors)
    (hactive : e.active = true) : e.state = state := by
  obtain ⟨x, hx, rfl, hxactive, -⟩ := hin
  rw [h.count, List.countP_eq_length_filter, List.length_eq_one_iff] at hone
  obtain ⟨y, hy⟩ := hone
  have hmem : ∀ z ∈ s.executors, z.active = true → z = y := fun z hz hzactive =>
    List.mem_singleton.mp (hy ▸ List.mem_filter.mpr ⟨hz, hzactive⟩)
  rw [hmem e he hactive, hmem x hx hxactive]

theorem currentGeneration_eq (h : s.Coherent) (hin : s.Executing state generation) :
    s.currentGeneration = generation := by
  obtain ⟨e, he, -, hactive, rfl⟩ := hin
  exact (h.generation e he hactive).symm

theorem leaveExecution_isSome (h : s.Coherent) (hin : s.Executing state generation) :
    (s.leaveExecution state generation).isSome := by
  have hcount := h.activeExecutions_ne_zero hin
  have hcurrent := h.currentGeneration_eq hin
  obtain ⟨e, he, rfl, hactive, rfl⟩ := hin
  have hfind : s.executors.find? (·.state == e.state) = some e := by
    cases hfind : s.executors.find? (·.state == e.state) with
    | none => simpa using List.find?_eq_none.mp hfind e he
    | some e' =>
        rw [h.eq_of_state_eq (List.mem_of_find?_eq_some hfind) he
          (by simpa using List.find?_some hfind)]
  simp [Slab.leaveExecution, hfind, hactive, hcurrent, hcount]

theorem executing_enterExecution (h : s.Coherent)
    (henter : s.enterExecution state = some (generation, t)) : t.Executing state generation := by
  obtain ⟨-, before, after, e, -, -, -, rfl⟩ := h.enterExecution_eq henter
  exact ⟨⟨state, generation, true⟩, by simp, rfl, rfl, rfl⟩

theorem executing_left (hin : s.Executing state generation) {before after : List Executor}
    {e : Executor} (heq : s.executors = before ++ e :: after)
    (hother : e.state ≠ state) (active : ℕ) : Executing { s with
      executors := before ++ ⟨e.state, e.generation, false⟩ :: after
      activeExecutions := active } state generation := by
  obtain ⟨x, hx, hstate, hactive, hgeneration⟩ := hin
  rw [heq] at hx
  refine ⟨x, ?_, hstate, hactive, hgeneration⟩
  simp only [List.mem_append, List.mem_cons] at hx ⊢
  rcases hx with hx | rfl | hx
  · exact .inl hx
  · exact absurd hstate hother
  · exact .inr (.inr hx)

end Coherent

section Active

variable {s t : Slab C}

theorem servicePendingInvalidation_of_active (hactive : s.activeExecutions ≠ 0) :
    s.servicePendingInvalidation = s := by
  rw [servicePendingInvalidation, finishPendingInvalidation_of_active hactive,
    finishPendingDirectLinkPublication, if_pos hactive]

theorem requestGenerationTransition_cache_of_active (hactive : s.activeExecutions ≠ 0)
    (kind : GenerationTransitionKind) (finish : Bool) :
    (s.requestGenerationTransition kind finish).cache = s.cache := by
  have hrecord : (s.recordTransition kind).signalActiveExecutors.cache = s.cache ∧
      (s.recordTransition kind).signalActiveExecutors.activeExecutions = s.activeExecutions := by
    unfold recordTransition
    split
    · exact ⟨rfl, rfl⟩
    · split
      · exact ⟨rfl, rfl⟩
      · exact ⟨rfl, rfl⟩
  unfold requestGenerationTransition
  split
  · rw [finishPendingInvalidation_of_active (hrecord.2 ▸ hactive), hrecord.1]
  · exact hrecord.1

theorem requestRangeTransition_cache_of_active (hactive : s.activeExecutions ≠ 0)
    (start length : ℕ) (finish : Bool) :
    (s.requestRangeTransition start length finish).cache = s.cache := by
  unfold requestRangeTransition
  split
  · rfl
  · simp only
    split
    · rw [finishPendingInvalidation_of_active (s := signalActiveExecutors { s with
        pendingRanges := (Interval.closed start (inclusiveRangeEnd start length)).toList.foldl
          IntervalSet.add s.pendingRanges }) hactive]
      rfl
    · rfl

theorem findBlock_cache (s : Slab C) (location : LocationDescriptor) (generation : ℕ) :
    (s.findBlock location generation).2.cache = s.cache := by
  unfold findBlock
  split
  · rfl
  · split
    · rfl
    · rename_i p _
      obtain ⟨segments, clock, heq⟩ := s.touchCodeSegment_eq p
      rw [heq]

def EmitsAtMost (s : Slab C) (action : SlabAction S) (t : Slab C) : Prop :=
  t.cache = s.cache ∨ ∃ caller block generation, action = .emit caller block generation ∧
    ((get s.cache block.location = none ∧ ∃ p, CodeCache.emit s.cache block
        ⟨s.sharedMode, s.isActive caller, s.activeExecutions⟩ = some (p, t.cache)) ∨
      ∃ p, get s.cache block.location = some p ∧ t.cache = republish s.cache block.location p
        ⟨s.sharedMode, s.isActive caller, s.activeExecutions⟩)

theorem emitsAtMost_emit {caller generation : ℕ} {block : Block S}
    {result : Option BlockDescriptor}
    (hemit : s.emit block generation (s.isActive caller) = some (result, t)) :
    s.EmitsAtMost (.emit caller block generation) t := by
  rcases emit_cases hemit with ⟨-, rfl⟩ | ⟨-, -, ⟨p, b, segments, clock, hget, -, -, -, rfl⟩ |
    ⟨p, cache, segments, bytes, clock, hget, hcache, -, rfl⟩⟩
  · exact .inl rfl
  · exact .inr ⟨caller, block, generation, rfl, .inr ⟨p, hget, rfl⟩⟩
  · exact .inr ⟨caller, block, generation, rfl, .inl ⟨hget, p, hcache⟩⟩

end Active

namespace Coherent

variable {s t : Slab C} {state generation : ℕ}

theorem executing_keeps (hin : s.Executing state generation) (hkeeps : Keeps s t) :
    t.Executing state generation := by
  rw [Executing, hkeeps.executors]
  exact hin

/-- While the executor is in, it stays in, and the cache changes by emissions only. -/
theorem step_executing (h : s.Coherent) (hin : s.Executing state generation)
    {action : SlabAction S} (hstays : StaysIn state s action) (hstep : s.step action = some t) :
    t.Executing state generation ∧ s.EmitsAtMost action t := by
  have hne := h.activeExecutions_ne_zero hin
  have hkeeps : ∀ {u : Slab C}, Keeps s u → u.cache = s.cache → s.step action = some u →
      t.Executing state generation ∧ s.EmitsAtMost action t := by
    intro u hu hcache hstep'
    obtain rfl := Option.some.inj (hstep.symm.trans hstep')
    exact ⟨executing_keeps hin hu, .inl hcache⟩
  cases action with
  | registerExecutor state' =>
      obtain rfl := Option.some.inj hstep
      obtain ⟨e, he, hstate⟩ := hin
      unfold Slab.registerExecutor
      split_ifs
      · exact ⟨⟨e, he, hstate⟩, .inl rfl⟩
      · exact ⟨⟨e, List.mem_append_left _ he, hstate⟩, .inl rfl⟩
  | unregisterExecutor state' =>
      simp only [Slab.step, Slab.unregisterExecutor] at hstep
      split at hstep
      · obtain rfl := Option.some.inj hstep
        exact ⟨hin, .inl rfl⟩
      · rename_i x hfind
        split_ifs at hstep with hxactive
        obtain rfl := Option.some.inj hstep
        obtain ⟨e, he, hstate, hactive, hgeneration⟩ := hin
        refine ⟨⟨e, ?_, hstate, hactive, hgeneration⟩, .inl rfl⟩
        refine (List.mem_eraseP_of_neg ?_).mpr he
        -- It is active, and the one that was erased is not.
        intro hsame
        have hxe := h.eq_of_state_eq (List.mem_of_find?_eq_some hfind) he
          ((by simpa using List.find?_some hfind : x.state = state').trans
            (by simpa using hsame : e.state = state').symm)
        exact hxactive (hxe ▸ hactive)
  | enterExecution state' =>
      simp only [Slab.step, Option.map_eq_some_iff] at hstep
      obtain ⟨⟨generation', t'⟩, henter, rfl⟩ := hstep
      obtain ⟨-, before, after, x, heq, -, hinactive, rfl⟩ := h.enterExecution_eq henter
      obtain ⟨e, he, hstate, hactive, hgeneration⟩ := hin
      refine ⟨⟨e, ?_, hstate, hactive, hgeneration⟩, .inl ?_⟩
      · rw [heq] at he
        simp only [List.mem_append, List.mem_cons] at he ⊢
        rcases he with he | rfl | he
        · exact .inl he
        · exact absurd hactive (hinactive ▸ Bool.false_ne_true)
        · exact .inr (.inr he)
      · simp only [finishPendingDirectLinkPublication, if_pos hne]
  | leaveExecution state' generation' =>
      obtain ⟨active, before, after, e, heq, rfl, hactive, hcount, rfl⟩ := h.leaveExecution_eq hstep
      have hin' := executing_left hin heq hstays active
      have hne' := (h.left heq hactive hcount).activeExecutions_ne_zero hin'
      rw [servicePendingInvalidation_of_active hne']
      exact ⟨hin', .inl rfl⟩
  | findBlock location generation' =>
      exact hkeeps (keeps_findBlock h.ahead _ _) (s.findBlock_cache _ _) rfl
  | emit caller block generation' =>
      simp only [Slab.step, Option.map_eq_some_iff] at hstep
      obtain ⟨⟨result, t'⟩, hemit, rfl⟩ := hstep
      exact ⟨executing_keeps hin (keeps_emit h.ahead hemit), emitsAtMost_emit hemit⟩
  | runCode codePtr =>
      obtain ⟨segments, clock, heq⟩ := s.touchCodeSegment_eq codePtr
      exact hkeeps (keeps_touchCodeSegment h.ahead codePtr) (by rw [heq]) rfl
  | clearCache =>
      exact hkeeps (keeps_requestGenerationTransition h.ahead _ _)
        (requestGenerationTransition_cache_of_active hne _ _) rfl
  | recycleCache =>
      exact hkeeps (keeps_requestGenerationTransition h.ahead _ _)
        (requestGenerationTransition_cache_of_active hne _ _) rfl
  | requestCacheClear =>
      exact hkeeps (keeps_requestGenerationTransition h.ahead _ _)
        (requestGenerationTransition_cache_of_active hne _ _) rfl
  | invalidateCacheRange start length =>
      exact hkeeps (keeps_requestRangeTransition h.ahead _ _ _)
        (requestRangeTransition_cache_of_active hne _ _ _) rfl
  | requestCacheRange start length =>
      exact hkeeps (keeps_requestRangeTransition h.ahead _ _ _)
        (requestRangeTransition_cache_of_active hne _ _ _) rfl
  | servicePendingInvalidation =>
      exact hkeeps (keeps_servicePendingInvalidation h.ahead)
        (by rw [servicePendingInvalidation_of_active hne]) rfl

end Coherent

end Slab

end Umbra.Backend
