import Umbra.A32.Session

/-!
No stale code after an invalidation.

A block is stale for a `Run` or `Step` when it was emitted before an
invalidation request that covers it and that had returned when the `Run` began.
The history of a session remembers when each block was emitted and each request
was made; the invariant is that every block a request covers stays owed to it
until it is gone.  Two ways exist to break it.  `Reset` and `ClearHalt` take back
the halt bit without which a noted request is overlooked, and a recycle noted
together with a range drops the range.
-/

namespace Umbra.A32

open Umbra.Lib Umbra.IR Umbra.Backend CodeCache

variable {C S : Type} [CodeCache C S]

namespace World

/-- The halt word of a `Jit` is reset only when it has no request noted, and a run
does not end with both a recycle and a range noted. -/
def Permitted (w : World C) : Action S → Prop
  | .jit id .reset => (w.jit id).Idle
  | .jit id (.clearHalt hr) => hr.has HaltReason.cacheInvalidation = true → (w.jit id).Idle
  | .jit id .leave => ¬(w.jit id).DropsRanges
  | _ => True

theorem keepsHalts_clearHalt {w : World C} {id : ℕ} {hr : HaltReason}
    (h : hr.has HaltReason.cacheInvalidation = false) :
    Slab.KeepsHalts w.slab (w.clearHalt id hr).slab := by
  intro other hother
  by_cases h' : other = id
  · subst h'
    rw [clearHalt, setHalt_self]
    rw [HaltReason.has_cacheInvalidation_iff] at hother ⊢
    have hbit : BitVec.getLsbD hr 1 = false := by
      rw [← Bool.not_eq_true, ← HaltReason.has_cacheInvalidation_iff, h]
      simp
    rw [BitVec.getLsbD_and, BitVec.getLsbD_not, hother, hbit]
    rfl
  · rwa [clearHalt, setHalt_other _ h']

theorem advances_stepSlab {w : World C} {t : Slab C} {call : SlabCall S}
    {fresh : Option LocationDescriptor} (h : stepSlab w.slab call = some (fresh, t)) :
    Advances w { w with slab := t } fresh := by
  cases call with
  | emit block generation =>
      obtain ⟨⟨result, t'⟩, hemit, heq⟩ := Option.map_eq_some_iff.mp h
      obtain ⟨rfl, rfl⟩ : installed block.location result = fresh ∧ t' = t := by simpa using heq
      exact advances_emit hemit
  | registerExecutor state =>
      obtain ⟨rfl, rfl⟩ : none = fresh ∧ w.slab.registerExecutor state = t := by
        simpa [stepSlab] using h
      obtain ⟨executors, h⟩ := w.slab.registerExecutor_eq rfl
      rw [h]
      exact advances_slab (fun d _ => .of_same d rfl rfl rfl rfl rfl) (.of_eq rfl)
  | findBlock location generation =>
      obtain ⟨rfl, rfl⟩ : none = fresh ∧ (w.slab.findBlock location generation).2 = t := by
        simpa [stepSlab] using h
      exact w.advances_findBlock location generation
  | clearCache | recycleCache | requestCacheClear =>
      simp only [stepSlab, Option.some.injEq, Prod.mk.injEq] at h
      obtain ⟨rfl, rfl⟩ := h
      exact advances_slab (fun d _ => w.slab.evolves_requestGenerationTransition _ _ d)
        (w.slab.keepsHalts_requestGenerationTransition _ _)
  | invalidateCacheRange start length | requestCacheRange start length =>
      simp only [stepSlab, Option.some.injEq, Prod.mk.injEq] at h
      obtain ⟨rfl, rfl⟩ := h
      exact advances_slab (fun d _ => w.slab.evolves_requestRangeTransition _ _ _ d)
        (w.slab.keepsHalts_requestRangeTransition _ _ _)
  | servicePendingInvalidation =>
      simp only [stepSlab, Option.some.injEq, Prod.mk.injEq] at h
      obtain ⟨rfl, rfl⟩ := h
      exact advances_slab (fun d _ => w.slab.evolves_servicePendingInvalidation d)
        (.of_eq (by simp [Slab.servicePendingInvalidation]))

/-- Every permitted call but the entry of a `Run` or `Step` keeps all debts. -/
theorem advances_stepJit {w w' : World C} {id : ℕ} {call : Call S}
    {fresh : Option LocationDescriptor} (hraised : w.Raised) (hresting : ∀ id, w.Resting id)
    (hpermitted : w.Permitted (.jit id call)) (henter : call ≠ .enter)
    (h : w.stepJit id call = some (fresh, w')) : Advances w w' fresh := by
  cases call with
  | clearCache =>
      obtain ⟨rfl, rfl⟩ : none = fresh ∧ w.clearCache id = w' := by simpa [stepJit] using h
      exact advances_request (.inr (by simp))
  | invalidateCacheRange start length =>
      obtain ⟨rfl, rfl⟩ : none = fresh ∧ w.invalidateCacheRange id start length = w' := by
        simpa [stepJit] using h
      unfold invalidateCacheRange
      split
      · exact .refl w
      · exact advances_request (.inr (by simp))
  | reset =>
      simp only [stepJit, reset] at h
      split at h
      · simp at h
      · obtain ⟨rfl, rfl⟩ : none = fresh ∧ w.setHalt id 0#32 = w' := by simpa using h
        exact advances_setHalt _ hpermitted
  | haltExecution hr =>
      obtain ⟨rfl, rfl⟩ : none = fresh ∧ w.haltExecution id hr = w' := by
        simpa [stepJit] using h
      exact w.advances_haltExecution id hr
  | clearHalt hr =>
      obtain ⟨rfl, rfl⟩ : none = fresh ∧ w.clearHalt id hr = w' := by simpa [stepJit] using h
      by_cases hbit : hr.has HaltReason.cacheInvalidation = true
      · exact advances_setHalt _ (hpermitted hbit)
      · exact advances_slab (fun d _ => w.evolves_setHalt id _ d)
          (keepsHalts_clearHalt (by simpa using hbit))
  | enter => exact absurd rfl henter
  | lookup location supply =>
      simp only [stepJit] at h
      split at h
      · cases h
      · rename_i hexecuting
        obtain ⟨⟨result, v⟩, hlookup, heq⟩ := Option.map_eq_some_iff.mp h
        obtain ⟨rfl, rfl⟩ : installed location result = fresh ∧ v = w' := by simpa using heq
        exact advances_getBasicBlock (.inl (by simpa using hexecuting)) hlookup
  | fastmemFault locations =>
      simp only [stepJit, Option.some.injEq, Prod.mk.injEq] at h
      obtain ⟨rfl, rfl⟩ := h
      exact advances_slab (fun d _ => w.slab.evolves_invalidateBasicBlocks locations d)
        (.of_eq rfl)
  | leave =>
      obtain ⟨v, hleave, heq⟩ := Option.map_eq_some_iff.mp h
      obtain ⟨rfl, rfl⟩ : none = fresh ∧ v = w' := by simpa using heq
      exact advances_leave hraised hpermitted hleave
  | precompile location supply =>
      obtain ⟨⟨result, v⟩, hprecompile, heq⟩ := Option.map_eq_some_iff.mp h
      obtain ⟨rfl, rfl⟩ : installed location result = fresh ∧ v = w' := by simpa using heq
      exact advances_precompile hraised (hresting id) hprecompile
  | precompileWithResult block emittable commits =>
      obtain ⟨⟨result, v⟩, hprecompile, heq⟩ := Option.map_eq_some_iff.mp h
      obtain ⟨rfl, rfl⟩ : installed block.location result = fresh ∧ v = w' := by simpa using heq
      exact advances_precompileWithResult hraised (hresting id) hprecompile
  | generatePortableIR =>
      simp only [stepJit] at h
      split at h
      · cases h
      · rename_i hexecuting
        obtain ⟨rfl, rfl⟩ : none = fresh ∧ w.perform id (w.slab.haltReason id) = w' := by
          simpa using h
        exact advances_perform _
          (not_dropsRanges_of_resting (hresting id) (by simpa using hexecuting))

/-- The entry of a `Run` or `Step`: whatever was owed to its executor is gone
when guest code may run. -/
structure Entered (w w' : World C) (id : ℕ) : Prop where
  evolves : ∀ d, Slab.Evolves w.slab w'.slab d
  owed : ∀ d other, w.Owed other d → w'.Owed other d
  raised : w'.Raised
  resting : ∀ other, w'.Resting other
  executing : ∀ other, other ≠ id → (w'.jit other).isExecuting = true →
    (w.jit other).isExecuting = true
  paid : ∀ d, w.Owed id d → ¬w'.slab.Present d

/-- Guest code is entered only when the slab has carried out what it owes. -/
theorem entered_of_enter {w w' : World C} {id : ℕ} (hraised : w.Raised)
    (hresting : ∀ id, w.Resting id) (h : w.enter id = some w') : Entered w w' id := by
  unfold enter at h
  split at h
  · cases h
  · rename_i hexecuting
    have hperform := advances_perform (w.slab.haltReason id)
      (not_dropsRanges_of_resting (hresting id) (by simpa using hexecuting))
    have hnoted := idle_perform (hraised id)
    simp only at h
    generalize w.perform id (w.slab.haltReason id) = v at hperform hnoted h
    split at h
    · cases h
    · rename_i generation t hslab
      simp only [Option.some.injEq] at h
      obtain rfl := h
      have hquiet : v.slab.quiet = true := (Slab.evolves_enterExecution hslab 0).1
      have hevolves := fun d => (Slab.evolves_enterExecution hslab d).2
      have hhalts := Slab.enterExecution_haltReason hslab
      have hdoomed : ∀ d, v.Owed id d → v.slab.Doomed d := fun d howed =>
        howed.resolve_right (Jit.not_owes_of_idle hnoted _ d)
      refine ⟨fun d => (hperform.evolves d (by simp)).trans (hevolves d),
        fun d other howed => ?_, fun other hpending => ?_, fun other => ?_,
        fun other h => ?_, fun d howed hp => ?_⟩
      · have howed := hperform.owed d (by simp) other howed
        by_cases h : other = id
        · subst h
          exact .inl ((hevolves d).doomed (hdoomed d howed))
        · rw [Owed, setJit_other _ _ h]
          exact owed_of_evolves (w := v) (hevolves d) howed
      · by_cases h : other = id
        · subst h
          rw [setJit_self] at hpending
          exact absurd hnoted hpending
        · rw [setJit_other _ _ h] at hpending
          simpa [hhalts] using hperform.raised hraised other hpending
      · by_cases h : other = id
        · subst h
          simp [Resting]
        · rw [Resting, setJit_other _ _ h]
          exact hperform.resting other (hresting other)
      · rw [setJit_other _ _ h]
        exact hperform.executing other
      · exact Slab.not_present_of_quiet hquiet (hdoomed d (hperform.owed d (by simp) id howed))
          ((hevolves d).present hp)

end World

/-! ### Histories -/

/-- The request concerns the block of `d`: a full clear concerns every block, a
range the blocks registered in it. -/
def Request.Meets (cache : C) (d : LocationDescriptor) : Request → Prop
  | .clearCache => True
  | .invalidateCacheRange start length => ∃ a, start.toNat ≤ a ∧ a < start.toNat + length ∧
      a < 2 ^ 32 ∧ Registered cache d a
  | _ => False

structure Noted where
  jit : ℕ
  time : ℕ
  request : Request

/-- A session together with what an observer remembers of it: the time of the
last emission for each descriptor, the public requests, and when each `Jit`
last began a `Run` or `Step`. -/
structure History (C : Type) where
  world : World C
  clock : ℕ
  emittedAt : LocationDescriptor → ℕ
  requests : List Noted
  enteredAt : ℕ → ℕ

namespace History

def notes (time : ℕ) : Action S → List Noted
  | .jit id .clearCache => [⟨id, time, .clearCache⟩]
  | .jit id (.invalidateCacheRange start length) =>
      [⟨id, time, .invalidateCacheRange start length⟩]
  | _ => []

def entries (enteredAt : ℕ → ℕ) (time : ℕ) : Action S → ℕ → ℕ
  | .jit id .enter => Function.update enteredAt id time
  | _ => enteredAt

def emissions (emittedAt : LocationDescriptor → ℕ) (time : ℕ) :
    Option LocationDescriptor → LocationDescriptor → ℕ
  | none => emittedAt
  | some d => Function.update emittedAt d time

def step (h : History C) (a : Action S) : Option (History C) :=
  (h.world.step a).map fun r =>
    { world := r.2
      clock := h.clock + 1
      emittedAt := emissions h.emittedAt h.clock r.1
      requests := notes h.clock a ++ h.requests
      enteredAt := entries h.enteredAt h.clock a }

def begin_ (w : World C) : History C := ⟨w, 1, fun _ => 0, [], fun _ => 0⟩

/-- The block of `d` was emitted before a request on the `Jit` that concerns it and
had returned when the `Jit` last entered execution. -/
def Stale (h : History C) (id : ℕ) (d : LocationDescriptor) : Prop :=
  ∃ n ∈ h.requests, n.jit = id ∧ n.time < h.enteredAt id ∧ h.emittedAt d < n.time ∧
    n.request.Meets h.world.slab.cache d

/-- While a `Jit` executes, no lookup of it finds a stale block. -/
def FindsNoStaleBlock (h : History C) : Prop :=
  ∀ id, (h.world.jit id).isExecuting = true → ∀ d b,
    (h.world.slab.findBlock d (h.world.jit id).activeGeneration).1 = some b → ¬h.Stale id d

structure Tracked (h : History C) : Prop where
  raised : h.world.Raised
  resting : ∀ id, h.world.Resting id
  past : ∀ n ∈ h.requests, n.time < h.clock
  entered : ∀ id, h.enteredAt id ≤ h.clock
  owed : ∀ n ∈ h.requests, ∀ d, h.world.slab.Present d → h.emittedAt d < n.time →
    n.request.Meets h.world.slab.cache d → h.world.Owed n.jit d
  current : ∀ n ∈ h.requests, (h.world.jit n.jit).isExecuting = true →
    n.time < h.enteredAt n.jit → ∀ d, h.world.slab.Present d → h.emittedAt d < n.time →
      ¬n.request.Meets h.world.slab.cache d

theorem Tracked.findsNoStaleBlock {h : History C} (ht : h.Tracked) : h.FindsNoStaleBlock := by
  rintro id hexecuting d b hfind ⟨n, hn, rfl, hentered, hemitted, hmeets⟩
  exact ht.current n hn hexecuting hentered d (Slab.present_of_findBlock hfind) hemitted hmeets

theorem tracked_begin {w : World C}
    (hidle : ∀ id, (w.jit id).isExecuting = false ∧ (w.jit id).Idle) : (begin_ w).Tracked where
  raised id hpending := absurd (hidle id).2 hpending
  resting id _ hentire := by simp [begin_, (hidle id).2.1] at hentire
  past := by simp [begin_]
  entered := by simp [begin_]
  owed := by simp [begin_]
  current := by simp [begin_]

theorem meets_of_evolves {s t : Slab C} {d : LocationDescriptor} (h : Slab.Evolves s t d)
    (hp : t.Present d) {r : Request} (hr : r.Meets t.cache d) : r.Meets s.cache d := by
  cases r with
  | clearCache => trivial
  | invalidateCacheRange start length =>
      obtain ⟨a, h₁, h₂, h₃, hreg⟩ := hr
      exact ⟨a, h₁, h₂, h₃, (h.registered hp a).mp hreg⟩
  | requestCapacityRecycle => exact hr
  | abandonPortableEmit => exact hr

theorem not_fresh_of_lt {emittedAt : LocationDescriptor → ℕ} {clock time : ℕ}
    {fresh : Option LocationDescriptor} {d : LocationDescriptor} (htime : time < clock)
    (h : emissions emittedAt clock fresh d < time) : fresh ≠ some d ∧ emittedAt d < time := by
  cases fresh with
  | none => exact ⟨by simp, h⟩
  | some e =>
      by_cases hd : d = e
      · subst hd
        simp only [emissions, Function.update_self] at h
        omega
      · exact ⟨fun heq => hd (Option.some.inj heq).symm, by
          simpa [emissions, Function.update_of_ne hd] using h⟩

/-- A request is owed as soon as it has returned. -/
theorem owed_of_note {w w' : World C} {a : Action S} {fresh : Option LocationDescriptor}
    (h : w.step a = some (fresh, w')) {time : ℕ} {n : Noted} (hn : n ∈ notes time a)
    {d : LocationDescriptor} (hmeets : n.request.Meets w'.slab.cache d) :
    n.time = time ∧ w'.Owed n.jit d := by
  unfold notes at hn
  split at hn
  · rename_i id
    obtain rfl := List.mem_singleton.mp hn
    obtain ⟨-, rfl⟩ : none = fresh ∧ w.clearCache id = w' := by
      simpa [World.step, World.stepJit] using h
    refine ⟨rfl, .inr (.inl ?_)⟩
    rw [World.clearCache, World.request, World.haltExecution, World.setHalt, World.setJit_self]
    exact ⟨rfl, rfl⟩
  · rename_i id start length
    obtain rfl := List.mem_singleton.mp hn
    obtain ⟨-, rfl⟩ : none = fresh ∧ w.invalidateCacheRange id start length = w' := by
      simpa [World.step, World.stepJit] using h
    refine ⟨rfl, ?_⟩
    obtain ⟨address, h₁, h₂, h₃, hreg⟩ := hmeets
    unfold World.invalidateCacheRange at hreg ⊢
    split
    · -- an empty range has no address
      omega
    · rename_i hlength
      rw [if_neg hlength] at hreg
      refine .inr (.inr ⟨address, ?_, hreg⟩)
      rw [World.request, World.haltExecution, World.setHalt, World.setJit_self]
      exact (Jit.foldl_note_ranges [.invalidateCacheRange start length] address).mpr
        (.inr ⟨start, length, by simp, h₁, h₂, h₃⟩)
  · simp at hn

/-- The step lemma: a request that has returned is owed until the block is emitted anew. -/
theorem tracked_of_advances {h h' : History C} {a : Action S}
    {fresh : Option LocationDescriptor} (ht : h.Tracked)
    (hstep : h.world.step a = some (fresh, h'.world))
    (hadvances : World.Advances h.world h'.world fresh)
    (hclock : h'.clock = h.clock + 1)
    (hemitted : h'.emittedAt = emissions h.emittedAt h.clock fresh)
    (hrequests : h'.requests = notes h.clock a ++ h.requests)
    (hentered : h'.enteredAt = h.enteredAt) : h'.Tracked where
  raised := hadvances.raised ht.raised
  resting id := hadvances.resting id (ht.resting id)
  past n hn := by
    rw [hrequests, List.mem_append] at hn
    rw [hclock]
    rcases hn with hn | hn
    · have : n.time = h.clock := by
        unfold notes at hn
        split at hn
        · rw [List.mem_singleton.mp hn]
        · rw [List.mem_singleton.mp hn]
        · simp at hn
      omega
    · exact (ht.past n hn).trans (Nat.lt_succ_self _)
  entered id := by
    rw [hentered, hclock]
    exact (ht.entered id).trans (Nat.le_succ _)
  owed n hn d hp hlt hmeets := by
    rw [hrequests, List.mem_append] at hn
    rcases hn with hn | hn
    · exact (owed_of_note hstep hn hmeets).2
    · rw [hemitted] at hlt
      obtain ⟨hfresh, hlt⟩ := not_fresh_of_lt (ht.past n hn) hlt
      have hevolves := hadvances.evolves d hfresh
      exact hadvances.owed d hfresh n.jit (ht.owed n hn d (hevolves.present hp) hlt
        (meets_of_evolves hevolves hp hmeets))
  current n hn hexecuting htime d hp hlt hmeets := by
    rw [hrequests, List.mem_append] at hn
    rw [hentered] at htime
    rcases hn with hn | hn
    · have := (owed_of_note hstep hn hmeets).1
      have := ht.entered n.jit
      omega
    · rw [hemitted] at hlt
      obtain ⟨hfresh, hlt⟩ := not_fresh_of_lt (ht.past n hn) hlt
      have hevolves := hadvances.evolves d hfresh
      exact ht.current n hn (hadvances.executing n.jit hexecuting) htime d (hevolves.present hp)
        hlt (meets_of_evolves hevolves hp hmeets)

theorem tracked_of_entered {h : History C} {w' : World C} {id : ℕ} (ht : h.Tracked)
    (hentered : World.Entered h.world w' id) :
    Tracked { h with
      world := w'
      clock := h.clock + 1
      enteredAt := Function.update h.enteredAt id h.clock } where
  raised := hentered.raised
  resting := hentered.resting
  past n hn := (ht.past n hn).trans (Nat.lt_succ_self _)
  entered other := by
    by_cases hother : other = id
    · subst hother
      simp
    · simpa [Function.update_of_ne hother] using (ht.entered other).trans (Nat.le_succ _)
  owed n hn d hp hlt hmeets :=
    hentered.owed d n.jit (ht.owed n hn d ((hentered.evolves d).present hp) hlt
      (meets_of_evolves (hentered.evolves d) hp hmeets))
  current n hn hexecuting htime d hp hlt hmeets := by
    have hpresent := (hentered.evolves d).present hp
    have hmeets := meets_of_evolves (hentered.evolves d) hp hmeets
    by_cases hjit : n.jit = id
    · -- what was owed to this executor is gone
      exact hentered.paid d (hjit ▸ ht.owed n hn d hpresent hlt hmeets) hp
    · refine ht.current n hn (hentered.executing n.jit hjit hexecuting) ?_ d hpresent hlt hmeets
      simpa [Function.update_of_ne hjit] using htime

theorem tracked_step {h h' : History C} {a : Action S} (ht : h.Tracked)
    (hok : h.world.Permitted a) (hstep : h.step a = some h') : h'.Tracked := by
  obtain ⟨⟨fresh, w'⟩, hworld, rfl⟩ := Option.map_eq_some_iff.mp hstep
  cases a with
  | slab call =>
      obtain ⟨⟨fresh', t⟩, hslab, heq⟩ := Option.map_eq_some_iff.mp hworld
      obtain ⟨rfl, rfl⟩ : fresh' = fresh ∧ ({ h.world with slab := t } : World C) = w' := by
        simpa using heq
      exact tracked_of_advances ht hworld (World.advances_stepSlab hslab) rfl rfl rfl rfl
  | jit id call =>
      by_cases henter : call = .enter
      · subst henter
        obtain ⟨v, hv, heq⟩ := Option.map_eq_some_iff.mp hworld
        obtain ⟨rfl, rfl⟩ : none = fresh ∧ v = w' := by simpa using heq
        exact tracked_of_entered ht (World.entered_of_enter ht.raised ht.resting hv)
      · have hentries : entries h.enteredAt h.clock (.jit id call) = h.enteredAt := by
          cases call <;> first | rfl | exact absurd rfl henter
        exact tracked_of_advances ht hworld
          (World.advances_stepJit ht.raised ht.resting hok henter hworld) rfl rfl rfl hentries

/-- In a session of permitted calls no `Run` or `Step` finds a block that was
emitted before a covering request that had returned when it began. -/
theorem findsNoStaleBlock_of_reaches {w : World C} {h : History C}
    (hidle : ∀ id, (w.jit id).isExecuting = false ∧ (w.jit id).Idle)
    (hreach : Reaches (step (S := S)) (fun h a => h.world.Permitted a) (begin_ w) h) :
    h.FindsNoStaleBlock :=
  (hreach.invariant (tracked_begin hidle) fun _ _ _ => tracked_step).findsNoStaleBlock

end History

def freshWorld : World Arm64.AddressSpace :=
  ⟨(Slab.create (Arm64.AddressSpace.empty (64 * 1024 * 1024) 0x11000) 0x11000
    (64 * 1024 * 1024 - 0x1000) false).registerExecutor 0, fun _ => Jit.initial⟩

/-- Emit a block for the four bytes at `0x1000`, invalidate them, and enter a `Run`
after the calls in between. -/
def sampleSession (between : List (Call Arm64.BlockRelocation)) :
    List (Action Arm64.BlockRelocation) :=
  [.jit 0 (.precompileWithResult ⟨0x1000, Interval.closed 0x1000 0x1003, 64, []⟩ true true),
    .jit 0 (.invalidateCacheRange 0x1000 4)] ++ between.map (.jit 0) ++ [.jit 0 .enter]

theorem sampleSession_reset_runs :
    (run History.step (History.begin_ freshWorld) (sampleSession [.reset])).isSome = true := by
  decide

/-- `Reset` loses the request: the next `Run` finds the old block. -/
theorem reset_cancels_invalidation :
    ¬∀ (w : World Arm64.AddressSpace) (h : History Arm64.AddressSpace),
      (∀ id, (w.jit id).isExecuting = false ∧ (w.jit id).Idle) →
        Reaches History.step always (History.begin_ w) h → h.FindsNoStaleBlock := by
  intro hclaim
  let h := (run History.step (History.begin_ freshWorld) (sampleSession [.reset])).get
    sampleSession_reset_runs
  have hreach : Reaches History.step always (History.begin_ freshWorld) h :=
    reaches_of_run (Option.some_get _).symm (follows_always _ (sampleSession [.reset]))
  have hfind : (h.world.slab.findBlock 0x1000 (h.world.jit 0).activeGeneration).1 =
      some ⟨0x11000, 64, 1, false⟩ := by decide
  have hreg : h.world.slab.cache.blockRanges.Registered 0x1000 0x1000 := by decide
  exact hclaim freshWorld h (fun _ => ⟨rfl, rfl, rfl⟩) hreach 0 (by decide) 0x1000 _ hfind
    ⟨⟨0, 2, .invalidateCacheRange 0x1000 4⟩, List.mem_singleton.mpr rfl, rfl, by decide,
      by decide, 0x1000, by decide, by decide, by decide, hreg⟩

theorem sampleSession_runs :
    (run History.step (History.begin_ freshWorld) (sampleSession [])).isSome = true := by
  decide

/-- Without the `Reset` the same session finds nothing stale. -/
theorem findsNoStaleBlock_sample :
    ((run History.step (History.begin_ freshWorld) (sampleSession [])).get
      sampleSession_runs).FindsNoStaleBlock :=
  History.findsNoStaleBlock_of_reaches (fun _ => ⟨rfl, rfl, rfl⟩)
    (reaches_of_run (Option.some_get _).symm
      ⟨trivial, fun _ _ => ⟨trivial, fun _ _ => ⟨trivial, fun _ _ => trivial⟩⟩⟩)

end Umbra.A32
