import Umbra.A32.Jit
import Umbra.Lib.Run

/-!
Sessions: any number of `Jit`s on one slab, called in any order.

A call of `Run` or `Step` is cut into its entry, the block lookups and callbacks
made while guest code runs, and its end; every other call is one step.  Guest
code itself is not modelled: whatever it does shows in which lookups it makes,
which callbacks it triggers and when it returns.
-/

namespace Umbra.A32

open Umbra.Lib Umbra.IR Umbra.Backend CodeCache

variable {C S : Type} [CodeCache C S]

def minimumRemainingCodesize : ℕ := 1 * 1024 * 1024

/-- What surrounds a block lookup: the artifact the portable provider hands over
(if it does and it is accepted), whether memory can be committed, and what the
translator makes of the guest code. -/
structure Supply (S : Type) where
  artifact : Option (Block S)
  commits : Bool
  translated : Block S

namespace World

/-- `GetBasicBlock`.  Its result is the block descriptor, `none` standing for the
return-from-run stub; the whole is `none` where the source asserts or lets an
exception through. -/
def getBasicBlock (w : World C) (id : ℕ) (d : LocationDescriptor) (generation : ℕ)
    (supply : Supply S) : Option (Option BlockDescriptor × World C) :=
  match w.slab.findBlock d generation with
  | (some block, slab) => some (some block, { w with slab })
  | (none, slab) =>
      let w := { w with slab }
      if slab.activeSegmentSpaceRemaining < minimumRemainingCodesize then
        some (none, w.requestCapacityRecycle id)
      else
        match supply.artifact with
        | some artifact =>
            if supply.commits = false then some (none, w.abandonPortableEmit id)
            else
              match w.slab.emit { artifact with location := d } generation
                  (w.jit id).isExecuting with
              | none => none
              | some (none, slab) => some (none, { w with slab }.abandonPortableEmit id)
              | some (some emitted, slab) => some (some emitted, { w with slab })
        | none =>
            if supply.commits = false then none
            else
              match w.slab.emit { supply.translated with location := d } generation
                  (w.jit id).isExecuting with
              | none => none
              | some (emitted, slab) => some (emitted, { w with slab })

def enter (w : World C) (id : ℕ) : Option (World C) :=
  if (w.jit id).isExecuting then none
  else
    let w := w.perform id (w.slab.haltReason id)
    match w.slab.enterExecution id with
    | none => none
    | some (generation, slab) =>
        some ({ w with slab }.setJit id
          { w.jit id with isExecuting := true, activeGeneration := generation })

/-- The end of `Run` and `Step`: emitted code hands over the halt word and clears
it, the noted requests are passed on and the slab is left. -/
def leave (w : World C) (id : ℕ) : Option (World C) :=
  if (w.jit id).isExecuting = false then none
  else
    let w := (w.setHalt id 0#32).perform id (w.slab.haltReason id)
    let generation := (w.jit id).activeGeneration
    let w := w.setJit id { w.jit id with isExecuting := false, activeGeneration := 0 }
    match w.slab.leaveExecution id generation with
    | none => none
    | some slab => some { w with slab }

/-- `Reset`: the `A32JitState`, and with it the halt word, is overwritten. -/
def reset (w : World C) (id : ℕ) : Option (World C) :=
  if (w.jit id).isExecuting then none
  else some (w.setHalt id 0#32)

def precompile (w : World C) (id : ℕ) (d : LocationDescriptor) (supply : Supply S) :
    Option (Option BlockDescriptor × World C) :=
  if (w.jit id).isExecuting then none
  else
    let w := w.perform id (w.slab.haltReason id)
    match w.slab.generation with
    | none => none
    | some generation => w.getBasicBlock id d generation supply

/-- The middle of `PrecompileWithResult`: make room, and read the generation
again if that was necessary. -/
def makeRoom (w : World C) (id : ℕ) (generation : ℕ) : Option (ℕ × World C) :=
  if w.slab.activeSegmentSpaceRemaining < minimumRemainingCodesize then
    let w := (w.setJit id (w.jit id).notePrecompileRecycle).perform id
      HaltReason.cacheInvalidation
    w.slab.generation.map (·, w)
  else some (generation, w)

/-- `PrecompileWithResult`; `emittable` is the verdict of `IsEmittableBlock`. -/
def precompileWithResult (w : World C) (id : ℕ) (block : Block S) (emittable commits : Bool) :
    Option (Option BlockDescriptor × World C) :=
  if (w.jit id).isExecuting then none
  else
    let w := w.perform id (w.slab.haltReason id)
    if emittable = false then some (none, w.abandonPortableEmit id)
    else
      match w.slab.generation with
      | none => none
      | some generation =>
          match w.slab.findBlock block.location generation with
          | (some present, slab) => some (some present, { w with slab })
          | (none, slab) =>
              match { w with slab }.makeRoom id generation with
              | none => none
              | some (generation, w) =>
                  if commits = false then some (none, w.abandonPortableEmit id)
                  else
                    match w.slab.emit block generation (w.jit id).isExecuting with
                    | none => none
                    | some (none, slab) => some (none, { w with slab }.abandonPortableEmit id)
                    | some (some emitted, slab) => some (some emitted, { w with slab })

end World

inductive Call (S : Type)
  | clearCache
  | invalidateCacheRange (startAddress : UInt32) (length : ℕ)
  | reset
  | haltExecution (hr : HaltReason)
  | clearHalt (hr : HaltReason)
  | enter
  | lookup (location : LocationDescriptor) (supply : Supply S)
  | fastmemFault (locations : List LocationDescriptor)
  | leave
  | precompile (location : LocationDescriptor) (supply : Supply S)
  | precompileWithResult (block : Block S) (emittable commits : Bool)
  | generatePortableIR

inductive SlabCall (S : Type)
  | registerExecutor (state : ℕ)
  | findBlock (location : LocationDescriptor) (generation : ℕ)
  | emit (block : Block S) (generation : ℕ)
  | clearCache
  | recycleCache
  | invalidateCacheRange (startAddress : UInt32) (length : ℕ)
  | requestCacheClear
  | requestCacheRange (startAddress : UInt32) (length : ℕ)
  | servicePendingInvalidation

inductive Action (S : Type)
  | jit (id : ℕ) (call : Call S)
  | slab (call : SlabCall S)

/-- The location a block was newly emitted for, given what was obtained for it. -/
def installed (location : LocationDescriptor) (result : Option BlockDescriptor) :
    Option LocationDescriptor :=
  if result.any (·.newlyEmitted) then some location else none

def withInstalled {α : Type} (location : LocationDescriptor)
    (result : Option (Option BlockDescriptor × α)) : Option (Option LocationDescriptor × α) :=
  result.map fun r => (installed location r.1, r.2)

namespace World

def stepJit (w : World C) (id : ℕ) : Call S → Option (Option LocationDescriptor × World C)
  | .clearCache => some (none, w.clearCache id)
  | .invalidateCacheRange start length => some (none, w.invalidateCacheRange id start length)
  | .reset => (w.reset id).map (none, ·)
  | .haltExecution hr => some (none, w.haltExecution id hr)
  | .clearHalt hr => some (none, w.clearHalt id hr)
  | .enter => (w.enter id).map (none, ·)
  | .lookup location supply =>
      if (w.jit id).isExecuting = false then none
      else withInstalled location
        (w.getBasicBlock id location (w.jit id).activeGeneration supply)
  | .fastmemFault locations => some (none, { w with slab := { w.slab with
      cache := invalidateBasicBlocks w.slab.cache locations } })
  | .leave => (w.leave id).map (none, ·)
  | .precompile location supply =>
      withInstalled location (w.precompile id location supply)
  | .precompileWithResult block emittable commits =>
      withInstalled block.location (w.precompileWithResult id block emittable commits)
  | .generatePortableIR =>
      if (w.jit id).isExecuting then none
      else some (none, w.perform id (w.slab.haltReason id))

def stepSlab (s : Slab C) : SlabCall S → Option (Option LocationDescriptor × Slab C)
  | .registerExecutor state => some (none, s.registerExecutor state)
  | .findBlock location generation => some (none, (s.findBlock location generation).2)
  | .emit block generation =>
      withInstalled block.location (s.emit block generation false)
  | .clearCache => some (none, s.clearCache)
  | .recycleCache => some (none, s.recycleCache)
  | .invalidateCacheRange start length =>
      some (none, s.invalidateCacheRange start.toNat length)
  | .requestCacheClear => some (none, s.requestCacheClear)
  | .requestCacheRange start length => some (none, s.requestCacheRange start.toNat length)
  | .servicePendingInvalidation => some (none, s.servicePendingInvalidation)

def step (w : World C) : Action S → Option (Option LocationDescriptor × World C)
  | .jit id call => w.stepJit id call
  | .slab call => (stepSlab w.slab call).map fun r => (r.1, { w with slab := r.2 })

end World

/-! ### What is owed to a request -/

namespace Jit

def Owes (j : Jit) (cache : C) (d : LocationDescriptor) : Prop :=
  (j.invalidateEntireCache = true ∧ j.recycleNativeSlab = false) ∨
    ∃ a, j.invalidCacheRanges.Covers a ∧ Registered cache d a

theorem not_owes_of_idle {j : Jit} (h : j.Idle) (cache : C) (d : LocationDescriptor) :
    ¬j.Owes cache d := by
  rintro (⟨hentire, -⟩ | ⟨a, ha, -⟩)
  · simp [h.1] at hentire
  · simp [h.2] at ha

@[simp] theorem note_isExecuting (j : Jit) (r : Request) :
    (j.note r).isExecuting = j.isExecuting := by
  cases r with
  | invalidateCacheRange start length =>
      obtain ⟨ranges, hlt, h⟩ := j.note_range_eq start length
      rw [h]
  | _ => rfl

theorem owes_note {j : Jit} {cache : C} {d : LocationDescriptor} (r : Request)
    (h : j.Owes cache d) : (j.note r).Owes cache d := by
  have hranges : ∀ a, j.invalidCacheRanges.Covers a → (j.note r).invalidCacheRanges.Covers a :=
    fun a ha => (foldl_note_ranges [r] a).mpr (.inl ha)
  rcases h with ⟨hentire, hrecycle⟩ | ⟨a, ha, hreg⟩
  · left
    cases r with
    | invalidateCacheRange start length =>
        obtain ⟨ranges, hlt, h⟩ := j.note_range_eq start length
        rw [h]
        exact ⟨hentire, hrecycle⟩
    | clearCache => exact ⟨rfl, rfl⟩
    | requestCapacityRecycle => simp [note, noteEntire, hentire, hrecycle]
    | abandonPortableEmit => simp [note, noteEntire]
  · exact .inr ⟨a, hranges a ha, hreg⟩

/-- Only the capacity request may note a recycle. -/
theorem note_recycle {j : Jit} {r : Request} (hr : r ≠ .requestCapacityRecycle)
    (h : j.invalidateEntireCache = true → j.recycleNativeSlab = false)
    (hentire : (j.note r).invalidateEntireCache = true) :
    (j.note r).recycleNativeSlab = false := by
  cases r with
  | invalidateCacheRange start length =>
      obtain ⟨ranges, hlt, hnote⟩ := j.note_range_eq start length
      rw [hnote] at hentire ⊢
      exact h hentire
  | clearCache => rfl
  | requestCapacityRecycle => exact absurd rfl hr
  | abandonPortableEmit => simp [note, noteEntire]

/-- A recycle is about to be passed on with ranges noted beside it. -/
def DropsRanges (j : Jit) : Prop :=
  j.invalidateEntireCache = true ∧ j.recycleNativeSlab = true ∧ j.invalidCacheRanges ≠ []

theorem serve_of_owes {j : Jit} {s : Slab C} {d : LocationDescriptor} (hdrop : ¬j.DropsRanges)
    (h : j.Owes s.cache d) : (j.serve s).Doomed d := by
  rcases h with ⟨hentire, hrecycle⟩ | ⟨a, ha, hreg⟩
  · rw [serve_of_clear s hentire hrecycle]
    exact s.doomed_clearCache d
  · refine serve_doomed (fun h => hdrop ⟨h.1, h.2, ?_⟩) ha hreg
    intro hnil
    simp [hnil] at ha

theorem serve_evolves (j : Jit) (s : Slab C) (d : LocationDescriptor) :
    Slab.Evolves s (j.serve s) d := by
  unfold serve
  split_ifs
  · exact s.evolves_requestGenerationTransition _ _ d
  · exact s.evolves_requestGenerationTransition _ _ d
  · generalize j.invalidCacheRanges = ranges
    induction ranges generalizing s with
    | nil => exact .refl s d
    | cons I ranges ih => exact (s.evolves_requestRangeTransition _ _ true d).trans (ih _)

theorem serve_keepsHalts (j : Jit) (s : Slab C) : Slab.KeepsHalts s (j.serve s) := by
  unfold serve
  split_ifs
  · exact s.keepsHalts_requestGenerationTransition _ _
  · exact s.keepsHalts_requestGenerationTransition _ _
  · generalize j.invalidCacheRanges = ranges
    induction ranges generalizing s with
    | nil => exact .of_eq rfl
    | cons I ranges ih => exact (s.keepsHalts_requestRangeTransition _ _ true).trans (ih _)

end Jit

namespace World

/-- The block of `d` is gone, or the slab or the `Jit` has it down for removal. -/
def Owed (w : World C) (id : ℕ) (d : LocationDescriptor) : Prop :=
  w.slab.Doomed d ∨ (w.jit id).Owes w.slab.cache d

def Raised (w : World C) : Prop :=
  ∀ id, ¬(w.jit id).Idle → (w.slab.haltReason id).has HaltReason.cacheInvalidation = true

def Resting (w : World C) (id : ℕ) : Prop :=
  (w.jit id).isExecuting = false → (w.jit id).invalidateEntireCache = true →
    (w.jit id).recycleNativeSlab = false

/-- `w'` comes after `w`; at most the block of `fresh` was installed in between,
and no `Jit` began to execute. -/
structure Advances (w w' : World C) (fresh : Option LocationDescriptor) : Prop where
  evolves : ∀ d, fresh ≠ some d → Slab.Evolves w.slab w'.slab d
  owed : ∀ d, fresh ≠ some d → ∀ id, w.Owed id d → w'.Owed id d
  raised : w.Raised → w'.Raised
  resting : ∀ id, w.Resting id → w'.Resting id
  executing : ∀ id, (w'.jit id).isExecuting = true → (w.jit id).isExecuting = true

theorem Advances.refl (w : World C) : Advances w w none :=
  ⟨fun d _ => .refl _ d, fun _ _ _ => id, id, fun _ => id, fun _ => id⟩

variable {w w' : World C} {fresh : Option LocationDescriptor} {id generation : ℕ}
  {result : Option BlockDescriptor}

theorem Advances.trans {w'' : World C} (h : Advances w w' none) (h' : Advances w' w'' fresh) :
    Advances w w'' fresh where
  evolves d hd := (h.evolves d (by simp)).trans (h'.evolves d hd)
  owed d hd id := h'.owed d hd id ∘ h.owed d (by simp) id
  raised := h'.raised ∘ h.raised
  resting id := h'.resting id ∘ h.resting id
  executing id := h.executing id ∘ h'.executing id

theorem Advances.trans_none {w'' : World C} (h : Advances w w' fresh) (h' : Advances w' w'' none) :
    Advances w w'' fresh where
  evolves d hd := (h.evolves d hd).trans (h'.evolves d (by simp))
  owed d hd id := h'.owed d (by simp) id ∘ h.owed d hd id
  raised := h'.raised ∘ h.raised
  resting id := h'.resting id ∘ h.resting id
  executing id := h.executing id ∘ h'.executing id

theorem owed_of_evolves {t : Slab C} {d : LocationDescriptor} (h : Slab.Evolves w.slab t d)
    (howed : w.Owed id d) :
    t.Doomed d ∨ (w.jit id).Owes t.cache d := by
  rcases howed with hdoomed | hentire | ⟨a, ha, hreg⟩
  · exact .inl (h.doomed hdoomed)
  · exact .inr (.inl hentire)
  · by_cases hp : t.Present d
    · exact .inr (.inr ⟨a, ha, (h.registered hp a).mpr hreg⟩)
    · exact .inl (.inl hp)

theorem advances_slab {t : Slab C} (hevolves : ∀ d, fresh ≠ some d → Slab.Evolves w.slab t d)
    (hhalts : Slab.KeepsHalts w.slab t) : Advances w { w with slab := t } fresh where
  evolves := hevolves
  owed d hd _ := owed_of_evolves (hevolves d hd)
  raised h id hid := hhalts id (h id hid)
  resting _ := id
  executing _ := id

/-! ### One lemma for each operation -/

@[simp] theorem clearHalt_jit (w : World C) (id : ℕ) (hr : HaltReason) :
    (w.clearHalt id hr).jit = w.jit := rfl

theorem evolves_setHalt (w : World C) (id : ℕ) (hr : HaltReason) (d : LocationDescriptor) :
    Slab.Evolves w.slab (w.setHalt id hr).slab d :=
  .of_same d rfl rfl rfl rfl rfl

theorem setHalt_other {other : ℕ} (hr : HaltReason) (h : other ≠ id) :
    (w.setHalt id hr).slab.haltReason other = w.slab.haltReason other :=
  Function.update_of_ne h _ _

@[simp] theorem setHalt_self (w : World C) (id : ℕ) (hr : HaltReason) :
    (w.setHalt id hr).slab.haltReason id = hr :=
  Function.update_self id _ _

theorem advances_haltExecution (w : World C) (id : ℕ) (hr : HaltReason) :
    Advances w (w.haltExecution id hr) none := by
  have hhalts : Slab.KeepsHalts w.slab (w.haltExecution id hr).slab := by
    intro other hother
    by_cases h : other = id
    · subst h
      rw [haltExecution, setHalt_self]
      exact HaltReason.has_or_left hr hother
    · rwa [haltExecution, setHalt_other _ h]
  exact advances_slab (fun d _ => w.evolves_setHalt id _ d) hhalts

theorem advances_setHalt (hr : HaltReason) (hidle : (w.jit id).Idle) :
    Advances w (w.setHalt id hr) none := by
  refine ⟨fun d _ => w.evolves_setHalt id hr d,
    fun d _ other => owed_of_evolves (w.evolves_setHalt id hr d),
    fun h other hpending => ?_, fun _ h => h, fun _ h => h⟩
  by_cases h' : other = id
  · exact absurd (h' ▸ hidle) hpending
  · rw [setHalt_other hr h']
    exact h other hpending

def serveAs (w : World C) (id : ℕ) (j : Jit) (s : Slab C) : World C :=
  (setJit { w with slab := j.serve s } id j.served).clearHalt id HaltReason.cacheInvalidation

/-- The requests of the executor become requests of the slab, provided no range
is dropped for a recycle. -/
theorem advances_serveAs {j : Jit} {s : Slab C} (hslab : ∀ d, Slab.Evolves w.slab s d)
    (hhalts : ∀ other, other ≠ id → s.haltReason other = w.slab.haltReason other)
    (hexecuting : j.isExecuting = (w.jit id).isExecuting)
    (howes : ∀ d, w.Owed id d → s.Doomed d ∨ j.Owes s.cache d) (hdrop : ¬j.DropsRanges) :
    Advances w (w.serveAs id j s) none := by
  have hserve : ∀ d, Slab.Evolves w.slab (j.serve s) d := fun d =>
    (hslab d).trans (j.serve_evolves s d)
  have hself : (w.serveAs id j s).jit id = j.served := setJit_self _ id _
  have hother : ∀ {other}, other ≠ id → (w.serveAs id j s).jit other = w.jit other :=
    fun h => setJit_other _ _ h
  refine ⟨fun d _ => (hserve d).trans (.of_same d rfl rfl rfl rfl rfl),
    fun d _ other howed => ?_, fun h other hpending => ?_, fun other => ?_, fun other => ?_⟩
  · by_cases h : other = id
    · subst h
      exact .inl ((howes d howed).elim (j.serve_evolves s d).doomed (Jit.serve_of_owes hdrop))
    · refine (owed_of_evolves (hserve d) howed).imp (fun hdoomed => hdoomed) fun howes => ?_
      rw [hother h]
      exact howes
  · by_cases h' : other = id
    · subst h'
      rw [hself] at hpending
      exact absurd ⟨rfl, rfl⟩ hpending
    · rw [hother h'] at hpending
      rw [serveAs, clearHalt, setHalt_other _ h']
      refine Jit.serve_keepsHalts j s other ?_
      rw [hhalts other h']
      exact h other hpending
  · by_cases h : other = id
    · subst h
      simp [Resting, hself, Jit.served]
    · rw [Resting, Resting, hother h]
      exact fun h => h
  · by_cases h : other = id
    · subst h
      simp [hself, Jit.served, hexecuting]
    · rw [hother h]
      exact fun h => h

theorem perform_setJit {j : Jit} {hr : HaltReason}
    (hbit : hr.has HaltReason.cacheInvalidation = true) (hpending : ¬j.Idle) :
    (w.setJit id j).perform id hr =
      w.serveAs id j (w.clearHalt id HaltReason.cacheInvalidation).slab := by
  rw [perform_of_pending hbit (by rwa [setJit_self]), setJit_self]
  simp [serveAs, setJit, clearHalt, setHalt]

theorem advances_perform (hr : HaltReason) (hdrop : ¬(w.jit id).DropsRanges) :
    Advances w (w.perform id hr) none := by
  by_cases hbit : hr.has HaltReason.cacheInvalidation = true
  swap
  · rw [perform, if_neg hbit]
    exact .refl w
  have hslab := fun d => w.evolves_setHalt id
      (w.slab.haltReason id &&& ~~~HaltReason.cacheInvalidation) d
  by_cases hidle : (w.jit id).Idle
  · rw [perform_of_idle hbit hidle]
    exact advances_setHalt _ hidle
  · have hperform : w.perform id hr = w.serveAs id (w.jit id)
        (w.clearHalt id HaltReason.cacheInvalidation).slab := by
      rw [perform_of_pending hbit hidle]
      rfl
    rw [hperform]
    exact advances_serveAs hslab (fun _ h => setHalt_other _ h) rfl
      (fun d => owed_of_evolves (hslab d)) hdrop

theorem idle_perform {hr : HaltReason}
    (hbit : ¬(w.jit id).Idle → hr.has HaltReason.cacheInvalidation = true) :
    ((w.perform id hr).jit id).Idle := by
  by_cases hidle : (w.jit id).Idle
  · by_cases hhr : hr.has HaltReason.cacheInvalidation = true
    · rw [perform_of_idle hhr hidle]
      exact hidle
    · rw [perform, if_neg hhr]
      exact hidle
  · rw [perform_of_pending (hbit hidle) hidle]
    simp [Jit.served, Jit.Idle]

theorem advances_request {r : Request}
    (h : (w.jit id).isExecuting = true ∨ r ≠ .requestCapacityRecycle) :
    Advances w (w.request id r) none := by
  have hself : (w.request id r).jit id = (w.jit id).note r := setJit_self _ id _
  have hother : ∀ {other}, other ≠ id → (w.request id r).jit other = w.jit other :=
    fun h => setJit_other _ _ h
  have hhalt := (w.advances_haltExecution id HaltReason.cacheInvalidation)
  refine ⟨hhalt.evolves, fun d hd other howed => ?_, fun hraised other hpending => ?_,
    fun other hrest => ?_, fun other => ?_⟩
  · refine (owed_of_evolves (hhalt.evolves d hd) howed).imp (fun hdoomed => hdoomed)
      fun howes => ?_
    by_cases h : other = id
    · subst h
      rw [hself]
      exact Jit.owes_note r howes
    · rw [hother h]
      exact howes
  · by_cases h : other = id
    · subst h
      simp [request, haltExecution]
    · rw [hother h] at hpending
      rw [request, haltExecution, setHalt_other _ h]
      exact hraised other hpending
  · by_cases h' : other = id
    · subst h'
      intro hidle hentire
      rw [hself] at hidle hentire ⊢
      rw [Jit.note_isExecuting] at hidle
      exact Jit.note_recycle (h.resolve_left (by simp [hidle])) (hrest hidle) hentire
    · rwa [Resting, hother h']
  · by_cases h : other = id
    · subst h
      rw [hself, Jit.note_isExecuting]
      exact fun h => h
    · rw [hother h]
      exact fun h => h

theorem advances_requestEntire {r : Request} (hpending : ¬((w.jit id).note r).Idle)
    (hdrop : (w.jit id).isExecuting = false → ¬((w.jit id).note r).DropsRanges) :
    Advances w (w.requestEntire id r) none := by
  have hself : (w.request id r).jit id = (w.jit id).note r := setJit_self _ id _
  unfold requestEntire
  simp only [hself, Jit.note_isExecuting]
  split_ifs with h
  · exact advances_request (.inl h)
  · -- outside of execution the request is passed on in the same breath
    have hrequest : w.request id r =
        (w.haltExecution id HaltReason.cacheInvalidation).setJit id ((w.jit id).note r) := rfl
    have hhalt := w.advances_haltExecution id HaltReason.cacheInvalidation
    have hslab : ∀ d, Slab.Evolves (w.haltExecution id HaltReason.cacheInvalidation).slab
        ((w.haltExecution id HaltReason.cacheInvalidation).clearHalt id
          HaltReason.cacheInvalidation).slab d := fun d => evolves_setHalt _ id _ d
    rw [hrequest, perform_setJit (by decide) hpending]
    refine hhalt.trans (advances_serveAs hslab (fun _ h => setHalt_other _ h)
      (Jit.note_isExecuting _ _) (fun d howed => ?_) (hdrop (by simpa using h)))
    exact (owed_of_evolves (hslab d) howed).imp (fun hdoomed => hdoomed) (Jit.owes_note r)

theorem advances_requestCapacityRecycle (h : (w.jit id).isExecuting = true ∨ (w.jit id).Idle) :
    Advances w (w.requestCapacityRecycle id) none := by
  refine advances_requestEntire (by simp [Jit.note, Jit.noteEntire, Jit.Idle]) fun hrest => ?_
  have hidle := h.resolve_left (by simp [hrest])
  rintro ⟨-, -, hranges⟩
  exact hranges hidle.2

theorem advances_abandonPortableEmit (w : World C) (id : ℕ) :
    Advances w (w.abandonPortableEmit id) none :=
  advances_requestEntire (by simp [Jit.note, Jit.noteEntire, Jit.Idle])
    fun _ h => by simp [Jit.DropsRanges, Jit.note, Jit.noteEntire] at h

theorem advances_findBlock (w : World C) (d : LocationDescriptor) (generation : ℕ) :
    Advances w { w with slab := (w.slab.findBlock d generation).2 } none :=
  advances_slab (fun e _ => w.slab.evolves_findBlock d generation e)
    (.of_eq (w.slab.findBlock_haltReason d generation))

theorem advances_emit {block : Block S} {executing : Bool} {t : Slab C}
    (h : w.slab.emit block generation executing = some (result, t)) :
    Advances w { w with slab := t } (installed block.location result) :=
  advances_slab (fun _ hd => Slab.evolves_emit h fun hnew heq => hd (by simp [installed, hnew, heq]))
    (.of_eq (Slab.emit_haltReason h))

/-- A lookup installs at most the block it was asked for. -/
theorem advances_getBasicBlock {d : LocationDescriptor} {supply : Supply S}
    (hready : (w.jit id).isExecuting = true ∨ (w.jit id).Idle)
    (h : w.getBasicBlock id d generation supply = some (result, w')) :
    Advances w w' (installed d result) := by
  have hfind := w.advances_findBlock d generation
  have hmade := fun b => w.slab.findBlock_not_newlyEmitted d generation b
  unfold getBasicBlock at h
  split at h
  · rename_i block slab hblock
    rw [hblock] at hfind hmade
    simp only [Option.some.injEq, Prod.mk.injEq] at h
    obtain ⟨rfl, rfl⟩ := h
    simpa [installed, hmade block rfl] using hfind
  · rename_i slab hblock
    rw [hblock] at hfind
    simp only at h
    split at h
    · simp only [Option.some.injEq, Prod.mk.injEq] at h
      obtain ⟨rfl, rfl⟩ := h
      exact hfind.trans (advances_requestCapacityRecycle hready)
    · split at h
      · split at h
        · simp only [Option.some.injEq, Prod.mk.injEq] at h
          obtain ⟨rfl, rfl⟩ := h
          exact hfind.trans (advances_abandonPortableEmit _ id)
        · split at h
          · cases h
          · rename_i hemit
            simp only [Option.some.injEq, Prod.mk.injEq] at h
            obtain ⟨rfl, rfl⟩ := h
            exact (hfind.trans (advances_emit (w := { w with slab }) hemit)).trans_none
              (advances_abandonPortableEmit _ id)
          · rename_i hemit
            simp only [Option.some.injEq, Prod.mk.injEq] at h
            obtain ⟨rfl, rfl⟩ := h
            exact hfind.trans (advances_emit (w := { w with slab }) hemit)
      · split at h
        · cases h
        · split at h
          · cases h
          · rename_i hemit
            simp only [Option.some.injEq, Prod.mk.injEq] at h
            obtain ⟨rfl, rfl⟩ := h
            exact hfind.trans (advances_emit (w := { w with slab }) hemit)

theorem not_dropsRanges_of_resting (h : w.Resting id) (hidle : (w.jit id).isExecuting = false) :
    ¬(w.jit id).DropsRanges := by
  rintro ⟨hentire, hrecycle, -⟩
  simp [h hidle hentire] at hrecycle

theorem advances_precompile {d : LocationDescriptor} {supply : Supply S} (hraised : w.Raised)
    (hresting : w.Resting id) (h : w.precompile id d supply = some (result, w')) :
    Advances w w' (installed d result) := by
  unfold precompile at h
  split at h
  · cases h
  · rename_i hidle
    simp only at h
    split at h
    · cases h
    · exact (advances_perform _ (not_dropsRanges_of_resting hresting (by simpa using hidle))).trans
        (advances_getBasicBlock (.inr (idle_perform (hraised id))) h)

theorem advances_makeRoom {generation' : ℕ} (hidle : (w.jit id).Idle)
    (h : w.makeRoom id generation = some (generation', w')) :
    Advances w w' none := by
  unfold makeRoom at h
  split at h
  · simp only [Option.map_eq_some_iff, Prod.mk.injEq] at h
    obtain ⟨_, -, -, rfl⟩ := h
    have hslab := fun d => w.evolves_setHalt id
      (w.slab.haltReason id &&& ~~~HaltReason.cacheInvalidation) d
    rw [perform_setJit (by decide) (by simp [Jit.notePrecompileRecycle, Jit.Idle])]
    refine advances_serveAs hslab (fun _ h => setHalt_other _ h) rfl (fun d howed => ?_) ?_
    · exact .inl ((hslab d).doomed (howed.resolve_right (Jit.not_owes_of_idle hidle _ d)))
    · rintro ⟨-, -, hranges⟩
      exact hranges hidle.2
  · obtain ⟨-, rfl⟩ : _ ∧ w = w' := by simpa using h
    exact .refl w

theorem advances_precompileWithResult {block : Block S} {emittable commits : Bool}
    (hraised : w.Raised) (hresting : w.Resting id)
    (h : w.precompileWithResult id block emittable commits = some (result, w')) :
    Advances w w' (installed block.location result) := by
  unfold precompileWithResult at h
  split at h
  · cases h
  · rename_i hidle
    have hperform := advances_perform (w.slab.haltReason id)
      (not_dropsRanges_of_resting hresting (by simpa using hidle))
    have hnoted := idle_perform (hraised id)
    simp only at h
    generalize w.perform id (w.slab.haltReason id) = v at hperform hnoted h
    refine hperform.trans ?_
    split at h
    · simp only [Option.some.injEq, Prod.mk.injEq] at h
      obtain ⟨rfl, rfl⟩ := h
      exact advances_abandonPortableEmit v id
    · split at h
      · cases h
      · rename_i generation _
        have hfind := v.advances_findBlock block.location generation
        have hmade := fun b => v.slab.findBlock_not_newlyEmitted block.location generation b
        split at h
        · rename_i present slab hblock
          rw [hblock] at hfind hmade
          simp only [Option.some.injEq, Prod.mk.injEq] at h
          obtain ⟨rfl, rfl⟩ := h
          simpa [installed, hmade present rfl] using hfind
        · rename_i slab hblock
          rw [hblock] at hfind
          split at h
          · cases h
          · rename_i u hroom
            have hroom := hfind.trans (advances_makeRoom hnoted hroom)
            refine hroom.trans ?_
            split at h
            · simp only [Option.some.injEq, Prod.mk.injEq] at h
              obtain ⟨rfl, rfl⟩ := h
              exact advances_abandonPortableEmit u id
            · split at h
              · cases h
              · rename_i hemit
                simp only [Option.some.injEq, Prod.mk.injEq] at h
                obtain ⟨rfl, rfl⟩ := h
                exact (advances_emit hemit).trans_none (advances_abandonPortableEmit _ id)
              · rename_i hemit
                simp only [Option.some.injEq, Prod.mk.injEq] at h
                obtain ⟨rfl, rfl⟩ := h
                exact advances_emit hemit

theorem advances_stopExecuting (hidle : (w.jit id).Idle) :
    Advances w (w.setJit id { w.jit id with isExecuting := false, activeGeneration := 0 })
      none := by
  refine ⟨fun d _ => .refl _ d, fun d _ other howed => ?_, fun h other hpending => ?_,
    fun other => ?_, fun other => ?_⟩
  all_goals by_cases h' : other = id
  · subst h'
    exact .inl (howed.resolve_right (Jit.not_owes_of_idle hidle _ d))
  · rwa [Owed, setJit_other _ _ h']
  · subst h'
    rw [setJit_self] at hpending
    exact absurd hidle hpending
  · rw [setJit_other _ _ h'] at hpending
    exact h other hpending
  · subst h'
    simp [Resting, hidle.1]
  · exact fun h => by rwa [Resting, setJit_other _ _ h']
  · subst h'
    simp
  · rw [setJit_other _ _ h']
    exact fun h => h

/-- Leaving execution serves what was noted, unless a recycle drops a range noted beside it. -/
theorem advances_leave (hraised : w.Raised) (hdrop : ¬(w.jit id).DropsRanges)
    (h : w.leave id = some w') : Advances w w' none := by
  unfold leave at h
  split at h
  · cases h
  · -- the halt word is handed over as a whole, then served
    have hperform : Advances w ((w.setHalt id 0#32).perform id (w.slab.haltReason id)) none := by
      by_cases hidle : (w.jit id).Idle
      · exact (advances_setHalt 0#32 hidle).trans (advances_perform _ hdrop)
      · rw [perform_of_pending (w := w.setHalt id 0#32) (hraised id hidle) hidle]
        have hslab : ∀ d, Slab.Evolves w.slab ((w.setHalt id 0#32).clearHalt id
            HaltReason.cacheInvalidation).slab d := fun d => .of_same d rfl rfl rfl rfl rfl
        exact advances_serveAs hslab
          (fun other h => (setHalt_other _ h).trans (setHalt_other _ h)) rfl
          (fun d => owed_of_evolves (hslab d)) hdrop
    have hnoted : (((w.setHalt id 0#32).perform id (w.slab.haltReason id)).jit id).Idle :=
      idle_perform (hraised id)
    simp only at h
    generalize (w.setHalt id 0#32).perform id (w.slab.haltReason id) = v at hperform hnoted h
    split at h
    · cases h
    · rename_i t hleave
      simp only [Option.some.injEq] at h
      obtain rfl := h
      refine (hperform.trans (advances_stopExecuting hnoted)).trans ?_
      exact advances_slab (fun d _ => Slab.evolves_leaveExecution hleave d)
        (.of_eq (Slab.leaveExecution_haltReason hleave))

end World

end Umbra.A32
