import Umbra.Arm64.AddressSpace
import Umbra.Backend.SlabSpec

/-!
Cache invalidation requests of the A32 `Jit`.

A `Jit` does not drop code when it is asked to: it notes the request in three
fields of its own, raises the cache-invalidation bit of its halt word and
passes the request to the slab at the next boundary between guest execution and
host (`PerformRequestedCacheInvalidation`).  Any number of `Jit`s may share one
slab; a `World` is the slab together with the fields of all of them.
-/

namespace Umbra.A32

open Umbra.Lib Umbra.IR Umbra.Backend CodeCache

variable {C S : Type} [CodeCache C S]

/-- The fields of a `Jit` that take part in cache invalidation. -/
structure Jit where
  isExecuting : Bool
  activeGeneration : ℕ
  invalidateEntireCache : Bool
  recycleNativeSlab : Bool
  invalidCacheRanges : IntervalSet
  ranges_lt : ∀ I ∈ invalidCacheRanges, I.hi < 2 ^ 32

namespace Jit

def initial : Jit := ⟨false, 0, false, false, [], by simp⟩

def Idle (j : Jit) : Prop := j.invalidateEntireCache = false ∧ j.invalidCacheRanges = []

instance (j : Jit) : Decidable j.Idle := inferInstanceAs (Decidable (_ ∧ _))

end Jit

theorem le_inclusiveRangeEnd (start : UInt32) (length : ℕ) :
    start.toNat ≤ Slab.inclusiveRangeEnd start.toNat length := by
  have := start.toNat_lt
  unfold Slab.inclusiveRangeEnd Slab.maxAddress
  split <;> omega

theorem inclusiveRangeEnd_lt (start : UInt32) (length : ℕ) :
    Slab.inclusiveRangeEnd start.toNat length < 2 ^ 32 := by
  have := start.toNat_lt
  unfold Slab.inclusiveRangeEnd Slab.maxAddress
  split <;> omega

def requestedInterval (start : UInt32) (length : ℕ) : Interval :=
  ⟨start.toNat, Slab.inclusiveRangeEnd start.toNat length, le_inclusiveRangeEnd start length⟩

theorem mem_requestedInterval (start : UInt32) {length : ℕ} (hlength : length ≠ 0) (a : ℕ) :
    a ∈ requestedInterval start length ↔
      start.toNat ≤ a ∧ a < start.toNat + length ∧ a < 2 ^ 32 := by
  have := start.toNat_lt
  change start.toNat ≤ a ∧ a ≤ Slab.inclusiveRangeEnd start.toNat length ↔ _
  unfold Slab.inclusiveRangeEnd Slab.maxAddress
  split <;> omega

/-- A request a `Jit` may have to note.  The first two are public, the others
come from a code cache that runs short and from an artifact that cannot be
emitted. -/
inductive Request
  | invalidateCacheRange (startAddress : UInt32) (length : ℕ)
  | clearCache
  | requestCapacityRecycle
  | abandonPortableEmit
deriving DecidableEq

namespace Jit

def noteEntire (j : Jit) (recycleSegment : Bool) : Jit :=
  { j with
    recycleNativeSlab :=
      if j.invalidateEntireCache then j.recycleNativeSlab && recycleSegment else recycleSegment
    invalidateEntireCache := true }

def note (j : Jit) : Request → Jit
  | .invalidateCacheRange start length =>
      if length = 0 then j
      else
        { j with
          invalidCacheRanges := j.invalidCacheRanges.add (requestedInterval start length)
          ranges_lt := IntervalSet.hi_lt_of_mem_add j.ranges_lt
            (inclusiveRangeEnd_lt start length) }
  | .clearCache => { j with recycleNativeSlab := false, invalidateEntireCache := true }
  | .requestCapacityRecycle => j.noteEntire true
  | .abandonPortableEmit => j.noteEntire false

/-- The assignments `PrecompileWithResult` makes when the code cache runs short. -/
def notePrecompileRecycle (j : Jit) : Jit :=
  { j with recycleNativeSlab := true, invalidateEntireCache := true }

/-- What `PerformRequestedCacheInvalidation` asks of the slab. -/
def serve (j : Jit) (s : Slab C) : Slab C :=
  if j.invalidateEntireCache then
    if j.recycleNativeSlab then s.recycleCache else s.clearCache
  else
    j.invalidCacheRanges.foldl (fun s range => s.invalidateCacheRange range.lo
      (range.hi - range.lo + 1)) s

def served (j : Jit) : Jit :=
  { j with
    invalidCacheRanges := []
    invalidateEntireCache := false
    recycleNativeSlab := false
    ranges_lt := by simp }

end Jit

/-- A slab and the `Jit`s that use it, by the names of their states. -/
structure World (C : Type) where
  slab : Slab C
  jit : ℕ → Jit

namespace World

def setJit (w : World C) (id : ℕ) (j : Jit) : World C :=
  { w with jit := Function.update w.jit id j }

@[simp] theorem setJit_self (w : World C) (id : ℕ) (j : Jit) : (w.setJit id j).jit id = j := by
  simp [setJit]

theorem setJit_other (w : World C) {id other : ℕ} (j : Jit) (h : other ≠ id) :
    (w.setJit id j).jit other = w.jit other := by
  simp [setJit, h]

@[simp] theorem setJit_slab (w : World C) (id : ℕ) (j : Jit) : (w.setJit id j).slab = w.slab :=
  rfl

def setHalt (w : World C) (id : ℕ) (hr : HaltReason) : World C :=
  { w with slab := { w.slab with haltReason := Function.update w.slab.haltReason id hr } }

def haltExecution (w : World C) (id : ℕ) (hr : HaltReason) : World C :=
  w.setHalt id (w.slab.haltReason id ||| hr)

def clearHalt (w : World C) (id : ℕ) (hr : HaltReason) : World C :=
  w.setHalt id (w.slab.haltReason id &&& ~~~hr)

/-- `PerformRequestedCacheInvalidation`. -/
def perform (w : World C) (id : ℕ) (hr : HaltReason) : World C :=
  if hr.has HaltReason.cacheInvalidation then
    let w := w.clearHalt id HaltReason.cacheInvalidation
    let j := w.jit id
    if j.Idle then w
    else
      let w := { w with slab := j.serve w.slab }
      (w.setJit id j.served).clearHalt id HaltReason.cacheInvalidation
  else w

/-- Note a request and raise the halt bit: all that `ClearCache` and
`InvalidateCacheRange` do. -/
def request (w : World C) (id : ℕ) (r : Request) : World C :=
  (w.setJit id ((w.jit id).note r)).haltExecution id HaltReason.cacheInvalidation

def clearCache (w : World C) (id : ℕ) : World C := w.request id .clearCache

def invalidateCacheRange (w : World C) (id : ℕ) (start : UInt32) (length : ℕ) : World C :=
  if length = 0 then w else w.request id (.invalidateCacheRange start length)

/-- `request_entire_cache_invalidation` for one of its two callers: outside of
execution the request is passed on at once. -/
def requestEntire (w : World C) (id : ℕ) (r : Request) : World C :=
  let w := w.request id r
  if (w.jit id).isExecuting then w else w.perform id HaltReason.cacheInvalidation

def requestCapacityRecycle (w : World C) (id : ℕ) : World C :=
  w.requestEntire id .requestCapacityRecycle

def abandonPortableEmit (w : World C) (id : ℕ) : World C :=
  w.requestEntire id .abandonPortableEmit

end World

/-! ### What a list of requests leaves in the fields -/

namespace Jit

def noteAll (j : Jit) (rs : List Request) (precompile : Bool) : Jit :=
  let j := rs.foldl note j
  if precompile then j.notePrecompileRecycle else j

/-- The ranges noted are those requested, whatever else was requested in between. -/
theorem foldl_note_ranges {j : Jit} (rs : List Request) (a : ℕ) :
    (rs.foldl note j).invalidCacheRanges.Covers a ↔ j.invalidCacheRanges.Covers a ∨
      ∃ start length, .invalidateCacheRange start length ∈ rs ∧
        start.toNat ≤ a ∧ a < start.toNat + length ∧ a < 2 ^ 32 := by
  induction rs generalizing j with
  | nil => simp
  | cons r rs ih =>
      rw [List.foldl_cons, ih]
      cases r with
      | invalidateCacheRange start length =>
          by_cases hlength : length = 0
          · subst hlength
            simp only [note, ↓reduceIte, List.mem_cons, Request.invalidateCacheRange.injEq]
            refine or_congr_right (exists_congr fun s => exists_congr fun l => ?_)
            constructor
            · exact fun h => ⟨.inr h.1, h.2⟩
            · rintro ⟨⟨rfl, rfl⟩ | h, h'⟩
              · omega
              · exact ⟨h, h'⟩
          · simp only [note, hlength, ↓reduceIte, IntervalSet.covers_add,
              mem_requestedInterval start hlength, List.mem_cons,
              Request.invalidateCacheRange.injEq]
            constructor
            · rintro ((h | h) | ⟨s, l, h, h'⟩)
              · exact .inr ⟨start, length, .inl ⟨rfl, rfl⟩, h⟩
              · exact .inl h
              · exact .inr ⟨s, l, .inr h, h'⟩
            · rintro (h | ⟨s, l, ⟨rfl, rfl⟩ | h, h'⟩)
              · exact .inl (.inr h)
              · exact .inl (.inl h')
              · exact .inr ⟨s, l, h, h'⟩
      | clearCache => simp [note]
      | requestCapacityRecycle => simp [note, noteEntire]
      | abandonPortableEmit => simp [note, noteEntire]

theorem note_range_eq (j : Jit) (start : UInt32) (length : ℕ) : ∃ ranges hlt,
    j.note (.invalidateCacheRange start length) =
      { j with invalidCacheRanges := ranges, ranges_lt := hlt } := by
  by_cases hlength : length = 0
  · exact ⟨_, j.ranges_lt, by simp [note, hlength]⟩
  · exact ⟨j.invalidCacheRanges.add (requestedInterval start length),
      IntervalSet.hi_lt_of_mem_add j.ranges_lt (inclusiveRangeEnd_lt start length),
      by simp only [note, hlength, ↓reduceIte]⟩

theorem foldl_note_entire {j : Jit} (rs : List Request) :
    (rs.foldl note j).invalidateEntireCache = true ↔ j.invalidateEntireCache = true ∨
      .clearCache ∈ rs ∨ .requestCapacityRecycle ∈ rs ∨ .abandonPortableEmit ∈ rs := by
  induction rs generalizing j with
  | nil => simp
  | cons r rs ih =>
      rw [List.foldl_cons, ih]
      cases r with
      | invalidateCacheRange start length =>
          obtain ⟨ranges, hlt, h⟩ := j.note_range_eq start length
          simp [h]
      | clearCache => simp [note]
      | requestCapacityRecycle => simp [note, noteEntire]
      | abandonPortableEmit => simp [note, noteEntire]

/-- A full clear survives later requests; only a list of nothing but capacity
requests (and ranges) ends in a recycle. -/
theorem foldl_note_recycle {j : Jit} (rs : List Request) :
    (rs.foldl note j).invalidateEntireCache = true →
      ((rs.foldl note j).recycleNativeSlab = true ↔
        (j.invalidateEntireCache = true → j.recycleNativeSlab = true) ∧
          .clearCache ∉ rs ∧ .abandonPortableEmit ∉ rs) := by
  induction rs generalizing j with
  | nil => simp +contextual
  | cons r rs ih =>
      intro hentire
      rw [List.foldl_cons] at hentire ⊢
      rw [ih hentire]
      cases r with
      | invalidateCacheRange start length =>
          obtain ⟨ranges, hlt, h⟩ := j.note_range_eq start length
          simp [h]
      | clearCache => simp [note]
      | requestCapacityRecycle =>
          by_cases h : j.invalidateEntireCache = true
          · simp [note, noteEntire, h]
          · simp [note, noteEntire, h]
      | abandonPortableEmit => simp [note, noteEntire]

end Jit

/-! ### Serving the requests -/

/-- The requests of `rs` have been served on the way from the slab `s` to `t`:
every block registered in a requested range is gone or about to go, and a
request for a full clear led to one. -/
structure Served (s t : Slab C) (rs : List Request) : Prop where
  ranges : ∀ start length, .invalidateCacheRange start length ∈ rs → ∀ d a,
    start.toNat ≤ a → a < start.toNat + length → a < 2 ^ 32 →
      s.Present d → Registered s.cache d a → t.Doomed d
  clear : .clearCache ∈ rs → Slab.FullClearRequested s t

/-- Passing ranges to the slab one by one dooms what is registered in any of
them. -/
theorem doomed_invalidateRanges {s : Slab C} {d : LocationDescriptor} {a : ℕ}
    {ranges : IntervalSet} (hlt : ∀ I ∈ ranges, I.hi < 2 ^ 32) (ha : ranges.Covers a)
    (hreg : Registered s.cache d a) :
    (ranges.foldl (fun s range => s.invalidateCacheRange range.lo
      (range.hi - range.lo + 1)) s).Doomed d := by
  have hevolves : ∀ (ranges : IntervalSet) (s : Slab C),
      Slab.Evolves s (ranges.foldl (fun s range => s.invalidateCacheRange range.lo
        (range.hi - range.lo + 1)) s) d := by
    intro ranges
    induction ranges with
    | nil => exact fun s => .refl s d
    | cons I ranges ih =>
        exact fun s => (s.evolves_requestRangeTransition _ _ true d).trans (ih _)
  induction ranges generalizing s with
  | nil => simp at ha
  | cons I ranges ih =>
      have hstep := s.evolves_requestRangeTransition I.lo (I.hi - I.lo + 1) true d
      rw [List.foldl_cons]
      rcases IntervalSet.covers_cons.mp ha with haI | ha
      · have hI := I.le
        have hIlt := hlt I (by simp)
        refine (hevolves ranges _).doomed
          (Slab.doomed_requestRangeTransition true (by omega) haI.1 ?_ hreg)
        unfold Slab.inclusiveRangeEnd Slab.maxAddress
        have := haI.2
        split <;> omega
      · by_cases hp : (s.requestRangeTransition I.lo (I.hi - I.lo + 1) true).Present d
        · exact ih (fun J hJ => hlt J (by simp [hJ])) ha ((hstep.registered hp a).mpr hreg)
        · exact (hevolves ranges _).doomed (.inl hp)

/-- The requests end in the recycling of one segment: `PrecompileWithResult`
passes them on, or they ask for capacity and for nothing stronger. -/
def EndInRecycle (rs : List Request) (precompile : Bool) : Prop :=
  precompile = true ∨
    .requestCapacityRecycle ∈ rs ∧ .clearCache ∉ rs ∧ .abandonPortableEmit ∉ rs

instance (rs : List Request) (precompile : Bool) : Decidable (EndInRecycle rs precompile) :=
  inferInstanceAs (Decidable (_ ∨ _))

theorem Jit.serve_of_recycle {j : Jit} (s : Slab C) (hentire : j.invalidateEntireCache = true)
    (hrecycle : j.recycleNativeSlab = true) : j.serve s = s.recycleCache := by
  simp [serve, hentire, hrecycle]

theorem Jit.serve_of_clear {j : Jit} (s : Slab C) (hentire : j.invalidateEntireCache = true)
    (hrecycle : j.recycleNativeSlab = false) : j.serve s = s.clearCache := by
  simp [serve, hentire, hrecycle]

/-- What passing the noted requests on does to the slab: nothing is dropped but
in a recycle, where the noted ranges are. -/
theorem Jit.serve_doomed {j : Jit} {s : Slab C} {d : LocationDescriptor} {a : ℕ}
    (hnot : ¬(j.invalidateEntireCache = true ∧ j.recycleNativeSlab = true))
    (ha : j.invalidCacheRanges.Covers a) (hreg : Registered s.cache d a) :
    (j.serve s).Doomed d := by
  by_cases hentire : j.invalidateEntireCache = true
  · rw [serve_of_clear s hentire (by simpa [hentire] using hnot)]
    exact s.doomed_clearCache d
  · rw [serve, if_neg hentire]
    exact doomed_invalidateRanges j.ranges_lt ha hreg

namespace World

theorem perform_of_idle {w : World C} {id : ℕ} {hr : HaltReason}
    (hbit : hr.has HaltReason.cacheInvalidation = true) (hidle : (w.jit id).Idle) :
    w.perform id hr = w.clearHalt id HaltReason.cacheInvalidation := by
  rw [perform, if_pos hbit]
  exact if_pos hidle

theorem perform_of_pending {w : World C} {id : ℕ} {hr : HaltReason}
    (hbit : hr.has HaltReason.cacheInvalidation = true) (hpending : ¬(w.jit id).Idle) :
    w.perform id hr =
      (({ w with slab := (w.jit id).serve (w.clearHalt id HaltReason.cacheInvalidation).slab } :
        World C).setJit id (w.jit id).served).clearHalt id HaltReason.cacheInvalidation := by
  rw [perform, if_pos hbit]
  exact if_neg hpending

end World

theorem Jit.noteAll_covers {j : Jit} (hidle : j.Idle) (rs : List Request) (precompile : Bool)
    (a : ℕ) : (j.noteAll rs precompile).invalidCacheRanges.Covers a ↔
      ∃ start length, .invalidateCacheRange start length ∈ rs ∧
        start.toNat ≤ a ∧ a < start.toNat + length ∧ a < 2 ^ 32 := by
  have hranges : (j.noteAll rs precompile).invalidCacheRanges =
      (rs.foldl note j).invalidCacheRanges := by
    unfold noteAll
    simp only
    split <;> rfl
  rw [hranges, foldl_note_ranges, hidle.2]
  simp

theorem Jit.noteAll_recycle {j : Jit} (hidle : j.Idle) (rs : List Request) (precompile : Bool) :
    ((j.noteAll rs precompile).invalidateEntireCache = true ∧
      (j.noteAll rs precompile).recycleNativeSlab = true) ↔ EndInRecycle rs precompile := by
  cases precompile with
  | true => simp [noteAll, notePrecompileRecycle, EndInRecycle]
  | false =>
      have hentire := foldl_note_entire (j := j) rs
      have hrecycle := foldl_note_recycle (j := j) rs
      simp only [hidle.1, Bool.false_eq_true, false_or, false_implies, true_and] at hentire hrecycle
      simp only [noteAll, Bool.false_eq_true, ↓reduceIte, EndInRecycle, false_or]
      constructor
      · rintro ⟨h₁, h₂⟩
        obtain ⟨hclear, habandon⟩ := (hrecycle h₁).mp h₂
        exact ⟨by have := hentire.mp h₁; tauto, hclear, habandon⟩
      · rintro ⟨hcapacity, hclear, habandon⟩
        have h₁ := hentire.mpr (.inr (.inl hcapacity))
        exact ⟨h₁, (hrecycle h₁).mpr ⟨hclear, habandon⟩⟩

/-- The recycling of one segment happens to do all the requests ask for: no full
clear is asked for that is not pending already, and every block registered in a
requested range is gone, about to go, or in the segment that is recycled now. -/
structure RecycleSuffices (s : Slab C) (rs : List Request) : Prop where
  ranges : ∀ start length, .invalidateCacheRange start length ∈ rs → ∀ d a,
    start.toNat ≤ a → a < start.toNat + length → a < 2 ^ 32 →
      s.Present d → Registered s.cache d a →
        s.Doomed d ∨ s.activeExecutions = 0 ∧ s.InVictim d
  clear : .clearCache ∈ rs → s.ClearAllPending

/-- Any requests noted since the last time are served by
`PerformRequestedCacheInvalidation`, except that a recycle replaces all of them:
then they are served exactly when the recycle suffices. -/
theorem perform_served_iff {w : World C} {id : ℕ} {j : Jit} {hr : HaltReason}
    (rs : List Request) (precompile : Bool) (hidle : j.Idle)
    (hjit : w.jit id = j.noteAll rs precompile)
    (hbit : hr.has HaltReason.cacheInvalidation = true) :
    Served w.slab (w.perform id hr).slab rs ↔
      (EndInRecycle rs precompile → RecycleSuffices w.slab rs) := by
  have hcovers := Jit.noteAll_covers hidle rs precompile
  have hrecycle := Jit.noteAll_recycle hidle rs precompile
  rw [← hjit] at hcovers hrecycle
  -- the halt word apart, the slab is the one that served the requests
  let t := (w.clearHalt id HaltReason.cacheInvalidation).slab
  have hvictim : ∀ d, t.InVictim d ↔ w.slab.InVictim d :=
    fun d => Slab.inVictim_congr d rfl rfl rfl rfl
  by_cases hend : EndInRecycle rs precompile
  · obtain ⟨hentire, hrec⟩ := hrecycle.mpr hend
    have hpending : ¬(w.jit id).Idle := fun h => by simp [h.1] at hentire
    rw [World.perform_of_pending hbit hpending, Jit.serve_of_recycle _ hentire hrec]
    have hdoomed : ∀ d, t.recycleCache.Doomed d ↔
        w.slab.Doomed d ∨ w.slab.activeExecutions = 0 ∧ w.slab.InVictim d := fun d =>
      Slab.doomed_recycleCache.trans (or_congr Iff.rfl (and_congr Iff.rfl (hvictim d)))
    have hclear : Slab.FullClearRequested w.slab t.recycleCache ↔ w.slab.ClearAllPending :=
      Slab.fullClearRequested_recycleCache (s := t)
    constructor
    · intro h _
      refine ⟨fun start length hmem d a h₁ h₂ h₃ hp hreg => ?_, fun hmem => ?_⟩
      · exact (hdoomed d).mp (h.ranges start length hmem d a h₁ h₂ h₃ hp hreg)
      · exact hclear.mp (h.clear hmem)
    · intro h
      refine ⟨fun start length hmem d a h₁ h₂ h₃ hp hreg => ?_, fun hmem => ?_⟩
      · exact (hdoomed d).mpr ((h hend).ranges start length hmem d a h₁ h₂ h₃ hp hreg)
      · exact hclear.mpr ((h hend).clear hmem)
  · refine iff_of_true ?_ fun h => absurd h hend
    refine ⟨fun start length hmem d a h₁ h₂ h₃ _ hreg => ?_, fun hmem => ?_⟩
    · have ha := (hcovers a).mpr ⟨start, length, hmem, h₁, h₂, h₃⟩
      have hpending : ¬(w.jit id).Idle := fun h => by simp [h.2] at ha
      rw [World.perform_of_pending hbit hpending]
      exact Jit.serve_doomed (s := t) (fun h => hend (hrecycle.mp h)) ha hreg
    · -- a full clear is asked for, so the requests do not come from a precompilation
      obtain rfl : precompile = false := by
        simpa using fun h : precompile = true => hend (.inl h)
      have hentire : (w.jit id).invalidateEntireCache = true := by
        rw [hjit]
        exact (Jit.foldl_note_entire rs).mpr (.inr (.inl hmem))
      have hpending : ¬(w.jit id).Idle := fun h => by simp [h.1] at hentire
      have hclear : (w.jit id).recycleNativeSlab = false := by
        simpa [hentire] using mt hrecycle.mp hend
      rw [World.perform_of_pending hbit hpending, Jit.serve_of_clear _ hentire hclear]
      exact t.fullClearRequested_clearCache

def runningSlab : Slab Arm64.AddressSpace :=
  let space := Arm64.AddressSpace.empty (64 * 1024 * 1024) 0x11000
  let s := (Slab.create space 0x11000 (64 * 1024 * 1024 - 0x1000) false).registerExecutor 0
  match s.emit ⟨0x1000, Interval.closed 0x1000 0x1003, 64, []⟩ 1 false with
  | none => s
  | some (_, s) => ((s.enterExecution 0).map (·.2)).getD s

/-- The fields of a `Jit` whose callback invalidated the four bytes at `0x1000`
before the code cache ran short. -/
def rangeThenCapacity : List Request :=
  [.invalidateCacheRange 0x1000 4, .requestCapacityRecycle]

/-- With a range and a capacity request noted, the range is dropped: the block
stays and nothing pending will remove it. -/
theorem recycle_drops_range :
    ¬∀ (w : World Arm64.AddressSpace) (id : ℕ) (j : Jit) (rs : List Request)
      (precompile : Bool) (hr : HaltReason), j.Idle → w.jit id = j.noteAll rs precompile →
        hr.has HaltReason.cacheInvalidation = true →
          Served w.slab (w.perform id hr).slab rs := by
  intro h
  have hserved := h ⟨runningSlab, fun _ => Jit.initial.noteAll rangeThenCapacity false⟩ 0
    Jit.initial rangeThenCapacity false HaltReason.cacheInvalidation ⟨rfl, rfl⟩ rfl rfl
  have hreg : runningSlab.cache.blockRanges.Registered 0x1000 0x1000 := by decide
  rcases hserved.ranges 0x1000 4 (by decide) 0x1000 0x1000 (by decide) (by decide) (by decide)
    (by decide) hreg with hgone | ⟨-, hkind⟩ | ⟨a, ha, -⟩
  · exact hgone (by decide)
  · exact absurd hkind (by decide)
  · exact absurd ha (by
      rw [show ((World.perform _ _ _ : World Arm64.AddressSpace)).slab.pendingRanges = [] from rfl]
      simp)

/-- A range request on its own is served. -/
theorem perform_served_iff_range :
    Served runningSlab
      (World.perform ⟨runningSlab, fun _ => Jit.initial.noteAll
        [.invalidateCacheRange 0x1000 4] false⟩ 0 HaltReason.cacheInvalidation).slab
      [.invalidateCacheRange 0x1000 4] :=
  (perform_served_iff (w := ⟨runningSlab, fun _ => Jit.initial.noteAll
    [.invalidateCacheRange 0x1000 4] false⟩) (j := Jit.initial)
    [.invalidateCacheRange 0x1000 4] false ⟨rfl, rfl⟩ rfl rfl).mpr
    fun h => absurd h (by decide)

end Umbra.A32
