import Mathlib.Data.List.Pairwise
import Umbra.Backend.BlockRangeInformation
import Umbra.Lib.RangeUnion

/-!
What the shared code slab needs from a code emitter.

The slab of the A32 front end (`NativeCodeSlab`) is written twice, over the
`AddressSpace` of the arm64 backend and over the `A32EmitX64` of the x64
backend, with the same request and generation logic around either.  The class
`CodeCache` is the interface that logic uses, together with the effect each
operation has on the two things the slab is answerable for: which descriptors
have an entry point, and which guest addresses they are registered at.
-/

namespace Umbra.Backend

open Umbra.Lib Umbra.IR

abbrev CodePtr := ℕ

structure Layout where
  front : Range
  rest : List Range
  nonnull : ∀ r ∈ front :: rest, r.1 ≠ 0
  proper : ∀ r ∈ front :: rest, r.1 < r.2
  apart : (front :: rest).Pairwise fun x y => x.2 ≤ y.1

namespace Layout

def segments (L : Layout) : List Range := L.front :: L.rest

theorem apart_of_ne {L : Layout} {r s : Range} (hr : r ∈ L.segments) (hs : s ∈ L.segments)
    (hne : r ≠ s) : r.2 ≤ s.1 ∨ s.2 ≤ r.1 := by
  have : Std.Symm fun x y : Range => x.2 ≤ y.1 ∨ y.2 ≤ x.1 := ⟨fun _ _ h => h.symm⟩
  have hsymm : L.segments.Pairwise fun x y => x.2 ≤ y.1 ∨ y.2 ≤ x.1 :=
    L.apart.imp fun h => .inl h
  exact hsymm.forall hr hs hne

theorem eq_of_contains {L : Layout} {r s : Range} (hr : r ∈ L.segments) (hs : s ∈ L.segments)
    {a : ℕ} (hra : r.Contains a) (hsa : s.Contains a) : r = s := by
  by_contra hne
  rcases apart_of_ne hr hs hne with h | h
  · exact (hra.2.trans_le h).not_ge hsa.1
  · exact (hsa.2.trans_le h).not_ge hra.1

end Layout

/-- A block on its way into the code cache: the descriptor it was translated
for, the guest range `[Location.PC, EndLocation.PC - 1]`, the host bytes it
takes, and the slots through which it refers to other blocks. -/
structure Block (S : Type) where
  location : LocationDescriptor
  range : Option Interval
  size : ℕ
  slots : List S

structure RetiredCodeStats where
  descriptors : ℕ
  codeBytes : ℕ
deriving DecidableEq

/-- The circumstances of an emission that decide whether links of existing code
may be rewritten at once. -/
structure EmitMode where
  sharedMode : Bool
  callerExecuting : Bool
  activeExecutions : ℕ

/-- A store of emitted blocks with its registry of guest ranges. -/
class CodeCache (C : Type) (S : outParam Type) where
  /-- The entry point of a descriptor. -/
  get : C → LocationDescriptor → Option CodePtr
  /-- The host bytes of the block of a descriptor. -/
  blockSize : C → LocationDescriptor → ℕ
  /-- The descriptor is registered at the guest address. -/
  Registered : C → LocationDescriptor → ℕ → Prop
  /-- Retiring the host range takes the descriptor out. -/
  RetiredBy : C → LocationDescriptor → CodePtr → CodePtr → Prop
  currentCodePtr : C → CodePtr
  setCurrentCodePtr : C → CodePtr → C
  /-- Emit a block whose descriptor has no entry point.  The answer is `none`
  when an assertion of the emitter fails. -/
  emit : C → Block S → EmitMode → Option (CodePtr × C)
  /-- What an emission does to the links where the descriptor has an entry point. -/
  republish : C → LocationDescriptor → CodePtr → EmitMode → C
  /-- Rewrite the links that earlier emissions had to leave alone. -/
  publishLinks : C → C
  clearCache : C → C
  invalidateCacheRanges : C → IntervalSet → C
  retireCodeRange : C → CodePtr → CodePtr → RetiredCodeStats × C
  /-- Drop the entry points of some descriptors without touching their ranges
  (the fastmem recompilation path). -/
  invalidateBasicBlocks : C → List LocationDescriptor → C
  get_setCurrentCodePtr : ∀ c p, get (setCurrentCodePtr c p) = get c
  registered_setCurrentCodePtr : ∀ c p, Registered (setCurrentCodePtr c p) = Registered c
  get_emit : ∀ {c b m p c'}, emit c b m = some (p, c') → get c b.location = none →
    get c' = Function.update (get c) b.location (some p)
  registered_emit : ∀ {c b m p c'}, emit c b m = some (p, c') → ∀ d a,
    Registered c' d a ↔ Registered c d a ∨ d = b.location ∧ ∃ I ∈ b.range, a ∈ I
  get_republish : ∀ c d p m, get (republish c d p m) = get c
  registered_republish : ∀ c d p m, Registered (republish c d p m) = Registered c
  get_publishLinks : ∀ c, get (publishLinks c) = get c
  registered_publishLinks : ∀ c, Registered (publishLinks c) = Registered c
  get_clearCache : ∀ c d, get (clearCache c) d = none
  registered_clearCache : ∀ c d a, ¬Registered (clearCache c) d a
  get_invalidateCacheRanges_of_meets : ∀ {c ranges d a},
    ranges.Covers a → Registered c d a → get (invalidateCacheRanges c ranges) d = none
  get_invalidateCacheRanges_of_clear : ∀ {c ranges d},
    (∀ a, ranges.Covers a → ¬Registered c d a) →
      get (invalidateCacheRanges c ranges) d = get c d
  registered_invalidateCacheRanges : ∀ c ranges d a,
    Registered (invalidateCacheRanges c ranges) d a ↔
      Registered c d a ∧ ¬∃ b, ranges.Covers b ∧ Registered c d b
  get_retireCodeRange_of_retiredBy : ∀ {c d first last},
    RetiredBy c d first last → get (retireCodeRange c first last).2 d = none
  get_retireCodeRange_of_not : ∀ {c d first last},
    ¬RetiredBy c d first last → get (retireCodeRange c first last).2 d = get c d
  registered_retireCodeRange : ∀ c first last d a,
    Registered (retireCodeRange c first last).2 d a ↔
      Registered c d a ∧ ¬RetiredBy c d first last
  get_invalidateBasicBlocks : ∀ c ds d,
    get (invalidateBasicBlocks c ds) d = if d ∈ ds then none else get c d
  registered_invalidateBasicBlocks : ∀ c ds,
    Registered (invalidateBasicBlocks c ds) = Registered c

attribute [simp] CodeCache.get_setCurrentCodePtr CodeCache.registered_setCurrentCodePtr
  CodeCache.get_republish CodeCache.registered_republish
  CodeCache.get_publishLinks CodeCache.registered_publishLinks CodeCache.get_clearCache
  CodeCache.registered_clearCache CodeCache.registered_invalidateBasicBlocks

end Umbra.Backend
