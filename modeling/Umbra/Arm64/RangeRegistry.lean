import Umbra.Arm64.AddressSpace
import Umbra.Lib.Run

/-!
The range registry of the A64 code cache.

`A64AddressSpace` is an `AddressSpace` with a registry of guest ranges of its own.
The base class knows nothing of the registry: `ClearCache` empties the block table
and leaves the registry as it is, and there is no other function for A64 that
empties it.
-/

namespace Umbra.Arm64

open Umbra.Lib Umbra.IR Umbra.Backend

def pcField (d : LocationDescriptor) : BitVec 56 := d.toBitVec.setWidth 56

def pcOf (d : LocationDescriptor) : BitVec 64 := (pcField d).signExtend 64

structure A64Block where
  location : LocationDescriptor
  endLocation : LocationDescriptor
  size : ℕ
  slots : List BlockRelocation
deriving DecidableEq

namespace A64Block

variable (b : A64Block)

def range : Option Interval :=
  Interval.closed (pcOf b.location).toNat (pcOf b.endLocation - 1#64).toNat

def toBlock : Block BlockRelocation := ⟨b.location, b.range, b.size, b.slots⟩

def length : ℕ := (pcField b.endLocation - pcField b.location).toNat

def address (i : ℕ) : ℕ := ((pcField b.location + BitVec.ofNat 56 i).signExtend 64).toNat

/-- The ranges have an address in common with the block. -/
def MetBy (ranges : IntervalSet) : Prop := ∃ I ∈ b.range, ∃ x ∈ I, ranges.Covers x

/-- The block does not go on at the bottom of the address space. -/
def Below : Prop := (pcField b.location).toNat + b.length ≤ 2 ^ 56

instance : Decidable b.Below := inferInstanceAs (Decidable (_ ≤ _))

end A64Block

inductive RegistryEvent
  | emitted (block : A64Block)
  | invalidated (ranges : IntervalSet)
deriving DecidableEq

/-- Every block of the history, newest event first, has been met by the ranges of a later
invalidation. -/
def AllInvalidated (history : List RegistryEvent) : Prop :=
  ∀ newer older block, history = newer ++ .emitted block :: older →
    ∃ ranges, .invalidated ranges ∈ newer ∧ block.MetBy ranges

/-- The address space, with the block that each descriptor was last emitted for and what has
happened to the registry since the last `ClearCache`, newest first. -/
structure A64Cache where
  space : AddressSpace
  blocks : LocationDescriptor → Option A64Block
  history : List RegistryEvent

namespace A64Cache

def start (codeCacheSize endOfPrelude : ℕ) : A64Cache :=
  ⟨.empty codeCacheSize endOfPrelude, fun _ => none, []⟩

inductive Action
  /-- `GetOrEmit`, with the block that would be translated. -/
  | getOrEmit (block : A64Block)
  | invalidateCacheRanges (ranges : IntervalSet)
  /-- `FastmemCallback`. -/
  | fastmemInvalidation (d : LocationDescriptor)
  | clearCache

def step (s : A64Cache) : Action → Option A64Cache
  | .getOrEmit block => do
      let (_, space) ← s.space.getOrEmit block.toBlock
      if (s.space.blockEntries block.location).isSome then pure { s with space }
      else
        -- `Emit` makes room first when less than a mebibyte is left
        let history := if s.space.getRemainingSize < 1024 * 1024 then [] else s.history
        pure ⟨space, Function.update s.blocks block.location (some block),
          .emitted block :: history⟩
  | .invalidateCacheRanges ranges =>
      some { s with
        space := s.space.invalidateCacheRanges ranges
        history := .invalidated ranges :: s.history }
  | .fastmemInvalidation d => some { s with space := s.space.invalidateBasicBlocks [d] }
  | .clearCache => some { s with space := s.space.clearCache, history := [] }

def Clears (s : A64Cache) : Action → Prop
  | .getOrEmit block =>
      s.space.blockEntries block.location = none ∧ s.space.getRemainingSize < 1024 * 1024
  | .clearCache => True
  | _ => False

def NoneRegistered (c : AddressSpace) : Prop := ∀ d, c.blockRanges.rangesByDescriptor d = none

/-- Every descriptor in the block table has all guest addresses of its block
registered. -/
def Registered (s : A64Cache) : Prop :=
  ∀ d p, s.space.blockEntries d = some p → ∃ block, s.blocks d = some block ∧
    ∀ i < block.length, s.space.blockRanges.Registered d (block.address i)

/-- No block goes on at the bottom of the address space, and the cache is cleared only when every
block emitted since the last time has been range-invalidated. -/
def Careful (s : A64Cache) (a : Action) : Prop :=
  (∀ block, a = .getOrEmit block → block.Below) ∧ (s.Clears a → AllInvalidated s.history)

end A64Cache

/-! ### The range of a block -/

section Range

variable {x y : BitVec 56}

theorem toNat_signExtend_le (h : x.toNat ≤ y.toNat) :
    (x.signExtend 64).toNat ≤ (y.signExtend 64).toNat := by
  have hx := x.isLt
  have hy := y.isLt
  rw [BitVec.toNat_signExtend, BitVec.toNat_signExtend, BitVec.toNat_setWidth,
    BitVec.toNat_setWidth, BitVec.msb_eq_decide, BitVec.msb_eq_decide]
  simp only [decide_eq_true_eq]
  split_ifs <;> omega

theorem toNat_signExtend_lt (h : x.toNat < y.toNat) :
    (x.signExtend 64).toNat < (y.signExtend 64).toNat := by
  have hx := x.isLt
  have hy := y.isLt
  rw [BitVec.toNat_signExtend, BitVec.toNat_signExtend, BitVec.toNat_setWidth,
    BitVec.toNat_setWidth, BitVec.msb_eq_decide, BitVec.msb_eq_decide]
  simp only [decide_eq_true_eq]
  split_ifs <;> omega

/-- Below the top, sign extension keeps the addresses of a block in order. -/
theorem A64Block.address_mem {b : A64Block} (hb : b.Below) {i : ℕ} (hi : i < b.length) :
    ∃ I ∈ b.range, b.address i ∈ I := by
  have hlength : b.length = (2 ^ 56 - (pcField b.location).toNat +
    (pcField b.endLocation).toNat) % 2 ^ 56 := BitVec.toNat_sub ..
  have hp := (pcField b.location).isLt
  have he := (pcField b.endLocation).isLt
  unfold A64Block.Below at hb
  have hbyte : (pcField b.location + BitVec.ofNat 56 i).toNat = (pcField b.location).toNat + i := by
    rw [BitVec.toNat_add, BitVec.toNat_ofNat, Nat.mod_eq_of_lt (a := i) (by omega),
      Nat.mod_eq_of_lt (by omega)]
  have hfirst : (pcOf b.location).toNat ≤ b.address i := toNat_signExtend_le (by omega)
  have hlast : b.address i ≤ (pcOf b.endLocation - 1#64).toNat := by
    rcases Nat.lt_or_eq_of_le hb with hbelow | htop
    · have hlt : b.address i < (pcOf b.endLocation).toNat := toNat_signExtend_lt (by omega)
      rw [BitVec.toNat_sub_of_le (BitVec.le_def.2 (by simp; omega))]
      simp
      omega
    · -- the block ends with the last byte of the address space
      have hzero : pcField b.endLocation = 0#56 := BitVec.eq_of_toNat_eq (by simp; omega)
      have hlt := ((pcField b.location + BitVec.ofNat 56 i).signExtend 64).isLt
      rw [pcOf, hzero]
      exact Nat.le_of_lt_succ hlt
  refine ⟨⟨_, _, hfirst.trans hlast⟩, dif_pos (hfirst.trans hlast), hfirst, hlast⟩

end Range

/-! ### Runs -/

theorem getOrEmit_spec {c c' : AddressSpace} {b : Block BlockRelocation} {p : CodePtr}
    (h : c.getOrEmit b = some (p, c')) :
    (c.blockEntries b.location = some p ∧ c' = c) ∨
      c.blockEntries b.location = none ∧
        (∀ d q, d ≠ b.location → c'.blockEntries d = some q → c.blockEntries d = some q) ∧
        c'.blockRanges = c.blockRanges.addRange b.range b.location := by
  unfold AddressSpace.getOrEmit at h
  cases hentry : c.blockEntries b.location with
  | some q =>
      rw [hentry] at h
      cases h
      exact .inl ⟨rfl, rfl⟩
  | none =>
      rw [hentry] at h
      obtain ⟨⟨info, c₁⟩, hemit, heq⟩ := Option.map_eq_some_iff.1 h
      cases heq
      obtain ⟨-, hentries, hranges⟩ := AddressSpace.emitBlock_spec hemit
      refine .inr ⟨rfl, fun d q hd hq => ?_, ?_⟩
      · rw [hentries, Function.update_of_ne hd] at hq
        split at hq
        · cases hq
        · exact hq
      · rw [hranges]
        split <;> rfl

namespace A64Cache

variable {s t : A64Cache} {a : Action}

theorem noneRegistered_clearCache {c : AddressSpace} :
    NoneRegistered c.clearCache ↔ NoneRegistered c := Iff.rfl

/-- What `GetOrEmit` does to the table, the registry and the history. -/
theorem step_getOrEmit {block : A64Block} (hstep : s.step (.getOrEmit block) = some t) :
    t = s ∨
      s.space.blockEntries block.location = none ∧
        (∀ d q, d ≠ block.location → t.space.blockEntries d = some q →
          s.space.blockEntries d = some q) ∧
        t.space.blockRanges = s.space.blockRanges.addRange block.range block.location ∧
        t.blocks = Function.update s.blocks block.location (some block) ∧
        t.history = .emitted block ::
          if s.space.getRemainingSize < 1024 * 1024 then [] else s.history := by
  simp only [step, Option.bind_eq_bind, Option.bind_eq_some_iff] at hstep
  obtain ⟨⟨q, c⟩, hemit, hstep⟩ := hstep
  rcases getOrEmit_spec hemit with ⟨hsome, rfl⟩ | ⟨hnone, hentries, hranges⟩
  · have hsome : s.space.blockEntries block.location = some q := hsome
    simp only [hsome, Option.isSome_some, if_true] at hstep
    cases hstep
    exact .inl rfl
  · have hnone : s.space.blockEntries block.location = none := hnone
    simp only [hnone, Option.isSome_none, Bool.false_eq_true, if_false] at hstep
    cases hstep
    exact .inr ⟨hnone, hentries, hranges, rfl, rfl⟩

theorem Registered.getOrEmit (h : s.Registered) {block : A64Block} (hbelow : block.Below)
    (hstep : s.step (.getOrEmit block) = some t) : t.Registered := by
  rcases step_getOrEmit hstep with rfl | ⟨-, hentries, hranges, hblocks, -⟩
  · exact h
  · intro d p hd
    rw [hranges, hblocks]
    by_cases hdb : d = block.location
    · subst hdb
      refine ⟨block, Function.update_self .., fun i hi => ?_⟩
      exact BlockRangeInformation.registered_addRange.2 (.inr ⟨rfl, block.address_mem hbelow hi⟩)
    · obtain ⟨other, hother, hcovered⟩ := h d p (hentries d p hdb hd)
      refine ⟨other, (Function.update_of_ne hdb _ _).trans hother, fun i hi => ?_⟩
      exact BlockRangeInformation.registered_addRange.2 (.inl (hcovered i hi))

theorem blockRanges_invalidateCacheRanges (c : AddressSpace) (ranges : IntervalSet) :
    (c.invalidateCacheRanges ranges).blockRanges = (c.blockRanges.invalidateRanges ranges).2 :=
  (AddressSpace.invalidateBasicBlocks_spec
    { c with blockRanges := (c.blockRanges.invalidateRanges ranges).2 }
    (c.blockRanges.invalidateRanges ranges).1).2

theorem Registered.invalidateCacheRanges (h : s.Registered) (ranges : IntervalSet)
    (history : List RegistryEvent) :
    Registered ⟨s.space.invalidateCacheRanges ranges, s.blocks, history⟩ := by
  intro d p hd
  obtain ⟨hentries, -⟩ := AddressSpace.invalidateBasicBlocks_spec
    { s.space with blockRanges := (s.space.blockRanges.invalidateRanges ranges).2 }
    (s.space.blockRanges.invalidateRanges ranges).1
  have hkept := (hentries d).symm.trans hd
  rw [ite_eq_iff] at hkept
  obtain ⟨-, hkept⟩ | ⟨hnot, hkept⟩ := hkept
  · cases hkept
  obtain ⟨block, hblock, hcovered⟩ := h d p hkept
  refine ⟨block, hblock, fun i hi => ?_⟩
  simp only [blockRanges_invalidateCacheRanges]
  refine BlockRangeInformation.registered_invalidateRanges.2 ⟨hcovered i hi, fun hmeets => ?_⟩
  exact hnot (BlockRangeInformation.mem_locationsMeeting.2 hmeets)

theorem Registered.fastmemInvalidation (h : s.Registered) (d : LocationDescriptor) :
    Registered { s with space := s.space.invalidateBasicBlocks [d] } := by
  intro e p he
  obtain ⟨hentries, hranges⟩ := AddressSpace.invalidateBasicBlocks_spec s.space [d]
  have hkept := (hentries e).symm.trans he
  rw [ite_eq_iff] at hkept
  obtain ⟨-, hkept⟩ | ⟨-, hkept⟩ := hkept
  · cases hkept
  obtain ⟨block, hblock, hcovered⟩ := h e p hkept
  exact ⟨block, hblock, fun i hi => by simpa only [hranges] using hcovered i hi⟩

theorem Registered.step (h : s.Registered) (hbelow : ∀ block, a = .getOrEmit block → block.Below)
    (hstep : s.step a = some t) : t.Registered := by
  cases a with
  | getOrEmit block => exact h.getOrEmit (hbelow block rfl) hstep
  | invalidateCacheRanges ranges =>
      cases hstep
      exact h.invalidateCacheRanges ranges _
  | fastmemInvalidation d =>
      cases hstep
      exact h.fastmemInvalidation d
  | clearCache =>
      cases hstep
      exact fun d p hd => by cases hd

/-- A descriptor in the registry has been emitted since the last clear: the block is registered
with all its range, and no later invalidation has met it. -/
def Tracked (s : A64Cache) : Prop :=
  ∀ d, s.space.blockRanges.rangesByDescriptor d ≠ none →
    ∃ newer older block, s.history = newer ++ .emitted block :: older ∧ block.location = d ∧
      (∀ I ∈ block.range, ∀ x ∈ I, s.space.blockRanges.Registered d x) ∧
      ∀ ranges, .invalidated ranges ∈ newer → ¬block.MetBy ranges

theorem Tracked.noneRegistered (h : s.Tracked) (hall : AllInvalidated s.history) :
    NoneRegistered s.space := by
  intro d
  by_contra hknown
  obtain ⟨newer, older, block, hhistory, -, -, hnot⟩ := h d hknown
  obtain ⟨ranges, hmem, hmet⟩ := hall newer older block hhistory
  exact hnot ranges hmem hmet

/-- An emission clears a careful history at most, and registers its block. -/
theorem Tracked.getOrEmit (h : s.Tracked) {block : A64Block} (hcareful : s.Careful (.getOrEmit block))
    (hstep : s.step (.getOrEmit block) = some t) : t.Tracked := by
  rcases step_getOrEmit hstep with rfl | ⟨hnone, -, hranges, -, hhistory⟩
  · exact h
  · intro d hknown
    by_cases hd : d = block.location
    · subst hd
      refine ⟨[], _, block, hhistory, rfl, fun I hI x hx => ?_, nofun⟩
      rw [hranges]
      exact BlockRangeInformation.registered_addRange.2 (.inr ⟨rfl, I, hI, hx⟩)
    · have hsame : (s.space.blockRanges.addRange block.range block.location).rangesByDescriptor d =
          s.space.blockRanges.rangesByDescriptor d := Function.update_of_ne hd _ _
      have hbefore : s.space.blockRanges.rangesByDescriptor d ≠ none := by
        rwa [hranges, hsame] at hknown
      -- a clear would have found the descriptor gone
      have hroom : ¬s.space.getRemainingSize < 1024 * 1024 := fun hfull =>
        hbefore (h.noneRegistered (hcareful.2 ⟨hnone, hfull⟩) d)
      rw [if_neg hroom] at hhistory
      obtain ⟨newer, older, other, heq, hlocation, hregistered, hnot⟩ := h d hbefore
      refine ⟨.emitted block :: newer, older, other, by rw [hhistory, heq]; rfl, hlocation,
        fun I hI x hx => ?_, fun ranges hmem => hnot ranges (by simpa using hmem)⟩
      rw [hranges]
      exact BlockRangeInformation.registered_addRange.2 (.inl (hregistered I hI x hx))

theorem Tracked.invalidateCacheRanges (h : s.Tracked) (ranges : IntervalSet) :
    Tracked ⟨s.space.invalidateCacheRanges ranges, s.blocks, .invalidated ranges :: s.history⟩ := by
  intro d hknown
  simp only [blockRanges_invalidateCacheRanges] at hknown ⊢
  rw [BlockRangeInformation.invalidateRanges,
    BlockRangeInformation.rangesByDescriptor_invalidateLocations, ne_eq, ite_eq_iff] at hknown
  have hkept : d ∉ s.space.blockRanges.locationsMeeting ranges := fun hmem =>
    hknown (.inl ⟨hmem, rfl⟩)
  have hbefore : s.space.blockRanges.rangesByDescriptor d ≠ none := fun hnone =>
    hknown (.inr ⟨hkept, hnone⟩)
  rw [BlockRangeInformation.mem_locationsMeeting] at hkept
  obtain ⟨newer, older, block, heq, hlocation, hregistered, hnot⟩ := h d hbefore
  refine ⟨.invalidated ranges :: newer, older, block, by rw [heq]; rfl, hlocation,
    fun I hI x hx => ?_, fun ranges' hmem => ?_⟩
  · exact BlockRangeInformation.registered_invalidateRanges.2 ⟨hregistered I hI x hx, hkept⟩
  · rcases List.mem_cons.1 hmem with heq | hmem
    · rintro ⟨I, hI, x, hx, hcovers⟩
      cases heq
      exact hkept ⟨x, hcovers, hregistered I hI x hx⟩
    · exact hnot ranges' hmem

theorem Tracked.step (h : s.Tracked) (hcareful : s.Careful a) (hstep : s.step a = some t) :
    t.Tracked := by
  cases a with
  | getOrEmit block => exact h.getOrEmit hcareful hstep
  | invalidateCacheRanges ranges =>
      cases hstep
      exact h.invalidateCacheRanges ranges
  | fastmemInvalidation d =>
      cases hstep
      have hranges := (AddressSpace.invalidateBasicBlocks_spec s.space [d]).2
      intro e he
      simp only [hranges] at he ⊢
      exact h e he
  | clearCache =>
      cases hstep
      exact fun d hknown => absurd (h.noneRegistered (hcareful.2 trivial) d) hknown

/-- In every run whose blocks stay below the top of the address space and are range-invalidated
before the cache is cleared, the registry covers the block table, holds nothing that was not
emitted since the last clear, and is empty right after a clear. -/
theorem registry_follows_table {codeCacheSize endOfPrelude : ℕ}
    (hreach : Reaches A64Cache.step Careful (start codeCacheSize endOfPrelude) s) :
    s.Registered ∧
      (∀ d, s.space.blockRanges.rangesByDescriptor d ≠ none →
        ∃ block, .emitted block ∈ s.history ∧ block.location = d) ∧
      ∀ a, s.Careful a → s.Clears a → NoneRegistered s.space.clearCache := by
  have htracked : s.Tracked := by
    refine hreach.invariant (fun d hd => absurd rfl hd) ?_
    exact fun s a t h hcareful hstep => h.step hcareful hstep
  refine ⟨?_, fun d hknown => ?_, fun a hcareful hclears => ?_⟩
  · refine hreach.invariant (fun d p hd => by cases hd) ?_
    exact fun s a t h hcareful hstep => h.step hcareful.1 hstep
  · obtain ⟨newer, older, block, hhistory, hlocation, -⟩ := htracked d hknown
    exact ⟨block, by rw [hhistory]; simp, hlocation⟩
  · exact noneRegistered_clearCache.2 (htracked.noneRegistered (hcareful.2 hclears))

theorem not_noneRegistered {c : AddressSpace} {d : LocationDescriptor} {x : ℕ}
    (h : c.blockRanges.Registered d x) : ¬NoneRegistered c := by
  intro hnone
  have hcovers := (c.blockRanges.sync d x).1 h
  rw [hnone d] at hcovers
  exact absurd hcovers (by simp [IntervalSet.Covers])

namespace Sample

def oneInstruction : A64Block := ⟨0x1000, 0x1004, 16, []⟩

/-- Four instructions, two at the top of the address space and two at the bottom. -/
def overTheTop : A64Block := ⟨0xFFFFFFFFFFFFF8, 0x8, 16, []⟩

end Sample

theorem allInvalidated_nil : AllInvalidated [] := fun newer _ _ h => by
  cases newer <;> cases h

open Sample in
theorem allInvalidated_oneInstruction :
    AllInvalidated [.invalidated [⟨0x1002, 0x1002, le_rfl⟩], .emitted oneInstruction] := by
  intro newer older block h
  match newer, h with
  | [_], h =>
      cases h
      exact ⟨_, List.mem_singleton_self _, ⟨0x1000, 0x1003, by decide⟩, by decide, 0x1002, by decide,
        by decide⟩
  | _ :: _ :: [], h => cases h
  | _ :: _ :: _ :: _, h => cases h

open Sample in
/-- The block is emitted, invalidated through one of its bytes, and the cache is cleared. -/
theorem registry_follows_table_oneInstruction :
    ∃ s, run A64Cache.step (start 0x8000000 0x1000) [.getOrEmit oneInstruction,
        .invalidateCacheRanges [⟨0x1002, 0x1002, le_rfl⟩]] = some s ∧ s.Registered ∧
      s.Clears .clearCache ∧ NoneRegistered s.space.clearCache := by
  have hrun : ((run A64Cache.step (start 0x8000000 0x1000) [.getOrEmit oneInstruction,
      .invalidateCacheRanges [⟨0x1002, 0x1002, le_rfl⟩]]).map fun s => s.history) =
        some [.invalidated [⟨0x1002, 0x1002, le_rfl⟩], .emitted oneInstruction] := by
    decide +kernel
  obtain ⟨s, hs, hhistory⟩ := Option.map_eq_some_iff.1 hrun
  have hemit : (start 0x8000000 0x1000).Careful (.getOrEmit oneInstruction) := by
    refine ⟨?_, fun _ => allInvalidated_nil⟩
    rintro _ ⟨⟩
    decide
  have hinvalidate (u : A64Cache) (ranges : IntervalSet) :
      u.Careful (.invalidateCacheRanges ranges) := ⟨nofun, False.elim⟩
  have hclear : s.Careful .clearCache :=
    ⟨nofun, fun _ => hhistory ▸ allInvalidated_oneInstruction⟩
  obtain ⟨hregistered, -, hcleared⟩ := registry_follows_table (reaches_of_run hs
    ⟨hemit, fun u _ => ⟨hinvalidate u _, fun _ _ => trivial⟩⟩)
  exact ⟨s, hs, hregistered, trivial, hcleared .clearCache hclear trivial⟩

open Sample in
/-- After a clear the descriptor of a block is still registered; and a block that
goes on at the bottom of the address space is never registered. -/
theorem registry_survives_clear :
    (∃ s, Reaches A64Cache.step always (start 0x8000000 0x1000) s ∧ s.Clears .clearCache ∧
      ¬NoneRegistered s.space.clearCache) ∧
    ∃ s, Reaches A64Cache.step always (start 0x8000000 0x1000) s ∧ ¬s.Registered := by
  constructor
  · have hrun : ((run A64Cache.step (start 0x8000000 0x1000) [.getOrEmit oneInstruction]).map
        fun s => decide (s.space.blockRanges.Registered oneInstruction.location 0x1000)) =
          some true := by decide +kernel
    obtain ⟨s, hs, hregistered⟩ := Option.map_eq_some_iff.1 hrun
    refine ⟨s, reaches_of_run hs (follows_always _ _), trivial, ?_⟩
    exact noneRegistered_clearCache.not.2 (not_noneRegistered (of_decide_eq_true hregistered))
  · have hrun : ((run A64Cache.step (start 0x8000000 0x1000) [.getOrEmit overTheTop]).map
        fun s => (s.space.blockEntries overTheTop.location, (s.blocks overTheTop.location).map
          fun block => decide (0 < block.length ∧
            ¬s.space.blockRanges.Registered overTheTop.location (block.address 0)))) =
          some (some 0x1000, some true) := by decide +kernel
    obtain ⟨s, hs, hmissing⟩ := Option.map_eq_some_iff.1 hrun
    rw [Prod.mk.injEq] at hmissing
    obtain ⟨hentry, hmissing⟩ := hmissing
    refine ⟨s, reaches_of_run hs (follows_always _ _), fun h => ?_⟩
    obtain ⟨block, hblock, hcovered⟩ := h _ _ hentry
    rw [hblock, Option.map_some, Option.some_inj, decide_eq_true_eq] at hmissing
    exact hmissing.2 (hcovered 0 hmissing.1)

end A64Cache

end Umbra.Arm64
