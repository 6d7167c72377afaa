import Umbra.Backend.CodeCache

/-!
The code cache of the x64 backend for A32 guests.

`EmitX64` files emitted blocks under their descriptors and remembers, for every
descriptor that some block jumps to, the code addresses at which those jumps
stand (`patch_information`).  `A32EmitX64` adds the guest ranges and an index of
the blocks by entry point, and drops patch addresses when code is retired.  As
on arm64 the only part of the code memory that is modelled is where the patch
slots lead.
-/

namespace Umbra.X64

open Umbra.Lib Umbra.IR Umbra.Backend

inductive PatchKind
  | jg
  | jz
  | jmp
  | movRcx
deriving DecidableEq

/-- A patch slot of a block on its way into the cache: `offset` bytes behind its
entry point, for the block of `target`. -/
structure PatchSite where
  target : LocationDescriptor
  kind : PatchKind
  offset : ℕ
deriving DecidableEq

/-- A stored patch address.  `emission` is a history variable, the number of the
emission that stored the address; no operation depends on it. -/
structure PatchSlot where
  address : CodePtr
  emission : ℕ
deriving DecidableEq

structure PatchInformation where
  jg : List PatchSlot
  jz : List PatchSlot
  jmp : List PatchSlot
  movRcx : List PatchSlot
deriving DecidableEq

namespace PatchInformation

def empty : PatchInformation := ⟨[], [], [], []⟩

def slots (p : PatchInformation) : PatchKind → List PatchSlot
  | .jg => p.jg
  | .jz => p.jz
  | .jmp => p.jmp
  | .movRcx => p.movRcx

def push (p : PatchInformation) (kind : PatchKind) (slot : PatchSlot) : PatchInformation :=
  match kind with
  | .jg => { p with jg := p.jg ++ [slot] }
  | .jz => { p with jz := p.jz ++ [slot] }
  | .jmp => { p with jmp := p.jmp ++ [slot] }
  | .movRcx => { p with movRcx := p.movRcx ++ [slot] }

def eraseIf (p : PatchInformation) (retired : CodePtr → Bool) : PatchInformation where
  jg := p.jg.filter fun slot => !retired slot.address
  jz := p.jz.filter fun slot => !retired slot.address
  jmp := p.jmp.filter fun slot => !retired slot.address
  movRcx := p.movRcx.filter fun slot => !retired slot.address

@[simp] theorem slots_empty (kind : PatchKind) : empty.slots kind = [] := by
  cases kind <;> rfl

theorem mem_slots_push (p : PatchInformation) (kind kind' : PatchKind) (slot slot' : PatchSlot) :
    slot' ∈ (p.push kind slot).slots kind' ↔
      slot' ∈ p.slots kind' ∨ kind' = kind ∧ slot' = slot := by
  cases kind <;> cases kind' <;> simp [push, slots]

@[simp] theorem slots_eraseIf (p : PatchInformation) (retired : CodePtr → Bool)
    (kind : PatchKind) :
    (p.eraseIf retired).slots kind = (p.slots kind).filter fun slot => !retired slot.address := by
  cases kind <;> rfl

end PatchInformation

structure BlockDescriptor where
  entrypoint : CodePtr
  size : ℕ
deriving DecidableEq

namespace BlockDescriptor

def codeRange (b : BlockDescriptor) : Range :=
  (b.entrypoint, b.entrypoint + b.size)

end BlockDescriptor

/-- The x64 code cache.  `linked` says that `fast_dispatch_table_link` is set and
`FastDispatch` is enabled.  `links` gives the block entry a patch slot leads to,
`none` for the fallback.  `pendingDirectLinkTargets` is kept by the slab beside
its emitter.  `emissions` numbers the emissions for the history variables. -/
structure A32EmitX64 where
  linked : Bool
  codePtr : CodePtr
  blockDescriptors : LocationDescriptor → Option BlockDescriptor
  patchInformation : LocationDescriptor → Option PatchInformation
  blocksByEntrypoint : List (CodePtr × LocationDescriptor)
  blockRanges : BlockRangeInformation
  retiredCodeBytes : ℕ
  pendingDirectLinkTargets : List LocationDescriptor
  links : CodePtr → Option CodePtr
  emissions : ℕ

namespace A32EmitX64

def empty (linked : Bool) (codePtr : CodePtr) : A32EmitX64 where
  linked := linked
  codePtr := codePtr
  blockDescriptors := fun _ => none
  patchInformation := fun _ => none
  blocksByEntrypoint := []
  blockRanges := .empty
  retiredCodeBytes := 0
  pendingDirectLinkTargets := []
  links := fun _ => none
  emissions := 0

def Stores (c : A32EmitX64) (target : LocationDescriptor) (kind : PatchKind)
    (slot : PatchSlot) : Prop :=
  ∃ p ∈ c.patchInformation target, slot ∈ p.slots kind

/-! ### Patching -/

/-- `Patch`: write the target into all slots stored for the descriptor. -/
def patch (c : A32EmitX64) (d : LocationDescriptor) (target : Option CodePtr) : A32EmitX64 :=
  match c.patchInformation d with
  | none => c
  | some p =>
      { c with
        links := (p.jg ++ p.jz ++ p.jmp ++ p.movRcx).foldl
          (fun links slot => Function.update links slot.address target) c.links }

def unpatch (c : A32EmitX64) (d : LocationDescriptor) : A32EmitX64 :=
  c.patch d none

def patchPublishedTarget (c : A32EmitX64) (d : LocationDescriptor) (entrypoint : CodePtr) :
    A32EmitX64 :=
  if c.linked = false ∨ entrypoint = 0 then c else c.patch d (some entrypoint)

def publishDirectLinkTarget (c : A32EmitX64) (mode : EmitMode) (d : LocationDescriptor)
    (entrypoint : CodePtr) : A32EmitX64 :=
  if mode.sharedMode = false ∨ entrypoint = 0 then c
  else if mode.activeExecutions = 0 then c.patchPublishedTarget d entrypoint
  else { c with pendingDirectLinkTargets := c.pendingDirectLinkTargets.insert d }

def publishLinks (c : A32EmitX64) : A32EmitX64 :=
  let published := c.pendingDirectLinkTargets.foldl
    (fun c d => match c.blockDescriptors d with
      | none => c
      | some b => c.patchPublishedTarget d b.entrypoint) c
  { published with pendingDirectLinkTargets := [] }

/-! ### Emission -/

def align (p : CodePtr) : CodePtr :=
  (p + 15) / 16 * 16

/-- Store the address of a slot and write where it leads, as the terminals and
`PushRSBHelper` do. -/
def emitSite (entrypoint : CodePtr) (c : A32EmitX64) (site : PatchSite) : A32EmitX64 :=
  { c with
    patchInformation := Function.update c.patchInformation site.target
      (some (((c.patchInformation site.target).getD .empty).push site.kind
        ⟨entrypoint + site.offset, c.emissions⟩))
    links := Function.update c.links (entrypoint + site.offset)
      ((c.blockDescriptors site.target).map (·.entrypoint)) }

/-- `RegisterBlock`.  Inserting a descriptor that is present changes nothing. -/
def registerBlock (c : A32EmitX64) (d : LocationDescriptor) (b : BlockDescriptor) : A32EmitX64 :=
  let c := if c.linked then c else c.patch d (some b.entrypoint)
  match c.blockDescriptors d with
  | some _ => c
  | none => { c with blockDescriptors := Function.update c.blockDescriptors d (some b) }

def emit (c : A32EmitX64) (block : Block PatchSite) : CodePtr × A32EmitX64 :=
  let entrypoint := align c.codePtr
  let c := block.slots.foldl (emitSite entrypoint) c
  let c := { c with
    codePtr := entrypoint + block.size
    blockRanges := c.blockRanges.addRange block.range block.location
    emissions := c.emissions + 1 }
  let c := c.registerBlock block.location ⟨entrypoint, block.size⟩
  (entrypoint, { c with
    blocksByEntrypoint := (entrypoint, block.location) ::
      c.blocksByEntrypoint.filter (·.1 ≠ entrypoint) })

/-! ### Invalidation -/

def eraseDescriptor (c : A32EmitX64) (d : LocationDescriptor) : A32EmitX64 :=
  { c with blockDescriptors := Function.update c.blockDescriptors d none }

def forgetPatchLocations (c : A32EmitX64) (ranges : List Range) : A32EmitX64 :=
  if (ranges.filter fun r => r.1 < r.2) = [] then c
  else
    let union := Range.union ranges
    { c with
      patchInformation := fun target => (c.patchInformation target).bind fun p =>
        let kept := p.eraseIf (Range.search union)
        if kept = .empty then none else some kept }

def invalidateBasicBlock (c : A32EmitX64) (d : LocationDescriptor) : A32EmitX64 :=
  match c.blockDescriptors d with
  | none => c
  | some _ => (c.unpatch d).eraseDescriptor d

def invalidateBasicBlocks (c : A32EmitX64) (descriptors : List LocationDescriptor) :
    A32EmitX64 :=
  descriptors.foldl invalidateBasicBlock c

def codeRanges (c : A32EmitX64) (descriptors : List LocationDescriptor) : List Range :=
  descriptors.filterMap fun d => (c.blockDescriptors d).map (·.codeRange)

def codeBytes (c : A32EmitX64) (descriptors : List LocationDescriptor) : ℕ :=
  (descriptors.map fun d => (c.blockDescriptors d).elim 0 (·.size)).sum

/-- The loop of `InvalidateCacheRanges` that counts the blocks of some
descriptors and takes them out of the index by entry point. -/
def unlist (c : A32EmitX64) (descriptors : List LocationDescriptor) : A32EmitX64 :=
  { c with
    retiredCodeBytes := c.retiredCodeBytes + c.codeBytes descriptors
    blocksByEntrypoint := c.blocksByEntrypoint.filter fun e =>
      !descriptors.any fun d => (c.blockDescriptors d).any (·.entrypoint = e.1) }

/-- The branch of `InvalidateCacheRanges` for linked executors: the slots of the
blocks are forgotten with them. -/
def forgetBlocks (c : A32EmitX64) (locations : List LocationDescriptor) : A32EmitX64 :=
  let c := locations.foldl unpatch c
  let c := c.forgetPatchLocations (c.codeRanges locations)
  locations.foldl eraseDescriptor c

def invalidateLocations (c : A32EmitX64) (locations : List LocationDescriptor) : A32EmitX64 :=
  let c := c.unlist locations
  if c.linked then c.forgetBlocks locations else c.invalidateBasicBlocks locations

def invalidateCacheRanges (c : A32EmitX64) (ranges : IntervalSet) : A32EmitX64 :=
  let (locations, blockRanges) := c.blockRanges.invalidateRanges ranges
  { c with blockRanges := blockRanges }.invalidateLocations locations

def clearCache (c : A32EmitX64) : A32EmitX64 :=
  { c with
    blockDescriptors := fun _ => none
    patchInformation := fun _ => none
    blocksByEntrypoint := []
    blockRanges := c.blockRanges.clearCache
    retiredCodeBytes := 0
    pendingDirectLinkTargets := [] }

def entriesWithin (c : A32EmitX64) (first last : CodePtr) : List (CodePtr × LocationDescriptor) :=
  c.blocksByEntrypoint.filter fun e => first ≤ e.1 && e.1 < last

/-- `RetireCodeRange`.  The ranges to forget are those of the current blocks of
the descriptors found, wherever these blocks stand. -/
def retireCodeRange (c : A32EmitX64) (first last : CodePtr) : RetiredCodeStats × A32EmitX64 :=
  if first = 0 ∨ last = 0 ∨ last ≤ first then (⟨0, 0⟩, c)
  else
    let found := (c.entriesWithin first last).map (·.2)
    let locations := found.dedup
    let retiredRanges := c.codeRanges found
    let codeBytes := c.codeBytes found
    let c := { c with
      blocksByEntrypoint := c.blocksByEntrypoint.filter fun e => !(first ≤ e.1 && e.1 < last)
      blockRanges := c.blockRanges.invalidateLocations locations }
    let c := locations.foldl (fun c d => (c.unpatch d).eraseDescriptor d) c
    let c := c.forgetPatchLocations retiredRanges
    (⟨locations.length, codeBytes⟩, { c with retiredCodeBytes := c.retiredCodeBytes + codeBytes })

/-! ### What the operations do to the tables -/

theorem patch_eq (c : A32EmitX64) (d : LocationDescriptor) (target : Option CodePtr) :
    ∃ links, c.patch d target = { c with links } := by
  unfold patch
  split
  · exact ⟨c.links, rfl⟩
  · exact ⟨_, rfl⟩

theorem foldl_update_apply (slots : List PatchSlot) (links : CodePtr → Option CodePtr)
    (target : Option CodePtr) (a : CodePtr) :
    slots.foldl (fun links slot => Function.update links slot.address target) links a =
      if a ∈ slots.map (·.address) then target else links a := by
  induction slots generalizing links with
  | nil => rfl
  | cons slot slots ih =>
      simp only [List.foldl_cons, ih, List.map_cons, List.mem_cons]
      by_cases ha : a = slot.address
      · subst ha
        simp
      · simp [ha]

open Classical in
theorem patch_links (c : A32EmitX64) (d : LocationDescriptor) (target : Option CodePtr)
    (a : CodePtr) : (c.patch d target).links a =
      if ∃ kind slot, c.Stores d kind slot ∧ slot.address = a then target else c.links a := by
  unfold patch
  split
  · rename_i hnone
    rw [if_neg]
    rintro ⟨kind, slot, ⟨p, hp, -⟩, -⟩
    cases hnone.symm.trans hp
  · rename_i p hp
    refine (foldl_update_apply _ _ _ _).trans (if_congr ?_ rfl rfl)
    simp only [List.mem_map, List.mem_append, Stores, hp, Option.mem_some, exists_eq_left']
    constructor
    · rintro ⟨slot, ((h | h) | h) | h, ha⟩
      · exact ⟨.jg, slot, h, ha⟩
      · exact ⟨.jz, slot, h, ha⟩
      · exact ⟨.jmp, slot, h, ha⟩
      · exact ⟨.movRcx, slot, h, ha⟩
    · rintro ⟨kind, slot, hslot, ha⟩
      refine ⟨slot, ?_, ha⟩
      cases kind
      · exact .inl (.inl (.inl hslot))
      · exact .inl (.inl (.inr hslot))
      · exact .inl (.inr hslot)
      · exact .inr hslot

theorem patchPublishedTarget_eq (c : A32EmitX64) (d : LocationDescriptor) (p : CodePtr) :
    ∃ links, c.patchPublishedTarget d p = { c with links } := by
  unfold patchPublishedTarget
  split
  · exact ⟨c.links, rfl⟩
  · exact c.patch_eq d (some p)

theorem publishDirectLinkTarget_eq (c : A32EmitX64) (mode : EmitMode) (d : LocationDescriptor)
    (p : CodePtr) : ∃ links pendingDirectLinkTargets,
      c.publishDirectLinkTarget mode d p = { c with links, pendingDirectLinkTargets } := by
  unfold publishDirectLinkTarget
  split
  · exact ⟨c.links, _, rfl⟩
  · split
    · obtain ⟨links, h⟩ := c.patchPublishedTarget_eq d p
      exact ⟨links, c.pendingDirectLinkTargets, h⟩
    · exact ⟨c.links, _, rfl⟩

theorem publishLinks_eq (c : A32EmitX64) :
    ∃ links, c.publishLinks = { c with links, pendingDirectLinkTargets := [] } := by
  have hloop : ∀ (ds : List LocationDescriptor) (c : A32EmitX64), ∃ links,
      ds.foldl (fun c d => match c.blockDescriptors d with
        | none => c
        | some b => c.patchPublishedTarget d b.entrypoint) c = { c with links } := by
    intro ds
    induction ds with
    | nil => exact fun c => ⟨c.links, rfl⟩
    | cons d ds ih =>
        intro c
        rw [List.foldl_cons]
        split
        · exact ih c
        · rename_i b _
          obtain ⟨links, h⟩ := c.patchPublishedTarget_eq d b.entrypoint
          obtain ⟨links', h'⟩ := ih { c with links }
          exact ⟨links', by rw [h, h']⟩
  obtain ⟨links, h⟩ := hloop c.pendingDirectLinkTargets c
  exact ⟨links, by simp only [publishLinks, h]⟩

theorem foldl_unpatch_eq (ds : List LocationDescriptor) (c : A32EmitX64) :
    ∃ links, ds.foldl unpatch c = { c with links } := by
  induction ds generalizing c with
  | nil => exact ⟨c.links, rfl⟩
  | cons d ds ih =>
      obtain ⟨links, h⟩ := c.patch_eq d none
      obtain ⟨links', h'⟩ := ih { c with links }
      exact ⟨links', by rw [List.foldl_cons, unpatch, h, h']⟩

def without (blocks : LocationDescriptor → Option BlockDescriptor)
    (ds : List LocationDescriptor) (d : LocationDescriptor) : Option BlockDescriptor :=
  if d ∈ ds then none else blocks d

@[simp] theorem without_nil (blocks : LocationDescriptor → Option BlockDescriptor) :
    without blocks [] = blocks := by
  funext d
  simp [without]

theorem without_eq_some {blocks : LocationDescriptor → Option BlockDescriptor}
    {ds : List LocationDescriptor} {d : LocationDescriptor} {b : BlockDescriptor} :
    without blocks ds d = some b ↔ d ∉ ds ∧ blocks d = some b := by
  simp [without]

theorem without_cons (blocks : LocationDescriptor → Option BlockDescriptor)
    (d : LocationDescriptor) (ds : List LocationDescriptor) :
    without (Function.update blocks d none) ds = without blocks (d :: ds) := by
  funext e
  by_cases he : e = d
  · simp [without, he]
  · simp [without, he]

theorem foldl_eraseDescriptor_eq (ds : List LocationDescriptor) (c : A32EmitX64) :
    ds.foldl eraseDescriptor c = { c with blockDescriptors := without c.blockDescriptors ds } := by
  induction ds generalizing c with
  | nil => rw [without_nil]; rfl
  | cons d ds ih => rw [List.foldl_cons, ih, eraseDescriptor, without_cons]

theorem foldl_unpatch_eraseDescriptor_eq (ds : List LocationDescriptor) (c : A32EmitX64) :
    ∃ links, ds.foldl (fun c d => (c.unpatch d).eraseDescriptor d) c =
      { c with links, blockDescriptors := without c.blockDescriptors ds } := by
  induction ds generalizing c with
  | nil => exact ⟨c.links, by rw [without_nil]; rfl⟩
  | cons d ds ih =>
      obtain ⟨links, h⟩ := c.patch_eq d none
      obtain ⟨links', h'⟩ := ih
        { c with links, blockDescriptors := Function.update c.blockDescriptors d none }
      exact ⟨links', by rw [List.foldl_cons, unpatch, h, eraseDescriptor, h', without_cons]⟩

theorem invalidateBasicBlocks_eq (c : A32EmitX64) (ds : List LocationDescriptor) :
    ∃ links, c.invalidateBasicBlocks ds =
      { c with links, blockDescriptors := without c.blockDescriptors ds } := by
  unfold invalidateBasicBlocks
  induction ds generalizing c with
  | nil => exact ⟨c.links, by rw [without_nil]; rfl⟩
  | cons d ds ih =>
      have hstep : ∃ links, c.invalidateBasicBlock d =
          { c with links, blockDescriptors := Function.update c.blockDescriptors d none } := by
        unfold invalidateBasicBlock
        split
        · rename_i hnone
          exact ⟨c.links, by rw [Function.update_eq_self_iff.mpr hnone.symm]⟩
        · obtain ⟨links, h⟩ := c.patch_eq d none
          exact ⟨links, by rw [unpatch, h, eraseDescriptor]⟩
      obtain ⟨links, h⟩ := hstep
      obtain ⟨links', h'⟩ := ih
        { c with links, blockDescriptors := Function.update c.blockDescriptors d none }
      exact ⟨links', by rw [List.foldl_cons, h, h', without_cons]⟩

theorem forgetPatchLocations_eq (c : A32EmitX64) (ranges : List Range) :
    ∃ patchInformation, c.forgetPatchLocations ranges = { c with patchInformation } := by
  unfold forgetPatchLocations
  split
  · exact ⟨c.patchInformation, rfl⟩
  · exact ⟨_, rfl⟩

def slotsFor (c : A32EmitX64) (target : LocationDescriptor) (kind : PatchKind) : List PatchSlot :=
  ((c.patchInformation target).getD .empty).slots kind

theorem stores_iff (c : A32EmitX64) (target : LocationDescriptor) (kind : PatchKind)
    (slot : PatchSlot) : c.Stores target kind slot ↔ slot ∈ c.slotsFor target kind := by
  unfold Stores slotsFor
  cases c.patchInformation target <;> simp

theorem slotsFor_forgetPatchLocations (c : A32EmitX64) (ranges : List Range)
    (target : LocationDescriptor) (kind : PatchKind) :
    (c.forgetPatchLocations ranges).slotsFor target kind =
      (c.slotsFor target kind).filter fun slot => ¬∃ r ∈ ranges, r.Contains slot.address := by
  unfold forgetPatchLocations
  split
  · rename_i hempty
    refine (List.filter_eq_self.mpr fun slot _ => decide_eq_true ?_).symm
    rintro ⟨r, hr, hc⟩
    have hnot := List.filter_eq_nil_iff.mp hempty r hr
    exact hnot (by simpa using hc.1.trans_lt hc.2)
  · have hretired (slot : PatchSlot) : (!Range.search (Range.union ranges) slot.address) =
        decide (¬∃ r ∈ ranges, r.Contains slot.address) := by
      rw [decide_not, Bool.not_inj_iff, Bool.eq_iff_iff, decide_eq_true_eq]
      exact Range.search_union ranges slot.address
    unfold slotsFor
    dsimp only
    cases c.patchInformation target with
    | none => simp
    | some p =>
        have hkept : (if p.eraseIf (Range.search (Range.union ranges)) = .empty then none
            else some (p.eraseIf (Range.search (Range.union ranges)))).getD .empty =
              p.eraseIf (Range.search (Range.union ranges)) := by
          split
          · rename_i hempty
            exact hempty.symm
          · rfl
        simp only [Option.bind_some, hkept, PatchInformation.slots_eraseIf, hretired,
          Option.getD_some]

theorem stores_forgetPatchLocations (c : A32EmitX64) (ranges : List Range)
    (target : LocationDescriptor) (kind : PatchKind) (slot : PatchSlot) :
    (c.forgetPatchLocations ranges).Stores target kind slot ↔
      c.Stores target kind slot ∧ ¬∃ r ∈ ranges, r.Contains slot.address := by
  rw [stores_iff, stores_iff, slotsFor_forgetPatchLocations, List.mem_filter, decide_eq_true_eq]

/-- A target without slots is only left where there was nothing to do. -/
theorem forgetPatchLocations_eq_empty_iff (c : A32EmitX64) (ranges : List Range)
    (target : LocationDescriptor) :
    (c.forgetPatchLocations ranges).patchInformation target = some .empty ↔
      c.patchInformation target = some .empty ∧ ∀ r ∈ ranges, r.2 ≤ r.1 := by
  have hnothing : (ranges.filter fun r => r.1 < r.2) = [] ↔ ∀ r ∈ ranges, r.2 ≤ r.1 := by
    simp [List.filter_eq_nil_iff]
  unfold forgetPatchLocations
  split
  · rename_i hempty
    exact (and_iff_left (hnothing.mp hempty)).symm
  · rename_i hsome
    refine iff_of_false ?_ fun h => hsome (hnothing.mpr h.2)
    simp only [Option.bind_eq_some_iff, not_exists, not_and]
    intro p _ hkept
    split at hkept
    · cases hkept
    · rename_i hne
      exact hne (Option.some.inj hkept)

/-- What `ForgetPatchLocations` leaves in the table, with the ranges merged in their own vector. -/
theorem forgetPatchLocations_exact (c : A32EmitX64) (ranges : List Range) :
    Range.mergeInPlace (Range.sort (ranges.filter fun r => r.1 < r.2)) = Range.union ranges ∧
      ∀ target, (∀ kind, (c.forgetPatchLocations ranges).slotsFor target kind =
        (c.slotsFor target kind).filter fun slot => ¬∃ r ∈ ranges, r.Contains slot.address) ∧
      ((c.forgetPatchLocations ranges).patchInformation target = some .empty ↔
        c.patchInformation target = some .empty ∧ ∀ r ∈ ranges, r.2 ≤ r.1) :=
  ⟨Range.mergeInPlace_eq _, fun target => ⟨c.slotsFor_forgetPatchLocations ranges target,
    c.forgetPatchLocations_eq_empty_iff ranges target⟩⟩

/-- Without a range that is not empty, a target without slots is left where it is. -/
theorem forgetPatchLocations_nil_keeps_empty :
    (forgetPatchLocations { empty false 0 with
      patchInformation := Function.update (fun _ => none) 0 (some .empty) } []).patchInformation 0 =
        some .empty := by
  decide

theorem forgetBlocks_spec (c : A32EmitX64) (ds : List LocationDescriptor) :
    (∃ links patchInformation, c.forgetBlocks ds =
        { c with links, patchInformation, blockDescriptors := without c.blockDescriptors ds }) ∧
      ∀ target kind slot, (c.forgetBlocks ds).Stores target kind slot ↔
        c.Stores target kind slot ∧ ¬∃ r ∈ c.codeRanges ds, r.Contains slot.address := by
  obtain ⟨links, hunpatch⟩ := foldl_unpatch_eq ds c
  simp only [forgetBlocks, hunpatch, foldl_eraseDescriptor_eq]
  refine ⟨?_, fun target kind slot => ?_⟩
  · obtain ⟨patchInformation, hforget⟩ :=
      forgetPatchLocations_eq { c with links } (A32EmitX64.codeRanges { c with links } ds)
    exact ⟨links, patchInformation, by rw [hforget]⟩
  · exact stores_forgetPatchLocations { c with links } (c.codeRanges ds) target kind slot

theorem invalidateLocations_spec (c : A32EmitX64) (ds : List LocationDescriptor) :
    (∃ links patchInformation, c.invalidateLocations ds =
        { c.unlist ds with
          links, patchInformation, blockDescriptors := without c.blockDescriptors ds }) ∧
      ∀ target kind slot, (c.invalidateLocations ds).Stores target kind slot ↔
        c.Stores target kind slot ∧
          ¬(c.linked = true ∧ ∃ r ∈ c.codeRanges ds, r.Contains slot.address) := by
  by_cases hlinked : c.linked = true
  · have heq : c.invalidateLocations ds = (c.unlist ds).forgetBlocks ds := if_pos hlinked
    obtain ⟨hfields, hstores⟩ := (c.unlist ds).forgetBlocks_spec ds
    rw [heq]
    refine ⟨hfields, fun target kind slot => (hstores target kind slot).trans ?_⟩
    rw [and_iff_right hlinked]
    rfl
  · have heq : c.invalidateLocations ds = (c.unlist ds).invalidateBasicBlocks ds :=
      if_neg hlinked
    obtain ⟨links, h⟩ := (c.unlist ds).invalidateBasicBlocks_eq ds
    rw [heq]
    refine ⟨⟨links, c.patchInformation, h⟩, fun target kind slot => ?_⟩
    rw [and_iff_left fun hrange => hlinked hrange.1, h]
    rfl

def ListedWithin (c : A32EmitX64) (d : LocationDescriptor) (first last : CodePtr) : Prop :=
  first ≠ 0 ∧ ∃ p, (p, d) ∈ c.blocksByEntrypoint ∧ first ≤ p ∧ p < last

theorem mem_entriesWithin (c : A32EmitX64) (first last : CodePtr)
    (e : CodePtr × LocationDescriptor) :
    e ∈ c.entriesWithin first last ↔ e ∈ c.blocksByEntrypoint ∧ first ≤ e.1 ∧ e.1 < last := by
  simp [entriesWithin]

theorem codeRanges_dedup (c : A32EmitX64) (ds : List LocationDescriptor) (r : Range) :
    r ∈ c.codeRanges ds.dedup ↔ r ∈ c.codeRanges ds := by
  simp [codeRanges]

variable {c c' : A32EmitX64} {first last p : CodePtr} {block : Block PatchSite}

theorem mem_codeRanges {ds : List LocationDescriptor} {r : Range} :
    r ∈ c.codeRanges ds ↔ ∃ d ∈ ds, ∃ b, c.blockDescriptors d = some b ∧ b.codeRange = r := by
  simp [codeRanges]

theorem retireCodeRange_of_empty (h : first = 0 ∨ last ≤ first) :
    c.retireCodeRange first last = (⟨0, 0⟩, c) :=
  if_pos (h.imp_right .inr)

/-- Retiring a stretch of code takes out the descriptors that are listed there,
with the ranges and the patch slots of their current blocks. -/
theorem retireCodeRange_spec (hfirst : first ≠ 0) (hlt : first < last) :
    ∃ ds, (∀ d, d ∈ ds ↔ c.ListedWithin d first last) ∧
      (∃ links patchInformation retiredCodeBytes, (c.retireCodeRange first last).2 =
        { c with
          links, patchInformation, retiredCodeBytes
          blockDescriptors := without c.blockDescriptors ds
          blocksByEntrypoint := c.blocksByEntrypoint.filter fun e =>
            !(first ≤ e.1 && e.1 < last)
          blockRanges := c.blockRanges.invalidateLocations ds }) ∧
      ∀ target kind slot, (c.retireCodeRange first last).2.Stores target kind slot ↔
        c.Stores target kind slot ∧ ¬∃ r ∈ c.codeRanges ds, r.Contains slot.address := by
  have hproper : ¬(first = 0 ∨ last = 0 ∨ last ≤ first) := by
    rintro (h | h | h)
    · exact hfirst h
    · exact (h ▸ Nat.not_lt_zero first) hlt
    · exact h.not_gt hlt
  set found := (c.entriesWithin first last).map (·.2) with hfound
  refine ⟨found.dedup, fun d => ?_, ?_⟩
  · simp [hfound, mem_entriesWithin, ListedWithin, hfirst]
  · simp only [retireCodeRange, if_neg hproper, ← hfound]
    generalize hc₁ : ({ c with
      blocksByEntrypoint := c.blocksByEntrypoint.filter fun e => !(first ≤ e.1 && e.1 < last)
      blockRanges := c.blockRanges.invalidateLocations found.dedup } : A32EmitX64) = c₁
    obtain ⟨links, hunpatch⟩ := foldl_unpatch_eraseDescriptor_eq found.dedup c₁
    generalize hc₂ : ({ c₁ with
      links, blockDescriptors := without c₁.blockDescriptors found.dedup } : A32EmitX64) = c₂
    rw [hunpatch, hc₂]
    refine ⟨?_, fun target kind slot => ?_⟩
    · obtain ⟨patchInformation, hforget⟩ := c₂.forgetPatchLocations_eq (c.codeRanges found)
      rw [hforget, ← hc₂, ← hc₁]
      exact ⟨links, patchInformation, _, rfl⟩
    · have hstores := c₂.stores_forgetPatchLocations (c.codeRanges found) target kind slot
      have hsame : c₂.Stores target kind slot ↔ c.Stores target kind slot := by
        rw [← hc₂, ← hc₁]
        rfl
      simp only [codeRanges_dedup, ← hsame]
      exact hstores

/-! ### Emission -/

theorem registerBlock_eq (c : A32EmitX64) (d : LocationDescriptor) (b : BlockDescriptor)
    (hnone : c.blockDescriptors d = none) : ∃ links, c.registerBlock d b =
      { c with links, blockDescriptors := Function.update c.blockDescriptors d (some b) } := by
  unfold registerBlock
  split
  · exact ⟨c.links, by simp only [hnone]⟩
  · obtain ⟨links, h⟩ := c.patch_eq d (some b.entrypoint)
    exact ⟨links, by simp only [h, hnone]⟩

theorem foldl_emitSite_spec (entrypoint : CodePtr) (sites : List PatchSite) (c : A32EmitX64) :
    (∃ links patchInformation, sites.foldl (emitSite entrypoint) c =
        { c with links, patchInformation }) ∧
      ∀ target kind slot, (sites.foldl (emitSite entrypoint) c).Stores target kind slot ↔
        c.Stores target kind slot ∨ ∃ site ∈ sites, site.target = target ∧ site.kind = kind ∧
          slot = ⟨entrypoint + site.offset, c.emissions⟩ := by
  induction sites generalizing c with
  | nil => exact ⟨⟨c.links, c.patchInformation, rfl⟩, by simp⟩
  | cons site sites ih =>
      obtain ⟨⟨links, patchInformation, hfields⟩, hstores⟩ := ih (emitSite entrypoint c site)
      rw [List.foldl_cons]
      refine ⟨⟨links, patchInformation, hfields⟩, fun target kind slot => ?_⟩
      have hone : (emitSite entrypoint c site).Stores target kind slot ↔
          c.Stores target kind slot ∨ site.target = target ∧ site.kind = kind ∧
            slot = ⟨entrypoint + site.offset, c.emissions⟩ := by
        by_cases htarget : site.target = target
        · subst htarget
          cases hp : c.patchInformation site.target with
          | none =>
              simp [Stores, emitSite, hp, PatchInformation.mem_slots_push, eq_comm]
          | some p =>
              simp [Stores, emitSite, hp, PatchInformation.mem_slots_push, eq_comm]
        · simp [Stores, emitSite, htarget, Function.update_of_ne (Ne.symm htarget)]
      rw [hstores, hone, or_assoc, List.exists_mem_cons_iff]
      rfl

theorem registerBlock_links (c : A32EmitX64) (d : LocationDescriptor) (b : BlockDescriptor) :
    (c.registerBlock d b).links =
      if c.linked then c.links else (c.patch d (some b.entrypoint)).links := by
  unfold registerBlock
  simp only
  split <;> split <;> rfl

/-- Behind the code of the block, what waited for it is patched unless the executors are
linked. -/
theorem emit_links (c : A32EmitX64) (block : Block PatchSite) : (c.emit block).2.links =
    let emitted := block.slots.foldl (emitSite (c.emit block).1) c
    if c.linked then emitted.links
    else (emitted.patch block.location (some (c.emit block).1)).links := by
  obtain ⟨⟨links, patchInformation, hfields⟩, -⟩ :=
    foldl_emitSite_spec (align c.codePtr) block.slots c
  refine (registerBlock_links _ _ _).trans ?_
  simp only [emit, hfields]
  congr 1
  funext a
  rw [patch_links, patch_links]
  rfl

theorem emit_spec (h : c.emit block = (p, c')) (hnone : c.blockDescriptors block.location = none) :
    p = align c.codePtr ∧
      (∃ links patchInformation, c' =
        { c with
          links, patchInformation
          codePtr := p + block.size
          blockDescriptors :=
            Function.update c.blockDescriptors block.location (some ⟨p, block.size⟩)
          blockRanges := c.blockRanges.addRange block.range block.location
          blocksByEntrypoint := (p, block.location) :: c.blocksByEntrypoint.filter (·.1 ≠ p)
          emissions := c.emissions + 1 }) ∧
      ∀ target kind slot, c'.Stores target kind slot ↔ c.Stores target kind slot ∨
        ∃ site ∈ block.slots, site.target = target ∧ site.kind = kind ∧
          slot = ⟨p + site.offset, c.emissions⟩ := by
  obtain ⟨⟨links, patchInformation, hfields⟩, hstores⟩ :=
    foldl_emitSite_spec (align c.codePtr) block.slots c
  simp only [emit, hfields, Prod.mk.injEq] at h
  obtain ⟨rfl, rfl⟩ := h
  generalize hc₁ : ({ c with
    links, patchInformation
    codePtr := align c.codePtr + block.size
    blockRanges := c.blockRanges.addRange block.range block.location
    emissions := c.emissions + 1 } : A32EmitX64) = c₁
  obtain ⟨links', hregister⟩ := c₁.registerBlock_eq block.location
    ⟨align c.codePtr, block.size⟩ (by rw [← hc₁]; exact hnone)
  rw [hregister, ← hc₁]
  refine ⟨rfl, ⟨links', patchInformation, rfl⟩, fun target kind slot => ?_⟩
  rw [← hstores, hfields]
  rfl

theorem invalidateCacheRanges_spec (c : A32EmitX64) (ranges : IntervalSet) :
    ∃ ds, (∀ d, d ∈ ds ↔ ∃ a, ranges.Covers a ∧ c.blockRanges.Registered d a) ∧
      (∃ links patchInformation, c.invalidateCacheRanges ranges =
        { c.unlist ds with
          links, patchInformation
          blockDescriptors := without c.blockDescriptors ds
          blockRanges := (c.blockRanges.invalidateRanges ranges).2 }) ∧
      ∀ target kind slot, (c.invalidateCacheRanges ranges).Stores target kind slot ↔
        c.Stores target kind slot ∧
          ¬(c.linked = true ∧ ∃ r ∈ c.codeRanges ds, r.Contains slot.address) := by
  obtain ⟨hfields, hstores⟩ := invalidateLocations_spec
    { c with blockRanges := (c.blockRanges.invalidateRanges ranges).2 }
    (c.blockRanges.locationsMeeting ranges)
  exact ⟨_, fun d => BlockRangeInformation.mem_locationsMeeting, hfields, hstores⟩

/-- `Emit` as the slab calls it, followed by the publication of the new target. -/
def emitForSlab (c : A32EmitX64) (block : Block PatchSite) (mode : EmitMode) :
    Option (CodePtr × A32EmitX64) :=
  let (entrypoint, c) := c.emit block
  some (entrypoint, c.publishDirectLinkTarget mode block.location entrypoint)

def entrypointOf (c : A32EmitX64) (d : LocationDescriptor) : Option CodePtr :=
  (c.blockDescriptors d).map (·.entrypoint)

theorem emitForSlab_eq {mode : EmitMode} (h : c.emitForSlab block mode = some (p, c')) :
    ∃ c₁ links pendingDirectLinkTargets, c.emit block = (p, c₁) ∧
      c' = { c₁ with links, pendingDirectLinkTargets } := by
  simp only [emitForSlab, Option.some.injEq, Prod.mk.injEq] at h
  obtain ⟨rfl, rfl⟩ := h
  obtain ⟨links, pending, hpublish⟩ := (c.emit block).2.publishDirectLinkTarget_eq mode
    block.location (c.emit block).1
  exact ⟨_, links, pending, rfl, hpublish⟩

theorem entrypointOf_emitForSlab {mode : EmitMode} (h : c.emitForSlab block mode = some (p, c'))
    (hnone : c.entrypointOf block.location = none) :
    c'.entrypointOf = Function.update c.entrypointOf block.location (some p) := by
  obtain ⟨c₁, links, pending, hemit, rfl⟩ := emitForSlab_eq h
  obtain ⟨-, ⟨links', patchInformation, rfl⟩, -⟩ :=
    emit_spec hemit (Option.map_eq_none_iff.mp hnone)
  funext d
  by_cases hd : d = block.location
  · simp [entrypointOf, hd]
  · simp [entrypointOf, hd]

theorem registerBlock_blockRanges (c : A32EmitX64) (d : LocationDescriptor)
    (b : BlockDescriptor) : (c.registerBlock d b).blockRanges = c.blockRanges := by
  obtain ⟨links, hpatch⟩ := c.patch_eq d (some b.entrypoint)
  cases hlinked : c.linked <;> cases hblock : c.blockDescriptors d <;>
    simp [registerBlock, hpatch, hlinked, hblock]

theorem emitForSlab_blockRanges {mode : EmitMode} (h : c.emitForSlab block mode = some (p, c')) :
    c'.blockRanges = c.blockRanges.addRange block.range block.location := by
  obtain ⟨c₁, links, pending, hemit, rfl⟩ := emitForSlab_eq h
  obtain ⟨⟨links', patchInformation, hfields⟩, -⟩ :=
    foldl_emitSite_spec (align c.codePtr) block.slots c
  simp only [emit, hfields, Prod.mk.injEq] at hemit
  obtain ⟨-, rfl⟩ := hemit
  exact registerBlock_blockRanges _ _ _

theorem entrypointOf_without (c : A32EmitX64) (ds : List LocationDescriptor)
    (d : LocationDescriptor) : (without c.blockDescriptors ds d).map (·.entrypoint) =
      if d ∈ ds then none else c.entrypointOf d := by
  unfold without entrypointOf
  split <;> rfl

theorem entrypointOf_invalidateBasicBlocks (c : A32EmitX64) (ds : List LocationDescriptor)
    (d : LocationDescriptor) : (c.invalidateBasicBlocks ds).entrypointOf d =
      if d ∈ ds then none else c.entrypointOf d := by
  obtain ⟨links, h⟩ := c.invalidateBasicBlocks_eq ds
  rw [h, ← entrypointOf_without]
  rfl

theorem entrypointOf_invalidateCacheRanges (c : A32EmitX64) (ranges : IntervalSet)
    (d : LocationDescriptor) [Decidable (∃ a, ranges.Covers a ∧ c.blockRanges.Registered d a)] :
    (c.invalidateCacheRanges ranges).entrypointOf d =
      if ∃ a, ranges.Covers a ∧ c.blockRanges.Registered d a then none else c.entrypointOf d := by
  obtain ⟨ds, hds, ⟨links, patchInformation, hc⟩, -⟩ := c.invalidateCacheRanges_spec ranges
  rw [hc]
  simp only [entrypointOf, entrypointOf_without, hds]

theorem invalidateCacheRanges_blockRanges (c : A32EmitX64) (ranges : IntervalSet) :
    (c.invalidateCacheRanges ranges).blockRanges = (c.blockRanges.invalidateRanges ranges).2 := by
  obtain ⟨ds, -, ⟨links, patchInformation, hc⟩, -⟩ := c.invalidateCacheRanges_spec ranges
  rw [hc]

theorem not_listedWithin_of_empty {d : LocationDescriptor} (h : first = 0 ∨ last ≤ first) :
    ¬c.ListedWithin d first last := by
  rintro ⟨hfirst, p, -, hlo, hhi⟩
  exact h.elim hfirst (hlo.trans_lt hhi).not_ge

open scoped Classical in
theorem entrypointOf_retireCodeRange (c : A32EmitX64) (first last : CodePtr)
    (d : LocationDescriptor) :
    (c.retireCodeRange first last).2.entrypointOf d =
      if c.ListedWithin d first last then none else c.entrypointOf d := by
  by_cases h : first = 0 ∨ last ≤ first
  · rw [retireCodeRange_of_empty h, if_neg (not_listedWithin_of_empty h)]
  · obtain ⟨hfirst, hlt⟩ := not_or.mp h
    obtain ⟨ds, hds, ⟨links, patchInformation, retired, hc⟩, -⟩ :=
      retireCodeRange_spec (c := c) hfirst (not_le.mp hlt)
    rw [hc]
    simp only [entrypointOf, entrypointOf_without, hds]

theorem registered_retireCodeRange (c : A32EmitX64) (first last : CodePtr)
    (d : LocationDescriptor) (a : ℕ) :
    (c.retireCodeRange first last).2.blockRanges.Registered d a ↔
      c.blockRanges.Registered d a ∧ ¬c.ListedWithin d first last := by
  by_cases h : first = 0 ∨ last ≤ first
  · rw [retireCodeRange_of_empty h, and_iff_left (not_listedWithin_of_empty h)]
  · obtain ⟨hfirst, hlt⟩ := not_or.mp h
    obtain ⟨ds, hds, ⟨links, patchInformation, retired, hc⟩, -⟩ :=
      retireCodeRange_spec (c := c) hfirst (not_le.mp hlt)
    rw [hc, BlockRangeInformation.registered_invalidateLocations, hds]

end A32EmitX64

instance : CodeCache A32EmitX64 PatchSite where
  get c := c.entrypointOf
  blockSize c d := (c.blockDescriptors d).elim 0 (·.size)
  Registered c := c.blockRanges.Registered
  RetiredBy c := c.ListedWithin
  currentCodePtr c := c.codePtr
  setCurrentCodePtr c p := { c with codePtr := p }
  emit c := c.emitForSlab
  republish c d p mode := c.publishDirectLinkTarget mode d p
  publishLinks c := c.publishLinks
  clearCache c := c.clearCache
  invalidateCacheRanges c := c.invalidateCacheRanges
  retireCodeRange c := c.retireCodeRange
  invalidateBasicBlocks c := c.invalidateBasicBlocks
  get_setCurrentCodePtr _ _ := rfl
  registered_setCurrentCodePtr _ _ := rfl
  get_emit h hnone := A32EmitX64.entrypointOf_emitForSlab h hnone
  registered_emit h d a := by
    rw [← BlockRangeInformation.registered_addRange, A32EmitX64.emitForSlab_blockRanges h]
  get_republish c d p mode := by
    obtain ⟨links, pending, h⟩ := c.publishDirectLinkTarget_eq mode d p
    rw [h]
    rfl
  registered_republish c d p mode := by
    obtain ⟨links, pending, h⟩ := c.publishDirectLinkTarget_eq mode d p
    rw [h]
  get_publishLinks c := by
    obtain ⟨links, h⟩ := c.publishLinks_eq
    rw [h]
    rfl
  registered_publishLinks c := by
    obtain ⟨links, h⟩ := c.publishLinks_eq
    rw [h]
  get_clearCache _ _ := rfl
  registered_clearCache c := c.blockRanges.not_registered_clearCache
  get_invalidateCacheRanges_of_meets := by
    intro c ranges d a hcovers hregistered
    classical
    rw [A32EmitX64.entrypointOf_invalidateCacheRanges, if_pos ⟨a, hcovers, hregistered⟩]
  get_invalidateCacheRanges_of_clear := by
    intro c ranges d hclear
    classical
    rw [A32EmitX64.entrypointOf_invalidateCacheRanges,
      if_neg fun ⟨a, hcovers, hregistered⟩ => hclear a hcovers hregistered]
  registered_invalidateCacheRanges c ranges d a := by
    rw [A32EmitX64.invalidateCacheRanges_blockRanges,
      BlockRangeInformation.registered_invalidateRanges]
  get_retireCodeRange_of_retiredBy := by
    intro c d first last h
    rw [A32EmitX64.entrypointOf_retireCodeRange, if_pos h]
  get_retireCodeRange_of_not := by
    intro c d first last h
    rw [A32EmitX64.entrypointOf_retireCodeRange, if_neg h]
  registered_retireCodeRange := A32EmitX64.registered_retireCodeRange
  get_invalidateBasicBlocks := A32EmitX64.entrypointOf_invalidateBasicBlocks
  registered_invalidateBasicBlocks c ds := by
    obtain ⟨links, h⟩ := c.invalidateBasicBlocks_eq ds
    rw [h]

end Umbra.X64
