import Umbra.Backend.CodeCache

/-!
The code cache of the arm64 backend.

An `AddressSpace` files emitted blocks under their descriptors and keeps enough
about each to rewrite the links between them: a block that jumps to another has
a link slot for it, and the slot is written whenever the other block appears or
goes.  The machine code itself is not modelled; of the code memory only the
contents of the link slots are, since they are what the bookkeeping changes
after emission.
-/

namespace Umbra.Arm64

open Umbra.Lib Umbra.IR Umbra.Backend

inductive BlockRelocationType
  /-- A direct branch, a `NOP` when unlinked. -/
  | branch
  /-- A code address loaded for the return stack, `return_to_dispatcher` when
  unlinked. -/
  | moveToScratch1
deriving DecidableEq

/-- One link slot of a block: `codeOffset` bytes behind its entry point, for the
block of `target`. -/
structure BlockRelocation where
  target : LocationDescriptor
  codeOffset : ℕ
  type : BlockRelocationType
deriving DecidableEq

structure EmittedBlockInfo where
  entryPoint : CodePtr
  size : ℕ
  blockRelocations : List BlockRelocation
deriving DecidableEq

namespace EmittedBlockInfo

def Overlaps (x y : EmittedBlockInfo) : Prop :=
  x.entryPoint < y.entryPoint + y.size ∧ y.entryPoint < x.entryPoint + x.size

instance (x y : EmittedBlockInfo) : Decidable (x.Overlaps y) :=
  inferInstanceAs (Decidable (_ ∧ _))

end EmittedBlockInfo

def WellFormed (size : ℕ) (slots : List BlockRelocation) : Prop :=
  0 < size ∧ (∀ slot ∈ slots, slot.codeOffset < size) ∧ (slots.map (·.codeOffset)).Nodup

instance (size : ℕ) (slots : List BlockRelocation) : Decidable (WellFormed size slots) :=
  inferInstanceAs (Decidable (_ ∧ _ ∧ _))

/-- The arm64 code cache.  `links` gives the block entry a link slot leads to,
`none` for an unlinked one.  Every entry point is listed in the reverse map. -/
structure AddressSpace where
  codeCacheSize : ℕ
  endOfPrelude : CodePtr
  codePtr : CodePtr
  blockEntries : LocationDescriptor → Option CodePtr
  reverseBlockEntries : List (CodePtr × LocationDescriptor)
  blockInfos : CodePtr → Option EmittedBlockInfo
  blockReferences : LocationDescriptor → List CodePtr
  deferBlockRelinks : Bool
  pendingBlockRelinks : List LocationDescriptor
  retiredCodeBytes : ℕ
  blockRanges : BlockRangeInformation
  links : CodePtr → Option CodePtr
  listed : ∀ d p, blockEntries d = some p → (p, d) ∈ reverseBlockEntries

namespace AddressSpace

def empty (codeCacheSize endOfPrelude : ℕ) : AddressSpace where
  codeCacheSize := codeCacheSize
  endOfPrelude := endOfPrelude
  codePtr := endOfPrelude
  blockEntries := fun _ => none
  reverseBlockEntries := []
  blockInfos := fun _ => none
  blockReferences := fun _ => []
  deferBlockRelinks := false
  pendingBlockRelinks := []
  retiredCodeBytes := 0
  blockRanges := .empty
  links := fun _ => none
  listed := by simp

/-! ### Links -/

def linkBlockLinks (c : AddressSpace) (entryPoint : CodePtr) (target : Option CodePtr)
    (slots : List BlockRelocation) : AddressSpace :=
  { c with
    links := slots.foldl
      (fun links slot => Function.update links (entryPoint + slot.codeOffset) target) c.links }

/-- The body of the loop of `RelinkForDescriptor`. -/
def relinkReference (d : LocationDescriptor) (target : Option CodePtr) (c : AddressSpace)
    (codePtr : CodePtr) : AddressSpace :=
  match c.blockInfos codePtr with
  | none => c
  | some info =>
      c.linkBlockLinks info.entryPoint target (info.blockRelocations.filter (·.target = d))

def relinkForDescriptor (c : AddressSpace) (d : LocationDescriptor) (target : Option CodePtr) :
    AddressSpace :=
  (c.blockReferences d).foldl (relinkReference d target) c

def linkSlot (entryPoint : CodePtr) (c : AddressSpace) (slot : BlockRelocation) :
    AddressSpace :=
  let c := { c with
    blockReferences := Function.update c.blockReferences slot.target
      ((c.blockReferences slot.target).insert entryPoint) }
  c.linkBlockLinks entryPoint (c.blockEntries slot.target) [slot]

def link (c : AddressSpace) (info : EmittedBlockInfo) : AddressSpace :=
  info.blockRelocations.foldl (linkSlot info.entryPoint) c

def publishPendingBlockRelinks (c : AddressSpace) : AddressSpace :=
  let relinked := c.pendingBlockRelinks.foldl
    (fun c d => match c.blockEntries d with
      | none => c
      | some target => c.relinkForDescriptor d (some target)) c
  { relinked with pendingBlockRelinks := [] }

/-! Writing links changes nothing but link slots. -/

variable (c : AddressSpace)

theorem relinkForDescriptor_eq (d : LocationDescriptor) (target : Option CodePtr) :
    ∃ links, c.relinkForDescriptor d target = { c with links } := by
  unfold relinkForDescriptor
  generalize c.blockReferences d = references
  induction references generalizing c with
  | nil => exact ⟨c.links, rfl⟩
  | cons codePtr references ih =>
      have hstep : ∃ links, relinkReference d target c codePtr = { c with links } := by
        unfold relinkReference
        split
        · exact ⟨_, rfl⟩
        · exact ⟨_, rfl⟩
      obtain ⟨links, hlinks⟩ := hstep
      obtain ⟨links', hrest⟩ := ih { c with links }
      exact ⟨links', by rw [List.foldl_cons, hlinks, hrest]⟩

theorem link_eq (info : EmittedBlockInfo) : ∃ links blockReferences,
    c.link info = { c with links, blockReferences } := by
  unfold link
  generalize info.blockRelocations = slots
  induction slots generalizing c with
  | nil => exact ⟨c.links, c.blockReferences, rfl⟩
  | cons slot slots ih =>
      obtain ⟨links, blockReferences, hrest⟩ := ih (linkSlot info.entryPoint c slot)
      exact ⟨links, blockReferences, by rw [List.foldl_cons, hrest]; rfl⟩

def HasSlot (c : AddressSpace) (slot : BlockRelocation) (a : CodePtr) : Prop :=
  ∃ p info, c.blockInfos p = some info ∧ slot ∈ info.blockRelocations ∧
    a = info.entryPoint + slot.codeOffset

theorem linkBlockLinks_links (entryPoint : CodePtr) (target : Option CodePtr)
    (slots : List BlockRelocation) (a : CodePtr) :
    (c.linkBlockLinks entryPoint target slots).links a = c.links a ∨
      (c.linkBlockLinks entryPoint target slots).links a = target ∧
        ∃ slot ∈ slots, a = entryPoint + slot.codeOffset := by
  unfold linkBlockLinks
  generalize c.links = links
  induction slots generalizing links with
  | nil => exact .inl rfl
  | cons slot slots ih =>
      rw [List.foldl_cons]
      rcases ih (Function.update links (entryPoint + slot.codeOffset) target) with
        h | ⟨h, slot', hslot', ha⟩
      · by_cases ha : a = entryPoint + slot.codeOffset
        · exact .inr ⟨by rw [h, ha, Function.update_self], slot, List.mem_cons_self, ha⟩
        · exact .inl (by rw [h, Function.update_of_ne ha])
      · exact .inr ⟨h, slot', List.mem_cons_of_mem slot hslot', ha⟩

theorem linkBlockLinks_of_mem {c : AddressSpace} {entryPoint : CodePtr}
    {target : Option CodePtr} {slots : List BlockRelocation} {slot : BlockRelocation}
    (hslot : slot ∈ slots) :
    (c.linkBlockLinks entryPoint target slots).links (entryPoint + slot.codeOffset) = target := by
  unfold linkBlockLinks
  generalize c.links = links
  induction slots generalizing links with
  | nil => cases hslot
  | cons first slots ih =>
      rw [List.foldl_cons]
      rcases List.mem_cons.mp hslot with rfl | hrest
      · rcases linkBlockLinks_links
          { c with links := Function.update links (entryPoint + slot.codeOffset) target }
          entryPoint target slots (entryPoint + slot.codeOffset) with h | ⟨h, -⟩
        · exact h.trans (Function.update_self _ _ _)
        · exact h
      · exact ih hrest _

/-- Relinking a target touches only the slots for it. -/
theorem foldl_relinkReference_links (references : List CodePtr) (c : AddressSpace)
    (d : LocationDescriptor) (target : Option CodePtr) (a : CodePtr) :
    (references.foldl (relinkReference d target) c).links a = c.links a ∨
      (references.foldl (relinkReference d target) c).links a = target ∧
        ∃ slot, c.HasSlot slot a ∧ slot.target = d := by
  induction references generalizing c with
  | nil => exact .inl rfl
  | cons codePtr references ih =>
      rw [List.foldl_cons]
      cases hinfo : c.blockInfos codePtr with
      | none =>
          simp only [relinkReference, hinfo]
          exact ih c
      | some info =>
          have hstep : relinkReference d target c codePtr = c.linkBlockLinks info.entryPoint
              target (info.blockRelocations.filter (·.target = d)) := by
            simp only [relinkReference, hinfo]
          rw [hstep]
          rcases ih (c.linkBlockLinks info.entryPoint target
            (info.blockRelocations.filter (·.target = d))) with h | h
          · rcases c.linkBlockLinks_links info.entryPoint target
              (info.blockRelocations.filter (·.target = d)) a with h' | ⟨h', slot, hslot, ha⟩
            · exact .inl (h.trans h')
            · obtain ⟨hmem, htarget⟩ := List.mem_filter.mp hslot
              exact .inr ⟨h.trans h', slot, ⟨codePtr, info, hinfo, hmem, ha⟩,
                by simpa using htarget⟩
          · exact .inr h

theorem relinkForDescriptor_links (d : LocationDescriptor) (target : Option CodePtr) (a : CodePtr) :
    (c.relinkForDescriptor d target).links a = c.links a ∨
      (c.relinkForDescriptor d target).links a = target ∧
        ∃ slot, c.HasSlot slot a ∧ slot.target = d :=
  foldl_relinkReference_links _ c d target a

theorem link_links (info : EmittedBlockInfo) (a : CodePtr) :
    ((∀ slot ∈ info.blockRelocations, a ≠ info.entryPoint + slot.codeOffset) ∧
        (c.link info).links a = c.links a) ∨
      ∃ slot ∈ info.blockRelocations, a = info.entryPoint + slot.codeOffset ∧
        (c.link info).links a = c.blockEntries slot.target := by
  unfold link
  generalize info.blockRelocations = slots
  induction slots generalizing c with
  | nil => exact .inl ⟨by simp, rfl⟩
  | cons slot slots ih =>
      rw [List.foldl_cons]
      rcases ih (linkSlot info.entryPoint c slot) with ⟨hnot, h⟩ | ⟨slot', hslot', ha, h⟩
      · by_cases ha : a = info.entryPoint + slot.codeOffset
        · refine .inr ⟨slot, List.mem_cons_self, ha, h.trans ?_⟩
          subst ha
          exact Function.update_self _ _ _
        · exact .inl ⟨List.forall_mem_cons.mpr ⟨ha, hnot⟩,
            h.trans (Function.update_of_ne ha _ _)⟩
      · exact .inr ⟨slot', List.mem_cons_of_mem slot hslot', ha, h⟩

theorem publishPendingBlockRelinks_eq : ∃ links,
    c.publishPendingBlockRelinks = { c with links, pendingBlockRelinks := [] } := by
  have hfold : ∀ ds : List LocationDescriptor, ∀ c : AddressSpace, ∃ links,
      ds.foldl (fun c d => match c.blockEntries d with
        | none => c
        | some target => c.relinkForDescriptor d (some target)) c = { c with links } := by
    intro ds
    induction ds with
    | nil => exact fun c => ⟨c.links, rfl⟩
    | cons d ds ih =>
        intro c
        rw [List.foldl_cons]
        split
        · exact ih c
        · rename_i target _
          obtain ⟨links, hlinks⟩ := c.relinkForDescriptor_eq d (some target)
          obtain ⟨links', hrest⟩ := ih { c with links }
          exact ⟨links', by rw [hlinks, hrest]⟩
  obtain ⟨links, h⟩ := hfold c.pendingBlockRelinks c
  exact ⟨links, by rw [publishPendingBlockRelinks, h]⟩

/-! ### Blocks -/

def eraseEntry (c : AddressSpace) (d : LocationDescriptor) : AddressSpace :=
  { c with
    blockEntries := Function.update c.blockEntries d none
    pendingBlockRelinks := c.pendingBlockRelinks.erase d
    listed := by
      intro e p h
      by_cases he : e = d
      · subst he
        simp at h
      · rw [Function.update_of_ne he] at h
        exact c.listed e p h }

/-- The three insertions of `EmitBlock` for a block placed at the code pointer. -/
def enterBlock (c : AddressSpace) (location : LocationDescriptor) (info : EmittedBlockInfo) :
    AddressSpace :=
  { c with
    codePtr := info.entryPoint + info.size
    blockEntries := Function.update c.blockEntries location (some info.entryPoint)
    reverseBlockEntries := c.reverseBlockEntries.orderedInsert (fun x y => x.1 ≤ y.1)
      (info.entryPoint, location)
    blockInfos := Function.update c.blockInfos info.entryPoint (some info)
    listed := by
      intro e p h
      rw [List.mem_orderedInsert]
      by_cases he : e = location
      · subst he
        simp only [Function.update_self, Option.some.injEq] at h
        exact .inl (by rw [h])
      · rw [Function.update_of_ne he] at h
        exact .inr (c.listed e p h) }

def registerNewBasicBlock (c : AddressSpace) (range : Option Interval)
    (location : LocationDescriptor) : AddressSpace :=
  { c with blockRanges := c.blockRanges.addRange range location }

def emitBlock (c : AddressSpace) (block : Block BlockRelocation) :
    Option (EmittedBlockInfo × AddressSpace) :=
  let info : EmittedBlockInfo := ⟨c.codePtr, block.size, block.slots⟩
  if (c.blockEntries block.location).isSome || c.reverseBlockEntries.any (·.1 == c.codePtr) ||
      (c.blockInfos c.codePtr).isSome then none
  else
    let c := (c.enterBlock block.location info).link info
    let c :=
      if c.deferBlockRelinks then
        { c with pendingBlockRelinks := c.pendingBlockRelinks.insert block.location }
      else c.relinkForDescriptor block.location (some info.entryPoint)
    some (info, c.registerNewBasicBlock block.range block.location)

/-- `GetRemainingSize`, in `size_t` arithmetic.  Host addresses are counted from
the start of the code memory. -/
def getRemainingSize (c : AddressSpace) : ℕ :=
  (c.codeCacheSize + 2 ^ 64 - c.codePtr) % 2 ^ 64

/-- `relinks_are_quiescent`: no executor but the caller is inside emitted code. -/
def relinksAreQuiescent (mode : EmitMode) : Bool :=
  !mode.sharedMode || mode.activeExecutions == if mode.callerExecuting then 1 else 0

/-- The emission `NativeCodeSlab::emit` makes: links into code that may be
running are left for later. -/
def emitForSlab (c : AddressSpace) (block : Block BlockRelocation) (mode : EmitMode) :
    Option (CodePtr × AddressSpace) :=
  let quiescent := relinksAreQuiescent mode
  match { c with deferBlockRelinks := !quiescent }.emitBlock block with
  | none => none
  | some (info, c) =>
      some (info.entryPoint, if quiescent then c.publishPendingBlockRelinks else c)

def invalidateBasicBlock (c : AddressSpace) (d : LocationDescriptor) : AddressSpace :=
  match c.blockEntries d with
  | none => c
  | some _ => (c.relinkForDescriptor d none).eraseEntry d

def invalidateBasicBlocks (c : AddressSpace) (descriptors : List LocationDescriptor) :
    AddressSpace :=
  descriptors.foldl invalidateBasicBlock c

def invalidateCacheRanges (c : AddressSpace) (ranges : IntervalSet) : AddressSpace :=
  let (locations, blockRanges) := c.blockRanges.invalidateRanges ranges
  { c with blockRanges := blockRanges }.invalidateBasicBlocks locations

def clearCache (c : AddressSpace) : AddressSpace :=
  { c with
    blockEntries := fun _ => none
    reverseBlockEntries := []
    blockInfos := fun _ => none
    blockReferences := fun _ => []
    pendingBlockRelinks := []
    codePtr := c.endOfPrelude
    listed := by simp }

/-- `Emit`: the whole cache is cleared when less than 1 MiB is left. -/
def emit (c : AddressSpace) (block : Block BlockRelocation) :
    Option (EmittedBlockInfo × AddressSpace) :=
  (if c.getRemainingSize < 1024 * 1024 then c.clearCache else c).emitBlock block

def getOrEmit (c : AddressSpace) (block : Block BlockRelocation) :
    Option (CodePtr × AddressSpace) :=
  match c.blockEntries block.location with
  | some p => some (p, c)
  | none => (c.emit block).map fun (info, c) => (info.entryPoint, c)

def clearCacheAndRanges (c : AddressSpace) : AddressSpace :=
  { c.clearCache with blockRanges := c.blockRanges.clearCache }

structure Retiring where
  space : AddressSpace
  retiredLocations : List LocationDescriptor
  stats : RetiredCodeStats

/-- The first half of the body of that loop: take the entry point out, if the
block at `entryPoint` is still the current one of its descriptor. -/
def Retiring.dropEntry (r : Retiring) (entryPoint : CodePtr) (d : LocationDescriptor) :
    Retiring :=
  if r.space.blockEntries d = some entryPoint then
    { space := (r.space.relinkForDescriptor d none).eraseEntry d
      retiredLocations := r.retiredLocations.insert d
      stats := ⟨r.stats.descriptors + 1, r.stats.codeBytes +
        ((r.space.blockInfos entryPoint).map (·.size)).getD 0⟩ }
  else r

/-- The second half: drop what the block refers to, and the block itself. -/
def forgetBlock (c : AddressSpace) (entryPoint : CodePtr) (d : LocationDescriptor)
    (hd : c.blockEntries d ≠ some entryPoint) : AddressSpace :=
  { c with
    blockReferences := ((c.blockInfos entryPoint).elim [] (·.blockRelocations)).foldl
      (fun references slot => Function.update references slot.target
        ((references slot.target).erase entryPoint)) c.blockReferences
    blockInfos := Function.update c.blockInfos entryPoint none
    reverseBlockEntries := c.reverseBlockEntries.filter (· ≠ (entryPoint, d))
    listed := by
      intro e p h
      refine List.mem_filter.mpr ⟨c.listed e p h, ?_⟩
      simp only [decide_eq_true_eq]
      rintro ⟨rfl, rfl⟩
      exact hd h }

theorem Retiring.dropEntry_ne (r : Retiring) (entryPoint : CodePtr)
    (d : LocationDescriptor) :
    (r.dropEntry entryPoint d).space.blockEntries d ≠ some entryPoint := by
  unfold Retiring.dropEntry
  split
  · simp [eraseEntry]
  · assumption

def Retiring.step (r : Retiring) (entry : CodePtr × LocationDescriptor) : Retiring :=
  let dropped := r.dropEntry entry.1 entry.2
  { dropped with
    space := dropped.space.forgetBlock entry.1 entry.2 (r.dropEntry_ne entry.1 entry.2) }

def retireCodeRange (c : AddressSpace) (first last : CodePtr) : Retiring :=
  if first = 0 ∨ last = 0 ∨ last ≤ first then ⟨c, [], ⟨0, 0⟩⟩
  else
    let r := (c.reverseBlockEntries.filter fun e => first ≤ e.1 && e.1 < last).foldl
      Retiring.step ⟨c, [], ⟨0, 0⟩⟩
    { r with space := { r.space with
      retiredCodeBytes := r.space.retiredCodeBytes + r.stats.codeBytes } }

def retireCodeRangeAndRanges (c : AddressSpace) (first last : CodePtr) :
    RetiredCodeStats × AddressSpace :=
  let r := c.retireCodeRange first last
  (r.stats, { r.space with
    blockRanges := r.space.blockRanges.invalidateLocations r.retiredLocations })

/-! ### What the operations do to entry points and ranges -/

@[simp] theorem relinkForDescriptor_blockEntries (d : LocationDescriptor) (target : Option CodePtr) :
    (c.relinkForDescriptor d target).blockEntries = c.blockEntries := by
  obtain ⟨links, h⟩ := c.relinkForDescriptor_eq d target
  rw [h]

@[simp] theorem relinkForDescriptor_blockRanges (d : LocationDescriptor) (target : Option CodePtr) :
    (c.relinkForDescriptor d target).blockRanges = c.blockRanges := by
  obtain ⟨links, h⟩ := c.relinkForDescriptor_eq d target
  rw [h]

theorem emitBlock_spec {c c' : AddressSpace} {block : Block BlockRelocation}
    {info : EmittedBlockInfo} (h : c.emitBlock block = some (info, c')) :
    info.entryPoint = c.codePtr ∧
      c'.blockEntries = Function.update c.blockEntries block.location (some info.entryPoint) ∧
      c'.blockRanges = c.blockRanges.addRange block.range block.location := by
  unfold emitBlock at h
  simp only [Option.ite_none_left_eq_some, Option.some.injEq, Prod.mk.injEq] at h
  obtain ⟨-, rfl, rfl⟩ := h
  obtain ⟨links, blockReferences, hlink⟩ := link_eq
    (c.enterBlock block.location ⟨c.codePtr, block.size, block.slots⟩)
    ⟨c.codePtr, block.size, block.slots⟩
  refine ⟨rfl, ?_, ?_⟩
  · rw [hlink, registerNewBasicBlock]
    split <;> simp [enterBlock]
  · rw [hlink, registerNewBasicBlock]
    split <;> simp [enterBlock]

/-- Emission places the block at the code pointer, and every link it writes leads
where `block_entries` says. -/
theorem emitBlock_code {c c' : AddressSpace} {block : Block BlockRelocation}
    {info : EmittedBlockInfo} (h : c.emitBlock block = some (info, c')) :
    info = ⟨c.codePtr, block.size, block.slots⟩ ∧ c'.codePtr = c.codePtr + block.size ∧
      c'.blockInfos = Function.update c.blockInfos c.codePtr (some info) ∧
      ∀ a, ((∀ slot ∈ block.slots, a ≠ c.codePtr + slot.codeOffset) ∧ c'.links a = c.links a) ∨
        ∃ slot, c'.HasSlot slot a ∧ c'.links a = c'.blockEntries slot.target := by
  unfold emitBlock at h
  simp only [Option.ite_none_left_eq_some, Option.some.injEq, Prod.mk.injEq] at h
  obtain ⟨-, rfl, rfl⟩ := h
  set info : EmittedBlockInfo := ⟨c.codePtr, block.size, block.slots⟩ with hinfo
  set entered := c.enterBlock block.location info with hentered
  have hself : entered.blockInfos c.codePtr = some info := Function.update_self _ _ _
  obtain ⟨hptr, hinfos, hentries⟩ : (entered.link info).codePtr = entered.codePtr ∧
      (entered.link info).blockInfos = entered.blockInfos ∧
      (entered.link info).blockEntries = entered.blockEntries := by
    obtain ⟨links, blockReferences, hlink⟩ := entered.link_eq info
    rw [hlink]
    exact ⟨rfl, rfl, rfl⟩
  have hlinked : ∀ a, ((∀ slot ∈ block.slots, a ≠ c.codePtr + slot.codeOffset) ∧
      (entered.link info).links a = c.links a) ∨ ∃ slot, (entered.link info).HasSlot slot a ∧
        (entered.link info).links a = (entered.link info).blockEntries slot.target := by
    intro a
    refine (entered.link_links info a).imp_right ?_
    rintro ⟨slot, hslot, ha, hlinks⟩
    exact ⟨slot, ⟨c.codePtr, info, by rw [hinfos, hself], hslot, ha⟩, by rw [hlinks, hentries]⟩
  generalize entered.link info = linked at hptr hinfos hentries hlinked
  have hself' : linked.blockEntries block.location = some info.entryPoint := by
    rw [hentries]
    exact Function.update_self _ _ _
  split
  · exact ⟨rfl, hptr, hinfos, hlinked⟩
  · obtain ⟨links', hrelink⟩ :=
      linked.relinkForDescriptor_eq block.location (some info.entryPoint)
    have hwritten := linked.relinkForDescriptor_links block.location (some info.entryPoint)
    rw [hrelink] at hwritten ⊢
    refine ⟨rfl, hptr, hinfos, fun a => ?_⟩
    rcases hwritten a with hkept | ⟨hnew, slot, hslot, htarget⟩
    · exact (hlinked a).imp (fun ⟨hnot, h⟩ => ⟨hnot, hkept.trans h⟩)
        fun ⟨slot, hslot, h⟩ => ⟨slot, hslot, hkept.trans h⟩
    · refine .inr ⟨slot, hslot, hnew.trans ?_⟩
      rw [htarget]
      exact hself'.symm

theorem invalidateBasicBlocks_code (ds : List LocationDescriptor) :
    (c.invalidateBasicBlocks ds).blockInfos = c.blockInfos ∧
      (c.invalidateBasicBlocks ds).codePtr = c.codePtr ∧
      ∀ a, (c.invalidateBasicBlocks ds).links a = c.links a ∨
        (c.invalidateBasicBlocks ds).links a = none := by
  unfold invalidateBasicBlocks
  induction ds generalizing c with
  | nil => exact ⟨rfl, rfl, fun _ => .inl rfl⟩
  | cons d ds ih =>
      have hstep : (c.invalidateBasicBlock d).blockInfos = c.blockInfos ∧
          (c.invalidateBasicBlock d).codePtr = c.codePtr ∧
          ∀ a, (c.invalidateBasicBlock d).links a = c.links a ∨
            (c.invalidateBasicBlock d).links a = none := by
        unfold invalidateBasicBlock
        split
        · exact ⟨rfl, rfl, fun _ => .inl rfl⟩
        · obtain ⟨links, hrelink⟩ := c.relinkForDescriptor_eq d none
          refine ⟨by rw [hrelink]; rfl, by rw [hrelink]; rfl, fun a => ?_⟩
          exact (c.relinkForDescriptor_links d none a).imp_right fun h => h.1
      obtain ⟨hinfos, hptr, hlinks⟩ := ih (c.invalidateBasicBlock d)
      refine ⟨hinfos.trans hstep.1, hptr.trans hstep.2.1, fun a => ?_⟩
      rcases hlinks a with h | h
      · exact (hstep.2.2 a).imp h.trans h.trans
      · exact .inr h

theorem emitForSlab_spec {c c' : AddressSpace} {block : Block BlockRelocation} {mode : EmitMode}
    {p : CodePtr} (h : c.emitForSlab block mode = some (p, c')) :
    c'.blockEntries = Function.update c.blockEntries block.location (some p) ∧
      c'.blockRanges = c.blockRanges.addRange block.range block.location := by
  unfold emitForSlab at h
  simp only at h
  split at h
  · cases h
  · rename_i info c₁ hemit
    obtain ⟨-, hentries, hranges⟩ := emitBlock_spec hemit
    obtain ⟨links, hpublish⟩ := c₁.publishPendingBlockRelinks_eq
    simp only [Option.some.injEq, Prod.mk.injEq] at h
    obtain ⟨rfl, rfl⟩ := h
    split
    · exact ⟨by rw [hpublish]; exact hentries, by rw [hpublish]; exact hranges⟩
    · exact ⟨hentries, hranges⟩

theorem invalidateBasicBlock_blockEntries (d : LocationDescriptor) :
    (c.invalidateBasicBlock d).blockEntries = Function.update c.blockEntries d none := by
  unfold invalidateBasicBlock
  split
  · rename_i h
    exact (Function.update_eq_self_iff.mpr h.symm).symm
  · simp [eraseEntry]

theorem invalidateBasicBlocks_spec (ds : List LocationDescriptor) :
    (∀ d, (c.invalidateBasicBlocks ds).blockEntries d =
        if d ∈ ds then none else c.blockEntries d) ∧
      (c.invalidateBasicBlocks ds).blockRanges = c.blockRanges := by
  unfold invalidateBasicBlocks
  induction ds generalizing c with
  | nil => simp
  | cons e ds ih =>
      obtain ⟨hentries, hranges⟩ := ih (c.invalidateBasicBlock e)
      refine ⟨fun d => ?_, ?_⟩
      · rw [List.foldl_cons, hentries, invalidateBasicBlock_blockEntries]
        by_cases hd : d = e
        · simp [hd]
        · simp [hd]
      · rw [List.foldl_cons, hranges]
        unfold invalidateBasicBlock
        split <;> simp [eraseEntry]

theorem Retiring.step_space (r : Retiring) (p : CodePtr) (d : LocationDescriptor) :
    (r.step (p, d)).space.blockEntries =
        (if r.space.blockEntries d = some p then Function.update r.space.blockEntries d none
          else r.space.blockEntries) ∧
      (r.step (p, d)).space.blockRanges = r.space.blockRanges ∧
      ∀ e, e ∈ (r.step (p, d)).retiredLocations ↔
        e ∈ r.retiredLocations ∨ e = d ∧ r.space.blockEntries d = some p := by
  unfold Retiring.step Retiring.dropEntry
  split
  · rename_i h
    simp [forgetBlock, eraseEntry, h, or_comm]
  · rename_i h
    simp [forgetBlock, h]

/-- The loop of `RetireCodeRange` takes out the descriptors whose entry point is
among those it visits, and collects exactly these. -/
theorem retiring_foldl_spec (entries : List (CodePtr × LocationDescriptor)) (r : Retiring) :
    (∀ d, (entries.foldl Retiring.step r).space.blockEntries d =
        if ∃ p, r.space.blockEntries d = some p ∧ (p, d) ∈ entries then none
          else r.space.blockEntries d) ∧
      (entries.foldl Retiring.step r).space.blockRanges = r.space.blockRanges ∧
      ∀ d, d ∈ (entries.foldl Retiring.step r).retiredLocations ↔
        d ∈ r.retiredLocations ∨ ∃ p, r.space.blockEntries d = some p ∧ (p, d) ∈ entries := by
  induction entries generalizing r with
  | nil => simp
  | cons entry entries ih =>
      obtain ⟨p, d⟩ := entry
      obtain ⟨hentries, hranges, hretired⟩ := r.step_space p d
      obtain ⟨ihentries, ihranges, ihretired⟩ := ih (r.step (p, d))
      rw [List.foldl_cons]
      refine ⟨fun e => ?_, ihranges.trans hranges, fun e => ?_⟩
      · rw [ihentries, hentries]
        by_cases hd : r.space.blockEntries d = some p
        · by_cases he : e = d
          · simp [he, hd]
          · simp [he, hd]
        · simp only [hd, ↓reduceIte, List.mem_cons, Prod.mk.injEq]
          congr 1
          simp only [eq_iff_iff]
          refine exists_congr fun q => and_congr_right fun hq => ?_
          constructor
          · exact .inr
          · rintro (⟨rfl, rfl⟩ | h)
            · exact absurd hq hd
            · exact h
      · rw [ihretired, hretired, hentries]
        by_cases hd : r.space.blockEntries d = some p
        · by_cases he : e = d
          · simp [he, hd]
          · simp [he, hd]
        · simp only [hd, and_false, or_false, ↓reduceIte, List.mem_cons, Prod.mk.injEq]
          refine or_congr_right (exists_congr fun q => and_congr_right fun hq => ?_)
          constructor
          · exact .inr
          · rintro (⟨rfl, rfl⟩ | h)
            · exact absurd hq hd
            · exact h

def EntryWithin (c : AddressSpace) (d : LocationDescriptor) (first last : CodePtr) : Prop :=
  first ≠ 0 ∧ ∃ p, c.blockEntries d = some p ∧ first ≤ p ∧ p < last

/-- Retiring a host range forgets exactly the entries in it. -/
theorem retireCodeRangeAndRanges_spec (first last : CodePtr) (d : LocationDescriptor) :
    (c.EntryWithin d first last →
        (c.retireCodeRangeAndRanges first last).2.blockEntries d = none) ∧
      (¬c.EntryWithin d first last →
        (c.retireCodeRangeAndRanges first last).2.blockEntries d = c.blockEntries d) ∧
      ∀ a, (c.retireCodeRangeAndRanges first last).2.blockRanges.Registered d a ↔
        c.blockRanges.Registered d a ∧ ¬c.EntryWithin d first last := by
  unfold retireCodeRangeAndRanges retireCodeRange
  split
  · rename_i h
    have hnot : ¬c.EntryWithin d first last := by
      rintro ⟨hfirst, p, -, hlo, hhi⟩
      rcases h with h | h | h
      · exact hfirst h
      · exact absurd hhi (h ▸ Nat.not_lt_zero p)
      · exact absurd (hlo.trans_lt hhi) (not_lt.mpr h)
    simp [hnot, BlockRangeInformation.registered_invalidateLocations]
  · rename_i h
    have hwithin : c.EntryWithin d first last ↔ ∃ p, c.blockEntries d = some p ∧
        (p, d) ∈ c.reverseBlockEntries.filter fun e => first ≤ e.1 && e.1 < last := by
      constructor
      · rintro ⟨-, p, hp, hlo, hhi⟩
        exact ⟨p, hp, List.mem_filter.mpr ⟨c.listed d p hp, by simp [hlo, hhi]⟩⟩
      · rintro ⟨p, hp, hmem⟩
        have hbounds := (List.mem_filter.mp hmem).2
        simp only [Bool.and_eq_true, decide_eq_true_eq] at hbounds
        exact ⟨fun hfirst => h (.inl hfirst), p, hp, hbounds⟩
    obtain ⟨hentries, hranges, hretired⟩ := retiring_foldl_spec
      (c.reverseBlockEntries.filter fun e => first ≤ e.1 && e.1 < last) ⟨c, [], ⟨0, 0⟩⟩
    refine ⟨fun hd => ?_, fun hd => ?_, fun a => ?_⟩
    · simpa only [← hwithin, hd, ↓reduceIte] using hentries d
    · simpa only [← hwithin, hd, ↓reduceIte] using hentries d
    · simp only [BlockRangeInformation.registered_invalidateLocations, hranges, hretired,
        ← hwithin, List.not_mem_nil, false_or]

end AddressSpace

instance : CodeCache AddressSpace BlockRelocation where
  get c := c.blockEntries
  blockSize c d := ((c.blockEntries d).bind c.blockInfos).elim 0 (·.size)
  Registered c := c.blockRanges.Registered
  RetiredBy c := c.EntryWithin
  currentCodePtr c := c.codePtr
  setCurrentCodePtr c p := { c with codePtr := p }
  emit c := c.emitForSlab
  republish c _ _ _ := c
  publishLinks c := c.publishPendingBlockRelinks
  clearCache c := c.clearCacheAndRanges
  invalidateCacheRanges c := c.invalidateCacheRanges
  retireCodeRange c := c.retireCodeRangeAndRanges
  invalidateBasicBlocks c := c.invalidateBasicBlocks
  get_setCurrentCodePtr _ _ := rfl
  registered_setCurrentCodePtr _ _ := rfl
  get_emit h _ := (AddressSpace.emitForSlab_spec h).1
  registered_emit h d a := by
    rw [← BlockRangeInformation.registered_addRange, (AddressSpace.emitForSlab_spec h).2]
  get_republish _ _ _ _ := rfl
  registered_republish _ _ _ _ := rfl
  get_publishLinks c := by
    obtain ⟨links, h⟩ := c.publishPendingBlockRelinks_eq
    rw [h]
  registered_publishLinks c := by
    obtain ⟨links, h⟩ := c.publishPendingBlockRelinks_eq
    rw [h]
  get_clearCache _ _ := rfl
  registered_clearCache c := c.blockRanges.not_registered_clearCache
  get_invalidateCacheRanges_of_meets ha hreg :=
    ((AddressSpace.invalidateBasicBlocks_spec _ _).1 _).trans
      (if_pos (BlockRangeInformation.mem_locationsMeeting.mpr ⟨_, ha, hreg⟩))
  get_invalidateCacheRanges_of_clear hclear := by
    refine ((AddressSpace.invalidateBasicBlocks_spec _ _).1 _).trans (if_neg fun h => ?_)
    obtain ⟨a, ha, hreg⟩ := BlockRangeInformation.mem_locationsMeeting.mp h
    exact hclear a ha hreg
  registered_invalidateCacheRanges c ranges d a := by
    rw [← BlockRangeInformation.registered_invalidateRanges]
    exact iff_of_eq (congrArg (fun r => BlockRangeInformation.Registered r d a)
      (AddressSpace.invalidateBasicBlocks_spec _ _).2)
  get_retireCodeRange_of_retiredBy h :=
    (AddressSpace.retireCodeRangeAndRanges_spec _ _ _ _).1 h
  get_retireCodeRange_of_not h :=
    (AddressSpace.retireCodeRangeAndRanges_spec _ _ _ _).2.1 h
  registered_retireCodeRange c first last d :=
    (c.retireCodeRangeAndRanges_spec first last d).2.2
  get_invalidateBasicBlocks c ds := (c.invalidateBasicBlocks_spec ds).1
  registered_invalidateBasicBlocks c ds := by rw [(c.invalidateBasicBlocks_spec ds).2]

end Umbra.Arm64
