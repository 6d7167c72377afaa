import Umbra.Lib.Run
import Umbra.X64.A32EmitX64

/-!
Soundness of the x64 patch table.

The code memory is cut into segments.  Blocks are emitted one behind the other
into the current segment, and a recycle takes a segment back as a whole, with
every block in it.  A stored patch address is sound as long as the block that
stored it has not been taken back.  What can go wrong is a block that has lost
its descriptor while its own addresses stayed in the table: a later recycle of
its segment does not find it.
-/

namespace Umbra.X64

open Umbra.Lib Umbra.IR Umbra.Backend

structure Emitted where
  emission : ℕ
  location : LocationDescriptor
  block : BlockDescriptor
  sites : List PatchSite
deriving DecidableEq

/-- The emitter with its memory: the segment that is being filled and the blocks
whose memory has not been taken back. -/
structure CodeMemory (L : Layout) where
  emitter : A32EmitX64
  segment : Range
  unreclaimed : List Emitted

inductive MemoryAction
  | emit (block : Block PatchSite) (mode : EmitMode)
  /-- An emission for a descriptor that has a block. -/
  | republish (location : LocationDescriptor) (mode : EmitMode)
  | publishLinks
  | invalidateCacheRanges (ranges : IntervalSet)
  | invalidateBasicBlocks (descriptors : List LocationDescriptor)
  | recycle (segment : Range)
  | clearCache

namespace CodeMemory

variable {L : Layout}

def create (L : Layout) (linked : Bool) : CodeMemory L where
  emitter := .empty linked L.front.1
  segment := L.front
  unreclaimed := []

/-- The block has no entry point yet, fits into what is left of the segment and
has its slots inside its code. -/
def Fits (m : CodeMemory L) (block : Block PatchSite) : Prop :=
  m.emitter.blockDescriptors block.location = none ∧ 0 < block.size ∧
    A32EmitX64.align m.emitter.codePtr + block.size ≤ m.segment.2 ∧
    ∀ site ∈ block.slots, site.offset < block.size

instance (m : CodeMemory L) (block : Block PatchSite) : Decidable (m.Fits block) :=
  inferInstanceAs (Decidable (_ ∧ _ ∧ _ ∧ _))

def withEmitter (m : CodeMemory L) (emitter : A32EmitX64) : CodeMemory L :=
  { m with emitter := emitter }

/-- A step of the slab.  An emission that does not fit is not attempted: the
caller asks for room first. -/
def step (m : CodeMemory L) : MemoryAction → Option (CodeMemory L)
  | .emit block mode =>
      if m.Fits block then
        (m.emitter.emitForSlab block mode).map fun (entrypoint, emitter) =>
          { m with
            emitter := emitter
            unreclaimed := ⟨m.emitter.emissions, block.location, ⟨entrypoint, block.size⟩,
              block.slots⟩ :: m.unreclaimed }
      else none
  | .republish location mode =>
      (m.emitter.blockDescriptors location).map fun b =>
        m.withEmitter (m.emitter.publishDirectLinkTarget mode location b.entrypoint)
  | .publishLinks => some (m.withEmitter m.emitter.publishLinks)
  | .invalidateCacheRanges ranges =>
      some (m.withEmitter (m.emitter.invalidateCacheRanges ranges))
  | .invalidateBasicBlocks descriptors =>
      some (m.withEmitter (m.emitter.invalidateBasicBlocks descriptors))
  | .recycle segment =>
      if segment ∈ L.segments then
        some {
          emitter :=
            { (m.emitter.retireCodeRange segment.1 segment.2).2 with codePtr := segment.1 }
          segment := segment
          unreclaimed := m.unreclaimed.filter fun B => ¬segment.Contains B.block.entrypoint }
      else none
  | .clearCache =>
      some {
        emitter := { m.emitter.clearCache with codePtr := L.front.1 }
        segment := L.front
        unreclaimed := [] }

def SlotOf (B : Emitted) (target : LocationDescriptor) (kind : PatchKind) (slot : PatchSlot) :
    Prop :=
  B.emission = slot.emission ∧ ∃ site ∈ B.sites, site.target = target ∧ site.kind = kind ∧
    slot.address = B.block.entrypoint + site.offset

/-- Every stored address is a slot of a block whose memory has not been taken
back since. -/
def PatchTableSound (m : CodeMemory L) : Prop :=
  ∀ target kind slot, m.emitter.Stores target kind slot →
    ∃ B ∈ m.unreclaimed, SlotOf B target kind slot

/-- Patching writes slots for the patched descriptor only, and each into the code
of the block it belongs to. -/
def PatchesOwnSlots (m : CodeMemory L) : Prop :=
  ∀ target codePtr a, (m.emitter.patch target codePtr).links a ≠ m.emitter.links a →
    ∃ B ∈ m.unreclaimed, (∃ site ∈ B.sites, site.target = target ∧
        a = B.block.entrypoint + site.offset) ∧
      ∀ B' ∈ m.unreclaimed, B'.block.codeRange.Contains a → B' = B

def Current (m : CodeMemory L) (B : Emitted) : Prop :=
  m.emitter.blockDescriptors B.location = some B.block

def HasSlots (m : CodeMemory L) (B : Emitted) : Prop :=
  ∃ target kind slot, m.emitter.Stores target kind slot ∧ SlotOf B target kind slot

/-- A segment is recycled only when each of its blocks that has addresses in the
patch table is still the current one of its descriptor. -/
def Permitted (m : CodeMemory L) : MemoryAction → Prop
  | .recycle segment => ∀ B ∈ m.unreclaimed, segment.Contains B.block.entrypoint →
      m.HasSlots B → m.Current B
  | _ => True

structure Consistent (m : CodeMemory L) : Prop where
  segment_mem : m.segment ∈ L.segments
  codePtr_ge : m.segment.1 ≤ m.emitter.codePtr
  sound : m.PatchTableSound
  sites : ∀ B ∈ m.unreclaimed, 0 < B.block.size ∧ ∀ site ∈ B.sites, site.offset < B.block.size
  /-- Each block lies in a segment, below the code pointer in the current one. -/
  placed : ∀ B ∈ m.unreclaimed, ∃ r ∈ L.segments, r.1 ≤ B.block.entrypoint ∧
    B.block.entrypoint + B.block.size ≤ r.2 ∧
      (r = m.segment → B.block.entrypoint + B.block.size ≤ m.emitter.codePtr)
  apart : ∀ B ∈ m.unreclaimed, ∀ B' ∈ m.unreclaimed, ∀ a,
    B.block.codeRange.Contains a → B'.block.codeRange.Contains a → B = B'
  /-- The blocks the emitter knows have their memory. -/
  known : ∀ d b, m.emitter.blockDescriptors d = some b →
    ∃ B ∈ m.unreclaimed, B.location = d ∧ B.block = b
  /-- A current block is listed by its entry point. -/
  listed : ∀ B ∈ m.unreclaimed, m.Current B →
    (B.block.entrypoint, B.location) ∈ m.emitter.blocksByEntrypoint

/-! ### Patching -/

theorem stores_of_patch {c : A32EmitX64} {target : LocationDescriptor} {codePtr : Option CodePtr}
    {a : CodePtr} (h : (c.patch target codePtr).links a ≠ c.links a) :
    ∃ kind slot, c.Stores target kind slot ∧ slot.address = a := by
  by_contra hnone
  exact h ((c.patch_links target codePtr a).trans (if_neg hnone))

namespace Consistent

variable {m : CodeMemory L}

theorem contains_of_slotOf (h : m.Consistent) {B : Emitted} (hB : B ∈ m.unreclaimed)
    {target : LocationDescriptor} {kind : PatchKind} {slot : PatchSlot}
    (hslot : SlotOf B target kind slot) : B.block.codeRange.Contains slot.address := by
  obtain ⟨-, site, hsite, -, -, ha⟩ := hslot
  rw [ha]
  exact ⟨Nat.le_add_right _ _, Nat.add_lt_add_left ((h.sites B hB).2 site hsite) _⟩

theorem contains_entrypoint (h : m.Consistent) {B : Emitted} (hB : B ∈ m.unreclaimed) :
    B.block.codeRange.Contains B.block.entrypoint :=
  ⟨le_rfl, Nat.lt_add_of_pos_right (h.sites B hB).1⟩

theorem patchesOwnSlots (h : m.Consistent) : m.PatchesOwnSlots := by
  intro target codePtr a hchanged
  obtain ⟨kind, slot, hstores, rfl⟩ := stores_of_patch hchanged
  obtain ⟨B, hB, hslot⟩ := h.sound target kind slot hstores
  refine ⟨B, hB, ?_, fun B' hB' hin => ?_⟩
  · obtain ⟨-, site, hsite, htarget, -, ha⟩ := hslot
    exact ⟨site, hsite, htarget, ha⟩
  · exact h.apart B' hB' B hB slot.address hin (h.contains_of_slotOf hB hslot)

theorem entrypoint_injective (h : m.Consistent) {d d' : LocationDescriptor}
    {b b' : BlockDescriptor} (hb : m.emitter.blockDescriptors d = some b)
    (hb' : m.emitter.blockDescriptors d' = some b') (heq : b.entrypoint = b'.entrypoint) :
    d = d' := by
  obtain ⟨B, hB, rfl, rfl⟩ := h.known d b hb
  obtain ⟨B', hB', rfl, rfl⟩ := h.known d' b' hb'
  have hsame := h.apart B hB B' hB' B.block.entrypoint (h.contains_entrypoint hB)
    (heq ▸ h.contains_entrypoint hB')
  rw [hsame]

/-! ### Steps that take no memory back -/

/-- The invariant survives any operation that only takes things out of the tables
and keeps current blocks listed. -/
theorem withEmitter (h : m.Consistent) {e : A32EmitX64}
    (hptr : e.codePtr = m.emitter.codePtr)
    (hstores : ∀ target kind slot, e.Stores target kind slot →
      m.emitter.Stores target kind slot)
    (hblocks : ∀ d b, e.blockDescriptors d = some b → m.emitter.blockDescriptors d = some b)
    (hlisted : ∀ d b, e.blockDescriptors d = some b →
      (b.entrypoint, d) ∈ m.emitter.blocksByEntrypoint →
        (b.entrypoint, d) ∈ e.blocksByEntrypoint) : (m.withEmitter e).Consistent where
  segment_mem := h.segment_mem
  codePtr_ge := hptr ▸ h.codePtr_ge
  sound target kind slot hslot := h.sound target kind slot (hstores target kind slot hslot)
  sites := h.sites
  placed B hB := by
    obtain ⟨r, hr, hlo, hhi, hptr'⟩ := h.placed B hB
    exact ⟨r, hr, hlo, hhi, fun heq => hptr.symm ▸ hptr' heq⟩
  apart := h.apart
  known d b hb := h.known d b (hblocks d b hb)
  listed B hB hcurrent :=
    hlisted B.location B.block hcurrent (h.listed B hB (hblocks _ _ hcurrent))

theorem publishLinks (h : m.Consistent) : (m.withEmitter m.emitter.publishLinks).Consistent := by
  obtain ⟨links, heq⟩ := m.emitter.publishLinks_eq
  rw [heq]
  exact h.withEmitter rfl (fun _ _ _ hs => hs) (fun _ _ hb => hb) (fun _ _ _ hl => hl)

theorem publishDirectLinkTarget (h : m.Consistent) (mode : EmitMode) (d : LocationDescriptor)
    (p : CodePtr) : (m.withEmitter (m.emitter.publishDirectLinkTarget mode d p)).Consistent := by
  obtain ⟨links, pending, heq⟩ := m.emitter.publishDirectLinkTarget_eq mode d p
  rw [heq]
  exact h.withEmitter rfl (fun _ _ _ hs => hs) (fun _ _ hb => hb) (fun _ _ _ hl => hl)

theorem invalidateBasicBlocks (h : m.Consistent) (ds : List LocationDescriptor) :
    (m.withEmitter (m.emitter.invalidateBasicBlocks ds)).Consistent := by
  obtain ⟨links, heq⟩ := m.emitter.invalidateBasicBlocks_eq ds
  rw [heq]
  exact h.withEmitter rfl (fun _ _ _ hs => hs)
    (fun _ _ hb => (A32EmitX64.without_eq_some.mp hb).2) (fun _ _ _ hl => hl)

theorem invalidateCacheRanges (h : m.Consistent) (ranges : IntervalSet) :
    (m.withEmitter (m.emitter.invalidateCacheRanges ranges)).Consistent := by
  obtain ⟨ds, -, ⟨links, patchInformation, heq⟩, hstores⟩ :=
    m.emitter.invalidateCacheRanges_spec ranges
  refine h.withEmitter (by rw [heq]; rfl) (fun target kind slot hs => ?_) (fun d b hb => ?_)
    (fun d b hb hl => ?_)
  · exact ((hstores target kind slot).mp hs).1
  · rw [heq] at hb
    exact (A32EmitX64.without_eq_some.mp hb).2
  · rw [heq] at hb ⊢
    obtain ⟨hd, hb⟩ := A32EmitX64.without_eq_some.mp hb
    -- Only the entry points of the invalidated blocks leave the index.
    refine List.mem_filter.mpr ⟨hl, ?_⟩
    simp only [Bool.not_eq_eq_eq_not, Bool.not_true, List.any_eq_false, Option.any_eq_true,
      decide_eq_true_eq, not_exists, not_and]
    intro d' hd' b' hb' hsame
    exact hd (h.entrypoint_injective hb' hb hsame ▸ hd')

/-! ### Emission -/

/-- The memory a block is emitted into belongs to no other block. -/
theorem not_contains_fresh (h : m.Consistent) {block : Block PatchSite} (hfits : m.Fits block)
    {B : Emitted} (hB : B ∈ m.unreclaimed) {a : ℕ}
    (ha : Range.Contains (A32EmitX64.align m.emitter.codePtr,
      A32EmitX64.align m.emitter.codePtr + block.size) a) : ¬B.block.codeRange.Contains a := by
  intro hBa
  obtain ⟨-, -, hend, -⟩ := hfits
  obtain ⟨r, hr, hlo, hhi, hptr⟩ := h.placed B hB
  have halign : m.emitter.codePtr ≤ A32EmitX64.align m.emitter.codePtr := by
    unfold A32EmitX64.align
    exact Nat.le_of_add_le_add_right (b := 15) (by omega)
  have hra : r.Contains a := ⟨hlo.trans hBa.1, hBa.2.trans_le hhi⟩
  have hsa : m.segment.Contains a :=
    ⟨(h.codePtr_ge.trans halign).trans ha.1, ha.2.trans_le hend⟩
  have hbelow := hptr (L.eq_of_contains hr h.segment_mem hra hsa)
  exact (hBa.2.trans_le hbelow).not_ge (halign.trans ha.1)

theorem emit (h : m.Consistent) {block : Block PatchSite} {mode : EmitMode} {p : CodePtr}
    {e : A32EmitX64} (hfits : m.Fits block)
    (hemit : m.emitter.emitForSlab block mode = some (p, e)) :
    Consistent (L := L) { m with
      emitter := e
      unreclaimed := ⟨m.emitter.emissions, block.location, ⟨p, block.size⟩, block.slots⟩ ::
        m.unreclaimed } := by
  obtain ⟨c, links, pending, hc, rfl⟩ := A32EmitX64.emitForSlab_eq hemit
  obtain ⟨rfl, ⟨links', patchInformation, rfl⟩, hstores⟩ := A32EmitX64.emit_spec hc hfits.1
  have hfresh := fun B hB a => h.not_contains_fresh (B := B) hfits hB (a := a)
  obtain ⟨hnone, hsize, hend, hsites⟩ := hfits
  set p := A32EmitX64.align m.emitter.codePtr with hp
  have hptr : m.emitter.codePtr ≤ p := by
    rw [hp]
    unfold A32EmitX64.align
    exact Nat.le_of_add_le_add_right (b := 15) (by omega)
  have hself : Range.Contains (p, p + block.size) p :=
    ⟨le_rfl, Nat.lt_add_of_pos_right hsize⟩
  refine
    { segment_mem := h.segment_mem
      codePtr_ge := (h.codePtr_ge.trans hptr).trans (Nat.le_add_right p block.size)
      sound := ?_, sites := ?_, placed := ?_, apart := ?_, known := ?_, listed := ?_ }
  · intro target kind slot hslot
    rcases (hstores target kind slot).mp hslot with hold | ⟨site, hsite, htarget, hkind, rfl⟩
    · obtain ⟨B, hB, hown⟩ := h.sound target kind slot hold
      exact ⟨B, List.mem_cons_of_mem _ hB, hown⟩
    · exact ⟨_, List.mem_cons_self, rfl, site, hsite, htarget, hkind, rfl⟩
  · exact List.forall_mem_cons.mpr ⟨⟨hsize, hsites⟩, h.sites⟩
  · refine List.forall_mem_cons.mpr ⟨?_, fun B hB => ?_⟩
    · exact ⟨m.segment, h.segment_mem, h.codePtr_ge.trans hptr, hend, fun _ => le_rfl⟩
    · obtain ⟨r, hr, hlo, hhi, hbelow⟩ := h.placed B hB
      exact ⟨r, hr, hlo, hhi, fun heq =>
        ((hbelow heq).trans hptr).trans (Nat.le_add_right p block.size)⟩
  · refine List.forall_mem_cons.mpr
      ⟨List.forall_mem_cons.mpr ⟨fun _ _ _ => rfl, fun B hB a ha hBa => ?_⟩, fun B hB =>
        List.forall_mem_cons.mpr ⟨fun a hBa ha => ?_, h.apart B hB⟩⟩
    · exact (hfresh B hB a ha hBa).elim
    · exact (hfresh B hB a ha hBa).elim
  · intro d b hb
    by_cases hd : d = block.location
    · subst hd
      obtain rfl : (⟨p, block.size⟩ : BlockDescriptor) = b := by simpa using hb
      exact ⟨_, List.mem_cons_self, rfl, rfl⟩
    · obtain ⟨B, hB, hBd, hBb⟩ := h.known d b (by simpa [hd] using hb)
      exact ⟨B, List.mem_cons_of_mem _ hB, hBd, hBb⟩
  · refine List.forall_mem_cons.mpr ⟨fun _ => List.mem_cons_self, fun B hB hcurrent => ?_⟩
    by_cases hd : B.location = block.location
    · have hblock : (⟨p, block.size⟩ : BlockDescriptor) = B.block := by
        simpa [Current, hd] using hcurrent
      rw [← hblock, hd]
      exact List.mem_cons_self
    · have hold : m.Current B := by simpa [Current, hd] using hcurrent
      refine List.mem_cons_of_mem _ (List.mem_filter.mpr ⟨h.listed B hB hold, ?_⟩)
      simp only [ne_eq, decide_not, Bool.not_eq_eq_eq_not, Bool.not_true, decide_eq_false_iff_not]
      intro hentry
      exact hfresh B hB p hself (hentry ▸ h.contains_entrypoint hB)

/-! ### Recycling a segment -/

/-- The index finds every current block of the segment, and its addresses go with it. -/
theorem recycle (h : m.Consistent) {segment : Range} (hsegment : segment ∈ L.segments)
    (hpermitted : m.Permitted (.recycle segment)) :
    Consistent (L := L) {
      emitter := { (m.emitter.retireCodeRange segment.1 segment.2).2 with codePtr := segment.1 }
      segment := segment
      unreclaimed := m.unreclaimed.filter fun B => ¬segment.Contains B.block.entrypoint } := by
  obtain ⟨ds, hds, ⟨links, patchInformation, retired, heq⟩, hstores⟩ :=
    A32EmitX64.retireCodeRange_spec (c := m.emitter) (L.nonnull segment hsegment)
      (L.proper segment hsegment)
  -- A current block in the segment is found by the index, so its descriptor goes.
  have hfound : ∀ B ∈ m.unreclaimed, m.Current B → segment.Contains B.block.entrypoint →
      B.location ∈ ds := fun B hB hcurrent hin =>
    (hds B.location).mpr ⟨L.nonnull segment hsegment, _, h.listed B hB hcurrent, hin.1, hin.2⟩
  have hkept : ∀ {B}, B ∈ m.unreclaimed.filter (fun B => ¬segment.Contains B.block.entrypoint) ↔
      B ∈ m.unreclaimed ∧ ¬segment.Contains B.block.entrypoint := by
    intro B
    rw [List.mem_filter, decide_eq_true_eq]
  refine
    { segment_mem := hsegment
      codePtr_ge := le_rfl
      sound := ?_, sites := fun B hB => h.sites B (hkept.mp hB).1
      placed := ?_
      apart := fun B hB B' hB' => h.apart B (hkept.mp hB).1 B' (hkept.mp hB').1
      known := ?_, listed := ?_ }
  · intro target kind slot hslot
    obtain ⟨hold, hkeep⟩ := (hstores target kind slot).mp hslot
    obtain ⟨B, hB, hown⟩ := h.sound target kind slot hold
    refine ⟨B, hkept.mpr ⟨hB, fun hin => hkeep ?_⟩, hown⟩
    have hcurrent := hpermitted B hB hin ⟨target, kind, slot, hold, hown⟩
    exact ⟨_, A32EmitX64.mem_codeRanges.mpr
      ⟨B.location, hfound B hB hcurrent hin, B.block, hcurrent, rfl⟩, h.contains_of_slotOf hB hown⟩
  · intro B hB
    obtain ⟨hold, hout⟩ := hkept.mp hB
    obtain ⟨r, hr, hlo, hhi, -⟩ := h.placed B hold
    refine ⟨r, hr, hlo, hhi, fun hsame => (hout ?_).elim⟩
    subst hsame
    exact ⟨hlo, (h.contains_entrypoint hold).2.trans_le hhi⟩
  · intro d b hb
    rw [heq] at hb
    obtain ⟨hd, hb⟩ := A32EmitX64.without_eq_some.mp hb
    obtain ⟨B, hB, rfl, rfl⟩ := h.known d b hb
    exact ⟨B, hkept.mpr ⟨hB, fun hin => hd (hfound B hB hb hin)⟩, rfl, rfl⟩
  · intro B hB hcurrent
    obtain ⟨hB, hout⟩ := hkept.mp hB
    rw [Current, heq] at hcurrent
    rw [heq]
    refine List.mem_filter.mpr
      ⟨h.listed B hB (A32EmitX64.without_eq_some.mp hcurrent).2, ?_⟩
    simpa [Range.Contains, imp_iff_not_or] using hout

theorem create (L : Layout) (linked : Bool) : (CodeMemory.create L linked).Consistent where
  segment_mem := List.mem_cons_self
  codePtr_ge := le_rfl
  sound := by rintro target kind slot ⟨p, hp, -⟩; cases hp
  sites := by rintro B ⟨⟩
  placed := by rintro B ⟨⟩
  apart := by rintro B ⟨⟩
  known := by rintro d b ⟨⟩
  listed := by rintro B ⟨⟩

theorem clearCache (e : A32EmitX64) : Consistent (L := L) {
      emitter := { e.clearCache with codePtr := L.front.1 }
      segment := L.front
      unreclaimed := [] } where
  segment_mem := List.mem_cons_self
  codePtr_ge := le_rfl
  sound := by rintro target kind slot ⟨p, hp, -⟩; cases hp
  sites := by rintro B ⟨⟩
  placed := by rintro B ⟨⟩
  apart := by rintro B ⟨⟩
  known := by rintro d b ⟨⟩
  listed := by rintro B ⟨⟩

theorem step {m' : CodeMemory L} {action : MemoryAction} (h : m.Consistent)
    (hpermitted : m.Permitted action) (hstep : m.step action = some m') : m'.Consistent := by
  cases action with
  | emit block mode =>
      simp only [CodeMemory.step] at hstep
      split at hstep
      · rename_i hfits
        obtain ⟨⟨p, e⟩, hemit, rfl⟩ := Option.map_eq_some_iff.mp hstep
        exact h.emit hfits hemit
      · cases hstep
  | republish location mode =>
      obtain ⟨b, -, rfl⟩ := Option.map_eq_some_iff.mp hstep
      exact h.publishDirectLinkTarget mode location b.entrypoint
  | publishLinks =>
      obtain rfl := Option.some.inj hstep
      exact h.publishLinks
  | invalidateCacheRanges ranges =>
      obtain rfl := Option.some.inj hstep
      exact h.invalidateCacheRanges ranges
  | invalidateBasicBlocks descriptors =>
      obtain rfl := Option.some.inj hstep
      exact h.invalidateBasicBlocks descriptors
  | recycle segment =>
      simp only [CodeMemory.step] at hstep
      split at hstep
      · rename_i hsegment
        obtain rfl := Option.some.inj hstep
        exact h.recycle hsegment hpermitted
      · cases hstep
  | clearCache =>
      obtain rfl := Option.some.inj hstep
      exact clearCache m.emitter

theorem of_reaches {m m' : CodeMemory L} (h : m.Consistent)
    (hreach : Reaches CodeMemory.step Permitted m m') : m'.Consistent :=
  hreach.invariant h fun _ _ _ hs hok hstep => hs.step hok hstep

end Consistent

/-- In either linking mode, as long as no segment is recycled while a block in it
has lost its descriptor but not its addresses, every stored address is a slot of
a block that still has its memory, and patching writes only there. -/
theorem patchTableSound_of_reaches {L : Layout} {linked : Bool} {m : CodeMemory L}
    (hreach : Reaches step Permitted (create L linked) m) :
    m.PatchTableSound ∧ m.PatchesOwnSlots :=
  have h := (Consistent.create L linked).of_reaches hreach
  ⟨h.sound, h.patchesOwnSlots⟩

/-! A block with one slot is emitted at the start of the first of two segments and
its guest code invalidated.  When the segment comes to be recycled and a block is
emitted in the place of the first, the slot is still in the table. -/

def sampleLayout : Layout where
  front := (16, 64)
  rest := [(64, 112)]
  nonnull := by decide
  proper := by decide
  apart := by decide

def sampleBlock : Block PatchSite where
  location := 1
  range := some ⟨0x100, 0x103, by decide⟩
  size := 16
  slots := [⟨2, .jmp, 4⟩]

def leafBlock : Block PatchSite where
  location := 3
  range := some ⟨0x200, 0x203, by decide⟩
  size := 16
  slots := []

def alone : EmitMode := ⟨false, false, 0⟩

def orphaningRun : List MemoryAction :=
  [.emit sampleBlock alone, .invalidateCacheRanges [⟨0x100, 0x103, by decide⟩],
    .recycle (64, 112), .recycle (16, 64), .emit leafBlock alone]

theorem orphaningRun_isSome : (run step (create sampleLayout false) orphaningRun).isSome := by
  decide

theorem orphan_keeps_slot : ∃ m, Reaches step always (create sampleLayout false) m ∧
    ¬m.PatchTableSound ∧ ¬m.PatchesOwnSlots := by
  refine ⟨_, reaches_of_run (Option.some_get orphaningRun_isSome).symm (follows_always _ _),
    fun h => ?_, fun h => ?_⟩
  · obtain ⟨B, hB, hown, -⟩ := h 2 .jmp ⟨20, 0⟩ ⟨⟨[], [], [⟨20, 0⟩], []⟩, by decide, by decide⟩
    obtain rfl : B = ⟨1, 3, ⟨16, 16⟩, []⟩ := List.mem_singleton.mp hB
    cases hown
  · obtain ⟨B, hB, ⟨site, hsite, -⟩, -⟩ := h 2 (some 16) 20 (by decide)
    obtain rfl : B = ⟨1, 3, ⟨16, 16⟩, []⟩ := List.mem_singleton.mp hB
    cases hsite

theorem patchTableSound_recycled : ∃ m, run step (create sampleLayout false)
    [.emit sampleBlock alone, .recycle (16, 64)] = some m ∧
      m.PatchTableSound ∧ m.PatchesOwnSlots := by
  refine ⟨_, rfl, patchTableSound_of_reaches (reaches_of_run
    (rfl : run step (create sampleLayout false)
      [.emit sampleBlock alone, .recycle (16, 64)] = some _)
    ⟨trivial, fun t ht => ⟨?_, fun _ _ => trivial⟩⟩)⟩
  obtain rfl := Option.some.inj ht
  intro B hB _ _
  obtain rfl : B = ⟨0, 1, ⟨16, 16⟩, [⟨2, .jmp, 4⟩]⟩ := List.mem_singleton.mp hB
  rfl

end CodeMemory

end Umbra.X64
