import Umbra.Arm64.AddressSpace
import Umbra.Lib.Run

/-!
The return stack buffer of the A64 front end on arm64.

A block that calls a function pushes the descriptor of the return address with
the code address of its block; the block that returns pops the pair and, if the
descriptor is the one it returns to, jumps to the code address.  The buffer lies
in the host stack frame of `run_code`, out of reach of the code cache, so the
cache has to stay put as long as an entry is in it.
-/

namespace Umbra.Arm64

open Umbra.Lib Umbra.IR Umbra.Backend

/-- An entry of the buffer; the code address `none` is `return_to_dispatcher`. -/
structure RSBEntry where
  target : LocationDescriptor
  codePtr : Option CodePtr
deriving DecidableEq

def rsbIndexMask : BitVec 32 := 0x70#32

def rsbIndex (rsbPtr : BitVec 32) : Fin 8 :=
  ⟨(rsbPtr &&& rsbIndexMask).toNat / 16, by
    have h : (rsbPtr &&& rsbIndexMask).toNat ≤ 0x70 := by
      rw [BitVec.toNat_and]
      exact Nat.and_le_right
    omega⟩

/-- Where the processor is: outside `run_code`, in the dispatcher, or in the block
at a code address. -/
inductive Control
  | outside
  | dispatcher
  | block (entryPoint : CodePtr)
deriving DecidableEq

structure Emitted where
  location : LocationDescriptor
  info : EmittedBlockInfo
deriving DecidableEq

/-- The code cache with the stack frame of `run_code` and the blocks whose code
bytes no later emission has overwritten. -/
structure Execution where
  space : AddressSpace
  control : Control
  rsb : Fin 8 → RSBEntry
  rsbPtr : BitVec 32
  intact : List Emitted

/-- What can happen to an execution.  Where a block is looked up, the block that
would be translated for the descriptor is given. -/
inductive ExecutionAction
  /-- `Run` or `Step` begins; the frame holds whatever the stack held. -/
  | run (block : Block BlockRelocation) (targets : Fin 8 → LocationDescriptor)
      (rsbPtr : BitVec 32)
  /-- The dispatcher looks the next block up. -/
  | dispatch (block : Block BlockRelocation)
  /-- `PushRSB` through one of the slots of the running block. -/
  | pushRSB (slot : BlockRelocation)
  /-- The terminals `LinkBlock` and `LinkBlockFast`. -/
  | linkBlock (slot : BlockRelocation)
  /-- The terminal `PopRSBHint` on the way to the descriptor. -/
  | popRSBHint (descriptor : LocationDescriptor)
  /-- Any other terminal, or one whose check failed. -/
  | returnToDispatcher
  /-- A fastmem fault that makes blocks be recompiled. -/
  | fastmemFault (descriptors : List LocationDescriptor)
  /-- `return_from_run_code`. -/
  | returnFromRunCode
  /-- The requests performed between runs. -/
  | clearCache
  | invalidateCacheRanges (ranges : IntervalSet)

namespace Execution

def create (codeCacheSize endOfPrelude : ℕ) : Execution where
  space := .empty codeCacheSize endOfPrelude
  control := .outside
  rsb := fun _ => ⟨0, none⟩
  rsbPtr := 0
  intact := []

def overwrite (intact : List Emitted) (B : Emitted) : List Emitted :=
  B :: intact.filter fun old => ¬old.info.Overlaps B.info

/-- Look a block up, or emit it and write over what was there. -/
def getOrEmit (s : Execution) (block : Block BlockRelocation) : Option (CodePtr × Execution) :=
  if WellFormed block.size block.slots then
    (s.space.getOrEmit block).map fun (p, space) =>
      (p, { s with
        space := space
        intact :=
          if (s.space.blockEntries block.location).isSome then s.intact
          else overwrite s.intact ⟨block.location, p, block.size, block.slots⟩ })
  else none

def InControl (s : Execution) (slot : BlockRelocation) (entryPoint : CodePtr) : Prop :=
  s.control = .block entryPoint ∧
    ∃ B ∈ s.intact, B.info.entryPoint = entryPoint ∧ slot ∈ B.info.blockRelocations

instance (s : Execution) (slot : BlockRelocation) (p : CodePtr) : Decidable (s.InControl slot p) :=
  inferInstanceAs (Decidable (_ ∧ _))

def pushRSB (s : Execution) (entryPoint : CodePtr) (slot : BlockRelocation) : Execution :=
  let rsbPtr := (s.rsbPtr + 16#32) &&& rsbIndexMask
  { s with
    rsbPtr := rsbPtr
    rsb := Function.update s.rsb (rsbIndex rsbPtr)
      ⟨slot.target, s.space.links (entryPoint + slot.codeOffset)⟩ }

def jump (s : Execution) : Option CodePtr → Execution
  | none => { s with control := .dispatcher }
  | some p => { s with control := .block p }

def popRSBHint (s : Execution) (descriptor : LocationDescriptor) : Execution :=
  let entry := s.rsb (rsbIndex s.rsbPtr)
  let s := { s with rsbPtr := (s.rsbPtr &&& rsbIndexMask) - 16#32 }
  s.jump (if entry.target = descriptor then entry.codePtr else none)

def step (s : Execution) : ExecutionAction → Option Execution
  | .run block targets rsbPtr =>
      if s.control = .outside then
        (s.getOrEmit block).map fun (p, s) =>
          { s with control := .block p, rsb := fun i => ⟨targets i, none⟩, rsbPtr := rsbPtr }
      else none
  | .dispatch block =>
      if s.control = .dispatcher then
        (s.getOrEmit block).map fun (p, s) => { s with control := .block p }
      else none
  | .pushRSB slot =>
      match s.control with
      | .block p => if s.InControl slot p then some (s.pushRSB p slot) else none
      | _ => none
  | .linkBlock slot =>
      match s.control with
      | .block p =>
          if s.InControl slot p then some (s.jump (s.space.links (p + slot.codeOffset))) else none
      | _ => none
  | .popRSBHint descriptor =>
      match s.control with
      | .block _ => some (s.popRSBHint descriptor)
      | _ => none
  | .returnToDispatcher =>
      match s.control with
      | .block _ => some (s.jump none)
      | _ => none
  | .fastmemFault descriptors =>
      match s.control with
      | .block _ => some { s with space := s.space.invalidateBasicBlocks descriptors }
      | _ => none
  | .returnFromRunCode =>
      if s.control = .outside then none else some { s with control := .outside }
  | .clearCache =>
      if s.control = .outside then some { s with space := s.space.clearCache } else none
  | .invalidateCacheRanges ranges =>
      if s.control = .outside then
        some { s with space := s.space.invalidateCacheRanges ranges }
      else none

/-- While guest code runs, every entry of the buffer leads to the dispatcher or to
a block of its descriptor whose code is intact. -/
def ReturnStackSound (s : Execution) : Prop :=
  s.control ≠ .outside → ∀ i, (s.rsb i).codePtr = none ∨
    ∃ B ∈ s.intact, B.location = (s.rsb i).target ∧ (s.rsb i).codePtr = some B.info.entryPoint

/-- The dispatcher does not clear the cache while a block is on the return stack. -/
def Permitted (s : Execution) : ExecutionAction → Prop
  | .dispatch block => s.space.blockEntries block.location = none →
      s.space.getRemainingSize < 1024 * 1024 → ∀ i, (s.rsb i).codePtr = none
  | _ => True

/-! ### The invariant -/

def Tracked (s : Execution) (B : Emitted) : Prop :=
  B ∈ s.intact ∧ s.space.blockInfos B.info.entryPoint = some B.info

def Leads (s : Execution) (d : LocationDescriptor) (p : CodePtr) : Prop :=
  ∃ B, s.Tracked B ∧ B.location = d ∧ B.info.entryPoint = p

/-- The blocks in memory: they share no byte, and those the cache knows are intact
and lie below the code pointer. -/
structure Placed (s : Execution) : Prop where
  wellFormed : ∀ B ∈ s.intact, WellFormed B.info.size B.info.blockRelocations
  apart : ∀ B ∈ s.intact, ∀ B' ∈ s.intact, B.info.Overlaps B'.info → B = B'
  infos : ∀ p info, s.space.blockInfos p = some info → info.entryPoint = p ∧
    info.entryPoint + info.size ≤ s.space.codePtr ∧ ∃ B ∈ s.intact, B.info = info

/-- Whatever refers to a code address refers to a tracked block. -/
structure Consistent (s : Execution) : Prop extends s.Placed where
  entries : ∀ d p, s.space.blockEntries d = some p → s.Leads d p
  links : ∀ slot a q, s.space.HasSlot slot a → s.space.links a = some q → s.Leads slot.target q
  control : ∀ p, s.control = .block p → ∃ d, s.Leads d p
  rsb : s.control ≠ .outside → ∀ i p, (s.rsb i).codePtr = some p → s.Leads (s.rsb i).target p

namespace Consistent

variable {s : Execution}

theorem returnStackSound (h : s.Consistent) : s.ReturnStackSound := by
  intro hcontrol i
  cases hp : (s.rsb i).codePtr with
  | none => exact .inl rfl
  | some p =>
      obtain ⟨B, ⟨hB, -⟩, hlocation, hentry⟩ := h.rsb hcontrol i p hp
      exact .inr ⟨B, hB, hlocation, by rw [hentry]⟩

theorem overlaps_of_entryPoint {x y : EmittedBlockInfo} (hx : 0 < x.size) (hy : 0 < y.size)
    (h : x.entryPoint = y.entryPoint) : x.Overlaps y :=
  ⟨h ▸ Nat.lt_add_of_pos_right hy, h ▸ Nat.lt_add_of_pos_right hx⟩

theorem hasSlot_of_inControl (h : s.Consistent) {slot : BlockRelocation} {p : CodePtr}
    (hslot : s.InControl slot p) : s.space.HasSlot slot (p + slot.codeOffset) := by
  obtain ⟨hcontrol, B, hB, hentry, hmem⟩ := hslot
  obtain ⟨d, B', ⟨hB', hinfo⟩, -, hentry'⟩ := h.control p hcontrol
  have hsame : B = B' := h.apart B hB B' hB' (overlaps_of_entryPoint (h.wellFormed B hB).1
    (h.wellFormed B' hB').1 (hentry.trans hentry'.symm))
  subst hsame
  exact ⟨_, B.info, hinfo, hmem, by rw [hentry]⟩

structure Cache (s t : Execution) : Prop where
  intact : t.intact = s.intact
  infos : t.space.blockInfos = s.space.blockInfos
  codePtr : t.space.codePtr = s.space.codePtr
  entries : ∀ d p, t.space.blockEntries d = some p → s.space.blockEntries d = some p
  links : ∀ a q, t.space.links a = some q → s.space.links a = some q

theorem Cache.of_eq {t : Execution} (hspace : t.space = s.space) (hintact : t.intact = s.intact) :
    Cache s t :=
  ⟨hintact, by rw [hspace], by rw [hspace], by rw [hspace]; exact fun _ _ h => h,
    by rw [hspace]; exact fun _ _ h => h⟩

theorem Cache.leads {t : Execution} (hcache : Cache s t) {d : LocationDescriptor} {p : CodePtr}
    (hleads : s.Leads d p) : t.Leads d p := by
  obtain ⟨B, ⟨hB, hinfo⟩, hd, hp⟩ := hleads
  exact ⟨B, ⟨hcache.intact ▸ hB, by rw [hcache.infos, hinfo]⟩, hd, hp⟩

/-- Steps that emit nothing keep the invariant, provided that the control and the
entries of the buffer lead to tracked blocks. -/
theorem of_cache {t : Execution} (h : s.Consistent) (hcache : Cache s t)
    (hcontrol : ∀ p, t.control = .block p → ∃ d, s.Leads d p)
    (hrsb : t.control ≠ .outside → ∀ i p, (t.rsb i).codePtr = some p →
      s.Leads (t.rsb i).target p) : t.Consistent where
  wellFormed := hcache.intact ▸ h.wellFormed
  apart := hcache.intact ▸ h.apart
  infos := by rw [hcache.infos, hcache.codePtr, hcache.intact]; exact h.infos
  entries d p hp := hcache.leads (h.entries d p (hcache.entries d p hp))
  links slot a q hslot hq := by
    have hslot' : s.space.HasSlot slot a := by
      unfold AddressSpace.HasSlot at hslot ⊢
      rwa [hcache.infos] at hslot
    exact hcache.leads (h.links slot a q hslot' (hcache.links a q hq))
  control p hp := (hcontrol p hp).imp fun _ => hcache.leads
  rsb hout i p hp := hcache.leads (hrsb hout i p hp)

theorem clearCache (h : s.Consistent) (hcontrol : ∀ p, s.control ≠ .block p)
    (hrsb : s.control ≠ .outside → ∀ i, (s.rsb i).codePtr = none) :
    Consistent { s with space := s.space.clearCache } where
  wellFormed := h.wellFormed
  apart := h.apart
  infos p info hinfo := by cases hinfo
  entries d p hp := by cases hp
  links slot a q hslot _ := by
    obtain ⟨p, info, hinfo, -⟩ := hslot
    cases hinfo
  control p hp := (hcontrol p hp).elim
  rsb hout i p hp := by
    rw [hrsb hout i] at hp
    cases hp

end Consistent

/-! ### Emission -/

def written (s : Execution) (space : AddressSpace) (B : Emitted) : Execution :=
  { s with space := space, intact := overwrite s.intact B }

namespace Placed

variable {s : Execution}

theorem slot_unique (h : s.Placed) {slot slot' : BlockRelocation} {a : CodePtr}
    (hslot : s.space.HasSlot slot a) (hslot' : s.space.HasSlot slot' a) : slot = slot' := by
  obtain ⟨p, info, hinfo, hmem, ha⟩ := hslot
  obtain ⟨p', info', hinfo', hmem', ha'⟩ := hslot'
  obtain ⟨-, -, B, hB, rfl⟩ := h.infos p info hinfo
  obtain ⟨-, -, B', hB', rfl⟩ := h.infos p' info' hinfo'
  obtain ⟨-, hlt, hnodup⟩ := h.wellFormed B hB
  obtain ⟨-, hlt', -⟩ := h.wellFormed B' hB'
  have hsame : B = B' := by
    refine h.apart B hB B' hB' ⟨?_, ?_⟩
    · calc B.info.entryPoint ≤ a := ha ▸ Nat.le_add_right _ _
        _ < B'.info.entryPoint + B'.info.size := ha' ▸ Nat.add_lt_add_left (hlt' slot' hmem') _
    · calc B'.info.entryPoint ≤ a := ha' ▸ Nat.le_add_right _ _
        _ < B.info.entryPoint + B.info.size := ha ▸ Nat.add_lt_add_left (hlt slot hmem) _
  subst hsame
  exact List.inj_on_of_nodup_map hnodup hmem hmem' (Nat.add_left_cancel (ha.symm.trans ha'))

theorem apart_overwrite (h : s.Placed) (N : Emitted) :
    ∀ B ∈ overwrite s.intact N, ∀ B' ∈ overwrite s.intact N,
      B.info.Overlaps B'.info → B = B' := by
  have hfresh : ∀ B ∈ s.intact.filter fun old => ¬old.info.Overlaps N.info,
      ¬B.info.Overlaps N.info := fun B hB => of_decide_eq_true (List.mem_filter.mp hB).2
  refine List.forall_mem_cons.mpr ⟨List.forall_mem_cons.mpr ⟨fun _ => rfl, fun B hB ho => ?_⟩,
    fun B hB => List.forall_mem_cons.mpr ⟨fun ho => ?_, fun B' hB' => ?_⟩⟩
  · exact (hfresh B hB ⟨ho.2, ho.1⟩).elim
  · exact (hfresh B hB ho).elim
  · exact h.apart B (List.mem_of_mem_filter hB) B' (List.mem_of_mem_filter hB')

theorem mem_written {space : AddressSpace} {N B : Emitted} (hB : B ∈ s.intact)
    (hbelow : B.info.entryPoint + B.info.size ≤ N.info.entryPoint) :
    B ∈ (s.written space N).intact :=
  List.mem_cons_of_mem _ (List.mem_filter.mpr
    ⟨hB, decide_eq_true fun hoverlap => hbelow.not_gt hoverlap.2⟩)

variable {block : Block BlockRelocation} {info : EmittedBlockInfo} {space : AddressSpace}

theorem emitBlock (h : s.Placed) (hwf : WellFormed block.size block.slots)
    (hemit : s.space.emitBlock block = some (info, space)) :
    (s.written space ⟨block.location, info⟩).Placed := by
  obtain ⟨rfl, hptr, hinfos, -⟩ := AddressSpace.emitBlock_code hemit
  refine ⟨List.forall_mem_cons.mpr ⟨hwf, fun B hB => h.wellFormed B (List.mem_of_mem_filter hB)⟩,
    h.apart_overwrite _, fun p info' hp => ?_⟩
  rw [written, hinfos] at hp
  by_cases hsame : p = s.space.codePtr
  · subst hsame
    rw [Function.update_self] at hp
    obtain rfl := Option.some.inj hp
    exact ⟨rfl, hptr.ge, _, List.mem_cons_self, rfl⟩
  · rw [Function.update_of_ne hsame] at hp
    obtain ⟨hentry, hbelow, B, hB, rfl⟩ := h.infos p info' hp
    exact ⟨hentry, hbelow.trans (hptr ▸ Nat.le_add_right _ _), B, mem_written hB hbelow, rfl⟩

theorem leads_emitBlock (h : s.Placed) (hemit : s.space.emitBlock block = some (info, space))
    {d : LocationDescriptor} {p : CodePtr} (hleads : s.Leads d p) :
    (s.written space ⟨block.location, info⟩).Leads d p := by
  obtain ⟨rfl, -, hinfos, -⟩ := AddressSpace.emitBlock_code hemit
  obtain ⟨B, ⟨hB, hBinfo⟩, hd, hp⟩ := hleads
  have hbelow := (h.infos _ _ hBinfo).2.1
  have hne : B.info.entryPoint ≠ s.space.codePtr :=
    ((Nat.lt_add_of_pos_right (h.wellFormed B hB).1).trans_le hbelow).ne
  exact ⟨B, ⟨mem_written hB hbelow, by
    rw [written, hinfos, Function.update_of_ne hne, hBinfo]⟩, hd, hp⟩

end Placed

theorem leads_new {s : Execution} {block : Block BlockRelocation} {info : EmittedBlockInfo}
    {space : AddressSpace} (hemit : s.space.emitBlock block = some (info, space)) :
    (s.written space ⟨block.location, info⟩).Leads block.location info.entryPoint := by
  obtain ⟨rfl, -, hinfos, -⟩ := AddressSpace.emitBlock_code hemit
  exact ⟨_, ⟨List.mem_cons_self, by rw [written, hinfos, Function.update_self]⟩, rfl, rfl⟩

namespace Consistent

variable {s : Execution} {block : Block BlockRelocation} {info : EmittedBlockInfo}
  {space : AddressSpace}

/-- Writing a block behind the code pointer overwrites no tracked block. -/
theorem emitBlock (h : s.Consistent) (hwf : WellFormed block.size block.slots)
    (hemit : s.space.emitBlock block = some (info, space)) :
    (s.written space ⟨block.location, info⟩).Consistent := by
  have hplaced := h.toPlaced.emitBlock hwf hemit
  have hleads := fun d p => h.toPlaced.leads_emitBlock hemit (d := d) (p := p)
  have hnew := leads_new hemit
  obtain ⟨-, hentries, -⟩ := AddressSpace.emitBlock_spec hemit
  have hentered : ∀ d p, space.blockEntries d = some p →
      (s.written space ⟨block.location, info⟩).Leads d p := by
    intro d p hp
    rw [hentries] at hp
    by_cases hd : d = block.location
    · subst hd
      rw [Function.update_self] at hp
      obtain rfl := Option.some.inj hp
      exact hnew
    · rw [Function.update_of_ne hd] at hp
      exact hleads d p (h.entries d p hp)
  obtain ⟨rfl, -, hinfos, hlinks⟩ := AddressSpace.emitBlock_code hemit
  refine ⟨hplaced, hentered, fun slot a q hslot hq => ?_,
    fun p hp => (h.control p hp).imp fun d => hleads d p,
    fun hout i p hp => hleads _ p (h.rsb hout i p hp)⟩
  rcases hlinks a with ⟨hnot, hsame⟩ | ⟨slot', hslot', hlinked⟩
  · -- An old slot that was not written; the slots of the new block all are.
    rw [written, hsame] at hq
    obtain ⟨p, info', hp, hmem, ha⟩ := hslot
    rw [written, hinfos] at hp
    by_cases hpp : p = s.space.codePtr
    · subst hpp
      rw [Function.update_self] at hp
      obtain rfl := Option.some.inj hp
      exact (hnot slot hmem ha).elim
    · rw [Function.update_of_ne hpp] at hp
      exact hleads _ q (h.links slot a q ⟨p, info', hp, hmem, ha⟩ hq)
  · obtain rfl : slot = slot' := hplaced.slot_unique hslot hslot'
    exact hentered slot.target q (hlinked.symm.trans hq)

/-- Looking a block up, or emitting it, keeps the invariant; when the cache has to
be cleared for it, no block may be in control or on the return stack. -/
theorem getOrEmit (h : s.Consistent) {p : CodePtr} {t : Execution}
    (hcontrol : ∀ p, s.control ≠ .block p)
    (hclear : s.control ≠ .outside → s.space.blockEntries block.location = none →
      s.space.getRemainingSize < 1024 * 1024 → ∀ i, (s.rsb i).codePtr = none)
    (hget : s.getOrEmit block = some (p, t)) :
    t.Consistent ∧ t.Leads block.location p ∧ t.control = s.control ∧ t.rsb = s.rsb := by
  unfold Execution.getOrEmit at hget
  split at hget
  · rename_i hwf
    obtain ⟨⟨p', space⟩, hspace, heq⟩ := Option.map_eq_some_iff.mp hget
    simp only [Prod.mk.injEq] at heq
    obtain ⟨rfl, rfl⟩ := heq
    unfold AddressSpace.getOrEmit at hspace
    cases hentry : s.space.blockEntries block.location with
    | some q =>
        simp only [hentry, Option.some.injEq, Prod.mk.injEq] at hspace
        obtain ⟨rfl, rfl⟩ := hspace
        simp only [Option.isSome_some, ↓reduceIte]
        exact ⟨h, h.entries _ _ hentry, trivial, trivial⟩
    | none =>
        simp only [hentry] at hspace
        obtain ⟨⟨info, space'⟩, hemit, heq⟩ := Option.map_eq_some_iff.mp hspace
        simp only [Prod.mk.injEq] at heq
        obtain ⟨rfl, rfl⟩ := heq
        simp only [Option.isSome_none, Bool.false_eq_true, ↓reduceIte]
        -- The emission is made in the cache as it is, or in the cleared one.
        obtain ⟨c, hc, hemit⟩ : ∃ c, Consistent { s with space := c } ∧
            c.emitBlock block = some (info, space') := by
          unfold AddressSpace.emit at hemit
          split at hemit
          · rename_i hfull
            exact ⟨_, h.clearCache hcontrol fun hout => hclear hout hentry hfull, hemit⟩
          · exact ⟨_, h, hemit⟩
        have hinfo : info = ⟨info.entryPoint, block.size, block.slots⟩ := by
          rw [(AddressSpace.emitBlock_code hemit).1]
        rw [← hinfo]
        exact ⟨hc.emitBlock hwf hemit, leads_new (s := { s with space := c }) hemit, trivial,
          trivial⟩
  · cases hget

theorem invalidateBasicBlocks (h : s.Consistent) (ds : List LocationDescriptor) :
    Consistent { s with space := s.space.invalidateBasicBlocks ds } := by
  obtain ⟨hinfos, hptr, hlinks⟩ := s.space.invalidateBasicBlocks_code ds
  refine h.of_cache ⟨rfl, hinfos, hptr, fun d p hp => ?_, fun a q hq => ?_⟩ h.control h.rsb
  · rw [(s.space.invalidateBasicBlocks_spec ds).1] at hp
    split at hp
    · cases hp
    · exact hp
  · rcases hlinks a with hsame | hnone
    · exact hsame ▸ hq
    · rw [hnone] at hq
      cases hq

theorem invalidateCacheRanges (h : s.Consistent) (ranges : IntervalSet) :
    Consistent { s with space := s.space.invalidateCacheRanges ranges } := by
  have hranges : Consistent { s with
      space := { s.space with blockRanges := (s.space.blockRanges.invalidateRanges ranges).2 } } :=
    h.of_cache ⟨rfl, rfl, rfl, fun _ _ hp => hp, fun _ _ hq => hq⟩ h.control h.rsb
  exact hranges.invalidateBasicBlocks _

theorem jump (h : s.Consistent) {target : Option CodePtr}
    (htarget : ∀ p, target = some p → ∃ d, s.Leads d p) (hin : s.control ≠ .outside) :
    (s.jump target).Consistent := by
  cases target with
  | none => exact h.of_cache (.of_eq rfl rfl) (by rintro p ⟨⟩) fun _ => h.rsb hin
  | some p =>
      refine h.of_cache (.of_eq rfl rfl) (fun q hq => ?_) fun _ => h.rsb hin
      obtain rfl : p = q := by simpa [Execution.jump] using hq
      exact htarget p rfl

theorem pushRSB (h : s.Consistent) {slot : BlockRelocation} {p : CodePtr}
    (hslot : s.InControl slot p) : (s.pushRSB p slot).Consistent := by
  have hin : s.control ≠ .outside := by rw [hslot.1]; simp
  refine h.of_cache (.of_eq rfl rfl) h.control fun _ i q hq => ?_
  simp only [Execution.pushRSB] at hq ⊢
  by_cases hi : i = rsbIndex ((s.rsbPtr + 16#32) &&& rsbIndexMask)
  · subst hi
    rw [Function.update_self] at hq ⊢
    exact h.links slot _ q (h.hasSlot_of_inControl hslot) hq
  · rw [Function.update_of_ne hi] at hq ⊢
    exact h.rsb hin i q hq

theorem popRSBHint (h : s.Consistent) (d : LocationDescriptor) (hin : s.control ≠ .outside) :
    (s.popRSBHint d).Consistent := by
  have hptr : Consistent { s with rsbPtr := (s.rsbPtr &&& rsbIndexMask) - 16#32 } :=
    h.of_cache (.of_eq rfl rfl) h.control h.rsb
  refine hptr.jump (fun p hp => ?_) hin
  split at hp
  · exact ⟨_, h.rsb hin _ p hp⟩
  · cases hp

theorem step {t : Execution} {action : ExecutionAction} (h : s.Consistent)
    (hpermitted : s.Permitted action) (hstep : s.step action = some t) : t.Consistent := by
  cases action with
  | run block targets rsbPtr =>
      simp only [Execution.step] at hstep
      split at hstep
      · rename_i hout
        obtain ⟨⟨p, u⟩, hget, rfl⟩ := Option.map_eq_some_iff.mp hstep
        obtain ⟨hu, hleads, -⟩ := h.getOrEmit (by simp [hout]) (fun hin => (hin hout).elim) hget
        refine hu.of_cache (.of_eq rfl rfl) (fun q hq => ?_) (by rintro - i p ⟨⟩)
        obtain rfl : p = q := by simpa using hq
        exact ⟨_, hleads⟩
      · cases hstep
  | dispatch block =>
      simp only [Execution.step] at hstep
      split at hstep
      · rename_i hdispatcher
        obtain ⟨⟨p, u⟩, hget, rfl⟩ := Option.map_eq_some_iff.mp hstep
        obtain ⟨hu, hleads, hcontrol, -⟩ :=
          h.getOrEmit (by simp [hdispatcher]) (fun _ => hpermitted) hget
        refine hu.of_cache (.of_eq rfl rfl) (fun q hq => ?_)
          (fun _ => hu.rsb (by simp [hcontrol, hdispatcher]))
        obtain rfl : p = q := by simpa using hq
        exact ⟨_, hleads⟩
      · cases hstep
  | pushRSB slot =>
      simp only [Execution.step] at hstep
      split at hstep
      · split at hstep
        · rename_i hslot
          obtain rfl := Option.some.inj hstep
          exact h.pushRSB hslot
        · cases hstep
      · cases hstep
  | linkBlock slot =>
      simp only [Execution.step] at hstep
      split at hstep
      · split at hstep
        · rename_i hcontrol hslot
          obtain rfl := Option.some.inj hstep
          refine h.jump (fun q hq => ⟨slot.target, ?_⟩) (by simp [hcontrol])
          exact h.links slot _ q (h.hasSlot_of_inControl hslot) hq
        · cases hstep
      · cases hstep
  | popRSBHint d =>
      simp only [Execution.step] at hstep
      split at hstep
      · rename_i hcontrol
        obtain rfl := Option.some.inj hstep
        exact h.popRSBHint d (by simp [hcontrol])
      · cases hstep
  | returnToDispatcher =>
      simp only [Execution.step] at hstep
      split at hstep
      · rename_i hcontrol
        obtain rfl := Option.some.inj hstep
        exact h.jump (by rintro p ⟨⟩) (by simp [hcontrol])
      · cases hstep
  | fastmemFault ds =>
      simp only [Execution.step] at hstep
      split at hstep
      · obtain rfl := Option.some.inj hstep
        exact h.invalidateBasicBlocks ds
      · cases hstep
  | returnFromRunCode =>
      simp only [Execution.step] at hstep
      split at hstep
      · cases hstep
      · obtain rfl := Option.some.inj hstep
        exact h.of_cache (.of_eq rfl rfl) (by rintro p ⟨⟩) (fun hin => (hin rfl).elim)
  | clearCache =>
      simp only [Execution.step] at hstep
      split at hstep
      · rename_i hout
        obtain rfl := Option.some.inj hstep
        exact h.clearCache (by simp [hout]) fun hin => (hin hout).elim
      · cases hstep
  | invalidateCacheRanges ranges =>
      simp only [Execution.step] at hstep
      split at hstep
      · obtain rfl := Option.some.inj hstep
        exact h.invalidateCacheRanges ranges
      · cases hstep

theorem create (codeCacheSize endOfPrelude : ℕ) :
    (Execution.create codeCacheSize endOfPrelude).Consistent where
  wellFormed := by rintro B ⟨⟩
  apart := by rintro B ⟨⟩
  infos := by rintro p info ⟨⟩
  entries := by rintro d p ⟨⟩
  links := by rintro slot a q - ⟨⟩
  control := by rintro p ⟨⟩
  rsb := fun hin => (hin rfl).elim

end Consistent

/-- As long as the dispatcher never clears the cache while a block is on the return
stack, every entry leads to the dispatcher or to an intact block of its descriptor. -/
theorem returnStackSound_of_reaches {codeCacheSize endOfPrelude : ℕ} {s : Execution}
    (hreach : Reaches step Permitted (create codeCacheSize endOfPrelude) s) :
    s.ReturnStackSound :=
  (hreach.invariant (Consistent.create codeCacheSize endOfPrelude)
    fun _ _ _ hs hok hstep => hs.step hok hstep).returnStackSound

/-! In a cache with room for two small blocks above the last megabyte, a block calls
a function and the function's block is the one the cache is cleared for. -/

def returnBlock : Block BlockRelocation := ⟨2, none, 16, []⟩

def callBlock : Block BlockRelocation := ⟨1, none, 48, [⟨2, 8, .moveToScratch1⟩]⟩

def calleeBlock : Block BlockRelocation := ⟨3, none, 16, []⟩

def smallCache : Execution := create (1024 * 1024 + 64) 16

/-- Run the block to return to once, then call. -/
def callingRun : List ExecutionAction :=
  [.run returnBlock (fun _ => 0) 0, .returnToDispatcher, .dispatch callBlock,
    .pushRSB ⟨2, 8, .moveToScratch1⟩, .returnToDispatcher]

theorem clearingRun_isSome :
    (run step smallCache (callingRun ++ [.dispatch calleeBlock])).isSome := by
  decide

theorem clear_leaves_stale_entry : ∃ s, Reaches step always smallCache s ∧
    ¬s.ReturnStackSound := by
  refine ⟨_, reaches_of_run (Option.some_get clearingRun_isSome).symm (follows_always _ _),
    fun h => ?_⟩
  rcases h (by decide) 1 with hnone | ⟨B, hB, hlocation, -⟩
  · revert hnone
    decide
  · revert B
    decide

theorem callingRun_isSome :
    (run step (create (1024 * 1024 + 64) 16) callingRun).isSome := by
  decide

theorem returnStackSound_call : ((run step (create (1024 * 1024 + 64) 16) callingRun).get
      callingRun_isSome).ReturnStackSound ∧
    ((run step (create (1024 * 1024 + 64) 16) callingRun).get callingRun_isSome).control =
      .dispatcher := by
  refine ⟨returnStackSound_of_reaches (reaches_of_run (Option.some_get callingRun_isSome).symm
    ⟨trivial, fun t ht => ⟨trivial, fun u hu => ⟨?_, fun _ _ =>
      ⟨trivial, fun _ _ => ⟨trivial, fun _ _ => trivial⟩⟩⟩⟩⟩), by decide⟩
  -- The frame of a fresh run holds no block when the first dispatch comes.
  have hfresh : ∀ i, (t.rsb i).codePtr = none := by
    simp only [step] at ht
    split at ht
    · obtain ⟨⟨p, v⟩, -, rfl⟩ := Option.map_eq_some_iff.mp ht
      exact fun _ => rfl
    · cases ht
  simp only [step] at hu
  split at hu
  · obtain rfl := Option.some.inj hu
    exact fun _ _ => hfresh
  · cases hu

end Execution

end Umbra.Arm64
