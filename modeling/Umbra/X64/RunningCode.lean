import Umbra.Backend.SlabFinish
import Umbra.X64.A32EmitX64

/-!
Code that is running is not rewritten.

In shared mode several executors are inside emitted code at once, and the slab is meant to
write to a block only while nobody is inside.  An emission leaves the links of older blocks
for later if `FastDispatch` is enabled; without it `RegisterBlock` patches them at once.
-/

namespace Umbra.X64

open Umbra.Lib Umbra.IR Umbra.Backend

/-! ### The configuration -/

structure CodeArea where
  codeBegin : CodePtr
  usableBytes : ℕ
  nonnull : codeBegin ≠ 0
  nonempty : 0 < usableBytes
  addressable : codeBegin + usableBytes < 2 ^ 64

def createSlab (area : CodeArea) (linked shared : Bool) : Slab A32EmitX64 :=
  .create (.empty linked area.codeBegin) area.codeBegin area.usableBytes shared

def fastDispatch : BitVec 32 := 0x00000004#32

def allSafeOptimizations : BitVec 32 := 0x0000FFFF#32

/-- The parts of a `UserConfig` that `initialize` and the linking of blocks depend on; of a
pointer, whether it is set. -/
structure UserConfig where
  callbacksLink : Bool
  lookupLink : Bool
  runtimeConfigLink : Bool
  fastDispatchTableLink : Bool
  coprocessorUserArgLink : Bool
  exclusiveMonitorLockLink : Bool
  exclusiveMonitorAddressesLink : Bool
  exclusiveMonitorValuesLink : Bool
  fastmemPointer : Bool
  pageTable : Bool
  pageTableLink : Bool
  readPageTable : Bool
  readPageTableLink : Bool
  optimizations : BitVec 32
  unsafeOptimizations : Bool

namespace UserConfig

def hasOptimization (conf : UserConfig) (f : BitVec 32) : Bool :=
  let f := if conf.unsafeOptimizations then f else f &&& allSafeOptimizations
  f &&& conf.optimizations != 0#32

/-- The condition under which executors find linked blocks through their own tables. -/
def linked (conf : UserConfig) : Bool :=
  conf.fastDispatchTableLink && conf.hasOptimization fastDispatch

def linksRuntimeState (conf : UserConfig) : Bool :=
  conf.callbacksLink && conf.lookupLink && conf.runtimeConfigLink && conf.fastDispatchTableLink &&
    conf.coprocessorUserArgLink && conf.exclusiveMonitorLockLink &&
    conf.exclusiveMonitorAddressesLink && conf.exclusiveMonitorValuesLink &&
    !conf.fastmemPointer && (!conf.pageTable || conf.pageTableLink) &&
    (!conf.readPageTable || conf.readPageTableLink)

end UserConfig

def initializeSlab (conf : UserConfig) (area : CodeArea) (shared : Bool) : Option (Slab A32EmitX64) :=
  if shared && !conf.linksRuntimeState then none
  else some (createSlab area conf.linked shared)

/-! ### Emission while somebody is inside -/

section Emission

variable {c c' : A32EmitX64} {block : Block PatchSite} {mode : EmitMode} {p : CodePtr}

theorem links_foldl_emitSite (entrypoint : CodePtr) (sites : List PatchSite) (c : A32EmitX64)
    {a : CodePtr} (ha : ∀ site ∈ sites, a ≠ entrypoint + site.offset) :
    (sites.foldl (A32EmitX64.emitSite entrypoint) c).links a = c.links a := by
  induction sites generalizing c with
  | nil => rfl
  | cons site sites ih =>
      obtain ⟨hfirst, hrest⟩ := List.forall_mem_cons.mp ha
      exact (ih (A32EmitX64.emitSite entrypoint c site) hrest).trans
        (Function.update_of_ne hfirst _ _)

theorem links_publishDirectLinkTarget (hactive : mode.activeExecutions ≠ 0)
    (d : LocationDescriptor) (p : CodePtr) :
    (c.publishDirectLinkTarget mode d p).links = c.links := by
  unfold A32EmitX64.publishDirectLinkTarget
  rw [if_neg hactive]
  split <;> rfl

/-- What an emission writes outside the slots of the new block. -/
theorem links_emitForSlab (hactive : mode.activeExecutions ≠ 0)
    (hemit : c.emitForSlab block mode = some (p, c')) {a : CodePtr}
    (ha : a ∉ block.slots.map (p + ·.offset)) : c'.links a ≠ c.links a ↔
      c.linked = false ∧ c.links a ≠ some p ∧
        ∃ kind slot, c.Stores block.location kind slot ∧ slot.address = a := by
  have hp : (c.emit block).1 = p := congrArg Prod.fst (Option.some.inj hemit)
  have hc' : (c.emit block).2.publishDirectLinkTarget mode block.location (c.emit block).1 = c' :=
    congrArg Prod.snd (Option.some.inj hemit)
  have hout : ∀ site ∈ block.slots, a ≠ p + site.offset := fun site hsite heq =>
    ha (List.mem_map.mpr ⟨site, hsite, heq.symm⟩)
  have hlinks := links_foldl_emitSite p block.slots c hout
  obtain ⟨-, hstores⟩ := A32EmitX64.foldl_emitSite_spec p block.slots c
  -- The slots that the block itself has for its own descriptor are not at `a`.
  have hold : (∃ kind slot, (block.slots.foldl (A32EmitX64.emitSite p) c).Stores
      block.location kind slot ∧ slot.address = a) ↔
        ∃ kind slot, c.Stores block.location kind slot ∧ slot.address = a := by
    simp only [hstores]
    constructor
    · rintro ⟨kind, slot, hslot | ⟨site, hsite, -, -, rfl⟩, rfl⟩
      · exact ⟨kind, slot, hslot, rfl⟩
      · exact absurd rfl (hout site hsite)
    · rintro ⟨kind, slot, hslot, heq⟩
      exact ⟨kind, slot, .inl hslot, heq⟩
  rw [← hc', links_publishDirectLinkTarget hactive, c.emit_links block, hp]
  cases hlinked : c.linked with
  | true => simp [hlinks]
  | false =>
      simp only [Bool.false_eq_true, if_false, A32EmitX64.patch_links, hlinks, true_and]
      split_ifs with hstored
      · exact ⟨fun h => ⟨h.symm, hold.mp hstored⟩, fun h => h.1.symm⟩
      · exact iff_of_false (fun h => h rfl) fun h => hstored (hold.mpr h.2)

end Emission

/-! ### Runs -/

def emitsNew (s : Slab A32EmitX64) (block : Block PatchSite) (generation : ℕ) : Bool :=
  s.quiet && generation == s.currentGeneration &&
    (s.cache.blockDescriptors block.location).isNone

def emittedSlots (s : Slab A32EmitX64) : SlabAction PatchSite → List CodePtr
  | .emit _ block generation =>
      if emitsNew s block generation then
        block.slots.map (A32EmitX64.align s.cache.codePtr + ·.offset)
      else []
  | _ => []

/-- On the way from `s` to `t` nothing is written to code but to that which the operation
itself emits. -/
def KeepsOldCode (s : Slab A32EmitX64) (action : SlabAction PatchSite) (t : Slab A32EmitX64) :
    Prop :=
  ∀ a ∉ emittedSlots s action, t.cache.links a = s.cache.links a

/-- The operation emits a block for which a slot in other code waits: one stored in the patch
table that does not lead to the entry point already. -/
def EmitsAwaited (s : Slab A32EmitX64) : SlabAction PatchSite → Prop
  | .emit caller block generation => emitsNew s block generation = true ∧
      ∃ kind slot, s.cache.Stores block.location kind slot ∧
        slot.address ∉ emittedSlots s (.emit caller block generation) ∧
        s.cache.links slot.address ≠ some (A32EmitX64.align s.cache.codePtr)
  | _ => False

theorem emitsNew_eq_true {s : Slab A32EmitX64} {block : Block PatchSite} {generation : ℕ} :
    emitsNew s block generation = true ↔
      ¬(s.quiet = false ∨ generation ≠ s.currentGeneration) ∧
        CodeCache.get s.cache block.location = none := by
  change _ ↔ _ ∧ (s.cache.blockDescriptors block.location).map _ = none
  simp [emitsNew]

/-- While somebody is inside, older code is written exactly if a block that it waits for is
emitted and the executors are not linked. -/
theorem keepsOldCode_of_executing {s t : Slab A32EmitX64} {action : SlabAction PatchSite}
    (hstep : s.step action = some t) (hcount : s.executionsAtPatching action ≠ 0) :
    KeepsOldCode s action t ↔ s.cache.linked = true ∨ ¬EmitsAwaited s action := by
  cases action with
  | emit caller block generation =>
      rcases Slab.step_emit hstep with
        ⟨hrefused, rfl⟩ | ⟨hgo, -, ⟨hget, p, hemit⟩ | ⟨p, hget, hcache⟩⟩
      · exact iff_of_true (fun _ _ => rfl)
          (.inr fun hawaited => (emitsNew_eq_true.mp hawaited.1).1 hrefused)
      · have hnew := emitsNew_eq_true.mpr ⟨hgo, hget⟩
        have hp : p = A32EmitX64.align s.cache.codePtr :=
          (congrArg Prod.fst (Option.some.inj hemit)).symm
        have hslots : emittedSlots s (.emit caller block generation) =
            block.slots.map (p + ·.offset) := by rw [emittedSlots, if_pos hnew, hp]
        have hwrites := fun a ha => @links_emitForSlab s.cache t.cache block _ p hcount hemit a ha
        rw [KeepsOldCode, EmitsAwaited, hslots, ← hp]
        constructor
        · intro hkeeps
          by_contra hbad
          obtain ⟨hlinked, hawaited⟩ := not_or.mp hbad
          obtain ⟨-, kind, slot, hstores, hout, hother⟩ := not_not.mp hawaited
          exact (hwrites _ hout).mpr ⟨by simpa using hlinked, hother, kind, slot, hstores, rfl⟩
            (hkeeps _ hout)
        · intro hcond a ha
          by_contra hne
          obtain ⟨hlinked, hother, kind, slot, hstores, rfl⟩ := (hwrites a ha).mp hne
          rcases hcond with hcond | hcond
          · cases hlinked.symm.trans hcond
          · exact hcond ⟨hnew, kind, slot, hstores, ha, hother⟩
      · refine iff_of_true (fun a _ => ?_) (.inr fun hawaited => ?_)
        · rw [hcache]
          exact congrFun (links_publishDirectLinkTarget hcount _ _) a
        · cases hget.symm.trans (emitsNew_eq_true.mp hawaited.1).2
  | _ =>
      refine iff_of_true (fun a _ => ?_) (.inr id)
      rcases Slab.step_of_executing hstep hcount with hsame | ⟨_, _, _, hemit, -⟩
      · rw [hsame]
      · cases hemit

theorem keptByCache_linked (b : Bool) :
    Slab.KeptByCache (S := PatchSite) fun c : A32EmitX64 => c.linked = b where
  emit := by
    intro c c' block mode p hc hget hemit
    obtain ⟨c₁, links, pending, hc₁, rfl⟩ := A32EmitX64.emitForSlab_eq hemit
    obtain ⟨-, ⟨links', patchInformation, rfl⟩, -⟩ :=
      A32EmitX64.emit_spec hc₁ (Option.map_eq_none_iff.mp hget)
    exact hc
  republish := by
    intro c d p mode hc
    obtain ⟨links, pending, heq⟩ := c.publishDirectLinkTarget_eq mode d p
    exact (congrArg A32EmitX64.linked heq).trans hc
  publishLinks := by
    intro c hc
    obtain ⟨links, heq⟩ := c.publishLinks_eq
    exact (congrArg A32EmitX64.linked heq).trans hc
  clearCache hc := hc
  invalidateCacheRanges := by
    intro c ranges hc
    obtain ⟨ds, -, ⟨links, patchInformation, heq⟩, -⟩ := c.invalidateCacheRanges_spec ranges
    exact (congrArg A32EmitX64.linked heq).trans hc
  retireCodeRange := by
    intro c first last hc
    by_cases hempty : first = 0 ∨ last ≤ first
    · exact (congrArg (fun r => A32EmitX64.linked r.2)
        (A32EmitX64.retireCodeRange_of_empty hempty)).trans hc
    · simp only [not_or, not_le] at hempty
      obtain ⟨ds, -, ⟨links, patchInformation, retired, heq⟩, -⟩ :=
        @A32EmitX64.retireCodeRange_spec c first last hempty.1 hempty.2
      exact (congrArg A32EmitX64.linked heq).trans hc
  setCurrentCodePtr _ hc := hc

/-- An accepted shared configuration links its executors exactly if it has `FastDispatch`. -/
theorem initializeSlab_eq {conf : UserConfig} {area : CodeArea} {s : Slab A32EmitX64}
    (h : initializeSlab conf area true = some s) :
    s = createSlab area (conf.hasOptimization fastDispatch) true := by
  unfold initializeSlab at h
  split at h
  · cases h
  · rename_i hlinks
    have hlinks : conf.linksRuntimeState = true := by simpa using hlinks
    have htable : conf.fastDispatchTableLink = true := by
      simp only [UserConfig.linksRuntimeState, Bool.and_eq_true] at hlinks
      exact hlinks.1.1.1.1.1.1.1.2
    rw [UserConfig.linked, htable, Bool.true_and] at h
    exact (Option.some.inj h).symm

/-- In every run of a shared slab, an operation writes to older code while somebody is inside
exactly if it emits a block that this code waits for and `FastDispatch` is not enabled. -/
theorem keepsOldCode_iff {conf : UserConfig} {area : CodeArea} {s₀ s t : Slab A32EmitX64}
    {action : SlabAction PatchSite} (hslab : initializeSlab conf area true = some s₀)
    (hreach : Reaches Slab.step always s₀ s) (hstep : s.step action = some t)
    (hcount : s.executionsAtPatching action ≠ 0) :
    KeepsOldCode s action t ↔
      conf.hasOptimization fastDispatch = true ∨ ¬EmitsAwaited s action := by
  have hlinked : s.cache.linked = conf.hasOptimization fastDispatch := by
    refine hreach.invariant (I := fun s => s.cache.linked = _) ?_ fun _ _ _ hs _ hs' =>
      (keptByCache_linked _).step hs hs'
    rw [initializeSlab_eq hslab]
    exact (keptByCache_linked _).create rfl _ _ _
  rw [keepsOldCode_of_executing hstep hcount, hlinked]

/-! A block that pushes a return address is emitted, and then the block it returns to, with an
executor inside. -/

def sharedConfig (optimizations : BitVec 32) : UserConfig :=
  ⟨true, true, true, true, true, true, true, true, false, false, false, false, false,
    optimizations, false⟩

def smallArea : CodeArea := ⟨4096, 1024 * 1024, by decide, by decide, by decide⟩

def callerBlock : Block PatchSite where
  location := 0x100
  range := some ⟨0x100, 0x103, Nat.le_add_right 0x100 3⟩
  size := 32
  slots := [⟨0x104, .movRcx, 4⟩]

def returnBlock : Block PatchSite where
  location := 0x104
  range := some ⟨0x104, 0x107, by decide⟩
  size := 32
  slots := []

def callerRun : List (SlabAction PatchSite) :=
  [.registerExecutor 0, .enterExecution 0, .emit 0 callerBlock 1]

theorem callerRun_isSome (linked : Bool) :
    (run Slab.step (createSlab smallArea linked true) callerRun).isSome := by
  cases linked <;> decide +kernel

/-- Without `FastDispatch` the slot in the first block is written under the executor. -/
theorem registerBlock_writes_running_code : ∃ s₀ s t,
    initializeSlab (sharedConfig 0#32) smallArea true = some s₀ ∧
      Reaches Slab.step always s₀ s ∧ s.step (.emit 0 returnBlock 1) = some t ∧
      s.executionsAtPatching (.emit 0 returnBlock 1) = 1 ∧
      ¬KeepsOldCode s (.emit 0 returnBlock 1) t := by
  refine ⟨_, _, _, rfl, reaches_of_run (Option.some_get (callerRun_isSome false)).symm
    (follows_always _ _), rfl, rfl, fun hkeeps => ?_⟩
  have hslot := hkeeps 4100 (by decide +kernel)
  revert hslot
  decide +kernel

/-- With it the slot is left alone. -/
theorem keepsOldCode_with_fastDispatch : ∃ s₀ s t,
    initializeSlab (sharedConfig fastDispatch) smallArea true = some s₀ ∧
      Reaches Slab.step always s₀ s ∧ s.step (.emit 0 returnBlock 1) = some t ∧
      s.executionsAtPatching (.emit 0 returnBlock 1) = 1 ∧
      KeepsOldCode s (.emit 0 returnBlock 1) t := by
  have hreach : Reaches Slab.step always (createSlab smallArea true true) _ :=
    reaches_of_run (Option.some_get (callerRun_isSome true)).symm (follows_always _ _)
  exact ⟨_, _, _, rfl, hreach, rfl, rfl, (@keepsOldCode_iff (sharedConfig fastDispatch) smallArea
    _ _ _ _ rfl hreach rfl (by decide +kernel)).mpr (.inl (by decide))⟩

end Umbra.X64
