import Umbra.Arm64.AddressSpace
import Umbra.Backend.SlabRun

/-!
The arm64 slab while an executor is inside emitted code.

From entering to leaving, the executor finds every block it was ever given: the
tables only grow.  Code that exists is not written to by anyone but the executor
itself, and by it only when it is alone.
-/

namespace Umbra.Arm64

open Umbra.Lib Umbra.IR Umbra.Backend

/-- `initialize` of the slab: segments begin at the first page behind the prelude.
Without room for one the number of usable bytes wraps around. -/
def createSlab (codeCacheSize endOfPrelude : ℕ) (shared : Bool) : Slab AddressSpace :=
  let codeBegin := (endOfPrelude + 4095) / 4096 * 4096
  .create (.empty codeCacheSize endOfPrelude) codeBegin
    ((codeCacheSize + 2 ^ 64 - codeBegin) % 2 ^ 64) shared

namespace AddressSpace

/-- Every block of `c` is in `c'`, under the same entry point if it has one. -/
structure Kept (c c' : AddressSpace) : Prop where
  tracked : ∀ p info, c.blockInfos p = some info → c'.blockInfos p = some info
  entries : ∀ d p, c.blockEntries d = some p →
    c'.blockEntries d = some p ∧ c'.blockInfos p = c.blockInfos p

theorem Kept.refl (c : AddressSpace) : Kept c c := ⟨fun _ _ h => h, fun _ _ h => ⟨h, rfl⟩⟩

variable {c c' : AddressSpace} {block : Block BlockRelocation}

theorem Kept.trans {c'' : AddressSpace} (h : Kept c c') (h' : Kept c' c'') : Kept c c'' where
  tracked p info hinfo := h'.tracked p info (h.tracked p info hinfo)
  entries d p hentry :=
    have hkept := h.entries d p hentry
    have hkept' := h'.entries d p hkept.1
    ⟨hkept'.1, hkept'.2.trans hkept.2⟩

/-- No link of `c` was written on the way to `c'`, only those of a new block. -/
def WritesNewLinksOnly (c c' : AddressSpace) : Prop :=
  ∀ a, c'.links a = c.links a ∨ ∃ p info slot, c.blockInfos p = none ∧
    c'.blockInfos p = some info ∧ slot ∈ info.blockRelocations ∧ a = p + slot.codeOffset

theorem emitBlock_fresh {info : EmittedBlockInfo} (h : c.emitBlock block = some (info, c')) :
    c.blockInfos c.codePtr = none ∧ ∀ d, c.blockEntries d ≠ some c.codePtr := by
  unfold emitBlock at h
  simp only [Option.ite_none_left_eq_some, Bool.or_eq_true, not_or, Bool.not_eq_true,
    Option.isSome_eq_false_iff, Option.isNone_iff_eq_none] at h
  obtain ⟨⟨⟨-, hlisted⟩, hinfos⟩, -⟩ := h
  refine ⟨hinfos, fun d hd => ?_⟩
  rw [List.any_eq_false] at hlisted
  exact hlisted _ (c.listed d _ hd) (beq_self_eq_true _)

theorem kept_emitBlock {info : EmittedBlockInfo} (h : c.emitBlock block = some (info, c'))
    (hentry : c.blockEntries block.location = none) : Kept c c' := by
  obtain ⟨hfree, hnot⟩ := emitBlock_fresh h
  obtain ⟨-, -, hinfos, -⟩ := emitBlock_code h
  obtain ⟨-, hentries, -⟩ := emitBlock_spec h
  constructor
  · intro p x hx
    have hp : p ≠ c.codePtr := by
      rintro rfl
      rw [hfree] at hx
      cases hx
    rw [hinfos, Function.update_of_ne hp, hx]
  · intro d p hd
    have hp : p ≠ c.codePtr := by
      rintro rfl
      exact hnot d hd
    have hne : d ≠ block.location := by
      rintro rfl
      rw [hentry] at hd
      cases hd
    rw [hentries, hinfos, Function.update_of_ne hne, Function.update_of_ne hp]
    exact ⟨hd, rfl⟩

theorem writesNewLinksOnly_emitBlock {info : EmittedBlockInfo} (hdefer : c.deferBlockRelinks = true)
    (h : c.emitBlock block = some (info, c')) : WritesNewLinksOnly c c' := by
  obtain ⟨hfree, -⟩ := emitBlock_fresh h
  obtain ⟨hinfo, -, hinfos, -⟩ := emitBlock_code h
  have hlinks : ∀ a, c'.links a = c.links a ∨ ∃ slot ∈ block.slots,
      a = c.codePtr + slot.codeOffset := by
    intro a
    unfold emitBlock at h
    simp only [Option.ite_none_left_eq_some, Option.some.injEq, Prod.mk.injEq] at h
    obtain ⟨-, -, rfl⟩ := h
    have hlink := link_links (c.enterBlock block.location ⟨c.codePtr, block.size, block.slots⟩)
      ⟨c.codePtr, block.size, block.slots⟩ a
    have hdefer' : ((c.enterBlock block.location ⟨c.codePtr, block.size, block.slots⟩).link
        ⟨c.codePtr, block.size, block.slots⟩).deferBlockRelinks = true := by
      obtain ⟨links, references, heq⟩ := link_eq
        (c.enterBlock block.location ⟨c.codePtr, block.size, block.slots⟩)
        ⟨c.codePtr, block.size, block.slots⟩
      rw [heq]
      exact hdefer
    rw [if_pos hdefer']
    rcases hlink with ⟨-, hkept⟩ | ⟨slot, hslot, ha, -⟩
    · exact .inl hkept
    · exact .inr ⟨slot, hslot, ha⟩
  intro a
  refine (hlinks a).imp_right ?_
  rintro ⟨slot, hslot, ha⟩
  refine ⟨c.codePtr, info, slot, hfree, by rw [hinfos, Function.update_self], ?_, ha⟩
  rw [hinfo]
  exact hslot

theorem emitForSlab_kept {mode : EmitMode} {p : CodePtr}
    (h : c.emitForSlab block mode = some (p, c')) (hentry : c.blockEntries block.location = none) :
    Kept c c' ∧ (relinksAreQuiescent mode = true ∨ WritesNewLinksOnly c c') := by
  unfold emitForSlab at h
  simp only at h
  split at h
  · cases h
  · rename_i info c₁ hemit
    obtain ⟨-, rfl⟩ := Prod.mk.inj (Option.some.inj h)
    have hkept := kept_emitBlock hemit hentry
    split
    · rename_i hquiescent
      obtain ⟨links, heq⟩ := c₁.publishPendingBlockRelinks_eq
      rw [heq]
      exact ⟨⟨hkept.tracked, hkept.entries⟩, .inl hquiescent⟩
    · rename_i hquiescent
      have hwrites := writesNewLinksOnly_emitBlock (by simpa using hquiescent) hemit
      exact ⟨⟨hkept.tracked, hkept.entries⟩, .inr hwrites⟩

end AddressSpace

def Alone (state : ℕ) (s : Slab AddressSpace) : Prop :=
  ∀ e ∈ s.executors, e.active = true → e.state = state

def SameBlock (c c' : AddressSpace) (d : LocationDescriptor) (p : CodePtr) : Prop :=
  c.blockEntries d = some p ∧ c'.blockEntries d = some p ∧ c'.blockInfos p = c.blockInfos p

theorem AddressSpace.Kept.sameBlock {c c' : AddressSpace} (h : AddressSpace.Kept c c')
    {d : LocationDescriptor} {p : CodePtr} (hentry : c.blockEntries d = some p) :
    SameBlock c c' d p :=
  ⟨hentry, h.entries d p hentry⟩

theorem blockEntries_of_findBlock {s : Slab AddressSpace} {location : LocationDescriptor}
    {generation : ℕ} {b : BlockDescriptor} (h : (s.findBlock location generation).1 = some b) :
    s.cache.blockEntries location = some b.entrypoint := by
  unfold Slab.findBlock at h
  split at h
  · cases h
  · split at h
    · cases h
    · rename_i hget
      obtain rfl := Option.some.inj h
      exact hget

theorem blockEntries_of_emit {s t : Slab AddressSpace} {block : Block BlockRelocation}
    {generation : ℕ} {executing : Bool} {b : BlockDescriptor}
    (h : s.emit block generation executing = some (some b, t)) :
    t.cache.blockEntries block.location = some b.entrypoint := by
  rcases Slab.emit_cases h with ⟨hnone, -⟩ | ⟨-, -, ⟨p, b', segments, clock, hget, hb, rfl, -, rfl⟩ |
    ⟨p, cache, segments, bytes, clock, hget, hemit, hb, rfl⟩⟩
  · cases hnone
  · obtain rfl := Option.some.inj hb
    exact hget
  · obtain rfl := Option.some.inj hb
    exact (congrFun (AddressSpace.emitForSlab_spec hemit).1 block.location).trans
      (Function.update_self _ _ _)

structure Within (state generation : ℕ) (s : Slab AddressSpace) : Prop where
  coherent : s.Coherent
  shared : s.sharedMode = true
  executing : s.Executing state generation

namespace Within

variable {s t : Slab AddressSpace} {state generation : ℕ}

/-- While an executor is inside, the blocks it may run are kept and their links left alone. -/
theorem step (h : Within state generation s) {action : SlabAction BlockRelocation}
    (hstays : Slab.StaysIn state s action) (hstep : s.step action = some t) :
    Within state generation t ∧ AddressSpace.Kept s.cache t.cache ∧
      (AddressSpace.WritesNewLinksOnly s.cache t.cache ∨
        (∃ block generation', action = .emit state block generation') ∧ Alone state s) := by
  obtain ⟨hcoherent, hshared, -⟩ := h.coherent.step hstep
  obtain ⟨hexecuting, hcache⟩ := h.coherent.step_executing h.executing hstays hstep
  refine ⟨⟨hcoherent, hshared.trans h.shared, hexecuting⟩, ?_⟩
  rcases hcache with hsame | ⟨caller, block, generation', rfl, ⟨hget, p, hemit⟩ | ⟨p, -, hsame⟩⟩
  · rw [hsame]
    exact ⟨.refl _, .inl fun a => .inl rfl⟩
  · obtain ⟨hkept, hquiescent | hwrites⟩ := AddressSpace.emitForSlab_kept hemit hget
    · -- Somebody is in, so the caller is, and it is the only one.
      have hne := h.coherent.activeExecutions_ne_zero h.executing
      simp only [AddressSpace.relinksAreQuiescent, h.shared, Bool.not_true, Bool.false_or,
        beq_iff_eq] at hquiescent
      obtain ⟨hcaller, hone⟩ : s.isActive caller = true ∧ s.activeExecutions = 1 := by
        split at hquiescent
        · exact ⟨‹_›, hquiescent⟩
        · exact absurd hquiescent hne
      have halone : Alone state s := fun e => h.coherent.state_eq_of_one h.executing hone
      obtain ⟨e, he, rfl, hactive⟩ := Slab.Coherent.isActive_iff.mp hcaller
      obtain rfl := halone e he hactive
      exact ⟨hkept, .inr ⟨⟨block, generation', rfl⟩, halone⟩⟩
    · exact ⟨hkept, .inl hwrites⟩
  · rw [hsame]
    exact ⟨.refl _, .inl fun a => .inl rfl⟩

theorem reaches (h : Within state generation s)
    (hreach : Reaches Slab.step (Slab.StaysIn state) s t) :
    Within state generation t ∧ AddressSpace.Kept s.cache t.cache := by
  refine hreach.invariant (I := fun t => Within state generation t ∧
    AddressSpace.Kept s.cache t.cache) ⟨h, .refl _⟩ ?_
  rintro u action v ⟨hu, hkept⟩ hstays hstep
  obtain ⟨hv, hkept', -⟩ := hu.step hstays hstep
  exact ⟨hv, hkept.trans hkept'⟩

end Within

/-- In every run the count of active executors is exact and the generation never
decreases.  From the moment an executor enters until it leaves, the generation is
the one it was given and leaving succeeds; no block goes away, so every pointer
handed out keeps its meaning; and links of existing code are written only by an
emission of the executor itself while nobody else is in. -/
theorem quiescent_of_reaches {codeCacheSize endOfPrelude : ℕ} {s : Slab AddressSpace}
    (hreach : Reaches Slab.step always (createSlab codeCacheSize endOfPrelude true) s) :
    s.activeExecutions = s.executors.countP (·.active) ∧
    (∀ t, Reaches Slab.step always s t → s.currentGeneration ≤ t.currentGeneration) ∧
    ∀ state generation entered, s.enterExecution state = some (generation, entered) →
      ∀ t, Reaches Slab.step (Slab.StaysIn state) entered t →
        t.currentGeneration = generation ∧
        (t.leaveExecution state generation).isSome ∧
        AddressSpace.Kept entered.cache t.cache ∧
        (∀ location generation' b u, (t.findBlock location generation').1 = some b →
          Reaches Slab.step (Slab.StaysIn state) t u →
            SameBlock t.cache u.cache location b.entrypoint) ∧
        (∀ caller block generation' b t' u,
          t.emit block generation' (t.isActive caller) = some (some b, t') →
          Reaches Slab.step (Slab.StaysIn state) t' u →
            SameBlock t'.cache u.cache block.location b.entrypoint) ∧
        ∀ action u, Slab.StaysIn state t action → t.step action = some u →
          AddressSpace.WritesNewLinksOnly t.cache u.cache ∨
            (∃ block generation', action = .emit state block generation') ∧ Alone state t := by
  obtain ⟨hcoherent, hshared⟩ : s.Coherent ∧ s.sharedMode = true := by
    refine hreach.invariant (I := fun s => s.Coherent ∧ s.sharedMode = true)
      ⟨Slab.Coherent.create _ _ _ _, Slab.create_sharedMode _ _ _ _⟩ ?_
    rintro u action v ⟨hu, hshared⟩ - hstep
    obtain ⟨hv, hshared', -⟩ := hu.step hstep
    exact ⟨hv, hshared'.trans hshared⟩
  refine ⟨hcoherent.count, fun t ht => ?_, fun state generation entered henter t ht => ?_⟩
  · refine (ht.invariant (I := fun t => t.Coherent ∧ s.currentGeneration ≤ t.currentGeneration)
      ⟨hcoherent, le_refl _⟩ ?_).2
    rintro u action v ⟨hu, hle⟩ - hstep
    obtain ⟨hv, -, hle'⟩ := hu.step hstep
    exact ⟨hv, hle.trans hle'⟩
  · have hentered : Within state generation entered := by
      refine ⟨hcoherent.enterExecution henter, ?_, hcoherent.executing_enterExecution henter⟩
      obtain ⟨-, _, _, _, -, -, -, rfl⟩ := hcoherent.enterExecution_eq henter
      exact hshared
    obtain ⟨hwithin, hkept⟩ := hentered.reaches ht
    refine ⟨hwithin.coherent.currentGeneration_eq hwithin.executing,
      hwithin.coherent.leaveExecution_isSome hwithin.executing, hkept, ?_, ?_, ?_⟩
    · intro location generation' b u hfind hu
      exact (hwithin.reaches hu).2.sameBlock (blockEntries_of_findBlock hfind)
    · intro caller block generation' b t' u hemit hu
      have hstep : t.step (.emit caller block generation') = some t' := by
        simp [Slab.step, hemit]
      have hstays : Slab.StaysIn state t (.emit caller block generation') := trivial
      exact ((hwithin.step hstays hstep).1.reaches hu).2.sameBlock (blockEntries_of_emit hemit)
    · intro action u hstays hstep
      exact (hwithin.step hstays hstep).2.2

/-! Two executors are in; a clear is requested and one of them leaves. -/

def twoExecutors : List (SlabAction BlockRelocation) :=
  [.registerExecutor 0, .registerExecutor 1, .enterExecution 1]

theorem twoExecutors_isSome :
    (run Slab.step (createSlab (1024 * 1024) 5000 true) twoExecutors).isSome := by
  decide

theorem quiescent_twoExecutors : ∃ s entered t,
    run Slab.step (createSlab (1024 * 1024) 5000 true) twoExecutors = some s ∧
    s.enterExecution 0 = some (1, entered) ∧
    run Slab.step entered [.clearCache, .leaveExecution 1 1] = some t ∧
    (t.leaveExecution 0 1).isSome := by
  have hreach := reaches_of_run (Option.some_get twoExecutors_isSome).symm
    (follows_always (createSlab (1024 * 1024) 5000 true) twoExecutors)
  refine ⟨_, _, _, (Option.some_get twoExecutors_isSome).symm, rfl, rfl, ?_⟩
  refine ((quiescent_of_reaches hreach).2.2 0 1 _ rfl _
    (@reaches_of_run _ _ _ _ _ _ [.clearCache, .leaveExecution 1 1] rfl ?_)).2.1
  exact ⟨trivial, fun _ _ => ⟨Nat.one_ne_zero, fun _ _ => trivial⟩⟩

end Umbra.Arm64
