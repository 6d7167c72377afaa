import Umbra.Arm64.AddressSpace
import Umbra.Lib.Run

/-!
Soundness of the links between the blocks of the arm64 backend.

A block that has lost its descriptor stays tracked until its memory is taken back,
and its slots keep being written: it may still be running.  The five tables agree
on the tracked blocks throughout, whether relinks are made at once or left for
later, because a slot can only be behind by not being linked at all.
-/

namespace Umbra.Arm64

open Umbra.Lib Umbra.IR Umbra.Backend

namespace AddressSpace

/-- Every slot of a tracked block is unlinked or leads to the current block of its
target, and the block is listed among the references to the target. -/
def LinksSound (c : AddressSpace) : Prop :=
  ∀ p info, c.blockInfos p = some info → ∀ slot ∈ info.blockRelocations,
    (c.links (info.entryPoint + slot.codeOffset) = none ∨
      ∃ q, c.blockEntries slot.target = some q ∧
        c.links (info.entryPoint + slot.codeOffset) = some q) ∧
    p ∈ c.blockReferences slot.target

structure Linked (c : AddressSpace) : Prop where
  keyed : ∀ {p info}, c.blockInfos p = some info → info.entryPoint = p
  wellFormed : ∀ {p info}, c.blockInfos p = some info →
    WellFormed info.size info.blockRelocations
  apart : ∀ {p q x y}, c.blockInfos p = some x → c.blockInfos q = some y → x.Overlaps y → p = q
  nodup : (c.reverseBlockEntries.map Prod.fst).Nodup
  tracked : ∀ p, (c.blockInfos p).isSome ↔ p ∈ c.reverseBlockEntries.map Prod.fst
  leads : ∀ {p info slot}, c.blockInfos p = some info → slot ∈ info.blockRelocations →
    c.links (p + slot.codeOffset) = none ∨
      c.links (p + slot.codeOffset) = c.blockEntries slot.target
  referenced : ∀ {p info slot}, c.blockInfos p = some info → slot ∈ info.blockRelocations →
    p ∈ c.blockReferences slot.target

theorem foldl_relinkReference_of_mem {references : List CodePtr} {c : AddressSpace} {p : CodePtr}
    {info : EmittedBlockInfo} {slot : BlockRelocation} (target : Option CodePtr)
    (hmem : p ∈ references) (hinfo : c.blockInfos p = some info)
    (hslot : slot ∈ info.blockRelocations) :
    (references.foldl (relinkReference slot.target target) c).links
      (info.entryPoint + slot.codeOffset) = target := by
  induction references generalizing c with
  | nil => cases hmem
  | cons q references ih =>
      rw [List.foldl_cons]
      rcases List.mem_cons.mp hmem with rfl | hrest
      · -- What follows keeps the link or writes the same target again.
        rcases foldl_relinkReference_links references (relinkReference slot.target target c p)
          slot.target target (info.entryPoint + slot.codeOffset) with h | ⟨h, -⟩
        · rw [h]
          simp only [relinkReference, hinfo]
          exact linkBlockLinks_of_mem (List.mem_filter.mpr ⟨hslot, by simp⟩)
        · exact h
      · refine ih hrest ?_
        unfold relinkReference
        split
        · exact hinfo
        · exact hinfo

theorem mem_linkSlot_blockReferences {c : AddressSpace} {entryPoint q : CodePtr}
    {slot : BlockRelocation} {d : LocationDescriptor} :
    q ∈ (linkSlot entryPoint c slot).blockReferences d ↔
      q ∈ c.blockReferences d ∨ q = entryPoint ∧ slot.target = d := by
  change q ∈ Function.update c.blockReferences slot.target _ d ↔ _
  by_cases hd : d = slot.target
  · subst hd
    simp [or_comm]
  · simp [hd, Ne.symm hd]

theorem mem_link_blockReferences {c : AddressSpace} {info : EmittedBlockInfo} {q : CodePtr}
    {d : LocationDescriptor} :
    q ∈ (c.link info).blockReferences d ↔ q ∈ c.blockReferences d ∨
      q = info.entryPoint ∧ ∃ slot ∈ info.blockRelocations, slot.target = d := by
  unfold link
  generalize info.blockRelocations = slots
  induction slots generalizing c with
  | nil => simp
  | cons slot slots ih =>
      rw [List.foldl_cons, ih, mem_linkSlot_blockReferences, or_assoc, List.exists_mem_cons_iff,
        and_or_left]

namespace Linked

variable {c : AddressSpace}

theorem linksSound (h : c.Linked) : c.LinksSound := by
  intro p info hinfo slot hslot
  refine ⟨?_, h.referenced hinfo hslot⟩
  rw [h.keyed hinfo]
  rcases h.leads hinfo hslot with hnone | hentry
  · exact .inl hnone
  · cases hq : c.blockEntries slot.target with
    | none => exact .inl (hentry.trans hq)
    | some q => exact .inr ⟨q, rfl, hentry.trans hq⟩

theorem congr {c' : AddressSpace} (h : c.Linked) (hentries : c'.blockEntries = c.blockEntries)
    (hreverse : c'.reverseBlockEntries = c.reverseBlockEntries)
    (hinfos : c'.blockInfos = c.blockInfos) (hreferences : c'.blockReferences = c.blockReferences)
    (hlinks : c'.links = c.links) : c'.Linked := by
  constructor
  · rw [hinfos]
    exact h.keyed
  · rw [hinfos]
    exact h.wellFormed
  · rw [hinfos]
    exact h.apart
  · rw [hreverse]
    exact h.nodup
  · rw [hinfos, hreverse]
    exact h.tracked
  · rw [hinfos, hlinks, hentries]
    exact h.leads
  · rw [hinfos, hreferences]
    exact h.referenced

theorem slot_unique (h : c.Linked) {p q : CodePtr} {x y : EmittedBlockInfo}
    {s t : BlockRelocation} (hx : c.blockInfos p = some x) (hs : s ∈ x.blockRelocations)
    (hy : c.blockInfos q = some y) (ht : t ∈ y.blockRelocations)
    (ha : p + s.codeOffset = q + t.codeOffset) : p = q ∧ s = t := by
  have hsin := (h.wellFormed hx).2.1 s hs
  have htin := (h.wellFormed hy).2.1 t ht
  obtain rfl : p = q := by
    refine h.apart hx hy ?_
    rw [EmittedBlockInfo.Overlaps, h.keyed hx, h.keyed hy]
    lia
  obtain rfl : x = y := Option.some.inj (hx.symm.trans hy)
  exact ⟨rfl, List.inj_on_of_nodup_map (h.wellFormed hx).2.2 hs ht (Nat.add_left_cancel ha)⟩

/-! ### Relinking -/

theorem links_relinkForDescriptor (h : c.Linked) {p : CodePtr} {info : EmittedBlockInfo}
    {slot : BlockRelocation} (hinfo : c.blockInfos p = some info)
    (hslot : slot ∈ info.blockRelocations) (d : LocationDescriptor) (target : Option CodePtr) :
    (c.relinkForDescriptor d target).links (p + slot.codeOffset) =
      if slot.target = d then target else c.links (p + slot.codeOffset) := by
  split_ifs with hd
  · subst hd
    rw [← h.keyed hinfo]
    exact foldl_relinkReference_of_mem target (h.referenced hinfo hslot) hinfo hslot
  · rcases c.relinkForDescriptor_links d target (p + slot.codeOffset) with
      hkept | ⟨-, other, ⟨q, info', hinfo', hother, ha⟩, htarget⟩
    · exact hkept
    · rw [h.keyed hinfo'] at ha
      obtain ⟨-, rfl⟩ := h.slot_unique hinfo hslot hinfo' hother ha
      exact absurd htarget hd

theorem relinkForDescriptor (h : c.Linked) {d : LocationDescriptor} {target : Option CodePtr}
    (htarget : target = none ∨ target = c.blockEntries d) :
    (c.relinkForDescriptor d target).Linked := by
  have hlinks := @h.links_relinkForDescriptor
  obtain ⟨links, heq⟩ := c.relinkForDescriptor_eq d target
  constructor
  case leads =>
    intro p info slot hinfo hslot
    rw [heq] at hinfo
    have hlink := hlinks hinfo hslot d target
    rw [heq] at hlink ⊢
    simp only at hlink ⊢
    rw [hlink]
    split_ifs with hd
    · rwa [hd]
    · exact h.leads hinfo hslot
  all_goals rw [heq]
  · exact h.keyed
  · exact h.wellFormed
  · exact h.apart
  · exact h.nodup
  · exact h.tracked
  · exact h.referenced

theorem unlink (h : c.Linked) (d : LocationDescriptor) :
    ((c.relinkForDescriptor d none).eraseEntry d).Linked := by
  have hlinks := @h.links_relinkForDescriptor
  have hrelinked : (c.relinkForDescriptor d none).Linked := h.relinkForDescriptor (.inl rfl)
  obtain ⟨links, heq⟩ := c.relinkForDescriptor_eq d none
  refine ⟨hrelinked.keyed, hrelinked.wellFormed, hrelinked.apart, hrelinked.nodup,
    hrelinked.tracked, ?_, hrelinked.referenced⟩
  intro p info slot hinfo hslot
  change (c.relinkForDescriptor d none).links _ = none ∨
    (c.relinkForDescriptor d none).links _ =
      Function.update (c.relinkForDescriptor d none).blockEntries d none slot.target
  have hinfo' : c.blockInfos p = some info := by
    have := hinfo
    simp only [eraseEntry] at this
    rwa [heq] at this
  by_cases hd : slot.target = d
  · exact .inl ((hlinks hinfo' hslot d none).trans (if_pos hd))
  · rw [Function.update_of_ne hd]
    exact hrelinked.leads hinfo hslot

theorem invalidateBasicBlocks (h : c.Linked) (ds : List LocationDescriptor) :
    (c.invalidateBasicBlocks ds).Linked := by
  unfold AddressSpace.invalidateBasicBlocks
  induction ds generalizing c with
  | nil => exact h
  | cons d ds ih =>
      refine ih ?_
      unfold invalidateBasicBlock
      split
      · exact h
      · exact h.unlink d

theorem foldl_relinkForDescriptor (h : c.Linked) (pending : List LocationDescriptor) :
    (pending.foldl (fun c d => match c.blockEntries d with
      | none => c
      | some target => c.relinkForDescriptor d (some target)) c).Linked := by
  induction pending generalizing c with
  | nil => exact h
  | cons d pending ih =>
      refine ih ?_
      simp only
      split
      · exact h
      · rename_i target htarget
        exact h.relinkForDescriptor (.inr htarget.symm)

theorem publishPendingBlockRelinks (h : c.Linked) : c.publishPendingBlockRelinks.Linked :=
  (h.foldl_relinkForDescriptor c.pendingBlockRelinks).congr rfl rfl rfl rfl rfl

/-! ### Emission -/

/-- No tracked block reaches into the bytes behind the code pointer. -/
def Room (c : AddressSpace) (size : ℕ) : Prop :=
  ∀ p info, c.blockInfos p = some info → p + info.size ≤ c.codePtr ∨ c.codePtr + size ≤ p

theorem blockInfos_codePtr (h : c.Linked) {size : ℕ} (hroom : Room c size) (hsize : 0 < size) :
    c.blockInfos c.codePtr = none := by
  cases hinfo : c.blockInfos c.codePtr with
  | none => rfl
  | some info =>
      have hpos := (h.wellFormed hinfo).1
      have := hroom c.codePtr info hinfo
      lia

/-- A new block in free memory keeps the tables linked: its slots and those waiting for it agree. -/
theorem enterBlock (h : c.Linked) {location : LocationDescriptor} {size : ℕ}
    {slots : List BlockRelocation} (hentry : c.blockEntries location = none)
    (hwf : WellFormed size slots) (hroom : Room c size) :
    ((c.enterBlock location ⟨c.codePtr, size, slots⟩).link ⟨c.codePtr, size, slots⟩).Linked := by
  have hfree := h.blockInfos_codePtr hroom hwf.1
  obtain ⟨info, hinfo⟩ : ∃ info : EmittedBlockInfo, info = ⟨c.codePtr, size, slots⟩ := ⟨_, rfl⟩
  have hlinks := (c.enterBlock location info).link_links info
  have hreferences := @mem_link_blockReferences (c.enterBlock location info) info
  obtain ⟨links, references, heq⟩ := (c.enterBlock location info).link_eq info
  rw [← hinfo]
  rw [heq] at hlinks hreferences ⊢
  -- A tracked block is the new one or another.
  have hcases : ∀ {p x}, (c.enterBlock location info).blockInfos p = some x →
      p = c.codePtr ∧ x = info ∨ p ≠ c.codePtr ∧ c.blockInfos p = some x := by
    intro p x hx
    change Function.update c.blockInfos info.entryPoint (some info) p = some x at hx
    rw [hinfo] at hx ⊢
    by_cases hp : p = c.codePtr
    · subst hp
      rw [Function.update_self] at hx
      exact .inl ⟨rfl, (Option.some.inj hx).symm⟩
    · rw [Function.update_of_ne hp] at hx
      exact .inr ⟨hp, hx⟩
  have hdisjoint : ∀ {p x}, c.blockInfos p = some x → ¬x.Overlaps info := by
    intro p x hx hover
    have := hroom p x hx
    rw [EmittedBlockInfo.Overlaps, h.keyed hx, hinfo] at hover
    lia
  constructor
  · intro p x hx
    rcases hcases hx with ⟨rfl, rfl⟩ | ⟨-, hx⟩
    · rw [hinfo]
    · exact h.keyed hx
  · intro p x hx
    rcases hcases hx with ⟨-, rfl⟩ | ⟨-, hx⟩
    · rw [hinfo]
      exact hwf
    · exact h.wellFormed hx
  · intro p q x y hx hy hover
    rcases hcases hx with ⟨rfl, rfl⟩ | ⟨-, hx'⟩
    · rcases hcases hy with ⟨rfl, rfl⟩ | ⟨-, hy'⟩
      · rfl
      · exact absurd ⟨hover.2, hover.1⟩ (hdisjoint hy')
    · rcases hcases hy with ⟨rfl, rfl⟩ | ⟨-, hy'⟩
      · exact absurd hover (hdisjoint hx')
      · exact h.apart hx' hy' hover
  · have hperm := (List.perm_orderedInsert (fun x y => x.1 ≤ y.1) (info.entryPoint, location)
      c.reverseBlockEntries).map Prod.fst
    refine hperm.nodup_iff.mpr (List.nodup_cons.mpr ⟨?_, h.nodup⟩)
    rw [hinfo, ← h.tracked, hfree]
    exact Bool.false_ne_true
  · intro p
    have hperm := (List.perm_orderedInsert (fun x y => x.1 ≤ y.1) (info.entryPoint, location)
      c.reverseBlockEntries).map Prod.fst
    refine Iff.trans ?_ hperm.mem_iff.symm
    rw [List.map_cons, List.mem_cons, ← h.tracked]
    change (Function.update c.blockInfos info.entryPoint (some info) p).isSome ↔ _
    by_cases hp : p = info.entryPoint
    · simp [hp]
    · simp [hp]
  · intro p x slot hx hslot
    change links (p + slot.codeOffset) = none ∨ links (p + slot.codeOffset) =
      Function.update c.blockEntries location (some info.entryPoint) slot.target
    rcases hcases hx with ⟨rfl, rfl⟩ | ⟨-, hx'⟩
    · -- The slots of the new block have just been written.
      refine .inr ?_
      rcases hlinks (c.codePtr + slot.codeOffset) with ⟨hnot, -⟩ | ⟨slot', hslot', ha, hlink⟩
      · exact absurd (by rw [hinfo]) (hnot slot hslot)
      · rw [hinfo] at ha hslot hslot'
        obtain rfl :=
          List.inj_on_of_nodup_map hwf.2.2 hslot' hslot (Nat.add_left_cancel ha.symm)
        exact hlink
    · -- Those of the others have not, and were unlinked if they wait for the new block.
      have hkept : links (p + slot.codeOffset) = c.links (p + slot.codeOffset) := by
        rcases hlinks (p + slot.codeOffset) with ⟨-, hkept⟩ | ⟨slot', hslot', ha, -⟩
        · exact hkept
        · rw [hinfo] at ha hslot'
          have hin := (h.wellFormed hx').2.1 slot hslot
          have hin' := hwf.2.1 slot' hslot'
          have := hroom p x hx'
          lia
      rw [hkept]
      by_cases hd : slot.target = location
      · exact .inl (by simpa [hd, hentry] using h.leads hx' hslot)
      · rw [Function.update_of_ne hd]
        exact h.leads hx' hslot
  · intro p x slot hx hslot
    refine hreferences.mpr ?_
    rcases hcases hx with ⟨rfl, rfl⟩ | ⟨-, hx'⟩
    · exact .inr ⟨by rw [hinfo], slot, hslot, rfl⟩
    · exact .inl (h.referenced hx' hslot)

theorem emitBlock (h : c.Linked) {block : Block BlockRelocation}
    (hentry : c.blockEntries block.location = none) (hwf : WellFormed block.size block.slots)
    (hroom : Room c block.size) :
    ∃ info c', c.emitBlock block = some (info, c') ∧ c'.Linked := by
  have hfree := h.blockInfos_codePtr hroom hwf.1
  have hunlisted : c.reverseBlockEntries.any (·.1 == c.codePtr) = false := by
    rw [Bool.eq_false_iff, ne_eq, List.any_eq_true]
    rintro ⟨entry, hmem, heq⟩
    have htracked := (h.tracked c.codePtr).mpr
      (List.mem_map.mpr ⟨entry, hmem, beq_iff_eq.mp heq⟩)
    rw [hfree] at htracked
    exact Bool.false_ne_true htracked
  have hlinked := h.enterBlock hentry hwf hroom
  unfold AddressSpace.emitBlock
  rw [hentry, hunlisted, hfree]
  refine ⟨_, _, rfl, ?_⟩
  unfold registerNewBasicBlock
  split
  · exact hlinked.congr rfl rfl rfl rfl rfl
  · refine (hlinked.relinkForDescriptor (.inr ?_)).congr rfl rfl rfl rfl rfl
    obtain ⟨links, references, heq⟩ := (c.enterBlock block.location
      ⟨c.codePtr, block.size, block.slots⟩).link_eq ⟨c.codePtr, block.size, block.slots⟩
    rw [heq]
    exact (Function.update_self block.location (some c.codePtr) c.blockEntries).symm

/-! ### Taking memory back -/

theorem mem_foldl_erase {references : LocationDescriptor → List CodePtr} {p q : CodePtr}
    {d : LocationDescriptor} (slots : List BlockRelocation) (hne : q ≠ p)
    (hmem : q ∈ references d) :
    q ∈ slots.foldl (fun references slot => Function.update references slot.target
      ((references slot.target).erase p)) references d := by
  induction slots generalizing references with
  | nil => exact hmem
  | cons slot slots ih =>
      refine ih ?_
      simp only
      by_cases hd : d = slot.target
      · subst hd
        rw [Function.update_self]
        exact (List.mem_erase_of_ne hne).mpr hmem
      · rwa [Function.update_of_ne hd]

/-- A block that is no longer the current one can be dropped with its slots. -/
theorem forgetBlock (h : c.Linked) {p : CodePtr} {d : LocationDescriptor}
    (hlisted : (p, d) ∈ c.reverseBlockEntries) (hd : c.blockEntries d ≠ some p) :
    (c.forgetBlock p d hd).Linked := by
  have hkept : ∀ {q x}, (c.forgetBlock p d hd).blockInfos q = some x →
      q ≠ p ∧ c.blockInfos q = some x := by
    intro q x hx
    change Function.update c.blockInfos p none q = some x at hx
    by_cases hq : q = p
    · rw [hq, Function.update_self] at hx
      cases hx
    · rw [Function.update_of_ne hq] at hx
      exact ⟨hq, hx⟩
  refine ⟨fun hx => h.keyed (hkept hx).2, fun hx => h.wellFormed (hkept hx).2,
    fun hx hy => h.apart (hkept hx).2 (hkept hy).2,
    h.nodup.sublist (List.filter_sublist.map Prod.fst), fun q => ?_,
    fun hx hslot => h.leads (hkept hx).2 hslot,
    fun hx hslot => mem_foldl_erase _ (hkept hx).1 (h.referenced (hkept hx).2 hslot)⟩
  -- The address is listed once, so taking the entry out takes it off the list.
  change (Function.update c.blockInfos p none q).isSome ↔
    q ∈ (c.reverseBlockEntries.filter (· ≠ (p, d))).map Prod.fst
  by_cases hq : q = p
  · subst hq
    rw [Function.update_self]
    refine iff_of_false Bool.false_ne_true fun hmem => ?_
    obtain ⟨⟨q', e⟩, hentry, rfl⟩ := List.mem_map.mp hmem
    obtain ⟨hentry, hne⟩ := List.mem_filter.mp hentry
    have hsame := List.inj_on_of_nodup_map h.nodup hentry hlisted rfl
    simp [hsame] at hne
  · rw [Function.update_of_ne hq, h.tracked]
    constructor
    · rintro hmem
      obtain ⟨⟨q', e⟩, hentry, rfl⟩ := List.mem_map.mp hmem
      refine List.mem_map.mpr ⟨(q', e), List.mem_filter.mpr ⟨hentry, ?_⟩, rfl⟩
      simp only [ne_eq, Prod.mk.injEq, not_and, decide_eq_true_eq]
      exact fun heq => absurd heq hq
    · intro hmem
      exact (List.filter_sublist.map Prod.fst).subset hmem

theorem retiringStep {r : Retiring} (h : r.space.Linked) {p : CodePtr} {d : LocationDescriptor}
    (hlisted : (p, d) ∈ r.space.reverseBlockEntries) :
    (r.step (p, d)).space.Linked ∧
      (r.step (p, d)).space.blockInfos = Function.update r.space.blockInfos p none ∧
      (r.step (p, d)).space.reverseBlockEntries =
        r.space.reverseBlockEntries.filter (· ≠ (p, d)) ∧
      (r.step (p, d)).space.codePtr = r.space.codePtr := by
  have hdropped : (r.dropEntry p d).space.Linked ∧
      (r.dropEntry p d).space.blockInfos = r.space.blockInfos ∧
      (r.dropEntry p d).space.reverseBlockEntries = r.space.reverseBlockEntries ∧
      (r.dropEntry p d).space.codePtr = r.space.codePtr := by
    unfold Retiring.dropEntry
    split
    · obtain ⟨links, heq⟩ := r.space.relinkForDescriptor_eq d none
      exact ⟨h.unlink d, by simp only [eraseEntry, heq], by simp only [eraseEntry, heq],
        by simp only [eraseEntry, heq]⟩
    · exact ⟨h, rfl, rfl, rfl⟩
  obtain ⟨hlinked, hinfos, hreverse, hptr⟩ := hdropped
  refine ⟨hlinked.forgetBlock (hreverse ▸ hlisted) (r.dropEntry_ne p d), ?_, ?_, hptr⟩
  · change Function.update (r.dropEntry p d).space.blockInfos p none = _
    rw [hinfos]
  · change (r.dropEntry p d).space.reverseBlockEntries.filter (· ≠ (p, d)) = _
    rw [hreverse]

theorem retiringFoldl {entries : List (CodePtr × LocationDescriptor)} {r : Retiring}
    (h : r.space.Linked) (hnodup : entries.Nodup)
    (hlisted : ∀ e ∈ entries, e ∈ r.space.reverseBlockEntries) :
    (entries.foldl Retiring.step r).space.Linked ∧
      (∀ q, (entries.foldl Retiring.step r).space.blockInfos q =
        if q ∈ entries.map Prod.fst then none else r.space.blockInfos q) ∧
      (entries.foldl Retiring.step r).space.codePtr = r.space.codePtr := by
  induction entries generalizing r with
  | nil => exact ⟨h, fun q => rfl, rfl⟩
  | cons entry entries ih =>
      obtain ⟨p, d⟩ := entry
      obtain ⟨hlinked, hinfos, hreverse, hptr⟩ := h.retiringStep (hlisted (p, d) (by simp))
      obtain ⟨hnotin, hnodup⟩ := List.nodup_cons.mp hnodup
      obtain ⟨hlinked', hinfos', hptr'⟩ := ih hlinked hnodup (by
        intro e he
        rw [hreverse]
        refine List.mem_filter.mpr ⟨hlisted e (List.mem_cons_of_mem _ he), ?_⟩
        simp only [decide_eq_true_eq]
        rintro rfl
        exact hnotin he)
      refine ⟨hlinked', fun q => ?_, hptr'.trans hptr⟩
      rw [List.foldl_cons, hinfos', hinfos]
      by_cases hq : q = p
      · simp [hq]
      · simp only [Function.update_of_ne hq, List.map_cons, List.mem_cons, hq, false_or]

/-- By induction on the blocks found, retiring a range keeps the tables linked. -/
theorem retireCodeRange (h : c.Linked) {first last : CodePtr} (hfirst : first ≠ 0) :
    (c.retireCodeRange first last).space.Linked ∧
      (∀ q, (c.retireCodeRange first last).space.blockInfos q =
        if first ≤ q ∧ q < last then none else c.blockInfos q) ∧
      (c.retireCodeRange first last).space.codePtr = c.codePtr := by
  unfold AddressSpace.retireCodeRange
  split
  · rename_i hempty
    refine ⟨h, fun q => (if_neg ?_).symm, rfl⟩
    rintro ⟨hlo, hhi⟩
    rcases hempty with hempty | hempty | hempty
    · exact hfirst hempty
    · exact absurd hhi (hempty ▸ Nat.not_lt_zero q)
    · exact absurd (hlo.trans_lt hhi) (not_lt.mpr hempty)
  · obtain ⟨hlinked, hinfos, hptr⟩ := @retiringFoldl
      (c.reverseBlockEntries.filter fun e => first ≤ e.1 && e.1 < last) ⟨c, [], ⟨0, 0⟩⟩ h
      (h.nodup.of_map.filter _) (fun e he => (List.mem_filter.mp he).1)
    refine ⟨hlinked.congr rfl rfl rfl rfl rfl, fun q => (hinfos q).trans ?_, hptr⟩
    by_cases hq : first ≤ q ∧ q < last
    · -- Nothing unlisted is tracked.
      rw [if_pos hq]
      refine ite_eq_left_iff.mpr fun hnotin => ?_
      rw [← Option.not_isSome_iff_eq_none, h.tracked]
      intro hmem
      obtain ⟨⟨q', d⟩, hentry, rfl⟩ := List.mem_map.mp hmem
      exact hnotin (List.mem_map.mpr ⟨(q', d), List.mem_filter.mpr ⟨hentry, by simpa using hq⟩,
        rfl⟩)
    · rw [if_neg hq]
      refine if_neg fun hmem => hq ?_
      obtain ⟨⟨q', d⟩, hentry, rfl⟩ := List.mem_map.mp hmem
      simpa using (List.mem_filter.mp hentry).2

theorem empty (codeCacheSize endOfPrelude : ℕ) :
    (AddressSpace.empty codeCacheSize endOfPrelude).Linked := by
  refine ⟨?_, ?_, ?_, List.nodup_nil, fun _ => ?_, ?_, ?_⟩ <;> simp [AddressSpace.empty]

theorem clearCache (c : AddressSpace) : c.clearCache.Linked := by
  refine ⟨?_, ?_, ?_, List.nodup_nil, fun _ => ?_, ?_, ?_⟩ <;> simp [AddressSpace.clearCache]

end Linked

/-- Tracked blocks lie in segments, in the one being filled before the code pointer. -/
structure Placed (segments : List Range) (segment : Range) (c : AddressSpace) : Prop where
  linked : c.Linked
  segment_mem : segment ∈ segments
  le_codePtr : segment.1 ≤ c.codePtr
  within : ∀ p info, c.blockInfos p = some info → ∃ r ∈ segments,
    r.1 ≤ p ∧ p + info.size ≤ r.2 ∧ (r = segment → p + info.size ≤ c.codePtr)

/-- The segments share no address, and none begins at the null pointer. -/
structure Separate (segments : List Range) : Prop where
  nonnull : ∀ r ∈ segments, r.1 ≠ 0
  apart : ∀ r ∈ segments, ∀ s ∈ segments, r ≠ s → r.2 ≤ s.1 ∨ s.2 ≤ r.1

namespace Placed

variable {segments : List Range} {segment : Range} {c : AddressSpace}

theorem room (h : Placed segments segment c) (hsegments : Separate segments) {size : ℕ}
    (hfits : c.codePtr + size ≤ segment.2) : Linked.Room c size := by
  intro p info hinfo
  obtain ⟨r, hr, hlo, hhi, hptr⟩ := h.within p info hinfo
  by_cases hsame : r = segment
  · exact .inl (hptr hsame)
  · have hle := h.le_codePtr
    rcases hsegments.apart r hr segment h.segment_mem hsame with hapart | hapart
    · exact .inl (by lia)
    · exact .inr (by lia)

theorem emitBlock (h : Placed segments segment c) (hsegments : Separate segments)
    {block : Block BlockRelocation} (hentry : c.blockEntries block.location = none)
    (hwf : WellFormed block.size block.slots) (hfits : c.codePtr + block.size ≤ segment.2) :
    ∃ info c', c.emitBlock block = some (info, c') ∧ Placed segments segment c' := by
  obtain ⟨info, c', hemit, hlinked⟩ := h.linked.emitBlock hentry hwf (h.room hsegments hfits)
  obtain ⟨hinfo, hptr, hinfos, -⟩ := emitBlock_code hemit
  have hend : c.codePtr ≤ c'.codePtr := hptr ▸ Nat.le_add_right _ _
  refine ⟨info, c', hemit, hlinked, h.segment_mem, h.le_codePtr.trans hend, fun p x hx => ?_⟩
  rw [hinfos] at hx
  by_cases hp : p = c.codePtr
  · -- The new block ends where the code pointer now stands.
    rw [hp, Function.update_self] at hx
    obtain rfl := (Option.some.inj hx).symm.trans hinfo
    exact ⟨segment, h.segment_mem, hp ▸ h.le_codePtr, hp ▸ hfits, fun _ => by rw [hptr, hp]⟩
  · rw [Function.update_of_ne hp] at hx
    obtain ⟨r, hr, hlo, hhi, hle⟩ := h.within p x hx
    exact ⟨r, hr, hlo, hhi, fun hsame => (hle hsame).trans hend⟩

theorem of_blockInfos (h : Placed segments segment c) {c' : AddressSpace} (hlinked : c'.Linked)
    (hinfos : c'.blockInfos = c.blockInfos) (hptr : c'.codePtr = c.codePtr) :
    Placed segments segment c' := by
  refine ⟨hlinked, h.segment_mem, hptr ▸ h.le_codePtr, ?_⟩
  rw [hinfos, hptr]
  exact h.within

theorem invalidateBasicBlocks (h : Placed segments segment c) (ds : List LocationDescriptor) :
    Placed segments segment (c.invalidateBasicBlocks ds) := by
  obtain ⟨hinfos, hptr, -⟩ := c.invalidateBasicBlocks_code ds
  exact h.of_blockInfos (h.linked.invalidateBasicBlocks ds) hinfos hptr

theorem publishPendingBlockRelinks (h : Placed segments segment c) :
    Placed segments segment c.publishPendingBlockRelinks := by
  obtain ⟨links, heq⟩ := c.publishPendingBlockRelinks_eq
  exact h.of_blockInfos h.linked.publishPendingBlockRelinks (by rw [heq]) (by rw [heq])

theorem emitForSlab (h : Placed segments segment c) (hsegments : Separate segments)
    {block : Block BlockRelocation} {mode : EmitMode} {p : CodePtr} {c' : AddressSpace}
    (hentry : c.blockEntries block.location = none) (hwf : WellFormed block.size block.slots)
    (hfits : c.codePtr + block.size ≤ segment.2)
    (hemit : c.emitForSlab block mode = some (p, c')) : Placed segments segment c' := by
  unfold AddressSpace.emitForSlab at hemit
  simp only at hemit
  have hdeferred : Placed segments segment
      { c with deferBlockRelinks := !relinksAreQuiescent mode } :=
    h.of_blockInfos (h.linked.congr rfl rfl rfl rfl rfl) rfl rfl
  obtain ⟨info, c₁, hblock, hplaced⟩ := hdeferred.emitBlock hsegments hentry hwf hfits
  rw [hblock] at hemit
  obtain ⟨-, rfl⟩ := Prod.mk.inj (Option.some.inj hemit)
  split
  · exact hplaced.publishPendingBlockRelinks
  · exact hplaced

theorem recycle (h : Placed segments segment c) (hsegments : Separate segments) {next : Range}
    (hnext : next ∈ segments) :
    Placed segments next { (c.retireCodeRange next.1 next.2).space with codePtr := next.1 } := by
  obtain ⟨hlinked, hinfos, -⟩ :=
    @Linked.retireCodeRange _ h.linked _ next.2 (hsegments.nonnull next hnext)
  refine ⟨hlinked.congr rfl rfl rfl rfl rfl, hnext, le_refl _, fun p info hinfo => ?_⟩
  change (c.retireCodeRange next.1 next.2).space.blockInfos p = some info at hinfo
  rw [hinfos] at hinfo
  split_ifs at hinfo with hin
  obtain ⟨r, hr, hlo, hhi, -⟩ := h.within p info hinfo
  have hpos := (h.linked.wellFormed hinfo).1
  refine ⟨r, hr, hlo, hhi, fun hsame => ?_⟩
  subst hsame
  exact absurd ⟨hlo, (Nat.lt_add_of_pos_right hpos).trans_le hhi⟩ hin

theorem of_no_blocks (hlinked : c.Linked) (hsegment : segment ∈ segments)
    (hptr : c.codePtr = segment.1) (hnone : ∀ p, c.blockInfos p = none) :
    Placed segments segment c where
  linked := hlinked
  segment_mem := hsegment
  le_codePtr := hptr.ge
  within p info hinfo := by
    rw [hnone] at hinfo
    cases hinfo

end Placed

end AddressSpace

/-! ### Runs -/

structure CodeMemory (L : Layout) where
  space : AddressSpace
  segment : Range

inductive MemoryAction
  | emitBlock (block : Block BlockRelocation) (deferBlockRelinks : Bool)
  | invalidateBasicBlocks (descriptors : List LocationDescriptor)
  /-- `RetireCodeRange` of a segment, which is then filled again. -/
  | recycle (segment : Range)
  | publishPendingBlockRelinks
  | clearCache

namespace CodeMemory

variable {L : Layout}

def create (L : Layout) (codeCacheSize endOfPrelude : ℕ) : CodeMemory L where
  space := { AddressSpace.empty codeCacheSize endOfPrelude with codePtr := L.front.1 }
  segment := L.front

def Fits (m : CodeMemory L) (block : Block BlockRelocation) : Prop :=
  m.space.blockEntries block.location = none ∧ WellFormed block.size block.slots ∧
    m.space.codePtr + block.size ≤ m.segment.2

instance (m : CodeMemory L) (block : Block BlockRelocation) : Decidable (m.Fits block) :=
  inferInstanceAs (Decidable (_ ∧ _ ∧ _))

def emitBlock (m : CodeMemory L) (block : Block BlockRelocation) (deferBlockRelinks : Bool) :
    Option (CodeMemory L) :=
  (({ m.space with deferBlockRelinks } : AddressSpace).emitBlock block).map fun (_, space) =>
    { m with space }

def step (m : CodeMemory L) : MemoryAction → Option (CodeMemory L)
  | .emitBlock block deferBlockRelinks =>
      if m.Fits block then m.emitBlock block deferBlockRelinks else none
  | .invalidateBasicBlocks descriptors =>
      some { m with space := m.space.invalidateBasicBlocks descriptors }
  | .recycle segment =>
      if segment ∈ L.segments then
        some {
          space := { (m.space.retireCodeRange segment.1 segment.2).space with
            codePtr := segment.1 }
          segment := segment }
      else none
  | .publishPendingBlockRelinks =>
      some { m with space := m.space.publishPendingBlockRelinks }
  | .clearCache =>
      -- The first segment begins at the end of the prelude, or the slab moves there.
      some { space := { m.space.clearCache with codePtr := L.front.1 }, segment := L.front }

def Sound (m : CodeMemory L) : Prop := AddressSpace.Placed L.segments m.segment m.space

namespace Sound

variable {m : CodeMemory L}

theorem separate (L : Layout) : AddressSpace.Separate L.segments :=
  ⟨L.nonnull, fun _ hr _ hs => L.apart_of_ne hr hs⟩

theorem emitBlock (h : m.Sound) {block : Block BlockRelocation} (hfits : m.Fits block)
    (deferBlockRelinks : Bool) :
    ∃ m', m.emitBlock block deferBlockRelinks = some m' ∧ m'.Sound := by
  obtain ⟨hentry, hwf, hroom⟩ := hfits
  have hplaced : AddressSpace.Placed L.segments m.segment { m.space with deferBlockRelinks } :=
    h.of_blockInfos (h.linked.congr rfl rfl rfl rfl rfl) rfl rfl
  obtain ⟨info, space, hemit, hplaced'⟩ := hplaced.emitBlock (separate L) hentry hwf hroom
  exact ⟨{ m with space }, by rw [CodeMemory.emitBlock, hemit]; rfl, hplaced'⟩

theorem create (L : Layout) (codeCacheSize endOfPrelude : ℕ) :
    (CodeMemory.create L codeCacheSize endOfPrelude).Sound :=
  .of_no_blocks ((AddressSpace.Linked.empty codeCacheSize endOfPrelude).congr rfl rfl rfl rfl rfl)
    List.mem_cons_self rfl fun _ => rfl

theorem step {m' : CodeMemory L} {action : MemoryAction} (h : m.Sound)
    (hstep : m.step action = some m') : m'.Sound := by
  cases action with
  | emitBlock block deferBlockRelinks =>
      simp only [CodeMemory.step, Option.ite_none_right_eq_some] at hstep
      obtain ⟨m'', hemit, hsound⟩ := h.emitBlock hstep.1 deferBlockRelinks
      exact Option.some.inj (hemit.symm.trans hstep.2) ▸ hsound
  | invalidateBasicBlocks descriptors =>
      exact Option.some.inj hstep ▸ AddressSpace.Placed.invalidateBasicBlocks h descriptors
  | recycle segment =>
      simp only [CodeMemory.step, Option.ite_none_right_eq_some] at hstep
      exact Option.some.inj hstep.2 ▸ AddressSpace.Placed.recycle h (separate L) hstep.1
  | publishPendingBlockRelinks =>
      exact Option.some.inj hstep ▸ AddressSpace.Placed.publishPendingBlockRelinks h
  | clearCache =>
      obtain rfl := Option.some.inj hstep
      exact .of_no_blocks ((AddressSpace.Linked.clearCache m.space).congr rfl rfl rfl rfl rfl)
        List.mem_cons_self rfl fun _ => rfl

end Sound

/-- In every run the links are sound, and a block that fits can be emitted: the
insertions of `EmitBlock` find their keys free. -/
theorem linksSound_of_reaches {L : Layout} {codeCacheSize endOfPrelude : ℕ} {m : CodeMemory L}
    (h : Reaches step always (create L codeCacheSize endOfPrelude) m) :
    m.space.LinksSound ∧ ∀ block deferBlockRelinks, m.Fits block →
      (m.emitBlock block deferBlockRelinks).isSome := by
  have hsound : m.Sound := h.invariant (Sound.create L codeCacheSize endOfPrelude)
    fun _ _ _ hsound _ hstep => hsound.step hstep
  refine ⟨hsound.linked.linksSound, fun block deferBlockRelinks hfits => ?_⟩
  obtain ⟨m', hemit, -⟩ := hsound.emitBlock hfits deferBlockRelinks
  exact hemit ▸ rfl

/-! Two blocks that jump to each other, one also to itself.  The second is emitted
while others run; its descriptor is then invalidated and emitted again, and the
other segment is filled next. -/

def twoSegments : Layout where
  front := (4096, 8192)
  rest := [(8192, 12288)]
  nonnull := by decide
  proper := by decide
  apart := by decide

def linkingRun : List MemoryAction :=
  [.emitBlock ⟨1, none, 32, [⟨2, 8, .branch⟩, ⟨1, 16, .moveToScratch1⟩]⟩ false,
    .emitBlock ⟨2, none, 16, [⟨1, 4, .branch⟩]⟩ true, .publishPendingBlockRelinks,
    .invalidateBasicBlocks [2], .emitBlock ⟨2, none, 16, []⟩ true, .publishPendingBlockRelinks,
    .recycle (8192, 12288)]

theorem linkingRun_isSome : (run step (create twoSegments 12288 4096) linkingRun).isSome := by
  decide

theorem linksSound_linkingRun :
    ((run step (create twoSegments 12288 4096) linkingRun).get linkingRun_isSome).space.LinksSound :=
  (linksSound_of_reaches
    (reaches_of_run (Option.some_get linkingRun_isSome).symm (follows_always _ _))).1

end CodeMemory

end Umbra.Arm64
