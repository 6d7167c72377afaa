import Umbra.IR.Semantics
import Umbra.IR.UseRuns

/-!
Dead code elimination.

The pass goes backwards through the block and invalidates what has no uses and no side effects.
Because every use comes behind its definition, one sweep finds everything that no instruction with
side effects depends on.
-/

namespace Umbra.IR

open Umbra.Lib

namespace IRBlock

def sweep (b : IRBlock) (a : ℕ) : Except Stop IRBlock :=
  if (b.inst a).hasUses = false ∧ (b.inst a).op.mayHaveSideEffects = false then b.invalidate a
  else .ok b

def deadCodeElimination (b : IRBlock) : Except Stop IRBlock :=
  b.instructions.reverse.foldlM sweep b

end IRBlock

def UsedBy (b : IRBlock) (a x : ℕ) : Prop := ∃ i, (b.inst x).args i = .inst a

/-- An instruction with side effects can be reached from `a` along uses. -/
def Needed (b : IRBlock) (a : ℕ) : Prop :=
  ∃ x, Relation.ReflTransGen (UsedBy b) a x ∧ (b.inst x).op.mayHaveSideEffects = true

structure SsaOrder (b : IRBlock) : Prop where
  nodup : b.instructions.Nodup
  lt : ∀ a ∈ b.instructions, a < b.allocated
  listed : ∀ a, (b.inst a).op ≠ .void → a ∈ b.instructions
  earlier : ∀ l₁ a l₂, b.instructions = l₁ ++ a :: l₂ →
    ∀ i g, (b.inst a).args i = .inst g → g ∈ l₁

/-- The sweep leaves the instruction: a side effect depends on it, or it resolves to an immediate
and has uses counted. -/
def Stays (b : IRBlock) (x : ℕ) : Prop :=
  Needed b x ∨ b.isImmediate (.inst x) = true ∧ (b.inst x).useCount ≠ 0

/-- Whatever has no uses is not referred to by an instruction that stays, immediates included. -/
def Covered (b : IRBlock) : Prop :=
  ∀ g, (b.inst g).useCount = 0 → ∀ x i, (b.inst x).args i = .inst g → ¬Stays b x

theorem needed_iff {b : IRBlock} {a : ℕ} :
    Needed b a ↔ (b.inst a).op.mayHaveSideEffects = true ∨ ∃ x, UsedBy b a x ∧ Needed b x := by
  constructor
  · rintro ⟨x, hreach, hx⟩
    rcases Relation.ReflTransGen.cases_head hreach with rfl | ⟨y, hy, hreach⟩
    · exact .inl hx
    · exact .inr ⟨y, hy, x, hreach, hx⟩
  · rintro (ha | ⟨y, hy, x, hreach, hx⟩)
    · exact ⟨a, .refl, ha⟩
    · exact ⟨x, .head hy hreach, hx⟩

section Immediates

variable {b c : IRBlock} {a x : ℕ} {v : Value}

theorem useCount_undoUseValue_of_immediate (h : b.undoUseValue a v = .ok c)
    (hx : v = .inst x → b.isImmediate v = true) :
    (c.inst x).useCount = (b.inst x).useCount := by
  unfold IRBlock.undoUseValue at h
  split_ifs at h with himm
  · rw [Except.ok.inj h]
  · cases v with
    | imm i => cases h
    | inst g =>
        have hne : x ≠ g := fun hxg => himm (hx (hxg ▸ rfl))
        simpa [hne] using useCount_undoUse h x

theorem useCount_clearArgs_from (l : List (Fin 4)) (hs : Shape b) (ha : a < b.allocated)
    (himm : Immediate b (.inst x)) (hno : ¬LeadsTo b a (.inst x))
    (h : l.foldlM (fun b index => b.clearArg a index) b = .ok c) :
    (c.inst x).useCount = (b.inst x).useCount := by
  induction l generalizing b with
  | nil => rw [Except.ok.inj h]
  | cons index l ih =>
      obtain ⟨d, hd, h⟩ := IRBlock.bind_eq_ok.mp h
      have hu := IRBlock.codeUpdate_clearArg hd
      rw [ih (hs.clear hu ha) (hu.allocated ▸ ha) (hu.agreeOff.immediate hno himm)
        (fun hlead => hno (hu.agreeOff.leadsTo hlead)) h]
      obtain ⟨b₁, hundo, rfl⟩ := IRBlock.clearArg_eq_ok hd
      rw [useCount_putArg, useCount_undoUseValue_of_immediate hundo]
      intro hx
      rw [hx]
      exact (hs.isImmediate_iff _).mpr himm

/-- An immediate keeps its count when another instruction is invalidated. -/
theorem useCount_invalidate_of_immediate (h : Accounted b) (hd : Accounted.Disposable b a)
    (hc : b.invalidate a = .ok c) (hunused : ∀ y i, (b.inst y).args i ≠ .inst a) (hxa : x ≠ a)
    (himm : Immediate b (.inst x)) : (c.inst x).useCount = (b.inst x).useCount := by
  have hno : ¬LeadsTo b a (.inst x) := not_leadsTo_of_unused hunused (by simpa using hxa)
  obtain ⟨d, hclear, hvoid⟩ := IRBlock.bind_eq_ok.mp hc
  rw [← Except.ok.inj hvoid, useCount_setOp]
  exact useCount_clearArgs_from _ h.toShape hd.lt himm hno hclear

end Immediates

/-- The sweep has gone through the end `D` of the list. -/
structure Swept (b d : IRBlock) (D : List ℕ) : Prop where
  accounted : Accounted d
  /-- What has no uses is referred to by instructions only that are still to go. -/
  covered : ∀ g, (d.inst g).useCount = 0 → ∀ x i, (d.inst x).args i = .inst g →
    x ∉ D ∧ ¬Stays b x
  counts : ∀ a, (d.inst a).op ≠ .void → b.isImmediate (.inst a) = true →
    (d.inst a).useCount = (b.inst a).useCount
  allocated : d.allocated = b.allocated
  instructions : d.instructions = b.instructions
  code : ∀ a, d.code a = b.code a ∨
    a ∈ D ∧ (d.inst a).op = .void ∧ (b.inst a).op.mayHaveSideEffects = false
  void_iff : ∀ a ∈ D, b.isImmediate (.inst a) = false → ((d.inst a).op = .void ↔ ¬Needed b a)

namespace Swept

variable {b d : IRBlock} {D l : List ℕ} {a x : ℕ} {i : Fin 4}

theorem code_eq (h : Swept b d D) (hop : (d.inst a).op ≠ .void) : d.code a = b.code a :=
  (h.code a).resolve_right fun hvoid => hop hvoid.2.1

theorem immediate_iff (h : Swept b d D) (hop : (d.inst a).op ≠ .void) :
    Immediate d (.inst a) ↔ Immediate b (.inst a) := by
  have hcode {x : ℕ} (hx : (d.inst x).op ≠ .void) :
      (d.inst x).op = (b.inst x).op ∧ (d.inst x).args = (b.inst x).args :=
    ⟨congrArg Prod.fst (h.code_eq hx), congrArg Prod.snd (h.code_eq hx)⟩
  constructor
  · intro himm
    have key (v : Value) (hv : Immediate d v) : Immediate b v := by
      induction hv with
      | imm i => exact .imm i
      | @identity x hx _ ih =>
          obtain ⟨hop, hargs⟩ := hcode (x := x) (by rw [hx]; nofun)
          exact .identity (hop.symm.trans hx) (hargs ▸ ih)
    exact key _ himm
  · intro himm
    have key (v : Value) (hv : Immediate b v) (hlive : Present d v) : Immediate d v := by
      induction hv with
      | imm i => exact .imm i
      | @identity x hx _ ih =>
          obtain ⟨hop, hargs⟩ := hcode (hlive x rfl)
          refine .identity (hop.trans hx) ?_
          rw [hargs]
          exact ih fun g hg => h.accounted.live x 0 g (by rw [hargs, hg])
    exact key _ himm fun g hg => Value.inst.inj hg ▸ hop

theorem isImmediate_eq (h : Swept b d D) (hb : Shape b) (hop : (d.inst a).op ≠ .void) :
    d.isImmediate (.inst a) = b.isImmediate (.inst a) := by
  rw [Bool.eq_iff_iff, h.accounted.isImmediate_iff, hb.isImmediate_iff, h.immediate_iff hop]

theorem not_immediate_of_usedBy (hb : Shape b) (hax : UsedBy b a x)
    (ha : b.isImmediate (.inst a) = false) : b.isImmediate (.inst x) = false := by
  rw [Bool.eq_false_iff, Ne, hb.isImmediate_iff] at ha ⊢
  intro hx
  obtain ⟨hop, harg⟩ := immediate_inst_iff.mp hx
  obtain ⟨i, hi⟩ := hax
  have hi0 : i = 0 := by
    by_contra hne
    have h1 : 1 ≤ i.val := Nat.one_le_iff_ne_zero.mpr fun h => hne (Fin.ext h)
    rw [hb.arity x i (by rw [hop]; exact h1)] at hi
    cases hi
  rw [hi0] at hi
  exact ha (hi ▸ harg)

theorem mem_of_usedBy (hb : Shape b) (hssa : SsaOrder b) (hl : b.instructions = l ++ a :: D)
    (hax : UsedBy b a x) : x ∈ D := by
  obtain ⟨i, hi⟩ := hax
  obtain ⟨l₁, l₂, hsplit⟩ := List.append_of_mem (hssa.listed x (hb.op_ne_void hi))
  have hmem : a ∈ l₁ := hssa.earlier l₁ x l₂ hsplit i a hi
  have hnodup := hssa.nodup
  -- The instruction comes once, so everything behind it is in `D`.
  obtain ⟨m₁, m₂, rfl⟩ := List.append_of_mem hmem
  rw [hl] at hsplit hnodup
  have hsplit' : l ++ a :: D = m₁ ++ a :: (m₂ ++ x :: l₂) := by simpa using hsplit
  have hD : D = m₂ ++ x :: l₂ := by
    rw [List.nodup_append, List.nodup_cons] at hnodup
    have hl' : a ∉ l := fun h => hnodup.2.2 a h a (by simp) rfl
    exact ((List.append_cons_inj_of_notMem hl' hnodup.2.1.1).mp hsplit').2.2
  rw [hD]
  simp

theorem usedBy (h : Swept b d D) (hx : (d.inst x).args i = .inst a) : UsedBy b a x := by
  have hcode := h.code_eq (h.accounted.op_ne_void hx)
  exact ⟨i, (congrFun (congrArg Prod.snd hcode) i).symm.trans hx⟩

theorem op_of_ahead (h : Swept b d D) (hssa : SsaOrder b) (hl : b.instructions = l ++ a :: D) :
    a ∉ D ∧ (d.inst a).op = (b.inst a).op := by
  have hnodup := hssa.nodup
  rw [hl, List.nodup_append, List.nodup_cons] at hnodup
  have haD : a ∉ D := hnodup.2.1.1
  exact ⟨haD, congrArg Prod.fst ((h.code a).resolve_right fun hD => haD hD.1)⟩

theorem lt_allocated (h : Swept b d D) (hssa : SsaOrder b) (hl : b.instructions = l ++ a :: D) :
    a < d.allocated := by
  rw [h.allocated]
  exact hssa.lt a (by rw [hl]; simp)

/-- What has no uses left when the sweep comes to it is not needed, and is referred to by nothing. -/
theorem invalidate (h : Swept b d D) (hb : Shape b) (hssa : SsaOrder b)
    (hl : b.instructions = l ++ a :: D) (huses : (d.inst a).hasUses = false)
    (hpure : (d.inst a).op.mayHaveSideEffects = false) :
    ∃ c, d.invalidate a = .ok c ∧ Swept b c (a :: D) := by
  obtain ⟨haD, hop⟩ := h.op_of_ahead hssa hl
  have hcount : (d.inst a).useCount = 0 := by simpa [Inst.hasUses] using huses
  have hunused (x : ℕ) (i : Fin 4) : (d.inst x).args i ≠ .inst a := fun hx =>
    (h.covered a hcount x i hx).1 (mem_of_usedBy hb hssa hl (h.usedBy hx))
  have hd : Accounted.Disposable d a := ⟨h.lt_allocated hssa hl, huses, fun _ => hunused⟩
  obtain ⟨c, hc, hacc⟩ := h.accounted.invalidate hd
  have hu := IRBlock.codeUpdate_invalidate hc
  have hgone {x : ℕ} (hx : (c.inst x).op ≠ .void) : x ≠ a := fun hxa => hx (hxa ▸ hu.op)
  refine ⟨c, hc, hacc, fun g hg x i hx => ?_, fun x hxop himm => ?_,
    hu.allocated.trans h.allocated, hu.instructions.trans h.instructions, fun x => ?_,
    fun x hx himm => ?_⟩
  · have hxa : x ≠ a := hgone (hacc.op_ne_void hx)
    have hga : g ≠ a := hgone (hacc.live x i g hx)
    cases himm : c.isImmediate (.inst g) with
    | false => exact absurd hx (hacc.unused (hacc.lt (hacc.live x i g hx)) hg himm x i)
    | true =>
        have hno : ¬LeadsTo d a (.inst g) := not_leadsTo_of_unused hunused (by simpa using hga)
        rw [hacc.isImmediate_iff, hu.agreeOff.immediate_iff hno] at himm
        rw [useCount_invalidate_of_immediate h.accounted hd hc hunused hga himm] at hg
        rw [hu.agreeOff.args hxa] at hx
        obtain ⟨hxD, hstays⟩ := h.covered g hg x i hx
        exact ⟨by simp [hxa, hxD], hstays⟩
  · have hxa := hgone hxop
    rw [hu.agreeOff.op hxa] at hxop
    rw [← h.isImmediate_eq hb hxop, h.accounted.isImmediate_iff] at himm
    rw [useCount_invalidate_of_immediate h.accounted hd hc hunused hxa himm]
    rw [h.immediate_iff hxop, ← hb.isImmediate_iff] at himm
    exact h.counts x hxop himm
  · by_cases hxa : x = a
    · subst hxa
      exact .inr ⟨by simp, hu.op, hop ▸ hpure⟩
    · rw [hu.agreeOff x hxa, hu.agreeOff.op hxa]
      exact (h.code x).imp_right fun hx => ⟨by simp [hx.1], hx.2⟩
  · rcases List.mem_cons.mp hx with rfl | hx
    · refine iff_of_true hu.op ?_
      rw [needed_iff]
      rintro (hside | ⟨y, hy, hneeded⟩)
      · rw [← hop, hpure] at hside
        cases hside
      · have hyD := mem_of_usedBy hb hssa hl hy
        refine (h.void_iff y hyD (not_immediate_of_usedBy hb hy himm)).mp ?_ hneeded
        by_contra hyop
        obtain ⟨i, hi⟩ := hy
        refine hunused y i ?_
        rw [← hi]
        exact congrFun (congrArg Prod.snd (h.code_eq hyop)) i
    · have hxa : x ≠ a := fun hxa => haD (hxa ▸ hx)
      rw [hu.agreeOff.op hxa]
      exact h.void_iff x hx himm

/-- What the sweep passes over is needed unless it is an immediate: it has side effects, or a slot
of an instruction that is needed refers to it. -/
theorem needed_of_kept (h : Swept b d D) (hb : Shape b) (hssa : SsaOrder b)
    (hl : b.instructions = l ++ a :: D) (himm : b.isImmediate (.inst a) = false)
    (hkept : (d.inst a).hasUses = true ∨ (d.inst a).op.mayHaveSideEffects = true) :
    (d.inst a).op ≠ .void ∧ Needed b a := by
  rcases hkept with huses | hside
  · have himmd : d.isImmediate (.inst a) = false := by
      by_cases hvoid : (d.inst a).op = .void
      · rw [Bool.eq_false_iff, Ne, h.accounted.isImmediate_iff]
        intro hd
        have := (immediate_inst_iff.mp hd).1
        rw [hvoid] at this
        cases this
      · rw [h.isImmediate_eq hb hvoid, himm]
    have hslots : d.slots a ≠ 0 := fun h0 => by
      rw [Inst.hasUses, h.accounted.counted.count a ⟨h.lt_allocated hssa hl, himmd⟩, h0] at huses
      cases huses
    obtain ⟨y, i, hi⟩ : ∃ y i, (d.inst y).args i = .inst a := by
      by_contra hnone
      push Not at hnone
      exact hslots (Accounted.slots_of_unused hnone)
    have hy := h.usedBy hi
    have hneeded : Needed b y := by
      by_contra hnot
      exact h.accounted.op_ne_void hi ((h.void_iff y (mem_of_usedBy hb hssa hl hy)
        (not_immediate_of_usedBy hb hy himm)).mpr hnot)
    exact ⟨h.accounted.live y i a hi, needed_iff.mpr (.inr ⟨y, hy, hneeded⟩)⟩
  · refine ⟨fun hvoid => ?_, needed_iff.mpr (.inl ?_)⟩
    · rw [hvoid] at hside
      cases hside
    · exact (h.op_of_ahead hssa hl).2 ▸ hside

theorem stays_of_kept (h : Swept b d D) (hb : Shape b) (hssa : SsaOrder b)
    (hl : b.instructions = l ++ a :: D) (hop : (d.inst a).op ≠ .void)
    (hkept : (d.inst a).hasUses = true ∨ (d.inst a).op.mayHaveSideEffects = true) :
    Stays b a := by
  cases himm : b.isImmediate (.inst a) with
  | false => exact .inl (h.needed_of_kept hb hssa hl himm hkept).2
  | true =>
      have hidentity := (immediate_inst_iff.mp ((hb.isImmediate_iff _).mp himm)).1
      have huses : (d.inst a).hasUses = true := by
        refine hkept.resolve_right fun hside => ?_
        rw [(h.op_of_ahead hssa hl).2, hidentity] at hside
        cases hside
      refine .inr ⟨himm, fun h0 => ?_⟩
      rw [Inst.hasUses, h.counts a hop himm, h0] at huses
      cases huses

/-- One round of the sweep, at an instruction whose users have all been seen. -/
theorem sweep (h : Swept b d D) (hb : Shape b) (hssa : SsaOrder b)
    (hl : b.instructions = l ++ a :: D) : ∃ c, d.sweep a = .ok c ∧ Swept b c (a :: D) := by
  unfold IRBlock.sweep
  split_ifs with hdead
  · exact h.invalidate hb hssa hl hdead.1 hdead.2
  have hkept : (d.inst a).hasUses = true ∨ (d.inst a).op.mayHaveSideEffects = true := by
    by_contra hnone
    exact hdead (by simpa using hnone)
  refine ⟨d, rfl, h.accounted, fun g hg x i hx => ?_, h.counts, h.allocated, h.instructions,
    fun x => (h.code x).imp_right fun hx => ⟨by simp [hx.1], hx.2⟩, fun x hx himm => ?_⟩
  · obtain ⟨hxD, hnot⟩ := h.covered g hg x i hx
    have hxa : x ≠ a := by
      rintro rfl
      exact hnot (h.stays_of_kept hb hssa hl (h.accounted.op_ne_void hx) hkept)
    exact ⟨by simp [hxa, hxD], hnot⟩
  · rcases List.mem_cons.mp hx with rfl | hx
    · obtain ⟨hop, hneeded⟩ := h.needed_of_kept hb hssa hl himm hkept
      exact iff_of_false hop (not_not_intro hneeded)
    · exact h.void_iff x hx himm

/-- The whole sweep, from the end of the list to its start. -/
theorem foldlM_sweep (hb : Shape b) (hssa : SsaOrder b) (l : List ℕ) (h : Swept b d D)
    (hl : b.instructions = l ++ D) :
    ∃ c, l.reverse.foldlM IRBlock.sweep d = .ok c ∧ Swept b c b.instructions := by
  induction l using List.reverseRecOn generalizing d D with
  | nil => exact ⟨d, rfl, by rwa [hl]⟩
  | append_singleton l a ih =>
      rw [List.append_assoc] at hl
      obtain ⟨d', hd', hswept⟩ := h.sweep hb hssa hl
      obtain ⟨c, hc, hc'⟩ := ih hswept hl
      refine ⟨c, ?_, hc'⟩
      rw [List.reverse_append, List.reverse_singleton, List.singleton_append, List.foldlM_cons,
        hd']
      exact hc

theorem exec_eq {R W : Type} (h : Swept b d D) (s : Semantics R W) (init : (ℕ → R) × W) :
    (s.exec d init).2 = (s.exec b init).2 ∧
      ∀ a, d.code a = b.code a → (s.exec d init).1 a = (s.exec b init).1 a := by
  unfold Semantics.exec
  rw [h.instructions]
  refine List.foldl_rel (r := fun (x y : (ℕ → R) × W) =>
    x.2 = y.2 ∧ ∀ a, d.code a = b.code a → x.1 a = y.1 a)
    ⟨rfl, fun _ _ => rfl⟩ fun a _ x y hxy => ?_
  rcases h.code a with hcode | ⟨-, hvoid, hpure⟩
  · refine Semantics.step_congr hcode (fun i g hg => hxy.2 g (h.code_eq ?_)) hxy.1 hxy.2
    exact h.accounted.live a i g ((congrFun (congrArg Prod.snd hcode) i).trans hg)
  · obtain ⟨hworld, hresults⟩ := Semantics.step_of_pure (s := s) (c := y) hpure
    rw [Semantics.step_of_void hvoid]
    refine ⟨hxy.1.trans hworld.symm, fun g hg => ?_⟩
    by_cases hga : g = a
    · -- Not changed though it is void now: it was void before.
      subst hga
      have hop : (b.inst g).op = .void := (congrArg Prod.fst hg).symm.trans hvoid
      rw [Semantics.step_of_void hop]
      exact hxy.2 g hg
    · rw [hresults g hga]
      exact hxy.2 g hg

end Swept

section Pair

abbrev setRegister (v : Value) : Action :=
  .insert none
    (.other { code := 0, type := .void, argTypes := [.a32Reg, .u32], argTypes_le := by decide,
              mayHaveSideEffects := true })
    [.imm (.ref .a32Reg 0), v]

variable {b : IRBlock}

theorem refers_of_pair (h : Shape b) (hallocated : b.allocated = 2)
    (hfirst : ∀ i, ((b.inst 0).args i).target = none)
    (hsecond : ∀ i, ∀ g ∈ ((b.inst 1).args i).target, g = 0) {x g : ℕ} {i : Fin 4}
    (hx : (b.inst x).args i = .inst g) : x = 1 ∧ g = 0 := by
  have hlt := h.lt (h.op_ne_void hx)
  have htarget : ((b.inst x).args i).target = some g := by rw [hx]; rfl
  obtain rfl | rfl : x = 0 ∨ x = 1 := by omega
  · rw [hfirst i] at htarget
    cases htarget
  · exact ⟨rfl, hsecond i g htarget⟩

theorem covered_pair (h : Shape b) (hallocated : b.allocated = 2)
    (hfirst : ∀ i, ((b.inst 0).args i).target = none)
    (hsecond : ∀ i, ∀ g ∈ ((b.inst 1).args i).target, g = 0)
    (huses : (b.inst 0).useCount ≠ 0) : Covered b := by
  intro g hg x i hx
  obtain ⟨-, rfl⟩ := refers_of_pair h hallocated hfirst hsecond hx
  exact absurd hg huses

theorem ssaOrder_pair (h : Shape b) (hallocated : b.allocated = 2)
    (hinstructions : b.instructions = [0, 1])
    (hfirst : ∀ i, ((b.inst 0).args i).target = none)
    (hsecond : ∀ i, ∀ g ∈ ((b.inst 1).args i).target, g = 0) : SsaOrder b := by
  refine ⟨by rw [hinstructions]; decide, fun a ha => ?_, fun a ha => ?_,
    fun l₁ a l₂ hl i g hg => ?_⟩
  · rw [hinstructions] at ha
    rw [hallocated]
    simp only [List.mem_cons, List.not_mem_nil, or_false] at ha
    omega
  · have hlt := h.lt ha
    rw [hinstructions]
    simp only [List.mem_cons, List.not_mem_nil, or_false]
    omega
  · obtain ⟨rfl, rfl⟩ := refers_of_pair h hallocated hfirst hsecond hg
    rw [hinstructions] at hl
    cases l₁ with
    | nil => simp at hl
    | cons x l₁ =>
        obtain rfl : 0 = x := by simpa using congrArg List.head? hl
        simp

end Pair

def recording : Semantics ℕ (List ℕ) where
  imm
    | .u32 x => x.toNat
    | _ => 0
  eval op args w := (0, if op.mayHaveSideEffects then args 1 :: w else w)
  eval_world := fun op args w h => by simp [h]

end Umbra.IR
