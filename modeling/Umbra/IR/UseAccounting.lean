import Umbra.IR.UseLinks

/-!
The accounting of uses.

An instruction that is no immediate has as many uses as there are argument slots that refer to it,
and its chain has the pseudo-operations applied to it.  `Use` and `UndoUse` are skipped for a value
that is an immediate when they would be called, so this holds only as long as no instruction turns
from an immediate into something else while slots refer to it.
-/

namespace Umbra.IR

open Umbra.Lib

def Ordinary (b : IRBlock) (a : ℕ) : Prop :=
  (b.inst a).op ≠ .void ∧ (b.inst a).op.isAPseudoOperation = false

instance (b : IRBlock) (a : ℕ) : Decidable (Ordinary b a) :=
  inferInstanceAs (Decidable (_ ∧ _))

def Hangs (b : IRBlock) (p a : ℕ) : Prop :=
  (b.inst p).op.isAPseudoOperation = true ∧ (b.inst p).args 0 = .inst a

instance (b : IRBlock) (p a : ℕ) : Decidable (Hangs b p a) :=
  inferInstanceAs (Decidable (_ ∧ _))

structure Shape (b : IRBlock) : Prop where
  blank : ∀ a, b.allocated ≤ a → (b.inst a).op = .void
  live : ∀ a i g, (b.inst a).args i = .inst g → (b.inst g).op ≠ .void
  arity : ∀ a (i : Fin 4), (b.inst a).op.numArgs ≤ i → (b.inst a).args i = .imm .empty
  ordinary : ∀ p g, Hangs b p g → (b.inst g).op.isAPseudoOperation = false

theorem Shape.op_ne_void {b : IRBlock} (hs : Shape b) {x g : ℕ} {i : Fin 4}
    (hx : (b.inst x).args i = .inst g) : (b.inst x).op ≠ .void := fun hvoid => by
  rw [hs.arity x i (by rw [hvoid]; exact Nat.zero_le _)] at hx
  cases hx

/-- The counts of the instructions in `N` and the chains of those in `L` are right. -/
structure Counted (b : IRBlock) (N L : ℕ → Prop) : Prop where
  count : ∀ g, N g → (b.inst g).useCount = b.slots g
  linked : Linked b L (Hangs b)

theorem Opcode.ne_void_of_pseudo {op : Opcode} (h : op.isAPseudoOperation = true) :
    op ≠ .void := by
  rintro rfl
  cases h

theorem Opcode.numArgs_of_pseudo {op : Opcode} (h : op.isAPseudoOperation = true) :
    op.numArgs = 1 := by
  cases op with
  | pseudo o => rfl
  | _ => cases h

theorem Opcode.index_of_pseudo {op : Opcode} (h : op.isAPseudoOperation = true) {index : Fin 4}
    (hindex : index.val < op.numArgs) : index = 0 := by
  rw [Opcode.numArgs_of_pseudo h] at hindex
  exact Fin.ext (Nat.lt_one_iff.mp hindex)

theorem Opcode.ne_void_of_lt_numArgs {op : Opcode} {n : ℕ} (h : n < op.numArgs) : op ≠ .void := by
  rintro rfl
  exact Nat.not_lt_zero _ h

namespace Shape

variable {b c : IRBlock} {a g : ℕ} {v : Value} {op : Opcode} {args : Fin 4 → Value}

theorem lt (hs : Shape b) (ha : (b.inst a).op ≠ .void) : a < b.allocated := by
  by_contra hlt
  exact ha (hs.blank a (by omega))

theorem isImmediate_iff (hs : Shape b) (v : Value) : b.isImmediate v = true ↔ Immediate b v :=
  IR.isImmediate_iff fun a ha => hs.lt (by rw [ha]; nofun)

theorem update (hs : Shape b) (hu : IRBlock.CodeUpdate b a op args c) (ha : a < b.allocated)
    (hlive : ∀ i g, args i = .inst g → (b.inst g).op ≠ .void ∧ (g = a → op ≠ .void))
    (hvoid : op = .void → ∀ x i, x ≠ a → (b.inst x).args i ≠ .inst a)
    (harity : ∀ i : Fin 4, op.numArgs ≤ i → args i = .imm .empty)
    (hpseudo : op.isAPseudoOperation = true → (b.inst a).op.isAPseudoOperation = true ∧
      ∀ g, args 0 = .inst g → g ≠ a ∧ (b.inst g).op.isAPseudoOperation = false) : Shape c := by
  have hoff := hu.agreeOff
  refine ⟨fun x hx => ?_, fun x i g hg => ?_, fun x i hi => ?_, fun p g hg => ?_⟩
  · rw [hu.allocated] at hx
    rw [hoff.op (by omega)]
    exact hs.blank x hx
  · by_cases hx : x = a
    · subst hx
      rw [hu.args] at hg
      by_cases hga : g = x
      · rw [hga, hu.op]
        exact (hlive i g hg).2 hga
      · rw [hoff.op hga]
        exact (hlive i g hg).1
    · rw [hoff.args hx] at hg
      by_cases hga : g = a
      · subst hga
        rw [hu.op]
        exact fun h => hvoid h x i hx hg
      · rw [hoff.op hga]
        exact hs.live x i g hg
  · by_cases hx : x = a
    · subst hx
      rw [hu.op] at hi
      rw [hu.args]
      exact harity i hi
    · rw [hoff.op hx] at hi
      rw [hoff.args hx]
      exact hs.arity x i hi
  · by_cases hp : p = a
    · subst hp
      rw [Hangs, hu.op, hu.args] at hg
      obtain ⟨hne, hord⟩ := (hpseudo hg.1).2 g hg.2
      rwa [hoff.op hne]
    · rw [Hangs, hoff.op hp, hoff.args hp] at hg
      have hord := hs.ordinary p g hg
      by_cases hga : g = a
      · subst hga
        rw [hu.op]
        by_contra hop
        rw [(hpseudo (by simpa using hop)).1] at hord
        cases hord
      · rwa [hoff.op hga]

theorem apart {L : ℕ → Prop} (hs : Shape b) (hL : ∀ g, L g → Ordinary b g) :
    Linked.Apart b L (Hangs b) where
  not_head := fun p g _ hp hLp => by simpa [hp.1] using (hL p hLp).2
  unique := fun p g g' _ _ hg hg' => Value.inst.inj (hg.2.symm.trans hg'.2)
  lt := fun p g _ hp => hs.lt (Opcode.ne_void_of_pseudo hp.1)

end Shape

theorem IRBlock.codeUpdate_putArg {b d : IRBlock} (hsame : SameCode b d) (a : ℕ) (index : Fin 4)
    (v : Value) : IRBlock.CodeUpdate b a (b.inst a).op
      (Function.update (b.inst a).args index v) (d.putArg a index v) := by
  refine ⟨?_, hsame.allocated, hsame.instructions⟩
  rw [IRBlock.code_putArg, hsame.code]
  rfl

theorem IRBlock.codeUpdate_clearArg {b c : IRBlock} {a : ℕ} {index : Fin 4}
    (h : b.clearArg a index = .ok c) : IRBlock.CodeUpdate b a (b.inst a).op
      (Function.update (b.inst a).args index (.imm .empty)) c := by
  obtain ⟨b₁, hundo, rfl⟩ := IRBlock.clearArg_eq_ok h
  exact IRBlock.codeUpdate_putArg (IRBlock.sameCode_undoUseValue hundo) a index _

theorem IRBlock.clearArg_of_empty {b : IRBlock} {a : ℕ} {index : Fin 4}
    (h : (b.inst a).args index = .imm .empty) : b.clearArg a index = .ok b := by
  have hundo : b.undoUseValue a (.imm .empty) = .ok b := if_pos (isImmediate_imm b _)
  have hput : b.putArg a index (.imm .empty) = b := by
    simp only [IRBlock.putArg, IRBlock.modifyInst, ← h, Function.update_eq_self]
  rw [IRBlock.clearArg, h, hundo]
  exact congrArg Except.ok hput

theorem IRBlock.CodeUpdate.ordinary_iff {b c : IRBlock} {a : ℕ} {op : Opcode}
    {args : Fin 4 → Value} (h : IRBlock.CodeUpdate b a op args c) (hop : op = (b.inst a).op)
    (g : ℕ) : Ordinary c g ↔ Ordinary b g := by
  by_cases hg : g = a
  · subst hg
    rw [Ordinary, Ordinary, h.op, hop]
  · rw [Ordinary, Ordinary, h.agreeOff.op hg]

theorem Shape.clear {b c : IRBlock} {a : ℕ} {index : Fin 4} (hs : Shape b)
    (hu : IRBlock.CodeUpdate b a (b.inst a).op
      (Function.update (b.inst a).args index (.imm .empty)) c) (ha : a < b.allocated) :
    Shape c := by
  have hkeep (i : Fin 4) (g : ℕ)
      (h : Function.update (b.inst a).args index (.imm .empty) i = .inst g) :
      (b.inst a).args i = .inst g := by
    by_cases hi : i = index
    · subst hi
      rw [Function.update_self] at h
      cases h
    · rwa [Function.update_of_ne hi] at h
  refine hs.update hu ha (fun i g hg => ?_) (fun hop x i _ hx => ?_) (fun i hi => ?_)
    fun hp => ⟨hp, fun g hg => ?_⟩
  · have hlive := hs.live a i g (hkeep i g hg)
    exact ⟨hlive, fun hga => hga ▸ hlive⟩
  · exact hs.live x i a hx hop
  · by_cases hii : i = index
    · subst hii
      exact Function.update_self ..
    · rw [Function.update_of_ne hii]
      exact hs.arity a i hi
  · have hord := hs.ordinary a g ⟨hp, hkeep 0 g hg⟩
    exact ⟨fun hga => by simp [hga, hp] at hord, hord⟩

namespace Counted

variable {b c : IRBlock} {N M L K : ℕ → Prop} {a : ℕ} {index : Fin 4} {v : Value}

theorem mono (h : Counted b N L) (hN : ∀ g, M g → N g) (hL : ∀ g, K g → L g) :
    Counted b M K :=
  ⟨fun g hg => h.count g (hN g hg), h.linked.mono hL fun _ _ _ => Iff.rfl⟩

/-- The three assignments of `SetArg`: the old value is given up, the new one is taken and put into
its slot. -/
theorem changeArg (h : Counted b N L) (index : Fin 4) (v : Value) (hs : Shape b)
    (hL : ∀ g, L g → Ordinary b g) (ha : a < b.allocated)
    (hcount : ∀ g, N g → (b.inst a).args index = .inst g ∨ v = .inst g →
      b.isImmediate (.inst g) = false)
    (hpseudo : (b.inst a).op.isAPseudoOperation = true → index = 0 ∧
      (∀ g, (b.inst a).args 0 = .inst g ∨ v = .inst g →
        (L g ↔ b.isImmediate (.inst g) = false)) ∧
      (b.isImmediate v = true ∨ b.isImmediate ((b.inst a).args 0) = false ∨ b.next a = none)) :
    ∃ b₁, b.undoUseValue a ((b.inst a).args index) = .ok b₁ ∧
      ((b.inst a).op.isAPseudoOperation = true → b.isImmediate ((b.inst a).args 0) = false →
        b₁.next a = none) ∧
      (b₁.useValue a v = .error .assertion ∨
        ∃ b₂, b₁.useValue a v = .ok b₂ ∧ Counted (b₂.putArg a index v) N L) := by
  have hapart := hs.apart hL
  obtain ⟨b₁, hundo, hlinked₁, hnone₁⟩ := h.linked.undoUseValue (a := a)
    (v := (b.inst a).args index) hapart
    (fun hp g hg => by
      obtain ⟨rfl, hLimm, -⟩ := hpseudo hp
      simp only [Hangs, hp, true_and]
      exact ⟨fun hv => ⟨hv, by rw [hv]; exact (hLimm g (.inl hv)).mp hg⟩, And.left⟩)
    (fun hp g hv himm => by
      obtain ⟨rfl, hLimm, -⟩ := hpseudo hp
      exact (hLimm g (.inl hv)).mpr (hv ▸ himm))
  have hsame₁ := IRBlock.sameCode_undoUseValue hundo
  refine ⟨b₁, hundo, fun hp himm => ?_, ?_⟩
  · obtain ⟨rfl, -⟩ := hpseudo hp
    refine (hnone₁ hp).resolve_right fun hold => ?_
    rw [himm] at hold
    exact Bool.false_ne_true hold.1
  have hapart₁ : Linked.Apart b₁ L
      (fun p g => Hangs b p g ∧ ¬((b.inst a).op.isAPseudoOperation = true ∧ p = a)) :=
    ⟨fun p g hg hR => hapart.not_head p g hg hR.1,
      fun p g g' hg hg' hR hR' => hapart.unique p g g' hg hg' hR.1 hR'.1,
      fun p g hg hR => by rw [hsame₁.allocated]; exact hapart.lt p g hg hR.1⟩
  have huse := hlinked₁.useValue (a := a) (v := v) hapart₁
    (fun hp g _ hR => hR.2 ⟨by rwa [hsame₁.op] at hp, rfl⟩)
    (fun hp hLa => by simpa [← hsame₁.op a, hp] using (hL a hLa).2)
    (fun hp g hv => by
      rw [hsame₁.op] at hp
      rw [hsame₁.isImmediate, hv]
      exact (hpseudo hp).2.1 g (.inr hv))
    (fun hp => by
      rw [hsame₁.op] at hp
      rw [hsame₁.isImmediate]
      obtain ⟨rfl, -, hfree⟩ := hpseudo hp
      rcases hnone₁ hp with hnone | ⟨himm, hnext⟩
      · exact .inr hnone
      · rw [hnext]
        rw [himm] at hfree
        simpa using hfree)
  refine huse.imp_right fun ⟨b₂, huse, hlinked₂⟩ => ⟨b₂, huse, fun g hg => ?_, ?_⟩
  · -- The count goes down with the old value and up with the new one, and so do the slots.
    have hsame₂ := hsame₁.trans (IRBlock.sameCode_useValue huse)
    have hslots := (IRBlock.codeUpdate_putArg hsame₂ a index v).slots ha g
    have hargs := argSlots_update (b.inst a).args index v g
    rw [useCount_putArg, useCount_useValue huse, useCount_undoUseValue hundo, h.count g hg]
    · omega
    · exact fun hold => by rw [hold]; exact hcount g hg (.inl hold)
    · exact fun hv => by rw [hsame₁.isImmediate, hv]; exact hcount g hg (.inr hv)
  · have hsame₂ := hsame₁.trans (IRBlock.sameCode_useValue huse)
    have hu := IRBlock.codeUpdate_putArg hsame₂ a index v
    refine (hlinked₂.of_next_eq (next_putArg _ _ _ _)).mono (fun g hg => hg) fun p g hg => ?_
    rw [hsame₁.op]
    by_cases hp : p = a
    · subst hp
      simp only [Hangs, hu.op, hu.args, true_and, and_true]
      by_cases hop : (b.inst p).op.isAPseudoOperation = true
      · obtain ⟨rfl, -⟩ := hpseudo hop
        simp [hop]
      · simp [hop]
    · simp [Hangs, hu.agreeOff.op hp, hu.agreeOff.args hp, hp]

theorem setArg (h : Counted b N L) (index : Fin 4) (v : Value) (hs : Shape b)
    (hL : ∀ g, L g → Ordinary b g)
    (hcount : ∀ g, N g → (b.inst a).args index = .inst g ∨ v = .inst g →
      b.isImmediate (.inst g) = false)
    (hpseudo : (b.inst a).op.isAPseudoOperation = true →
      (∀ g, (b.inst a).args index = .inst g ∨ v = .inst g →
        (L g ↔ b.isImmediate (.inst g) = false)) ∧
      (b.isImmediate v = true ∨ b.isImmediate ((b.inst a).args index) = false ∨
        b.next a = none)) :
    b.setArg a index v = .error .assertion ∨
      ∃ c, b.setArg a index v = .ok c ∧ Counted c N L := by
  unfold IRBlock.setArg
  split
  · exact .inl rfl
  · rename_i argType htype
    split_ifs with hcompatible
    swap
    · exact .inl rfl
    have hindex : index.val < (b.inst a).op.numArgs := (List.getElem?_eq_some_iff.mp htype).1
    obtain ⟨b₁, hundo, -, huse⟩ := h.changeArg index v hs hL
      (hs.lt (Opcode.ne_void_of_lt_numArgs hindex)) hcount fun hp => by
        obtain rfl : index = 0 := Opcode.index_of_pseudo hp hindex
        exact ⟨rfl, hpseudo hp⟩
    rw [hundo]
    refine huse.imp (fun huse => ?_) fun ⟨b₂, huse, hcounted⟩ => ⟨_, ?_, hcounted⟩
    · simp only [bind, Except.bind, huse]
    · simp only [bind, Except.bind, huse]
      rfl

theorem clearArg (h : Counted b N L) (index : Fin 4) (hs : Shape b)
    (hL : ∀ g, L g → Ordinary b g) (ha : a < b.allocated)
    (hcount : ∀ g, N g → (b.inst a).args index = .inst g → b.isImmediate (.inst g) = false)
    (hpseudo : (b.inst a).op.isAPseudoOperation = true → index = 0 ∧
      ∀ g, (b.inst a).args 0 = .inst g → (L g ↔ b.isImmediate (.inst g) = false)) :
    ∃ c, b.clearArg a index = .ok c ∧ Counted c N L ∧
      ((b.inst a).op.isAPseudoOperation = true → b.isImmediate ((b.inst a).args 0) = false →
        c.next a = none) := by
  obtain ⟨b₁, hundo, hnone, huse⟩ := h.changeArg index (.imm .empty) hs hL ha
    (fun g hg hor => hcount g hg (hor.resolve_right nofun))
    (fun hp => ⟨(hpseudo hp).1, fun g hor => (hpseudo hp).2 g (hor.resolve_right nofun),
      .inl (isImmediate_imm b _)⟩)
  have hok : b₁.useValue a (.imm .empty) = .ok b₁ := if_pos (isImmediate_imm b₁ _)
  obtain ⟨b₂, hb₂, hcounted⟩ := huse.resolve_left (by rw [hok]; nofun)
  obtain rfl : b₁ = b₂ := Except.ok.inj (hok.symm.trans hb₂)
  refine ⟨_, ?_, hcounted, fun hp himm => by rw [next_putArg]; exact hnone hp himm⟩
  rw [IRBlock.clearArg, hundo]
  rfl

/-- Clearing the arguments behind the first: a pseudo-operation and an identity have none. -/
theorem clearRest (l : List (Fin 4)) (hl : 0 ∉ l) (hs : Shape b) (h : Counted b N L)
    (hL : ∀ g, L g → Ordinary b g) (ha : a < b.allocated)
    (hcount : ∀ g, N g → ∀ i ∈ l, (b.inst a).args i = .inst g → b.isImmediate (.inst g) = false) :
    ∃ c, l.foldlM (fun b index => b.clearArg a index) b = .ok c ∧ Counted c N L ∧
      ((b.inst a).op.isAPseudoOperation = true → c.next a = b.next a) := by
  induction l generalizing b with
  | nil => exact ⟨b, rfl, h, fun _ => rfl⟩
  | cons index l ih =>
      have hindex : index ≠ 0 := fun h => hl (by simp [h])
      have hl : 0 ∉ l := fun h => hl (by simp [h])
      by_cases hempty : (b.inst a).args index = .imm .empty
      · obtain ⟨c, hc, hrest⟩ := ih hl hs h hL ha fun g hg i hi => hcount g hg i (by simp [hi])
        refine ⟨c, ?_, hrest⟩
        rw [List.foldlM_cons, IRBlock.clearArg_of_empty hempty]
        exact hc
      · have hargs : 1 < (b.inst a).op.numArgs := by
          by_contra hle
          refine hempty (hs.arity a index ?_)
          have : index.val ≠ 0 := fun h => hindex (Fin.ext h)
          omega
        have hpseudo : (b.inst a).op.isAPseudoOperation ≠ true := fun hp => by
          rw [Opcode.numArgs_of_pseudo hp] at hargs
          omega
        have hidentity : (b.inst a).op ≠ .identity := fun hop => by
          rw [hop] at hargs
          exact absurd hargs (by decide)
        obtain ⟨d, hd, hcounted, -⟩ := h.clearArg index hs hL ha
          (fun g hg => hcount g hg index (by simp)) fun hp => absurd hp hpseudo
        have hu := IRBlock.codeUpdate_clearArg hd
        have hsd : Shape d := hs.clear hu ha
        have himm (v : Value) : d.isImmediate v = b.isImmediate v := by
          rw [Bool.eq_iff_iff, hsd.isImmediate_iff, hs.isImmediate_iff]
          exact ⟨hu.agreeOff.symm.immediate_of_not_identity (by rwa [hu.op]),
            hu.agreeOff.immediate_of_not_identity hidentity⟩
        obtain ⟨c, hc, hcounted, hnext⟩ := ih hl hsd hcounted
          (fun g hg => (hu.ordinary_iff rfl g).mpr (hL g hg)) (by rwa [hu.allocated])
          fun g hg i hi hig => by
            rw [himm]
            refine hcount g hg i (by simp [hi]) ?_
            by_cases hii : i = index
            · subst hii
              rw [hu.args, Function.update_self] at hig
              cases hig
            · rwa [hu.args, Function.update_of_ne hii] at hig
        refine ⟨c, ?_, hcounted, fun hp => absurd hp hpseudo⟩
        rw [List.foldlM_cons, hd]
        exact hc

/-- Clearing the arguments gives back every use they were counted for. -/
theorem clearArgs (hs : Shape b) (h : Counted b N L) (hL : ∀ g, L g → Ordinary b g)
    (ha : a < b.allocated)
    (hcount : ∀ g, N g → ∀ i, (b.inst a).args i = .inst g → b.isImmediate (.inst g) = false)
    (hpseudo : (b.inst a).op.isAPseudoOperation = true →
      ∀ g, (b.inst a).args 0 = .inst g → (L g ↔ b.isImmediate (.inst g) = false)) :
    ∃ c, b.clearArgs a = .ok c ∧ Counted c N L ∧
      ((b.inst a).op.isAPseudoOperation = true → b.isImmediate ((b.inst a).args 0) = false →
        c.next a = none) := by
  obtain ⟨d, hd, hcounted, hnone⟩ := h.clearArg 0 hs hL ha
    (fun g hg => hcount g hg 0) fun hp => ⟨rfl, hpseudo hp⟩
  have hu := IRBlock.codeUpdate_clearArg hd
  have hsd : Shape d := hs.clear hu ha
  obtain ⟨c, hc, hcounted, hnext⟩ := clearRest [1, 2, 3] (by decide) hsd hcounted
    (fun g hg => (hu.ordinary_iff rfl g).mpr (hL g hg)) (by rwa [hu.allocated])
    fun g hg i hi hig => by
      have hi0 : i ≠ 0 := fun h => by simp [h] at hi
      rw [hu.args, Function.update_of_ne hi0] at hig
      have hidentity : (b.inst a).op ≠ .identity := fun hop => by
        have hi1 : 1 ≤ i.val := Nat.one_le_iff_ne_zero.mpr fun h => hi0 (Fin.ext h)
        rw [hs.arity a i (by rw [hop]; exact hi1)] at hig
        cases hig
      have himm := hcount g hg i hig
      rw [Bool.eq_false_iff, Ne, hsd.isImmediate_iff]
      rw [Bool.eq_false_iff, Ne, hs.isImmediate_iff] at himm
      exact fun hv => himm (hu.agreeOff.symm.immediate_of_not_identity (by rwa [hu.op]) hv)
  refine ⟨c, ?_, hcounted, fun hp himm => (hnext (by rwa [hu.op])).trans (hnone hp himm)⟩
  have hlist : List.finRange 4 = 0 :: [1, 2, 3] := by decide
  rw [IRBlock.clearArgs, hlist, List.foldlM_cons, hd]
  exact hc

end Counted

theorem slots_setOp (b : IRBlock) (a : ℕ) (op : Opcode) (g : ℕ) :
    (b.setOp a op).slots g = b.slots g := by
  refine Finset.sum_congr rfl fun x _ => ?_
  by_cases hx : x = a
  · subst hx
    simp [IRBlock.setOp, IRBlock.modifyInst]
  · simp [IRBlock.setOp, IRBlock.modifyInst, hx]

theorem Counted.setOp {b : IRBlock} {N L : ℕ → Prop} {a : ℕ} (h : Counted b N L) (op : Opcode)
    (hargs : (b.inst a).args 0 = .imm .empty) (hop : op.isAPseudoOperation = false) :
    Counted (b.setOp a op) N L := by
  refine ⟨fun g hg => ?_, ?_⟩
  · rw [useCount_setOp, slots_setOp]
    exact h.count g hg
  · refine (h.linked.of_next_eq (next_setOp b a op)).mono (fun g hg => hg) fun p g _ => ?_
    by_cases hp : p = a
    · subst hp
      simp [Hangs, IRBlock.setOp, IRBlock.modifyInst, hargs, hop]
    · simp [Hangs, IRBlock.setOp, IRBlock.modifyInst, hp]

theorem useValue_of_ordinary {b : IRBlock} {a : ℕ}
    (ha : (b.inst a).op.isAPseudoOperation = false) (v : Value) :
    ∃ c, b.useValue a v = .ok c ∧ c.next = b.next := by
  unfold IRBlock.useValue
  cases himm : b.isImmediate v with
  | true => exact ⟨b, rfl, rfl⟩
  | false =>
      cases v with
      | imm i => simp at himm
      | inst g => exact ⟨_, use_of_ordinary ha, next_addUse b g 1⟩

structure Accounted (b : IRBlock) : Prop extends Shape b where
  counted : Counted b (fun g => g < b.allocated ∧ b.isImmediate (.inst g) = false)
    (fun g => Ordinary b g ∧ b.isImmediate (.inst g) = false)

def Present (b : IRBlock) (v : Value) : Prop := ∀ g, v = .inst g → (b.inst g).op ≠ .void

instance (b : IRBlock) : ∀ v, Decidable (Present b v)
  | .imm _ => isTrue nofun
  | .inst g => decidable_of_iff ((b.inst g).op ≠ .void)
      ⟨fun h _ hg => Value.inst.inj hg ▸ h, fun h => h g rfl⟩

def Applicable (b : IRBlock) (op : Opcode) (v : Value) : Prop :=
  op.isAPseudoOperation = true → ∀ g, v = .inst g → (b.inst g).op.isAPseudoOperation = false

instance (b : IRBlock) (op : Opcode) : ∀ v, Decidable (Applicable b op v)
  | .imm _ => isTrue fun _ => nofun
  | .inst g => decidable_of_iff
      (op.isAPseudoOperation = true → (b.inst g).op.isAPseudoOperation = false)
      ⟨fun h hp _ hg => Value.inst.inj hg ▸ h hp, fun h hp => h hp g rfl⟩

namespace Accounted

variable {b c : IRBlock} {a : ℕ} {index : Fin 4} {v : Value}

/-- The instruction under a pseudo-operation has a chain unless it is an immediate. -/
theorem chained_iff (hlive : Present b v) (hord : Applicable b (b.inst a).op v)
    (hp : (b.inst a).op.isAPseudoOperation = true) {g : ℕ} (hv : v = .inst g) :
    (Ordinary b g ∧ b.isImmediate (.inst g) = false) ↔ b.isImmediate (.inst g) = false :=
  and_iff_right ⟨hlive g hv, hord hp g hv⟩

theorem present_arg (h : Shape b) (a : ℕ) (i : Fin 4) : Present b ((b.inst a).args i) :=
  fun g => h.live a i g

theorem applicable_arg (h : Shape b) (a : ℕ) : Applicable b (b.inst a).op ((b.inst a).args 0) :=
  fun hp g hg => h.ordinary a g ⟨hp, hg⟩

/-- What remains to be said after a change: nothing that counts is new. -/
theorem of_counted (hs : Shape c)
    (h : Counted c (fun g => g < b.allocated ∧ b.isImmediate (.inst g) = false)
      (fun g => Ordinary b g ∧ b.isImmediate (.inst g) = false))
    (hsb : Shape b) (hallocated : c.allocated = b.allocated)
    (himm : ∀ g, Immediate b (.inst g) → Immediate c (.inst g))
    (hord : ∀ g, Ordinary c g → Ordinary b g) : Accounted c := by
  have hmono (g : ℕ) (hg : c.isImmediate (.inst g) = false) : b.isImmediate (.inst g) = false := by
    rw [Bool.eq_false_iff, Ne, hsb.isImmediate_iff]
    intro hb
    rw [(hs.isImmediate_iff _).mpr (himm g hb)] at hg
    cases hg
  exact ⟨hs, h.mono (fun g hg => ⟨hallocated ▸ hg.1, hmono g hg.2⟩)
    fun g hg => ⟨hord g hg.1, hmono g hg.2⟩⟩

/-- `SetArg` may be called so: an immediate under a pseudo-operation stays one, and so does an
identity that is one. -/
structure Settable (b : IRBlock) (a : ℕ) (v : Value) : Prop where
  present : Present b v
  applicable : Applicable b (b.inst a).op v
  pseudo : (b.inst a).op.isAPseudoOperation = true →
    b.isImmediate ((b.inst a).args 0) = true → b.isImmediate v = true
  acyclic : (b.inst a).op = .identity → ¬LeadsTo b a v
  immediate : (b.inst a).op = .identity →
    b.isImmediate (.inst a) = true → b.isImmediate v = true

theorem shape_setArg (hs : Shape b) (hpresent : Present b v)
    (happ : Applicable b (b.inst a).op v) (hc : b.setArg a index v = .ok c) : Shape c := by
  have hu := IRBlock.codeUpdate_setArg hc
  have hindex : index.val < (b.inst a).op.numArgs := by
    obtain ⟨argType, -, -, htype, -⟩ := IRBlock.setArg_eq_ok hc
    exact (List.getElem?_eq_some_iff.mp htype).1
  have hop := Opcode.ne_void_of_lt_numArgs hindex
  refine hs.update hu (hs.lt hop) (fun i g hg => ⟨?_, fun _ => hop⟩) (fun h => absurd h hop)
    (fun i hi => ?_) fun hp => ⟨hp, fun g hg => ?_⟩
  · by_cases hi : i = index
    · subst hi
      rw [Function.update_self] at hg
      exact hpresent g hg
    · rw [Function.update_of_ne hi] at hg
      exact hs.live a i g hg
  · have hne : i ≠ index := fun h => by
      subst h
      omega
    rw [Function.update_of_ne hne]
    exact hs.arity a i hi
  · rw [← Opcode.index_of_pseudo hp hindex, Function.update_self] at hg
    have hord := happ hp g hg
    exact ⟨fun hga => by simp [hga, hp] at hord, hord⟩

theorem setArg (h : Accounted b) (hset : Settable b a v) (index : Fin 4) :
    b.setArg a index v = .error .assertion ∨ ∃ c, b.setArg a index v = .ok c ∧ Accounted c := by
  have hs := h.toShape
  by_cases hindex : index.val < (b.inst a).op.numArgs
  swap
  · refine .inl ?_
    rw [IRBlock.setArg, List.getElem?_eq_none (Nat.le_of_not_lt hindex)]
    rfl
  refine (h.counted.setArg index v hs (fun g hg => hg.1) (fun g hg _ => hg.2) fun hp => ?_).imp_right
    fun ⟨c, hc, hcounted⟩ => ⟨c, hc, ?_⟩
  · obtain rfl := Opcode.index_of_pseudo hp hindex
    refine ⟨fun g hg => ?_, ?_⟩
    · rcases hg with hg | hg
      · exact chained_iff (present_arg hs a 0) (applicable_arg hs a) hp hg
      · exact chained_iff hset.present hset.applicable hp hg
    · cases himm : b.isImmediate ((b.inst a).args 0) with
      | false => exact .inr (.inl rfl)
      | true => exact .inl (hset.pseudo hp himm)
  · have hu := IRBlock.codeUpdate_setArg hc
    refine of_counted (shape_setArg hs hset.present hset.applicable hc) hcounted hs
      hu.allocated (fun g hg => ?_) fun g => (hu.ordinary_iff rfl g).mp
    by_cases hidentity : (b.inst a).op = .identity
    · obtain rfl : index = 0 := by
        rw [hidentity] at hindex
        exact Fin.ext (Nat.lt_one_iff.mp hindex)
      refine hu.agreeOff.immediate_mono (by rw [hu.op, hidentity])
        (by rw [hu.args, Function.update_self]) (hset.acyclic hidentity) (fun ha => ?_) hg
      exact (hs.isImmediate_iff v).mp
        (hset.immediate hidentity ((hs.isImmediate_iff _).mpr ha))
    · exact hu.agreeOff.immediate_of_not_identity hidentity hg

theorem unused (h : Accounted b) (ha : a < b.allocated) (huses : (b.inst a).useCount = 0)
    (himm : b.isImmediate (.inst a) = false) (x : ℕ) (i : Fin 4) :
    (b.inst x).args i ≠ .inst a := by
  have hslots : b.slots a = 0 := by
    have := h.counted.count a ⟨ha, himm⟩
    omega
  by_cases hx : x < b.allocated
  · exact slots_eq_zero_iff.mp hslots x hx i
  · intro hxa
    exact h.op_ne_void hxa (h.blank x (by omega))

theorem slots_of_unused (hunused : ∀ x i, (b.inst x).args i ≠ .inst a) : b.slots a = 0 :=
  slots_eq_zero_iff.mpr fun x _ i => hunused x i

/-- `Invalidate` may be called so: there are no uses, and if the instruction is an immediate then
nothing refers to it all the same. -/
structure Disposable (b : IRBlock) (a : ℕ) : Prop where
  lt : a < b.allocated
  unused : (b.inst a).hasUses = false
  immediate : b.isImmediate (.inst a) = true → ∀ x i, (b.inst x).args i ≠ .inst a

theorem invalidate (h : Accounted b) (hd : Disposable b a) :
    ∃ c, b.invalidate a = .ok c ∧ Accounted c := by
  have hs := h.toShape
  have huses : (b.inst a).useCount = 0 := by simpa [Inst.hasUses] using hd.unused
  have hunused : ∀ x i, (b.inst x).args i ≠ .inst a := by
    cases himm : b.isImmediate (.inst a) with
    | true => exact hd.immediate himm
    | false => exact h.unused hd.lt huses himm
  -- The instruction counts from now on even if it was an immediate.
  have hcounted : Counted b
      (fun g => g < b.allocated ∧ (g = a ∨ b.isImmediate (.inst g) = false))
      (fun g => Ordinary b g ∧ b.isImmediate (.inst g) = false) := by
    refine ⟨fun g hg => ?_, h.counted.linked⟩
    rcases hg with ⟨hlt, rfl | himm⟩
    · rw [huses, slots_of_unused hunused]
      rfl
    · exact h.counted.count g ⟨hlt, himm⟩
  obtain ⟨d, hclear, hcountedd, -⟩ := hcounted.clearArgs hs (fun g hg => hg.1) hd.lt
    (fun g hg i hig => hg.2.resolve_left fun hga => hunused a i (hga ▸ hig))
    fun hp g hg => chained_iff (present_arg hs a 0) (applicable_arg hs a) hp hg
  have hc : b.invalidate a = .ok (d.setOp a .void) := by
    rw [IRBlock.invalidate, hclear]
    rfl
  refine ⟨_, hc, ?_⟩
  have hu := IRBlock.codeUpdate_invalidate hc
  have hsc : Shape (d.setOp a .void) := hs.update hu hd.lt (fun i g hg => nomatch hg)
    (fun _ x i _ => hunused x i) (fun i _ => rfl) (fun hp => nomatch hp)
  have hcountedc := hcountedd.setOp .void (by rw [(IRBlock.codeUpdate_clearArgs hclear).args]) rfl
  have himm (g : ℕ) (hg : g ≠ a) (hnot : (d.setOp a .void).isImmediate (.inst g) = false) :
      b.isImmediate (.inst g) = false := by
    rw [Bool.eq_false_iff, Ne, hsc.isImmediate_iff] at hnot
    rw [Bool.eq_false_iff, Ne, hs.isImmediate_iff]
    refine fun hb => hnot (hu.agreeOff.immediate (not_leadsTo_of_unused hunused ?_) hb)
    simpa using hg
  refine ⟨hsc, hcountedc.mono (fun g hg => ?_) fun g hg => ?_⟩
  · rw [hu.allocated] at hg
    by_cases hga : g = a
    · exact ⟨hg.1, .inl hga⟩
    · exact ⟨hg.1, .inr (himm g hga hg.2)⟩
  · have hga : g ≠ a := fun hga => hg.1.1 (by rw [hga, hu.op])
    have hord := hg.1
    rw [Ordinary, hu.agreeOff.op hga] at hord
    exact ⟨hord, himm g hga hg.2⟩

/-- `ReplaceUsesWith` may be called so: no circle of identities comes of it, what was an immediate
stays one, and a pseudo-operation on an immediate becomes one. -/
structure Replaceable (b : IRBlock) (a : ℕ) (v : Value) : Prop where
  present : (b.inst a).op ≠ .void
  value : Present b v
  acyclic : ¬LeadsTo b a v
  immediate : b.isImmediate (.inst a) = true → b.isImmediate v = true
  pseudo : (b.inst a).op.isAPseudoOperation = true →
    b.isImmediate ((b.inst a).args 0) = true → b.isImmediate v = true

/-- `ReplaceUsesWith` hands the uses and pseudo-operations of `a` on to its replacement. -/
theorem replaceUsesWith (h : Accounted b) (hr : Replaceable b a v) :
    ∃ c, b.replaceUsesWith a v = .ok c ∧ Accounted c := by
  have hs := h.toShape
  have ha := hs.lt hr.present
  obtain ⟨d, hclear, hcountedd, hnone⟩ := h.counted.clearArgs hs (fun g hg => hg.1) ha
    (fun g hg i hig => hg.2)
    fun hp g hg => chained_iff (present_arg hs a 0) (applicable_arg hs a) hp hg
  have hud := IRBlock.codeUpdate_clearArgs hclear
  let e := (d.setOp a .void).setOp a .identity
  have hue : IRBlock.CodeUpdate b a .identity (fun _ => .imm .empty) e := by
    refine ⟨?_, hud.allocated, hud.instructions⟩
    simp [e, IRBlock.code_setOp, hud.code]
  have hcountede : Counted e (fun g => g < b.allocated ∧ b.isImmediate (.inst g) = false)
      (fun g => Ordinary b g ∧ b.isImmediate (.inst g) = false) := by
    refine (hcountedd.setOp .void (by rw [hud.args]) rfl).setOp .identity ?_ rfl
    simp [IRBlock.setOp, IRBlock.modifyInst, hud.args]
  have hse : Shape e := hs.update hue ha (fun i g hg => by cases hg)
    (fun hop => by cases hop) (fun i _ => rfl) (fun hp => by cases hp)
  have hop : (e.inst a).op.isAPseudoOperation = false := by rw [hue.op]; rfl
  have himme : e.isImmediate v = b.isImmediate v := by
    rw [Bool.eq_iff_iff, hse.isImmediate_iff, hs.isImmediate_iff]
    exact hue.agreeOff.immediate_iff hr.acyclic
  obtain ⟨b₁, hundo, -, huse⟩ := hcountede.changeArg 0 v hse
    (fun g hg => by
      by_cases hga : g = a
      · rw [hga]
        exact ⟨by rw [hue.op]; rintro ⟨⟩, hop⟩
      · rw [Ordinary, hue.agreeOff.op hga]
        exact hg.1)
    (by rwa [hue.allocated])
    (fun g hg hor => by
      rcases hor with hor | hor
      · rw [hue.args] at hor
        cases hor
      · rw [← hor, himme, hor]
        exact hg.2)
    (fun hp => by rw [hop] at hp; cases hp)
  obtain rfl : e = b₁ := by
    rw [hue.args] at hundo
    exact Except.ok.inj ((if_pos (isImmediate_imm e _)).symm.trans hundo)
  obtain ⟨b₂', hb₂', hnext⟩ := useValue_of_ordinary hop v
  obtain ⟨b₂, hb₂, hcounted⟩ := huse.resolve_left (by rw [hb₂']; rintro ⟨⟩)
  obtain rfl : b₂' = b₂ := Except.ok.inj (hb₂'.symm.trans hb₂)
  have hc : b.replaceUsesWith a v = .ok (b₂'.putArg a 0 v) := by
    rw [IRBlock.replaceUsesWith, IRBlock.invalidate, hclear]
    simp only [bind, Except.bind, pure, Except.pure]
    rw [hb₂']
  refine ⟨_, hc, ?_⟩
  have hu := IRBlock.codeUpdate_replaceUsesWith hc
  have hsc : Shape (b₂'.putArg a 0 v) := by
    refine hs.update hu ha (fun i g hg => ⟨?_, fun _ => by rintro ⟨⟩⟩) (fun hop => by cases hop)
      (fun i hi => ?_) (fun hp => by cases hp)
    · by_cases hi : i = 0
      · subst hi
        exact hr.value g hg
      · rw [Function.update_of_ne hi] at hg
        cases hg
    · have hi0 : i ≠ 0 := fun h => by
        subst h
        exact absurd hi (by decide)
      rw [Function.update_of_ne hi0]
  have hmono (w : Value) (hw : (b₂'.putArg a 0 v).isImmediate w = false) :
      b.isImmediate w = false := by
    rw [Bool.eq_false_iff, Ne, hsc.isImmediate_iff] at hw
    rw [Bool.eq_false_iff, Ne, hs.isImmediate_iff]
    refine fun hb => hw (hu.agreeOff.immediate_mono hu.op
      (by rw [hu.args, Function.update_self]) hr.acyclic (fun hab => ?_) hb)
    exact (hs.isImmediate_iff v).mp (hr.immediate ((hs.isImmediate_iff _).mpr hab))
  have hcountedc := hcounted.mono (M := fun g => g < (b₂'.putArg a 0 v).allocated ∧
    (b₂'.putArg a 0 v).isImmediate (.inst g) = false)
    (fun g hg => ⟨by rw [← hu.allocated]; exact hg.1, hmono _ hg.2⟩) fun g hg => hg
  refine ⟨hsc, hcountedc.count, fun g hg => ?_⟩
  by_cases hga : g = a
  · subst hga
    cases hp : (b.inst g).op.isAPseudoOperation with
    | false => exact hcounted.linked g ⟨⟨hr.present, hp⟩, hmono _ hg.2⟩
    | true =>
        -- It was a pseudo-operation: nothing hangs under it, and it has left its own chain.
        have hv : (b₂'.putArg g 0 v).isImmediate v = false := by
          rw [Bool.eq_false_iff, Ne, hsc.isImmediate_iff]
          intro hv
          have hgi : (b₂'.putArg g 0 v).isImmediate (.inst g) = true :=
            (hsc.isImmediate_iff _).mpr (.identity hu.op (by rwa [hu.args, Function.update_self]))
          rw [hgi] at hg
          cases hg.2
        have himm : b.isImmediate ((b.inst g).args 0) = false := by
          rw [Bool.eq_false_iff]
          intro himm
          have := hr.pseudo hp himm
          rw [hmono v hv] at this
          cases this
        have hempty : (b₂'.putArg g 0 v).next g = none := by
          rw [next_putArg, hnext]
          simpa [e] using hnone hp himm
        refine ⟨[], hempty, fun p => iff_of_false List.not_mem_nil fun hhangs => ?_⟩
        have hpg : p ≠ g := fun hpg => by
          rw [hpg, Hangs, hu.op] at hhangs
          cases hhangs.1
        rw [Hangs, hu.agreeOff.op hpg, hu.agreeOff.args hpg] at hhangs
        rw [hs.ordinary p g hhangs] at hp
        cases hp
  · have hord := hg.1
    rw [Ordinary, hu.agreeOff.op hga] at hord
    exact hcounted.linked g ⟨hord, hmono _ hg.2⟩

end Accounted

end Umbra.IR
