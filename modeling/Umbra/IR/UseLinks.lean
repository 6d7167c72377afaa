import Mathlib.Algebra.BigOperators.Group.Finset.Basic
import Umbra.IR.Resolution

/-!
Counting uses and linking pseudo-operations.

What `Use` and `UndoUse` do to the count of one instruction and to the chains of all of them, next
to what the assignment of an argument does to the slots that refer to an instruction.
-/

namespace Umbra.IR

open Umbra.Lib

theorem sum_add_of_eq_off {ι : Type*} [DecidableEq ι] {s : Finset ι} (f f' : ι → ℕ) {a : ι}
    (ha : a ∈ s) (h : ∀ x, x ≠ a → f' x = f x) :
    ∑ x ∈ s, f' x + f a = ∑ x ∈ s, f x + f' a := by
  have hrest : ∑ x ∈ s.erase a, f' x = ∑ x ∈ s.erase a, f x :=
    Finset.sum_congr rfl fun x hx => h x (Finset.ne_of_mem_erase hx)
  rw [← Finset.add_sum_erase s f' ha, ← Finset.add_sum_erase s f ha, hrest]
  omega

def Value.refers (v : Value) (g : ℕ) : ℕ := if v = .inst g then 1 else 0

@[simp] theorem Value.refers_imm (i : Imm) (g : ℕ) : (Value.imm i).refers g = 0 := rfl

def argSlots (args : Fin 4 → Value) (g : ℕ) : ℕ := ∑ i, (args i).refers g

namespace IRBlock

def slots (b : IRBlock) (g : ℕ) : ℕ :=
  ∑ a ∈ Finset.range b.allocated, argSlots (b.inst a).args g

end IRBlock

section Counts

variable {b c : IRBlock} {a g x : ℕ} {v : Value} {index : Fin 4} {op : Opcode}
  {args : Fin 4 → Value}

theorem argSlots_update (args : Fin 4 → Value) (index : Fin 4) (v : Value) (g : ℕ) :
    argSlots (Function.update args index v) g + (args index).refers g =
      argSlots args g + v.refers g := by
  have h := sum_add_of_eq_off (fun i => (args i).refers g)
    (fun i => (Function.update args index v i).refers g) (Finset.mem_univ index)
    fun i hi => by rw [Function.update_of_ne hi]
  simpa [argSlots] using h

@[simp] theorem argSlots_empty (g : ℕ) : argSlots (fun _ => .imm .empty) g = 0 := by
  simp [argSlots]

theorem argSlots_eq_zero_iff : argSlots args g = 0 ↔ ∀ i, args i ≠ .inst g := by
  simp [argSlots, Value.refers]

theorem slots_eq_zero_iff :
    b.slots g = 0 ↔ ∀ a, a < b.allocated → ∀ i, (b.inst a).args i ≠ .inst g := by
  simp [IRBlock.slots, argSlots_eq_zero_iff]

theorem IRBlock.CodeUpdate.slots (h : IRBlock.CodeUpdate b a op args c) (ha : a < b.allocated)
    (g : ℕ) : c.slots g + argSlots (b.inst a).args g = b.slots g + argSlots args g := by
  have hargs (x : ℕ) : (c.inst x).args = (Function.update b.code a (op, args) x).2 :=
    congrArg Prod.snd (congrFun h.code x)
  have hsum := sum_add_of_eq_off (fun x => argSlots (b.inst x).args g)
    (fun x => argSlots (c.inst x).args g) (Finset.mem_range.mpr ha) fun x hx => by
      rw [hargs, Function.update_of_ne hx]
      rfl
  simp only [hargs a, Function.update_self] at hsum
  rw [IRBlock.slots, IRBlock.slots, h.allocated]
  exact hsum

theorem useCount_addUse (b : IRBlock) (g x : ℕ) (n : ℤ) :
    ((b.addUse g n).inst x).useCount = (b.inst x).useCount + if x = g then n else 0 := by
  by_cases hx : x = g
  · subst hx
    simp [IRBlock.addUse, IRBlock.modifyInst]
  · simp [IRBlock.addUse, IRBlock.modifyInst, hx]

theorem useCount_setNext (b : IRBlock) (a x : ℕ) (next : Option ℕ) :
    ((b.setNext a next).inst x).useCount = (b.inst x).useCount := by
  by_cases hx : x = a
  · subst hx
    simp [IRBlock.setNext, IRBlock.modifyInst]
  · simp [IRBlock.setNext, IRBlock.modifyInst, hx]

theorem useCount_use (h : b.use a g = .ok c) (x : ℕ) :
    (c.inst x).useCount = (b.inst x).useCount + if x = g then 1 else 0 := by
  unfold IRBlock.use at h
  simp only at h
  split_ifs at h
  · split at h
    · cases h
    · obtain rfl := Except.ok.inj h
      rw [useCount_setNext, useCount_addUse]
  · obtain rfl := Except.ok.inj h
    rw [useCount_addUse]

theorem useCount_undoUse (h : b.undoUse a g = .ok c) (x : ℕ) :
    (c.inst x).useCount = (b.inst x).useCount + if x = g then -1 else 0 := by
  unfold IRBlock.undoUse at h
  simp only at h
  split_ifs at h
  · split at h
    · cases h
    · obtain rfl := Except.ok.inj h
      rw [useCount_setNext, useCount_setNext, useCount_addUse]
  · obtain rfl := Except.ok.inj h
    rw [useCount_addUse]

/-- An instruction that is no immediate itself is counted wherever the value is that
instruction. -/
theorem useCount_useValue (h : b.useValue a v = .ok c)
    (hx : v = .inst x → b.isImmediate v = false) :
    (c.inst x).useCount = (b.inst x).useCount + v.refers x := by
  unfold IRBlock.useValue at h
  split_ifs at h with himm
  · obtain rfl := Except.ok.inj h
    have hne : v ≠ .inst x := fun hv => by simp [hx hv] at himm
    simp [Value.refers, hne]
  · cases v with
    | imm i => cases h
    | inst g =>
        rw [useCount_use h x, Value.refers]
        by_cases hxg : x = g
        · simp [hxg]
        · simp [hxg, Ne.symm hxg]

theorem useCount_undoUseValue (h : b.undoUseValue a v = .ok c)
    (hx : v = .inst x → b.isImmediate v = false) :
    (c.inst x).useCount = (b.inst x).useCount - v.refers x := by
  unfold IRBlock.undoUseValue at h
  split_ifs at h with himm
  · obtain rfl := Except.ok.inj h
    have hne : v ≠ .inst x := fun hv => by simp [hx hv] at himm
    simp [Value.refers, hne]
  · cases v with
    | imm i => cases h
    | inst g =>
        rw [useCount_undoUse h x, Value.refers]
        by_cases hxg : x = g
        · simp [hxg, Int.sub_eq_add_neg]
        · simp [hxg, Ne.symm hxg]

theorem useCount_putArg (b : IRBlock) (a : ℕ) (index : Fin 4) (v : Value) (x : ℕ) :
    ((b.putArg a index v).inst x).useCount = (b.inst x).useCount := by
  by_cases hx : x = a
  · subst hx
    simp [IRBlock.putArg, IRBlock.modifyInst]
  · simp [IRBlock.putArg, IRBlock.modifyInst, hx]

theorem useCount_setOp (b : IRBlock) (a : ℕ) (op : Opcode) (x : ℕ) :
    ((b.setOp a op).inst x).useCount = (b.inst x).useCount := by
  by_cases hx : x = a
  · subst hx
    simp [IRBlock.setOp, IRBlock.modifyInst]
  · simp [IRBlock.setOp, IRBlock.modifyInst, hx]

end Counts

section Links

variable {b c : IRBlock} {a g x : ℕ} {v : Value} {index : Fin 4} {l l₁ l₂ : List ℕ}

@[simp] theorem next_addUse (b : IRBlock) (g : ℕ) (n : ℤ) : (b.addUse g n).next = b.next := by
  funext x
  by_cases hx : x = g
  · subst hx
    simp [IRBlock.next, IRBlock.addUse, IRBlock.modifyInst]
  · simp [IRBlock.next, IRBlock.addUse, IRBlock.modifyInst, hx]

@[simp] theorem next_setNext (b : IRBlock) (a : ℕ) (o : Option ℕ) :
    (b.setNext a o).next = Function.update b.next a o := by
  funext x
  by_cases hx : x = a
  · subst hx
    simp [IRBlock.next, IRBlock.setNext, IRBlock.modifyInst]
  · simp [IRBlock.next, IRBlock.setNext, IRBlock.modifyInst, hx]

@[simp] theorem next_putArg (b : IRBlock) (a : ℕ) (index : Fin 4) (v : Value) :
    (b.putArg a index v).next = b.next := by
  funext x
  by_cases hx : x = a
  · subst hx
    simp [IRBlock.next, IRBlock.putArg, IRBlock.modifyInst]
  · simp [IRBlock.next, IRBlock.putArg, IRBlock.modifyInst, hx]

@[simp] theorem next_setOp (b : IRBlock) (a : ℕ) (op : Opcode) :
    (b.setOp a op).next = b.next := by
  funext x
  by_cases hx : x = a
  · subst hx
    simp [IRBlock.next, IRBlock.setOp, IRBlock.modifyInst]
  · simp [IRBlock.next, IRBlock.setOp, IRBlock.modifyInst, hx]

theorem use_of_ordinary (ha : (b.inst a).op.isAPseudoOperation = false) :
    b.use a g = .ok (b.addUse g 1) := by
  have hop := (SameCode.addUse b g 1).op a
  simp [IRBlock.use, hop, ha]

theorem undoUse_of_ordinary (ha : (b.inst a).op.isAPseudoOperation = false) :
    b.undoUse a g = .ok (b.addUse g (-1)) := by
  have hop := (SameCode.addUse b g (-1)).op a
  simp [IRBlock.undoUse, hop, ha]

/-- The flags are asked of an instruction that sets them. -/
def FlagsAllowed (b : IRBlock) (a g : ℕ) : Prop :=
  (b.inst a).op = .pseudo .getNZCVFromOp → (b.inst g).op.mayGetNZCVFromOp = true

theorem use_of_pseudo (ha : (b.inst a).op.isAPseudoOperation = true) (hflags : FlagsAllowed b a g)
    (hchain : Chain.Spells b.next (b.next g) l) (hl : l.length ≤ b.allocated) :
    ∃ c, b.use a g = .ok c ∧
      c.next = Function.update b.next ((g :: l).getLast (by simp)) (some a) := by
  have hsame := SameCode.addUse b g 1
  have hlast := Chain.lastFrom_eq hchain (Nat.lt_succ_of_le hl)
  have hno : ¬((b.inst a).op = .pseudo .getNZCVFromOp ∧
      (b.inst g).op.mayGetNZCVFromOp = false) := fun h => by simp [hflags h.1] at h
  refine ⟨(b.addUse g 1).setNext ((g :: l).getLast (by simp)) (some a), ?_, by simp⟩
  simp only [IRBlock.use, hsame.op, ha, if_true, if_neg hno, next_addUse, hsame.allocated, hlast]

theorem use_of_not_flagsAllowed (ha : (b.inst a).op.isAPseudoOperation = true)
    (hflags : ¬FlagsAllowed b a g) : b.use a g = .error .assertion := by
  have hsame := SameCode.addUse b g 1
  have hno : (b.inst a).op = .pseudo .getNZCVFromOp ∧
      (b.inst g).op.mayGetNZCVFromOp = false := by
    simpa [FlagsAllowed] using hflags
  simp only [IRBlock.use, hsame.op, ha, if_true, if_pos hno]

theorem undoUse_of_pseudo (ha : (b.inst a).op.isAPseudoOperation = true)
    (hchain : Chain.Spells b.next (b.next g) (l₁ ++ a :: l₂))
    (hl : (l₁ ++ a :: l₂).length ≤ b.allocated) :
    ∃ c, b.undoUse a g = .ok c ∧ c.next = Function.update
      (Function.update b.next ((g :: l₁).getLast (by simp)) (b.next a)) a none := by
  have hsame := SameCode.addUse b g (-1)
  have hpred := Chain.predFrom_eq (n := b.allocated + 1) hchain (by simp at hl; omega)
  refine ⟨((b.addUse g (-1)).setNext ((g :: l₁).getLast (by simp)) (b.next a)).setNext a none, ?_,
    by simp⟩
  simp only [IRBlock.undoUse, hsame.op, ha, if_true, next_addUse, hsame.allocated, hpred]

end Links

/-- The chains of the instructions in `L`: under each of them hang those that `R` says. -/
def Linked (b : IRBlock) (L : ℕ → Prop) (R : ℕ → ℕ → Prop) : Prop :=
  ∀ g, L g → ∃ l, Chain.Spells b.next (b.next g) l ∧ ∀ p, p ∈ l ↔ R p g

namespace Linked

variable {b c : IRBlock} {a g : ℕ} {L L' : ℕ → Prop} {R R' : ℕ → ℕ → Prop}

theorem of_next_eq (h : Linked b L R) (hnext : c.next = b.next) : Linked c L R := by
  intro g hg
  rw [hnext]
  exact h g hg

theorem mono (h : Linked b L R) (hL : ∀ g, L' g → L g) (hR : ∀ p g, L' g → (R' p g ↔ R p g)) :
    Linked b L' R' := by
  intro g hg
  obtain ⟨l, hl, hmem⟩ := h g (hL g hg)
  exact ⟨l, hl, fun p => (hmem p).trans (hR p g hg).symm⟩

theorem length_le {l : List ℕ} (hl : Chain.Spells b.next (b.next g) l)
    (hlt : ∀ p ∈ l, p < b.allocated) : l.length ≤ b.allocated := by
  have hsub : l.toFinset ⊆ Finset.range b.allocated := fun p hp =>
    Finset.mem_range.mpr (hlt p (List.mem_toFinset.mp hp))
  simpa [List.toFinset_card_of_nodup hl.nodup] using Finset.card_le_card hsub

/-- What the chains must be like for one of them to change without the others. -/
structure Apart (b : IRBlock) (L : ℕ → Prop) (R : ℕ → ℕ → Prop) : Prop where
  not_head : ∀ p g, L g → R p g → ¬L p
  unique : ∀ p g g', L g → L g' → R p g → R p g' → g = g'
  lt : ∀ p g, L g → R p g → p < b.allocated

/-- A chain that shares no node with the others can get new links. -/
theorem keep (h : Linked b L R) (hapart : Apart b L R) (hg : L g) {l : List ℕ}
    (hmem : ∀ p, p ∈ l ↔ R p g) (hnext : ∀ p, p ∉ g :: l → c.next p = b.next p) {g' : ℕ}
    (hg' : L g') (hne : g' ≠ g) :
    ∃ l', Chain.Spells c.next (c.next g') l' ∧ ∀ p, p ∈ l' ↔ R p g' := by
  obtain ⟨l', hl', hmem'⟩ := h g' hg'
  have hkeep : ∀ p ∈ g' :: l', c.next p = b.next p := by
    intro p hp
    refine hnext p fun hpl => ?_
    rcases List.mem_cons.mp hp with rfl | hp
    · rcases List.mem_cons.mp hpl with rfl | hpl
      · exact hne rfl
      · exact hapart.not_head p g hg ((hmem p).mp hpl) hg'
    · have hRp := (hmem' p).mp hp
      rcases List.mem_cons.mp hpl with rfl | hpl
      · exact hapart.not_head p g' hg' hRp hg
      · exact hne (hapart.unique p g' g hg' hg hRp ((hmem p).mp hpl))
  refine ⟨l', ?_, hmem'⟩
  rw [hkeep g' (by simp)]
  exact hl'.congr fun p hp => hkeep p (by simp [hp])

/-- Taking a pseudo-operation out of the chain it hangs in. -/
theorem undoUse (h : Linked b L R) (hapart : Apart b L R)
    (ha : (b.inst a).op.isAPseudoOperation = true) (hg : L g) (hR : R a g) :
    ∃ c, b.undoUse a g = .ok c ∧ Linked c L (fun p g => R p g ∧ p ≠ a) ∧ c.next a = none := by
  obtain ⟨l, hl, hmem⟩ := h g hg
  obtain ⟨l₁, l₂, rfl⟩ := List.append_of_mem ((hmem a).mpr hR)
  have hlength := length_le hl fun p hp => hapart.lt p g hg ((hmem p).mp hp)
  obtain ⟨c, hc, hnext⟩ := undoUse_of_pseudo ha hl hlength
  have hhead : g ∉ l₁ ++ a :: l₂ := fun hgl => hapart.not_head g g hg ((hmem g).mp hgl) hg
  refine ⟨c, hc, fun g' hg' => ?_, by simp [hnext]⟩
  by_cases hgg : g' = g
  · subst hgg
    refine ⟨l₁ ++ l₂, by rw [hnext]; exact hl.erase hhead, fun p => ?_⟩
    have hnodup : a ∉ l₁ ++ l₂ := (List.nodup_middle.mp hl.nodup).notMem
    have hp := hmem p
    constructor
    · intro hpl
      exact ⟨hp.mp (by simp only [List.mem_append, List.mem_cons] at hpl ⊢; tauto),
        fun hpa => hnodup (hpa ▸ hpl)⟩
    · rintro ⟨hRp, hpa⟩
      have := hp.mpr hRp
      simp only [List.mem_append, List.mem_cons] at this ⊢
      tauto
  · obtain ⟨l', hl', hmem'⟩ := h.keep hapart hg hmem (c := c) (fun p hp => by
      have hlast : p ≠ (g :: l₁).getLast (by simp) := fun hpl => hp (by
        have : p ∈ g :: l₁ := hpl ▸ List.getLast_mem _
        simp only [List.mem_cons, List.mem_append] at this ⊢
        tauto)
      rw [hnext, Function.update_of_ne (fun hpa => hp (by simp [hpa])),
        Function.update_of_ne hlast]) hg' hgg
    refine ⟨l', hl', fun p => ?_⟩
    rw [hmem' p]
    refine (and_iff_left_of_imp fun hRp hpa => hgg ?_).symm
    exact hapart.unique a g' g hg' hg (hpa ▸ hRp) hR

/-- Hanging a new pseudo-operation at the end of a chain. -/
theorem use (h : Linked b L R) (hapart : Apart b L R)
    (ha : (b.inst a).op.isAPseudoOperation = true) (hflags : FlagsAllowed b a g)
    (hg : L g) (hnew : ∀ g, L g → ¬R a g) (hLa : ¬L a) (hnone : b.next a = none) :
    ∃ c, b.use a g = .ok c ∧ Linked c L (fun p g' => R p g' ∨ p = a ∧ g' = g) := by
  obtain ⟨l, hl, hmem⟩ := h g hg
  have hlength := length_le hl fun p hp => hapart.lt p g hg ((hmem p).mp hp)
  obtain ⟨c, hc, hnext⟩ := use_of_pseudo ha hflags hl hlength
  have hhead : g ∉ l := fun hgl => hapart.not_head g g hg ((hmem g).mp hgl) hg
  have hal : a ∉ g :: l := by
    intro hal
    rcases List.mem_cons.mp hal with rfl | hal
    · exact hLa hg
    · exact hnew g hg ((hmem a).mp hal)
  refine ⟨c, hc, fun g' hg' => ?_⟩
  by_cases hgg : g' = g
  · subst hgg
    refine ⟨l ++ [a], by rw [hnext]; exact hl.append hhead hal hnone, fun p => ?_⟩
    simp [hmem p]
  · obtain ⟨l', hl', hmem'⟩ := h.keep hapart hg hmem (c := c) (fun p hp => by
      rw [hnext, Function.update_of_ne]
      exact fun hpl => hp (hpl ▸ List.getLast_mem _)) hg' hgg
    exact ⟨l', hl', fun p => by simp [hmem' p, hgg]⟩

theorem undoUseValue {v : Value} (h : Linked b L R) (hapart : Apart b L R)
    (hmem : (b.inst a).op.isAPseudoOperation = true → ∀ g, L g →
      (R a g ↔ v = .inst g ∧ b.isImmediate v = false))
    (hL : (b.inst a).op.isAPseudoOperation = true → ∀ g, v = .inst g →
      b.isImmediate v = false → L g) :
    ∃ c, b.undoUseValue a v = .ok c ∧
      Linked c L (fun p g => R p g ∧ ¬((b.inst a).op.isAPseudoOperation = true ∧ p = a)) ∧
      ((b.inst a).op.isAPseudoOperation = true → c.next a = none ∨
        b.isImmediate v = true ∧ c.next a = b.next a) := by
  unfold IRBlock.undoUseValue
  cases hpseudo : (b.inst a).op.isAPseudoOperation with
  | false =>
      cases himm : b.isImmediate v with
      | true => exact ⟨b, rfl, by simpa using h, nofun⟩
      | false =>
          cases v with
          | imm i => simp [isImmediate_imm] at himm
          | inst g => exact ⟨_, undoUse_of_ordinary hpseudo, by simpa using h.of_next_eq (by simp), nofun⟩
  | true =>
      have hmem := hmem hpseudo
      cases himm : b.isImmediate v with
      | true =>
          refine ⟨b, rfl, h.mono (fun g hg => hg) fun p g hg => ?_, fun _ => .inr ⟨rfl, rfl⟩⟩
          refine and_iff_left_of_imp fun hR hp => ?_
          rw [hp.2, hmem g hg, himm] at hR
          exact Bool.false_ne_true hR.2.symm
      | false =>
          cases v with
          | imm i => simp [isImmediate_imm] at himm
          | inst g =>
              have hg := hL hpseudo g rfl himm
              obtain ⟨c, hc, hlinked, hnone⟩ := h.undoUse hapart hpseudo hg
                ((hmem g hg).mpr ⟨rfl, himm⟩)
              exact ⟨c, hc, by simpa using hlinked, fun _ => .inl hnone⟩

theorem useValue {v : Value} (h : Linked b L R) (hapart : Apart b L R)
    (hnew : (b.inst a).op.isAPseudoOperation = true → ∀ g, L g → ¬R a g)
    (hLa : (b.inst a).op.isAPseudoOperation = true → ¬L a)
    (himm : (b.inst a).op.isAPseudoOperation = true → ∀ g, v = .inst g →
      (L g ↔ b.isImmediate v = false))
    (hnone : (b.inst a).op.isAPseudoOperation = true → b.isImmediate v = true ∨ b.next a = none) :
    b.useValue a v = .error .assertion ∨ ∃ c, b.useValue a v = .ok c ∧
      Linked c L (fun p g => R p g ∨
        (b.inst a).op.isAPseudoOperation = true ∧ p = a ∧ v = .inst g) := by
  unfold IRBlock.useValue
  cases hpseudo : (b.inst a).op.isAPseudoOperation with
  | false =>
      refine .inr ?_
      cases himm : b.isImmediate v with
      | true => exact ⟨b, rfl, by simpa using h⟩
      | false =>
          cases v with
          | imm i => simp [isImmediate_imm] at himm
          | inst g => exact ⟨_, use_of_ordinary hpseudo, by simpa using h.of_next_eq (by simp)⟩
  | true =>
      have himm := himm hpseudo
      cases hv : b.isImmediate v with
      | true =>
          refine .inr ⟨b, rfl, h.mono (fun g hg => hg) fun p g hg => ?_⟩
          refine or_iff_left_of_imp fun hp => ?_
          have := (himm g hp.2.2).mp hg
          rw [hv] at this
          cases this
      | false =>
          cases v with
          | imm i => simp [isImmediate_imm] at hv
          | inst g =>
              by_cases hflags : FlagsAllowed b a g
              · obtain ⟨c, hc, hlinked⟩ := h.use hapart hpseudo hflags ((himm g rfl).mpr hv)
                  (hnew hpseudo) (hLa hpseudo)
                  ((hnone hpseudo).resolve_left (by simp [hv]))
                refine .inr ⟨c, hc, hlinked.mono (fun g hg => hg) fun p g' _ => ?_⟩
                simp [eq_comm]
              · exact .inl (use_of_not_flagsAllowed hpseudo hflags)

end Linked

end Umbra.IR
