import Umbra.IR.Microinstruction

/-!
Immediates behind identities.

The functions of `Value` follow identities as long as there are any.  What matters about a value to
the bookkeeping of uses is whether it ends in an immediate, and that depends on the code of the
identities on the way only.
-/

namespace Umbra.IR

open Umbra.Lib

/-- The value is an immediate, or an identity of one. -/
inductive Immediate (b : IRBlock) : Value → Prop
  | imm (i : Imm) : Immediate b (.imm i)
  | identity {a : ℕ} (hop : (b.inst a).op = .identity) (harg : Immediate b ((b.inst a).args 0)) :
      Immediate b (.inst a)

inductive LeadsTo (b : IRBlock) (a : ℕ) : Value → Prop
  | refl : LeadsTo b a (.inst a)
  | identity {x : ℕ} (hop : (b.inst x).op = .identity) (harg : LeadsTo b a ((b.inst x).args 0)) :
      LeadsTo b a (.inst x)

def Value.target : Value → Option ℕ
  | .inst a => some a
  | .imm _ => none

def IRBlock.forward (b : IRBlock) (a : ℕ) : Option ℕ :=
  if (b.inst a).op = .identity then ((b.inst a).args 0).target else none

section

variable {b c : IRBlock} {a x : ℕ} {v : Value} {n : ℕ} {i : Imm}

theorem immediate_inst_iff :
    Immediate b (.inst a) ↔ (b.inst a).op = .identity ∧ Immediate b ((b.inst a).args 0) :=
  ⟨fun | .identity hop harg => ⟨hop, harg⟩, fun h => .identity h.1 h.2⟩

@[simp] theorem isImmediate_imm (b : IRBlock) (i : Imm) : b.isImmediate (.imm i) = true := by
  unfold IRBlock.isImmediate IRBlock.resolve
  cases b.allocated <;> rfl

theorem isImmediate_reorder (b : IRBlock) (l : List ℕ) (v : Value) :
    ({ b with instructions := l } : IRBlock).isImmediate v = b.isImmediate v := by
  have hresolve (n : ℕ) (v : Value) :
      ({ b with instructions := l } : IRBlock).resolveWith n v = b.resolveWith n v := by
    induction n generalizing v with
    | zero => rfl
    | succ n ih =>
        cases v with
        | imm i => rfl
        | inst a => simp only [IRBlock.resolveWith, ih]
  rw [IRBlock.isImmediate, IRBlock.isImmediate, IRBlock.resolve, IRBlock.resolve, hresolve]

theorem immediate_of_resolveWith (h : b.resolveWith n v = .imm i) : Immediate b v := by
  induction n generalizing v with
  | zero =>
      obtain rfl : v = .imm i := h
      exact .imm i
  | succ n ih =>
      cases v with
      | imm j => exact .imm j
      | inst a =>
          simp only [IRBlock.resolveWith] at h
          split_ifs at h with hop
          exact .identity hop (ih h)

theorem Immediate.spells (h : Immediate b v) :
    ∃ l, Chain.Spells b.forward v.target l ∧ ∀ a ∈ l, (b.inst a).op = .identity := by
  induction h with
  | imm i => exact ⟨[], rfl, by simp⟩
  | @identity a hop harg ih =>
      obtain ⟨l, hl, hops⟩ := ih
      refine ⟨a :: l, ⟨rfl, ?_⟩, by simpa [hop] using hops⟩
      rwa [IRBlock.forward, if_pos hop]

theorem resolveWith_of_spells {l : List ℕ} (hv : Immediate b v)
    (hl : Chain.Spells b.forward v.target l) (hn : l.length ≤ n) : ∃ i, b.resolveWith n v = .imm i := by
  induction l generalizing v n with
  | nil =>
      cases hv with
      | imm i => exact ⟨i, by cases n <;> rfl⟩
      | identity hop harg => cases hl
  | cons x l ih =>
      cases hv with
      | imm i => cases hl.1
      | @identity a hop harg =>
          obtain rfl : a = x := Option.some.inj hl.1
          obtain ⟨n, rfl⟩ : ∃ k, n = k + 1 := ⟨n - 1, by simp at hn; omega⟩
          have hrest := hl.2
          rw [IRBlock.forward, if_pos hop] at hrest
          obtain ⟨i, hi⟩ := ih harg hrest (by simpa using hn)
          exact ⟨i, by simp [IRBlock.resolveWith, hop, hi]⟩

/-- Enough steps are taken if every identity of the block is allocated. -/
theorem isImmediate_iff (halloc : ∀ a, (b.inst a).op = .identity → a < b.allocated) :
    b.isImmediate v = true ↔ Immediate b v := by
  unfold IRBlock.isImmediate IRBlock.resolve
  constructor
  · intro h
    split at h
    · exact immediate_of_resolveWith ‹_›
    · cases h
  · intro h
    obtain ⟨l, hl, hops⟩ := h.spells
    have hlength : l.length ≤ b.allocated := by
      have hsub : l.toFinset ⊆ Finset.range b.allocated := fun a ha =>
        Finset.mem_range.mpr (halloc a (hops a (List.mem_toFinset.mp ha)))
      simpa [List.toFinset_card_of_nodup hl.nodup] using Finset.card_le_card hsub
    obtain ⟨i, hi⟩ := resolveWith_of_spells h hl hlength
    rw [hi]

end

section Updates

variable {b c : IRBlock} {a : ℕ} {v w : Value}

theorem not_leadsTo_of_unused (hunused : ∀ x i, (b.inst x).args i ≠ .inst a) (hv : v ≠ .inst a) :
    ¬LeadsTo b a v := by
  intro h
  induction h with
  | refl => exact hv rfl
  | @identity x _ _ ih => exact ih (hunused x 0)

def AgreeOff (a : ℕ) (b c : IRBlock) : Prop := ∀ x, x ≠ a → c.code x = b.code x

namespace AgreeOff

theorem op (h : AgreeOff a b c) {x : ℕ} (hx : x ≠ a) : (c.inst x).op = (b.inst x).op :=
  congrArg Prod.fst (h x hx)

theorem args (h : AgreeOff a b c) {x : ℕ} (hx : x ≠ a) : (c.inst x).args = (b.inst x).args :=
  congrArg Prod.snd (h x hx)

theorem symm (h : AgreeOff a b c) : AgreeOff a c b := fun x hx => (h x hx).symm

theorem leadsTo (h : AgreeOff a b c) (hv : LeadsTo c a v) : LeadsTo b a v := by
  induction hv with
  | refl => exact .refl
  | @identity x hop _ ih =>
      by_cases hx : x = a
      · subst hx
        exact .refl
      · rw [h.args hx] at ih
        exact .identity ((h.op hx).symm.trans hop) ih

theorem immediate (h : AgreeOff a b c) (hno : ¬LeadsTo b a v) (hv : Immediate b v) :
    Immediate c v := by
  induction hv with
  | imm i => exact .imm i
  | @identity x hop _ ih =>
      have hx : x ≠ a := fun hx => hno (hx ▸ .refl)
      refine .identity ((h.op hx).trans hop) ?_
      rw [h.args hx]
      exact ih fun hlead => hno (.identity hop hlead)

theorem immediate_iff (h : AgreeOff a b c) (hno : ¬LeadsTo b a v) :
    Immediate c v ↔ Immediate b v :=
  ⟨h.symm.immediate fun hlead => hno (h.leadsTo hlead), h.immediate hno⟩

theorem immediate_of_not_identity (h : AgreeOff a b c) (hb : (b.inst a).op ≠ .identity)
    (hv : Immediate b v) : Immediate c v := by
  induction hv with
  | imm i => exact .imm i
  | @identity x hop _ ih =>
      have hx : x ≠ a := fun hx => hb (hx ▸ hop)
      exact .identity ((h.op hx).trans hop) (by rwa [h.args hx])

/-- An identity may lead somewhere else, as long as no immediate is lost by it. -/
theorem immediate_mono (h : AgreeOff a b c) (hop : (c.inst a).op = .identity)
    (harg : (c.inst a).args 0 = v) (hno : ¬LeadsTo b a v)
    (hkeep : Immediate b (.inst a) → Immediate b v) (hw : Immediate b w) : Immediate c w := by
  induction hw with
  | imm i => exact .imm i
  | @identity x hxop hxarg ih =>
      by_cases hx : x = a
      · subst hx
        refine .identity hop ?_
        rw [harg]
        exact h.immediate hno (hkeep (.identity hxop hxarg))
      · exact .identity ((h.op hx).trans hxop) (by rwa [h.args hx])

end AgreeOff

theorem IRBlock.CodeUpdate.agreeOff {op : Opcode} {args : Fin 4 → Value}
    (h : IRBlock.CodeUpdate b a op args c) : AgreeOff a b c := by
  intro x hx
  rw [h.code, Function.update_of_ne hx]

theorem IRBlock.CodeUpdate.op {op : Opcode} {args : Fin 4 → Value}
    (h : IRBlock.CodeUpdate b a op args c) : (c.inst a).op = op := by
  have hcode := congrFun h.code a
  rw [Function.update_self] at hcode
  exact congrArg Prod.fst hcode

theorem IRBlock.CodeUpdate.args {op : Opcode} {args : Fin 4 → Value}
    (h : IRBlock.CodeUpdate b a op args c) : (c.inst a).args = args := by
  have hcode := congrFun h.code a
  rw [Function.update_self] at hcode
  exact congrArg Prod.snd hcode

end Updates

end Umbra.IR
