import Umbra.IR.UseAccounting
import Umbra.Lib.Run

/-!
Uses over whole runs.

A block starts empty; instructions are inserted, their arguments are set, they are replaced and
invalidated, in any order.  Every state on the way is accounted for.
-/

namespace Umbra.IR

open Umbra.Lib

namespace Accounted

variable {b c : IRBlock} {a : ℕ} {op : Opcode}

theorem alloc_inst_of_ne {x : ℕ} (hx : x ≠ b.allocated) : (b.alloc op).inst x = b.inst x :=
  Function.update_of_ne hx _ _

@[simp] theorem alloc_inst_self : (b.alloc op).inst b.allocated = .ofOpcode op :=
  Function.update_self ..

theorem unused_alloc (hs : Shape b) (x : ℕ) (i : Fin 4) :
    (b.inst x).args i ≠ .inst b.allocated :=
  fun hx => hs.live x i _ hx (hs.blank _ le_rfl)

theorem agreeOff_alloc : AgreeOff b.allocated b (b.alloc op) := fun x hx => by
  rw [IRBlock.code, IRBlock.code, alloc_inst_of_ne hx]

theorem shape_alloc (hs : Shape b) : Shape (b.alloc op) := by
  have hsame {g : ℕ} (hg : (b.inst g).op ≠ .void) : (b.alloc op).inst g = b.inst g :=
    alloc_inst_of_ne (hs.lt hg).ne
  refine ⟨fun x hx => ?_, fun x i g hg => ?_, fun x i hi => ?_, fun p g hg => ?_⟩
  · have hx : b.allocated + 1 ≤ x := hx
    rw [alloc_inst_of_ne (by omega)]
    exact hs.blank x (by omega)
  · by_cases hx : x = b.allocated
    · subst hx
      rw [alloc_inst_self] at hg
      cases hg
    · rw [alloc_inst_of_ne hx] at hg
      have hlive := hs.live x i g hg
      rwa [hsame hlive]
  · by_cases hx : x = b.allocated
    · subst hx
      rw [alloc_inst_self]
      rfl
    · rw [alloc_inst_of_ne hx] at hi ⊢
      exact hs.arity x i hi
  · by_cases hp : p = b.allocated
    · subst hp
      rw [Hangs, alloc_inst_self] at hg
      cases hg.2
    · rw [Hangs, alloc_inst_of_ne hp] at hg
      rw [hsame (hs.live p 0 g hg.2)]
      exact hs.ordinary p g hg

theorem slots_alloc (g : ℕ) : (b.alloc op).slots g = b.slots g := by
  have hnew : argSlots ((b.alloc op).inst b.allocated).args g = 0 := by
    rw [alloc_inst_self]
    exact argSlots_empty g
  have hsum : (b.alloc op).slots g =
      ∑ x ∈ Finset.range (b.allocated + 1), argSlots ((b.alloc op).inst x).args g := rfl
  rw [hsum, Finset.sum_range_succ, hnew, Nat.add_zero]
  refine Finset.sum_congr rfl fun x hx => ?_
  rw [alloc_inst_of_ne (Finset.mem_range.mp hx).ne]

/-- The new instruction is accounted for from the start, whatever it is. -/
theorem counted_alloc (h : Accounted b) : Counted (b.alloc op)
    (fun g => g < b.allocated + 1 ∧ (g = b.allocated ∨ b.isImmediate (.inst g) = false))
    (fun g => Ordinary (b.alloc op) g ∧
      (g = b.allocated ∨ b.isImmediate (.inst g) = false)) := by
  have hs := h.toShape
  have hempty : b.slots b.allocated = 0 := slots_of_unused (unused_alloc hs)
  refine ⟨fun g hg => ?_, fun g hg => ?_⟩
  · rw [slots_alloc]
    by_cases hga : g = b.allocated
    · subst hga
      rw [alloc_inst_self, hempty]
      rfl
    · rw [alloc_inst_of_ne hga]
      exact h.counted.count g ⟨by omega, hg.2.resolve_left hga⟩
  · by_cases hga : g = b.allocated
    · subst hga
      refine ⟨[], by simp [IRBlock.next, Inst.ofOpcode], fun p =>
        iff_of_false List.not_mem_nil fun hp => ?_⟩
      by_cases hpa : p = b.allocated
      · subst hpa
        rw [Hangs, alloc_inst_self] at hp
        cases hp.2
      · rw [Hangs, alloc_inst_of_ne hpa] at hp
        exact unused_alloc hs p 0 hp.2
    · have hord := hg.1
      rw [Ordinary, alloc_inst_of_ne hga] at hord
      obtain ⟨l, hl, hmem⟩ := h.counted.linked g ⟨hord, hg.2.resolve_left hga⟩
      have hnew : b.allocated ∉ l := fun hbl =>
        Opcode.ne_void_of_pseudo ((hmem _).mp hbl).1 (hs.blank _ le_rfl)
      refine ⟨l, ?_, fun p => ?_⟩
      · have hnext : (b.alloc op).next g = b.next g := by
          rw [IRBlock.next, alloc_inst_of_ne hga]
          rfl
        rw [hnext]
        refine hl.congr fun x hx => ?_
        rw [IRBlock.next, alloc_inst_of_ne fun hxa => hnew (hxa ▸ hx)]
        rfl
      · rw [hmem p]
        by_cases hpa : p = b.allocated
        · subst hpa
          rw [Hangs, Hangs, alloc_inst_self]
          exact iff_of_false (fun hp => Opcode.ne_void_of_pseudo hp.1 (hs.blank _ le_rfl))
            fun hp => by cases hp.2
        · rw [Hangs, Hangs, alloc_inst_of_ne hpa]

/-- By induction on the arguments set: the new instruction is counted step by step. -/
theorem setArgs_alloc (h : Accounted b) (op : Opcode) {d : IRBlock} (l : List (Fin 4 × Value))
    (hnodup : (l.map Prod.fst).Nodup) (hs : Shape d)
    (hcounted : Counted d
      (fun g => g < b.allocated + 1 ∧ (g = b.allocated ∨ b.isImmediate (.inst g) = false))
      (fun g => Ordinary (b.alloc op) g ∧ (g = b.allocated ∨ b.isImmediate (.inst g) = false)))
    (hoff : AgreeOff b.allocated b d) (hop : (d.inst b.allocated).op = op)
    (hempty : ∀ arg ∈ l, (d.inst b.allocated).args arg.1 = .imm .empty)
    (hargs : ∀ arg ∈ l, Present b arg.2 ∧ Applicable b op arg.2)
    (hpseudo : op.isAPseudoOperation = true → l.length ≤ 1 ∧ (l ≠ [] → d.next b.allocated = none))
    (hallocated : d.allocated = b.allocated + 1) :
    l.foldlM (fun d arg => d.setArg b.allocated arg.1 arg.2) d = .error .assertion ∨
      ∃ c, l.foldlM (fun d arg => d.setArg b.allocated arg.1 arg.2) d = .ok c ∧ Accounted c := by
  have hord (g : ℕ) : Ordinary (b.alloc op) g ↔ Ordinary d g := by
    by_cases hga : g = b.allocated
    · subst hga
      rw [Ordinary, Ordinary, alloc_inst_self, hop]
      rfl
    · rw [Ordinary, Ordinary, alloc_inst_of_ne hga, hoff.op hga]
  have himm {g : ℕ} (hga : g ≠ b.allocated) :
      d.isImmediate (.inst g) = b.isImmediate (.inst g) := by
    rw [Bool.eq_iff_iff, hs.isImmediate_iff, h.isImmediate_iff]
    exact hoff.immediate_iff (not_leadsTo_of_unused (unused_alloc h.toShape) (by simpa using hga))
  induction l generalizing d with
  | nil =>
      refine .inr ⟨d, rfl, hs, hcounted.mono (fun g hg => ?_) fun g hg => ?_⟩
      · rw [hallocated] at hg
        by_cases hga : g = b.allocated
        · exact ⟨hg.1, .inl hga⟩
        · exact ⟨hg.1, .inr (himm hga ▸ hg.2)⟩
      · by_cases hga : g = b.allocated
        · exact ⟨(hord g).mpr hg.1, .inl hga⟩
        · exact ⟨(hord g).mpr hg.1, .inr (himm hga ▸ hg.2)⟩
  | cons arg l ih =>
      obtain ⟨index, v⟩ := arg
      have hold := hempty (index, v) (by simp)
      obtain ⟨hpresent, happ⟩ := hargs (index, v) (by simp)
      have hnew {g : ℕ} (hv : v = .inst g) : g ≠ b.allocated := fun hga =>
        hpresent g hv (hga ▸ h.blank _ le_rfl)
      have hstep := hcounted.setArg (a := b.allocated) index v hs (fun g hg => (hord g).mp hg.1)
        (fun g hg hor => by
          rcases hor with hor | hor
          · rw [hold] at hor
            cases hor
          · rw [himm (hnew hor)]
            exact hg.2.resolve_left (hnew hor))
        (fun hp => by
          rw [hop] at hp
          refine ⟨fun g hor => ?_, .inr (.inr ((hpseudo hp).2 (by simp)))⟩
          rcases hor with hor | hor
          · rw [hold] at hor
            cases hor
          · rw [himm (hnew hor), hord g]
            have hg : Ordinary d g := by
              rw [Ordinary, hoff.op (hnew hor)]
              exact ⟨hpresent g hor, happ hp g hor⟩
            simp [hg, hnew hor])
      rw [List.foldlM_cons]
      rcases hstep with herror | ⟨c, hc, hcountedc⟩
      · rw [herror]
        exact .inl rfl
      · rw [hc]
        have hu := IRBlock.codeUpdate_setArg hc
        have hpresentd : Present d v := fun g hv => by
          rw [hoff.op (hnew hv)]
          exact hpresent g hv
        have happd : Applicable d (d.inst b.allocated).op v := fun hp g hv => by
          rw [hop] at hp
          rw [hoff.op (hnew hv)]
          exact happ hp g hv
        have hoffc : AgreeOff b.allocated b c := fun x hx =>
          (hu.agreeOff x hx).trans (hoff x hx)
        have hsc := shape_setArg hs hpresentd happd hc
        have hordc (g : ℕ) : Ordinary (b.alloc op) g ↔ Ordinary c g :=
          (hord g).trans (hu.ordinary_iff rfl g).symm
        refine ih (List.nodup_cons.mp hnodup).2 hsc hcountedc hoffc (hu.op.trans hop)
          (fun arg harg => ?_) (fun arg harg => hargs arg (by simp [harg]))
          (fun hp => ?_) (hu.allocated.trans hallocated) hordc fun {g} hga => ?_
        · have hne : arg.1 ≠ index := fun heq =>
            (List.nodup_cons.mp hnodup).1 (List.mem_map.mpr ⟨arg, harg, heq⟩)
          rw [hu.args, Function.update_of_ne hne]
          exact hempty arg (by simp [harg])
        · obtain rfl : l = [] := by simpa using (hpseudo hp).1
          simp
        · rw [Bool.eq_iff_iff, hsc.isImmediate_iff, h.isImmediate_iff]
          exact hoffc.immediate_iff
            (not_leadsTo_of_unused (unused_alloc h.toShape) (by simpa using hga))

theorem nodup_map_fst_zip {α β : Type*} {l : List α} (h : l.Nodup) {l' : List β} :
    ((l.zip l').map Prod.fst).Nodup := by
  induction l generalizing l' with
  | nil => simp
  | cons a l ih =>
      cases l' with
      | nil => simp
      | cons b l' =>
          obtain ⟨ha, hl⟩ := List.nodup_cons.mp h
          refine List.nodup_cons.mpr ⟨fun hmem => ?_, ih hl⟩
          obtain ⟨x, hx, rfl⟩ := List.mem_map.mp hmem
          exact ha (List.of_mem_zip hx).1

theorem prependNewInst (h : Accounted b) (point : Option ℕ) (args : List Value)
    (hargs : ∀ v ∈ args, Present b v ∧ Applicable b op v) :
    b.prependNewInst point op args = .error .assertion ∨
      ∃ a c, b.prependNewInst point op args = .ok (a, c) ∧ Accounted c := by
  unfold IRBlock.prependNewInst
  by_cases hlength : args.length = op.numArgs
  swap
  · exact .inl (if_pos hlength)
  simp only [ne_eq, hlength, not_true_eq_false, if_false]
  have hfold := setArgs_alloc h op ((List.finRange 4).zip args)
    (nodup_map_fst_zip (List.nodup_finRange 4))
    (shape_alloc h.toShape) h.counted_alloc agreeOff_alloc (by rw [alloc_inst_self]; rfl)
    (fun arg _ => by rw [alloc_inst_self]; rfl)
    (fun arg harg => hargs arg.2 (List.of_mem_zip harg).2)
    (fun hp => ⟨by
      rw [List.length_zip, hlength, Opcode.numArgs_of_pseudo hp]
      exact Nat.min_le_right _ _, fun _ => by simp [IRBlock.next, Inst.ofOpcode]⟩) rfl
  rcases hfold with herror | ⟨c, hc, hacc⟩
  · rw [herror]
    exact .inl rfl
  · rw [hc]
    refine .inr ⟨b.allocated, _, rfl, ?_⟩
    -- The order of the instructions plays no part in the accounting.
    refine ⟨⟨hacc.blank, hacc.live, hacc.arity, hacc.ordinary⟩, ?_⟩
    simp only [isImmediate_reorder]
    exact ⟨hacc.counted.count, hacc.counted.linked⟩

end Accounted

inductive Action
  | insert (point : Option ℕ) (op : Opcode) (args : List Value)
  | setArg (a : ℕ) (index : Fin 4) (v : Value)
  | replaceUsesWith (a : ℕ) (v : Value)
  | invalidate (a : ℕ)

namespace IRBlock

def act (b : IRBlock) : Action → Except Stop IRBlock
  | .insert point op args => return (← b.prependNewInst point op args).2
  | .setArg a index v => b.setArg a index v
  | .replaceUsesWith a v => b.replaceUsesWith a v
  | .invalidate a => b.invalidate a

def step (b : IRBlock) (action : Action) : Option IRBlock := (b.act action).toOption

end IRBlock

/-- Pseudo-operations are applied to ordinary instructions, no circle of identities is made, and
only what has no uses is invalidated. -/
def Plain (b : IRBlock) : Action → Prop
  | .insert _ op args => ∀ v ∈ args, Present b v ∧ Applicable b op v
  | .setArg a _ v => Present b v ∧ Applicable b (b.inst a).op v ∧
      ((b.inst a).op.isAPseudoOperation = true →
        b.isImmediate ((b.inst a).args 0) = true → b.isImmediate v = true)
  | .replaceUsesWith a v => (b.inst a).op ≠ .void ∧ Present b v ∧ ¬LeadsTo b a v
  | .invalidate a => a < b.allocated ∧ (b.inst a).hasUses = false

instance (b : IRBlock) (point : Option ℕ) (op : Opcode) (args : List Value) :
    Decidable (Plain b (.insert point op args)) :=
  inferInstanceAs (Decidable (∀ v ∈ args, Present b v ∧ Applicable b op v))

/-- Nothing that resolves to an immediate comes to resolve to something else. -/
def Permitted (b : IRBlock) : Action → Prop
  | .insert _ op args => ∀ v ∈ args, Present b v ∧ Applicable b op v
  | .setArg a _ v => Accounted.Settable b a v
  | .replaceUsesWith a v => Accounted.Replaceable b a v
  | .invalidate a => Accounted.Disposable b a

instance (b : IRBlock) (point : Option ℕ) (op : Opcode) (args : List Value) :
    Decidable (Permitted b (.insert point op args)) :=
  inferInstanceAs (Decidable (∀ v ∈ args, Present b v ∧ Applicable b op v))

section Runs

variable {b c : IRBlock} {a : ℕ} {action : Action}

theorem accounted_initial : Accounted .initial := by
  have hnot (p a : ℕ) : ¬Hangs .initial p a := fun h => nomatch h.1
  exact
    { blank := fun _ _ => rfl
      live := fun a i g hg => nomatch hg
      arity := fun a i _ => rfl
      ordinary := fun p g hg => absurd hg (hnot p g)
      counted :=
        ⟨fun g hg => absurd hg.1 (Nat.not_lt_zero g), fun g hg => absurd rfl hg.1.1⟩ }

/-- One step: an assertion, or an accounted block again. -/
theorem Accounted.act (h : Accounted b) (hok : Permitted b action) :
    b.act action = .error .assertion ∨ ∃ c, b.act action = .ok c ∧ Accounted c := by
  cases action with
  | insert point op args =>
      rcases h.prependNewInst point args hok with herror | ⟨a, c, hc, hacc⟩
      · refine .inl ?_
        rw [IRBlock.act, herror]
        rfl
      · refine .inr ⟨c, ?_, hacc⟩
        rw [IRBlock.act, hc]
        rfl
  | setArg a index v => exact h.setArg hok index
  | replaceUsesWith a v => exact .inr (h.replaceUsesWith hok)
  | invalidate a => exact .inr (h.invalidate hok)

theorem Accounted.of_reaches (h : Reaches IRBlock.step Permitted .initial b) : Accounted b := by
  refine h.invariant accounted_initial fun s action t hs hok hstep => ?_
  rcases hs.act hok with herror | ⟨c, hc, hacc⟩
  · rw [IRBlock.step, herror] at hstep
    cases hstep
  · rw [IRBlock.step, hc] at hstep
    rwa [← Option.some.inj hstep]

/-- The walk of `GetAssociatedPseudoOperation` ends, and stays on the chain. -/
theorem findPseudoop_eq (op : Opcode) {o : Option ℕ} {l : List ℕ} {n : ℕ}
    (hl : Chain.Spells b.next o l) (hn : l.length ≤ n) :
    ∃ r, b.findPseudoop op n o = .ok r ∧ ∀ p ∈ r, p ∈ l := by
  induction l generalizing o n with
  | nil =>
      obtain rfl := hl
      exact ⟨none, by cases n <;> rfl, nofun⟩
  | cons x l ih =>
      obtain ⟨rfl, hrest⟩ := hl
      obtain ⟨n, rfl⟩ : ∃ k, n = k + 1 := ⟨n - 1, by simp at hn; omega⟩
      rw [IRBlock.findPseudoop]
      split_ifs with hop
      · exact ⟨some x, rfl, by simp⟩
      · obtain ⟨r, hr, hmem⟩ := ih hrest (by simpa using hn)
        exact ⟨r, hr, fun p hp => List.mem_cons_of_mem _ (hmem p hp)⟩

theorem getArg_of_hangs {p : ℕ} (h : Hangs b p a) : b.getArg p 0 = .ok (.inst a) := by
  obtain ⟨hp, harg⟩ := h
  unfold IRBlock.getArg
  cases hop : (b.inst p).op with
  | pseudo o => simp [Opcode.argTypes, harg]
  | _ =>
      rw [hop] at hp
      cases hp

theorem Accounted.getAssociatedPseudoOperation (h : Accounted b) (ha : Ordinary b a)
    (himm : b.isImmediate (.inst a) = false) (op : Opcode) :
    ∃ r, b.getAssociatedPseudoOperation a op = .ok r := by
  obtain ⟨l, hl, hmem⟩ := h.counted.linked a ⟨ha, himm⟩
  have hlength := Linked.length_le hl fun p hp =>
    h.lt (Opcode.ne_void_of_pseudo ((hmem p).mp hp).1)
  obtain ⟨r, hr, hrl⟩ := findPseudoop_eq op hl (Nat.le_succ_of_le hlength)
  unfold IRBlock.getAssociatedPseudoOperation
  rw [hr]
  cases r with
  | none => exact ⟨none, rfl⟩
  | some p =>
      have harg := getArg_of_hangs ((hmem p).mp (hrl p rfl))
      refine ⟨some p, ?_⟩
      simp only [bind, Except.bind, harg, Value.getInst, if_true]
      rfl

end Runs

/-- In every run that keeps immediates immediates, the instructions that are none have as many uses
as slots refer to them, the ordinary ones among them have the pseudo-operations applied to them on
their chain, each once, and every walk along a chain ends. -/
theorem uses_accounted {b : IRBlock} (h : Reaches IRBlock.step Permitted .initial b) :
    (∀ a, a < b.allocated → b.isImmediate (.inst a) = false →
      (b.inst a).useCount = b.slots a) ∧
    (∀ a, Ordinary b a → b.isImmediate (.inst a) = false →
      (∃ l, Chain.Spells b.next (b.next a) l ∧ l.Nodup ∧ ∀ p, p ∈ l ↔ Hangs b p a) ∧
      ∀ op, ∃ r, b.getAssociatedPseudoOperation a op = .ok r) ∧
    ∀ action, Permitted b action → b.act action ≠ .error .lost := by
  have hacc := Accounted.of_reaches h
  refine ⟨fun a ha himm => hacc.counted.count a ⟨ha, himm⟩, fun a ha himm => ⟨?_, fun op =>
    hacc.getAssociatedPseudoOperation ha himm op⟩, fun action hok => ?_⟩
  · obtain ⟨l, hl, hmem⟩ := hacc.counted.linked a ⟨ha, himm⟩
    exact ⟨l, hl, hl.nodup, hmem⟩
  · rcases hacc.act hok with herror | ⟨c, hc, -⟩
    · rw [herror]
      nofun
    · rw [hc]
      nofun

abbrev addition : Action :=
  .insert none (.alu (.add .w32)) [.imm (.u32 1), .imm (.u32 2), .imm (.u1 false)]

theorem uses_accounted_addition :
    ∃ b, Reaches IRBlock.step Permitted .initial b ∧ b.isImmediate (.inst 0) = false ∧
      (b.inst 0).useCount = b.slots 0 ∧ b.slots 0 = 1 ∧
      ∃ l, Chain.Spells b.next (b.next 0) l ∧ l.Nodup ∧ ∀ p, p ∈ l ↔ Hangs b p 0 := by
  have hreach : Reaches IRBlock.step Permitted .initial _ :=
    .tail (.tail .refl ⟨addition, by decide, rfl⟩)
      ⟨.insert none (.pseudo .getCarryFromOp) [.inst 0], by decide, rfl⟩
  obtain ⟨hcount, hchain, -⟩ := uses_accounted hreach
  exact ⟨_, hreach, by decide, hcount 0 (by decide) (by decide), by decide,
    (hchain 0 (by decide) (by decide)).1⟩

theorem not_leadsTo_of_ne {b : IRBlock} {a x : ℕ} (hx : x ≠ a) (hop : (b.inst x).op ≠ .identity) :
    ¬LeadsTo b a (.inst x) := by
  intro h
  cases h with
  | refl => exact hx rfl
  | identity h _ => exact hop h

/-- An instruction that is replaced by an immediate, used, and replaced again by something else
misses the use in between; and on a pseudo-operation `GetAssociatedPseudoOperation` runs into the
rest of the chain it is on. -/
theorem uses_miscounted :
    (∃ b, Reaches IRBlock.step Plain .initial b ∧ b.isImmediate (.inst 0) = false ∧
      (b.inst 0).useCount = 0 ∧ b.slots 0 = 1) ∧
    ∃ b, Reaches IRBlock.step Plain .initial b ∧ b.isImmediate (.inst 1) = false ∧
      Hangs b 1 0 ∧ b.next 1 = some 2 ∧ Hangs b 2 0 ∧
      b.getAssociatedPseudoOperation 1 (.pseudo .getOverflowFromOp) = .error .assertion := by
  constructor
  · refine ⟨_, .tail (.tail (.tail (.tail (.tail .refl ⟨addition, by decide, rfl⟩)
      ⟨addition, by decide, rfl⟩)
      ⟨.replaceUsesWith 0 (.imm (.u32 5)), ⟨by decide, by decide, nofun⟩, rfl⟩)
      ⟨.insert none (.alu (.not .w32)) [.inst 0], by decide, rfl⟩)
      ⟨.replaceUsesWith 0 (.inst 1),
        ⟨by decide, by decide, not_leadsTo_of_ne (by decide) (by decide)⟩, rfl⟩, ?_, ?_, ?_⟩
    · decide
    · decide
    · decide
  · refine ⟨_, .tail (.tail (.tail .refl ⟨addition, by decide, rfl⟩)
      ⟨.insert none (.pseudo .getCarryFromOp) [.inst 0], by decide, rfl⟩)
      ⟨.insert none (.pseudo .getOverflowFromOp) [.inst 0], by decide, rfl⟩, ?_, ?_, ?_, ?_, ?_⟩
    · decide
    · decide
    · decide
    · decide
    · decide

end Umbra.IR
