import Umbra.A32.Translate
import Umbra.Backend.CodeCache

/-!
What a translated block registers.

A block is registered for the guest range from its first instruction up to where
translation ended.  Code that is patched inside this range makes the block go;
so every instruction that left something in the block has to lie inside it.  It
does, except in three situations: translation ends at an instruction with the
obsolete condition `NV` without stepping over it, the second half of a 32-bit
Thumb instruction cannot be read and only the first is stepped over, or a Thumb
program counter is odd and its instruction begins one byte before it.
-/

namespace Umbra.A32

open Umbra.Lib

/-- Every byte of every guest instruction that something was put into the block for
lies in the registered range. -/
def TranslatedBlock.Covered (b : TranslatedBlock) : Prop :=
  ∀ source ∈ b.sources, ∀ i < source.length, ∃ I ∈ b.range, source.first.toNat + i ∈ I

/-- The bytes of the guest instructions that belong to the block.  An instruction that has ended
the block by its condition was looked at, but is left to the next block. -/
def Visitor.taken (v : Visitor) : ℕ :=
  if v.condState = .break_ ∧ v.block.terminal = some (.linkBlockFast v.currentLocation) then
    v.looked - v.currentInstructionSize
  else v.looked

theorem Visitor.taken_eq_looked {v : Visitor} (h : v.condState ≠ .break_) : v.taken = v.looked :=
  if_neg fun hbroken => h hbroken.1

/-- No instruction of the block reaches past the top of the address space. -/
def Visitor.NoWrap (v : Visitor) : Prop :=
  v.block.location.pc.toNat + v.taken ≤ 2 ^ 32

def Body.Acts (body : Body) : Prop :=
  body.instructions ≠ [] ∨ body.setsTerm = true

/-! ### What the parts of a turn do -/

theorem TranslatedBlock.mem_sources {b : TranslatedBlock} {s : Source} :
    s ∈ b.sources ↔
      (∃ inst ∈ b.instructions, inst.source = some s) ∨ b.terminal = some (.ofInstruction s) := by
  unfold sources
  rw [List.mem_append, List.mem_filterMap]
  refine or_congr_right ?_
  split
  · rename_i source h
    rw [h]
    simp [eq_comm]
  · rename_i h
    simp only [List.not_mem_nil, false_iff]
    exact h s

namespace Visitor

/-- A part of a turn keeps the place and what the block has, and puts things into
the block only for the allowed instructions. -/
structure Extends (allowed : Source → Prop) (v w : Visitor) : Prop where
  location : w.block.location = v.block.location
  current : w.currentLocation = v.currentLocation
  size : w.currentInstructionSize = v.currentInstructionSize
  looked : w.looked = v.looked
  kept : ∀ s ∈ v.block.sources, s ∈ w.block.sources
  new : ∀ s ∈ w.block.sources, s ∈ v.block.sources ∨ allowed s

namespace Extends

variable {allowed : Source → Prop} {u v w : Visitor}

theorem refl (allowed : Source → Prop) (v : Visitor) : Extends allowed v v :=
  ⟨rfl, rfl, rfl, rfl, fun _ h => h, fun _ h => .inl h⟩

theorem trans (huv : Extends allowed u v) (hvw : Extends allowed v w) : Extends allowed u w where
  location := hvw.location.trans huv.location
  current := hvw.current.trans huv.current
  size := hvw.size.trans huv.size
  looked := hvw.looked.trans huv.looked
  kept s hs := hvw.kept s (huv.kept s hs)
  new s hs := (hvw.new s hs).elim (huv.new s) .inr

theorem mono {allowed' : Source → Prop} (h : Extends allowed v w)
    (hle : ∀ s, allowed s → allowed' s) : Extends allowed' v w :=
  { h with new := fun s hs => (h.new s hs).imp_right (hle s) }

theorem of_none (h : Extends (fun _ => False) v w) (source : Source) :
    Extends (· = source) v w :=
  h.mono fun _ => False.elim

/-- A change of anything but the place and the sources. -/
theorem of_sources (hlocation : w.block.location = v.block.location)
    (hcurrent : w.currentLocation = v.currentLocation)
    (hsize : w.currentInstructionSize = v.currentInstructionSize) (hlooked : w.looked = v.looked)
    (hsources : w.block.sources = v.block.sources) : Extends allowed v w :=
  ⟨hlocation, hcurrent, hsize, hlooked, hsources ▸ fun _ h => h, hsources ▸ fun _ h => .inl h⟩

end Extends

theorem condState_extends (allowed : Source → Prop) (v : Visitor) (state : ConditionalState) :
    Extends allowed v { v with condState := state } :=
  .of_sources rfl rfl rfl rfl rfl

theorem put_extends (v : Visitor) (source : Option Source) (flags : List Bool) :
    Extends (source = some ·) v (v.put source flags) where
  location := rfl
  current := rfl
  size := rfl
  looked := rfl
  kept s hs := by
    rw [TranslatedBlock.mem_sources] at hs ⊢
    refine hs.imp_left fun ⟨inst, hinst, h⟩ => ⟨inst, ?_, h⟩
    exact List.mem_append_left _ hinst
  new s hs := by
    rw [TranslatedBlock.mem_sources] at hs ⊢
    rcases hs with ⟨inst, hinst, h⟩ | h
    · rcases List.mem_append.mp hinst with hold | hnew
      · exact .inl (.inl ⟨inst, hold, h⟩)
      · obtain ⟨flag, -, rfl⟩ := List.mem_map.mp hnew
        exact .inr h
    · exact .inl (.inr h)

variable {v w : Visitor}

theorem setTerm_eq {terminal : Terminal} (h : v.setTerm terminal = some w) :
    v.block.terminal = none ∧
      w = { v with block := { v.block with terminal := some terminal } } := by
  unfold setTerm at h
  split at h
  · cases h
  · rename_i hnone
    exact ⟨by simpa using hnone, (Option.some.inj h).symm⟩

theorem setTerm_extends {terminal : Terminal} (h : v.setTerm terminal = some w) :
    Extends (terminal = .ofInstruction ·) v w ∧ w.condState = v.condState := by
  obtain ⟨hnone, rfl⟩ := setTerm_eq h
  refine ⟨⟨rfl, rfl, rfl, rfl, fun s hs => ?_, fun s hs => ?_⟩, rfl⟩
  · rw [TranslatedBlock.mem_sources] at hs ⊢
    refine .inl (hs.resolve_right ?_)
    simp [hnone]
  · rw [TranslatedBlock.mem_sources] at hs ⊢
    exact hs.imp .inl Option.some.inj

theorem mem_put_sources {source : Source} {flags : List Bool} :
    source ∈ (v.put (some source) flags).block.sources ↔ source ∈ v.block.sources ∨ flags ≠ [] := by
  simp only [TranslatedBlock.mem_sources, put, List.mem_append, List.mem_map]
  constructor
  · rintro (⟨inst, hinst | ⟨flag, hflag, -⟩, h⟩ | h)
    · exact .inl (.inl ⟨inst, hinst, h⟩)
    · exact .inr (List.ne_nil_of_mem hflag)
    · exact .inl (.inr h)
  · rintro ((⟨inst, hinst, h⟩ | h) | hflags)
    · exact .inl ⟨inst, .inl hinst, h⟩
    · exact .inr h
    · obtain ⟨flag, hflag⟩ := List.exists_mem_of_ne_nil _ hflags
      exact .inl ⟨_, .inr ⟨flag, hflag, rfl⟩, rfl⟩

theorem runBody_spec {source : Source} {body : Body} {c : Bool}
    (h : v.runBody source body = some (c, w)) :
    Extends (· = source) v w ∧ w.condState = v.condState ∧ c = body.continues ∧
      (source ∈ w.block.sources ↔ source ∈ v.block.sources ∨ body.Acts) := by
  have hput := (v.put_extends (some source) body.instructions).mono
    fun s hs => (Option.some.inj hs).symm
  have hmem : source ∈ (v.put (some source) body.instructions).block.sources ↔ _ :=
    mem_put_sources
  unfold runBody at h
  split at h
  · rename_i hsets
    obtain ⟨w', hterm, heq⟩ := Option.map_eq_some_iff.mp h
    obtain ⟨rfl, rfl⟩ := Prod.mk.inj heq
    obtain ⟨hextends, hcond⟩ := setTerm_extends hterm
    refine ⟨hput.trans (hextends.mono fun s hs => by cases hs; rfl), hcond, rfl, ?_⟩
    obtain ⟨-, rfl⟩ := setTerm_eq hterm
    exact iff_of_true (TranslatedBlock.mem_sources.mpr (.inr rfl)) (.inr (.inr hsets))
  · rename_i hsets
    obtain ⟨rfl, rfl⟩ := Prod.mk.inj (Option.some.inj h)
    refine ⟨hput, rfl, rfl, hmem.trans (or_congr_right ?_)⟩
    simp [Body.Acts, hsets]

theorem runHook_spec {effect : HookEffect} (h : v.runHook effect = some w) :
    Extends (fun _ => False) v w ∧ w.condState = v.condState := by
  have hput : Extends (fun _ => False) v (v.put none effect.instructions) :=
    (v.put_extends none effect.instructions).mono fun s hs => by cases hs
  unfold runHook at h
  split at h
  · obtain ⟨hextends, hcond⟩ := setTerm_extends h
    exact ⟨hput.trans (hextends.mono fun s hs => by cases hs), hcond⟩
  · obtain rfl := Option.some.inj h
    exact ⟨hput, rfl⟩

theorem breakHere_spec {p : Bool} (h : v.breakHere = some (p, w)) :
    Extends (fun _ => False) v w ∧ p = false ∧ w.condState = .break_ := by
  obtain ⟨w', hterm, heq⟩ := Option.map_eq_some_iff.mp h
  obtain ⟨rfl, rfl⟩ := Prod.mk.inj heq
  obtain ⟨hextends, hcond⟩ := setTerm_extends hterm
  exact ⟨(condState_extends _ v .break_).trans (hextends.mono fun s hs => by cases hs), rfl, hcond⟩

theorem startCondition_spec {cond : Cond} {p : Bool} (h : v.startCondition cond = some (p, w))
    (hv : v.condState ≠ .break_) :
    Extends (fun _ => False) v w ∧ (p = false ↔ w.condState = .break_) := by
  unfold startCondition at h
  split at h
  · obtain ⟨rfl, rfl⟩ := Prod.mk.inj (Option.some.inj h)
    exact ⟨.refl _ v, by simp [hv]⟩
  · split at h
    · obtain ⟨hextends, rfl, hcond⟩ := breakHere_spec h
      exact ⟨hextends, by simp [hcond]⟩
    · obtain ⟨rfl, rfl⟩ := Prod.mk.inj (Option.some.inj h)
      exact ⟨.of_sources rfl rfl rfl rfl rfl, by simp⟩

/-- A condition other than `NV` puts nothing into the block for the instruction, and
fails only by ending the block. -/
theorem isConditionPassed_spec {source : Source} {cond : Cond} {p : Bool}
    (h : v.isConditionPassed source cond = some (p, w)) (hcond : cond ≠ .nv) :
    Extends (fun _ => False) v w ∧ (p = false ↔ w.condState = .break_) := by
  unfold isConditionPassed at h
  split at h
  · cases h
  · rename_i hv
    split at h
    · split at h
      · obtain ⟨hextends, hp⟩ := startCondition_spec h (by simp)
        exact ⟨(condState_extends _ v .trailing).trans hextends, hp⟩
      · split at h
        · obtain ⟨rfl, rfl⟩ := Prod.mk.inj (Option.some.inj h)
          exact ⟨.of_sources rfl rfl rfl rfl rfl, by simp [hv]⟩
        · obtain ⟨hextends, rfl, hw⟩ := breakHere_spec h
          exact ⟨hextends, by simp [hw]⟩
    · exact startCondition_spec h hv

/-- The condition `NV` raises an exception and ends the block. -/
theorem isConditionPassed_nv {source : Source} {p : Bool}
    (h : v.isConditionPassed source .nv = some (p, w)) :
    Extends (· = source) v w ∧ p = false ∧ w.condState = .break_ ∧
      w.block.terminal = some (.ofInstruction source) := by
  unfold isConditionPassed at h
  split at h
  · cases h
  · obtain ⟨⟨c, w'⟩, hraise, heq⟩ := Option.map_eq_some_iff.mp h
    obtain ⟨rfl, rfl⟩ := Prod.mk.inj heq
    obtain ⟨hextends, hcond, -, -⟩ := runBody_spec hraise
    refine ⟨(condState_extends _ v .break_).trans hextends, rfl, hcond, ?_⟩
    obtain ⟨w'', hterm, heq⟩ := Option.map_eq_some_iff.mp hraise
    obtain ⟨-, rfl⟩ := Prod.mk.inj heq
    obtain ⟨-, rfl⟩ := setTerm_eq hterm
    rfl

end Visitor

def Handler.testedCond (location : Location) : Handler → Option Cond
  | .vfp handler => if location.tFlag then none else handler.cond
  | .arm handler => handler.cond
  | .plain _ => none

def Handler.body : Handler → Body
  | .vfp handler | .arm handler => handler.body
  | .plain body => body

namespace Visitor

theorem runBody_translated {v w : Visitor} {source : Source} {body : Body} {c : Bool}
    (h : v.runBody source body = some (c, w)) (hv : v.condState ≠ .break_) :
    Extends (· = source) v w ∧ w.condState ≠ .break_ := by
  obtain ⟨hextends, hcond, -, -⟩ := runBody_spec h
  exact ⟨hextends, hcond ▸ hv⟩

theorem runChecked_spec {v w : Visitor} {source : Source} {handler : Checked} {c : Bool}
    (h : v.runChecked source isConditionPassed handler = some (c, w))
    (hv : v.condState ≠ .break_) :
    if handler.cond = some .nv then
      Extends (· = source) v w ∧ w.block.terminal = some (.ofInstruction source) ∧
        w.condState = .break_
    else
      (Extends (fun _ => False) v w ∧ w.condState = .break_) ∨
        (Extends (· = source) v w ∧ w.condState ≠ .break_) := by
  unfold runChecked at h
  cases hcond : handler.cond with
  | none =>
      simp only [hcond] at h
      simpa using Or.inr (runBody_translated h hv)
  | some cond =>
      simp only [hcond] at h
      cases hpassed : v.isConditionPassed source cond with
      | none => simp [hpassed] at h
      | some result =>
          obtain ⟨p, u⟩ := result
          simp only [hpassed] at h
          by_cases hnv : cond = .nv
          · subst hnv
            obtain ⟨hextends, rfl, hbreak, hput⟩ := isConditionPassed_nv hpassed
            obtain ⟨-, rfl⟩ := Prod.mk.inj (Option.some.inj h)
            simpa using ⟨hextends, hput, hbreak⟩
          · obtain ⟨hextends, hp⟩ := isConditionPassed_spec hpassed hnv
            rw [if_neg (by simpa using hnv)]
            cases p with
            | false =>
                obtain ⟨-, rfl⟩ := Prod.mk.inj (Option.some.inj h)
                exact .inl ⟨hextends, hp.mp rfl⟩
            | true =>
                have hu : u.condState ≠ .break_ := fun hbreak => by simpa using hp.mpr hbreak
                obtain ⟨hbody, hw⟩ := runBody_translated h hu
                exact .inr ⟨(hextends.of_none source).trans hbody, hw⟩

theorem runBody_of_untested {v w : Visitor} {source : Source} {handler : Handler} {c : Bool}
    (h : v.runHandler source handler = some (c, w))
    (huntested : handler.testedCond v.currentLocation = none) :
    v.runBody source handler.body = some (c, w) := by
  cases handler with
  | arm handler =>
      rw [runHandler, runChecked, show handler.cond = none from huntested] at h
      exact h
  | plain body => exact h
  | vfp handler =>
      cases hcond : handler.cond with
      | none =>
          rw [runHandler, runChecked, hcond] at h
          exact h
      | some cond =>
          -- In Thumb state the condition is only asserted to be `AL`.
          have ht : v.currentLocation.tFlag = true := by
            simpa [Handler.testedCond, hcond] using huntested
          simp only [runHandler, runChecked, vfpConditionPassed, ht, ↓reduceIte, hcond] at h
          by_cases hal : cond = .al
          · simp only [hal, ↓reduceIte] at h
            exact h
          · simp [hal] at h

theorem runHandler_spec {v w : Visitor} {source : Source} {handler : Handler} {c : Bool}
    (h : v.runHandler source handler = some (c, w)) (hv : v.condState ≠ .break_) :
    if handler.testedCond v.currentLocation = some .nv then
      Extends (· = source) v w ∧ w.block.terminal = some (.ofInstruction source) ∧
        w.condState = .break_
    else
      (Extends (fun _ => False) v w ∧ w.condState = .break_) ∨
        (Extends (· = source) v w ∧ w.condState ≠ .break_) := by
  cases handler with
  | arm handler => exact runChecked_spec h hv
  | plain body => simpa [Handler.testedCond] using Or.inr (runBody_translated h hv)
  | vfp handler =>
      by_cases ht : v.currentLocation.tFlag = true
      · have huntested : (Handler.vfp handler).testedCond v.currentLocation = none := if_pos ht
        rw [huntested, if_neg (by simp)]
        exact .inr (runBody_translated (runBody_of_untested h huntested) hv)
      · rw [Handler.testedCond, if_neg ht]
        have h' : v.runChecked source isConditionPassed handler = some (c, w) := by
          simpa [runHandler, runChecked, vfpConditionPassed, ht] using h
        exact runChecked_spec h' hv

end Visitor

/-! ### Turns -/

namespace Turn

def Halted (v : Visitor) (t : Turn) : Prop :=
  v.Extends (fun _ => False) t.visitor ∧ t.visitor.condState = v.condState ∧ t.again = false

def Ended (source : Source) (size : ℕ) (v : Visitor) (t : Turn) : Prop :=
  (v.look size source.length).Extends (fun _ => False) t.visitor ∧ t.again = false

/-- The instruction was refused for its condition: it has left an exception in the
block, and translation ended before it. -/
def Refused (source : Source) (size : ℕ) (v : Visitor) (t : Turn) : Prop :=
  (v.look size source.length).Extends (· = source) t.visitor ∧
    t.visitor.block.terminal = some (.ofInstruction source) ∧ t.again = false

def Stepped (source : Source) (size : ℕ) (v : Visitor) (t : Turn) : Prop :=
  ∃ w, (v.look size source.length).Extends (· = source) w ∧ w.condState ≠ .break_ ∧
    t.visitor.block.location = w.block.location ∧ t.visitor.block.sources = w.block.sources ∧
    t.visitor.looked = w.looked ∧ t.visitor.condState = w.condState ∧
    t.visitor.currentLocation.tFlag = v.currentLocation.tFlag ∧
    t.visitor.currentLocation.pc = v.currentLocation.pc + BitVec.ofNat 32 size

theorem ended_finish {source : Source} {size : ℕ} {v w : Visitor}
    (hextends : (v.look size source.length).Extends (fun _ => False) w)
    (hbreak : w.condState = .break_) (singleStep c : Bool) (next : Location) (ticks : ℕ) :
    Ended source size v (finish singleStep next ticks c w) := by
  rw [finish, if_pos hbreak]
  exact ⟨hextends, rfl⟩

theorem refused_finish {source : Source} {size : ℕ} {v w : Visitor}
    (hextends : (v.look size source.length).Extends (· = source) w)
    (hterm : w.block.terminal = some (.ofInstruction source)) (hbreak : w.condState = .break_)
    (singleStep c : Bool) (next : Location) (ticks : ℕ) :
    Refused source size v (finish singleStep next ticks c w) := by
  rw [finish, if_pos hbreak]
  exact ⟨hextends, hterm, rfl⟩

theorem stepped_finish {source : Source} {size : ℕ} {v w : Visitor}
    (hextends : (v.look size source.length).Extends (· = source) w)
    (hbreak : w.condState ≠ .break_) (singleStep c : Bool) {next : Location} (ticks : ℕ)
    (hflag : next.tFlag = w.currentLocation.tFlag)
    (hnext : next.pc = w.currentLocation.pc + BitVec.ofNat 32 size) :
    Stepped source size v (finish singleStep next ticks c w) := by
  rw [hextends.current] at hflag hnext
  rw [finish, if_neg hbreak]
  exact ⟨w, hextends, hbreak, rfl, rfl, rfl, rfl, hflag, hnext⟩

end Turn

variable {decoders : Decoders} {tcb : TranslateCallbacks}

def ArmRefuses (decoders : Decoders) (tcb : TranslateCallbacks) (v : Visitor) : Prop :=
  ∃ instruction, tcb.memoryReadCode v.currentLocation.pc = some instruction ∧
    (armHandler decoders v.currentLocation instruction).testedCond v.currentLocation = some .nv

variable {v w u r : Visitor} {t : Turn} {c : Bool} {l : Location}

theorem Visitor.look_extends {allowed : Source → Prop} (h : v.Extends allowed w) (size length : ℕ) :
    (v.look size length).Extends allowed (w.look size length) :=
  { h with size := rfl, looked := congrArg (· + length) h.looked }

def Reads (tcb : TranslateCallbacks) (isThumb : Bool) (v : Visitor) : Prop :=
  (tcb.preCodeReadHook isThumb v.currentLocation.pc v.block).proceeds = true

/-- What a turn can come to: the hook, a refused condition, the end of the block, or a step. -/
theorem armTurn_cases (h : armTurn decoders tcb v = some t) (hv : v.condState ≠ .break_) :
    ¬Reads tcb false v ∧ t.Halted v ∨
      Reads tcb false v ∧
        (ArmRefuses decoders tcb v ∧ t.Refused ⟨v.currentLocation.pc, 4⟩ 4 v ∨
          ¬ArmRefuses decoders tcb v ∧
            (t.Ended ⟨v.currentLocation.pc, 4⟩ 4 v ∨ t.Stepped ⟨v.currentLocation.pc, 4⟩ 4 v)) := by
  unfold armTurn at h
  simp only [Option.bind_eq_bind, Option.bind_eq_some_iff, Option.pure_def] at h
  obtain ⟨v₁, hhook, h⟩ := h
  obtain ⟨hextends₁, hcond₁⟩ := Visitor.runHook_spec hhook
  split at h
  · rename_i hstop
    obtain rfl := Option.some.inj h
    exact .inl ⟨by simp [Reads, hstop], hextends₁, hcond₁, rfl⟩
  · rename_i hproceeds
    refine .inr ⟨by simpa [Reads] using hproceeds, ?_⟩
    have hlook := Visitor.look_extends hextends₁ 4 4
    split at h
    · rename_i instruction hread
      obtain ⟨v₂, hhook₂, h⟩ := Option.bind_eq_some_iff.mp h
      obtain ⟨hextends₂, hcond₂⟩ := Visitor.runHook_spec hhook₂
      obtain ⟨⟨c, w⟩, hhandler, h⟩ := Option.bind_eq_some_iff.mp h
      obtain rfl := Option.some.inj h
      have hv₂ : v₂.condState ≠ .break_ := by
        rw [hcond₂]
        exact hcond₁ ▸ hv
      have hsofar := hlook.trans hextends₂
      have hplace : v₂.currentLocation = v.currentLocation := hsofar.current
      have hspec := Visitor.runHandler_spec hhandler hv₂
      rw [hplace] at hspec
      split at hspec
      · rename_i hnv
        obtain ⟨hextends, hput, hbreak⟩ := hspec
        exact .inl ⟨⟨instruction, hread, hnv⟩, Turn.refused_finish
          ((hsofar.of_none _).trans hextends) hput hbreak _ _ _ _⟩
      · rename_i hnv
        refine .inr ⟨?_, ?_⟩
        · rintro ⟨instruction', hread', hnv'⟩
          obtain rfl := Option.some.inj (hread.symm.trans hread')
          exact hnv hnv'
        · rcases hspec with ⟨hextends, hbreak⟩ | ⟨hextends, hbreak⟩
          · exact .inl (Turn.ended_finish (hsofar.trans hextends) hbreak _ _ _ _)
          · exact .inr (Turn.stepped_finish ((hsofar.of_none _).trans hextends) hbreak _ _ _ rfl rfl)
    · rename_i hread
      obtain ⟨⟨c, w⟩, hraise, h⟩ := Option.bind_eq_some_iff.mp h
      obtain rfl := Option.some.inj h
      obtain ⟨hextends, hbreak⟩ := Visitor.runBody_translated hraise (hcond₁ ▸ hv)
      refine .inr ⟨?_, .inr (Turn.stepped_finish ((hlook.of_none _).trans hextends) hbreak
        _ _ _ rfl rfl)⟩
      rintro ⟨instruction, hread', -⟩
      rw [hread] at hread'
      cases hread'

def ThumbRefuses (tcb : TranslateCallbacks) (v : Visitor) : Prop :=
  (readThumbInstruction tcb v.currentLocation.pc).isRead = true ∧
    isUnconditionalInstruction (readThumbInstruction tcb v.currentLocation.pc) = false ∧
    v.currentLocation.it.cond = .nv

theorem testedCond_thumbHandler {location : Location} (h : location.tFlag = true)
    (instruction : ThumbInstruction) :
    (thumbHandler decoders location instruction).testedCond location = none := by
  unfold thumbHandler thumb32Handler
  repeat' split
  all_goals simp [Handler.testedCond, h]

theorem runThumb_spec {source : Source} {instruction : ThumbInstruction}
    (h : runThumb decoders v source instruction = some (c, w)) (hv : v.condState ≠ .break_)
    (hflag : v.currentLocation.tFlag = true) :
    if isUnconditionalInstruction instruction = false ∧ v.currentLocation.it.cond = .nv then
      v.Extends (· = source) w ∧ w.block.terminal = some (.ofInstruction source) ∧
        w.condState = .break_
    else
      (v.Extends (fun _ => False) w ∧ w.condState = .break_) ∨
        (v.Extends (· = source) w ∧ w.condState ≠ .break_) := by
  have hhandler : ∀ u : Visitor, u.currentLocation = v.currentLocation → u.condState ≠ .break_ →
      u.runHandler source (thumbHandler decoders u.currentLocation instruction) = some (c, w) →
      u.Extends (· = source) w ∧ w.condState ≠ .break_ := by
    intro u hplace hu hrun
    exact Visitor.runBody_translated
      (Visitor.runBody_of_untested hrun (testedCond_thumbHandler (hplace ▸ hflag) _)) hu
  unfold runThumb at h
  split at h
  · rename_i huncond
    rw [if_neg (by simp [huncond])]
    exact .inr (hhandler v rfl hv h)
  · rename_i huncond
    cases hpassed : v.thumbConditionPassed source with
    | none => simp [hpassed] at h
    | some result =>
        obtain ⟨p, u⟩ := result
        simp only [hpassed] at h
        by_cases hnv : v.currentLocation.it.cond = .nv
        · rw [Visitor.thumbConditionPassed, hnv] at hpassed
          obtain ⟨hextends, rfl, hbreak, hput⟩ := Visitor.isConditionPassed_nv hpassed
          obtain ⟨-, rfl⟩ := Prod.mk.inj (Option.some.inj h)
          rw [if_pos ⟨by simpa using huncond, hnv⟩]
          exact ⟨hextends, hput, hbreak⟩
        · obtain ⟨hextends, hp⟩ := Visitor.isConditionPassed_spec hpassed hnv
          rw [if_neg fun hboth => hnv hboth.2]
          cases p with
          | false =>
              obtain ⟨-, rfl⟩ := Prod.mk.inj (Option.some.inj h)
              exact .inl ⟨hextends, hp.mp rfl⟩
          | true =>
              have hu : u.condState ≠ .break_ := fun hbreak => by simpa using hp.mpr hbreak
              obtain ⟨hbody, hw⟩ := hhandler u hextends.current hu h
              exact .inr ⟨(hextends.of_none source).trans hbody, hw⟩

theorem thumbTurn_cases (h : thumbTurn decoders tcb v = some t) (hv : v.condState ≠ .break_)
    (hflag : v.currentLocation.tFlag = true) {instruction : ThumbInstruction}
    (hinstruction : readThumbInstruction tcb v.currentLocation.pc = instruction) :
    ¬Reads tcb true v ∧ t.Halted v ∨
      Reads tcb true v ∧
        (ThumbRefuses tcb v ∧
            t.Refused (thumbSource v.currentLocation.pc instruction) instruction.size v ∨
          ¬ThumbRefuses tcb v ∧
            (t.Ended (thumbSource v.currentLocation.pc instruction) instruction.size v ∨
              t.Stepped (thumbSource v.currentLocation.pc instruction) instruction.size v)) := by
  unfold thumbTurn at h
  simp only [Option.bind_eq_bind, Option.bind_eq_some_iff, Option.pure_def, hinstruction] at h
  obtain ⟨v₁, hhook, h⟩ := h
  obtain ⟨hextends₁, hcond₁⟩ := Visitor.runHook_spec hhook
  split at h
  · rename_i hstop
    obtain rfl := Option.some.inj h
    exact .inl ⟨by simp [Reads, hstop], hextends₁, hcond₁, rfl⟩
  · rename_i hproceeds
    refine .inr ⟨by simpa [Reads] using hproceeds, ?_⟩
    have hlook := Visitor.look_extends hextends₁ instruction.size
      (thumbSource v.currentLocation.pc instruction).length
    split at h
    · rename_i hread
      obtain ⟨v₂, hhook₂, h⟩ := Option.bind_eq_some_iff.mp h
      obtain ⟨hextends₂, hcond₂⟩ := Visitor.runHook_spec hhook₂
      obtain ⟨⟨c, w⟩, hrun, h⟩ := Option.bind_eq_some_iff.mp h
      obtain rfl := Option.some.inj h
      have hv₂ : v₂.condState ≠ .break_ := by
        rw [hcond₂]
        exact hcond₁ ▸ hv
      have hsofar := hlook.trans hextends₂
      have hplace : v₂.currentLocation = v.currentLocation := hsofar.current
      have hspec := runThumb_spec hrun hv₂ (by rw [hplace, hflag])
      rw [hplace] at hspec
      split at hspec
      · rename_i hnv
        obtain ⟨hextends, hput, hbreak⟩ := hspec
        exact .inl ⟨⟨by rw [hinstruction, hread], by rw [hinstruction]; exact hnv.1, hnv.2⟩,
          Turn.refused_finish ((hsofar.of_none _).trans hextends) hput hbreak _ _ _ _⟩
      · rename_i hnv
        refine .inr ⟨?_, ?_⟩
        · rintro ⟨-, huncond, hcond⟩
          exact hnv ⟨by rw [← hinstruction]; exact huncond, hcond⟩
        · rcases hspec with ⟨hextends, hbreak⟩ | ⟨hextends, hbreak⟩
          · exact .inl (Turn.ended_finish (hsofar.trans hextends) hbreak _ _ _ _)
          · have hall := (hsofar.of_none _).trans hextends
            exact .inr (Turn.stepped_finish hall hbreak _ _ _ rfl
              (congrArg (w.currentLocation.pc + BitVec.ofNat 32 ·) hall.size))
    · rename_i hread
      obtain ⟨⟨c, w⟩, hraise, h⟩ := Option.bind_eq_some_iff.mp h
      obtain rfl := Option.some.inj h
      obtain ⟨hextends, hbreak⟩ := Visitor.runBody_translated hraise (hcond₁ ▸ hv)
      have hall := (hlook.of_none _).trans hextends
      refine .inr ⟨?_, .inr (Turn.stepped_finish hall hbreak _ _ _ rfl
        (congrArg (w.currentLocation.pc + BitVec.ofNat 32 ·) hall.size))⟩
      rintro ⟨hread', -⟩
      rw [hinstruction] at hread'
      exact hread hread'

/-! ### Both instruction sets -/

def sourceAt (tcb : TranslateCallbacks) (isThumb : Bool) (v : Visitor) : Source × ℕ :=
  if isThumb then
    let instruction := readThumbInstruction tcb v.currentLocation.pc
    (thumbSource v.currentLocation.pc instruction, instruction.size)
  else (⟨v.currentLocation.pc, 4⟩, 4)

def turnOf (decoders : Decoders) (tcb : TranslateCallbacks) (isThumb : Bool) :
    Visitor → Option Turn :=
  if isThumb then thumbTurn decoders tcb else armTurn decoders tcb

def Refuses (decoders : Decoders) (tcb : TranslateCallbacks) (isThumb : Bool) (v : Visitor) :
    Prop :=
  if isThumb then ThumbRefuses tcb v else ArmRefuses decoders tcb v

theorem translate_eq (fuel : ℕ) (location : Location) :
    translate decoders tcb fuel location =
      translateWith (turnOf decoders tcb location.tFlag) fuel location := by
  unfold translate turnOf
  split <;> rfl

def HooksSilent (tcb : TranslateCallbacks) (isThumb : Bool) (l : Location) : Prop :=
  ∃ v, (Visitor.create l).runHook (tcb.preCodeReadHook isThumb l.pc (.create l)) = some v ∧
    v.block.instructions = [] ∧
    (tcb.preCodeTranslationHook isThumb l.pc v.block).instructions = []

/-- The first Thumb instruction has an effect: it cannot be read, or its condition
does not end the block and its handler emits something or sets the terminal. -/
def ThumbActs (decoders : Decoders) (tcb : TranslateCallbacks) (l : Location) : Prop :=
  let instruction := readThumbInstruction tcb l.pc
  instruction.isRead = false ∨
    (isUnconditionalInstruction instruction = true ∨ l.it.cond = .al ∨ HooksSilent tcb true l) ∧
      (thumbHandler decoders l instruction).body.Acts

theorem Visitor.runBody_first {source : Source} {body : Body}
    (h : v.runBody source body = some (c, w)) (hsources : v.block.sources = []) :
    w.block.sources ≠ [] ↔ body.Acts := by
  obtain ⟨hextends, -, -, hmem⟩ := Visitor.runBody_spec h
  rw [hsources, or_iff_right List.not_mem_nil] at hmem
  refine Iff.trans ⟨fun hne => ?_, List.ne_nil_of_mem⟩ hmem
  obtain ⟨s, hs⟩ := List.exists_mem_of_ne_nil _ hne
  obtain rfl : s = source := (hextends.new s hs).resolve_left (by simp [hsources])
  exact hs

/-- The first instruction acts if its condition does not end the block and its handler
does something. -/
theorem runThumb_first {source : Source} {instruction : ThumbInstruction}
    (h : runThumb decoders v source instruction = some (c, w)) (hv : v.condState = .none)
    (hflag : v.currentLocation.tFlag = true) (hsources : v.block.sources = [])
    (hnv : ¬(isUnconditionalInstruction instruction = false ∧ v.currentLocation.it.cond = .nv)) :
    w.block.sources ≠ [] ↔
      (isUnconditionalInstruction instruction = true ∨ v.currentLocation.it.cond = .al ∨
          v.block.instructions = []) ∧
        (thumbHandler decoders v.currentLocation instruction).body.Acts := by
  have huntested : (thumbHandler decoders v.currentLocation instruction).testedCond
      v.currentLocation = none := testedCond_thumbHandler hflag instruction
  unfold runThumb at h
  split at h
  · rename_i huncond
    rw [Visitor.runBody_first (Visitor.runBody_of_untested h huntested) hsources]
    simp [huncond]
  · rename_i huncond
    have hcond : v.currentLocation.it.cond ≠ .nv := fun hcond => hnv ⟨by simpa using huncond, hcond⟩
    have hstart : v.thumbConditionPassed source = v.startCondition v.currentLocation.it.cond := by
      simp [Visitor.thumbConditionPassed, Visitor.isConditionPassed, hv, hcond]
    rw [hstart] at h
    by_cases hal : v.currentLocation.it.cond = .al
    · simp only [Visitor.startCondition, hal, ↓reduceIte] at h
      rw [Visitor.runBody_first (Visitor.runBody_of_untested h huntested) hsources]
      simp [hal]
    · by_cases hempty : v.block.instructions = []
      · rw [Visitor.startCondition, if_neg hal, if_neg (not_not.mpr hempty)] at h
        rw [Visitor.runBody_first (Visitor.runBody_of_untested h huntested) hsources]
        simp [hempty]
      · simp only [Visitor.startCondition, hal, hempty, ne_eq, not_false_eq_true, ↓reduceIte] at h
        cases hbreak : v.breakHere with
        | none => simp [hbreak] at h
        | some result =>
            obtain ⟨p, u⟩ := result
            obtain ⟨hextends, rfl, -⟩ := Visitor.breakHere_spec hbreak
            simp only [hbreak] at h
            obtain ⟨-, rfl⟩ := Prod.mk.inj (Option.some.inj h)
            refine iff_of_false (fun hne => ?_) (by simp [huncond, hal, hempty])
            obtain ⟨s, hs⟩ := List.exists_mem_of_ne_nil _ hne
            simpa [hsources] using hextends.new s hs

theorem Turn.sources_finish (singleStep c : Bool) (next : Location) (ticks : ℕ) (v : Visitor) :
    (Turn.finish singleStep next ticks c v).visitor.block.sources = v.block.sources := by
  unfold Turn.finish
  split <;> rfl

theorem Visitor.runHook_first {effect : HookEffect} (h : v.runHook effect = some w)
    (hsources : v.block.sources = []) :
    w.block.sources = [] ∧
      (w.block.instructions = [] ↔ v.block.instructions = [] ∧ effect.instructions = []) := by
  obtain ⟨hextends, -⟩ := Visitor.runHook_spec h
  refine ⟨?_, ?_⟩
  · refine List.eq_nil_iff_forall_not_mem.mpr fun s hs => ?_
    simpa [hsources] using hextends.new s hs
  · have hinstructions : w.block.instructions = (v.put none effect.instructions).block.instructions := by
      unfold Visitor.runHook at h
      split at h
      · obtain ⟨-, rfl⟩ := Visitor.setTerm_eq h
        rfl
      · rw [Option.some.inj h]
    rw [hinstructions]
    simp [Visitor.put]

/-- The first Thumb instruction leaves something in the block exactly when it acts. -/
theorem thumbTurn_first (hflag : l.tFlag = true) (h : thumbTurn decoders tcb (.create l) = some t)
    (hreads : Reads tcb true (.create l)) (hrefuses : ¬ThumbRefuses tcb (.create l)) :
    t.visitor.block.sources ≠ [] ↔ ThumbActs decoders tcb l := by
  unfold thumbTurn at h
  simp only [Option.bind_eq_bind, Option.bind_eq_some_iff, Option.pure_def] at h
  obtain ⟨v₁, hhook, h⟩ := h
  obtain ⟨hsources₁, hempty₁⟩ := Visitor.runHook_first hhook rfl
  obtain ⟨hextends₁, hcond₁⟩ := Visitor.runHook_spec hhook
  rw [if_neg (by simpa [Reads] using hreads)] at h
  unfold ThumbActs
  simp only [show (Visitor.create l).currentLocation = l from rfl] at h
  split at h
  · rename_i hread
    obtain ⟨v₂, hhook₂, h⟩ := Option.bind_eq_some_iff.mp h
    obtain ⟨hsources₂, hempty₂⟩ := Visitor.runHook_first hhook₂ hsources₁
    obtain ⟨hextends₂, hcond₂⟩ := Visitor.runHook_spec hhook₂
    obtain ⟨⟨c, w⟩, hrun, h⟩ := Option.bind_eq_some_iff.mp h
    obtain rfl := Option.some.inj h
    have hplace : v₂.currentLocation = l := hextends₂.current.trans hextends₁.current
    have hfirst := runThumb_first hrun (hcond₂.trans hcond₁) (hplace ▸ hflag) hsources₂
      (fun hnv => hrefuses ⟨hread, hnv.1, hplace ▸ hnv.2⟩)
    have hsilent : HooksSilent tcb true l ↔ v₂.block.instructions = [] := by
      rw [hempty₂]
      constructor
      · rintro ⟨u, hu, hrest⟩
        obtain rfl := Option.some.inj (hhook.symm.trans hu)
        exact hrest
      · exact fun hrest => ⟨v₁, hhook, hrest⟩
    rw [Turn.sources_finish, hfirst, hplace, hsilent]
    simp [hread]
  · rename_i hread
    obtain ⟨⟨c, w⟩, hraise, h⟩ := Option.bind_eq_some_iff.mp h
    obtain rfl := Option.some.inj h
    rw [Turn.sources_finish, Visitor.runBody_first hraise hsources₁]
    exact iff_of_true (.inr rfl) (.inl (by simpa using hread))

/-- The three situations in which the instruction at the place leaves something in
the block that the block will not be registered for. -/
def Faulty (decoders : Decoders) (tcb : TranslateCallbacks) (isThumb : Bool) (v : Visitor) : Prop :=
  Reads tcb isThumb v ∧
    -- The second half of a 32-bit Thumb instruction cannot be read.
    (isThumb = true ∧ readThumbInstruction tcb v.currentLocation.pc = .truncated ∨
    -- The condition is `NV`; only at address 0 does the range wrap around to cover it.
    Refuses decoders tcb isThumb v ∧ v.currentLocation.pc ≠ 0#32 ∨
    -- The first Thumb program counter is odd and its instruction not without effect.
    isThumb = true ∧ v.looked = 0 ∧ v.currentLocation.pc.toNat % 2 = 1 ∧
      ThumbActs decoders tcb v.currentLocation)

def Within (l : Location) (n : ℕ) (s : Source) : Prop :=
  ∃ offset, s.first = l.pc + BitVec.ofNat 32 offset ∧ offset + s.length ≤ n

theorem Within.mono {m n : ℕ} {s : Source} (h : Within l m s) (hmn : m ≤ n) :
    Within l n s := by
  obtain ⟨offset, hfirst, hle⟩ := h
  exact ⟨offset, hfirst, Nat.le_trans hle hmn⟩

structure Ready (l : Location) (v : Visitor) : Prop where
  location : v.block.location = l
  condState : v.condState ≠ .break_
  flag : v.currentLocation.tFlag = l.tFlag

/-- The visitor at the head of the loop while no instruction has been faulty. -/
structure Head (l : Location) (v : Visitor) : Prop extends Ready l v where
  pc : v.currentLocation.pc = l.pc + BitVec.ofNat 32 v.looked
  within : ∀ s ∈ v.block.sources, Within l v.looked s
  fresh : v.looked = 0 → v = .create l

@[simp]
theorem create_sources (l : Location) : (Visitor.create l).block.sources = [] := rfl

theorem head_create (l : Location) : Head l (.create l) where
  location := rfl
  condState := by simp [Visitor.create]
  flag := rfl
  pc := by simp [Visitor.create]
  within s hs := by simp at hs
  fresh _ := rfl

theorem turn_cases (hv : Ready l v) (h : turnOf decoders tcb l.tFlag v = some t) :
    ¬Reads tcb l.tFlag v ∧ t.Halted v ∨
      Reads tcb l.tFlag v ∧
        (Refuses decoders tcb l.tFlag v ∧
            t.Refused (sourceAt tcb l.tFlag v).1 (sourceAt tcb l.tFlag v).2 v ∨
          ¬Refuses decoders tcb l.tFlag v ∧
            (t.Ended (sourceAt tcb l.tFlag v).1 (sourceAt tcb l.tFlag v).2 v ∨
              t.Stepped (sourceAt tcb l.tFlag v).1 (sourceAt tcb l.tFlag v).2 v)) := by
  have hflag := hv.flag
  cases hthumb : l.tFlag with
  | false =>
      rw [hthumb] at h
      exact armTurn_cases h hv.condState
  | true =>
      rw [hthumb] at h hflag
      exact thumbTurn_cases h hv.condState hflag rfl

theorem sourceAt_size (tcb : TranslateCallbacks) (isThumb : Bool) (v : Visitor) :
    (isThumb = true ∧ readThumbInstruction tcb v.currentLocation.pc = .truncated ∧
        (sourceAt tcb isThumb v).1.length = 4 ∧ (sourceAt tcb isThumb v).2 = 2) ∨
      ¬(isThumb = true ∧ readThumbInstruction tcb v.currentLocation.pc = .truncated) ∧
        (sourceAt tcb isThumb v).2 = (sourceAt tcb isThumb v).1.length := by
  cases isThumb with
  | false => exact .inr ⟨by simp, rfl⟩
  | true =>
      cases h : readThumbInstruction tcb v.currentLocation.pc with
      | truncated =>
          refine .inl ⟨rfl, rfl, ?_⟩
          simp [sourceAt, h, thumbSource, ThumbInstruction.size, ThumbInstruction.length]
      | _ =>
          refine .inr ⟨by simp, ?_⟩
          simp [sourceAt, h, thumbSource, ThumbInstruction.size, ThumbInstruction.length]

theorem sourceAt_size_le (tcb : TranslateCallbacks) (isThumb : Bool) (v : Visitor) :
    (sourceAt tcb isThumb v).2 ≤ (sourceAt tcb isThumb v).1.length := by
  rcases sourceAt_size tcb isThumb v with ⟨-, -, hlength, hsize⟩ | ⟨-, hsize⟩
  · rw [hlength, hsize]
    decide
  · exact hsize.le

theorem two_le_length (tcb : TranslateCallbacks) (isThumb : Bool) (v : Visitor) :
    2 ≤ (sourceAt tcb isThumb v).1.length := by
  cases isThumb with
  | false => simp [sourceAt]
  | true =>
      cases h : readThumbInstruction tcb v.currentLocation.pc <;>
        simp [sourceAt, h, thumbSource, ThumbInstruction.length]

theorem sourceAt_first (tcb : TranslateCallbacks) (isThumb : Bool) (v : Visitor) :
    (isThumb = true ∧ v.currentLocation.pc.toNat % 2 = 1 ∧
        (sourceAt tcb isThumb v).1.first = v.currentLocation.pc - 1#32) ∨
      ¬(isThumb = true ∧ v.currentLocation.pc.toNat % 2 = 1) ∧
        (sourceAt tcb isThumb v).1.first = v.currentLocation.pc := by
  cases isThumb with
  | false => exact .inr ⟨by simp, rfl⟩
  | true =>
      rcases Nat.mod_two_eq_zero_or_one v.currentLocation.pc.toNat with h | h
      · exact .inr ⟨by simp [h], by simp [sourceAt, thumbSource, h]⟩
      · exact .inl ⟨rfl, h, by simp [sourceAt, thumbSource, h]⟩

theorem toNat_sub_one {pc : BitVec 32} (h : pc ≠ 0#32) : (pc - 1#32).toNat = pc.toNat - 1 := by
  have hpos : 0 < pc.toNat := Nat.pos_of_ne_zero fun hzero => h (BitVec.eq_of_toNat_eq hzero)
  have := pc.isLt
  rw [BitVec.toNat_sub, BitVec.toNat_ofNat]
  omega

theorem le_first_add_one (tcb : TranslateCallbacks) (isThumb : Bool) (v : Visitor) :
    v.currentLocation.pc.toNat ≤ (sourceAt tcb isThumb v).1.first.toNat + 1 := by
  rcases sourceAt_first tcb isThumb v with ⟨-, hodd, hfirst⟩ | ⟨-, hfirst⟩
  · have hpc : v.currentLocation.pc ≠ 0#32 := fun hzero => by simp [hzero] at hodd
    rw [hfirst, toNat_sub_one hpc]
    omega
  · rw [hfirst]
    exact Nat.le_succ _

/-- An instruction that is not one byte short at the start of the block lies behind
what has been looked at so far. -/
theorem within_sourceAt (hv : Head l v)
    (hodd : l.tFlag = true → v.currentLocation.pc.toNat % 2 = 1 → v.looked ≠ 0) :
    Within l (v.looked + (sourceAt tcb l.tFlag v).1.length) (sourceAt tcb l.tFlag v).1 := by
  rcases sourceAt_first tcb l.tFlag v with ⟨hthumb, hpc, hfirst⟩ | ⟨-, hfirst⟩
  · have hpos := Nat.pos_of_ne_zero (hodd hthumb hpc)
    refine ⟨v.looked - 1, ?_, by omega⟩
    rw [hfirst, hv.pc]
    obtain ⟨n, hn⟩ : ∃ n, v.looked = n + 1 := ⟨v.looked - 1, by omega⟩
    rw [hn, Nat.add_sub_cancel, BitVec.ofNat_add, ← BitVec.add_assoc, BitVec.add_sub_cancel]
  · exact ⟨v.looked, by rw [hfirst, hv.pc], Nat.le_refl _⟩

/-- The first Thumb instruction, when it is not refused, leaves something in the block
if and only if it acts. -/
theorem turn_first (hv : Head l v) (hthumb : l.tFlag = true) (hlooked : v.looked = 0)
    (h : turnOf decoders tcb l.tFlag v = some t) (hreads : Reads tcb l.tFlag v)
    (hrefuses : ¬Refuses decoders tcb l.tFlag v) :
    t.visitor.block.sources ≠ [] ↔ ThumbActs decoders tcb v.currentLocation := by
  obtain rfl := hv.fresh hlooked
  rw [hthumb] at h hreads hrefuses
  exact thumbTurn_first hthumb h hreads hrefuses

/-- Where translation ends with everything covered: what is in the block lies before
the place, or the place is address 0 and the range reaches to the top. -/
structure Stopped (l : Location) (v : Visitor) : Prop where
  location : v.block.location = l
  covered : (∃ n ≤ v.taken, v.currentLocation.pc = l.pc + BitVec.ofNat 32 n ∧
      ∀ s ∈ v.block.sources, Within l n s) ∨
    v.currentLocation.pc = 0#32 ∧ ∀ s ∈ v.block.sources, Within l v.taken s

def Uncovered (l : Location) (v : Visitor) : Prop :=
  ∃ s ∈ v.block.sources, ∃ i < s.length, s.first.toNat + i < l.pc.toNat ∨
    (v.currentLocation.pc - 1#32).toNat < s.first.toNat + i

/-- A turn whose instruction is not faulty keeps the invariant of the loop, or ends
with everything covered. -/
theorem turn_sound (hv : Head l v) (h : turnOf decoders tcb l.tFlag v = some t)
    (hfaulty : ¬Faulty decoders tcb l.tFlag v) :
    (t.again = false ∧ Stopped l t.visitor) ∨ Head l t.visitor ∧ Stopped l t.visitor := by
  rcases turn_cases hv.toReady h with ⟨-, hextends, hstate, hagain⟩ | ⟨hreads, hcases⟩
  · refine .inl ⟨hagain, hextends.location.trans hv.location, .inl ⟨v.looked, ?_, ?_, ?_⟩⟩
    · rw [Visitor.taken_eq_looked (hstate ▸ hv.condState), hextends.looked]
    · rw [hextends.current, hv.pc]
    · exact fun s hs => hv.within s ((hextends.new s hs).resolve_right (fun hf => hf))
  rcases hcases with ⟨hrefuses, hextends, hterm, hagain⟩ | ⟨hrefuses, hended | hstepped⟩
  · have hzero : v.currentLocation.pc = 0#32 := by
      by_contra hpc
      exact hfaulty ⟨hreads, .inr (.inl ⟨hrefuses, hpc⟩)⟩
    refine .inl ⟨hagain, hextends.location.trans hv.location, .inr ⟨?_, fun s hs => ?_⟩⟩
    · rw [hextends.current]
      exact hzero
    · have htaken : t.visitor.taken = v.looked + (sourceAt tcb l.tFlag v).1.length :=
        (if_neg (by simp [hterm])).trans hextends.looked
      rw [htaken]
      rcases hextends.new s hs with hold | rfl
      · exact (hv.within s hold).mono (Nat.le_add_right _ _)
      · exact within_sourceAt hv fun _ hodd => by simp [hzero] at hodd
  · obtain ⟨hextends, hagain⟩ := hended
    refine .inl ⟨hagain, hextends.location.trans hv.location, .inl ⟨v.looked, ?_, ?_, ?_⟩⟩
    · have hsize := sourceAt_size_le tcb l.tFlag v
      have hlooked : t.visitor.looked = v.looked + (sourceAt tcb l.tFlag v).1.length :=
        hextends.looked
      have hcurrent : t.visitor.currentInstructionSize = (sourceAt tcb l.tFlag v).2 := hextends.size
      unfold Visitor.taken
      split <;> omega
    · rw [hextends.current]
      exact hv.pc
    · exact fun s hs => hv.within s ((hextends.new s hs).resolve_right (fun hf => hf))
  · obtain ⟨w, hextends, hbreak, hlocation, hsources, hlooked, hstate, hflag, hpc⟩ := hstepped
    have hcount : t.visitor.looked = v.looked + (sourceAt tcb l.tFlag v).1.length :=
      hlooked.trans hextends.looked
    have hplace : t.visitor.currentLocation.pc = l.pc + BitVec.ofNat 32 t.visitor.looked := by
      rcases sourceAt_size tcb l.tFlag v with ⟨hthumb, htruncated, -⟩ | ⟨-, hsize⟩
      · exact (hfaulty ⟨hreads, .inl ⟨hthumb, htruncated⟩⟩).elim
      · rw [hpc, hv.pc, hcount, hsize, BitVec.ofNat_add, BitVec.add_assoc]
    have hwithin : ∀ s ∈ t.visitor.block.sources, Within l t.visitor.looked s := by
      intro s hs
      rw [hcount]
      rcases hextends.new s (hsources ▸ hs) with hold | rfl
      · exact (hv.within s hold).mono (Nat.le_add_right _ _)
      · refine within_sourceAt hv fun hthumb hodd hfirst => hfaulty ?_
        refine ⟨hreads, .inr (.inr ⟨hthumb, hfirst, hodd, ?_⟩)⟩
        exact (turn_first hv hthumb hfirst h hreads hrefuses).mp (List.ne_nil_of_mem hs)
    have hblock := (hlocation.trans hextends.location).trans hv.location
    have htaken := Visitor.taken_eq_looked (v := t.visitor) (hstate ▸ hbreak)
    refine .inr ⟨⟨⟨hblock, hstate ▸ hbreak, hflag.trans hv.flag⟩, hplace, hwithin, fun hzero => ?_⟩,
      hblock, .inl ⟨_, htaken.ge, hplace, hwithin⟩⟩
    have := two_le_length tcb l.tFlag v
    omega

theorem turn_keeps (hv : Ready l v) (h : turnOf decoders tcb l.tFlag v = some t) :
    t.visitor.block.location = l ∧ (∀ s ∈ v.block.sources, s ∈ t.visitor.block.sources) ∧
      (∀ s ∈ t.visitor.block.sources, s ∈ v.block.sources ∨ s = (sourceAt tcb l.tFlag v).1) ∧
      (t.again = true → Ready l t.visitor) := by
  rcases turn_cases hv h with
    ⟨-, hextends, -, hagain⟩ | ⟨-, ⟨-, hextends, -, hagain⟩ | ⟨-, ⟨hextends, hagain⟩ | hstepped⟩⟩
  · exact ⟨hextends.location.trans hv.location, hextends.kept, (hextends.of_none _).new,
      by simp [hagain]⟩
  · exact ⟨hextends.location.trans hv.location, hextends.kept, hextends.new, by simp [hagain]⟩
  · exact ⟨hextends.location.trans hv.location, hextends.kept, (hextends.of_none _).new,
      by simp [hagain]⟩
  · obtain ⟨w, hextends, hbreak, hlocation, hsources, -, hstate, hflag, -⟩ := hstepped
    have hblock := (hlocation.trans hextends.location).trans hv.location
    exact ⟨hblock, fun s hs => hsources ▸ hextends.kept s hs, hsources ▸ hextends.new,
      fun _ => ⟨hblock, hstate ▸ hbreak, hflag.trans hv.flag⟩⟩

/-- A truncated instruction raises an exception and only its first half is stepped
over. -/
theorem thumbTurn_truncated (h : thumbTurn decoders tcb v = some t) (hv : v.condState ≠ .break_)
    (hreads : Reads tcb true v)
    (htruncated : readThumbInstruction tcb v.currentLocation.pc = .truncated) :
    t.again = false ∧ thumbSource v.currentLocation.pc .truncated ∈ t.visitor.block.sources ∧
      t.visitor.taken = v.looked + 4 ∧
      t.visitor.currentLocation.pc = v.currentLocation.pc + 2#32 := by
  unfold thumbTurn at h
  simp only [Option.bind_eq_bind, Option.bind_eq_some_iff, Option.pure_def, htruncated] at h
  obtain ⟨v₁, hhook, h⟩ := h
  obtain ⟨hextends₁, hcond₁⟩ := Visitor.runHook_spec hhook
  rw [if_neg (by simpa [Reads] using hreads)] at h
  simp only [ThumbInstruction.isRead, Bool.false_eq_true, ↓reduceIte] at h
  obtain ⟨⟨c, w⟩, hraise, h⟩ := Option.bind_eq_some_iff.mp h
  obtain rfl := Option.some.inj h
  obtain ⟨hextends, hcond, rfl, hput⟩ := Visitor.runBody_spec hraise
  have hall := ((Visitor.look_extends hextends₁ 2 4).of_none _).trans hextends
  have hbreak : w.condState ≠ .break_ := by
    rw [hcond]
    exact hcond₁ ▸ hv
  rw [Turn.finish, if_neg hbreak]
  refine ⟨rfl, hput.mpr (.inr (.inr rfl)),
    (Visitor.taken_eq_looked (by exact hbreak)).trans hall.looked, ?_⟩
  exact congrArg₂ (fun (place : Location) size => place.pc + BitVec.ofNat 32 size)
    hall.current hall.size

/-- A turn at a faulty instruction leaves a byte uncovered, for good or by ending
there. -/
theorem turn_faulty (hv : Head l v) (h : turnOf decoders tcb l.tFlag v = some t)
    (hfaulty : Faulty decoders tcb l.tFlag v)
    (hwrap : t.again = false → l.pc.toNat + t.visitor.taken ≤ 2 ^ 32) :
    (t.again = false ∧ Uncovered l t.visitor) ∨
      ∃ s ∈ t.visitor.block.sources, 0 < s.length ∧ s.first.toNat < l.pc.toNat := by
  obtain ⟨hreads, ⟨hthumb, htruncated⟩ | ⟨hrefuses, hpc⟩ | ⟨hthumb, hlooked, hodd, hacts⟩⟩ := hfaulty
  · left
    have hfirst := le_first_add_one tcb true v
    simp only [sourceAt, ↓reduceIte, htruncated] at hfirst
    have hpc := congrArg BitVec.toNat hv.pc
    rw [hthumb] at h hreads
    obtain ⟨hagain, hput, htaken, hnext⟩ := thumbTurn_truncated h hv.condState hreads htruncated
    have hbound := hwrap hagain
    refine ⟨hagain, _, hput, 3, Nat.lt_succ_self 3, .inr ?_⟩
    have hend : (t.visitor.currentLocation.pc - 1#32).toNat = v.currentLocation.pc.toNat + 1 := by
      rw [hnext]
      bv_omega
    omega
  · left
    rcases turn_cases hv.toReady h with ⟨hhalted, -⟩ | ⟨-, ⟨-, hextends, hterm, hagain⟩ | ⟨hpasses, -⟩⟩
    · exact (hhalted hreads).elim
    · refine ⟨hagain, _, TranslatedBlock.mem_sources.mpr (.inr hterm), 1, two_le_length tcb l.tFlag v, .inr ?_⟩
      have hpos : 0 < v.currentLocation.pc.toNat :=
        Nat.pos_of_ne_zero fun hzero => hpc (BitVec.eq_of_toNat_eq hzero)
      rw [hextends.current]
      exact (toNat_sub_one hpc).trans_lt
        (Nat.lt_of_lt_of_le (Nat.sub_lt hpos Nat.one_pos) (le_first_add_one tcb l.tFlag v))
    · exact (hpasses hrefuses).elim
  · right
    have hput : (sourceAt tcb l.tFlag v).1 ∈ t.visitor.block.sources := by
      by_cases hrefuses : Refuses decoders tcb l.tFlag v
      · rcases turn_cases hv.toReady h with ⟨hhalted, -⟩ | ⟨-, ⟨-, -, hterm, -⟩ | ⟨hpasses, -⟩⟩
        · exact (hhalted hreads).elim
        · exact TranslatedBlock.mem_sources.mpr (.inr hterm)
        · exact (hpasses hrefuses).elim
      · have hne := (turn_first hv hthumb hlooked h hreads hrefuses).mpr hacts
        obtain ⟨s, hs⟩ := List.exists_mem_of_ne_nil _ hne
        obtain ⟨-, -, hnew, -⟩ := turn_keeps hv.toReady h
        obtain rfl := (hnew s hs).resolve_left (by simp [hv.fresh hlooked, create_sources])
        exact hs
    refine ⟨_, hput, Nat.lt_of_lt_of_le Nat.zero_lt_two (two_le_length tcb l.tFlag v), ?_⟩
    have hplace : v.currentLocation.pc = l.pc := by rw [hv.fresh hlooked]; rfl
    rcases sourceAt_first tcb l.tFlag v with ⟨-, -, hfirst⟩ | ⟨hnot, -⟩
    · rw [hplace] at hodd hfirst
      have hpc : l.pc ≠ 0#32 := fun hzero => by simp [hzero] at hodd
      rw [hfirst, toNat_sub_one hpc]
      omega
    · exact (hnot ⟨hthumb, hodd⟩).elim

/-! ### The loop -/

def headStep (turn : Visitor → Option Turn) (v : Visitor) (_ : Unit) : Option Visitor :=
  (turn v).bind fun t => if t.again then some t.visitor else none

abbrev ComesTo (turn : Visitor → Option Turn) : Visitor → Visitor → Prop :=
  Reaches (headStep turn) always

theorem ComesTo.cases {turn : Visitor → Option Turn} (h : ComesTo turn v u) :
    u = v ∨ ∃ t, turn v = some t ∧ t.again = true ∧ ComesTo turn t.visitor u := by
  rcases Relation.ReflTransGen.cases_head h with rfl | ⟨w, ⟨_, _, hstep⟩, hrest⟩
  · exact .inl rfl
  · obtain ⟨t, ht, hagain⟩ := Option.bind_eq_some_iff.mp hstep
    split at hagain
    · rename_i htrue
      obtain rfl := Option.some.inj hagain
      exact .inr ⟨t, ht, htrue, hrest⟩
    · cases hagain

theorem ComesTo.turn {turn : Visitor → Option Turn} (ht : turn v = some t) (hagain : t.again = true)
    (h : ComesTo turn t.visitor u) :
    ComesTo turn v u :=
  Relation.ReflTransGen.head ⟨(), trivial, by simp [headStep, ht, hagain]⟩ h

theorem translateLoop_cases {turn : Visitor → Option Turn} {fuel : ℕ}
    (h : translateLoop turn (fuel + 1) v = some (c, r)) :
    ∃ t, turn v = some t ∧
      (t.again = false ∧ t.visitor = r ∨
        t.again = true ∧ translateLoop turn fuel t.visitor = some (c, r)) := by
  unfold translateLoop at h
  split at h
  · cases h
  · rename_i t ht
    refine ⟨t, ht, ?_⟩
    split at h
    · rename_i hagain
      exact .inr ⟨hagain, h⟩
    · rename_i hagain
      exact .inl ⟨by simpa using hagain, (Prod.mk.inj (Option.some.inj h)).2⟩

theorem translateLoop_keeps {fuel : ℕ} (hv : Ready l v)
    (h : translateLoop (turnOf decoders tcb l.tFlag) fuel v = some (c, r)) :
    r.block.location = l ∧ ∀ s ∈ v.block.sources, s ∈ r.block.sources := by
  induction fuel generalizing v with
  | zero => cases h
  | succ fuel ih =>
      obtain ⟨t, ht, hcases⟩ := translateLoop_cases h
      obtain ⟨hlocation, hkept, -, hready⟩ := turn_keeps hv ht
      rcases hcases with ⟨-, rfl⟩ | ⟨hagain, hrest⟩
      · exact ⟨hlocation, hkept⟩
      · obtain ⟨hlocation', hkept'⟩ := ih (hready hagain) hrest
        exact ⟨hlocation', fun s hs => hkept' s (hkept s hs)⟩

/-- A loop that comes to no faulty instruction ends with everything covered. -/
theorem translateLoop_sound {fuel : ℕ} (hv : Head l v)
    (h : translateLoop (turnOf decoders tcb l.tFlag) fuel v = some (c, r))
    (hfaulty : ∀ u, ComesTo (turnOf decoders tcb l.tFlag) v u → ¬Faulty decoders tcb l.tFlag u) :
    Stopped l r := by
  induction fuel generalizing v with
  | zero => cases h
  | succ fuel ih =>
      obtain ⟨t, ht, hcases⟩ := translateLoop_cases h
      have hsound := turn_sound hv ht (hfaulty v .refl)
      rcases hcases with ⟨-, rfl⟩ | ⟨hagain, hrest⟩
      · exact hsound.elim And.right And.right
      · have hnext : Head l t.visitor := by
          rcases hsound with ⟨hfalse, -⟩ | ⟨hnext, -⟩
          · exact absurd hagain (by simp [hfalse])
          · exact hnext
        exact ih hnext hrest fun u hu => hfaulty u (.turn ht hagain hu)

/-- A loop that comes to a faulty instruction leaves a byte uncovered. -/
theorem translateLoop_faulty {fuel : ℕ} (hv : Head l v)
    (h : translateLoop (turnOf decoders tcb l.tFlag) fuel v = some (c, r))
    (hwrap : l.pc.toNat + r.taken ≤ 2 ^ 32) (hu : ComesTo (turnOf decoders tcb l.tFlag) v u)
    (hfaulty : Faulty decoders tcb l.tFlag u) : Uncovered l r := by
  induction fuel generalizing v with
  | zero => cases h
  | succ fuel ih =>
      obtain ⟨t, ht, hcases⟩ := translateLoop_cases h
      by_cases hfirst : Faulty decoders tcb l.tFlag v
      · have hbound : t.again = false → l.pc.toNat + t.visitor.taken ≤ 2 ^ 32 := by
          intro hfalse
          rcases hcases with ⟨-, rfl⟩ | ⟨hagain, -⟩
          · exact hwrap
          · exact absurd hagain (by simp [hfalse])
        rcases turn_faulty hv ht hfirst hbound with ⟨hfalse, huncovered⟩ | ⟨s, hs, hpos, hlt⟩
        · rcases hcases with ⟨-, rfl⟩ | ⟨hagain, -⟩
          · exact huncovered
          · exact absurd hagain (by simp [hfalse])
        · -- What lies before the block stays in it.
          refine ⟨s, ?_, 0, hpos, .inl hlt⟩
          rcases hcases with ⟨-, rfl⟩ | ⟨hagain, hrest⟩
          · exact hs
          · obtain ⟨-, -, -, hready⟩ := turn_keeps hv.toReady ht
            exact (translateLoop_keeps (hready hagain) hrest).2 s hs
      · rcases hu.cases with rfl | ⟨t', ht', hagain, hrest⟩
        · exact (hfirst hfaulty).elim
        · obtain rfl := Option.some.inj (ht.symm.trans ht')
          rcases hcases with ⟨hfalse, -⟩ | ⟨-, hloop⟩
          · exact absurd hagain (by simp [hfalse])
          · rcases turn_sound hv ht hfirst with ⟨hfalse, -⟩ | ⟨hnext, -⟩
            · exact absurd hagain (by simp [hfalse])
            · exact ih hnext hloop hrest

/-! ### Whole blocks -/

theorem endTranslation_spec (h : endTranslation c v = some w) :
    w.block.location = v.block.location ∧ w.currentLocation = v.currentLocation ∧
      w.block.sources = v.block.sources ∧ w.taken = v.taken := by
  unfold endTranslation at h
  simp only at h
  split at h
  · rename_i hends
    obtain ⟨hnone, rfl⟩ := Visitor.setTerm_eq h
    refine ⟨rfl, rfl, ?_, ?_⟩
    · simp only [TranslatedBlock.sources, hnone]
      split <;> rename_i hlink
      · split at hlink <;> cases hlink
      · rfl
    · -- The link set here is not the one of a block that was broken off.
      by_cases hbreak : v.condState = .break_
      · have hsingle : v.block.location.singleStepping = true := by simpa [hbreak] using hends.1
        simp [Visitor.taken, hnone, hsingle]
      · exact (Visitor.taken_eq_looked (by exact hbreak)).trans
          (Visitor.taken_eq_looked hbreak).symm
  · obtain rfl := Option.some.inj h
    exact ⟨rfl, rfl, rfl, rfl⟩

theorem translateWith_spec {turn : Visitor → Option Turn} {fuel : ℕ}
    (h : translateWith turn fuel l = some v) :
    ∃ c r, translateLoop turn fuel (.create l) = some (c, r) ∧
      v.block.location = r.block.location ∧ v.block.endLocation = r.currentLocation ∧
      v.block.sources = r.block.sources ∧ v.taken = r.taken := by
  unfold translateWith at h
  simp only [Option.bind_eq_bind, Option.bind_eq_some_iff, Option.pure_def,
    Option.ite_none_left_eq_some, Option.some.injEq] at h
  obtain ⟨⟨c, r⟩, hloop, w, hend, -, rfl⟩ := h
  obtain ⟨hlocation, hcurrent, hsources, htaken⟩ := endTranslation_spec hend
  exact ⟨c, r, hloop, hlocation, hcurrent, hsources, htaken⟩

theorem covered_iff_not_uncovered (hlocation : v.block.location = l)
    (hend : v.block.endLocation = r.currentLocation) (hsources : v.block.sources = r.block.sources) :
    v.block.Covered ↔ ¬Uncovered l r := by
  have hrange : ∀ a, (∃ I ∈ v.block.range, a ∈ I) ↔
      l.pc.toNat ≤ a ∧ a ≤ (r.currentLocation.pc - 1#32).toNat := by
    intro a
    rw [← Interval.mem_closed]
    simp [TranslatedBlock.range, hlocation, hend]
  simp only [TranslatedBlock.Covered, hrange, hsources, Uncovered]
  push Not
  rfl

/-- Where everything lies before the place, or the range reaches to the top, nothing
is uncovered. -/
theorem Stopped.not_uncovered (h : Stopped l r) (hwrap : l.pc.toNat + r.taken ≤ 2 ^ 32) :
    ¬Uncovered l r := by
  rintro ⟨s, hs, i, hi, huncovered⟩
  rcases h.covered with ⟨n, hn, hpc, hwithin⟩ | ⟨hpc, hwithin⟩
  · obtain ⟨offset, hfirst, hle⟩ := hwithin s hs
    rw [hfirst, hpc] at huncovered
    bv_omega
  · obtain ⟨offset, hfirst, hle⟩ := hwithin s hs
    rw [hfirst, hpc] at huncovered
    bv_omega

open Umbra.Backend in
/-- A request that touches an instruction of a covered block takes the block out of the
cache it was emitted into. -/
theorem TranslatedBlock.Covered.get_invalidateCacheRanges {b : TranslatedBlock} (hb : b.Covered)
    {C S : Type} [CodeCache C S] {c c' : C} {emitted : Block S} (hrange : emitted.range = b.range)
    {mode : EmitMode} {p : CodePtr} (hemit : CodeCache.emit c emitted mode = some (p, c'))
    {source : Source} (hsource : source ∈ b.sources) {i : ℕ} (hi : i < source.length)
    {ranges : IntervalSet} (htouches : ranges.Covers (source.first.toNat + i)) :
    CodeCache.get (CodeCache.invalidateCacheRanges c' ranges) emitted.location = none := by
  refine CodeCache.get_invalidateCacheRanges_of_meets htouches ?_
  rw [CodeCache.registered_emit hemit, hrange]
  exact .inr ⟨rfl, hb source hsource i hi⟩

open Umbra.Backend in
/-- A block that does not wrap covers what was translated if and only if translation came
to no faulty instruction; and then a request that touches any byte of an instruction
in it removes the block. -/
theorem translate_covered_iff {fuel : ℕ} {l : Location} {v : Visitor}
    (h : translate decoders tcb fuel l = some v) (hwrap : v.NoWrap) :
    (v.block.Covered ↔
      ∀ u, ComesTo (turnOf decoders tcb l.tFlag) (.create l) u → ¬Faulty decoders tcb l.tFlag u) ∧
    (v.block.Covered → ∀ (C S : Type) [CodeCache C S] (c c' : C) (emitted : Block S)
      (mode : EmitMode) (p : CodePtr), emitted.range = v.block.range →
      CodeCache.emit c emitted mode = some (p, c') →
      ∀ source ∈ v.block.sources, ∀ i < source.length, ∀ ranges : IntervalSet,
        ranges.Covers (source.first.toNat + i) →
        CodeCache.get (CodeCache.invalidateCacheRanges c' ranges) emitted.location = none) := by
  rw [translate_eq] at h
  obtain ⟨c, r, hloop, hlocation, hend, hsources, htaken⟩ := translateWith_spec h
  have hplace := (translateLoop_keeps (head_create l).toReady hloop).1
  have hbound : l.pc.toNat + r.taken ≤ 2 ^ 32 := by
    rw [← htaken, ← hplace, ← hlocation]
    exact hwrap
  refine ⟨?_, fun hcovered C S _ c c' emitted mode p hrange hemit source hsource i hi ranges ht =>
    hcovered.get_invalidateCacheRanges hrange hemit hsource hi ht⟩
  rw [covered_iff_not_uncovered (hlocation.trans hplace) hend hsources]
  constructor
  · exact fun hcovered u hu hfaulty =>
      hcovered (translateLoop_faulty (head_create l) hloop hbound hu hfaulty)
  · exact fun hfaulty => (translateLoop_sound (head_create l) hloop hfaulty).not_uncovered hbound

/-! A data processing instruction with condition `NV` as the first of its block: the
block raises an exception for it and is registered for no address at all. -/

namespace Sample

def decodeAdd (instruction : BitVec 32) : Option (Location → Checked) :=
  if instruction &&& 0x0FE00010#32 = 0x00800000#32 then
    some fun _ => ⟨some (.ofBits (instruction.extractLsb' 28 4)), ⟨[false, false], false, true⟩⟩
  else none

def addDecoders : Decoders where
  decodeVFP _ := none
  decodeASIMD _ := none
  decodeArm := decodeAdd
  decodeThumb16 _ := none
  decodeThumb32 _ := none

def callbacks (address word : BitVec 32) : TranslateCallbacks where
  memoryReadCode pc := if pc = address then some word else none
  preCodeReadHook _ _ _ := ⟨[], false, true⟩
  preCodeTranslationHook _ _ _ := ⟨[], false, true⟩
  getTicksForCode _ _ _ := 1

def location : Location where
  pc := 0x1000#32
  tFlag := false
  eFlag := false
  it := ⟨0#8⟩
  fpscr := 0#32
  singleStepping := false

end Sample

theorem translate_nv_isSome :
    (translate Sample.addDecoders (Sample.callbacks 0x1000#32 0xF0800000#32) 3
      Sample.location).isSome := by
  decide

theorem nv_not_covered :
    ∃ v, translate Sample.addDecoders (Sample.callbacks 0x1000#32 0xF0800000#32) 3 Sample.location
        = some v ∧ v.NoWrap ∧ ¬v.block.Covered := by
  refine ⟨_, (Option.some_get translate_nv_isSome).symm, by unfold Visitor.NoWrap; decide, fun h => ?_⟩
  obtain ⟨I, hI, -⟩ := h ⟨0x1000#32, 4⟩ (by decide) 0 (by decide)
  have hrange : (Option.get _ translate_nv_isSome).block.range = none := by decide
  rw [hrange] at hI
  cases hI

theorem translate_add_isSome :
    (translate Sample.addDecoders (Sample.callbacks 0x1000#32 0xE0800000#32) 3
      Sample.location).isSome := by
  decide

theorem translate_covered_iff_add :
    ((translate Sample.addDecoders (Sample.callbacks 0x1000#32 0xE0800000#32) 3
        Sample.location).get translate_add_isSome).block.Covered ↔
      ∀ u, ComesTo (turnOf Sample.addDecoders (Sample.callbacks 0x1000#32 0xE0800000#32) false)
        (.create Sample.location) u →
        ¬Faulty Sample.addDecoders (Sample.callbacks 0x1000#32 0xE0800000#32) false u :=
  (translate_covered_iff (Option.some_get translate_add_isSome).symm
    (by unfold Visitor.NoWrap; decide)).1

end Umbra.A32
