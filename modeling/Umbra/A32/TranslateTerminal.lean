import Umbra.A32.TranslateCoverage

/-!
The terminal of a translated block.

`SetTerminal` asserts that there is no terminal yet, and both translators assert at
the end that there is one.  A turn of the loop looks at one instruction; what it finds
is put in one form for both instruction sets here, and what the test of a condition
can answer is said once.
-/

namespace Umbra.A32

/-! ### Handlers and hooks that keep to the rules -/

/-- A handler sets the terminal if and only if it ends the block. -/
def Body.Orderly (body : Body) : Prop := body.setsTerm = !body.continues

instance (body : Body) : Decidable body.Orderly := inferInstanceAs (Decidable (_ = _))

/-- What all decoders have in common.  A VFP handler that tests a condition tests the
one in the upper bits of its instruction, and `DecodeVFP` keeps such handlers apart
from those for the upper bits 1111. -/
structure Decoders.Orderly (decoders : Decoders) : Prop where
  vfp : ∀ {instruction handler}, decoders.decodeVFP instruction = some handler →
    ∀ l, (handler l).body.Orderly
  vfpCond : ∀ {instruction handler}, decoders.decodeVFP instruction = some handler →
    ∀ l, (handler l).cond = none ∨
      (handler l).cond = some (.ofBits (instruction.extractLsb' 28 4)) ∧
        instruction.extractLsb' 28 4 ≠ 15#4
  asimd : ∀ {instruction handler}, decoders.decodeASIMD instruction = some handler →
    ∀ l, (handler l).Orderly
  arm : ∀ {instruction handler}, decoders.decodeArm instruction = some handler →
    ∀ l, (handler l).body.Orderly
  thumb16 : ∀ {instruction handler}, decoders.decodeThumb16 instruction = some handler →
    ∀ l, (handler l).Orderly
  thumb32 : ∀ {instruction handler}, decoders.decodeThumb32 instruction = some handler →
    ∀ l, (handler l).Orderly

/-- The hooks emit no IR.  The one that ends translation sets the terminal, as it is
told to. -/
structure TranslateCallbacks.Quiet (tcb : TranslateCallbacks) : Prop where
  read : ∀ isThumb pc block, (tcb.preCodeReadHook isThumb pc block).instructions = [] ∧
    (tcb.preCodeReadHook isThumb pc block).setsTerm =
      !(tcb.preCodeReadHook isThumb pc block).proceeds
  translation : ∀ isThumb pc block,
    (tcb.preCodeTranslationHook isThumb pc block).instructions = [] ∧
      (tcb.preCodeTranslationHook isThumb pc block).setsTerm = false

theorem Handler.orderly_raiseException : Visitor.raiseException.Orderly := rfl

section

variable {decoders : Decoders} {tcb : TranslateCallbacks}

theorem Decoders.Orderly.armHandler (h : decoders.Orderly) (l : Location)
    (instruction : BitVec 32) : (armHandler decoders l instruction).body.Orderly := by
  unfold A32.armHandler
  split
  · exact h.vfp ‹_› l
  · split
    · exact h.asimd ‹_› l
    · split
      · exact h.arm ‹_› l
      · exact Handler.orderly_raiseException

theorem Decoders.Orderly.thumb32Handler (h : decoders.Orderly) (l : Location)
    (instruction : BitVec 32) : (thumb32Handler decoders l instruction).body.Orderly := by
  unfold A32.thumb32Handler
  split
  · exact h.thumb32 ‹_› l
  · exact Handler.orderly_raiseException

theorem Decoders.Orderly.thumbHandler (h : decoders.Orderly) (l : Location)
    (instruction : ThumbInstruction) : (thumbHandler decoders l instruction).body.Orderly := by
  unfold A32.thumbHandler
  split
  · split
    · exact h.thumb16 ‹_› l
    · exact Handler.orderly_raiseException
  · split
    · split
      · exact h.vfp ‹_› l
      · split
        · exact h.asimd ‹_› l
        · exact h.thumb32Handler l _
    · exact h.thumb32Handler l _
  · exact Handler.orderly_raiseException

/-! ### What a turn finds -/

/-- The instruction at a place: the condition that is tested for it, if any, and what
its handler does behind that. -/
structure Encounter where
  source : Source
  size : ℕ
  cond : Option Cond
  body : Body
  ticks : ℕ

variable (decoders tcb) in
def encounter (isThumb : Bool) (l : Location) : Encounter :=
  if isThumb then
    let instruction := readThumbInstruction tcb l.pc
    if instruction.isRead then
      { source := thumbSource l.pc instruction
        size := instruction.size
        cond := if isUnconditionalInstruction instruction then none else some l.it.cond
        body := (thumbHandler decoders l instruction).body
        ticks := tcb.getTicksForCode true l.pc instruction.word }
    else ⟨thumbSource l.pc instruction, instruction.size, none, Visitor.raiseException, 1⟩
  else
    match tcb.memoryReadCode l.pc with
    | some instruction =>
        { source := ⟨l.pc, 4⟩
          size := 4
          cond := (armHandler decoders l instruction).testedCond l
          body := (armHandler decoders l instruction).body
          ticks := tcb.getTicksForCode false l.pc instruction }
    | none => ⟨⟨l.pc, 4⟩, 4, none, Visitor.raiseException, 1⟩

def stepOver (isThumb : Bool) (l : Location) (size : ℕ) : Location :=
  if isThumb then (l.advancePC size).advanceIT else l.advancePC size

def Encounter.turn (e : Encounter) (isThumb : Bool) (v : Visitor) : Option Turn :=
  ((v.look e.size e.source.length).runChecked e.source Visitor.isConditionPassed
    ⟨e.cond, e.body⟩).map fun result =>
      .finish v.block.location.singleStepping (stepOver isThumb v.currentLocation e.size)
        e.ticks result.1 result.2

theorem encounter_orderly (h : decoders.Orderly) (isThumb : Bool) (l : Location) :
    (encounter decoders tcb isThumb l).body.Orderly := by
  unfold encounter
  split
  · simp only
    split
    · exact h.thumbHandler l _
    · exact Handler.orderly_raiseException
  · split
    · exact h.armHandler l _
    · exact Handler.orderly_raiseException

@[simp] theorem Visitor.put_nil (v : Visitor) (source : Option Source) : v.put source [] = v := by
  simp [Visitor.put]

theorem runHook_read (h : tcb.Quiet) (isThumb : Bool) (pc : BitVec 32) (b : TranslatedBlock)
    (v : Visitor) : v.runHook (tcb.preCodeReadHook isThumb pc b) =
      if (tcb.preCodeReadHook isThumb pc b).proceeds then some v else v.setTerm .ofHook := by
  obtain ⟨hinstructions, hterm⟩ := h.read isThumb pc b
  unfold Visitor.runHook
  rw [hinstructions, hterm, Visitor.put_nil]
  cases (tcb.preCodeReadHook isThumb pc b).proceeds <;> rfl

theorem runHook_translation (h : tcb.Quiet) (isThumb : Bool) (pc : BitVec 32)
    (b : TranslatedBlock) (v : Visitor) :
    v.runHook (tcb.preCodeTranslationHook isThumb pc b) = some v := by
  obtain ⟨hinstructions, hterm⟩ := h.translation isThumb pc b
  unfold Visitor.runHook
  rw [hinstructions, hterm, Visitor.put_nil]
  rfl

theorem Visitor.runChecked_place {v w : Visitor} {source : Source} {handler : Checked} {c : Bool}
    (h : v.runChecked source isConditionPassed handler = some (c, w))
    (hv : v.condState ≠ .break_) :
    w.block.location = v.block.location ∧ w.currentLocation = v.currentLocation ∧
      w.currentInstructionSize = v.currentInstructionSize := by
  have hspec := runChecked_spec h hv
  split at hspec
  · exact ⟨hspec.1.location, hspec.1.current, hspec.1.size⟩
  · rcases hspec with ⟨hextends, -⟩ | ⟨hextends, -⟩
    · exact ⟨hextends.location, hextends.current, hextends.size⟩
    · exact ⟨hextends.location, hextends.current, hextends.size⟩

theorem bind_finish {v : Visitor} (hv : v.condState ≠ .break_) (source : Source)
    (handler : Checked) (next : Location → ℕ → Location) (ticks : ℕ) :
    ((v.runChecked source Visitor.isConditionPassed handler).bind fun result =>
      some (Turn.finish result.2.block.location.singleStepping
        (next result.2.currentLocation result.2.currentInstructionSize) ticks
          result.1 result.2)) =
    (v.runChecked source Visitor.isConditionPassed handler).map fun result =>
      Turn.finish v.block.location.singleStepping
        (next v.currentLocation v.currentInstructionSize) ticks result.1 result.2 := by
  cases hrun : v.runChecked source Visitor.isConditionPassed handler with
  | none => rfl
  | some result =>
      obtain ⟨hlocation, hcurrent, hsize⟩ := Visitor.runChecked_place hrun hv
      simp only [Option.bind_some, Option.map_some, hlocation, hcurrent, hsize]

theorem runHandler_arm {v : Visitor} (hflag : v.currentLocation.tFlag = false) (source : Source)
    (handler : Handler) : v.runHandler source handler =
      v.runChecked source Visitor.isConditionPassed
        ⟨handler.testedCond v.currentLocation, handler.body⟩ := by
  cases handler with
  | vfp handler =>
      have hcond : (v.vfpConditionPassed source : Cond → _) = v.isConditionPassed source := by
        funext cond
        simp [Visitor.vfpConditionPassed, hflag]
      simp only [Visitor.runHandler, Visitor.runChecked, Handler.testedCond, Handler.body, hflag,
        Bool.false_eq_true, ↓reduceIte, hcond]
  | arm handler => rfl
  | plain body => rfl

theorem armTurn_eq (hhooks : tcb.Quiet) {v : Visitor} (hv : v.condState ≠ .break_)
    (hflag : v.currentLocation.tFlag = false) :
    armTurn decoders tcb v =
      if (tcb.preCodeReadHook false v.currentLocation.pc v.block).proceeds then
        (encounter decoders tcb false v.currentLocation).turn false v
      else (v.setTerm .ofHook).map (⟨·, false, false⟩) := by
  unfold armTurn
  simp only [runHook_read hhooks, runHook_translation hhooks]
  cases hproceeds : (tcb.preCodeReadHook false v.currentLocation.pc v.block).proceeds with
  | false =>
      simp only [Bool.false_eq_true, ↓reduceIte]
      cases v.setTerm .ofHook <;> rfl
  | true =>
      simp only [↓reduceIte, Option.bind_eq_bind, Option.bind_some, Bool.true_eq_false]
      unfold encounter Encounter.turn
      simp only [Bool.false_eq_true, ↓reduceIte, stepOver]
      cases hread : tcb.memoryReadCode v.currentLocation.pc with
      | some instruction =>
          simp only
          rw [runHandler_arm (by exact hflag)]
          exact bind_finish (v := v.look 4 4) hv _ _ (fun l _ => l.advancePC 4) _
      | none =>
          exact bind_finish (v := v.look 4 4) hv _ ⟨none, Visitor.raiseException⟩
            (fun l _ => l.advancePC 4) 1

/-- The upper bits of a Thumb instruction that may be a VFP instruction are 1110 or
1111. -/
theorem upper_of_maybeVFP {instruction : BitVec 32}
    (h : maybeVFPOrASIMDInstruction instruction = true) :
    instruction.extractLsb' 28 4 = 14#4 ∨ instruction.extractLsb' 28 4 = 15#4 := by
  have hupper : ∀ nibble : BitVec 4, nibble &&& 14#4 = 14#4 ∨ nibble &&& 15#4 = 15#4 →
      nibble = 14#4 ∨ nibble = 15#4 := by decide
  refine hupper _ ?_
  simp only [maybeVFPOrASIMDInstruction, Bool.or_eq_true, decide_eq_true_eq] at h
  refine h.imp (fun h => ?_) fun h => ?_
  · simpa [BitVec.extractLsb'_and] using congrArg (BitVec.extractLsb' 28 4) h
  · simpa [BitVec.extractLsb'_and] using congrArg (BitVec.extractLsb' 28 4) h

/-- In Thumb state no handler tests a condition that can fail. -/
theorem runHandler_thumb (hdecoders : decoders.Orderly) {v : Visitor}
    (hflag : v.currentLocation.tFlag = true) (source : Source) (instruction : ThumbInstruction) :
    v.runHandler source (thumbHandler decoders v.currentLocation instruction) =
      v.runBody source (thumbHandler decoders v.currentLocation instruction).body := by
  have hplain : ∀ instruction, v.runHandler source
      (thumb32Handler decoders v.currentLocation instruction) =
        v.runBody source (thumb32Handler decoders v.currentLocation instruction).body := by
    intro instruction
    unfold thumb32Handler
    split <;> rfl
  unfold thumbHandler
  split
  · split <;> rfl
  · rename_i instruction
    split
    · rename_i hmaybe
      split
      · rename_i handler hdecode
        simp only [Visitor.runHandler, Visitor.runChecked, Handler.body]
        rcases hdecoders.vfpCond hdecode v.currentLocation with hcond | ⟨hcond, hupper⟩
        · rw [hcond]
        · rw [hcond, (upper_of_maybeVFP hmaybe).resolve_right hupper]
          simp [Visitor.vfpConditionPassed, hflag, Cond.ofBits]
      · split
        · rfl
        · exact hplain instruction
    · exact hplain instruction
  · rfl

/-- The test of the IT condition is a checked handler like those of ARM. -/
theorem runThumb_eq (hdecoders : decoders.Orderly) {v : Visitor} (hv : v.condState ≠ .break_)
    (hflag : v.currentLocation.tFlag = true) (source : Source) (instruction : ThumbInstruction) :
    runThumb decoders v source instruction =
      v.runChecked source Visitor.isConditionPassed
        ⟨if isUnconditionalInstruction instruction then none else some v.currentLocation.it.cond,
          (thumbHandler decoders v.currentLocation instruction).body⟩ := by
  unfold runThumb
  split
  · exact runHandler_thumb hdecoders hflag source instruction
  · simp only [Visitor.runChecked, Visitor.thumbConditionPassed]
    cases hpassed : v.isConditionPassed source v.currentLocation.it.cond with
    | none => rfl
    | some result =>
        obtain ⟨passed, w⟩ := result
        cases passed with
        | false => rfl
        | true =>
            -- A condition that passes has not moved the visitor.
            have hplace : w.currentLocation = v.currentLocation := by
              have hrun : v.runChecked source Visitor.isConditionPassed
                  ⟨some v.currentLocation.it.cond, ⟨[], false, true⟩⟩ = some (true, w) := by
                simp [Visitor.runChecked, hpassed, Visitor.runBody]
              exact (Visitor.runChecked_place hrun hv).2.1
            simp only [← hplace]
            exact runHandler_thumb hdecoders (hplace ▸ hflag) source instruction

theorem thumbTurn_eq (hhooks : tcb.Quiet) (hdecoders : decoders.Orderly) {v : Visitor}
    (hv : v.condState ≠ .break_) (hflag : v.currentLocation.tFlag = true) :
    thumbTurn decoders tcb v =
      if (tcb.preCodeReadHook true v.currentLocation.pc v.block).proceeds then
        (encounter decoders tcb true v.currentLocation).turn true v
      else (v.setTerm .ofHook).map (⟨·, false, false⟩) := by
  unfold thumbTurn
  simp only [runHook_read hhooks, runHook_translation hhooks]
  cases hproceeds : (tcb.preCodeReadHook true v.currentLocation.pc v.block).proceeds with
  | false =>
      simp only [Bool.false_eq_true, ↓reduceIte]
      cases v.setTerm .ofHook <;> rfl
  | true =>
      simp only [↓reduceIte, Option.bind_eq_bind, Option.bind_some, Bool.true_eq_false]
      unfold encounter Encounter.turn
      simp only [↓reduceIte, stepOver]
      split
      · rw [runThumb_eq hdecoders (v := v.look _ _) hv hflag]
        exact bind_finish (v := v.look _ _) hv _ _ (fun l size => (l.advancePC size).advanceIT) _
      · exact bind_finish (v := v.look _ _) hv _ ⟨none, Visitor.raiseException⟩
          (fun l size => (l.advancePC size).advanceIT) 1

theorem turnOf_eq (hhooks : tcb.Quiet) (hdecoders : decoders.Orderly) {isThumb : Bool}
    {v : Visitor} (hv : v.condState ≠ .break_) (hflag : v.currentLocation.tFlag = isThumb) :
    turnOf decoders tcb isThumb v =
      if (tcb.preCodeReadHook isThumb v.currentLocation.pc v.block).proceeds then
        (encounter decoders tcb isThumb v.currentLocation).turn isThumb v
      else (v.setTerm .ofHook).map (⟨·, false, false⟩) := by
  cases isThumb with
  | false => exact armTurn_eq hhooks hv hflag
  | true => exact thumbTurn_eq hhooks hdecoders hv hflag

end

/-! ### What the test of a condition can answer -/

namespace Visitor

def broken (v : Visitor) : Visitor :=
  { v with
    condState := .break_
    block := { v.block with terminal := some (.linkBlockFast v.currentLocation) } }

def refused (v : Visitor) (source : Source) : Visitor :=
  { v.put (some source) raiseException.instructions with
    condState := .break_
    block := { (v.put (some source) raiseException.instructions).block with
      terminal := some (.ofInstruction source) } }

/-- The answers of `IsConditionPassed` while the block has no terminal. -/
inductive Verdict (v : Visitor) (source : Source) : Cond → Bool → Visitor → Prop
  | refused : Verdict v source .nv false (v.refused source)
  | broken {cond : Cond} (hal : cond ≠ .al) (hnv : cond ≠ .nv)
      (hwhy : v.condState = .translating ∨ v.block.instructions ≠ []) :
      Verdict v source cond false v.broken
  | always : Verdict v source .al true
      { v with condState := if v.condState = .translating then .trailing else v.condState }
  | extended {cond : Cond} (hal : cond ≠ .al) (hnv : cond ≠ .nv)
      (hstate : v.condState = .translating)
      (hplace : v.block.conditionFailedLocation = some v.currentLocation)
      (hcond : cond = v.block.condition) : Verdict v source cond true
        { v with block := { v.block with
          conditionFailedLocation := some v.nextLocation
          conditionFailedCycleCount := v.block.conditionFailedCycleCount + 1 } }
  | started {cond : Cond} (hal : cond ≠ .al) (hnv : cond ≠ .nv)
      (hempty : v.block.instructions = []) :
      Verdict v source cond true
        { v with
          condState := .translating
          block := { v.block with
            condition := cond
            conditionFailedLocation := some v.nextLocation
            conditionFailedCycleCount := v.block.cycleCount + 1 } }

variable {v : Visitor}

theorem startCondition_verdict (source : Source) {cond : Cond} (hnv : cond ≠ .nv)
    (hterm : v.block.terminal = none) (state : ConditionalState)
    (hstate : state = if v.condState = .translating then .trailing else v.condState) :
    ∃ passed w, startCondition { v with condState := state } cond = some (passed, w) ∧
      Verdict v source cond passed w := by
  unfold startCondition
  split
  · rename_i hal
    subst hal
    exact ⟨_, _, rfl, hstate ▸ .always⟩
  · rename_i hal
    simp only
    split
    · rename_i hne
      refine ⟨_, _, ?_, .broken hal hnv (.inr hne)⟩
      simp [breakHere, setTerm, hterm, broken]
    · rename_i hempty
      exact ⟨_, _, rfl, .started hal hnv (not_not.mp hempty)⟩

theorem isConditionPassed_verdict (source : Source) (cond : Cond) (hv : v.condState ≠ .break_)
    (hterm : v.block.terminal = none) :
    ∃ passed w, v.isConditionPassed source cond = some (passed, w) ∧
      Verdict v source cond passed w := by
  unfold isConditionPassed
  rw [if_neg hv]
  split
  · rename_i hnv
    subst hnv
    refine ⟨false, v.refused source, ?_, .refused⟩
    simp [runBody, raiseException, setTerm, put, hterm, refused]
  · rename_i hnv
    split
    · rename_i hstate
      split
      · exact startCondition_verdict source hnv hterm .trailing (if_pos hstate).symm
      · rename_i hplace
        obtain ⟨hplace, hal⟩ := not_or.mp hplace
        split
        · exact ⟨_, _, rfl, .extended hal hnv hstate (not_not.mp hplace) ‹_›⟩
        · refine ⟨_, _, ?_, .broken hal hnv (.inl hstate)⟩
          simp [breakHere, setTerm, hterm, broken]
    · rename_i hstate
      exact startCondition_verdict source hnv hterm v.condState (if_neg hstate).symm

theorem runBody_eq (source : Source) (body : Body) (hterm : v.block.terminal = none) :
    v.runBody source body = some (body.continues,
      if body.setsTerm then { v.put (some source) body.instructions with
        block := { (v.put (some source) body.instructions).block with
          terminal := some (.ofInstruction source) } }
      else v.put (some source) body.instructions) := by
  have hput : (v.put (some source) body.instructions).block.terminal = none := hterm
  unfold runBody
  simp only [setTerm, hput, Option.isSome_none, Bool.false_eq_true, ↓reduceIte, Option.map_some]
  split <;> rfl

/-- What comes of an instruction while the block has no terminal: its condition ends the
block, or it is put into the block behind a test that has passed. -/
theorem runChecked_cases (source : Source) (cond : Option Cond) (body : Body)
    (hv : v.condState ≠ .break_) (hterm : v.block.terminal = none) :
    (∃ c w, cond = some c ∧ Verdict v source c false w ∧
      v.runChecked source isConditionPassed ⟨cond, body⟩ = some (true, w)) ∨
    ∃ w, (cond = none ∧ w = v ∨ ∃ c, cond = some c ∧ Verdict v source c true w) ∧
      w.block.terminal = none ∧ w.condState ≠ .break_ ∧
      v.runChecked source isConditionPassed ⟨cond, body⟩ = w.runBody source body := by
  cases cond with
  | none => exact .inr ⟨v, .inl ⟨rfl, rfl⟩, hterm, hv, rfl⟩
  | some c =>
      obtain ⟨passed, w, hpassed, hverdict⟩ := isConditionPassed_verdict source c hv hterm
      cases passed with
      | false => exact .inl ⟨c, w, rfl, hverdict, by simp [runChecked, hpassed]⟩
      | true =>
          refine .inr ⟨w, .inr ⟨c, rfl, hverdict⟩, ?_, ?_, by simp [runChecked, hpassed]⟩
          · cases hverdict <;> exact hterm
          · cases hverdict with
            | always =>
                simp only
                split
                · decide
                · exact hv
            | extended => exact hv
            | started => rintro ⟨⟩

end Visitor

/-! ### Every turn -/

/-- The end of the block after the loop passes both assertions. -/
def Settles (t : Turn) : Prop :=
  ∃ w, endTranslation t.shouldContinue t.visitor = some w ∧ w.block.terminal ≠ none

/-- A turn of a loop without a terminal.  If there is another, there is still none; if
there is not, the block gets its terminal unless it has been single stepped and its
only instruction was not put into it. -/
structure Proper (v : Visitor) (t : Turn) : Prop where
  single : v.block.location.singleStepping = true → t.again = false
  head : t.again = true → t.visitor.condState ≠ .break_ ∧ t.visitor.block.terminal = none
  last : t.again = false →
    (Settles t ↔ ¬(v.block.location.singleStepping = true ∧ t.visitor.condState = .break_))

theorem Turn.condState_finish (singleStep c : Bool) (next : Location) (ticks : ℕ) (v : Visitor) :
    (Turn.finish singleStep next ticks c v).visitor.condState = v.condState := by
  unfold Turn.finish
  split <;> rfl

theorem proper_of_break {v w : Visitor} (hlocation : w.block.location = v.block.location)
    (hbreak : w.condState = .break_) (hterm : w.block.terminal ≠ none) (next : Location)
    (ticks : ℕ) : Proper v (.finish v.block.location.singleStepping next ticks true w) := by
  rw [Turn.finish, if_pos hbreak]
  refine ⟨fun _ => rfl, by rintro ⟨⟩, fun _ => ?_⟩
  simp only [Settles, endTranslation, hbreak, hlocation, and_true]
  cases hstep : v.block.location.singleStepping with
  | false => simpa using hterm
  | true => simp [Visitor.setTerm, Option.isSome_iff_ne_none.mpr hterm]

theorem proper_of_body {v w : Visitor} {continues : Bool}
    (hlocation : w.block.location = v.block.location) (hstate : w.condState ≠ .break_)
    (hterm : w.block.terminal = none ↔ continues = true) (next : Location) (ticks : ℕ) :
    Proper v (.finish v.block.location.singleStepping next ticks continues w) := by
  rw [Turn.finish, if_neg hstate]
  refine ⟨fun hstep => by simp [hstep], fun hagain => ⟨hstate, ?_⟩, fun hlast => ?_⟩
  · simp only [Bool.and_eq_true] at hagain
    exact hterm.mpr hagain.1.1
  · refine iff_of_true ?_ fun h => hstate h.2
    cases continues with
    | false =>
        have hset : w.block.terminal ≠ none := fun h => Bool.false_ne_true (hterm.mp h)
        unfold Settles
        simp only [endTranslation, Bool.false_eq_true, and_false, ↓reduceIte]
        exact ⟨_, rfl, hset⟩
    | true =>
        have hnone := hterm.mpr rfl
        -- The loop has not ended for nothing.
        have hdue : w.condState = .translating ∨ w.condState = .trailing ∨
            v.block.location.singleStepping = true := by
          cases hcond : w.condState with
          | none =>
              right; right
              simpa [Visitor.condCanContinue, hcond] using hlast
          | break_ => exact absurd hcond hstate
          | translating => exact .inl rfl
          | trailing => exact .inr (.inl rfl)
        simp only [Settles, endTranslation, hlocation, hdue, and_self, ↓reduceIte, Visitor.setTerm,
          hnone, Option.isSome_none, Bool.false_eq_true]
        exact ⟨_, rfl, by simp⟩

/-- With an orderly handler no turn sets a terminal twice or ends without one. -/
theorem Encounter.turn_proper {e : Encounter} (he : e.body.Orderly) (isThumb : Bool)
    {v : Visitor} (hv : v.condState ≠ .break_) (hterm : v.block.terminal = none) :
    ∃ t, e.turn isThumb v = some t ∧ Proper v t ∧
      (e.cond = some .nv → t.visitor.condState = .break_) ∧
      (t.visitor.condState = .break_ → e.cond = some .nv ∨ v.condState = .translating ∨
        v.block.instructions ≠ []) := by
  obtain ⟨source, size, cond, body, ticks⟩ := e
  have hlook : (v.look size source.length).block.terminal = none := hterm
  unfold Encounter.turn
  simp only
  rcases Visitor.runChecked_cases (v := v.look size source.length) source cond body hv hlook with
    ⟨c, w, rfl, hverdict, hrun⟩ | ⟨w, hpassed, hnone, hstate, hrun⟩
  · rw [hrun]
    obtain ⟨hlocation, hbreak, hset⟩ : w.block.location = v.block.location ∧
        w.condState = .break_ ∧ w.block.terminal ≠ none := by
      cases hverdict with
      | refused => exact ⟨rfl, rfl, nofun⟩
      | broken => exact ⟨rfl, rfl, nofun⟩
    refine ⟨_, rfl, proper_of_break hlocation hbreak hset _ _,
      fun _ => (Turn.condState_finish _ _ _ _ _).trans hbreak, fun _ => ?_⟩
    · cases hverdict with
      | refused => exact .inl rfl
      | broken _ _ hwhy => exact .inr hwhy
  · rw [hrun, Visitor.runBody_eq source body hnone]
    obtain ⟨w', hw'⟩ : ∃ w', w' = if body.setsTerm then
        { w.put (some source) body.instructions with
          block := { (w.put (some source) body.instructions).block with
            terminal := some (.ofInstruction source) } }
        else w.put (some source) body.instructions := ⟨_, rfl⟩
    rw [← hw']
    have hstate' : w'.condState ≠ .break_ := by
      rw [hw']
      split <;> exact hstate
    have hlocation : w'.block.location = v.block.location := by
      have hw : w.block.location = v.block.location := by
        rcases hpassed with ⟨-, rfl⟩ | ⟨c, -, hverdict⟩
        · rfl
        · cases hverdict <;> rfl
      rw [hw', ← hw]
      split <;> rfl
    have hterm' : w'.block.terminal = none ↔ body.continues = true := by
      have horderly : body.setsTerm = !body.continues := he
      rw [hw', horderly]
      cases body.continues with
      | false => simp
      | true => exact iff_of_true hnone rfl
    refine ⟨_, rfl, proper_of_body hlocation hstate' hterm' _ _, fun hnv => ?_, fun hbreak => ?_⟩
    · rcases hpassed with ⟨hnone, -⟩ | ⟨c, hc, hverdict⟩
      · cases hnone.symm.trans hnv
      · obtain rfl := Option.some.inj (hc.symm.trans hnv)
        cases hverdict with
        | extended _ hnv => exact absurd rfl hnv
        | started _ hnv => exact absurd rfl hnv
    · exact absurd ((Turn.condState_finish _ _ _ _ _).symm.trans hbreak) hstate'

variable {decoders : Decoders} {tcb : TranslateCallbacks}

theorem refuses_iff {isThumb : Bool} {v : Visitor} : Refuses decoders tcb isThumb v ↔
    (encounter decoders tcb isThumb v.currentLocation).cond = some .nv := by
  unfold Refuses encounter
  cases isThumb with
  | true =>
      simp only [ThumbRefuses, ↓reduceIte]
      split
      · rename_i hread
        cases hun : isUnconditionalInstruction (readThumbInstruction tcb v.currentLocation.pc) <;>
          simp [hread]
      · rename_i hread
        simp [hread]
  | false =>
      simp only [ArmRefuses, Bool.false_eq_true, ↓reduceIte]
      cases tcb.memoryReadCode v.currentLocation.pc <;> simp

theorem turn_proper (hdecoders : decoders.Orderly) (hhooks : tcb.Quiet) {isThumb : Bool}
    {v : Visitor} (hv : v.condState ≠ .break_) (hflag : v.currentLocation.tFlag = isThumb)
    (hterm : v.block.terminal = none) :
    ∃ t, turnOf decoders tcb isThumb v = some t ∧ Proper v t ∧
      (Reads tcb isThumb v → Refuses decoders tcb isThumb v → t.visitor.condState = .break_) ∧
      (t.visitor.condState = .break_ → Reads tcb isThumb v ∧ Refuses decoders tcb isThumb v ∨
        v.condState = .translating ∨ v.block.instructions ≠ []) := by
  rw [turnOf_eq hhooks hdecoders hv hflag]
  by_cases hreads : (tcb.preCodeReadHook isThumb v.currentLocation.pc v.block).proceeds = true
  · rw [if_pos hreads]
    obtain ⟨t, ht, hproper, hnv, hbreak⟩ :=
      (encounter decoders tcb isThumb v.currentLocation).turn_proper
        (encounter_orderly hdecoders isThumb _) isThumb hv hterm
    exact ⟨t, ht, hproper, fun _ h => hnv (refuses_iff.mp h),
      fun h => (hbreak h).imp_left fun h => ⟨hreads, refuses_iff.mpr h⟩⟩
  · rw [if_neg hreads]
    simp only [Visitor.setTerm, hterm, Option.isSome_none, Bool.false_eq_true, ↓reduceIte]
    refine ⟨_, rfl, ⟨fun _ => rfl, nofun, fun _ => iff_of_true ?_ fun h => hv h.2⟩,
      fun h => absurd h hreads, fun h => absurd h hv⟩
    simp [Settles, endTranslation]

/-! ### The loop -/

def goesOn (turn : Visitor → Option Turn) : ℕ → Visitor → Bool
  | 0, _ => true
  | fuel + 1, v =>
      match turn v with
      | none => false
      | some t => t.again && goesOn turn fuel t.visitor

/-- Without single stepping every loop that ends passes both assertions. -/
theorem translateLoop_settles (hdecoders : decoders.Orderly) (hhooks : tcb.Quiet) {l : Location}
    (hstep : l.singleStepping = false) {fuel : ℕ} {v : Visitor} (hv : Ready l v)
    (hterm : v.block.terminal = none) :
    goesOn (turnOf decoders tcb l.tFlag) fuel v = true ∨
      ∃ t : Turn, translateLoop (turnOf decoders tcb l.tFlag) fuel v =
        some (t.shouldContinue, t.visitor) ∧ Settles t := by
  induction fuel generalizing v with
  | zero => exact .inl rfl
  | succ fuel ih =>
      obtain ⟨t, ht, hproper, -⟩ := turn_proper hdecoders hhooks hv.condState hv.flag hterm
      simp only [goesOn, translateLoop, ht]
      cases hagain : t.again with
      | true =>
          obtain ⟨-, -, -, hready⟩ := turn_keeps hv ht
          simpa using ih (hready hagain) (hproper.head hagain).2
      | false =>
          refine .inr ⟨t, rfl, (hproper.last hagain).mpr fun h => ?_⟩
          rw [hv.location, hstep] at h
          exact Bool.false_ne_true h.1

theorem translate_isSome_iff {fuel : ℕ} {l : Location} {t : Turn}
    (h : translateLoop (turnOf decoders tcb l.tFlag) fuel (.create l) =
      some (t.shouldContinue, t.visitor)) :
    (translate decoders tcb fuel l).isSome ↔ Settles t := by
  rw [translate_eq]
  unfold translateWith Settles
  rw [h]
  simp only [Option.bind_eq_bind, Option.bind_some]
  cases endTranslation t.shouldContinue t.visitor with
  | none => simp
  | some w => cases hterm : w.block.terminal <;> simp [hterm]

/-- Translation passes both assertions for every memory content, unless it is single
stepping at an instruction whose condition is `NV`. -/
theorem translate_terminal_iff (hdecoders : decoders.Orderly) (hhooks : tcb.Quiet)
    (l : Location) :
    (∀ fuel, goesOn (turnOf decoders tcb l.tFlag) fuel (.create l) = true ∨
        (translate decoders tcb fuel l).isSome) ↔
      ¬(l.singleStepping = true ∧ Reads tcb l.tFlag (.create l) ∧
        Refuses decoders tcb l.tFlag (.create l)) := by
  cases hstep : l.singleStepping with
  | false =>
      refine iff_of_true (fun fuel => ?_) fun h => Bool.false_ne_true h.1
      refine (translateLoop_settles hdecoders hhooks hstep (head_create l).toReady rfl).imp_right ?_
      rintro ⟨t, hloop, hsettles⟩
      exact (translate_isSome_iff hloop).mpr hsettles
  | true =>
      obtain ⟨t, ht, hproper, hrefuses, hbreak⟩ :=
        @turn_proper decoders tcb hdecoders hhooks l.tFlag (.create l) (head_create l).condState
          rfl rfl
      have hlast : t.again = false := hproper.single hstep
      have hloop : ∀ fuel, translateLoop (turnOf decoders tcb l.tFlag) (fuel + 1) (.create l) =
          some (t.shouldContinue, t.visitor) := by
        intro fuel
        simp [translateLoop, ht, hlast]
      have hends : ∀ fuel, goesOn (turnOf decoders tcb l.tFlag) (fuel + 1) (.create l) = false := by
        intro fuel
        simp [goesOn, ht, hlast]
      have hsettles : Settles t ↔ t.visitor.condState ≠ .break_ := by
        refine (hproper.last hlast).trans (not_congr (and_iff_right ?_))
        exact hstep
      have hwhy : t.visitor.condState = .break_ ↔
          Reads tcb l.tFlag (.create l) ∧ Refuses decoders tcb l.tFlag (.create l) := by
        refine ⟨fun h => (hbreak h).resolve_right ?_, fun h => hrefuses h.1 h.2⟩
        simp [Visitor.create, TranslatedBlock.create]
      rw [and_iff_right rfl, ← hwhy]
      constructor
      · intro h
        have := (h 1).resolve_left (by rw [hends 0]; exact Bool.false_ne_true)
        exact hsettles.mp ((translate_isSome_iff (hloop 0)).mp this)
      · intro h fuel
        cases fuel with
        | zero => exact .inl rfl
        | succ fuel => exact .inr ((translate_isSome_iff (hloop fuel)).mpr (hsettles.mpr h))

/-! Single stepping an addition, with the conditions `AL` and `NV`. -/

theorem Sample.addDecoders_orderly : Sample.addDecoders.Orderly where
  vfp h := by cases h
  vfpCond h := by cases h
  asimd h := by cases h
  arm {instruction handler} h l := by
    have h : Sample.decodeAdd instruction = some handler := h
    unfold Sample.decodeAdd at h
    split at h
    · obtain rfl := Option.some.inj h
      rfl
    · cases h
  thumb16 h := by cases h
  thumb32 h := by cases h

theorem Sample.callbacks_quiet (address word : BitVec 32) :
    (Sample.callbacks address word).Quiet :=
  ⟨fun _ _ _ => ⟨rfl, rfl⟩, fun _ _ _ => ⟨rfl, rfl⟩⟩

def Sample.steppedLocation : Location := { Sample.location with singleStepping := true }

theorem translate_terminal_stepped :
    (translate Sample.addDecoders (Sample.callbacks 0x1000#32 0xE0800000#32) 1
      Sample.steppedLocation).isSome := by
  refine ((translate_terminal_iff Sample.addDecoders_orderly (Sample.callbacks_quiet _ _)
    Sample.steppedLocation).mpr ?_ 1).resolve_left (by decide)
  rintro ⟨-, -, instruction, hread, hcond⟩
  obtain rfl : 0xE0800000#32 = instruction := Option.some.inj hread
  exact absurd hcond (by decide)

/-- The exception is in the block and its terminal set, but the handler has said to go
on, so a second terminal is due after the loop. -/
theorem stepped_nv_sets_terminal_twice : ∃ v,
    translateLoop (turnOf Sample.addDecoders (Sample.callbacks 0x1000#32 0xF0800000#32) false) 1
        (.create Sample.steppedLocation) = some (true, v) ∧
      v.block.terminal.isSome ∧ endTranslation true v = none ∧
      ∀ fuel, goesOn (turnOf Sample.addDecoders (Sample.callbacks 0x1000#32 0xF0800000#32) false)
          (fuel + 1) (.create Sample.steppedLocation) = false ∧
        translate Sample.addDecoders (Sample.callbacks 0x1000#32 0xF0800000#32) (fuel + 1)
          Sample.steppedLocation = none :=
  ⟨_, rfl, rfl, rfl, fun _ => ⟨rfl, rfl⟩⟩

end Umbra.A32
