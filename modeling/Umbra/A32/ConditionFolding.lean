import Umbra.A32.TranslateTerminal

/-!
Conditional folding.

A run of instructions with the same condition is translated into one block that tests
the condition once, on entry.  The reference executes the instructions one by one, each
under its own condition; a block is right if it does in one go what the reference does
in some number of instructions.  Nothing is assumed about what instructions do, except
that IR which does not write to the CPSR leaves the conditions as they are.
-/

namespace Umbra.A32

@[simp] theorem stepOver_tFlag (isThumb : Bool) (l : Location) (size : ℕ) :
    (stepOver isThumb l size).tFlag = l.tFlag := by
  unfold stepOver
  split <;> rfl

/-! ### One instruction after the other -/

/-- A guest machine, by its conditions: which of them hold after a list of IR
instructions has been executed. -/
structure Machine where
  holds : Cond → List Inst → Bool
  holds_al : ∀ executed, holds .al executed = true
  keeps : ∀ cond executed inst, inst.writesToCPSR = false →
    holds cond (executed ++ [inst]) = holds cond executed

inductive Position
  | at_ (l : Location)
  /-- An instruction has left through the terminal it sets. -/
  | left (source : Source)
deriving DecidableEq

namespace Machine

variable (m : Machine)

variable {executed executed' : List Inst}

theorem holds_append {cond : Cond} {insts : List Inst}
    (h : ∀ inst ∈ insts, inst.writesToCPSR = false) :
    m.holds cond (executed ++ insts) = m.holds cond executed := by
  induction insts generalizing executed with
  | nil => rw [List.append_nil]
  | cons inst insts ih =>
      rw [List.forall_mem_cons] at h
      rw [List.append_cons, ih h.2, m.keeps cond executed inst h.1]

def act (e : Encounter) (next : Location) (body : Body) (executed : List Inst) :
    Position × List Inst :=
  (if body.setsTerm then .left e.source else .at_ next,
    executed ++ body.instructions.map fun flag => ⟨flag, some e.source⟩)

/-- One instruction, under its condition.  The condition `NV` is an exception. -/
def execute (e : Encounter) (next : Location) (executed : List Inst) : Position × List Inst :=
  match e.cond with
  | none => act e next e.body executed
  | some cond =>
      if cond = .nv then act e next Visitor.raiseException executed
      else if m.holds cond executed then act e next e.body executed
      else (.at_ next, executed)

variable (decoders : Decoders) (tcb : TranslateCallbacks)

def executeAt (l : Location) (executed : List Inst) : Position × List Inst :=
  m.execute (encounter decoders tcb l.tFlag l)
    (stepOver l.tFlag l (encounter decoders tcb l.tFlag l).size) executed

def follow : ℕ → Location → List Inst → Position × List Inst
  | 0, l, executed => (.at_ l, executed)
  | n + 1, l, executed =>
      match executeAt m decoders tcb l executed with
      | (.at_ next, executed) => follow n next executed
      | (.left source, executed) => (.left source, executed)

/-- The reference comes from `l` to the position and has executed the list by then. -/
def Comes (l : Location) (p : Position) (executed : List Inst) : Prop :=
  ∃ n, m.follow decoders tcb n l [] = (p, executed)

/-- It does so with at least one instruction. -/
def Advances (l : Location) (p : Position) (executed : List Inst) : Prop :=
  ∃ n, m.follow decoders tcb (n + 1) l [] = (p, executed)

variable {m decoders tcb}

theorem follow_succ {n : ℕ} {l l' : Location} {start : List Inst}
    (h : m.follow decoders tcb n l start = (.at_ l', executed)) :
    m.follow decoders tcb (n + 1) l start = m.executeAt decoders tcb l' executed := by
  induction n generalizing l start with
  | zero =>
      obtain ⟨hplace, rfl⟩ := Prod.mk.inj h
      obtain rfl := Position.at_.inj hplace
      unfold follow
      split
      · rename_i heq
        rw [heq]
        rfl
      · rename_i heq
        rw [heq]
  | succ n ih =>
      rw [follow] at h
      rw [follow]
      split at h
      · exact ih h
      · cases (Prod.mk.inj h).1

theorem act_at {e : Encounter} {next l' : Location} {body : Body}
    (h : act e next body executed = (.at_ l', executed')) : l' = next := by
  unfold act at h
  split at h
  · cases (Prod.mk.inj h).1
  · exact (Position.at_.inj (Prod.mk.inj h).1).symm

theorem executeAt_at {l l' : Location}
    (h : m.executeAt decoders tcb l executed = (.at_ l', executed')) :
    ∃ size, l' = stepOver l.tFlag l size := by
  refine ⟨(encounter decoders tcb l.tFlag l).size, ?_⟩
  unfold executeAt execute at h
  split at h
  · exact act_at h
  · split at h
    · exact act_at h
    · split at h
      · exact act_at h
      · exact (Position.at_.inj (Prod.mk.inj h).1).symm

theorem follow_keeps {n : ℕ} {l l' : Location} {start : List Inst}
    (h : m.follow decoders tcb n l start = (.at_ l', executed)) :
    l'.tFlag = l.tFlag ∧ (l.tFlag = false → l'.it = l.it) := by
  induction n generalizing l start with
  | zero =>
      obtain rfl := Position.at_.inj (Prod.mk.inj h).1
      exact ⟨rfl, fun _ => rfl⟩
  | succ n ih =>
      rw [follow] at h
      split at h
      · rename_i next _ heq
        obtain ⟨size, rfl⟩ := executeAt_at heq
        obtain ⟨hflag, hit⟩ := ih h
        rw [stepOver_tFlag] at hflag hit
        refine ⟨hflag, fun harm => (hit harm).trans ?_⟩
        rw [stepOver, harm]
        rfl
      · cases (Prod.mk.inj h).1

theorem Comes.refl (l : Location) : m.Comes decoders tcb l (.at_ l) [] := ⟨0, rfl⟩

theorem Advances.comes {l : Location} {p : Position} (h : m.Advances decoders tcb l p executed) :
    m.Comes decoders tcb l p executed :=
  h.imp' (· + 1) fun _ => id

theorem Comes.step {l l' : Location} {p : Position} (h : m.Comes decoders tcb l (.at_ l') executed)
    (hstep : m.executeAt decoders tcb l' executed = (p, executed')) :
    m.Advances decoders tcb l p executed' := by
  obtain ⟨n, hn⟩ := h
  exact ⟨n, (follow_succ hn).trans hstep⟩

end Machine

/-! ### What a block is to do -/

def TranslatedBlock.exit (b : TranslatedBlock) : Option Position :=
  match b.terminal with
  | none => none
  | some (.linkBlock next) => some (.at_ next)
  | some (.linkBlockFast next) => some (.at_ next)
  | some (.ofInstruction source) => some (.left source)
  | some .ofHook => some (.at_ b.endLocation)

/-- The location where an untaken block resumes, for the place the reference comes to.
`IsConditionPassed` advances the IT state in either instruction set. -/
def resumption (l : Location) : Location := if l.tFlag then l else l.advanceIT

variable (decoders : Decoders) (tcb : TranslateCallbacks)

/-- The entry condition fails: the reference comes to where the block resumes, and
nothing has happened on the way. -/
def SkipsTo (l : Location) (b : TranslatedBlock) : Prop :=
  ∀ m : Machine, m.holds b.condition [] = false →
    ∃ l', m.Advances decoders tcb l (.at_ l') [] ∧
      b.conditionFailedLocation = some (resumption l')

/-- The block does what the reference does.  Only a block that the hook has ended may do
nothing. -/
structure Exact (l : Location) (b : TranslatedBlock) : Prop where
  taken : ∀ m : Machine, m.holds b.condition [] = true → ∃ p, b.exit = some p ∧
    (m.Advances decoders tcb l p b.instructions ∨
      b.terminal = some .ofHook ∧ m.Comes decoders tcb l p b.instructions)
  untaken : SkipsTo decoders tcb l b
  failed : b.condition = .al ↔ b.conditionFailedLocation = none

/-- The invariant of the loop. -/
structure Folded (l : Location) (v : Visitor) : Prop extends Ready l v where
  terminal : v.block.terminal = none
  /-- ARM instructions leave the IT state alone. -/
  arm : l.tFlag = false → v.currentLocation.it = l.it
  taken : ∀ m : Machine, m.holds v.block.condition [] = true →
    m.Comes decoders tcb l (.at_ v.currentLocation) v.block.instructions
  /-- Whatever makes a conditional instruction end the block is the work of an earlier one. -/
  begun : v.condState = .translating ∨ v.block.instructions ≠ [] → ∀ m : Machine,
    m.holds v.block.condition [] = true →
      m.Advances decoders tcb l (.at_ v.currentLocation) v.block.instructions
  untaken : SkipsTo decoders tcb l v.block
  /-- A block without IR has had nothing to do so far, whatever holds. -/
  idle : v.block.instructions = [] → ∀ m : Machine,
    m.Comes decoders tcb l (.at_ v.currentLocation) []
  failed : v.block.condition = .al ↔ v.block.conditionFailedLocation = none
  /-- The flags are those the entry condition was evaluated on. -/
  kept : v.condState ≠ .none → ∀ inst ∈ v.block.instructions, inst.writesToCPSR = false

variable {decoders tcb}

theorem folded_create (l : Location) : Folded decoders tcb l (.create l) where
  toReady := (head_create l).toReady
  terminal := rfl
  arm _ := rfl
  taken m _ := .refl l
  begun := by rintro (⟨⟨⟩⟩ | h); exact absurd rfl h
  untaken m h := absurd (m.holds_al []) (by rw [show m.holds .al [] = false from h]; simp)
  idle _ m := .refl l
  failed := iff_of_true rfl rfl
  kept h := absurd rfl h

/-! ### One turn -/

section Turn

variable {l : Location} {v : Visitor}

abbrev Visitor.here (decoders : Decoders) (tcb : TranslateCallbacks) (v : Visitor) : Encounter :=
  encounter decoders tcb v.currentLocation.tFlag v.currentLocation

abbrev Visitor.behind (decoders : Decoders) (tcb : TranslateCallbacks) (v : Visitor) : Location :=
  stepOver v.currentLocation.tFlag v.currentLocation (v.here decoders tcb).size

variable {m : Machine}

theorem executeAt_nv (hcond : (v.here decoders tcb).cond = some .nv) (executed : List Inst) :
    m.executeAt decoders tcb v.currentLocation executed =
      Machine.act (v.here decoders tcb) (v.behind decoders tcb) Visitor.raiseException executed := by
  simp [Machine.executeAt, Machine.execute, hcond]

theorem executeAt_holds {executed : List Inst}
    (h : ∀ c, (v.here decoders tcb).cond = some c → c ≠ .nv ∧ m.holds c executed = true) :
    m.executeAt decoders tcb v.currentLocation executed =
      Machine.act (v.here decoders tcb) (v.behind decoders tcb) (v.here decoders tcb).body
        executed := by
  unfold Machine.executeAt Machine.execute
  split
  · rfl
  · rename_i c hcond
    obtain ⟨hnv, hholds⟩ := h c hcond
    rw [if_neg hnv, if_pos hholds]

theorem executeAt_fails {executed : List Inst} {c : Cond}
    (hcond : (v.here decoders tcb).cond = some c) (hnv : c ≠ .nv)
    (hfails : m.holds c executed = false) :
    m.executeAt decoders tcb v.currentLocation executed =
      (.at_ (v.behind decoders tcb), executed) := by
  simp [Machine.executeAt, Machine.execute, hcond, hnv, hfails]

theorem executeAt_idle {executed : List Inst} (hnv : (v.here decoders tcb).cond ≠ some .nv)
    (hinstructions : (v.here decoders tcb).body.instructions = [])
    (hterm : (v.here decoders tcb).body.setsTerm = false) :
    m.executeAt decoders tcb v.currentLocation executed =
      (.at_ (v.behind decoders tcb), executed) := by
  have hact : Machine.act (v.here decoders tcb) (v.behind decoders tcb)
      (v.here decoders tcb).body executed = (.at_ (v.behind decoders tcb), executed) := by
    simp [Machine.act, hinstructions, hterm]
  cases hcond : (v.here decoders tcb).cond with
  | none => rw [executeAt_holds (by simp [hcond]), hact]
  | some c =>
      have hc : c ≠ .nv := fun h => hnv (hcond.trans (congrArg some h))
      cases hholds : m.holds c executed with
      | false => exact executeAt_fails hcond hc hholds
      | true =>
          rw [executeAt_holds fun c' hc' => ?_, hact]
          obtain rfl := Option.some.inj (hcond.symm.trans hc')
          exact ⟨hc, hholds⟩

variable (decoders tcb l v) in
/-- The test of the condition, if there is one, has passed and has led to `w`. -/
structure Passed (w : Visitor) : Prop where
  taken : ∀ m : Machine, m.holds w.block.condition [] = true →
    m.Comes decoders tcb l (.at_ v.currentLocation) v.block.instructions ∧
      m.executeAt decoders tcb v.currentLocation v.block.instructions =
        Machine.act (v.here decoders tcb) (v.behind decoders tcb) (v.here decoders tcb).body
          v.block.instructions
  untaken : SkipsTo decoders tcb l w.block
  failed : w.block.condition = .al ↔ w.block.conditionFailedLocation = none
  notNV : (v.here decoders tcb).cond ≠ some .nv
  instructions : w.block.instructions = v.block.instructions

theorem nextLocation_look (size length : ℕ) :
    (v.look size length).nextLocation =
      resumption (stepOver v.currentLocation.tFlag v.currentLocation size) := by
  unfold resumption
  rw [stepOver_tFlag]
  unfold stepOver
  cases v.currentLocation.tFlag <;> rfl

theorem SkipsTo.behind {b : TranslatedBlock} {c : Cond}
    (hcond : (v.here decoders tcb).cond = some c) (hnv : c ≠ .nv) (hb : b.condition = c)
    (hfailed : b.conditionFailedLocation = some (resumption (v.behind decoders tcb)))
    (h : ∀ m : Machine, m.holds c [] = false →
      m.Comes decoders tcb l (.at_ v.currentLocation) []) :
    SkipsTo decoders tcb l b := by
  intro m hfails
  rw [hb] at hfails
  exact ⟨_, (h m hfails).step (executeAt_fails hcond hnv hfails), hfailed⟩

theorem Folded.comes_of_failed (h : Folded decoders tcb l v)
    (hplace : v.block.conditionFailedLocation = some v.currentLocation)
    (hfails : m.holds v.block.condition [] = false) :
    m.Comes decoders tcb l (.at_ v.currentLocation) [] := by
  obtain ⟨l', hcomes, hfailed⟩ := h.untaken m hfails
  obtain ⟨n, hn⟩ := id hcomes
  obtain ⟨hflag, hit⟩ := Machine.follow_keeps hn
  have hresumes : resumption l' = v.currentLocation :=
    Option.some.inj (hfailed.symm.trans hplace)
  suffices hsame : l' = v.currentLocation from hsame ▸ hcomes.comes
  unfold resumption at hresumes
  split at hresumes
  · exact hresumes
  · rename_i harm
    -- Only the IT state was changed, and it is the same at both places.
    have harm' : l.tFlag = false := by rw [← hflag]; simpa using harm
    have hsame : l'.it = v.currentLocation.it := (hit harm').trans (h.arm harm').symm
    calc l' = { l'.advanceIT with it := l'.it } := rfl
      _ = { v.currentLocation with it := v.currentLocation.it } := by rw [hresumes, hsame]
      _ = v.currentLocation := rfl

/-- The test of a condition passes only if it is the condition of the block, and the
flags are still those of the entry. -/
theorem Folded.passed (h : Folded decoders tcb l v) {size length : ℕ} {source : Source}
    (hsize : (v.here decoders tcb).size = size) {w : Visitor}
    (hpassed : (v.here decoders tcb).cond = none ∧ w = v.look size length ∨
      ∃ c, (v.here decoders tcb).cond = some c ∧
        Visitor.Verdict (v.look size length) source c true w) :
    Passed decoders tcb l v w := by
  have hbehind : (v.look size length).nextLocation = resumption (v.behind decoders tcb) :=
    hsize ▸ nextLocation_look _ _
  rcases hpassed with ⟨hcond, rfl⟩ | ⟨c, hcond, hverdict⟩
  · exact ⟨fun m hm => ⟨h.taken m hm, executeAt_holds (by simp [hcond])⟩, h.untaken, h.failed,
      by simp [hcond], rfl⟩
  · have honly : ∀ {m : Machine} {executed : List Inst}, c ≠ .nv → m.holds c executed = true →
        ∀ c', (v.here decoders tcb).cond = some c' → c' ≠ .nv ∧ m.holds c' executed = true := by
      intro m executed hnv hholds c' hc'
      obtain rfl := Option.some.inj (hcond.symm.trans hc')
      exact ⟨hnv, hholds⟩
    cases hverdict with
    | always =>
        exact ⟨fun m hm => ⟨h.taken m hm, executeAt_holds (honly (by decide) (m.holds_al _))⟩,
          h.untaken, h.failed, by simp [hcond], rfl⟩
    | extended hal hnv hstate hplace hsame =>
        have hstate : v.condState = .translating := hstate
        refine ⟨fun m hm => ⟨h.taken m hm, executeAt_holds (honly hnv ?_)⟩, ?_, ?_, ?_, rfl⟩
        · rw [← List.nil_append v.block.instructions,
            m.holds_append (h.kept (by rw [hstate]; decide)), hsame]
          exact hm
        · refine SkipsTo.behind hcond hnv hsame.symm (congrArg some hbehind) fun m hm => ?_
          exact h.comes_of_failed hplace (hsame ▸ hm)
        · exact iff_of_false (fun heq => hal (hsame.trans heq)) (by rintro ⟨⟩)
        · simpa [hcond] using hnv
    | started hal hnv hempty =>
        have hempty : v.block.instructions = [] := hempty
        refine ⟨fun m hm => ⟨hempty ▸ h.idle hempty m, executeAt_holds (honly hnv ?_)⟩, ?_, ?_, ?_,
          rfl⟩
        · rw [hempty]
          exact hm
        · exact SkipsTo.behind hcond hnv rfl (congrArg some hbehind) fun m _ => h.idle hempty m
        · exact iff_of_false hal (by rintro ⟨⟩)
        · simpa [hcond] using hnv

/-- What has been executed behind an instruction that was put into the block. -/
theorem Passed.advances {w : Visitor} (h : Passed decoders tcb l v w)
    (hm : m.holds w.block.condition [] = true) :
    m.Advances decoders tcb l
      (if (v.here decoders tcb).body.setsTerm then .left (v.here decoders tcb).source
        else .at_ (v.behind decoders tcb))
      (w.put (some (v.here decoders tcb).source)
        (v.here decoders tcb).body.instructions).block.instructions := by
  obtain ⟨hcomes, hact⟩ := h.taken m hm
  refine hcomes.step (hact.trans ?_)
  rw [Machine.act, ← h.instructions]
  rfl

/-- The end of the block, where it does not set a terminal of its own. -/
theorem Exact.of_skips {b : TranslatedBlock} {p : Position}
    (htaken : ∀ m : Machine, m.holds b.condition [] = true →
      m.Advances decoders tcb l p b.instructions)
    (hexit : b.exit = some p) (huntaken : SkipsTo decoders tcb l b)
    (hfailed : b.condition = .al ↔ b.conditionFailedLocation = none) : Exact decoders tcb l b :=
  ⟨fun m hm => ⟨p, hexit, .inl (htaken m hm)⟩, huntaken, hfailed⟩

theorem Folded.exact_of_verdict (h : Folded decoders tcb l v) {size length : ℕ} {c : Cond}
    {w : Visitor} (hcond : (v.here decoders tcb).cond = some c)
    (hverdict : Visitor.Verdict (v.look size length) (v.here decoders tcb).source c false w)
    (endLocation : Location) : Exact decoders tcb l { w.block with endLocation } := by
  cases hverdict with
  | refused =>
      refine .of_skips (fun m hm => ?_) rfl h.untaken h.failed
      exact (h.taken m hm).step (executeAt_nv hcond _)
  | broken _ _ hwhy => exact .of_skips (h.begun hwhy) rfl h.untaken h.failed

/-- The loop ends or goes on behind an instruction that was put into the block. -/
theorem Folded.of_passed (h : Folded decoders tcb l v) (hstep : l.singleStepping = false)
    (horderly : (v.here decoders tcb).body.Orderly) {w : Visitor}
    (hpassed : Passed decoders tcb l v w) (hlocation : w.block.location = l)
    (hstate : w.condState ≠ .break_) (hterm : w.block.terminal = none) {t : Turn}
    (ht : (w.runBody (v.here decoders tcb).source (v.here decoders tcb).body).map (fun result =>
      Turn.finish false (v.behind decoders tcb) (v.here decoders tcb).ticks
        result.1 result.2) = some t) :
    (t.again = true → Folded decoders tcb l t.visitor) ∧
      (t.again = false → ∀ u, endTranslation t.shouldContinue t.visitor = some u →
        u.block.terminal ≠ none →
        Exact decoders tcb l { u.block with endLocation := u.currentLocation }) := by
  have hadvances := fun (m : Machine) hm => hpassed.advances (m := m) hm
  have hterm' : (v.here decoders tcb).body.setsTerm =
    !(v.here decoders tcb).body.continues := horderly
  rw [Visitor.runBody_eq _ _ hterm] at ht
  obtain rfl := Option.some.inj ht
  cases hcontinues : (v.here decoders tcb).body.continues with
  | false =>
      rw [hcontinues] at hterm'
      simp only [hterm', Bool.not_false, ↓reduceIte] at hadvances ⊢
      rw [Turn.finish, if_neg (by exact hstate)]
      refine ⟨by rintro ⟨⟩, fun _ u hu _ => ?_⟩
      simp only [endTranslation, Bool.false_eq_true, and_false, ↓reduceIte] at hu
      obtain rfl := Option.some.inj hu
      exact .of_skips hadvances rfl hpassed.untaken hpassed.failed
  | true =>
      rw [hcontinues] at hterm'
      simp only [hterm', Bool.not_true, Bool.false_eq_true, ↓reduceIte] at hadvances ⊢
      rw [Turn.finish, if_neg (by exact hstate)]
      refine ⟨fun hagain => ?_, fun _ u hu hset => ?_⟩
      · refine ⟨⟨hlocation, hstate, (stepOver_tFlag _ _ _).trans h.flag⟩, hterm, fun harm => ?_,
          fun m hm => (hadvances m hm).comes, fun _ => hadvances, hpassed.untaken,
          fun hempty m => ?_, hpassed.failed, fun hnone inst hinst => ?_⟩
        · rw [← h.arm harm]
          simp only [Visitor.behind, stepOver, h.flag, harm, Bool.false_eq_true, ↓reduceIte]
          rfl
        · obtain ⟨hv, hbody⟩ := List.append_eq_nil_iff.mp hempty
          rw [hpassed.instructions] at hv
          exact ((h.idle hv m).step (executeAt_idle hpassed.notNV (List.map_eq_nil_iff.mp hbody)
            hterm')).comes
        · simp only [Bool.true_and, Bool.not_false, Bool.and_true, Visitor.condCanContinue,
            Bool.or_eq_true, decide_eq_true_eq, List.all_eq_true, Bool.not_eq_true'] at hagain
          exact hagain.resolve_left hnone inst hinst
      · simp only [endTranslation, and_true] at hu
        split at hu
        · obtain ⟨-, rfl⟩ := Visitor.setTerm_eq hu
          have hsingle : w.block.location.singleStepping = false := by rw [hlocation, hstep]
          refine .of_skips hadvances ?_ hpassed.untaken hpassed.failed
          simp only [TranslatedBlock.exit, Visitor.put, hsingle, Bool.false_eq_true, ↓reduceIte]
        · obtain rfl := Option.some.inj hu
          exact absurd hterm hset

/-- One turn: the invariant at the head of the next, or an exact block. -/
theorem Folded.turn (h : Folded decoders tcb l v) (hstep : l.singleStepping = false)
    (horderly : (v.here decoders tcb).body.Orderly) {t : Turn}
    (ht : (v.here decoders tcb).turn v.currentLocation.tFlag v = some t) :
    (t.again = true → Folded decoders tcb l t.visitor) ∧
      (t.again = false → ∀ u, endTranslation t.shouldContinue t.visitor = some u →
        u.block.terminal ≠ none →
        Exact decoders tcb l { u.block with endLocation := u.currentLocation }) := by
  have hsingle : v.block.location.singleStepping = false := by rw [h.location, hstep]
  unfold Encounter.turn at ht
  rw [hsingle] at ht
  rcases Visitor.runChecked_cases (v := v.look (v.here decoders tcb).size
      (v.here decoders tcb).source.length) (v.here decoders tcb).source (v.here decoders tcb).cond
      (v.here decoders tcb).body h.condState h.terminal with
    ⟨c, w, hcond, hverdict, hrun⟩ | ⟨w, hpassed, hterm, hstate, hrun⟩
  · rw [hrun] at ht
    obtain rfl := Option.some.inj ht
    obtain ⟨hlocation, hbreak⟩ : w.block.location = l ∧ w.condState = .break_ := by
      cases hverdict with
      | refused => exact ⟨h.location, rfl⟩
      | broken => exact ⟨h.location, rfl⟩
    simp only [Turn.finish, hbreak, ↓reduceIte]
    refine ⟨by rintro ⟨⟩, fun _ u hu _ => ?_⟩
    simp only [endTranslation, hbreak, hlocation, hstep, reduceCtorEq, Bool.false_eq_true, or_self,
      false_and, ↓reduceIte] at hu
    obtain rfl := Option.some.inj hu
    exact h.exact_of_verdict hcond hverdict _
  · rw [hrun] at ht
    have hlocation : w.block.location = l := by
      rcases hpassed with ⟨-, rfl⟩ | ⟨c, -, hverdict⟩
      · exact h.location
      · cases hverdict <;> exact h.location
    exact h.of_passed hstep horderly (h.passed rfl hpassed) hlocation hstate hterm ht

end Turn

/-! ### Whole blocks -/

/-- By induction on the turns, the loop ends with an exact block. -/
theorem exact_of_translateLoop (hdecoders : decoders.Orderly) (hhooks : tcb.Quiet) {l : Location}
    (hstep : l.singleStepping = false) {fuel : ℕ} {v r u : Visitor} {c : Bool}
    (hv : Folded decoders tcb l v)
    (hloop : translateLoop (turnOf decoders tcb l.tFlag) fuel v = some (c, r))
    (hend : endTranslation c r = some u) (hset : u.block.terminal ≠ none) :
    Exact decoders tcb l { u.block with endLocation := u.currentLocation } := by
  induction fuel generalizing v with
  | zero => cases hloop
  | succ fuel ih =>
      unfold translateLoop at hloop
      rw [turnOf_eq hhooks hdecoders hv.condState hv.flag] at hloop
      split at hloop
      · cases hloop
      · rename_i t ht
        split at ht
        · obtain ⟨hagain, hlast⟩ := hv.turn hstep (encounter_orderly hdecoders _ _) (hv.flag ▸ ht)
          split at hloop
          · exact ih (hagain ‹_›) hloop
          · rename_i hfalse
            obtain ⟨rfl, rfl⟩ := Prod.mk.inj (Option.some.inj hloop)
            exact hlast (by simpa using hfalse) u hend hset
        · -- The hook has ended the block where it is.
          obtain ⟨w, hw, rfl⟩ := Option.map_eq_some_iff.mp ht
          obtain ⟨-, rfl⟩ := Visitor.setTerm_eq hw
          simp only [Bool.false_eq_true, ↓reduceIte] at hloop
          obtain ⟨rfl, rfl⟩ := Prod.mk.inj (Option.some.inj hloop)
          simp only [endTranslation, Bool.false_eq_true, and_false, ↓reduceIte] at hend
          obtain rfl := Option.some.inj hend
          exact ⟨fun m hm => ⟨_, rfl, .inr ⟨rfl, hv.taken m hm⟩⟩, hv.untaken, hv.failed⟩

theorem exact_of_translate (hdecoders : decoders.Orderly) (hhooks : tcb.Quiet) {fuel : ℕ}
    {l : Location} {v : Visitor} (hstep : l.singleStepping = false)
    (h : translate decoders tcb fuel l = some v) : Exact decoders tcb l v.block := by
  rw [translate_eq] at h
  unfold translateWith at h
  simp only [Option.bind_eq_bind, Option.bind_eq_some_iff, Option.pure_def,
    Option.ite_none_left_eq_some, Option.some.injEq] at h
  obtain ⟨⟨c, r⟩, hloop, u, hend, hset, rfl⟩ := h
  exact exact_of_translateLoop hdecoders hhooks hstep (folded_create l) hloop hend
    (by simpa using hset)

theorem ITState.advance_eq_self_iff (it : ITState) : it.advance = it ↔ it = ⟨0#8⟩ := by
  have hall : ∀ value : BitVec 8, ITState.advance ⟨value⟩ = ⟨value⟩ ↔ value = 0#8 := by decide
  obtain ⟨value⟩ := it
  rw [hall, ITState.mk.injEq]

/-- Where a block that is not taken resumes is where the reference has come to, except that the
IT state has been advanced once more in ARM state. -/
theorem resumption_eq_self_iff (l : Location) :
    resumption l = l ↔ l.tFlag = true ∨ l.it = ⟨0#8⟩ := by
  unfold resumption
  split
  · exact iff_of_true rfl (.inl ‹_›)
  · rename_i harm
    rw [or_iff_right harm, ← ITState.advance_eq_self_iff]
    constructor
    · exact congrArg Location.it
    · intro hit
      change { l with it := l.it.advance } = l
      rw [hit]

/-- Conditional folding.  If the entry condition holds, the reference executes the IR of the
block from its location up to its exit, with at least one instruction unless the hook has ended
the block.  If it fails, the reference comes to the place where the block resumes and has
executed nothing on the way; the IT state there is right in Thumb state, and in ARM state
exactly if it is zero. -/
theorem translate_folds (hdecoders : decoders.Orderly) (hhooks : tcb.Quiet) {fuel : ℕ}
    {l : Location} {v : Visitor} (hstep : l.singleStepping = false)
    (h : translate decoders tcb fuel l = some v) (m : Machine) :
    (m.holds v.block.condition [] = true →
      ∃ n p, v.block.exit = some p ∧ m.follow decoders tcb n l [] = (p, v.block.instructions) ∧
        (v.block.terminal ≠ some .ofHook → 0 < n)) ∧
    (m.holds v.block.condition [] = false →
      ∃ n l' resumed, 0 < n ∧ m.follow decoders tcb n l [] = (.at_ l', []) ∧
        v.block.conditionFailedLocation = some resumed ∧
        resumed = { l' with it := resumed.it } ∧
        (resumed = l' ↔ l.tFlag = true ∨ l.it = ⟨0#8⟩)) ∧
    (v.block.condition = .al ↔ v.block.conditionFailedLocation = none) := by
  have hexact := exact_of_translate hdecoders hhooks hstep h
  refine ⟨fun hholds => ?_, fun hfails => ?_, hexact.failed⟩
  · obtain ⟨p, hexit, ⟨n, hn⟩ | ⟨hhook, n, hn⟩⟩ := hexact.taken m hholds
    · exact ⟨n + 1, p, hexit, hn, fun _ => Nat.succ_pos n⟩
    · exact ⟨n, p, hexit, hn, fun hother => absurd hhook hother⟩
  · obtain ⟨l', ⟨n, hn⟩, hfailed⟩ := hexact.untaken m hfails
    obtain ⟨hflag, hit⟩ := Machine.follow_keeps hn
    refine ⟨n + 1, l', resumption l', Nat.succ_pos n, hn, hfailed, ?_, ?_⟩
    · unfold resumption
      split <;> rfl
    · rw [resumption_eq_self_iff, hflag]
      refine or_congr_right' fun harm => ?_
      rw [hit (by simpa using harm)]

/-! An addition with the condition `EQ`, on a machine where no condition but `AL` holds. -/

def Sample.clearFlags : Machine where
  holds cond _ := cond = .al
  holds_al _ := rfl
  keeps _ _ _ _ := rfl

theorem translate_addeq_isSome :
    (translate Sample.addDecoders (Sample.callbacks 0x1000#32 0x00800000#32) 3
      Sample.location).isSome := by
  decide

theorem translate_folds_addeq : ∃ n l' resumed, 0 < n ∧
    Sample.clearFlags.follow Sample.addDecoders (Sample.callbacks 0x1000#32 0x00800000#32) n
      Sample.location [] = (.at_ l', []) ∧
    ((translate Sample.addDecoders (Sample.callbacks 0x1000#32 0x00800000#32) 3
      Sample.location).get translate_addeq_isSome).block.conditionFailedLocation = some resumed ∧
    resumed = l' := by
  obtain ⟨n, l', resumed, hpos, hfollow, hfailed, -, hright⟩ :=
    (translate_folds Sample.addDecoders_orderly (Sample.callbacks_quiet _ _) rfl
      (Option.some_get translate_addeq_isSome).symm Sample.clearFlags).2.1 (by decide)
  exact ⟨n, l', resumed, hpos, hfollow, hfailed, hright.mpr (.inr rfl)⟩

/-- The callbacks, with a hook that emits an IR instruction in front of every guest instruction. -/
def Sample.chattyCallbacks : TranslateCallbacks :=
  { Sample.callbacks 0x1000#32 0x00800000#32 with
    preCodeTranslationHook := fun _ _ _ => ⟨[false], false, true⟩ }

/-- The same addition in ARM state with the IT state 1: the block resumes with the IT state 2,
and an addition that fails its condition leaves it at 1.  Behind a hook that emits IR the block
of the addition executes no instruction and leads back to itself. -/
theorem translate_folds_not_exact :
    (translate Sample.addDecoders (Sample.callbacks 0x1000#32 0x00800000#32) 3
        { Sample.location with it := ⟨1#8⟩ }).map
        (fun v => (v.block.condition, v.block.conditionFailedLocation)) =
      some (.eq, some { Sample.location with pc := 0x1004#32, it := ⟨2#8⟩ }) ∧
    Sample.clearFlags.holds .eq [] = false ∧
    Sample.clearFlags.follow Sample.addDecoders (Sample.callbacks 0x1000#32 0x00800000#32) 1
        { Sample.location with it := ⟨1#8⟩ } [] =
      (.at_ { Sample.location with pc := 0x1004#32, it := ⟨1#8⟩ }, []) ∧
    (translate Sample.addDecoders Sample.chattyCallbacks 3 Sample.location).map
        (fun v => (v.block.condition, v.block.terminal)) =
      some (.al, some (.linkBlockFast Sample.location)) := by
  decide

end Umbra.A32
