import Umbra.Arm64.RegAlloc

/-!
Reading a carry into the host flags.

`ReadWriteFlags` looks up where the carry is, spills the flags if they hold something
else, and then loads the carry from the place it looked up.  The register chosen for the
spilled flags is any that the instruction has not locked, and nobody has locked the
carry's: when no register is empty the flags can be written over it.
-/

namespace Umbra.Arm64

open RegAlloc

/-- The state in which `EmitAddSub` calls `ReadWriteFlags`: the registers of its other operands and
of its result are the only ones in use, the carry is recorded at the location, and the value to be
written is new. -/
structure AtFlagsRead (width : Inst → ℕ) (info : HostLoc → HostLocInfo) (read : Inst)
    (location : HostLoc) (write : Option (Inst × ℕ)) : Prop where
  recorded : Recorded width info
  flags : (info .flags).maybeAllocatable = true
  operands : (gprOrder.filter fun i => !(info (.gpr i)).maybeAllocatable).length ≤ 3
  located : read ∈ (info location).values
  scalar : ∀ i, location ≠ .fpr i
  bits : 32 ≤ width read
  fresh : ∀ value, write = some value → ∀ l, value.1 ∉ (info l).values

/-- Whatever the values are and whichever register is picked, the code goes through, the flags are
those of the value read, and every value is still where it is recorded. -/
def ReadsFlags (width : Inst → ℕ) (info : HostLoc → HostLocInfo) (read : Inst)
    (write : Option (Inst × ℕ)) : Prop :=
  ∀ (data : Inst → BitVec 128) (m : Machine) (pick : ℕ),
    Sound ⟨width, data⟩ (fun _ => True) ⟨info, m⟩ →
    ∃ t, readWriteFlags ⟨info, m⟩ read write pick = some t ∧
      t.machine.nzcv = (data read).extractLsb' 28 4 ∧
      ∀ v l, v ∈ (info l).values →
        ∃ l', t.valueLocation v = some l' ∧ Holds ⟨width, data⟩ t.machine l' v

def SpillsLiveFlags (info : HostLoc → HostLocInfo) (location : HostLoc) : Prop :=
  (info .flags).values ≠ [] ∧ (location = .flags → (info .flags).isOneRemainingUse = false)

instance (info : HostLoc → HostLocInfo) (location : HostLoc) :
    Decidable (SpillsLiveFlags info location) :=
  inferInstanceAs (Decidable (_ ∧ (_ → _)))

/-- The carry is not in the flags for its last use with a value to be written there, and where the
flags have to be spilled and no register is empty, there is a spill slot and the carry is not in a
register that could be chosen. -/
def FlagsReadSafe (info : HostLoc → HostLocInfo) (location : HostLoc)
    (write : Option (Inst × ℕ)) : Prop :=
  ¬(location = .flags ∧ (info .flags).isOneRemainingUse = true ∧ write ≠ none) ∧
    (SpillsLiveFlags info location → (∀ i ∈ gprOrder, info (.gpr i) ≠ {}) →
      (∃ k, (info (.spill k)).values = []) ∧
        ∀ j, location = .gpr j → (info (.gpr j)).maybeAllocatable = false)

section

variable {s t : RegAlloc} {V : BlockValues} {ready : Inst → Prop} {width : Inst → ℕ}
  {info : HostLoc → HostLocInfo} {read : Inst} {location : HostLoc} {write : Option (Inst × ℕ)}

/-! ### The bits of the flags -/

theorem extractLsb_of_setWidth {n : ℕ} (hn : 32 ≤ n) {a b : BitVec 128}
    (h : a.setWidth n = b.setWidth n) : a.extractLsb' 28 4 = b.extractLsb' 28 4 := by
  ext i hi
  have hbit := congrArg (fun c => c.getLsbD (28 + i)) h
  simp only [BitVec.getLsbD_setWidth, show 28 + i < n by omega, decide_true, Bool.true_and] at hbit
  simpa [BitVec.getElem_extractLsb'] using hbit

theorem extractLsb_flagsWord (m : Machine) :
    (m.flagsWord.setWidth 128).extractLsb' 28 4 = m.nzcv := by
  ext i hi
  simp [Machine.flagsWord, BitVec.getElem_extractLsb', hi, show 28 + i < 64 by omega,
    show 28 + i < 128 by omega]

theorem extractLsb_setWidth (a : BitVec 64) :
    (a.setWidth 128).extractLsb' 28 4 = a.extractLsb' 28 4 := by
  ext i hi
  simp [BitVec.getElem_extractLsb', show 28 + i < 128 by omega]

theorem extractLsb_setWidth_32 (a : BitVec 128) :
    ((a.setWidth 32).setWidth 64).extractLsb' 28 4 = a.extractLsb' 28 4 := by
  ext i hi
  simp [BitVec.getElem_extractLsb', show 28 + i < 64 by omega, show 28 + i < 32 by omega]

/-! ### Where it is right -/

/-- One of the registers is free for the flags: at most three of them are in use. -/
theorem AtFlagsRead.exists_free (h : AtFlagsRead width info read location write) :
    ∃ j ∈ gprOrder, (info (.gpr j)).maybeAllocatable = true := by
  by_contra hnone
  simp only [not_exists, not_and, Bool.not_eq_true] at hnone
  have hall : (gprOrder.filter fun i => !(info (.gpr i)).maybeAllocatable) = gprOrder :=
    List.filter_eq_self.mpr fun i hi => by simp [hnone i hi]
  have hlength := h.operands
  rw [hall] at hlength
  exact absurd hlength (by decide)

theorem Holds.extractLsb {m : Machine} {l : HostLoc} {v : Inst} (h : Holds V m l v)
    (hbits : 32 ≤ V.width v) : (m.content l).extractLsb' 28 4 = (V.data v).extractLsb' 28 4 :=
  extractLsb_of_setWidth hbits h

def loadFlags (s : RegAlloc) : HostLoc → RegAlloc
  | .gpr index => s.emit (.msr index)
  | .spill index => (s.emit (.ldrW scratch0 index)).emit (.msr scratch0)
  | .flags | .fpr _ => s

theorem loadFlags_nzcv (s : RegAlloc) (hscalar : ∀ i, location ≠ .fpr i) :
    (loadFlags s location).machine.nzcv = (s.machine.content location).extractLsb' 28 4 := by
  cases location with
  | gpr i => exact (extractLsb_setWidth _).symm
  | spill k =>
      change (Function.update s.machine.x scratch0 (((s.machine.stack k).setWidth 32).setWidth 64)
        scratch0).extractLsb' 28 4 = (s.machine.stack k).extractLsb' 28 4
      rw [Function.update_self, extractLsb_setWidth_32]
  | flags => exact (extractLsb_flagsWord s.machine).symm
  | fpr i => exact absurd rfl (hscalar i)

theorem Sound.loadFlags (h : Sound V ready s)
    (hflags : location ≠ .flags → (s.info .flags).values = []) :
    Sound V ready (loadFlags s location) := by
  have hmsr : ∀ (u : RegAlloc) (i : Fin 32), (u.info .flags).values = [] → ∀ l,
      (u.info l).values ≠ [] → (u.machine.exec (.msr i)).content l = u.machine.content l := by
    rintro u i hempty (j | j | - | j) hvalues
    · rfl
    · rfl
    · exact absurd hempty hvalues
    · rfl
  cases location with
  | gpr i => exact h.emit (hmsr s i (hflags (by simp)))
  | spill k =>
      refine (h.emit fun l hvalues => ?_).emit (hmsr _ _ (hflags (by simp)))
      refine Machine.content_setX ?_ _
      rintro rfl
      exact absurd (h.recorded.gprs _ hvalues) (by decide)
  | flags => exact h
  | fpr i => exact h

def releaseFlags (s : RegAlloc) (location : HostLoc) (pick : ℕ) : Option RegAlloc :=
  if SpillsLiveFlags s.info location then s.spillFlags pick else some s

theorem readWriteFlags_eq (hlocation : s.valueLocation read = some location)
    (hmem : read ∈ (s.info location).values) (hscalar : ∀ i, location ≠ .fpr i) (pick : ℕ) :
    s.readWriteFlags read write pick =
      (releaseFlags s location pick).bind fun t => (loadFlags t location).setupFlags write := by
  unfold readWriteFlags releaseFlags SpillsLiveFlags
  rw [hlocation]
  cases location with
  | gpr i =>
      by_cases hlive : (s.info .flags).values = []
      · simp [hlive, loadFlags]
      · simp [hlive, loadFlags]
  | spill k =>
      by_cases hlive : (s.info .flags).values = []
      · simp [hlive, loadFlags]
      · simp [hlive, loadFlags]
  | flags =>
      have hlive : (s.info .flags).values ≠ [] := List.ne_nil_of_mem hmem
      by_cases hone : (s.info .flags).isOneRemainingUse = true
      · simp [hone, loadFlags]
      · simp [hone, hlive, loadFlags]
  | fpr i => exact absurd rfl (hscalar i)

theorem AtFlagsRead.valueLocation (h : AtFlagsRead width info read location write) (m : Machine) :
    RegAlloc.valueLocation ⟨info, m⟩ read = some location :=
  (valueLocation_eq_some h.recorded.unique).mpr h.located

/-- What releasing the flags leaves: all values, the carry's bits at the location, and empty flags
if a value is to be written. -/
theorem releaseFlags_spec {data : Inst → BitVec 128} {m : Machine}
    (h : AtFlagsRead width info read location write) (hsafe : FlagsReadSafe info location write)
    (hs : Sound ⟨width, data⟩ (fun _ => True) ⟨info, m⟩) (pick : ℕ) :
    ∃ t, releaseFlags ⟨info, m⟩ location pick = some t ∧
      Sound ⟨width, data⟩ (fun _ => True) t ∧
      (∀ v, (∃ l, v ∈ (t.info l).values) ↔ ∃ l, v ∈ (info l).values) ∧
      (t.machine.content location).extractLsb' 28 4 = (data read).extractLsb' 28 4 ∧
      (location ≠ .flags ∨ write ≠ none → t.info .flags = {}) := by
  have hread : (m.content location).extractLsb' 28 4 = (data read).extractLsb' 28 4 :=
    @Holds.extractLsb ⟨width, data⟩ m location read (hs.held location read h.located trivial) h.bits
  by_cases hspills : SpillsLiveFlags info location
  · -- The flags go to a register that is not the carry's.
    have hroom : (∃ i ∈ gprOrder, info (.gpr i) = {}) ∨ ∃ k, (info (.spill k)).values = [] := by
      by_cases hempty : ∃ i ∈ gprOrder, info (.gpr i) = {}
      · exact .inl hempty
      · exact .inr (hsafe.2 hspills fun i hi heq => hempty ⟨i, hi, heq⟩).1
    obtain ⟨j, hj, hfree⟩ := h.exists_free
    obtain ⟨t, ht⟩ := @spillFlags_isSome ⟨info, m⟩ width h.recorded pick j h.flags hj hfree hroom
    obtain ⟨i, hi, hsound, hfacts⟩ := spillFlags_spec hs hspills.1 ht
    refine ⟨t, (if_pos hspills).trans ht, hsound, hfacts.values, ?_, fun _ => hfacts.free⟩
    by_cases hflags : location = .flags
    · subst hflags
      rw [← hread]
      change (t.machine.flagsWord.setWidth 128).extractLsb' 28 4 =
        (m.flagsWord.setWidth 128).extractLsb' 28 4
      rw [extractLsb_flagsWord, extractLsb_flagsWord, hfacts.nzcv]
    · have hother : location ≠ .gpr i := by
        rintro rfl
        rcases (allocateRegister_spec hi).2 with hempty | ⟨hfull, hpicked⟩
        · exact absurd h.located (by rw [show info (.gpr i) = {} from hempty]; simp)
        · have hlocked := (hsafe.2 hspills hfull).2 i rfl
          exact absurd hpicked (by rw [hlocked]; decide)
      have hmem : read ∈ (t.info location).values := by
        rw [hfacts.keeps location hflags hother (List.ne_nil_of_mem h.located)]
        exact h.located
      exact @Holds.extractLsb ⟨width, data⟩ t.machine location read
        (hsound.held location read hmem trivial) h.bits
  · refine ⟨⟨info, m⟩, if_neg hspills, hs, fun v => Iff.rfl, hread, fun hneed => ?_⟩
    refine h.recorded.eq_empty (s := ⟨info, m⟩) ?_ h.flags
    by_contra hlive
    have hlast : location = .flags ∧ (info .flags).isOneRemainingUse = true := by
      by_contra hnot
      refine hspills ⟨hlive, fun hflags => ?_⟩
      simpa using fun hone => hnot ⟨hflags, hone⟩
    exact hsafe.1 ⟨hlast.1, hlast.2, hneed.resolve_left fun hne => hne hlast.1⟩

theorem setupLocation_empty (value : Inst) (useCount : ℕ) :
    HostLocInfo.setupLocation {} value useCount =
      some { values := [value], realized := true, expectedUses := useCount } := rfl

theorem setupFlags_spec (hs : Sound V ready s) (hwrite : write ≠ none → s.info .flags = {})
    (hfresh : ∀ value, write = some value → ∀ l, value.1 ∉ (s.info l).values) :
    ∃ t, s.setupFlags write = some t ∧ t.machine = s.machine ∧
      ∀ v l, v ∈ (s.info l).values → t.valueLocation v = some l := by
  rcases write with - | ⟨value, useCount⟩
  · exact ⟨s, rfl, rfl, fun v l hv => (valueLocation_eq_some hs.recorded.unique).mpr hv⟩
  · have hempty := hwrite (by simp)
    refine ⟨s.setInfo .flags { values := [value], expectedUses := useCount }, ?_, rfl, fun v l hv => ?_⟩
    · rw [setupFlags, hempty, setupLocation_empty]
      rfl
    · have hl : l ≠ .flags := by
        rintro rfl
        rw [hempty] at hv
        cases hv
      have hmem : v ∈ ((s.setInfo .flags { values := [value], expectedUses := useCount }).info
          l).values := mem_setInfo_values.mpr (.inr ⟨hl, hv⟩)
      exact (valueLocation_eq_some (unique_setInfo hs.recorded.unique rfl
        (hfresh (value, useCount) rfl))).mpr hmem

theorem readsFlags_of_safe (h : AtFlagsRead width info read location write)
    (hsafe : FlagsReadSafe info location write) : ReadsFlags width info read write := by
  intro data m pick hs
  obtain ⟨t, ht, hsound, hvalues, hbits, hflags⟩ := releaseFlags_spec h hsafe hs pick
  have hload : Sound ⟨width, data⟩ (fun _ => True) (loadFlags t location) :=
    hsound.loadFlags fun hne => by rw [hflags (.inl hne)]
  have hinfo : (loadFlags t location).info = t.info := by cases location <;> rfl
  have hfresh : ∀ value, write = some value → ∀ l,
      value.1 ∉ ((loadFlags t location).info l).values := by
    intro value hvalue l hl
    rw [hinfo] at hl
    obtain ⟨l', hl'⟩ := (hvalues value.1).mp ⟨l, hl⟩
    exact h.fresh value hvalue l' hl'
  obtain ⟨u, hu, hmachine, hlocated⟩ := setupFlags_spec hload
    (fun hwrite => by rw [hinfo, hflags (.inr hwrite)]) hfresh
  refine ⟨u, ?_, ?_, fun v l hv => ?_⟩
  · rw [readWriteFlags_eq (h.valueLocation m) h.located h.scalar, ht]
    exact hu
  · rw [hmachine, loadFlags_nzcv t h.scalar, hbits]
  · obtain ⟨l', hl'⟩ := (hvalues v).mpr ⟨l, hv⟩
    have hl'' : v ∈ ((loadFlags t location).info l').values := by rwa [hinfo]
    refine ⟨l', hlocated v l' hl'', ?_⟩
    rw [hmachine]
    exact hload.held l' v hl'' trivial

/-! ### Where it is wrong -/

theorem exists_sound (hrec : Recorded width info) (m : Machine) :
    ∃ data, Sound ⟨width, data⟩ (fun _ => True) ⟨info, m⟩ ∧
      ∀ l v, v ∈ (info l).values → data v = m.content l := by
  refine ⟨fun v => ((RegAlloc.valueLocation ⟨info, m⟩ v).map m.content).getD 0, ?_, ?_⟩
  all_goals
    have hdata : ∀ l v, v ∈ (info l).values →
        ((RegAlloc.valueLocation ⟨info, m⟩ v).map m.content).getD 0 = m.content l := by
      intro l v hv
      rw [(valueLocation_eq_some (s := ⟨info, m⟩) hrec.unique).mpr hv]
      rfl
  · refine ⟨hrec, fun l v hv _ => ?_⟩
    change _ = BitVec.setWidth _ (((RegAlloc.valueLocation ⟨info, m⟩ v).map m.content).getD 0)
    rw [hdata l v hv]
  · exact hdata

/-- What reading the flags amounts to for a machine and a choice of the register. -/
theorem ReadsFlags.released (hreads : ReadsFlags width info read write)
    (h : AtFlagsRead width info read location write) {data : Inst → BitVec 128} {m : Machine}
    (hs : Sound ⟨width, data⟩ (fun _ => True) ⟨info, m⟩) (pick : ℕ) :
    ∃ u t, releaseFlags ⟨info, m⟩ location pick = some u ∧
      (loadFlags u location).setupFlags write = some t ∧
      t.machine.nzcv = (data read).extractLsb' 28 4 := by
  obtain ⟨t, ht, hbits, -⟩ := hreads data m pick hs
  rw [readWriteFlags_eq (h.valueLocation m) h.located h.scalar] at ht
  obtain ⟨u, hu, ht⟩ := Option.bind_eq_some_iff.mp ht
  exact ⟨u, t, hu, ht, hbits⟩

theorem setupFlags_machine (h : s.setupFlags write = some t) : t.machine = s.machine := by
  rcases write with - | ⟨value, useCount⟩
  · obtain rfl : s = t := Option.some.inj h
    rfl
  · obtain ⟨i, -, hreturn⟩ := Option.bind_eq_some_iff.mp h
    obtain rfl := Option.some.inj hreturn
    rfl

theorem setupFlags_empty (h : s.setupFlags write = some t) (hwrite : write ≠ none) :
    s.info .flags = {} := by
  rcases write with - | ⟨value, useCount⟩
  · exact absurd rfl hwrite
  · obtain ⟨i, hi, -⟩ := Option.bind_eq_some_iff.mp h
    unfold HostLocInfo.setupLocation at hi
    split at hi
    · rename_i hempty
      exact HostLocInfo.isCompletelyEmpty_iff.mp hempty
    · cases hi

/-- In the flags for its last use, the carry is still recorded there when the value to be written
should be. -/
theorem not_readsFlags_of_last_use (h : AtFlagsRead width info read location write)
    (hflags : location = .flags) (hone : (info .flags).isOneRemainingUse = true)
    (hwrite : write ≠ none) : ¬ReadsFlags width info read write := by
  intro hreads
  subst hflags
  obtain ⟨data, hs, -⟩ := exists_sound h.recorded ⟨fun _ => 0, fun _ => 0, 0, fun _ => 0⟩
  obtain ⟨u, t, hu, ht, -⟩ := hreads.released h hs 0
  have hstays : ¬SpillsLiveFlags info .flags := fun hspills => by
    rw [hspills.2 rfl] at hone
    cases hone
  rw [releaseFlags, if_neg hstays] at hu
  obtain rfl := Option.some.inj hu
  have hempty : info .flags = {} := setupFlags_empty ht hwrite
  have hmem := h.located
  rw [hempty] at hmem
  cases hmem

/-- With every register and every spill slot taken, the flags have nowhere to go. -/
theorem not_readsFlags_of_full (h : AtFlagsRead width info read location write)
    (hspills : SpillsLiveFlags info location) (hfull : ∀ i ∈ gprOrder, info (.gpr i) ≠ {})
    (hslots : ∀ k, (info (.spill k)).values ≠ []) : ¬ReadsFlags width info read write := by
  intro hreads
  obtain ⟨data, hs, -⟩ := exists_sound h.recorded ⟨fun _ => 0, fun _ => 0, 0, fun _ => 0⟩
  obtain ⟨u, t, hu, -⟩ := hreads.released h hs 0
  rw [releaseFlags, if_pos hspills, spillFlags_eq_none h.recorded hspills.1 hfull hslots] at hu
  cases hu

/-- The flags can be written over the carry, which is then read back as the flags were. -/
theorem not_readsFlags_of_unlocked (h : AtFlagsRead width info read location write) {j : Fin 32}
    (hspills : SpillsLiveFlags info location) (hfull : ∀ i ∈ gprOrder, info (.gpr i) ≠ {})
    (hlocation : location = .gpr j) (hfree : (info (.gpr j)).maybeAllocatable = true) :
    ¬ReadsFlags width info read write := by
  intro hreads
  subst hlocation
  -- Clear flags and a carry of ones, in the register that is picked for the flags.
  obtain ⟨data, hs, hdata⟩ := exists_sound h.recorded
    ⟨fun _ => BitVec.allOnes 64, fun _ => 0, 0, fun _ => 0⟩
  have horder : j ∈ gprOrder := h.recorded.gprs j (List.ne_nil_of_mem h.located)
  obtain ⟨pick, hpick⟩ := @exists_pick (fun i => info (.gpr i)) _ _ horder hfull hfree
  obtain ⟨u, t, hu, ht, hbits⟩ := hreads.released h hs pick
  rw [releaseFlags, if_pos hspills] at hu
  obtain ⟨i, hi, -, hfacts⟩ := spillFlags_spec hs hspills.1 hu
  obtain rfl : i = j := Option.some.inj (hi.symm.trans hpick)
  rw [setupFlags_machine ht, loadFlags_nzcv u h.scalar, hdata _ _ h.located] at hbits
  change ((u.machine.x i).setWidth 128).extractLsb' 28 4 = _ at hbits
  rw [hfacts.moved, extractLsb_flagsWord] at hbits
  change 0#4 = ((BitVec.allOnes 64).setWidth 128).extractLsb' 28 4 at hbits
  exact absurd hbits (by decide)

/-- `ReadWriteFlags` reads the carry, whatever the values and whichever register is picked, if
and only if the state is safe. -/
theorem readWriteFlags_iff (h : AtFlagsRead width info read location write) :
    ReadsFlags width info read write ↔ FlagsReadSafe info location write := by
  refine ⟨fun hreads => ⟨?_, fun hspills hfull => ⟨?_, fun j hlocation => ?_⟩⟩,
    readsFlags_of_safe h⟩
  · rintro ⟨hflags, hone, hwrite⟩
    exact not_readsFlags_of_last_use h hflags hone hwrite hreads
  · by_contra hslots
    exact not_readsFlags_of_full h hspills hfull (fun k hk => hslots ⟨k, hk⟩) hreads
  · by_contra hfree
    exact not_readsFlags_of_unlocked h hspills hfull hlocation (by simpa using hfree) hreads

/-! ### An addition with carry -/

/-- The records at an addition of X20 and X21 into X22: value `i + 1` is in register `i` for the
busy registers, value 0 is in the flags and used so often by the addition. -/
def additionState (busy : List (Fin 32)) (uses : ℕ) : HostLoc → HostLocInfo
  | .gpr i =>
      if i ∈ busy then
        { values := [i.val + 1], locked := if i = 20 ∨ i = 21 then 1 else 0,
          realized := i = 20 ∨ i = 21 ∨ i = 22, usesThisInst := if i < 22 then 1 else 0,
          expectedUses := 1 }
      else {}
  | .flags => { values := [0], usesThisInst := uses, expectedUses := 1 }
  | .fpr _ | .spill _ => {}

theorem mem_additionState {busy : List (Fin 32)} {uses : ℕ} {l : HostLoc} {v : Inst} :
    v ∈ (additionState busy uses l).values ↔
      (∃ i ∈ busy, l = .gpr i ∧ v = i.val + 1) ∨ l = .flags ∧ v = 0 := by
  cases l with
  | gpr i => by_cases hi : i ∈ busy <;> simp [additionState, hi]
  | flags => simp [additionState]
  | fpr i => simp [additionState]
  | spill k => simp [additionState]

theorem recorded_additionState {busy : List (Fin 32)} (hbusy : busy ⊆ gprOrder) (uses : ℕ) :
    Recorded (fun _ => 32) (additionState busy uses) where
  unique v l l' hl hl' := by
    rw [mem_additionState] at hl hl'
    rcases hl with ⟨i, -, rfl, rfl⟩ | ⟨rfl, rfl⟩ <;> rcases hl' with ⟨j, -, rfl, hj⟩ | ⟨rfl, hj⟩
    · rw [Fin.ext (Nat.succ.inj hj)]
    · cases hj
    · cases hj
    · rfl
  tidy l hl := by
    cases l with
    | gpr i => by_cases hi : i ∈ busy <;> simp [additionState, hi] at hl ⊢
    | flags => cases hl
    | fpr i => rfl
    | spill k => rfl
  gprs i hi := by
    obtain ⟨v, hv⟩ := List.exists_mem_of_ne_nil _ hi
    rcases mem_additionState.mp hv with ⟨j, hj, heq, -⟩ | ⟨heq, -⟩
    · cases heq
      exact hbusy hj
    · cases heq
  fprs i hi := absurd rfl hi
  narrow _ _ _ _ := by decide

/-- The addition reads its carry from X19. -/
theorem atFlagsRead_additionState {busy : List (Fin 32)} (hbusy : busy ⊆ gprOrder)
    (hcarry : 19 ∈ busy)
    (hoperands : (gprOrder.filter fun i =>
      !(additionState busy 0 (.gpr i)).maybeAllocatable).length ≤ 3) :
    AtFlagsRead (fun _ => 32) (additionState busy 0) 20 (.gpr 19) none where
  recorded := recorded_additionState hbusy 0
  flags := rfl
  operands := hoperands
  located := mem_additionState.mpr (.inl ⟨19, hcarry, rfl, rfl⟩)
  scalar := by simp
  bits := by decide
  fresh := by simp

/-- The carry is in X19, the flags hold another value, and X23 is empty. -/
theorem readWriteFlags_with_empty_register :
    ReadsFlags (fun _ => 32) (additionState [19, 20, 21, 22] 0) 20 none :=
  (readWriteFlags_iff (atFlagsRead_additionState (by decide) (by decide) (by decide))).mpr
    ⟨by simp, fun _ hfull => absurd rfl (hfull 23 (by decide))⟩

/-- With all registers busy the flags, which are clear, replace the carry in X19: the addition reads
clear flags for a carry of ones.  And a carry in the flags, used for the last time by an addition
whose flags are wanted, fails the assertion of `SetupLocation`. -/
theorem readWriteFlags_loses_carry :
    (AtFlagsRead (fun _ => 32) (additionState gprOrder 0) 20 (.gpr 19) none ∧
      (readWriteFlags ⟨additionState gprOrder 0, ⟨fun _ => BitVec.allOnes 64, fun _ => 0, 0,
        fun _ => 0⟩⟩ 20 none 0).map (·.machine.nzcv) = some 0 ∧
      ¬ReadsFlags (fun _ => 32) (additionState gprOrder 0) 20 none) ∧
    AtFlagsRead (fun _ => 32) (additionState [] 1) 0 .flags (some (1, 1)) ∧
      ∀ m pick, readWriteFlags ⟨additionState [] 1, m⟩ 0 (some (1, 1)) pick = none := by
  have hbusy := atFlagsRead_additionState (fun _ => id : gprOrder ⊆ gprOrder) (by decide) (by decide)
  refine ⟨⟨hbusy, by decide, ?_⟩, ?_, fun m pick => rfl⟩
  · exact not_readsFlags_of_unlocked hbusy ⟨by decide, by simp⟩ (by decide) rfl (by decide)
  · refine ⟨recorded_additionState (by decide) 1, rfl, by decide, by decide, by simp, by decide, ?_⟩
    intro value hvalue l hl
    obtain rfl := Option.some.inj hvalue
    simp [mem_additionState] at hl

end

end Umbra.Arm64
