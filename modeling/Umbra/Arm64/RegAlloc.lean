import Mathlib.Data.List.FinRange
import Mathlib.Tactic.DeriveFintype
import Umbra.Lib.Lanes

/-!
The register allocator of the arm64 backend.

The allocator keeps a record for every general register, every vector register, the
flags and every spill slot: the values of the block that are there, how often they are
locked, and how many of their uses have been seen.  Beside the records the model keeps
the machine as the code emitted so far leaves it, so that the two can be compared.  A
failed assertion is `none`.
-/

namespace Umbra.Arm64

abbrev Inst := ℕ

inductive HostLoc
  | gpr (index : Fin 32)
  | fpr (index : Fin 32)
  | flags
  | spill (index : Fin 64)
deriving DecidableEq

structure HostLocInfo where
  values : List Inst := []
  locked : ℕ := 0
  realized : Bool := false
  usesThisInst : ℕ := 0
  accumulatedUses : ℕ := 0
  expectedUses : ℕ := 0
deriving DecidableEq

namespace HostLocInfo

def isCompletelyEmpty (i : HostLocInfo) : Bool :=
  i.values.isEmpty && i.locked == 0 && !i.realized && i.accumulatedUses == 0 &&
    i.expectedUses == 0 && i.usesThisInst == 0

def maybeAllocatable (i : HostLocInfo) : Bool := i.locked == 0 && !i.realized

def isOneRemainingUse (i : HostLocInfo) : Bool :=
  i.accumulatedUses + 1 == i.expectedUses && i.usesThisInst == 1

def setupLocation (i : HostLocInfo) (value : Inst) (useCount : ℕ) : Option HostLocInfo :=
  if i.isCompletelyEmpty then
    some { values := [value], locked := i.locked, realized := true, usesThisInst := 0,
           accumulatedUses := 0, expectedUses := useCount }
  else none

theorem isCompletelyEmpty_iff {i : HostLocInfo} : i.isCompletelyEmpty = true ↔ i = {} := by
  obtain ⟨values, locked, realized, usesThisInst, accumulatedUses, expectedUses⟩ := i
  simp only [isCompletelyEmpty, Bool.and_eq_true, List.isEmpty_iff, beq_iff_eq,
    Bool.not_eq_true', mk.injEq]
  tauto

theorem maybeAllocatable_iff {i : HostLocInfo} :
    i.maybeAllocatable = true ↔ i.locked = 0 ∧ i.realized = false := by
  simp [maybeAllocatable]

end HostLocInfo

/-! ### The machine -/

structure Machine where
  x : Fin 32 → BitVec 64
  q : Fin 32 → BitVec 128
  nzcv : BitVec 4
  stack : Fin 64 → BitVec 128

inductive HostInst
  | movX (d n : Fin 32)
  | movImm (d : Fin 32) (imm : BitVec 64)
  | fmovXD (d n : Fin 32)
  | fmovDX (d n : Fin 32)
  | movQ (d n : Fin 32)
  | ldrX (d : Fin 32) (slot : Fin 64)
  | ldrW (d : Fin 32) (slot : Fin 64)
  | ldrQ (d : Fin 32) (slot : Fin 64)
  | strX (n : Fin 32) (slot : Fin 64)
  | mrs (d : Fin 32)
  | msr (n : Fin 32)

namespace Machine

def setX (m : Machine) (i : Fin 32) (v : BitVec 64) : Machine :=
  { m with x := Function.update m.x i v }

def setQ (m : Machine) (i : Fin 32) (v : BitVec 128) : Machine :=
  { m with q := Function.update m.q i v }

def setStack (m : Machine) (i : Fin 64) (v : BitVec 128) : Machine :=
  { m with stack := Function.update m.stack i v }

def flagsWord (m : Machine) : BitVec 64 := m.nzcv.setWidth 64 <<< 28

def exec (m : Machine) : HostInst → Machine
  | .movX d n => m.setX d (m.x n)
  | .movImm d imm => m.setX d imm
  | .fmovXD d n => m.setX d ((m.q n).setWidth 64)
  | .fmovDX d n => m.setQ d ((m.x n).setWidth 128)
  | .movQ d n => m.setQ d (m.q n)
  | .ldrX d slot => m.setX d ((m.stack slot).setWidth 64)
  | .ldrW d slot => m.setX d (((m.stack slot).setWidth 32).setWidth 64)
  | .ldrQ d slot => m.setQ d (m.stack slot)
  | .strX n slot => m.setStack slot ((m.stack slot).extractLsb' 64 64 ++ m.x n)
  | .mrs d => m.setX d m.flagsWord
  | .msr n => { m with nzcv := (m.x n).extractLsb' 28 4 }

def content (m : Machine) : HostLoc → BitVec 128
  | .gpr i => (m.x i).setWidth 128
  | .fpr i => m.q i
  | .flags => m.flagsWord.setWidth 128
  | .spill i => m.stack i

end Machine

/-! ### The allocator -/

def gprOrder : List (Fin 32) :=
  [19, 20, 21, 22, 23, 9, 10, 11, 12, 13, 14, 15, 0, 1, 2, 3, 4, 5, 6, 7, 8]

def fprOrder : List (Fin 32) :=
  [8, 9, 10, 11, 12, 13, 14, 15, 16, 17, 18, 19, 20, 21, 22, 23, 24, 25, 26, 27, 28, 29, 30, 31]

def scratch0 : Fin 32 := 16

/-- The records of the allocator and the machine its code runs on. -/
structure RegAlloc where
  info : HostLoc → HostLocInfo
  machine : Machine

def locations : List HostLoc :=
  (List.finRange 32).map .gpr ++ (List.finRange 32).map .fpr ++ [.flags] ++
    (List.finRange 64).map .spill

theorem mem_locations (l : HostLoc) : l ∈ locations := by
  cases l <;> simp [locations]

/-- `AllocateRegister`: the first empty register, or the one of the candidates that the random
number picks.  Without candidates the source indexes an empty vector. -/
def allocateRegister (regs : Fin 32 → HostLocInfo) (order : List (Fin 32)) (pick : ℕ) :
    Option (Fin 32) :=
  match order.find? fun i => (regs i).isCompletelyEmpty with
  | some i => some i
  | none =>
      let candidates := order.filter fun i => (regs i).maybeAllocatable
      candidates[pick % candidates.length]?

namespace RegAlloc

def valueLocation (s : RegAlloc) (value : Inst) : Option HostLoc :=
  locations.find? fun l => decide (value ∈ (s.info l).values)

def emit (s : RegAlloc) (i : HostInst) : RegAlloc := { s with machine := s.machine.exec i }

def setInfo (s : RegAlloc) (l : HostLoc) (i : HostLocInfo) : RegAlloc :=
  { s with info := Function.update s.info l i }

/-- Move a record: `target = std::exchange(source, {})`. -/
def exchange (s : RegAlloc) (source target : HostLoc) : RegAlloc :=
  (s.setInfo target (s.info source)).setInfo source {}

def findFreeSpill (s : RegAlloc) : Option (Fin 64) :=
  (List.finRange 64).find? fun i => (s.info (.spill i)).values.isEmpty

def spillGpr (s : RegAlloc) (index : Fin 32) : Option RegAlloc :=
  if !(s.info (.gpr index)).maybeAllocatable then none
  else if (s.info (.gpr index)).values.isEmpty then some s
  else do
    let slot ← s.findFreeSpill
    return (s.emit (.strX index slot)).exchange (.gpr index) (.spill slot)

def spillFlags (s : RegAlloc) (pick : ℕ) : Option RegAlloc :=
  if !(s.info .flags).maybeAllocatable then none
  else if (s.info .flags).values.isEmpty then some s
  else do
    let index ← allocateRegister (fun i => s.info (.gpr i)) gprOrder pick
    let s ← s.spillGpr index
    return (s.emit (.mrs index)).exchange .flags (.gpr index)

/-- The end of `ReadWriteFlags`: record the value written, if there is one, with the number of
its uses. -/
def setupFlags (s : RegAlloc) : Option (Inst × ℕ) → Option RegAlloc
  | none => some s
  | some (value, useCount) => do
      let flags ← (s.info .flags).setupLocation value useCount
      return s.setInfo .flags { flags with realized := false }

def readWriteFlags (s : RegAlloc) (read : Inst) (write : Option (Inst × ℕ)) (pick : ℕ) :
    Option RegAlloc := do
  let currentLocation ← s.valueLocation read
  let s ← match currentLocation with
    | .flags => if !(s.info .flags).isOneRemainingUse then s.spillFlags pick else some s
    | .gpr index => do
        let s ← if !(s.info .flags).values.isEmpty then s.spillFlags pick else some s
        some (s.emit (.msr index))
    | .spill index => do
        let s ← if !(s.info .flags).values.isEmpty then s.spillFlags pick else some s
        some ((s.emit (.ldrW scratch0 index)).emit (.msr scratch0))
    | .fpr _ => none
  s.setupFlags write

end RegAlloc

/-! ### Copies between locations -/

def HostLoc.Wide : HostLoc → Prop
  | .fpr _ | .spill _ => True
  | .gpr _ | .flags => False

/-- The instruction copies the word of one location to another one, and the whole content if
both have room for it; it changes nothing else that holds values. -/
structure Copies (code : HostInst) (source target : HostLoc) : Prop where
  word : ∀ m : Machine, ((m.exec code).content target).setWidth 64 = (m.content source).setWidth 64
  whole : source.Wide → target.Wide →
    ∀ m : Machine, (m.exec code).content target = m.content source
  frame : ∀ (m : Machine) l, l ≠ target → (m.exec code).content l = m.content l

namespace Machine

variable {m : Machine} {l : HostLoc}

@[simp] theorem content_setX_self (i : Fin 32) (v : BitVec 64) :
    (m.setX i v).content (.gpr i) = v.setWidth 128 := by
  simp [content, setX]

@[simp] theorem content_setStack_self (i : Fin 64) (v : BitVec 128) :
    (m.setStack i v).content (.spill i) = v := by
  simp [content, setStack]

theorem content_setX {i : Fin 32} (h : l ≠ .gpr i) (v : BitVec 64) :
    (m.setX i v).content l = m.content l := by
  cases l with
  | gpr j => simp [content, setX, show j ≠ i from fun e => h (e ▸ rfl)]
  | _ => rfl

theorem content_setStack {i : Fin 64} (h : l ≠ .spill i) (v : BitVec 128) :
    (m.setStack i v).content l = m.content l := by
  cases l with
  | spill j => simp [content, setStack, show j ≠ i from fun e => h (e ▸ rfl)]
  | _ => rfl

end Machine

theorem copies_strX (i : Fin 32) (slot : Fin 64) : Copies (.strX i slot) (.gpr i) (.spill slot) where
  word m := by
    rw [Machine.exec, Machine.content_setStack_self]
    exact BitVec.setWidth_append_eq_right.trans (by simp [Machine.content])
  whole h := h.elim
  frame m l h := Machine.content_setStack h _

theorem copies_mrs (i : Fin 32) : Copies (.mrs i) .flags (.gpr i) where
  word m := by
    rw [Machine.exec, Machine.content_setX_self]
    rfl
  whole h := h.elim
  frame m l h := Machine.content_setX h _

/-! ### Records and contents -/

/-- What the values of the block are, and how many low bits of a location they take. -/
structure BlockValues where
  width : Inst → ℕ
  data : Inst → BitVec 128

def Holds (V : BlockValues) (m : Machine) (l : HostLoc) (v : Inst) : Prop :=
  (m.content l).setWidth (V.width v) = (V.data v).setWidth (V.width v)

/-- A value is recorded in one place only, an empty record has no uses, values are in registers
the allocator hands out, and vectors are where there is room for them. -/
structure Recorded (width : Inst → ℕ) (info : HostLoc → HostLocInfo) : Prop where
  unique : ∀ v l l', v ∈ (info l).values → v ∈ (info l').values → l = l'
  tidy : ∀ l, (info l).values = [] → info l = { realized := (info l).realized }
  gprs : ∀ i, (info (.gpr i)).values ≠ [] → i ∈ gprOrder
  fprs : ∀ i, (info (.fpr i)).values ≠ [] → i ∈ fprOrder
  narrow : ∀ l v, v ∈ (info l).values → ¬l.Wide → width v ≤ 64

/-- The records are in order, and the values that have been produced are where they are
recorded. -/
structure Sound (V : BlockValues) (ready : Inst → Prop) (s : RegAlloc) : Prop where
  recorded : Recorded V.width s.info
  held : ∀ l v, v ∈ (s.info l).values → ready v → Holds V s.machine l v

namespace RegAlloc

def move (s : RegAlloc) (code : HostInst) (source target : HostLoc) : RegAlloc :=
  (s.emit code).exchange source target

variable {s t : RegAlloc} {V : BlockValues} {ready : Inst → Prop} {source target l : HostLoc}
  {code : HostInst} {v : Inst}

theorem setInfo_info {i : HostLocInfo} {place : HostLoc} :
    (s.setInfo place i).info l = if l = place then i else s.info l := by
  change Function.update s.info place i l = _
  rw [Function.update_apply]

theorem mem_setInfo_values {i : HostLocInfo} {place : HostLoc} :
    v ∈ ((s.setInfo place i).info l).values ↔
      l = place ∧ v ∈ i.values ∨ l ≠ place ∧ v ∈ (s.info l).values := by
  rw [setInfo_info]
  split
  · rename_i h
    simp [h]
  · rename_i h
    simp [h]

theorem move_info : (s.move code source target).info l =
    if l = source then {} else if l = target then s.info source else s.info l := by
  change Function.update (Function.update s.info target (s.info source)) source {} l = _
  simp only [Function.update_apply]

theorem move_info_source : (s.move code source target).info source = {} := by
  rw [move_info, if_pos rfl]

theorem move_info_target (hne : source ≠ target) :
    (s.move code source target).info target = s.info source := by
  rw [move_info, if_neg hne.symm, if_pos rfl]

theorem move_info_other (hs : l ≠ source) (ht : l ≠ target) :
    (s.move code source target).info l = s.info l := by
  rw [move_info, if_neg hs, if_neg ht]

theorem mem_move_values (hne : source ≠ target) (hempty : (s.info target).values = []) :
    v ∈ ((s.move code source target).info l).values ↔
      l = target ∧ v ∈ (s.info source).values ∨ l ≠ source ∧ v ∈ (s.info l).values := by
  by_cases hs : l = source
  · subst hs
    rw [move_info_source]
    simp [hne]
  · by_cases ht : l = target
    · subst ht
      rw [move_info_target hne]
      simp [hempty]
    · rw [move_info_other hs ht]
      simp [hs, ht]

theorem exists_mem_move_values (hne : source ≠ target) (hempty : (s.info target).values = []) :
    (∃ l, v ∈ ((s.move code source target).info l).values) ↔ ∃ l, v ∈ (s.info l).values := by
  simp only [mem_move_values hne hempty]
  constructor
  · rintro ⟨l, ⟨-, hmem⟩ | ⟨-, hmem⟩⟩
    · exact ⟨source, hmem⟩
    · exact ⟨l, hmem⟩
  · rintro ⟨l, hmem⟩
    by_cases hl : l = source
    · exact ⟨target, .inl ⟨rfl, hl ▸ hmem⟩⟩
    · exact ⟨l, .inr ⟨hl, hmem⟩⟩

theorem forall_move {P : HostLocInfo → Prop} (hempty : P {}) (h : ∀ l, P (s.info l)) (l : HostLoc) :
    P ((s.move code source target).info l) := by
  rw [move_info]
  split
  · exact hempty
  · split
    · exact h source
    · exact h l

end RegAlloc

open RegAlloc

variable {s t : RegAlloc} {V : BlockValues} {ready : Inst → Prop} {source target l : HostLoc}
  {code : HostInst} {v : Inst} {width : Inst → ℕ}

structure Admits (width : Inst → ℕ) (target : HostLoc) (values : List Inst) : Prop where
  gprs : ∀ i, target = .gpr i → i ∈ gprOrder
  fprs : ∀ i, target = .fpr i → i ∈ fprOrder
  narrow : ¬target.Wide → ∀ v ∈ values, width v ≤ 64

theorem Recorded.move (h : Recorded width s.info) (hne : source ≠ target)
    (hempty : (s.info target).values = []) (hadmits : Admits width target (s.info source).values) :
    Recorded width (s.move code source target).info where
  unique v l l' hl hl' := by
    rw [mem_move_values hne hempty] at hl hl'
    rcases hl with ⟨rfl, hs⟩ | ⟨hl, hmem⟩ <;> rcases hl' with ⟨rfl, hs'⟩ | ⟨hl', hmem'⟩
    · rfl
    · exact absurd (h.unique v _ _ hmem' hs) hl'
    · exact absurd (h.unique v _ _ hmem hs') hl
    · exact h.unique v _ _ hmem hmem'
  tidy l := forall_move (P := fun i => i.values = [] → i = { realized := i.realized })
    (fun _ => rfl) h.tidy l
  gprs i hi := by
    obtain ⟨v, hv⟩ := List.exists_mem_of_ne_nil _ hi
    rcases (mem_move_values hne hempty).mp hv with ⟨hl, -⟩ | ⟨-, hmem⟩
    · exact hadmits.gprs i hl.symm
    · exact h.gprs i (List.ne_nil_of_mem hmem)
  fprs i hi := by
    obtain ⟨v, hv⟩ := List.exists_mem_of_ne_nil _ hi
    rcases (mem_move_values hne hempty).mp hv with ⟨hl, -⟩ | ⟨-, hmem⟩
    · exact hadmits.fprs i hl.symm
    · exact h.fprs i (List.ne_nil_of_mem hmem)
  narrow l v hv hnot := by
    rcases (mem_move_values hne hempty).mp hv with ⟨rfl, hs⟩ | ⟨-, hmem⟩
    · exact hadmits.narrow hnot v hs
    · exact h.narrow l v hmem hnot

theorem setWidth_of_word {n : ℕ} (hn : n ≤ 64) {a b : BitVec 128}
    (h : a.setWidth 64 = b.setWidth 64) : a.setWidth n = b.setWidth n := by
  have hcut : ∀ c : BitVec 128, c.setWidth n = (c.setWidth 64).setWidth n := fun c =>
    (BitVec.setWidth_setWidth_of_le c hn).symm
  rw [hcut a, hcut b, h]

theorem Sound.move (h : Sound V ready s) (hcopy : Copies code source target)
    (hne : source ≠ target) (hempty : (s.info target).values = [])
    (hadmits : Admits V.width target (s.info source).values) :
    Sound V ready (s.move code source target) where
  recorded := h.recorded.move hne hempty hadmits
  held l v hv hready := by
    change ((s.machine.exec code).content l).setWidth _ = _
    rcases (mem_move_values hne hempty).mp hv with ⟨rfl, hs⟩ | ⟨-, hmem⟩
    · rw [← h.held source v hs hready]
      by_cases hwidth : V.width v ≤ 64
      · exact setWidth_of_word hwidth (hcopy.word s.machine)
      · have hsource : source.Wide := by
          by_contra hnot
          exact hwidth (h.recorded.narrow source v hs hnot)
        have htarget : l.Wide := by
          by_contra hnot
          exact hwidth (hadmits.narrow hnot v hs)
        rw [hcopy.whole hsource htarget]
    · have hl : l ≠ target := by
        rintro rfl
        rw [hempty] at hmem
        cases hmem
      rw [hcopy.frame s.machine l hl]
      exact h.held l v hmem hready

theorem Sound.emit (h : Sound V ready s)
    (hframe : ∀ l, (s.info l).values ≠ [] → (s.machine.exec code).content l = s.machine.content l) :
    Sound V ready (s.emit code) where
  recorded := h.recorded
  held l v hv hready := by
    change ((s.machine.exec code).content l).setWidth _ = _
    rw [hframe l (List.ne_nil_of_mem hv)]
    exact h.held l v hv hready

theorem valueLocation_eq_some
    (hunique : ∀ v l l', v ∈ (s.info l).values → v ∈ (s.info l').values → l = l') :
    s.valueLocation v = some l ↔ v ∈ (s.info l).values := by
  constructor
  · intro hfound
    simpa using List.find?_some hfound
  · intro hmem
    cases hfound : s.valueLocation v with
    | none => exact absurd hmem (by simpa using List.find?_eq_none.mp hfound l (mem_locations l))
    | some l' =>
        have hmem' : v ∈ (s.info l').values := by simpa using List.find?_some hfound
        rw [hunique v l l' hmem hmem']

theorem unique_setInfo {place : HostLoc} {i : HostLocInfo} {value : Inst}
    (hunique : ∀ v l l', v ∈ (s.info l).values → v ∈ (s.info l').values → l = l')
    (hvalues : i.values = [value]) (hfresh : ∀ l, value ∉ (s.info l).values) (v : Inst)
    (l l' : HostLoc) (hl : v ∈ ((s.setInfo place i).info l).values)
    (hl' : v ∈ ((s.setInfo place i).info l').values) : l = l' := by
  rw [mem_setInfo_values, hvalues, List.mem_singleton] at hl hl'
  rcases hl with ⟨rfl, rfl⟩ | ⟨-, hmem⟩ <;> rcases hl' with ⟨rfl, hv⟩ | ⟨-, hmem'⟩
  · rfl
  · exact absurd hmem' (hfresh l')
  · exact absurd (hv ▸ hmem) (hfresh l)
  · exact hunique v l l' hmem hmem'

theorem Recorded.eq_empty (h : Recorded width s.info) (hvalues : (s.info l).values = [])
    (hfree : (s.info l).maybeAllocatable = true) : s.info l = {} := by
  rw [h.tidy l hvalues, (HostLocInfo.maybeAllocatable_iff.mp hfree).2]

/-! ### Choosing registers and spilling -/

/-- The chosen register is one of the order; it is empty, or none of the order is and it is not
in use by the instruction. -/
theorem allocateRegister_spec {regs : Fin 32 → HostLocInfo} {order : List (Fin 32)} {pick : ℕ}
    {i : Fin 32} (h : allocateRegister regs order pick = some i) :
    i ∈ order ∧ (regs i = {} ∨
      (∀ j ∈ order, regs j ≠ {}) ∧ (regs i).maybeAllocatable = true) := by
  unfold allocateRegister at h
  split at h
  · rename_i j hfound
    obtain rfl : j = i := Option.some.inj h
    exact ⟨List.mem_of_find?_eq_some hfound,
      .inl (HostLocInfo.isCompletelyEmpty_iff.mp (by simpa using List.find?_some hfound))⟩
  · rename_i hnone
    have hmem := List.mem_of_getElem? h
    rw [List.mem_filter] at hmem
    refine ⟨hmem.1, .inr ⟨fun j hj hempty => ?_, hmem.2⟩⟩
    exact List.find?_eq_none.mp hnone j hj (HostLocInfo.isCompletelyEmpty_iff.mpr hempty)

theorem allocateRegister_isSome {regs : Fin 32 → HostLocInfo} {order : List (Fin 32)} {j : Fin 32}
    (hj : j ∈ order) (hfree : (regs j).maybeAllocatable = true) (pick : ℕ) :
    ∃ i, allocateRegister regs order pick = some i := by
  unfold allocateRegister
  split
  · exact ⟨_, rfl⟩
  · have hmem : j ∈ order.filter fun i => (regs i).maybeAllocatable :=
      List.mem_filter.mpr ⟨hj, hfree⟩
    have hlt : pick % (order.filter fun i => (regs i).maybeAllocatable).length <
        (order.filter fun i => (regs i).maybeAllocatable).length :=
      Nat.mod_lt _ (List.length_pos_of_mem hmem)
    exact ⟨_, List.getElem?_eq_getElem hlt⟩

theorem exists_pick {regs : Fin 32 → HostLocInfo} {order : List (Fin 32)} {j : Fin 32}
    (hj : j ∈ order) (hfull : ∀ i ∈ order, regs i ≠ {})
    (hfree : (regs j).maybeAllocatable = true) :
    ∃ pick, allocateRegister regs order pick = some j := by
  have hmem : j ∈ order.filter fun i => (regs i).maybeAllocatable :=
    List.mem_filter.mpr ⟨hj, hfree⟩
  obtain ⟨n, hn, heq⟩ := List.getElem_of_mem hmem
  refine ⟨n, ?_⟩
  have hnone : (order.find? fun i => (regs i).isCompletelyEmpty) = none :=
    List.find?_eq_none.mpr fun i hi h => hfull i hi (HostLocInfo.isCompletelyEmpty_iff.mp h)
  unfold allocateRegister
  simp only [hnone, Nat.mod_eq_of_lt hn]
  rw [List.getElem?_eq_getElem hn, heq]

theorem findFreeSpill_spec {slot : Fin 64} (h : s.findFreeSpill = some slot) :
    (s.info (.spill slot)).values = [] := by
  simpa using List.find?_some h

theorem findFreeSpill_eq_none : s.findFreeSpill = none ↔ ∀ k, (s.info (.spill k)).values ≠ [] := by
  rw [findFreeSpill, List.find?_eq_none]
  constructor
  · intro h k
    simpa using h k (List.mem_finRange k)
  · intro h k _
    simpa using h k

theorem spillGpr_eq {i : Fin 32} (hfree : (s.info (.gpr i)).maybeAllocatable = true)
    (hvalues : (s.info (.gpr i)).values ≠ []) :
    s.spillGpr i = s.findFreeSpill.map fun slot =>
      s.move (.strX i slot) (.gpr i) (.spill slot) := by
  have hne : (s.info (.gpr i)).values.isEmpty = false := by simpa using hvalues
  rw [spillGpr, hfree, hne]
  cases s.findFreeSpill <;> rfl

theorem spillGpr_of_empty {i : Fin 32} (hempty : s.info (.gpr i) = {}) :
    s.spillGpr i = some s := by
  rw [spillGpr, hempty]
  rfl

/-- `SpillGpr` leaves the register empty, every other record that has values as it was, and the
flags and the other registers alone. -/
structure SpillsGpr (s : RegAlloc) (i : Fin 32) (t : RegAlloc) : Prop where
  free : t.info (.gpr i) = {}
  values : ∀ v, (∃ l, v ∈ (t.info l).values) ↔ ∃ l, v ∈ (s.info l).values
  keeps : ∀ l, l ≠ .gpr i → (s.info l).values ≠ [] → t.info l = s.info l
  gprs : ∀ j, j ≠ i → t.info (.gpr j) = s.info (.gpr j)
  fprs : ∀ j, t.info (.fpr j) = s.info (.fpr j)
  flags : t.info .flags = s.info .flags
  x : t.machine.x = s.machine.x
  q : t.machine.q = s.machine.q
  nzcv : t.machine.nzcv = s.machine.nzcv

theorem spillGpr_spec (h : Sound V ready s) {i : Fin 32} (hrun : s.spillGpr i = some t) :
    Sound V ready t ∧ SpillsGpr s i t := by
  unfold spillGpr at hrun
  split at hrun
  · cases hrun
  · rename_i hfree
    simp only [Bool.not_eq_true, Bool.not_eq_false'] at hfree
    split at hrun
    · rename_i hvalues
      obtain rfl : s = t := Option.some.inj hrun
      have hempty := h.recorded.eq_empty (List.isEmpty_iff.mp hvalues) hfree
      exact ⟨h, hempty, fun _ => Iff.rfl, fun _ _ _ => rfl, fun _ _ => rfl, fun _ => rfl, rfl, rfl,
        rfl, rfl⟩
    · obtain ⟨slot, hslot, hreturn⟩ := Option.bind_eq_some_iff.mp hrun
      obtain rfl : s.move (.strX i slot) (.gpr i) (.spill slot) = t := Option.some.inj hreturn
      have hempty := findFreeSpill_spec hslot
      have hne : HostLoc.gpr i ≠ .spill slot := by simp
      refine ⟨h.move (copies_strX i slot) hne hempty ⟨by simp, by simp, fun hnot => ?_⟩,
        move_info_source, fun v => exists_mem_move_values hne hempty,
        fun l hl hvalues => move_info_other hl ?_, fun j hj => ?_, fun j => ?_, ?_, rfl, rfl, rfl⟩
      · exact absurd trivial hnot
      · rintro rfl
        exact hvalues hempty
      · exact move_info_other (by simpa using hj) (by simp)
      · exact move_info_other (by simp) (by simp)
      · exact move_info_other (by simp) (by simp)

/-- `SpillFlags` of live flags: they are in a register afterwards, which was chosen for them and
has been spilled. -/
structure SpillsFlags (s : RegAlloc) (i : Fin 32) (t : RegAlloc) : Prop where
  free : t.info .flags = {}
  values : ∀ v, (∃ l, v ∈ (t.info l).values) ↔ ∃ l, v ∈ (s.info l).values
  placed : t.info (.gpr i) = s.info .flags
  keeps : ∀ l, l ≠ .flags → l ≠ .gpr i → (s.info l).values ≠ [] → t.info l = s.info l
  gprs : ∀ j, j ≠ i → t.info (.gpr j) = s.info (.gpr j)
  fprs : ∀ j, t.info (.fpr j) = s.info (.fpr j)
  x : ∀ j, j ≠ i → t.machine.x j = s.machine.x j
  moved : t.machine.x i = s.machine.flagsWord
  q : t.machine.q = s.machine.q
  nzcv : t.machine.nzcv = s.machine.nzcv

/-- Spilling the flags moves them to a general register, which is spilled first. -/
theorem spillFlags_spec (h : Sound V ready s) {pick : ℕ} (hlive : (s.info .flags).values ≠ [])
    (hrun : s.spillFlags pick = some t) :
    ∃ i, allocateRegister (fun i => s.info (.gpr i)) gprOrder pick = some i ∧ Sound V ready t ∧
      SpillsFlags s i t := by
  unfold spillFlags at hrun
  split at hrun
  · cases hrun
  · rw [if_neg (by simpa using hlive)] at hrun
    obtain ⟨i, hi, hrun⟩ := Option.bind_eq_some_iff.mp hrun
    obtain ⟨u, hspill, hreturn⟩ := Option.bind_eq_some_iff.mp hrun
    obtain rfl : u.move (.mrs i) .flags (.gpr i) = t := Option.some.inj hreturn
    obtain ⟨hu, hspills⟩ := spillGpr_spec h hspill
    have hne : HostLoc.flags ≠ .gpr i := by simp
    have horder := (allocateRegister_spec hi).1
    refine ⟨i, hi, hu.move (copies_mrs i) hne (by rw [hspills.free]) ⟨?_, by simp, ?_⟩,
      move_info_source, fun v => ?_, ?_, ?_, ?_, ?_, ?_, ?_, ?_, ?_⟩
    · intro j hj
      obtain rfl : i = j := by simpa using hj
      exact horder
    · intro _ v hv
      exact hu.recorded.narrow .flags v hv id
    · rw [exists_mem_move_values hne (by rw [hspills.free]), hspills.values]
    · rw [move_info_target hne, hspills.flags]
    · intro l hflags hl hvalues
      rw [move_info_other hflags hl, hspills.keeps l hl hvalues]
    · intro j hj
      rw [move_info_other (by simp) (by simpa using hj), hspills.gprs j hj]
    · intro j
      rw [move_info_other (by simp) (by simp), hspills.fprs]
    · intro j hj
      change Function.update u.machine.x i _ j = _
      rw [Function.update_of_ne hj, hspills.x]
    · change Function.update u.machine.x i u.machine.flagsWord i = _
      rw [Function.update_self, Machine.flagsWord, hspills.nzcv, Machine.flagsWord]
    · exact hspills.q
    · exact hspills.nzcv

/-- `SpillFlags` returns where a register can be had: one is empty, or there is a spill slot for
the one that is chosen. -/
theorem spillFlags_isSome (hrec : Recorded width s.info) {pick : ℕ} {j : Fin 32}
    (hflags : (s.info .flags).maybeAllocatable = true) (hj : j ∈ gprOrder)
    (hfree : (s.info (.gpr j)).maybeAllocatable = true)
    (hroom : (∃ i ∈ gprOrder, s.info (.gpr i) = {}) ∨ ∃ k, (s.info (.spill k)).values = []) :
    ∃ t, s.spillFlags pick = some t := by
  by_cases hlive : (s.info .flags).values = []
  · exact ⟨s, by rw [spillFlags, hflags, hlive]; rfl⟩
  · obtain ⟨i, hi⟩ := @allocateRegister_isSome (fun i => s.info (.gpr i)) _ _ hj hfree
      pick
    have hspill : ∃ u, s.spillGpr i = some u := by
      rcases (allocateRegister_spec hi).2 with hempty | ⟨hfull, hi'⟩
      · exact ⟨s, spillGpr_of_empty hempty⟩
      · by_cases hvalues : (s.info (.gpr i)).values = []
        · exact ⟨s, spillGpr_of_empty (hrec.eq_empty hvalues hi')⟩
        · rw [spillGpr_eq hi' hvalues]
          cases hslot : s.findFreeSpill with
          | some slot => exact ⟨_, rfl⟩
          | none =>
              rcases hroom with ⟨k, hk, hempty⟩ | ⟨k, hk⟩
              · exact absurd hempty (hfull k hk)
              · exact absurd hk (findFreeSpill_eq_none.mp hslot k)
    obtain ⟨u, hu⟩ := hspill
    refine ⟨u.move (.mrs i) .flags (.gpr i), ?_⟩
    have hne : (s.info .flags).values.isEmpty = false := by simpa using hlive
    simp [spillFlags, hflags, hne, hi, hu, move]

theorem spillFlags_eq_none (hrec : Recorded width s.info) (hlive : (s.info .flags).values ≠ [])
    (hfull : ∀ i ∈ gprOrder, s.info (.gpr i) ≠ {}) (hslots : ∀ k, (s.info (.spill k)).values ≠ [])
    (pick : ℕ) : s.spillFlags pick = none := by
  cases hrun : s.spillFlags pick with
  | none => rfl
  | some t =>
      unfold spillFlags at hrun
      split at hrun
      · cases hrun
      · rw [if_neg (by simpa using hlive)] at hrun
        obtain ⟨i, hi, hrun⟩ := Option.bind_eq_some_iff.mp hrun
        obtain ⟨u, hspill, -⟩ := Option.bind_eq_some_iff.mp hrun
        obtain ⟨horder, hempty | ⟨-, hfree⟩⟩ := allocateRegister_spec hi
        · exact absurd hempty (hfull i horder)
        · have hvalues : (s.info (.gpr i)).values ≠ [] := fun hnil =>
            hfull i horder (hrec.eq_empty hnil hfree)
          rw [spillGpr_eq hfree hvalues, findFreeSpill_eq_none.mpr hslots] at hspill
          cases hspill

end Umbra.Arm64
