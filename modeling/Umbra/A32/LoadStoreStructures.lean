import Umbra.A32.LoadStoreMultiple
import Umbra.Lib.ByteMemory

/-!
The transfers of multiple structures, `v8_VST_multiple` and `v8_VLD_multiple`.

The store shifts each element out of its register and writes it behind the one
before; the load clears the registers and puts each element it reads over them.
A bit of a register is covered by the element of its position alone, so that the
load gathers what the store has spread, whatever the layout.
-/

namespace Umbra.A32

open Umbra.Lib

structure StructureFields where
  D : Bool
  n : Reg
  Vd : BitVec 4
  type : BitVec 4
  size : BitVec 2
  align : BitVec 2
  m : Reg

inductive Refusal
  | decodeError
  | undefinedInstruction
  | unpredictableInstruction
deriving DecidableEq

/-- The structures have `nelem` elements, `inc` registers apart, and `regs` registers
are transferred for each. -/
structure Layout where
  nelem : ℕ
  regs : ℕ
  inc : ℕ
deriving DecidableEq

/-- `DecodeType`.  The types it asserts against have been refused before. -/
def decodeType (type : BitVec 4) (size align : BitVec 2) : Option Layout :=
  match type.toNat with
  | 0b0111 => if align.getLsbD 1 then none else some ⟨1, 1, 0⟩
  | 0b1010 => if align = 0b11#2 then none else some ⟨1, 2, 0⟩
  | 0b0110 => if align.getLsbD 1 then none else some ⟨1, 3, 0⟩
  | 0b0010 => some ⟨1, 4, 0⟩
  | 0b1000 => if size = 0b11#2 ∨ align = 0b11#2 then none else some ⟨2, 1, 1⟩
  | 0b1001 => if size = 0b11#2 ∨ align = 0b11#2 then none else some ⟨2, 1, 2⟩
  | 0b0011 => if size = 0b11#2 then none else some ⟨2, 2, 2⟩
  | 0b0100 => if size = 0b11#2 ∨ align.getLsbD 1 then none else some ⟨3, 1, 1⟩
  | 0b0101 => if size = 0b11#2 ∨ align.getLsbD 1 then none else some ⟨3, 1, 2⟩
  | 0b0000 => if size = 0b11#2 then none else some ⟨4, 1, 1⟩
  | 0b0001 => if size = 0b11#2 then none else some ⟨4, 1, 2⟩
  | _ => none

namespace StructureFields

variable (f : StructureFields)

/-- The number of `ToExtRegD`. -/
def d : ℕ := f.Vd.toNat + if f.D then 16 else 0

/-- What both handlers check before they emit anything. -/
def decode : Except Refusal Layout :=
  if f.type = 0b1011#4 ∨ f.type.extractLsb' 2 2 = 0b11#2 then .error .decodeError
  else match decodeType f.type f.size f.align with
    | none => .error .undefinedInstruction
    | some l =>
        if f.n = Reg.pc ∨ f.d + l.inc * (l.nelem - 1) + l.regs > 32 then
          .error .unpredictableInstruction
        else .ok l

def ebytes : ℕ := 1 <<< f.size.toNat

def elements : ℕ := 8 / f.ebytes

/-- `d + i * inc + r`, which the checks keep below 32. -/
def extReg (l : Layout) (r i : ℕ) : Fin 32 := Fin.ofNat 32 (f.d + i * l.inc + r)

end StructureFields

structure NeonState where
  regs : Reg → BitVec 32
  ext : Fin 32 → BitVec 64
  memory : ByteMemory 32

namespace NeonState

def setExt (s : NeonState) (r : Fin 32) (v : BitVec 64) : NeonState :=
  { s with ext := Function.update s.ext r v }

end NeonState

namespace IREmitter

variable (ir : IREmitter)

/-- A value of `n` bytes in the current endianness; one byte is never reversed. -/
def inOrder {n : ℕ} (v : BitVec (8 * n)) : BitVec (8 * n) :=
  if n ≠ 1 ∧ ir.currentLocation.eFlag then byteReverse v else v

def readMemory (n : ℕ) (vaddr : BitVec 32) (s : NeonState) : BitVec (8 * n) :=
  ir.inOrder (ofBytes (8 * n) (s.memory.read vaddr n))

def writeMemory (n : ℕ) (vaddr : BitVec 32) (v : BitVec (8 * n)) (s : NeonState) : NeonState :=
  { s with memory := s.memory.write vaddr (bytesOf n (ir.inOrder v)) }

end IREmitter

def Layout.forElements {σ : Type} (l : Layout) (elements : ℕ) (body : ℕ → ℕ → ℕ → σ → σ)
    (s : σ) : σ :=
  (List.range l.regs).foldl (fun s r => (List.range elements).foldl (fun s e =>
    (List.range l.nelem).foldl (fun s i => body r e i s) s) s) s

section Handlers

variable (ir : IREmitter) (f : StructureFields) (l : Layout)

/-- The body of the loops of `v8_VST_multiple`. -/
def storeElement (r e i : ℕ) : NeonState × BitVec 32 → NeonState × BitVec 32
  | (s, address) =>
      let shifted := s.ext (f.extReg l r i) >>> (e * f.ebytes * 8)
      (ir.writeMemory f.ebytes address (shifted.setWidth (8 * f.ebytes)) s,
        address + BitVec.ofNat 32 f.ebytes)

/-- The body of the loops of `v8_VLD_multiple`. -/
def loadElement (r e i : ℕ) : NeonState × BitVec 32 → NeonState × BitVec 32
  | (s, address) =>
      let element := (ir.readMemory f.ebytes address s).setWidth 64
      let reg := f.extReg l r i
      (s.setExt reg (s.ext reg ||| element <<< (e * f.ebytes * 8)),
        address + BitVec.ofNat 32 f.ebytes)

def clearRegisters (s : NeonState) : NeonState :=
  (List.range l.regs).foldl (fun s r =>
    (List.range l.nelem).foldl (fun s i => s.setExt (f.extReg l r i) 0#64) s) s

def writeBack (s : NeonState) : NeonState :=
  if f.m ≠ Reg.pc then
    if f.m ≠ Reg.sp then
      { s with regs := Function.update s.regs f.n (s.regs f.n + s.regs f.m) }
    else
      { s with
        regs := Function.update s.regs f.n
          (s.regs f.n + BitVec.ofNat 32 (8 * l.nelem * l.regs)) }
  else s

def vstMultiple : Except Refusal (NeonState → NeonState) := do
  let l ← f.decode
  pure fun s =>
    writeBack f l (l.forElements f.elements (storeElement ir f l) (s, s.regs f.n)).1

def vldMultiple : Except Refusal (NeonState → NeonState) := do
  let l ← f.decode
  pure fun s =>
    let s := clearRegisters f l s
    writeBack f l (l.forElements f.elements (loadElement ir f l) (s, s.regs f.n)).1

end Handlers

/-! ### The loops -/

/-- The element `e` of the register number `r` for the place `i` in the structure. -/
structure Slot where
  r : ℕ
  e : ℕ
  i : ℕ

def Layout.slots (l : Layout) (elements : ℕ) : List Slot :=
  (List.range l.regs).flatMap fun r => (List.range elements).flatMap fun e =>
    (List.range l.nelem).map fun i => ⟨r, e, i⟩

theorem Layout.forElements_eq {σ : Type} (l : Layout) (elements : ℕ) (body : ℕ → ℕ → ℕ → σ → σ)
    (s : σ) :
    l.forElements elements body s =
      (l.slots elements).foldl (fun s t => body t.r t.e t.i s) s := by
  simp only [forElements, slots, List.foldl_flatMap, List.foldl_map]

theorem Layout.mem_slots {l : Layout} {elements : ℕ} {t : Slot} :
    t ∈ l.slots elements ↔ t.r < l.regs ∧ t.e < elements ∧ t.i < l.nelem := by
  cases t
  simp [slots]

theorem Layout.length_slots (l : Layout) (elements : ℕ) :
    (l.slots elements).length = l.regs * (elements * l.nelem) := by
  simp [slots, List.length_flatMap]

section Loops

variable {ir : IREmitter} {f : StructureFields} {l : Layout}

def StructureFields.element (f : StructureFields) (l : Layout) (ext : Fin 32 → BitVec 64)
    (t : Slot) : BitVec (8 * f.ebytes) :=
  (ext (f.extReg l t.r t.i) >>> (t.e * f.ebytes * 8)).setWidth (8 * f.ebytes)

def StructureFields.image (f : StructureFields) (l : Layout) (ir : IREmitter)
    (ext : Fin 32 → BitVec 64) (ts : List Slot) : List (BitVec 8) :=
  ts.flatMap fun t => bytesOf f.ebytes (ir.inOrder (f.element l ext t))

theorem length_image (ext : Fin 32 → BitVec 64) (ts : List Slot) :
    (f.image l ir ext ts).length = f.ebytes * ts.length := by
  simp [StructureFields.image, List.length_flatMap, Nat.mul_comm]

theorem image_cons (ext : Fin 32 → BitVec 64) (t : Slot) (ts : List Slot) :
    f.image l ir ext (t :: ts) =
      bytesOf f.ebytes (ir.inOrder (f.element l ext t)) ++ f.image l ir ext ts :=
  List.flatMap_cons

theorem foldl_storeElement (ts : List Slot) (hfit : f.ebytes * ts.length ≤ 2 ^ 32)
    (s : NeonState) (a : BitVec 32) :
    (ts.foldl (fun s t => storeElement ir f l t.r t.e t.i s) (s, a)).1 =
      { s with memory := s.memory.write a (f.image l ir s.ext ts) } := by
  induction ts generalizing s a with
  | nil => rfl
  | cons t ts ih =>
      rw [List.length_cons, Nat.mul_succ] at hfit
      have hlength : (bytesOf f.ebytes (ir.inOrder (f.element l s.ext t))).length = f.ebytes :=
        length_bytesOf _
      have hboth : (bytesOf f.ebytes (ir.inOrder (f.element l s.ext t))).length +
          (f.image l ir s.ext ts).length ≤ 2 ^ 32 := by
        rw [hlength, length_image]
        omega
      have hwrite := ByteMemory.write_append (m := s.memory) (a := a) hboth
      rw [hlength, ← image_cons] at hwrite
      rw [List.foldl_cons, storeElement, ih (by omega)]
      exact congrArg (NeonState.mk _ _) hwrite

theorem inOrder_inOrder {n : ℕ} (v : BitVec (8 * n)) : ir.inOrder (ir.inOrder v) = v := by
  unfold IREmitter.inOrder
  split
  · exact byteReverse_byteReverse v
  · rfl

theorem foldl_loadElement_regs (ts : List Slot) (p : NeonState × BitVec 32) :
    (ts.foldl (fun s t => loadElement ir f l t.r t.e t.i s) p).1.regs = p.1.regs := by
  induction ts generalizing p with
  | nil => rfl
  | cons t ts ih => exact ih _

/-- The load puts over each register the elements of its slots. -/
theorem foldl_loadElement {ext : Fin 32 → BitVec 64} (ts : List Slot) (s : NeonState)
    (a : BitVec 32) (himage : s.memory.read a (f.ebytes * ts.length) = f.image l ir ext ts) :
    let u := (ts.foldl (fun s t => loadElement ir f l t.r t.e t.i s) (s, a)).1
    ∀ R b, (u.ext R).getLsbD b = ((s.ext R).getLsbD b || ts.any fun t =>
      R = f.extReg l t.r t.i &&
        ((f.element l ext t).setWidth 64 <<< (t.e * f.ebytes * 8)).getLsbD b) := by
  induction ts generalizing s a with
  | nil => exact fun R b => (Bool.or_false _).symm
  | cons t ts ih =>
      -- the first element is at `a`, the others behind it
      rw [List.length_cons, Nat.mul_succ, Nat.add_comm, ByteMemory.read_add, image_cons] at himage
      obtain ⟨hfirst, hrest⟩ := List.append_inj himage (by simp)
      have helement : ir.readMemory f.ebytes a s = f.element l ext t := by
        rw [IREmitter.readMemory, hfirst, ofBytes_bytesOf, inOrder_inOrder]
      have hext := ih (s.setExt (f.extReg l t.r t.i) (s.ext (f.extReg l t.r t.i) |||
        (f.element l ext t).setWidth 64 <<< (t.e * f.ebytes * 8))) _ hrest
      rw [List.foldl_cons, loadElement, helement]
      intro u R b
      rw [hext, List.any_cons]
      by_cases hR : R = f.extReg l t.r t.i
      · subst hR
        simp [NeonState.setExt, Bool.or_assoc]
      · simp [NeonState.setExt, hR]

theorem ebytes_mul_elements (f : StructureFields) : f.ebytes * f.elements = 8 := by
  have h : ∀ size : BitVec 2, (1 <<< size.toNat) * (8 / (1 <<< size.toNat)) = 8 := by decide
  exact h f.size

theorem ebytes_pos (f : StructureFields) : 0 < f.ebytes := by
  have h : ∀ size : BitVec 2, 0 < 1 <<< size.toNat := by decide
  exact h f.size

theorem getLsbD_element (ext : Fin 32 → BitVec 64) (t : Slot) {b : ℕ} (hb : b < 64) :
    ((f.element l ext t).setWidth 64 <<< (t.e * f.ebytes * 8)).getLsbD b =
      (decide (b / (8 * f.ebytes) = t.e) && (ext (f.extReg l t.r t.i)).getLsbD b) := by
  have hpos : 0 < 8 * f.ebytes := Nat.mul_pos (by decide) (ebytes_pos f)
  have hcomm : t.e * f.ebytes * 8 = t.e * (8 * f.ebytes) := by rw [Nat.mul_assoc, Nat.mul_comm 8]
  simp only [StructureFields.element, BitVec.getLsbD_shiftLeft, BitVec.getLsbD_setWidth,
    BitVec.getLsbD_ushiftRight, hcomm, hb, decide_true, Bool.true_and]
  generalize 8 * f.ebytes = k at hpos
  by_cases hlow : b < t.e * k
  · have hne : b / k ≠ t.e := (Nat.div_lt_of_lt_mul (Nat.mul_comm _ _ ▸ hlow)).ne
    simp [hlow, hne]
  by_cases hhigh : b - t.e * k < k
  · have heq : b / k = t.e := by
      rw [Nat.div_eq_iff hpos]
      omega
    have hsum : t.e * k + (b - t.e * k) = b := by omega
    have hlt : b - t.e * k < 64 := by omega
    simp [hlow, hhigh, heq, hsum, hlt]
  · have hne : b / k ≠ t.e := fun h => by
      rw [Nat.div_eq_iff hpos] at h
      omega
    simp [hhigh, hne]

theorem foldl_clear (rs : List (Fin 32)) (s : NeonState) :
    let u := rs.foldl (fun s R => s.setExt R 0#64) s
    u.regs = s.regs ∧ u.memory = s.memory ∧
      ∀ R, u.ext R = if R ∈ rs then 0#64 else s.ext R := by
  induction rs generalizing s with
  | nil => exact ⟨rfl, rfl, fun R => (if_neg List.not_mem_nil).symm⟩
  | cons q rs ih =>
      obtain ⟨hregs, hmemory, hext⟩ := ih (s.setExt q 0#64)
      refine ⟨hregs, hmemory, fun R => ?_⟩
      rw [List.foldl_cons, hext]
      by_cases hq : R = q
      · simp [hq, NeonState.setExt]
      · simp [hq, NeonState.setExt]

def StructureFields.transferred (f : StructureFields) (l : Layout) : List (Fin 32) :=
  (List.range l.regs).flatMap fun r => (List.range l.nelem).map fun i => f.extReg l r i

theorem clearRegisters_eq (s : NeonState) :
    clearRegisters f l s = (f.transferred l).foldl (fun s R => s.setExt R 0#64) s := by
  simp only [clearRegisters, StructureFields.transferred, List.foldl_flatMap, List.foldl_map]

theorem writeBack_ext (s : NeonState) : (writeBack f l s).ext = s.ext := by
  unfold writeBack
  split_ifs <;> rfl

theorem writeBack_memory (s : NeonState) : (writeBack f l s).memory = s.memory := by
  unfold writeBack
  split_ifs <;> rfl

/-- The base register has moved on as the encoding asks: not at all for PC in place of the index,
by the bytes transferred for SP, and by the index register otherwise.  No other core register has
changed. -/
structure WritesBack (f : StructureFields) (l : Layout) (s t : NeonState) : Prop where
  none : f.m = Reg.pc → t.regs f.n = s.regs f.n
  transferred : f.m = Reg.sp → t.regs f.n = s.regs f.n + BitVec.ofNat 32 (8 * l.nelem * l.regs)
  index : f.m ≠ Reg.pc → f.m ≠ Reg.sp → t.regs f.n = s.regs f.n + s.regs f.m
  frame : ∀ r ≠ f.n, t.regs r = s.regs r

theorem writesBack_writeBack {s t : NeonState} (h : t.regs = s.regs) :
    WritesBack f l s (writeBack f l t) := by
  have hpc : Reg.sp ≠ Reg.pc := by decide
  refine ⟨fun hm => ?_, fun hm => ?_, fun hpc hsp => ?_, fun r hr => ?_⟩
  · simp [writeBack, hm, h]
  · simp [writeBack, hm, hpc, h]
  · simp [writeBack, hpc, hsp, h]
  · unfold writeBack
    split_ifs <;> simp [h, hr]

end Loops

/-! ### The encodings accepted -/

section Accepted

variable {ir : IREmitter} {f : StructureFields} {l : Layout}

theorem decodeType_le {type : BitVec 4} {size align : BitVec 2}
    (h : decodeType type size align = some l) : l.nelem * l.regs ≤ 4 := by
  unfold decodeType at h
  split at h
  all_goals
    first
    | cases h
    | (split_ifs at h
       cases h)
  all_goals decide

theorem decode_eq_ok (h : f.decode = .ok l) :
    l.nelem * l.regs ≤ 4 ∧ f.d + l.inc * (l.nelem - 1) + l.regs ≤ 32 := by
  unfold StructureFields.decode at h
  split_ifs at h with hrefused
  split at h
  · cases h
  · next hdecoded =>
      split_ifs at h with hlast
      cases h
      exact ⟨decodeType_le hdecoded, not_lt.1 (not_or.1 hlast).2⟩

theorem extReg_val (h : f.decode = .ok l) {r i : ℕ} (hr : r < l.regs) (hi : i < l.nelem) :
    (f.extReg l r i).val = f.d + i * l.inc + r := by
  have hlast := (decode_eq_ok h).2
  have hle : i * l.inc ≤ l.inc * (l.nelem - 1) := by
    rw [Nat.mul_comm]
    exact Nat.mul_le_mul_left _ (by omega)
  exact Nat.mod_eq_of_lt (by omega)

theorem ebytes_mul_slots (f : StructureFields) (l : Layout) :
    f.ebytes * (l.slots f.elements).length = 8 * l.nelem * l.regs := by
  rw [Layout.length_slots, ← ebytes_mul_elements f, Nat.mul_comm l.regs, ← Nat.mul_assoc,
    ← Nat.mul_assoc]

theorem transfer_fits (h : f.decode = .ok l) :
    f.ebytes * (l.slots f.elements).length ≤ 2 ^ 32 := by
  have hsmall := (decode_eq_ok h).1
  rw [ebytes_mul_slots, Nat.mul_assoc]
  omega

theorem vstMultiple_eq (h : f.decode = .ok l) :
    vstMultiple ir f = .ok fun s =>
      writeBack f l { s with
        memory := s.memory.write (s.regs f.n) (f.image l ir s.ext (l.slots f.elements)) } := by
  rw [vstMultiple, h]
  refine congrArg Except.ok (funext fun s => ?_)
  rw [Layout.forElements_eq, foldl_storeElement _ (transfer_fits h)]

theorem vldMultiple_eq (h : f.decode = .ok l) :
    vldMultiple ir f = .ok fun s =>
      writeBack f l ((l.slots f.elements).foldl (fun s t => loadElement ir f l t.r t.e t.i s)
        (clearRegisters f l s, (clearRegisters f l s).regs f.n)).1 := by
  rw [vldMultiple, h]
  refine congrArg Except.ok (funext fun s => ?_)
  rw [← Layout.forElements_eq]

/-- What the load makes of registers that were stored. -/
theorem load_of_image {ext : Fin 32 → BitVec 64} {t : NeonState} {a : BitVec 32}
    (himage : t.memory.read a (f.ebytes * (l.slots f.elements).length) =
      f.image l ir ext (l.slots f.elements)) {r i : ℕ} (hr : r < l.regs) (hi : i < l.nelem) :
    ((l.slots f.elements).foldl (fun s t => loadElement ir f l t.r t.e t.i s)
      (clearRegisters f l t, a)).1.ext (f.extReg l r i) = ext (f.extReg l r i) := by
  obtain ⟨-, hmemory, hclear⟩ := foldl_clear (f.transferred l) t
  rw [← clearRegisters_eq] at hmemory hclear
  rw [← hmemory] at himage
  have hzero : (clearRegisters f l t).ext (f.extReg l r i) = 0#64 := by
    rw [hclear, if_pos]
    simp only [StructureFields.transferred, List.mem_flatMap, List.mem_range, List.mem_map]
    exact ⟨r, hr, i, hi, rfl⟩
  refine BitVec.eq_of_getLsbD_eq fun b hb => ?_
  rw [foldl_loadElement _ _ a himage, hzero, BitVec.getLsbD_zero, Bool.false_or]
  -- the element that has the bit is one of the register's slots
  have helement : b / (8 * f.ebytes) < f.elements := by
    refine Nat.div_lt_of_lt_mul ?_
    rwa [Nat.mul_assoc, ebytes_mul_elements]
  rw [Bool.eq_iff_iff, List.any_eq_true]
  constructor
  · rintro ⟨q, -, hq⟩
    rw [getLsbD_element _ _ hb] at hq
    simp only [Bool.and_eq_true, decide_eq_true_eq] at hq
    rw [hq.1]
    exact hq.2.2
  · intro hbit
    refine ⟨⟨r, b / (8 * f.ebytes), i⟩, Layout.mem_slots.2 ⟨hr, helement, hi⟩, ?_⟩
    rw [getLsbD_element _ _ hb]
    simp [hbit]

/-- The transfers of an accepted encoding: the load from the base of a store restores
every register stored; the store replaces the bytes from the base on by as many as
the registers have and nothing else; and both write the same base back. -/
theorem vst_vld_inverse {ir' : IREmitter}
    (hendian : ir'.currentLocation.eFlag = ir.currentLocation.eFlag)
    {st ld : NeonState → NeonState} (hst : vstMultiple ir f = .ok st)
    (hld : vldMultiple ir' f = .ok ld) :
    ∃ l, f.decode = .ok l ∧ ∀ s : NeonState,
      (∀ t : NeonState, t.regs f.n = s.regs f.n → t.memory = (st s).memory →
        ∀ r < l.regs, ∀ i < l.nelem, (f.extReg l r i).val = f.d + i * l.inc + r ∧
          (ld t).ext (f.extReg l r i) = s.ext (f.extReg l r i)) ∧
      (∃ bytes : List (BitVec 8), bytes.length = 8 * l.nelem * l.regs ∧
        ∀ m, (st { s with memory := m }).memory = m.write (s.regs f.n) bytes) ∧
      (st s).ext = s.ext ∧ WritesBack f l s (st s) ∧ WritesBack f l s (ld s) := by
  obtain ⟨l, hl⟩ : ∃ l, f.decode = .ok l := by
    cases h : f.decode with
    | error e => simp [vstMultiple, h] at hst
    | ok l => exact ⟨l, rfl⟩
  rw [vstMultiple_eq hl, Except.ok.injEq] at hst
  rw [vldMultiple_eq hl, Except.ok.injEq] at hld
  subst hst hld
  have hordered : f.image l ir' = f.image l ir := by
    unfold StructureFields.image IREmitter.inOrder
    rw [hendian]
  refine ⟨l, hl, fun s =>
    ⟨fun t hbase hmemory r hr i hi => ⟨extReg_val hl hr hi, ?_⟩, ?_, ?_, ?_, ?_⟩⟩
  · have hn : (clearRegisters f l t).regs f.n = s.regs f.n := by
      rw [clearRegisters_eq, (foldl_clear _ t).1, hbase]
    rw [writeBack_memory] at hmemory
    rw [writeBack_ext, hn]
    refine load_of_image ?_ hr hi
    have hlength := @length_image ir f l s.ext (l.slots f.elements)
    rw [hmemory, hordered, ← hlength]
    refine ByteMemory.read_write_self ?_
    rw [hlength]
    exact transfer_fits hl
  · refine ⟨f.image l ir s.ext (l.slots f.elements), ?_, fun m => writeBack_memory _⟩
    rw [length_image, ebytes_mul_slots]
  · exact writeBack_ext _
  · exact writesBack_writeBack rfl
  · refine writesBack_writeBack ?_
    rw [foldl_loadElement_regs, clearRegisters_eq, (foldl_clear _ s).1]

/-- `VST4.16 {d0, d2, d4, d6}, [r1]!` and `VLD4.16` of the same, big-endian. -/
def fourHalfwords : StructureFields := ⟨false, 1, 0#4, 1#4, 1#2, 0#2, Reg.sp⟩

def bigEndianEmitter : IREmitter := ⟨⟨0#32, false, true, ⟨0#8⟩, 0#32, false⟩, .v7, true⟩

theorem vst_vld_inverse_fourHalfwords :
    ∃ st ld, vstMultiple bigEndianEmitter fourHalfwords = .ok st ∧
      vldMultiple bigEndianEmitter fourHalfwords = .ok ld ∧
      ∀ s t : NeonState, t.regs 1 = s.regs 1 → t.memory = (st s).memory →
        (ld t).ext 6 = s.ext 6 := by
  have hdecode : fourHalfwords.decode = .ok ⟨4, 1, 2⟩ := by decide
  have hendian : bigEndianEmitter.currentLocation.eFlag = bigEndianEmitter.currentLocation.eFlag :=
    rfl
  obtain ⟨l, hl, h⟩ := vst_vld_inverse hendian (vstMultiple_eq hdecode) (vldMultiple_eq hdecode)
  rw [hdecode, Except.ok.injEq] at hl
  subst hl
  exact ⟨_, _, vstMultiple_eq hdecode, vldMultiple_eq hdecode,
    fun s t hbase hmemory => ((h s).1 t hbase hmemory 0 (by decide) 3 (by decide)).2⟩

end Accepted

end Umbra.A32
