import Umbra.Frontend.LocationDescriptor
import Umbra.Lib.Lanes

/-!
The A32 registers in the JIT states of the two backends.

Both backends keep CPSR and FPSCR in pieces that suit emitted code.  The bits that are part of a
location descriptor stand in one word, `upper_location_descriptor`, as the upper half of the
descriptor's hash: the setter of CPSR writes its lower half and the setter of FPSCR its upper one.
-/

namespace Umbra.Backend

open Umbra.Lib Umbra.Frontend

/-! ### What the backends have in common -/

/-- The four bits of GE, each copied over a byte. -/
def expandGE (cpsr : BitVec 32) : BitVec 32 :=
  bitsIf (cpsr.getLsbD 19) 0xFF000000#32 ||| bitsIf (cpsr.getLsbD 18) 0x00FF0000#32 |||
    bitsIf (cpsr.getLsbD 17) 0x0000FF00#32 ||| bitsIf (cpsr.getLsbD 16) 0x000000FF#32

def packGE (cpsrGe : BitVec 32) : BitVec 32 :=
  bitsIf (cpsrGe.getLsbD 31) (1#32 <<< 19) ||| bitsIf (cpsrGe.getLsbD 23) (1#32 <<< 18) |||
    bitsIf (cpsrGe.getLsbD 15) (1#32 <<< 17) ||| bitsIf (cpsrGe.getLsbD 7) (1#32 <<< 16)

/-- The bits of CPSR that `SetCpsr` puts into `upper_location_descriptor`: E, T and the IT
state. -/
def cpsrPart (cpsr : BitVec 32) : BitVec 32 :=
  bitsIf (cpsr.getLsbD 9) 2#32 ||| bitsIf (cpsr.getLsbD 5) 1#32 |||
    ((cpsr >>> 0) &&& 0b1111110000000000#32) ||| ((cpsr >>> 17) &&& 0b0000001100000000#32)

/-- What `SetCpsr` makes of `upper_location_descriptor`. -/
def upperWithCpsr (upper cpsr : BitVec 32) : BitVec 32 :=
  (upper &&& 0xFFFF0000#32) ||| cpsrPart cpsr

def upperWithFpscr (upper fpscr : BitVec 32) : BitVec 32 :=
  (upper &&& 0x0000FFFF#32) ||| (fpscr &&& fpscrModeMask)

def cpsrOfUpper (upper : BitVec 32) : BitVec 32 :=
  bitsIf (upper.getLsbD 1) (1#32 <<< 9) ||| bitsIf (upper.getLsbD 0) (1#32 <<< 5) |||
    (upper &&& 0b1111110000000000#32) ||| ((upper &&& 0b0000001100000000#32) <<< 17)

theorem packGE_expandGE (cpsr : BitVec 32) : packGE (expandGE cpsr) = cpsr &&& 0x000F0000#32 := by
  have hexpand : BitLinear expandGE :=
    (((BitLinear.id.bitsIf 19 _).or (BitLinear.id.bitsIf 18 _)).or (BitLinear.id.bitsIf 17 _)).or
      (BitLinear.id.bitsIf 16 _)
  have hpack : BitLinear packGE :=
    (((BitLinear.id.bitsIf 31 _).or (BitLinear.id.bitsIf 23 _)).or (BitLinear.id.bitsIf 15 _)).or
      (BitLinear.id.bitsIf 7 _)
  exact (hpack.comp hexpand).eq_of_twoPow (BitLinear.id.and _) (by decide) cpsr

theorem bitLinear_cpsrPart : BitLinear cpsrPart :=
  (((BitLinear.id.bitsIf 9 _).or (BitLinear.id.bitsIf 5 _)).or
    ((BitLinear.id.ushiftRight 0).and _)).or ((BitLinear.id.ushiftRight 17).and _)

theorem bitLinear_cpsrOfUpper : BitLinear cpsrOfUpper :=
  (((BitLinear.id.bitsIf 1 _).or (BitLinear.id.bitsIf 0 _)).or (BitLinear.id.and _)).or
    ((BitLinear.id.and _).shiftLeft 17)

theorem cpsrOfUpper_upperWithCpsr (upper cpsr : BitVec 32) :
    cpsrOfUpper (upperWithCpsr upper cpsr) = cpsr &&& cpsrModeMask := by
  have hlinear := bitLinear_cpsrOfUpper
  have hupper := (hlinear.comp (BitLinear.id.and 0xFFFF0000#32)).eq_of_twoPow .zero (by decide) upper
  have hcpsr := (hlinear.comp bitLinear_cpsrPart).eq_of_twoPow (BitLinear.id.and cpsrModeMask)
    (by decide) cpsr
  rw [upperWithCpsr, hlinear.map_or, hupper, hcpsr, BitVec.zero_or]

theorem cpsrOfUpper_upperWithFpscr (upper fpscr : BitVec 32) :
    cpsrOfUpper (upperWithFpscr upper fpscr) = cpsrOfUpper upper := by
  have hlinear := bitLinear_cpsrOfUpper
  have hupper := (hlinear.comp (BitLinear.id.and 0x0000FFFF#32)).eq_of_twoPow hlinear (by decide) upper
  have hfpscr := (hlinear.comp (BitLinear.id.and fpscrModeMask)).eq_of_twoPow .zero (by decide) fpscr
  rw [upperWithFpscr, hlinear.map_or, hupper, hfpscr, BitVec.or_zero]

theorem upperHalf_ofRegisters (pc cpsr fpscr : BitVec 32) :
    (LocationDescriptor.ofRegisters pc (.ofData cpsr) (.ofData fpscr) false).upperHalf =
      (fpscr &&& fpscrModeMask) ||| cpsrPart cpsr := by
  let psr (x : BitVec 32) : BitVec 32 := ((x &&& 0xFF0FFFFF#32) &&& cpsrModeMask) &&& 0xFF0FFFFF#32
  have hpsr : BitLinear psr := ((BitLinear.id.and _).and _).and _
  have hfields : BitLinear fun x => bitsIf ((psr x).getLsbD 5) 1#32 |||
      bitsIf ((psr x).getLsbD 9) 2#32 ||| ((PSR.it ⟨psr x⟩).value.setWidth 32 <<< 8) :=
    ((hpsr.bitsIf 5 _).or (hpsr.bitsIf 9 _)).or
      (((BitLinear.comp LocationDescriptor.bitLinear_it hpsr).setWidth 32).shiftLeft 8)
  have hcpsr := hfields.eq_of_twoPow bitLinear_cpsrPart (by decide) cpsr
  have hfpscr : ((fpscr &&& 0xFFF79F9F#32) &&& fpscrModeMask) &&& 0xFFF79F9F#32 =
      fpscr &&& fpscrModeMask := by
    simp only [BitVec.and_assoc]
    rfl
  rw [← hcpsr, ← hfpscr]
  change _ ||| _ ||| _ ||| 0#32 ||| _ = _
  rw [BitVec.or_zero, BitVec.or_assoc, BitVec.or_assoc, BitVec.or_assoc]
  rfl

def IsUpper (upper cpsr fpscr : BitVec 32) : Prop :=
  upper = (fpscr &&& fpscrModeMask) ||| cpsrPart cpsr

theorem cpsrPart_and_low (cpsr : BitVec 32) : cpsrPart cpsr &&& 0x0000FFFF#32 = cpsrPart cpsr :=
  (bitLinear_cpsrPart.and _).eq_of_twoPow bitLinear_cpsrPart (by decide) cpsr

theorem cpsrPart_and_high (cpsr : BitVec 32) : cpsrPart cpsr &&& 0xFFFF0000#32 = 0#32 :=
  (bitLinear_cpsrPart.and _).eq_of_twoPow .zero (by decide) cpsr

theorem upperWithCpsr_and {mask : BitVec 32} (hmask : 0xFFFF0000#32 &&& mask = mask)
    (upper cpsr : BitVec 32) : upperWithCpsr upper cpsr &&& mask = upper &&& mask := by
  rw [← hmask, ← BitVec.and_assoc, upperWithCpsr, (BitLinear.id.and _).map_or, cpsrPart_and_high,
    BitVec.and_assoc, BitVec.and_self, BitVec.or_zero, BitVec.and_assoc]

theorem IsUpper.withCpsr {upper cpsr fpscr : BitVec 32} (h : IsUpper upper cpsr fpscr)
    (cpsr' : BitVec 32) : IsUpper (upperWithCpsr upper cpsr') cpsr' fpscr := by
  have hmask : fpscrModeMask &&& 0xFFFF0000#32 = fpscrModeMask := rfl
  rw [IsUpper, upperWithCpsr, h, (BitLinear.id.and _).map_or, cpsrPart_and_high, BitVec.or_zero,
    BitVec.and_assoc, hmask]

theorem IsUpper.withFpscr {upper cpsr fpscr : BitVec 32} (h : IsUpper upper cpsr fpscr)
    (fpscr' : BitVec 32) : IsUpper (upperWithFpscr upper fpscr') cpsr fpscr' := by
  have hmask : fpscrModeMask &&& 0x0000FFFF#32 = 0#32 := rfl
  rw [IsUpper, upperWithFpscr, h, (BitLinear.id.and _).map_or, cpsrPart_and_low, BitVec.and_assoc,
    hmask, BitVec.and_zero, BitVec.zero_or, BitVec.or_comm]

theorem IsUpper.uniqueHash {upper cpsr fpscr : BitVec 32} (h : IsUpper upper cpsr fpscr)
    (pc : BitVec 32) : LocationDescriptor.hashOf upper pc =
      (LocationDescriptor.ofRegisters pc (.ofData cpsr) (.ofData fpscr) false).uniqueHash := by
  rw [LocationDescriptor.uniqueHash_eq_hashOf, upperHalf_ofRegisters, ← h]
  rfl

theorem isUpper_zero : IsUpper 0#32 0#32 0#32 := by
  unfold IsUpper
  decide

inductive RegisterWrite
  | setCpsr (cpsr : BitVec 32)
  | setFpscr (fpscr : BitVec 32)
  | setPC (pc : BitVec 32)

structure LastWritten where
  pc : BitVec 32
  cpsr : BitVec 32
  fpscr : BitVec 32

def LastWritten.write (r : LastWritten) : RegisterWrite → LastWritten
  | .setCpsr cpsr => { r with cpsr }
  | .setFpscr fpscr => { r with fpscr }
  | .setPC pc => { r with pc }

def LastWritten.uniqueHash (r : LastWritten) : BitVec 64 :=
  (LocationDescriptor.ofRegisters r.pc (.ofData r.cpsr) (.ofData r.fpscr) false).uniqueHash

structure LastWritten.HeldBy (r : LastWritten) (upper pc : BitVec 32) : Prop where
  upper : IsUpper upper r.cpsr r.fpscr
  pc : pc = r.pc

/-- The two status registers read back as they were written last but for the bits that no backend
keeps. -/
structure LastWritten.ReadAs (r : LastWritten) (cpsr fpscr : BitVec 32) : Prop where
  cpsr : cpsr = r.cpsr &&& 0xFF0FFFFF#32
  fpscr : fpscr = r.fpscr &&& 0xFFF7009F#32

theorem LastWritten.HeldBy.hashOf {r : LastWritten} {upper pc : BitVec 32}
    (h : r.HeldBy upper pc) : LocationDescriptor.hashOf upper pc = r.uniqueHash := by
  rw [LastWritten.uniqueHash, ← h.upper.uniqueHash, ← h.pc]

/-- What a write to a register does to the JIT state of a backend, as far as `upper` and `pc`, the
words of the location, and the getters `cpsr` and `fpscr` show it. -/
structure FollowsWrites {S : Type} (write : S → RegisterWrite → S)
    (upper pc cpsr fpscr : S → BitVec 32) : Prop where
  upper_write s : ∀ w, upper (write s w) =
    match w with
    | .setCpsr x => upperWithCpsr (upper s) x
    | .setFpscr x => upperWithFpscr (upper s) x
    | .setPC _ => upper s
  pc_write s : ∀ w, pc (write s w) = match w with | .setPC x => x | _ => pc s
  cpsr_write s : ∀ w, cpsr (write s w) =
    match w with | .setCpsr x => x &&& 0xFF0FFFFF#32 | _ => cpsr s
  fpscr_write s : ∀ w, fpscr (write s w) =
    match w with | .setFpscr x => x &&& 0xFFF7009F#32 | _ => fpscr s

namespace FollowsWrites

variable {S : Type} {write : S → RegisterWrite → S} {upper pc cpsr fpscr : S → BitVec 32}

theorem heldBy_write (hs : FollowsWrites write upper pc cpsr fpscr) {s : S} {r : LastWritten}
    (h : r.HeldBy (upper s) (pc s)) (w : RegisterWrite) :
    (r.write w).HeldBy (upper (write s w)) (pc (write s w)) := by
  rw [hs.upper_write, hs.pc_write]
  cases w with
  | setCpsr x => exact ⟨h.upper.withCpsr x, h.pc⟩
  | setFpscr x => exact ⟨h.upper.withFpscr x, h.pc⟩
  | setPC x => exact ⟨h.upper, rfl⟩

theorem readAs_write (hs : FollowsWrites write upper pc cpsr fpscr) {s : S} {r : LastWritten}
    (h : r.ReadAs (cpsr s) (fpscr s)) (w : RegisterWrite) :
    (r.write w).ReadAs (cpsr (write s w)) (fpscr (write s w)) := by
  rw [hs.cpsr_write, hs.fpscr_write]
  cases w with
  | setCpsr x => exact ⟨rfl, h.fpscr⟩
  | setFpscr x => exact ⟨h.cpsr, rfl⟩
  | setPC x => exact ⟨h.cpsr, h.fpscr⟩

/-- Whatever is written to a state that starts with the location of zeroes, its words give the hash
of the location written last. -/
theorem hashOf_foldl_write (hs : FollowsWrites write upper pc cpsr fpscr) {s : S}
    (hupper : upper s = 0#32) (hpc : pc s = 0#32) (writes : List RegisterWrite) :
    LocationDescriptor.hashOf (upper (writes.foldl write s)) (pc (writes.foldl write s)) =
      (writes.foldl LastWritten.write ⟨0#32, 0#32, 0#32⟩).uniqueHash :=
  (List.foldl_rel (r := fun s (r : LastWritten) => r.HeldBy (upper s) (pc s))
    ⟨hupper ▸ isUpper_zero, hpc⟩ fun w _ _ _ h => hs.heldBy_write h w).hashOf

/-- And the status registers read back as they were written last. -/
theorem readAs_foldl_write (hs : FollowsWrites write upper pc cpsr fpscr) {s : S}
    (hcpsr : cpsr s = 0#32) (hfpscr : fpscr s = 0#32) (writes : List RegisterWrite) :
    (writes.foldl LastWritten.write ⟨0#32, 0#32, 0#32⟩).ReadAs (cpsr (writes.foldl write s))
      (fpscr (writes.foldl write s)) :=
  List.foldl_rel (r := fun s (r : LastWritten) => r.ReadAs (cpsr s) (fpscr s))
    ⟨hcpsr, hfpscr⟩ fun w _ _ _ h => hs.readAs_write h w

end FollowsWrites

end Umbra.Backend

namespace Umbra.Arm64

open Umbra.Lib Umbra.Frontend Umbra.Backend

/-- `A32JitState` as far as it holds CPSR, FPSCR and the general registers. -/
structure A32JitState where
  cpsrNzcv : BitVec 32 := 0#32
  cpsrQ : BitVec 32 := 0#32
  cpsrJaifm : BitVec 32 := 0#32
  cpsrGe : BitVec 32 := 0#32
  fpsr : BitVec 32 := 0#32
  fpsrNzcv : BitVec 32 := 0#32
  regs : Fin 16 → BitVec 32 := fun _ => 0#32
  upperLocationDescriptor : BitVec 32 := 0#32

namespace A32JitState

def cpsr (s : A32JitState) : BitVec 32 :=
  s.cpsrNzcv ||| s.cpsrQ ||| packGE s.cpsrGe ||| cpsrOfUpper s.upperLocationDescriptor |||
    s.cpsrJaifm

def setCpsr (s : A32JitState) (cpsr : BitVec 32) : A32JitState :=
  { s with
    cpsrNzcv := cpsr &&& 0xF0000000#32
    cpsrQ := cpsr &&& (1#32 <<< 27)
    cpsrGe := expandGE cpsr
    upperLocationDescriptor := upperWithCpsr s.upperLocationDescriptor cpsr
    cpsrJaifm := cpsr &&& 0x010001DF#32 }

def fpsrMask : BitVec 32 := 0x0800009F#32

def fpscr (s : A32JitState) : BitVec 32 :=
  (s.upperLocationDescriptor &&& 0xFFFF0000#32) ||| s.fpsr ||| s.fpsrNzcv

def setFpscr (s : A32JitState) (fpscr : BitVec 32) : A32JitState :=
  { s with
    fpsrNzcv := fpscr &&& 0xF0000000#32
    fpsr := fpscr &&& fpsrMask
    upperLocationDescriptor := upperWithFpscr s.upperLocationDescriptor fpscr }

def getLocationDescriptor (s : A32JitState) : BitVec 64 :=
  (s.regs 15).setWidth 64 ||| (s.upperLocationDescriptor.setWidth 64 <<< 32)

def write (s : A32JitState) : RegisterWrite → A32JitState
  | .setCpsr cpsr => s.setCpsr cpsr
  | .setFpscr fpscr => s.setFpscr fpscr
  | .setPC pc => { s with regs := Function.update s.regs 15 pc }

theorem cpsr_setCpsr (s : A32JitState) (x : BitVec 32) :
    (s.setCpsr x).cpsr = x &&& 0xFF0FFFFF#32 := by
  simp only [cpsr, setCpsr, packGE_expandGE, cpsrOfUpper_upperWithCpsr]
  have hlinear : BitLinear fun x : BitVec 32 => (x &&& 0xF0000000#32) ||| (x &&& (1#32 <<< 27)) |||
      (x &&& 0x000F0000#32) ||| (x &&& cpsrModeMask) ||| (x &&& 0x010001DF#32) :=
    ((((BitLinear.id.and _).or (BitLinear.id.and _)).or (BitLinear.id.and _)).or
      (BitLinear.id.and _)).or (BitLinear.id.and _)
  exact hlinear.eq_of_twoPow (BitLinear.id.and _) (by decide) x

theorem fpscr_setFpscr (s : A32JitState) (x : BitVec 32) :
    (s.setFpscr x).fpscr = x &&& 0xFFF7009F#32 := by
  have hupper : (upperWithFpscr s.upperLocationDescriptor x) &&& 0xFFFF0000#32 =
      x &&& fpscrModeMask := by
    have hlow : 0x0000FFFF#32 &&& 0xFFFF0000#32 = 0#32 := rfl
    have hmode : fpscrModeMask &&& 0xFFFF0000#32 = fpscrModeMask := rfl
    rw [upperWithFpscr, (BitLinear.id.and _).map_or, BitVec.and_assoc, BitVec.and_assoc, hlow, hmode,
      BitVec.and_zero, BitVec.zero_or]
  simp only [fpscr, setFpscr, hupper]
  have hlinear : BitLinear fun x : BitVec 32 => (x &&& fpscrModeMask) ||| (x &&& fpsrMask) |||
      (x &&& 0xF0000000#32) :=
    ((BitLinear.id.and _).or (BitLinear.id.and _)).or (BitLinear.id.and _)
  exact hlinear.eq_of_twoPow (BitLinear.id.and _) (by decide) x

theorem followsWrites :
    FollowsWrites write upperLocationDescriptor (·.regs 15) cpsr fpscr where
  upper_write s w := by cases w <;> rfl
  pc_write s w := by
    cases w with
    | setPC pc => simp [write]
    | _ => rfl
  cpsr_write s w := by
    cases w with
    | setCpsr x => exact cpsr_setCpsr s x
    | setFpscr x => simp only [write, cpsr, setFpscr, cpsrOfUpper_upperWithFpscr]
    | setPC pc => rfl
  fpscr_write s w := by
    cases w with
    | setCpsr x =>
        simp only [write, fpscr, setCpsr, upperWithCpsr_and (rfl : _ &&& 0xFFFF0000#32 = _)]
    | setFpscr x => exact fpscr_setFpscr s x
    | setPC pc => rfl

end A32JitState

end Umbra.Arm64

namespace Umbra.X64

open Umbra.Lib Umbra.Frontend Umbra.Backend

namespace NZCV

def toX64 (nzcv : BitVec 32) : BitVec 32 := ((nzcv >>> 28) * 0x1081#32) &&& 0xC101#32

def fromX64 (x64Flags : BitVec 32) : BitVec 32 :=
  ((x64Flags &&& 0xC101#32) * 0x10210000#32) &&& 0xF0000000#32

end NZCV

structure A32JitState where
  reg : Fin 16 → BitVec 32 := fun _ => 0#32
  upperLocationDescriptor : BitVec 32 := 0#32
  cpsrGe : BitVec 32 := 0#32
  cpsrQ : BitVec 32 := 0#32
  cpsrNzcv : BitVec 32 := 0#32
  cpsrJaifm : BitVec 32 := 0#32
  guestMXCSR : BitVec 32 := 0x00001f80#32
  asimdMXCSR : BitVec 32 := 0x00009fc0#32
  fpsrExc : BitVec 32 := 0#32
  fpsrQc : BitVec 32 := 0#32
  fpsrNzcv : BitVec 32 := 0#32

namespace A32JitState

def cpsr (s : A32JitState) : BitVec 32 :=
  NZCV.fromX64 s.cpsrNzcv ||| bitsIf (s.cpsrQ != 0#32) (1#32 <<< 27) ||| packGE s.cpsrGe |||
    cpsrOfUpper s.upperLocationDescriptor ||| s.cpsrJaifm

def setCpsr (s : A32JitState) (cpsr : BitVec 32) : A32JitState :=
  { s with
    cpsrNzcv := NZCV.toX64 cpsr
    cpsrQ := bitsIf (cpsr.getLsbD 27) 1#32
    cpsrGe := expandGE cpsr
    upperLocationDescriptor := upperWithCpsr s.upperLocationDescriptor cpsr
    cpsrJaifm := cpsr &&& 0x010001DF#32 }

def fpscr (s : A32JitState) : BitVec 32 :=
  let fpcrMode := s.upperLocationDescriptor &&& fpscrModeMask
  let mxcsr := s.guestMXCSR ||| s.asimdMXCSR
  fpcrMode ||| s.fpsrNzcv ||| (mxcsr &&& 0b0000000000001#32) |||
    ((mxcsr &&& 0b0000000111100#32) >>> 1) ||| s.fpsrExc |||
    bitsIf (s.fpsrQc != 0#32) (1#32 <<< 27)

def mxcsrRMode (rMode : BitVec 2) : BitVec 32 :=
  match rMode.toNat with
  | 0 => 0x0#32
  | 1 => 0x4000#32
  | 2 => 0x2000#32
  | _ => 0x6000#32

def setFpscr (s : A32JitState) (fpscr : BitVec 32) : A32JitState :=
  { s with
    upperLocationDescriptor := upperWithFpscr s.upperLocationDescriptor fpscr
    fpsrNzcv := fpscr &&& 0xF0000000#32
    fpsrQc := (fpscr >>> 27) &&& 1#32
    guestMXCSR := 0x00001f80#32 ||| mxcsrRMode ((fpscr >>> 22).setWidth 2) |||
      bitsIf (fpscr.getLsbD 24) ((1#32 <<< 15) ||| (1#32 <<< 6))
    asimdMXCSR := 0x00009fc0#32
    fpsrExc := fpscr &&& 0x9F#32 }

def getUniqueHash (s : A32JitState) : BitVec 64 :=
  (s.upperLocationDescriptor.setWidth 64 <<< 32) ||| (s.reg 15).setWidth 64

def write (s : A32JitState) : RegisterWrite → A32JitState
  | .setCpsr cpsr => s.setCpsr cpsr
  | .setFpscr fpscr => s.setFpscr fpscr
  | .setPC pc => { s with reg := Function.update s.reg 15 pc }

/-- The flags survive the way to the layout of x64 and back. -/
theorem fromX64_toX64 (x : BitVec 32) : NZCV.fromX64 (NZCV.toX64 x) = x &&& 0xF0000000#32 := by
  have hall : ∀ n : Fin 16, NZCV.fromX64 (((BitVec.ofFin (w := 32) ⟨n, by omega⟩) * 0x1081#32) &&&
      0xC101#32) = BitVec.ofFin (w := 32) ⟨n, by omega⟩ <<< 28 := by
    decide
  have hlt : (x >>> 28).toNat < 16 := by
    rw [BitVec.toNat_ushiftRight, Nat.shiftRight_eq_div_pow]
    omega
  have hback : (x >>> 28) <<< 28 = x &&& 0xF0000000#32 :=
    ((BitLinear.id.ushiftRight 28).shiftLeft 28).eq_of_twoPow (BitLinear.id.and _) (by decide) x
  rw [← hback]
  exact hall ⟨(x >>> 28).toNat, hlt⟩

theorem bitsIf_ne_zero (cond : Bool) {value : BitVec 32} (h : value ≠ 0#32) :
    (bitsIf cond value != 0#32) = cond := by
  cases cond
  · rfl
  · simpa [bitsIf] using h

theorem cpsr_setCpsr (s : A32JitState) (x : BitVec 32) :
    (s.setCpsr x).cpsr = x &&& 0xFF0FFFFF#32 := by
  simp only [cpsr, setCpsr, packGE_expandGE, cpsrOfUpper_upperWithCpsr, fromX64_toX64]
  rw [bitsIf_ne_zero _ (by decide)]
  have hlinear : BitLinear fun x : BitVec 32 => (x &&& 0xF0000000#32) |||
      bitsIf (x.getLsbD 27) (1#32 <<< 27) ||| (x &&& 0x000F0000#32) ||| (x &&& cpsrModeMask) |||
      (x &&& 0x010001DF#32) :=
    ((((BitLinear.id.and _).or (BitLinear.id.bitsIf 27 _)).or (BitLinear.id.and _)).or
      (BitLinear.id.and _)).or (BitLinear.id.and _)
  exact hlinear.eq_of_twoPow (BitLinear.id.and _) (by decide) x

theorem fpscr_setFpscr (s : A32JitState) (x : BitVec 32) :
    (s.setFpscr x).fpscr = x &&& 0xFFF7009F#32 := by
  have hupper : upperWithFpscr s.upperLocationDescriptor x &&& fpscrModeMask =
      x &&& fpscrModeMask := by
    have hlow : 0x0000FFFF#32 &&& fpscrModeMask = 0#32 := rfl
    rw [upperWithFpscr, (BitLinear.id.and _).map_or, BitVec.and_assoc, BitVec.and_assoc, hlow,
      BitVec.and_self, BitVec.and_zero, BitVec.zero_or]
  have hflags : ∀ (rMode : BitVec 2) (ftz : Bool), (0x00001f80#32 ||| mxcsrRMode rMode |||
      bitsIf ftz ((1#32 <<< 15) ||| (1#32 <<< 6)) ||| 0x00009fc0#32) &&& 0b111101#32 = 0#32 := by
    decide
  have hmxcsr : ∀ mask : BitVec 32, 0b111101#32 &&& mask = mask →
      ((s.setFpscr x).guestMXCSR ||| (s.setFpscr x).asimdMXCSR) &&& mask = 0#32 := by
    intro mask hmask
    rw [← hmask, ← BitVec.and_assoc]
    exact (congrArg (· &&& mask) (hflags _ _)).trans BitVec.zero_and
  have hqc : ((x >>> 27) &&& 1#32 != 0#32) = x.getLsbD 27 := by
    have hbit : (x >>> 27) &&& 1#32 = bitsIf (x.getLsbD 27) 1#32 :=
      ((BitLinear.id.ushiftRight 27).and _).eq_of_twoPow (BitLinear.id.bitsIf 27 _) (by decide) x
    rw [hbit, bitsIf_ne_zero _ (by decide)]
  have hlinear : BitLinear fun x : BitVec 32 => (x &&& fpscrModeMask) ||| (x &&& 0xF0000000#32) |||
      (x &&& 0x9F#32) ||| bitsIf (x.getLsbD 27) (1#32 <<< 27) :=
    (((BitLinear.id.and _).or (BitLinear.id.and _)).or (BitLinear.id.and _)).or
      (BitLinear.id.bitsIf 27 _)
  have hparts := hlinear.eq_of_twoPow (BitLinear.id.and 0xFFF7009F#32) (by decide) x
  simp only [fpscr, hmxcsr _ (by decide : 0b111101#32 &&& 0b0000000000001#32 = _),
    hmxcsr _ (by decide : 0b111101#32 &&& 0b0000000111100#32 = _), BitVec.zero_ushiftRight,
    BitVec.or_zero]
  simp only [setFpscr, hupper, hqc]
  exact hparts

theorem followsWrites :
    FollowsWrites write upperLocationDescriptor (·.reg 15) cpsr fpscr where
  upper_write s w := by cases w <;> rfl
  pc_write s w := by
    cases w with
    | setPC pc => simp [write]
    | _ => rfl
  cpsr_write s w := by
    cases w with
    | setCpsr x => exact cpsr_setCpsr s x
    | setFpscr x => simp only [write, cpsr, setFpscr, cpsrOfUpper_upperWithFpscr]
    | setPC pc => rfl
  fpscr_write s w := by
    cases w with
    | setCpsr x =>
        simp only [write, fpscr, setCpsr, upperWithCpsr_and (rfl : _ &&& fpscrModeMask = _)]
    | setFpscr x => exact fpscr_setFpscr s x
    | setPC pc => rfl

end A32JitState

end Umbra.X64

namespace Umbra.Backend

open Umbra.Frontend

/-- The dispatcher and the block table agree on locations: after any writes to the registers, the
JIT states of both backends give the hash of the location of what was written last.  The hash
determines the descriptor, and CPSR reads back as it was written but for its reserved bits. -/
theorem locationDescriptor_of_writes :
    (∀ writes : List RegisterWrite,
      (writes.foldl Arm64.A32JitState.write {}).getLocationDescriptor =
          (writes.foldl LastWritten.write ⟨0#32, 0#32, 0#32⟩).uniqueHash ∧
        (writes.foldl X64.A32JitState.write {}).getUniqueHash =
          (writes.foldl LastWritten.write ⟨0#32, 0#32, 0#32⟩).uniqueHash) ∧
    (∀ d : LocationDescriptor, LocationDescriptor.ofHash d.uniqueHash = d) ∧
    (∀ d d' : LocationDescriptor, d.uniqueHash = d'.uniqueHash → d = d') ∧
    (∀ (s : Arm64.A32JitState) x, (s.setCpsr x).cpsr = x &&& 0xFF0FFFFF#32) ∧
    ∀ (s : X64.A32JitState) x, (s.setCpsr x).cpsr = x &&& 0xFF0FFFFF#32 :=
  -- The two getters put the halves of the hash together in either order.
  ⟨fun writes => ⟨Arm64.A32JitState.followsWrites.hashOf_foldl_write rfl rfl writes,
      (BitVec.or_comm _ _).trans (X64.A32JitState.followsWrites.hashOf_foldl_write rfl rfl writes)⟩,
    LocationDescriptor.ofHash_uniqueHash, fun _ _ => LocationDescriptor.eq_of_uniqueHash_eq,
    Arm64.A32JitState.cpsr_setCpsr, X64.A32JitState.cpsr_setCpsr⟩

/-- After any writes to the registers, both backends give back the status registers that were
written last, and so the same ones. -/
theorem statusRegisters_of_writes (writes : List RegisterWrite) :
    (writes.foldl LastWritten.write ⟨0#32, 0#32, 0#32⟩).ReadAs
        (writes.foldl Arm64.A32JitState.write {}).cpsr
        (writes.foldl Arm64.A32JitState.write {}).fpscr ∧
      (writes.foldl LastWritten.write ⟨0#32, 0#32, 0#32⟩).ReadAs
        (writes.foldl X64.A32JitState.write {}).cpsr
        (writes.foldl X64.A32JitState.write {}).fpscr :=
  ⟨Arm64.A32JitState.followsWrites.readAs_foldl_write rfl rfl writes,
    X64.A32JitState.followsWrites.readAs_foldl_write rfl rfl writes⟩

end Umbra.Backend
