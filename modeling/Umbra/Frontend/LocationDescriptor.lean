import Umbra.A32.Translate
import Umbra.Lib.BitLinear

/-!
The location descriptor of the A32 frontend.

A descriptor has the program counter and those bits of CPSR and FPSCR that influence
translation.  Its hash packs them into 64 bits: the program counter below, and above it T, E, the
single-step flag, the IT state in one piece, and the mode bits of FPSCR at their own place.
-/

namespace Umbra.Frontend

open Umbra.Lib
open Umbra.A32 (ITState Location)

def setBit (n : ℕ) (value : BitVec 32) (set : Bool) : BitVec 32 :=
  (value &&& ~~~(1#32 <<< n)) ||| bitsIf set (1#32 <<< n)

theorem bitLinear_setBit {v : ℕ} {f : BitVec v → BitVec 32} (hf : BitLinear f)
    {g : BitVec v → BitVec v} (hg : BitLinear g) (n m : ℕ) :
    BitLinear fun x => setBit n (f x) ((g x).getLsbD m) :=
  (hf.and _).or (hg.bitsIf m _)

/-- A program status register; the reserved bits 20 to 23 are zero. -/
structure PSR where
  value : BitVec 32
deriving DecidableEq

namespace PSR

def ofData (data : BitVec 32) : PSR := ⟨data &&& 0xFF0FFFFF#32⟩

def t (psr : PSR) : Bool := psr.value.getLsbD 5

def setT (psr : PSR) (set : Bool) : PSR := ⟨setBit 5 psr.value set⟩

def e (psr : PSR) : Bool := psr.value.getLsbD 9

def setE (psr : PSR) (set : Bool) : PSR := ⟨setBit 9 psr.value set⟩

def it (psr : PSR) : ITState :=
  ⟨(((psr.value &&& 0x6000000#32) >>> 25) ||| ((psr.value &&& 0xFC00#32) >>> 8)).setWidth 8⟩

def setIT (psr : PSR) (itState : ITState) : PSR :=
  let data := itState.value.setWidth 32
  let value := (psr.value &&& ~~~0x000FC00#32) ||| ((data &&& 0b11111100#32) <<< 8)
  ⟨(value &&& ~~~0x6000000#32) ||| ((data &&& 0b00000011#32) <<< 25)⟩

end PSR

/-- The status and control register of the floating-point unit; bits 5, 6, 13, 14 and 19 are
reserved. -/
structure FPSCR where
  value : BitVec 32
deriving DecidableEq

def FPSCR.ofData (data : BitVec 32) : FPSCR := ⟨data &&& 0xFFF79F9F#32⟩

def cpsrModeMask : BitVec 32 := 0x0600FE20#32

def fpscrModeMask : BitVec 32 := 0x07F70000#32

@[ext]
structure LocationDescriptor where
  armPc : BitVec 32
  cpsr : PSR
  fpscr : FPSCR
  singleStepping : Bool
  cpsr_mode : cpsr.value &&& cpsrModeMask = cpsr.value
  fpscr_mode : fpscr.value &&& fpscrModeMask = fpscr.value

namespace LocationDescriptor

theorem cpsr_masked (x : BitVec 32) :
    (PSR.ofData (x &&& cpsrModeMask)).value &&& cpsrModeMask =
      (PSR.ofData (x &&& cpsrModeMask)).value := by
  rw [PSR.ofData, BitVec.and_assoc, BitVec.and_assoc, BitVec.and_assoc]
  rfl

theorem fpscr_masked (x : BitVec 32) :
    (FPSCR.ofData (x &&& fpscrModeMask)).value &&& fpscrModeMask =
      (FPSCR.ofData (x &&& fpscrModeMask)).value := by
  rw [FPSCR.ofData, BitVec.and_assoc, BitVec.and_assoc, BitVec.and_assoc]
  rfl

def ofRegisters (armPc : BitVec 32) (cpsr : PSR) (fpscr : FPSCR) (singleStepping : Bool) :
    LocationDescriptor where
  armPc := armPc
  cpsr := .ofData (cpsr.value &&& cpsrModeMask)
  fpscr := .ofData (fpscr.value &&& fpscrModeMask)
  singleStepping := singleStepping
  cpsr_mode := cpsr_masked cpsr.value
  fpscr_mode := fpscr_masked fpscr.value

def uniqueHash (d : LocationDescriptor) : BitVec 64 :=
  let pc := d.armPc.setWidth 64
  let fpscr := d.fpscr.value.setWidth 64
  let t := bitsIf d.cpsr.t 1#64
  let e := bitsIf d.cpsr.e 2#64
  let singleStepping := bitsIf d.singleStepping 4#64
  let it := d.cpsr.it.value.setWidth 64 <<< 8
  let upper := (fpscr ||| t ||| e ||| singleStepping ||| it) <<< 32
  pc ||| upper

def psrOfHash (o : BitVec 64) : PSR :=
  let cpsr : PSR := ⟨0#32⟩
  let cpsr := cpsr.setT ((o >>> 32) &&& 1#64 != 0#64)
  let cpsr := cpsr.setE ((o >>> 32) &&& 2#64 != 0#64)
  cpsr.setIT ⟨(o >>> 40).setWidth 8⟩

theorem and_twoPow_ne_zero (x : BitVec 64) {k : ℕ} (hk : k < 64) :
    (x &&& BitVec.twoPow 64 k != 0#64) = x.getLsbD k := by
  have hne : BitVec.twoPow 64 k ≠ 0#64 := fun hzero => by
    simpa [hk] using congrArg (·.getLsbD k) hzero
  rw [BitVec.and_twoPow]
  cases x.getLsbD k <;> simp [hne]

theorem psrOfHash_eq (o : BitVec 64) : psrOfHash o =
    ((PSR.setT ⟨0#32⟩ ((o >>> 32).getLsbD 0)).setE ((o >>> 32).getLsbD 1)).setIT
      ⟨(o >>> 40).setWidth 8⟩ := by
  have ht := and_twoPow_ne_zero (o >>> 32) (by decide : 0 < 64)
  have he := and_twoPow_ne_zero (o >>> 32) (by decide : 1 < 64)
  rw [← ht, ← he]
  rfl

theorem bitLinear_setIT {v : ℕ} {f : BitVec v → BitVec 32} (hf : BitLinear f)
    {g : BitVec v → BitVec 8} (hg : BitLinear g) :
    BitLinear fun x => (PSR.setIT ⟨f x⟩ ⟨g x⟩).value :=
  (((hf.and _).or (((hg.setWidth 32).and _).shiftLeft 8)).and _).or
    (((hg.setWidth 32).and _).shiftLeft 25)

theorem bitLinear_it : BitLinear fun x => (PSR.it ⟨x⟩).value :=
  (((BitLinear.id.and _).ushiftRight 25).or ((BitLinear.id.and _).ushiftRight 8)).setWidth 8

theorem psrOfHash_mode (o : BitVec 64) :
    (psrOfHash o).value &&& cpsrModeMask = (psrOfHash o).value := by
  have hlinear : BitLinear fun o : BitVec 64 => (psrOfHash o).value := by
    simp only [psrOfHash_eq]
    have hword : BitLinear fun o : BitVec 64 => o >>> 32 := BitLinear.id.ushiftRight 32
    exact bitLinear_setIT (bitLinear_setBit (bitLinear_setBit .zero hword 5 0) hword 9 1)
      ((BitLinear.id.ushiftRight 40).setWidth 8)
  exact (hlinear.and _).eq_of_twoPow hlinear (by decide) o

def ofHash (o : BitVec 64) : LocationDescriptor where
  armPc := o.setWidth 32
  cpsr := psrOfHash o
  fpscr := .ofData ((o >>> 32).setWidth 32 &&& fpscrModeMask)
  singleStepping := (o >>> 32) &&& 4#64 != 0#64
  cpsr_mode := psrOfHash_mode o
  fpscr_mode := fpscr_masked _

/-! ### The hash -/

def hashOf (upper pc : BitVec 32) : BitVec 64 := pc.setWidth 64 ||| (upper.setWidth 64 <<< 32)

theorem getLsbD_hashOf (upper pc : BitVec 32) (i : ℕ) :
    (hashOf upper pc).getLsbD i = if i < 32 then pc.getLsbD i else upper.getLsbD (i - 32) := by
  unfold hashOf
  split
  · simp [show i < 64 by omega, *]
  · by_cases hi : i < 64
    · simp [BitVec.getLsbD_of_ge pc i (by omega), *]
    · simp [hi, BitVec.getLsbD_of_ge upper (i - 32) (by omega)]

theorem setWidth_hashOf (upper pc : BitVec 32) : (hashOf upper pc).setWidth 32 = pc := by
  refine BitVec.eq_of_getLsbD_eq fun i hi => ?_
  rw [BitVec.getLsbD_setWidth, getLsbD_hashOf, if_pos hi, decide_eq_true hi, Bool.true_and]

theorem hashOf_ushiftRight (upper pc : BitVec 32) :
    hashOf upper pc >>> 32 = upper.setWidth 64 := by
  refine BitVec.eq_of_getLsbD_eq fun i hi => ?_
  simp [getLsbD_hashOf, hi]

def upperHalf (d : LocationDescriptor) : BitVec 32 :=
  d.fpscr.value ||| bitsIf d.cpsr.t 1#32 ||| bitsIf d.cpsr.e 2#32 |||
    bitsIf d.singleStepping 4#32 ||| (d.cpsr.it.value.setWidth 32 <<< 8)

theorem setWidth_bitsIf (cond : Bool) (value : BitVec 32) :
    (bitsIf cond value).setWidth 64 = bitsIf cond (value.setWidth 64) := by
  cases cond <;> simp [bitsIf]

variable (d : LocationDescriptor)

theorem uniqueHash_eq_hashOf :
    d.uniqueHash = hashOf d.upperHalf d.armPc := by
  have hit : d.cpsr.it.value.setWidth 64 <<< 8 =
      (d.cpsr.it.value.setWidth 32 <<< 8).setWidth 64 := by
    refine BitVec.eq_of_getLsbD_eq fun i hi => ?_
    by_cases hhigh : 16 ≤ i
    · simp [BitVec.getLsbD_of_ge d.cpsr.it.value (i - 8) (by omega)]
    · simp [hi, show i < 32 by omega]
  simp only [uniqueHash, hashOf, upperHalf, BitVec.setWidth_or, setWidth_bitsIf, hit]
  rfl

theorem psrOfHash_hashOf (upper pc : BitVec 32) : psrOfHash (hashOf upper pc) =
    ((PSR.setT ⟨0#32⟩ (upper.getLsbD 0)).setE (upper.getLsbD 1)).setIT
      ⟨(upper >>> 8).setWidth 8⟩ := by
  have hit : (hashOf upper pc >>> 40).setWidth 8 = (upper >>> 8).setWidth 8 := by
    refine BitVec.eq_of_getLsbD_eq fun i hi => ?_
    simp [getLsbD_hashOf, show 40 + i - 32 = 8 + i by omega, show ¬40 + i < 32 by omega]
  rw [psrOfHash_eq, hashOf_ushiftRight, hit]
  simp

/-- T, E and the IT state give a register back that has nothing else. -/
theorem setIT_setE_setT {psr : PSR} (hmode : psr.value &&& cpsrModeMask = psr.value) :
    ((PSR.setT ⟨0#32⟩ psr.t).setE psr.e).setIT psr.it = psr := by
  have hlinear : BitLinear fun x : BitVec 32 =>
      (((PSR.setT ⟨0#32⟩ (PSR.t ⟨x⟩)).setE (PSR.e ⟨x⟩)).setIT (PSR.it ⟨x⟩)).value :=
    bitLinear_setIT (bitLinear_setBit (bitLinear_setBit .zero .id 5 5) .id 9 9) bitLinear_it
  refine congrArg PSR.mk ?_
  rw [← hmode]
  exact hlinear.eq_of_twoPow (BitLinear.id.and cpsrModeMask) (by decide) psr.value

theorem getLsbD_upperHalf : d.upperHalf.getLsbD 0 = d.cpsr.t ∧
    d.upperHalf.getLsbD 1 = d.cpsr.e ∧ d.upperHalf.getLsbD 2 = d.singleStepping := by
  simp only [upperHalf]
  rw [← d.fpscr_mode]
  simp [fpscrModeMask]

/-- A function that keeps unions sees the parts of the upper half one by one. -/
theorem map_upperHalf {w : ℕ} {f : BitVec 32 → BitVec w} (hf : BitLinear f) (h1 : f 1#32 = 0#w)
    (h2 : f 2#32 = 0#w) (h4 : f 4#32 = 0#w) :
    f d.upperHalf = f (d.fpscr.value &&& fpscrModeMask) |||
      f (d.cpsr.it.value.setWidth 32 <<< 8) := by
  have hflag : ∀ (cond : Bool) (value : BitVec 32), f value = 0#w → f (bitsIf cond value) = 0#w := by
    intro cond value hvalue
    cases cond
    · exact hf.map_zero
    · exact hvalue
  rw [upperHalf, hf.map_or, hf.map_or, hf.map_or, hf.map_or, hflag _ _ h1, hflag _ _ h2,
    hflag _ _ h4, d.fpscr_mode, BitVec.or_zero, BitVec.or_zero, BitVec.or_zero]

theorem it_upperHalf :
    (d.upperHalf >>> 8).setWidth 8 = d.cpsr.it.value := by
  have hbyte : BitLinear fun x : BitVec 32 => (x >>> 8).setWidth 8 :=
    (BitLinear.id.ushiftRight 8).setWidth 8
  have hmode := (hbyte.comp (BitLinear.id.and fpscrModeMask)).eq_of_twoPow .zero (by decide)
    d.fpscr.value
  have hit := (hbyte.comp ((BitLinear.id.setWidth 32).shiftLeft 8)).eq_of_twoPow .id (by decide)
    d.cpsr.it.value
  rw [d.map_upperHalf hbyte rfl rfl rfl, hmode, hit, BitVec.zero_or]

theorem fpscr_upperHalf :
    d.upperHalf &&& fpscrModeMask = d.fpscr.value := by
  have hmask : BitLinear fun x : BitVec 32 => x &&& fpscrModeMask := BitLinear.id.and _
  have hit := (hmask.comp (((BitLinear.id (w := 8)).setWidth 32).shiftLeft 8)).eq_of_twoPow .zero
    (by decide) d.cpsr.it.value
  rw [d.map_upperHalf hmask rfl rfl rfl, hit, BitVec.or_zero, d.fpscr_mode, d.fpscr_mode]

theorem ofHash_uniqueHash : ofHash d.uniqueHash = d := by
  obtain ⟨ht, he, hsingle⟩ := d.getLsbD_upperHalf
  rw [uniqueHash_eq_hashOf]
  refine LocationDescriptor.ext ?_ ?_ ?_ ?_
  · exact setWidth_hashOf _ _
  · change psrOfHash (hashOf d.upperHalf d.armPc) = d.cpsr
    rw [psrOfHash_hashOf, ht, he, d.it_upperHalf]
    exact setIT_setE_setT d.cpsr_mode
  · change FPSCR.ofData ((hashOf d.upperHalf d.armPc >>> 32).setWidth 32 &&& fpscrModeMask) = d.fpscr
    have hmask : fpscrModeMask &&& 0xFFF79F9F#32 = fpscrModeMask := rfl
    rw [hashOf_ushiftRight, BitVec.setWidth_setWidth_of_le _ (by decide), BitVec.setWidth_eq,
      FPSCR.ofData, BitVec.and_assoc, hmask, d.fpscr_upperHalf]
  · change (hashOf d.upperHalf d.armPc >>> 32 &&& 4#64 != 0#64) = d.singleStepping
    rw [hashOf_ushiftRight, ← hsingle]
    exact (and_twoPow_ne_zero _ (by decide : 2 < 64)).trans (by simp)

theorem eq_of_uniqueHash_eq {d d' : LocationDescriptor} (h : d.uniqueHash = d'.uniqueHash) :
    d = d' := by
  rw [← d.ofHash_uniqueHash, h, ofHash_uniqueHash]

/-! ### The location that the translator works with -/

/-- A descriptor as the fields that the translator reads. -/
def location (d : LocationDescriptor) : Location where
  pc := d.armPc
  tFlag := d.cpsr.t
  eFlag := d.cpsr.e
  it := d.cpsr.it
  fpscr := d.fpscr.value
  singleStepping := d.singleStepping

def setPC (d : LocationDescriptor) (newArmPc : BitVec 32) : LocationDescriptor :=
  ofRegisters newArmPc d.cpsr d.fpscr d.singleStepping

def advancePC (d : LocationDescriptor) (amount : ℕ) : LocationDescriptor :=
  ofRegisters (d.armPc + BitVec.ofNat 32 amount) d.cpsr d.fpscr d.singleStepping

def setTFlag (d : LocationDescriptor) (newTFlag : Bool) : LocationDescriptor :=
  ofRegisters d.armPc (d.cpsr.setT newTFlag) d.fpscr d.singleStepping

def setEFlag (d : LocationDescriptor) (newEFlag : Bool) : LocationDescriptor :=
  ofRegisters d.armPc (d.cpsr.setE newEFlag) d.fpscr d.singleStepping

def setFPSCR (d : LocationDescriptor) (newFpscr : BitVec 32) : LocationDescriptor :=
  ofRegisters d.armPc d.cpsr (.ofData (newFpscr &&& fpscrModeMask)) d.singleStepping

def setIT (d : LocationDescriptor) (newIT : ITState) : LocationDescriptor :=
  ofRegisters d.armPc (d.cpsr.setIT newIT) d.fpscr d.singleStepping

def advanceIT (d : LocationDescriptor) : LocationDescriptor := d.setIT d.cpsr.it.advance

def setSingleStepping (d : LocationDescriptor) (newSingleStepping : Bool) : LocationDescriptor :=
  ofRegisters d.armPc d.cpsr d.fpscr newSingleStepping

inductive Update
  | setPC (pc : BitVec 32)
  | advancePC (amount : ℕ)
  | setTFlag (tFlag : Bool)
  | setEFlag (eFlag : Bool)
  | setFPSCR (fpscr : BitVec 32)
  | setIT (it : ITState)
  | advanceIT
  | setSingleStepping (singleStepping : Bool)

def update (d : LocationDescriptor) : Update → LocationDescriptor
  | .setPC pc => d.setPC pc
  | .advancePC amount => d.advancePC amount
  | .setTFlag tFlag => d.setTFlag tFlag
  | .setEFlag eFlag => d.setEFlag eFlag
  | .setFPSCR fpscr => d.setFPSCR fpscr
  | .setIT it => d.setIT it
  | .advanceIT => d.advanceIT
  | .setSingleStepping singleStepping => d.setSingleStepping singleStepping

/-- What an update should do to the fields: it writes its own and keeps the others. -/
def updateFields (l : Location) : Update → Location
  | .setPC pc => { l with pc }
  | .advancePC amount => l.advancePC amount
  | .setTFlag tFlag => { l with tFlag }
  | .setEFlag eFlag => { l with eFlag }
  | .setFPSCR fpscr => { l with fpscr := fpscr &&& fpscrModeMask }
  | .setIT it => { l with it }
  | .advanceIT => l.advanceIT
  | .setSingleStepping singleStepping => { l with singleStepping }

theorem location_ofRegisters (pc : BitVec 32) (psr : PSR) (fpscr : FPSCR) (single : Bool) :
    (ofRegisters pc psr fpscr single).location =
      ⟨pc, psr.t, psr.e, psr.it, fpscr.value &&& fpscrModeMask, single⟩ := by
  have hmask : fpscrModeMask &&& 0xFFF79F9F#32 = fpscrModeMask := rfl
  simp [location, ofRegisters, PSR.ofData, FPSCR.ofData, PSR.t, PSR.e, PSR.it, cpsrModeMask,
    BitVec.and_assoc, hmask]

theorem it_setIT (psr : PSR) (it : ITState) : (psr.setIT it).it = it := by
  have hit : BitLinear fun x => (PSR.it ⟨x⟩).value := bitLinear_it
  have hparts : (psr.setIT it).value = (PSR.setIT psr ⟨0#8⟩).value ||| (PSR.setIT ⟨0#32⟩ it).value := by
    ext i hi
    simp [PSR.setIT]
    grind
  have hold := (hit.comp (bitLinear_setIT .id .zero)).eq_of_twoPow .zero (by decide) psr.value
  have hnew := (hit.comp (bitLinear_setIT .zero .id)).eq_of_twoPow .id (by decide) it.value
  refine congrArg ITState.mk ?_
  change (PSR.it ⟨(psr.setIT it).value⟩).value = it.value
  rw [hparts, hit.map_or, hold, hnew, BitVec.zero_or]

theorem it_setBit (psr : PSR) (set : Bool) {n : ℕ} (hn : n = 5 ∨ n = 9) :
    PSR.it ⟨setBit n psr.value set⟩ = psr.it := by
  have hset : ∀ mask : BitVec 32, ~~~(1#32 <<< n) &&& mask = mask ∧ (1#32 <<< n) &&& mask = 0#32 →
      setBit n psr.value set &&& mask = psr.value &&& mask := by
    rintro mask ⟨hkeep, hdrop⟩
    rw [setBit, (BitLinear.id.and _).map_or, BitVec.and_assoc, hkeep]
    cases set <;> simp [bitsIf, hdrop]
  rw [PSR.it, PSR.it]
  rcases hn with rfl | rfl <;> rw [hset _ (by decide), hset _ (by decide)]

theorem location_setIT (it : ITState) : (d.setIT it).location = { d.location with it } := by
  rw [setIT, location_ofRegisters, d.fpscr_mode, it_setIT]
  simp [location, PSR.setIT, PSR.t, PSR.e]

/-- Each update writes its field through the packed registers. -/
theorem location_update (u : Update) : (d.update u).location = updateFields d.location u := by
  cases u with
  | setTFlag tFlag =>
      rw [update, setTFlag, location_ofRegisters, PSR.setT, it_setBit _ _ (.inl rfl), d.fpscr_mode]
      cases tFlag <;> simp [updateFields, location, PSR.t, PSR.e, setBit, bitsIf]
  | setEFlag eFlag =>
      rw [update, setEFlag, location_ofRegisters, PSR.setE, it_setBit _ _ (.inr rfl), d.fpscr_mode]
      cases eFlag <;> simp [updateFields, location, PSR.t, PSR.e, setBit, bitsIf]
  | setIT | advanceIT => exact d.location_setIT _
  | setFPSCR fpscr =>
      have hmask : fpscrModeMask &&& (0xFFF79F9F#32 &&& fpscrModeMask) = fpscrModeMask := rfl
      rw [update, setFPSCR, location_ofRegisters, FPSCR.ofData, BitVec.and_assoc, BitVec.and_assoc, hmask]
      rfl
  | setPC | advancePC | setSingleStepping =>
      exact (location_ofRegisters _ _ _ _).trans (by rw [d.fpscr_mode]; rfl)

theorem location_injective : Function.Injective location := by
  intro d d' h
  have hupper : d.upperHalf = d'.upperHalf := by
    have ht := congrArg Location.tFlag h
    have he := congrArg Location.eFlag h
    have hit := congrArg Location.it h
    have hfpscr := congrArg Location.fpscr h
    have hsingle := congrArg Location.singleStepping h
    simp only [location] at ht he hit hfpscr hsingle
    rw [upperHalf, upperHalf, ht, he, hit, hfpscr, hsingle]
  apply eq_of_uniqueHash_eq
  rw [uniqueHash_eq_hashOf, uniqueHash_eq_hashOf, hupper]
  exact congrArg (hashOf d'.upperHalf) (congrArg Location.pc h)

/-- A descriptor is its fields: after any updates its hash is that of another descriptor exactly
when the fields are, each of them as it was written last. -/
theorem uniqueHash_update_iff (updates : List Update) (d d' : LocationDescriptor) :
    (updates.foldl update d).uniqueHash = d'.uniqueHash ↔
      updates.foldl updateFields d.location = d'.location := by
  have hrun : updates.foldl updateFields d.location = (updates.foldl update d).location :=
    List.foldl_hom location fun d u => (d.location_update u).symm
  rw [hrun, location_injective.eq_iff]
  exact ⟨eq_of_uniqueHash_eq, congrArg uniqueHash⟩

end LocationDescriptor

end Umbra.Frontend
