import Mathlib.LinearAlgebra.Matrix.Circulant
import Umbra.Lib.BitPolynomial
import Umbra.Lib.Lanes

/-!
The AES instructions.

A state is a matrix of four rows and four columns, column after column.  The functions write their
result over a state that is passed in; nothing of its old content remains.
-/

namespace Umbra.Common.Crypto.AES

open Umbra.Lib

abbrev State := Fin 16 → BitVec 8

abbrev SubstitutionTable := Vector (BitVec 8) 256

set_option maxRecDepth 4000 in
/-- See section 5.1.1 Figure 7 in FIPS 197. -/
def substitutionBox : SubstitutionTable := #v[
  0x63, 0x7C, 0x77, 0x7B, 0xF2, 0x6B, 0x6F, 0xC5, 0x30, 0x01, 0x67, 0x2B, 0xFE, 0xD7, 0xAB, 0x76,
  0xCA, 0x82, 0xC9, 0x7D, 0xFA, 0x59, 0x47, 0xF0, 0xAD, 0xD4, 0xA2, 0xAF, 0x9C, 0xA4, 0x72, 0xC0,
  0xB7, 0xFD, 0x93, 0x26, 0x36, 0x3F, 0xF7, 0xCC, 0x34, 0xA5, 0xE5, 0xF1, 0x71, 0xD8, 0x31, 0x15,
  0x04, 0xC7, 0x23, 0xC3, 0x18, 0x96, 0x05, 0x9A, 0x07, 0x12, 0x80, 0xE2, 0xEB, 0x27, 0xB2, 0x75,
  0x09, 0x83, 0x2C, 0x1A, 0x1B, 0x6E, 0x5A, 0xA0, 0x52, 0x3B, 0xD6, 0xB3, 0x29, 0xE3, 0x2F, 0x84,
  0x53, 0xD1, 0x00, 0xED, 0x20, 0xFC, 0xB1, 0x5B, 0x6A, 0xCB, 0xBE, 0x39, 0x4A, 0x4C, 0x58, 0xCF,
  0xD0, 0xEF, 0xAA, 0xFB, 0x43, 0x4D, 0x33, 0x85, 0x45, 0xF9, 0x02, 0x7F, 0x50, 0x3C, 0x9F, 0xA8,
  0x51, 0xA3, 0x40, 0x8F, 0x92, 0x9D, 0x38, 0xF5, 0xBC, 0xB6, 0xDA, 0x21, 0x10, 0xFF, 0xF3, 0xD2,
  0xCD, 0x0C, 0x13, 0xEC, 0x5F, 0x97, 0x44, 0x17, 0xC4, 0xA7, 0x7E, 0x3D, 0x64, 0x5D, 0x19, 0x73,
  0x60, 0x81, 0x4F, 0xDC, 0x22, 0x2A, 0x90, 0x88, 0x46, 0xEE, 0xB8, 0x14, 0xDE, 0x5E, 0x0B, 0xDB,
  0xE0, 0x32, 0x3A, 0x0A, 0x49, 0x06, 0x24, 0x5C, 0xC2, 0xD3, 0xAC, 0x62, 0x91, 0x95, 0xE4, 0x79,
  0xE7, 0xC8, 0x37, 0x6D, 0x8D, 0xD5, 0x4E, 0xA9, 0x6C, 0x56, 0xF4, 0xEA, 0x65, 0x7A, 0xAE, 0x08,
  0xBA, 0x78, 0x25, 0x2E, 0x1C, 0xA6, 0xB4, 0xC6, 0xE8, 0xDD, 0x74, 0x1F, 0x4B, 0xBD, 0x8B, 0x8A,
  0x70, 0x3E, 0xB5, 0x66, 0x48, 0x03, 0xF6, 0x0E, 0x61, 0x35, 0x57, 0xB9, 0x86, 0xC1, 0x1D, 0x9E,
  0xE1, 0xF8, 0x98, 0x11, 0x69, 0xD9, 0x8E, 0x94, 0x9B, 0x1E, 0x87, 0xE9, 0xCE, 0x55, 0x28, 0xDF,
  0x8C, 0xA1, 0x89, 0x0D, 0xBF, 0xE6, 0x42, 0x68, 0x41, 0x99, 0x2D, 0x0F, 0xB0, 0x54, 0xBB, 0x16]

set_option maxRecDepth 4000 in
/-- See section 5.3.2 Figure 14 in FIPS 197. -/
def inverseSubstitutionBox : SubstitutionTable := #v[
  0x52, 0x09, 0x6A, 0xD5, 0x30, 0x36, 0xA5, 0x38, 0xBF, 0x40, 0xA3, 0x9E, 0x81, 0xF3, 0xD7, 0xFB,
  0x7C, 0xE3, 0x39, 0x82, 0x9B, 0x2F, 0xFF, 0x87, 0x34, 0x8E, 0x43, 0x44, 0xC4, 0xDE, 0xE9, 0xCB,
  0x54, 0x7B, 0x94, 0x32, 0xA6, 0xC2, 0x23, 0x3D, 0xEE, 0x4C, 0x95, 0x0B, 0x42, 0xFA, 0xC3, 0x4E,
  0x08, 0x2E, 0xA1, 0x66, 0x28, 0xD9, 0x24, 0xB2, 0x76, 0x5B, 0xA2, 0x49, 0x6D, 0x8B, 0xD1, 0x25,
  0x72, 0xF8, 0xF6, 0x64, 0x86, 0x68, 0x98, 0x16, 0xD4, 0xA4, 0x5C, 0xCC, 0x5D, 0x65, 0xB6, 0x92,
  0x6C, 0x70, 0x48, 0x50, 0xFD, 0xED, 0xB9, 0xDA, 0x5E, 0x15, 0x46, 0x57, 0xA7, 0x8D, 0x9D, 0x84,
  0x90, 0xD8, 0xAB, 0x00, 0x8C, 0xBC, 0xD3, 0x0A, 0xF7, 0xE4, 0x58, 0x05, 0xB8, 0xB3, 0x45, 0x06,
  0xD0, 0x2C, 0x1E, 0x8F, 0xCA, 0x3F, 0x0F, 0x02, 0xC1, 0xAF, 0xBD, 0x03, 0x01, 0x13, 0x8A, 0x6B,
  0x3A, 0x91, 0x11, 0x41, 0x4F, 0x67, 0xDC, 0xEA, 0x97, 0xF2, 0xCF, 0xCE, 0xF0, 0xB4, 0xE6, 0x73,
  0x96, 0xAC, 0x74, 0x22, 0xE7, 0xAD, 0x35, 0x85, 0xE2, 0xF9, 0x37, 0xE8, 0x1C, 0x75, 0xDF, 0x6E,
  0x47, 0xF1, 0x1A, 0x71, 0x1D, 0x29, 0xC5, 0x89, 0x6F, 0xB7, 0x62, 0x0E, 0xAA, 0x18, 0xBE, 0x1B,
  0xFC, 0x56, 0x3E, 0x4B, 0xC6, 0xD2, 0x79, 0x20, 0x9A, 0xDB, 0xC0, 0xFE, 0x78, 0xCD, 0x5A, 0xF4,
  0x1F, 0xDD, 0xA8, 0x33, 0x88, 0x07, 0xC7, 0x31, 0xB1, 0x12, 0x10, 0x59, 0x27, 0x80, 0xEC, 0x5F,
  0x60, 0x51, 0x7F, 0xA9, 0x19, 0xB5, 0x4A, 0x0D, 0x2D, 0xE5, 0x7A, 0x9F, 0x93, 0xC9, 0x9C, 0xEF,
  0xA0, 0xE0, 0x3B, 0x4D, 0xAE, 0x2A, 0xF5, 0xB0, 0xC8, 0xEB, 0xBB, 0x3C, 0x83, 0x53, 0x99, 0x61,
  0x17, 0x2B, 0x04, 0x7E, 0xBA, 0x77, 0xD6, 0x26, 0xE1, 0x69, 0x14, 0x63, 0x55, 0x21, 0x0C, 0x7D]

/-- See section 4.2.1 in FIPS 197.  The arithmetic is that of `int`. -/
def xtime (x : BitVec 8) : BitVec 8 :=
  let x : BitVec 32 := x.setWidth 32
  ((x <<< 1) ^^^ (((x >>> 7) &&& 1#32) * 0x1B#32)).setWidth 8

def multiply (x y : BitVec 8) : BitVec 8 :=
  let y : BitVec 32 := y.setWidth 32
  let u8 (x : BitVec 8) : BitVec 32 := x.setWidth 32
  (((y &&& 1#32) * u8 x)
    ^^^ (((y >>> 1) &&& 1#32) * u8 (xtime x))
    ^^^ (((y >>> 2) &&& 1#32) * u8 (xtime (xtime x)))
    ^^^ (((y >>> 3) &&& 1#32) * u8 (xtime (xtime (xtime x))))
    ^^^ (((y >>> 4) &&& 1#32) * u8 (xtime (xtime (xtime (xtime x)))))).setWidth 8

def assign (out : State) (l : List (Fin 16 × BitVec 8)) : State :=
  l.foldl (fun out p => Function.update out p.1 p.2) out

def shiftRows (out state : State) : State :=
  assign out [
    -- Move zeroth row over
    (0, state 0), (4, state 4), (8, state 8), (12, state 12),
    -- Rotate first row 1 column left.
    (1, state 5), (5, state 9), (9, state 13), (13, state 1),
    -- Rotate second row 2 columns left
    (2, state 10), (10, state 2), (6, state 14), (14, state 6),
    -- Rotate third row 3 columns left
    (3, state 15), (15, state 11), (11, state 7), (7, state 3)]

def inverseShiftRows (out state : State) : State :=
  assign out [
    -- Move zeroth row over
    (0, state 0), (4, state 4), (8, state 8), (12, state 12),
    -- Rotate first row 1 column right.
    (13, state 9), (9, state 5), (5, state 1), (1, state 13),
    -- Rotate second row 2 columns right
    (2, state 10), (10, state 2), (6, state 14), (14, state 6),
    -- Rotate third row 3 columns right
    (3, state 7), (7, state 11), (11, state 15), (15, state 3)]

def at4 (i j : Fin 4) : Fin 16 := ⟨4 * i + j, by omega⟩

def subBytes (state : State) (table : SubstitutionTable) : State :=
  (List.finRange 4).foldl (fun state i =>
    (List.finRange 4).foldl (fun state j =>
      Function.update state (at4 i j) (table.get (state (at4 i j)).toFin)) state) state

def decryptSingleRound (out state : State) : State :=
  subBytes (inverseShiftRows out state) inverseSubstitutionBox

def encryptSingleRound (out state : State) : State :=
  subBytes (shiftRows out state) substitutionBox

def mixColumns (out state : State) : State :=
  (List.finRange 4).foldl (fun out i =>
    let a := state (at4 i 0)
    let b := state (at4 i 1)
    let c := state (at4 i 2)
    let d := state (at4 i 3)
    let tmp := a ^^^ b ^^^ c ^^^ d
    assign out [
      (at4 i 0, a ^^^ xtime (a ^^^ b) ^^^ tmp),
      (at4 i 1, b ^^^ xtime (b ^^^ c) ^^^ tmp),
      (at4 i 2, c ^^^ xtime (c ^^^ d) ^^^ tmp),
      (at4 i 3, d ^^^ xtime (d ^^^ a) ^^^ tmp)]) out

def inverseMixColumns (out state : State) : State :=
  (List.finRange 4).foldl (fun out i =>
    let a := state (at4 i 0)
    let b := state (at4 i 1)
    let c := state (at4 i 2)
    let d := state (at4 i 3)
    assign out [
      (at4 i 0, multiply a 0x0E ^^^ multiply b 0x0B ^^^ multiply c 0x0D ^^^ multiply d 0x09),
      (at4 i 1, multiply a 0x09 ^^^ multiply b 0x0E ^^^ multiply c 0x0B ^^^ multiply d 0x0D),
      (at4 i 2, multiply a 0x0D ^^^ multiply b 0x09 ^^^ multiply c 0x0E ^^^ multiply d 0x0B),
      (at4 i 3, multiply a 0x0B ^^^ multiply b 0x0D ^^^ multiply c 0x09 ^^^ multiply d 0x0E)]) out

/-! ### The rounds -/

theorem map_substitutionBox :
    substitutionBox.toList.map (fun x => inverseSubstitutionBox.toList.getD x.toNat 0) =
      (List.range 256).map (BitVec.ofNat 8) := by
  decide +kernel

theorem toList_getElem? (table : SubstitutionTable) (x : BitVec 8) :
    table.toList[x.toNat]? = some (table.get x.toFin) := by
  rw [List.getElem?_eq_getElem (by simpa using x.isLt)]
  rfl

theorem inverseSubstitutionBox_get (x : BitVec 8) :
    inverseSubstitutionBox.get (substitutionBox.get x.toFin).toFin = x := by
  have h := congrArg (·[x.toNat]?) map_substitutionBox
  simp only [List.getElem?_map, toList_getElem?, List.getElem?_range x.isLt, Option.map_some,
    List.getD_eq_getElem?_getD, Option.getD_some, BitVec.ofNat_toNat, BitVec.setWidth_eq] at h
  exact Option.some.inj h

theorem substitutionBox_get (x : BitVec 8) :
    substitutionBox.get (inverseSubstitutionBox.get x.toFin).toFin = x := by
  have hleft : Function.LeftInverse (fun i : Fin 256 => (inverseSubstitutionBox.get i).toFin)
      fun i => (substitutionBox.get i).toFin :=
    fun i => congrArg BitVec.toFin (inverseSubstitutionBox_get (.ofFin i))
  obtain ⟨i, hi⟩ := Finite.injective_iff_surjective.mp hleft.injective x.toFin
  have hx : substitutionBox.get i = x := BitVec.toFin_inj.mp hi
  rw [← hx]
  exact congrArg substitutionBox.get (hleft i)

theorem subBytes_apply (state : State) (table : SubstitutionTable) (k : Fin 16) :
    subBytes state table k = table.get (state k).toFin := by
  fin_cases k <;> rfl

theorem shiftRows_apply (out state : State) (k : Fin 16) :
    shiftRows out state k = state (5 * k) := by
  fin_cases k <;> rfl

theorem inverseShiftRows_apply (out state : State) (k : Fin 16) :
    inverseShiftRows out state k = state (13 * k) := by
  fin_cases k <;> rfl

theorem decryptSingleRound_encryptSingleRound (out out' state : State) :
    decryptSingleRound out' (encryptSingleRound out state) = state := by
  funext k
  have hk : 5 * (13 * k) = k := by
    revert k
    decide
  rw [decryptSingleRound, subBytes_apply, inverseShiftRows_apply, encryptSingleRound,
    subBytes_apply, shiftRows_apply, hk, inverseSubstitutionBox_get]

theorem encryptSingleRound_decryptSingleRound (out out' state : State) :
    encryptSingleRound out' (decryptSingleRound out state) = state := by
  funext k
  have hk : 13 * (5 * k) = k := by
    revert k
    decide
  rw [encryptSingleRound, subBytes_apply, shiftRows_apply, decryptSingleRound,
    subBytes_apply, inverseShiftRows_apply, hk, substitutionBox_get]

/-! ### The columns -/

/-- The residues modulo the AES polynomial, `x^8 + x^4 + x^3 + x + 1`. -/
abbrev GF := AdjoinRoot (bitModulus 0x1B#8)

noncomputable def gf (x : BitVec 8) : GF := residue 0x1B#8 x

theorem gf_injective : Function.Injective gf := residue_injective 0x1B#8

theorem gf_xor (x y : BitVec 8) : gf (x ^^^ y) = gf x + gf y := residue_xor _ x y

theorem gf_zero : gf 0#8 = 0 := by simp [gf, residue]

theorem xtime_eq (x : BitVec 8) : xtime x = (x <<< 1) ^^^ if x.msb then 0x1B#8 else 0#8 := by
  revert x
  decide +kernel

theorem gf_xtime (x : BitVec 8) : gf (xtime x) = AdjoinRoot.root (bitModulus 0x1B#8) * gf x := by
  rw [xtime_eq]
  exact (root_mul_residue _ x).symm

theorem bit_mul (x y : BitVec 8) (i : ℕ) :
    (((y.setWidth 32 >>> i) &&& 1#32) * x.setWidth 32).setWidth 8 =
      if y.getLsbD i then x else 0#8 := by
  have hbit : (y.setWidth 32 >>> i) &&& 1#32 = if y.getLsbD i then 1#32 else 0#32 := by
    rw [BitVec.and_one_eq_setWidth_ofBool_getLsbD, BitVec.getLsbD_ushiftRight,
      BitVec.getLsbD_setWidth, Nat.add_zero]
    by_cases hi : i < 32
    · cases y.getLsbD i <;> simp [hi]
    · rw [BitVec.getLsbD_of_ge y i (by omega), Bool.and_false]
      rfl
  rw [hbit]
  split <;> simp

theorem multiply_eq (x y : BitVec 8) : multiply x y =
    (if y.getLsbD 0 then x else 0#8) ^^^ (if y.getLsbD 1 then xtime x else 0#8)
      ^^^ (if y.getLsbD 2 then xtime (xtime x) else 0#8)
      ^^^ (if y.getLsbD 3 then xtime (xtime (xtime x)) else 0#8)
      ^^^ (if y.getLsbD 4 then xtime (xtime (xtime (xtime x))) else 0#8) := by
  have h₀ := bit_mul x y 0
  rw [BitVec.ushiftRight_zero] at h₀
  simp only [multiply, BitVec.setWidth_xor, h₀, bit_mul]

/-- For factors of at most five bits, as there are here. -/
theorem gf_multiply (x y : BitVec 8) (hy : y.toNat < 32) : gf (multiply x y) = gf x * gf y := by
  have hhigh (i : ℕ) (hi : 5 ≤ i) : y.getLsbD i = false :=
    Nat.testBit_lt_two_pow (hy.trans_le (Nat.pow_le_pow_right (n := 2) (by decide) hi))
  have hif (b : Bool) (z : BitVec 8) : gf (if b then z else 0#8) = if b then gf z else 0 := by
    cases b
    · exact gf_zero
    · rfl
  have hy : gf y = ∑ i ∈ Finset.range 8,
      if y.getLsbD i then AdjoinRoot.root (bitModulus 0x1B#8) ^ i else 0 := residue_eq_sum _ y
  simp only [multiply_eq, gf_xor, hif, gf_xtime, hy, Finset.sum_range_succ, Finset.sum_range_zero,
    hhigh 5, hhigh 6, hhigh 7, le_refl, Nat.reduceLeDiff, Bool.false_eq_true, if_false, zero_add,
    add_zero, mul_add, mul_ite, mul_zero]
  ring_nf

noncomputable def column (state : State) (i : Fin 4) : Fin 4 → GF := fun j => gf (state (at4 i j))

theorem eq_of_column_eq {state state' : State} (h : ∀ i, column state i = column state' i) :
    state = state' := by
  funext k
  have hk : k = at4 ⟨k / 4, by omega⟩ ⟨k % 4, by omega⟩ := by
    ext
    simp [at4, Nat.div_add_mod]
  rw [hk]
  exact gf_injective (congrFun (h _) _)

def inverseCoefficients : Fin 4 → BitVec 8 := ![0x0E, 0x09, 0x0D, 0x0B]

/-- The matrix with the rows `2 3 1 1`, `1 2 3 1`, `1 1 2 3`, `3 1 1 2`. -/
noncomputable def mixMatrix : Matrix (Fin 4) (Fin 4) GF :=
  Matrix.circulant fun i => gf (![0x02, 0x01, 0x01, 0x03] i)

/-- The matrix with the rows `E B D 9`, `9 E B D`, `D 9 E B`, `B D 9 E`. -/
noncomputable def inverseMixMatrix : Matrix (Fin 4) (Fin 4) GF :=
  Matrix.circulant fun i => gf (inverseCoefficients i)

theorem gf_one : gf 0x01 = 1 := by
  rw [gf, residue_eq_sum]
  simp

theorem gf_two : gf 0x02 = AdjoinRoot.root (bitModulus 0x1B#8) := by
  have h := gf_xtime 0x01
  rwa [gf_one, mul_one] at h

theorem gf_three : gf 0x03 = AdjoinRoot.root (bitModulus 0x1B#8) + 1 := by
  rw [← gf_two, ← gf_one]
  exact gf_xor 0x02 0x01

/-- A product of two entries is computed on bytes. -/
theorem mixMatrix_mul_inverseMixMatrix : mixMatrix * inverseMixMatrix = 1 := by
  have hsmall (i : Fin 4) : (inverseCoefficients i).toNat < 32 := by
    revert i
    decide
  rw [mixMatrix, inverseMixMatrix, Matrix.circulant_mul, ← Matrix.circulant_single_one]
  congr 1
  funext i
  simp only [Matrix.mulVec, dotProduct, Matrix.circulant_apply, Fin.sum_univ_four,
    ← gf_multiply _ _ (hsmall _), ← gf_xor]
  have hone : (Pi.single 0 1 : Fin 4 → GF) i = gf (if i = 0 then 1#8 else 0#8) := by
    by_cases hi : i = 0
    · subst hi
      exact gf_one.symm
    · rw [Pi.single_eq_of_ne hi, if_neg hi, gf_zero]
  rw [hone]
  congr 1
  clear hone
  revert i
  decide

theorem mixColumns_apply (out state : State) (i j : Fin 4) :
    mixColumns out state (at4 i j) =
      state (at4 i j) ^^^ xtime (state (at4 i j) ^^^ state (at4 i (j + 1))) ^^^
        (state (at4 i 0) ^^^ state (at4 i 1) ^^^ state (at4 i 2) ^^^ state (at4 i 3)) := by
  fin_cases i <;> fin_cases j <;> rfl

theorem inverseMixColumns_apply (out state : State) (i j : Fin 4) :
    inverseMixColumns out state (at4 i j) =
      multiply (state (at4 i 0)) (inverseCoefficients (j - 0)) ^^^
        multiply (state (at4 i 1)) (inverseCoefficients (j - 1)) ^^^
        multiply (state (at4 i 2)) (inverseCoefficients (j - 2)) ^^^
        multiply (state (at4 i 3)) (inverseCoefficients (j - 3)) := by
  fin_cases i <;> fin_cases j <;> rfl

theorem column_mixColumns (out state : State) (i : Fin 4) :
    column (mixColumns out state) i = mixMatrix.mulVec (column state i) := by
  funext j
  simp only [column, mixColumns_apply, gf_xor, gf_xtime, Matrix.mulVec, dotProduct, mixMatrix,
    Matrix.circulant_apply, Fin.sum_univ_four]
  -- The element of the row itself occurs twice more than in the matrix.
  have h2 := residue_add_self 0x1B#8 (gf (state (at4 i j)))
  fin_cases j <;>
    simp only [Fin.zero_eta, Fin.mk_one, Fin.reduceFinMk, Fin.isValue, zero_add, Fin.reduceAdd,
      Fin.reduceSub, sub_zero, sub_self, zero_sub, Matrix.cons_val_zero, Matrix.cons_val_one,
      Matrix.cons_val, gf_one, gf_two, gf_three] at h2 ⊢ <;>
    linear_combination h2

theorem column_inverseMixColumns (out state : State) (i : Fin 4) :
    column (inverseMixColumns out state) i = inverseMixMatrix.mulVec (column state i) := by
  have hsmall (i : Fin 4) : (inverseCoefficients i).toNat < 32 := by
    revert i
    decide
  funext j
  simp only [column, inverseMixColumns_apply, gf_xor, gf_multiply _ _ (hsmall _), Matrix.mulVec,
    dotProduct, inverseMixMatrix, Matrix.circulant_apply, Fin.sum_univ_four]
  ring

theorem inverseMixMatrix_mul_mixMatrix : inverseMixMatrix * mixMatrix = 1 := by
  rw [← mixMatrix_mul_inverseMixMatrix]
  exact Matrix.circulant_mul_comm _ _

/-- The two single rounds and the two mixing functions are inverse to each other in both orders, and
mixing multiplies each column by the matrix of the standard. -/
theorem rounds_and_columns :
    (∀ out out' state : State, decryptSingleRound out' (encryptSingleRound out state) = state) ∧
    (∀ out out' state : State, encryptSingleRound out' (decryptSingleRound out state) = state) ∧
    (∀ out out' state : State, inverseMixColumns out' (mixColumns out state) = state) ∧
    (∀ out out' state : State, mixColumns out' (inverseMixColumns out state) = state) ∧
    ∀ (out state : State) (i : Fin 4),
      column (mixColumns out state) i = mixMatrix.mulVec (column state i) := by
  refine ⟨decryptSingleRound_encryptSingleRound, encryptSingleRound_decryptSingleRound,
    fun out out' state => ?_, fun out out' state => ?_, column_mixColumns⟩
  · refine eq_of_column_eq fun i => ?_
    rw [column_inverseMixColumns, column_mixColumns, Matrix.mulVec_mulVec,
      inverseMixMatrix_mul_mixMatrix, Matrix.one_mulVec]
  · refine eq_of_column_eq fun i => ?_
    rw [column_mixColumns, column_inverseMixColumns, Matrix.mulVec_mulVec,
      mixMatrix_mul_inverseMixMatrix, Matrix.one_mulVec]

end Umbra.Common.Crypto.AES
