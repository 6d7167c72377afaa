import Mathlib.Algebra.Field.ZMod
import Mathlib.Data.BitVec
import Mathlib.RingTheory.AdjoinRoot

/-!
Words as polynomials over the field with two elements.

The bits of a word are the coefficients, so `xor` is addition.  Modulo a polynomial of the degree of
the width a word stands for a residue, each residue for one word, and multiplication by the variable
is a shift that adds the rest of the modulus when a bit falls out.
-/

namespace Umbra.Lib

open Polynomial

variable {w : ℕ}

noncomputable def bitPoly (x : BitVec w) : (ZMod 2)[X] :=
  ∑ i ∈ Finset.range w, if x.getLsbD i then X ^ i else 0

theorem coeff_bitPoly (x : BitVec w) (i : ℕ) :
    (bitPoly x).coeff i = if x.getLsbD i then 1 else 0 := by
  have hterm (j : ℕ) : (if x.getLsbD j then X ^ j else 0 : (ZMod 2)[X]).coeff i =
      if j = i then (if x.getLsbD i then 1 else 0) else 0 := by
    by_cases hj : j = i
    · subst hj
      cases x.getLsbD j <;> simp
    · cases x.getLsbD j <;> simp [coeff_X_pow, hj, Ne.symm hj]
  rw [bitPoly, finsetSum_coeff, Finset.sum_congr rfl fun j _ => hterm j, Finset.sum_ite_eq']
  by_cases hi : i < w
  · rw [if_pos (Finset.mem_range.mpr hi)]
  · rw [if_neg (by simpa using hi), BitVec.getLsbD_of_ge _ _ (by omega)]
    rfl

theorem bitPoly_injective : Function.Injective (bitPoly (w := w)) := by
  intro x y h
  refine BitVec.eq_of_getLsbD_eq fun i _ => ?_
  have hi := congrArg (coeff · i) h
  simp only [coeff_bitPoly] at hi
  revert hi
  cases x.getLsbD i <;> cases y.getLsbD i <;> simp

theorem bitPoly_xor (x y : BitVec w) : bitPoly (x ^^^ y) = bitPoly x + bitPoly y := by
  ext i
  rw [coeff_add, coeff_bitPoly, coeff_bitPoly, coeff_bitPoly, BitVec.getLsbD_xor]
  cases x.getLsbD i <;> cases y.getLsbD i <;> decide

@[simp] theorem bitPoly_zero : bitPoly (0#w) = 0 := by
  simp [bitPoly]

theorem degree_bitPoly_lt (x : BitVec w) : (bitPoly x).degree < w := by
  rw [degree_lt_iff_coeff_zero]
  intro i hi
  rw [coeff_bitPoly, BitVec.getLsbD_of_ge _ _ hi]
  rfl

theorem X_mul_bitPoly (x : BitVec w) :
    X * bitPoly x = bitPoly (x <<< 1) + if x.msb then X ^ w else 0 := by
  ext i
  rw [coeff_add, coeff_bitPoly, BitVec.getLsbD_shiftLeft]
  have hmsb : (if x.msb then X ^ w else 0 : (ZMod 2)[X]).coeff i =
      if i = w ∧ x.msb then 1 else 0 := by
    cases x.msb <;> simp [coeff_X_pow]
  rw [hmsb]
  cases i with
  | zero =>
      have hw : ¬(0 = w ∧ x.msb = true) := by
        rintro ⟨rfl, hx⟩
        rw [BitVec.msb_eq_getLsbD_last, BitVec.getLsbD_of_ge _ _ (by omega)] at hx
        cases hx
      simp [hw]
  | succ i =>
      rw [coeff_X_mul, coeff_bitPoly]
      by_cases hi : i + 1 < w
      · simp [hi, hi.ne]
      · by_cases hiw : i + 1 = w
        · subst hiw
          rw [BitVec.msb_eq_getLsbD_last, Nat.add_sub_cancel]
          simp
        · rw [BitVec.getLsbD_of_ge _ _ (by omega)]
          simp [hi, hiw]

/-! ### Residues -/

variable (tail : BitVec w)

/-- The monic polynomial of degree `w` with the lower coefficients `tail`. -/
noncomputable def bitModulus : (ZMod 2)[X] := X ^ w + bitPoly tail

theorem degree_bitModulus : (bitModulus tail).degree = w := by
  rw [bitModulus, degree_add_eq_left_of_degree_lt, degree_X_pow]
  rw [degree_X_pow]
  exact degree_bitPoly_lt tail

noncomputable def residue (x : BitVec w) : AdjoinRoot (bitModulus tail) :=
  AdjoinRoot.mk (bitModulus tail) (bitPoly x)

theorem residue_injective : Function.Injective (residue tail) := by
  intro x y h
  have hdvd := AdjoinRoot.mk_eq_mk.mp h
  have hdegree : (bitPoly x - bitPoly y).degree < (bitModulus tail).degree := by
    rw [degree_bitModulus]
    exact (degree_sub_le _ _).trans_lt (max_lt (degree_bitPoly_lt x) (degree_bitPoly_lt y))
  have hzero := eq_zero_of_dvd_of_degree_lt hdvd hdegree
  exact bitPoly_injective (sub_eq_zero.mp hzero)

theorem residue_xor (x y : BitVec w) : residue tail (x ^^^ y) = residue tail x + residue tail y := by
  rw [residue, bitPoly_xor, map_add]
  rfl

theorem residue_add_self (r : AdjoinRoot (bitModulus tail)) : r + r = 0 := by
  have h2 : (2 : AdjoinRoot (bitModulus tail)) = 0 := by
    rw [← map_ofNat (AdjoinRoot.of (bitModulus tail)) 2, show (2 : ZMod 2) = 0 from rfl, map_zero]
  rw [← two_mul, h2, zero_mul]

theorem root_pow : AdjoinRoot.root (bitModulus tail) ^ w = residue tail tail := by
  have h : AdjoinRoot.mk (bitModulus tail) (X ^ w + bitPoly tail) = 0 := AdjoinRoot.mk_self
  rw [map_add, map_pow, AdjoinRoot.mk_X] at h
  rw [← add_zero (AdjoinRoot.root _ ^ w), ← residue_add_self tail (residue tail tail), ← add_assoc]
  exact (congrArg (· + residue tail tail) h).trans (zero_add _)

theorem root_mul_residue (x : BitVec w) :
    AdjoinRoot.root (bitModulus tail) * residue tail x =
      residue tail ((x <<< 1) ^^^ if x.msb then tail else 0#w) := by
  rw [residue_xor, residue, ← AdjoinRoot.mk_X, ← map_mul, X_mul_bitPoly, map_add]
  congr 1
  cases x.msb
  · simp [residue]
  · simp only [if_true, map_pow, AdjoinRoot.mk_X]
    exact root_pow tail

theorem residue_eq_sum (x : BitVec w) : residue tail x =
    ∑ i ∈ Finset.range w, if x.getLsbD i then AdjoinRoot.root (bitModulus tail) ^ i else 0 := by
  rw [residue, bitPoly, map_sum]
  refine Finset.sum_congr rfl fun i _ => ?_
  cases x.getLsbD i <;> simp

end Umbra.Lib
