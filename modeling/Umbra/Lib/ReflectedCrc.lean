import Mathlib.Data.BitVec

/-!
Cyclic redundancy checks, bit by bit.

The register holds its coefficients the wrong way round: the lowest bit is the one that leaves.  A
bit of data is added to it, the register moves down, and the polynomial is added if what left was
one.  This is linear in the register and the data together, and a register that is fed its own bits
only moves down; from these two facts follows every way of doing many bits at once with a table.
-/

namespace Umbra.Lib.ReflectedCrc

variable {v w : ℕ} (poly : BitVec w)

def bit (crc : BitVec w) (d : Bool) : BitVec w :=
  if crc.getLsbD 0 ^^ d then (crc >>> 1) ^^^ poly else crc >>> 1

def bits (crc : BitVec w) (data : List Bool) : BitVec w := data.foldl (bit poly) crc

def lowBits (x : BitVec v) (n : ℕ) : List Bool := (List.range n).map x.getLsbD

theorem bits_append (crc : BitVec w) (l l' : List Bool) :
    bits poly crc (l ++ l') = bits poly (bits poly crc l) l' := List.foldl_append

theorem bit_xor (x y : BitVec w) (d e : Bool) :
    bit poly (x ^^^ y) (d ^^ e) = bit poly x d ^^^ bit poly y e := by
  have hcond : ((x ^^^ y).getLsbD 0 ^^ (d ^^ e)) =
      ((x.getLsbD 0 ^^ d) ^^ (y.getLsbD 0 ^^ e)) := by
    simp only [BitVec.getLsbD_xor, Bool.xor_assoc, Bool.xor_left_comm]
  have hcancel (a b : BitVec w) : a ^^^ b = (a ^^^ poly) ^^^ (b ^^^ poly) := by
    rw [BitVec.xor_assoc, BitVec.xor_comm b, ← BitVec.xor_assoc poly, BitVec.xor_self,
      BitVec.zero_xor]
  simp only [bit, hcond, BitVec.ushiftRight_xor_distrib]
  cases x.getLsbD 0 ^^ d <;> cases y.getLsbD 0 ^^ e
  · rfl
  · exact BitVec.xor_assoc _ _ _
  · simp only [Bool.xor_false, if_true, Bool.false_eq_true, if_false]
    ac_rfl
  · exact hcancel _ _

theorem bits_xor (x y : BitVec w) (l l' : List Bool) (h : l.length = l'.length) :
    bits poly (x ^^^ y) (List.zipWith Bool.xor l l') = bits poly x l ^^^ bits poly y l' := by
  induction l generalizing x y l' with
  | nil =>
      obtain rfl := List.length_eq_zero_iff.mp h.symm
      rfl
  | cons d l ih =>
      cases l' with
      | nil => simp at h
      | cons e l' =>
          have hstep := bit_xor poly x y d e
          change bits poly (bit poly (x ^^^ y) (d ^^ e)) (List.zipWith Bool.xor l l') = _
          rw [hstep]
          exact ih _ _ _ (by simpa using h)

theorem length_lowBits (x : BitVec v) (n : ℕ) : (lowBits x n).length = n := by
  simp [lowBits]

theorem lowBits_add (x : BitVec v) (n m : ℕ) :
    lowBits x (n + m) = lowBits x n ++ lowBits (x >>> n) m := by
  simp [lowBits, List.range_add, Function.comp_def]

theorem zipWith_lowBits {u : ℕ} {x : BitVec u} {y : BitVec v} {z : BitVec w} {n : ℕ}
    (h : ∀ i, i < n → z.getLsbD i = (x.getLsbD i ^^ y.getLsbD i)) :
    List.zipWith Bool.xor (lowBits x n) (lowBits y n) = lowBits z n := by
  refine List.ext_getElem (by simp [lowBits]) fun i hi hi' => ?_
  simp only [lowBits, List.getElem_zipWith, List.getElem_map, List.getElem_range]
  exact (h i (by simpa [lowBits] using hi')).symm

/-- Fed its own bits, the register moves down. -/
theorem bits_lowBits_self (x : BitVec w) (n : ℕ) : bits poly x (lowBits x n) = x >>> n := by
  induction n with
  | zero => simp [lowBits, bits]
  | succ n ih =>
      rw [lowBits_add, bits_append, ih]
      have hbit : ((x >>> n).getLsbD 0 ^^ (x >>> n).getLsbD 0) = false := Bool.xor_self _
      change bit poly (x >>> n) ((x >>> n).getLsbD 0) = _
      rw [bit, hbit, BitVec.shiftRight_add]
      rfl

/-- Many bits at once: what the register would do on its own, and an entry of a table whose index
is the difference between the data and the lowest bits of the register. -/
theorem bits_eq_table (crc : BitVec w) {n : ℕ} {data index : BitVec v}
    (h : ∀ i, i < n → index.getLsbD i = (crc.getLsbD i ^^ data.getLsbD i)) :
    bits poly crc (lowBits data n) = (crc >>> n) ^^^ bits poly 0#w (lowBits index n) := by
  have hdata : List.zipWith Bool.xor (lowBits crc n) (lowBits index n) = lowBits data n := by
    refine zipWith_lowBits fun i hi => ?_
    rw [h i hi, ← Bool.xor_assoc, Bool.xor_self, Bool.false_xor]
  have hsum := bits_xor poly crc 0#w (lowBits crc n) (lowBits index n)
    (by rw [length_lowBits, length_lowBits])
  rwa [hdata, BitVec.xor_zero, bits_lowBits_self] at hsum

end Umbra.Lib.ReflectedCrc
