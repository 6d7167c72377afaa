import Mathlib.Tactic.NormNum

/-!
Integer operations of the host that C++ does not define for all operands.

An operation gives `none` where the behaviour is undefined.  Conversions between integer types are
defined for all operands and are left to `setWidth` and `signExtend`.
-/

namespace Umbra.Host

variable {w : ℕ}

def shiftLeft (x : BitVec w) (amount : ℕ) : Option (BitVec w) :=
  if amount < w then some (x <<< amount) else none

def shiftRight (x : BitVec w) (amount : ℕ) : Option (BitVec w) :=
  if amount < w then some (x >>> amount) else none

def signedShiftRight (x : BitVec w) (amount : ℕ) : Option (BitVec w) :=
  if amount < w then some (x.sshiftRight amount) else none

def divide (x y : BitVec w) : Option (BitVec w) := if y = 0 then none else some (x / y)

/-- `x / y` on a signed type.  The quotient of the most negative value and `-1` does not fit. -/
def signedDivide (x y : BitVec w) : Option (BitVec w) :=
  if y = 0 ∨ x = BitVec.intMin w ∧ y = -1 then none else some (x.sdiv y)

def negate (n : ℤ) : Option ℤ := if n = -2 ^ 31 then none else some (-n)

/-! ### Shifts by any amount -/

/-- `Safe::LogicalShiftLeft`, with the call of `LogicalShiftRight` for a negative amount written
out. -/
def safeLogicalShiftLeft (x : BitVec w) (amount : ℤ) : Option (BitVec w) :=
  if amount ≥ w then some 0
  else if amount < 0 then do
    let amount ← negate amount
    if amount ≥ w then some 0 else shiftRight x amount.toNat
  else shiftLeft x amount.toNat

def safeLogicalShiftRight (x : BitVec w) (amount : ℤ) : Option (BitVec w) :=
  if amount ≥ w then some 0
  else if amount < 0 then do
    let amount ← negate amount
    if amount ≥ w then some 0 else shiftLeft x amount.toNat
  else shiftRight x amount.toNat

def safeArithmeticShiftRight (x : BitVec w) (amount : ℤ) : Option (BitVec w) :=
  if amount ≥ w then some (if x.msb then BitVec.allOnes w else 0)
  else if amount < 0 then do
    let amount ← negate amount
    if amount ≥ w then some 0 else shiftLeft x amount.toNat
  else signedShiftRight x amount.toNat

def rotateRight (x : BitVec w) (amount : ℕ) : Option (BitVec w) :=
  let amount := amount % w
  if amount = 0 then some x
  else do
    let low ← shiftRight x amount
    let high ← shiftLeft x (w - amount)
    some (low ||| high)

/-! ### Byte order -/

def swapBytes16 (x : BitVec 16) : Option (BitVec 16) := do
  let low ← shiftRight (x.setWidth 32) 8
  let high ← shiftLeft (x.setWidth 32) 8
  some ((low ||| high).setWidth 16)

def swapBytes32 (x : BitVec 32) : Option (BitVec 32) := do
  let b0 ← shiftRight (x &&& 0xff000000#32) 24
  let b1 ← shiftRight (x &&& 0x00ff0000#32) 8
  let b2 ← shiftLeft (x &&& 0x0000ff00#32) 8
  let b3 ← shiftLeft (x &&& 0x000000ff#32) 24
  some (b0 ||| b1 ||| b2 ||| b3)

def swapBytes64 (x : BitVec 64) : Option (BitVec 64) := do
  let b0 ← shiftRight (x &&& 0xff00000000000000#64) 56
  let b1 ← shiftRight (x &&& 0x00ff000000000000#64) 40
  let b2 ← shiftRight (x &&& 0x0000ff0000000000#64) 24
  let b3 ← shiftRight (x &&& 0x000000ff00000000#64) 8
  let b4 ← shiftLeft (x &&& 0x00000000ff000000#64) 8
  let b5 ← shiftLeft (x &&& 0x0000000000ff0000#64) 24
  let b6 ← shiftLeft (x &&& 0x000000000000ff00#64) 40
  let b7 ← shiftLeft (x &&& 0x00000000000000ff#64) 56
  some (b0 ||| b1 ||| b2 ||| b3 ||| b4 ||| b5 ||| b6 ||| b7)

/-! ### Where they are defined -/

theorem isSome_shiftLeft {x : BitVec w} {amount : ℕ} (h : amount < w) :
    (shiftLeft x amount).isSome = true := by
  simp [shiftLeft, h]

theorem isSome_shiftRight {x : BitVec w} {amount : ℕ} (h : amount < w) :
    (shiftRight x amount).isSome = true := by
  simp [shiftRight, h]

theorem isSome_signedShiftRight {x : BitVec w} {amount : ℕ} (h : amount < w) :
    (signedShiftRight x amount).isSome = true := by
  simp [signedShiftRight, h]

section Safe

variable (x : BitVec w) (amount : ℕ)

theorem isSome_safeLogicalShiftLeft : (safeLogicalShiftLeft x amount).isSome = true := by
  have hnonneg : ¬(amount : ℤ) < 0 := by omega
  rw [safeLogicalShiftLeft, if_neg hnonneg]
  split_ifs with hwide
  · rfl
  · exact isSome_shiftLeft (by omega)

theorem isSome_safeLogicalShiftRight : (safeLogicalShiftRight x amount).isSome = true := by
  have hnonneg : ¬(amount : ℤ) < 0 := by omega
  rw [safeLogicalShiftRight, if_neg hnonneg]
  split_ifs with hwide
  · rfl
  · exact isSome_shiftRight (by omega)

theorem isSome_safeArithmeticShiftRight :
    (safeArithmeticShiftRight x amount).isSome = true := by
  have hnonneg : ¬(amount : ℤ) < 0 := by omega
  rw [safeArithmeticShiftRight, if_neg hnonneg]
  by_cases hwide : (amount : ℤ) ≥ w
  · rw [if_pos hwide]
    rfl
  · rw [if_neg hwide]
    exact isSome_signedShiftRight (by omega)

end Safe

theorem isSome_rotateRight (x : BitVec w) (amount : ℕ) (hw : 0 < w) :
    (rotateRight x amount).isSome = true := by
  have hlt := Nat.mod_lt amount hw
  simp only [rotateRight]
  split_ifs with hzero
  · rfl
  · have hback : w - amount % w < w := by omega
    simp [shiftRight, shiftLeft, hlt, hback]

theorem isSome_swapBytes16 (x : BitVec 16) : (swapBytes16 x).isSome = true := by
  simp [swapBytes16, shiftLeft, shiftRight]

theorem isSome_swapBytes32 (x : BitVec 32) : (swapBytes32 x).isSome = true := by
  simp [swapBytes32, shiftLeft, shiftRight]

theorem isSome_swapBytes64 (x : BitVec 64) : (swapBytes64 x).isSome = true := by
  simp [swapBytes64, shiftLeft, shiftRight]

/-! ### Quotients computed at 64 bits -/

theorem setWidth_ofInt {n m : ℕ} (h : n ≤ m) (z : ℤ) :
    (BitVec.ofInt m z).setWidth n = BitVec.ofInt n z := by
  apply BitVec.eq_of_toNat_eq
  have hmod : z % 2 ^ m % 2 ^ n = z % 2 ^ n := Int.emod_emod_of_dvd z (pow_dvd_pow 2 h)
  have hpos : (0 : ℤ) ≤ z % 2 ^ m := Int.emod_nonneg _ (by positivity)
  rw [BitVec.toNat_setWidth, BitVec.toNat_ofInt, BitVec.toNat_ofInt]
  push_cast
  rw [← hmod, Int.toNat_emod hpos (by positivity)]
  norm_cast

theorem setWidth_sdiv_signExtend {n : ℕ} (h : n ≤ 64) (x y : BitVec n) :
    ((x.signExtend 64).sdiv (y.signExtend 64)).setWidth n =
      BitVec.ofInt n (x.toInt.tdiv y.toInt) := by
  rw [← setWidth_ofInt h]
  congr 1
  apply BitVec.eq_of_toInt_eq
  rw [BitVec.toInt_sdiv, BitVec.toInt_ofInt, BitVec.toInt_signExtend_of_le h,
    BitVec.toInt_signExtend_of_le h]

theorem setWidth_div_setWidth {n : ℕ} (h : n ≤ 64) (x y : BitVec n) :
    (x.setWidth 64 / y.setWidth 64).setWidth n = BitVec.ofNat n (x.toNat / y.toNat) := by
  have hpow : 2 ^ n ≤ 2 ^ 64 := Nat.pow_le_pow_right (by decide) h
  have hx : x.toNat < 2 ^ 64 := x.isLt.trans_le hpow
  have hy : y.toNat < 2 ^ 64 := y.isLt.trans_le hpow
  apply BitVec.eq_of_toNat_eq
  simp only [BitVec.toNat_setWidth, BitVec.toNat_udiv, BitVec.toNat_ofNat,
    Nat.mod_eq_of_lt hx, Nat.mod_eq_of_lt hy]

end Umbra.Host
