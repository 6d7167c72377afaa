import Umbra.Lib.RoundToOdd

/-!
The 128-bit integers of the floating-point code, as two words.

Every operation is written on the words, as the source has it, and comes with a
lemma that says what it does to the number the words stand for.
-/

namespace Umbra.Common

open Umbra.Lib

structure U128 where
  lower : BitVec 64
  upper : BitVec 64
deriving DecidableEq

namespace U128

def toNat (a : U128) : ℕ := a.upper.toNat * 2 ^ 64 + a.lower.toNat

def ofU64 (value : BitVec 64) : U128 := ⟨value, 0#64⟩

def bit (a : U128) (position : ℕ) : Bool :=
  if position < 64 then a.lower.getLsbD position else a.upper.getLsbD (position - 64)

def add (a b : U128) : U128 :=
  let lower := a.lower + b.lower
  ⟨lower, a.upper + b.upper + if a.lower > lower then 1#64 else 0#64⟩

def sub (a b : U128) : U128 :=
  let lower := a.lower - b.lower
  ⟨lower, a.upper - b.upper - if a.lower < lower then 1#64 else 0#64⟩

/-- `operator<`, as `std::tie` compares. -/
def lt (a b : U128) : Bool :=
  decide (a.upper < b.upper) || (a.upper == b.upper && decide (a.lower < b.lower))

def multiply64To128 (a b : BitVec 64) : U128 :=
  let a0 := (a.setWidth 32).setWidth 64
  let b0 := (b.setWidth 32).setWidth 64
  let a1 := ((a >>> 32).setWidth 32).setWidth 64
  let b1 := ((b >>> 32).setWidth 32).setWidth 64
  let c0 := a0 * b0
  let c1_0 := a1 * b0
  let c1_1 := a0 * b1
  let c2 := a1 * b1
  let c1 := c1_0 + c1_1
  let c1_overflow := if c1 < c1_0 then 1#64 else 0#64
  let lower := c0 + c1 <<< 32
  let lower_overflow := if lower < c0 then 1#64 else 0#64
  let upper := lower_overflow + c1 >>> 32 + c1_overflow <<< 32 + c2
  ⟨lower, upper⟩

/-- `operator<<` for an amount that is not negative. -/
def shl (operand : U128) (amount : ℕ) : U128 :=
  if amount = 0 then operand
  else if amount < 64 then
    ⟨operand.lower <<< amount, operand.upper <<< amount ||| operand.lower >>> (64 - amount)⟩
  else if amount < 128 then ⟨0#64, operand.lower <<< (amount - 64)⟩
  else ⟨0#64, 0#64⟩

def shr (operand : U128) (amount : ℕ) : U128 :=
  if amount = 0 then operand
  else if amount < 64 then
    ⟨operand.lower >>> amount ||| operand.upper <<< (64 - amount), operand.upper >>> amount⟩
  else if amount < 128 then ⟨operand.upper >>> (amount - 64), 0#64⟩
  else ⟨0#64, 0#64⟩

def shiftLeft (operand : U128) (amount : ℤ) : U128 :=
  if amount < 0 then operand.shr (-amount).toNat else operand.shl amount.toNat

def shiftRight (operand : U128) (amount : ℤ) : U128 :=
  if amount < 0 then operand.shl (-amount).toNat else operand.shr amount.toNat

def orSticky (a : U128) (sticky : Prop) [Decidable sticky] : U128 :=
  if sticky then { a with lower := a.lower ||| 1#64 } else a

def stickyLogicalShiftRight (operand : U128) (amount : ℤ) : U128 :=
  if amount < 0 then operand.shiftLeft (-amount)
  else
    let n := amount.toNat
    if n = 0 then operand
    else if n < 64 then
      orSticky ⟨operand.lower >>> n ||| operand.upper <<< (64 - n), operand.upper >>> n⟩
        (operand.lower <<< (64 - n) ≠ 0#64)
    else if n = 64 then orSticky ⟨operand.upper, 0#64⟩ (operand.lower ≠ 0#64)
    else if n < 128 then
      orSticky (orSticky ⟨operand.upper >>> (n - 64), 0#64⟩ (operand.lower ≠ 0#64))
        (operand.upper <<< (128 - n) ≠ 0#64)
    else if operand.lower ≠ 0#64 ∨ operand.upper ≠ 0#64 then ofU64 1#64
    else ⟨0#64, 0#64⟩

/-! ### What the operations compute -/

@[simp]
theorem toNat_ofU64 (value : BitVec 64) : (ofU64 value).toNat = value.toNat := by
  simp [toNat, ofU64]

theorem toNat_eq_zero_iff {a : U128} : a.toNat = 0 ↔ a = ofU64 0#64 := by
  constructor
  · intro h
    obtain ⟨lower, upper⟩ := a
    simp only [toNat] at h
    have hlower : lower.toNat = 0 := by omega
    have hupper : upper.toNat = 0 := by omega
    rw [ofU64, BitVec.eq_of_toNat_eq (y := 0#64) hlower, BitVec.eq_of_toNat_eq (y := 0#64) hupper]
  · rintro rfl
    rfl

theorem upper_eq_zero_iff {a : U128} : a.upper = 0#64 ↔ a.toNat < 2 ^ 64 := by
  have := a.lower.isLt
  rw [← BitVec.toNat_inj, BitVec.toNat_ofNat, toNat]
  omega

theorem lt_iff {a b : U128} : a.lt b = true ↔ a.toNat < b.toNat := by
  have := a.lower.isLt
  have := b.lower.isLt
  simp only [lt, Bool.or_eq_true, decide_eq_true_eq, Bool.and_eq_true, beq_iff_eq,
    ← BitVec.toNat_inj, BitVec.lt_def, toNat]
  omega

variable (a : U128)

/-- The carry of the lower words shows in their sum. -/
theorem toNat_add_mod (b : U128) : (a.add b).toNat = (a.toNat + b.toNat) % 2 ^ 128 := by
  have := a.lower.isLt
  have := b.lower.isLt
  have := a.upper.isLt
  have := b.upper.isLt
  simp only [add, toNat, gt_iff_lt, BitVec.lt_def, BitVec.toNat_add]
  split <;> simp only [BitVec.toNat_ofNat] <;> omega

theorem toNat_add {a b : U128} (h : a.toNat + b.toNat < 2 ^ 128) :
    (a.add b).toNat = a.toNat + b.toNat := by
  rw [toNat_add_mod, Nat.mod_eq_of_lt h]

/-- The borrow of the lower words shows in their difference. -/
theorem toNat_sub_mod (b : U128) :
    (a.sub b).toNat = (a.toNat + 2 ^ 128 - b.toNat) % 2 ^ 128 := by
  have := a.lower.isLt
  have := b.lower.isLt
  have := a.upper.isLt
  have := b.upper.isLt
  simp only [sub, toNat, BitVec.lt_def, BitVec.toNat_sub]
  split <;> simp only [BitVec.toNat_ofNat] <;> omega

theorem toNat_lt : a.toNat < 2 ^ 128 := by
  have := a.lower.isLt
  have := a.upper.isLt
  unfold toNat
  omega

theorem toNat_sub {a b : U128} (h : b.toNat ≤ a.toNat) :
    (a.sub b).toNat = a.toNat - b.toNat := by
  have := a.toNat_lt
  rw [toNat_sub_mod]
  omega

theorem product_of_halves {c0 c10 c01 c2 c1 lower o1 o0 : ℕ} (h0 : c0 ≤ 18446744065119617025)
    (h10 : c10 ≤ 18446744065119617025) (h01 : c01 ≤ 18446744065119617025)
    (hc1 : c1 = (c10 + c01) % 2 ^ 64) (ho1 : o1 = if c1 < c10 then 1 else 0)
    (hlower : lower = (c0 + c1 * 2 ^ 32 % 2 ^ 64) % 2 ^ 64)
    (ho0 : o0 = if lower < c0 then 1 else 0) :
    (o0 + c1 / 2 ^ 32 + o1 * 2 ^ 32 + c2) * 2 ^ 64 + lower =
      c2 * 2 ^ 64 + (c10 + c01) * 2 ^ 32 + c0 := by
  split at ho1 <;> split at ho0 <;> omega

theorem half_mul_half_le {x y : ℕ} (hx : x < 2 ^ 32) (hy : y < 2 ^ 32) :
    x * y ≤ 18446744065119617025 :=
  Nat.mul_le_mul (Nat.le_sub_one_of_lt hx) (Nat.le_sub_one_of_lt hy)

theorem halves_mul (a0 a1 b0 b1 : ℕ) :
    (a1 * 2 ^ 32 + a0) * (b1 * 2 ^ 32 + b0) =
      a1 * b1 * 2 ^ 64 + (a1 * b0 + a0 * b1) * 2 ^ 32 + a0 * b0 := by
  ring

theorem toNat_lowHalf (a : BitVec 64) : ((a.setWidth 32).setWidth 64).toNat = a.toNat % 2 ^ 32 := by
  simp only [BitVec.toNat_setWidth]
  omega

theorem toNat_highHalf (a : BitVec 64) :
    (((a >>> 32).setWidth 32).setWidth 64).toNat = a.toNat / 2 ^ 32 := by
  have := a.isLt
  simp only [BitVec.toNat_setWidth, BitVec.toNat_ushiftRight, Nat.shiftRight_eq_div_pow]
  omega

theorem toNat_mul_of_halves {x y : BitVec 64} (hx : x.toNat < 2 ^ 32) (hy : y.toNat < 2 ^ 32) :
    (x * y).toNat = x.toNat * y.toNat := by
  have := half_mul_half_le hx hy
  rw [BitVec.toNat_mul]
  omega

theorem toNat_carry (p : Prop) [Decidable p] :
    (if p then 1#64 else 0#64).toNat = if p then 1 else 0 := by
  split <;> rfl

theorem toNat_ofProducts {c0 c10 c01 c2 : BitVec 64} (h0 : c0.toNat ≤ 18446744065119617025)
    (h10 : c10.toNat ≤ 18446744065119617025) (h01 : c01.toNat ≤ 18446744065119617025)
    (hfits : c2.toNat * 2 ^ 64 + (c10.toNat + c01.toNat) * 2 ^ 32 + c0.toNat < 2 ^ 128) :
    toNat ⟨c0 + (c10 + c01) <<< 32,
        (if c0 + (c10 + c01) <<< 32 < c0 then 1#64 else 0#64) + (c10 + c01) >>> 32 +
          (if c10 + c01 < c10 then 1#64 else 0#64) <<< 32 + c2⟩ =
      c2.toNat * 2 ^ 64 + (c10.toNat + c01.toNat) * 2 ^ 32 + c0.toNat := by
  have hc1 : (c10 + c01).toNat = (c10.toNat + c01.toNat) % 2 ^ 64 := BitVec.toNat_add _ _
  generalize c10 + c01 = c1 at *
  have hlower : (c0 + c1 <<< 32).toNat = (c0.toNat + c1.toNat * 2 ^ 32 % 2 ^ 64) % 2 ^ 64 := by
    rw [BitVec.toNat_add, BitVec.toNat_shiftLeft, Nat.shiftLeft_eq]
  generalize c0 + c1 <<< 32 = lower at *
  have hwords : _ = c2.toNat * 2 ^ 64 + _ + c0.toNat :=
    product_of_halves h0 h10 h01 hc1 rfl hlower rfl
  have hupper : ((if lower < c0 then 1#64 else 0#64) + c1 >>> 32 +
      (if c1 < c10 then 1#64 else 0#64) <<< 32 + c2).toNat =
      ((if lower.toNat < c0.toNat then 1 else 0) + c1.toNat / 2 ^ 32 +
        (if c1.toNat < c10.toNat then 1 else 0) * 2 ^ 32 + c2.toNat) % 2 ^ 64 := by
    simp only [BitVec.toNat_add, BitVec.toNat_shiftLeft, BitVec.toNat_ushiftRight, toNat_carry,
      Nat.shiftLeft_eq, Nat.shiftRight_eq_div_pow, BitVec.lt_def]
    omega
  rw [toNat, hupper, Nat.mod_eq_of_lt, hwords]
  omega

/-- The four products of the halves make up the product. -/
theorem toNat_multiply64To128 (a b : BitVec 64) :
    (multiply64To128 a b).toNat = a.toNat * b.toNat := by
  have ha := a.isLt
  have hb := b.isLt
  have hasplit : a.toNat = a.toNat / 2 ^ 32 * 2 ^ 32 + a.toNat % 2 ^ 32 := by omega
  have hbsplit : b.toNat = b.toNat / 2 ^ 32 * 2 ^ 32 + b.toNat % 2 ^ 32 := by omega
  have hproduct := halves_mul (a.toNat % 2 ^ 32) (a.toNat / 2 ^ 32) (b.toNat % 2 ^ 32)
    (b.toNat / 2 ^ 32)
  rw [← hasplit, ← hbsplit] at hproduct
  unfold multiply64To128
  have ha0 := toNat_lowHalf a
  have hb0 := toNat_lowHalf b
  have ha1 := toNat_highHalf a
  have hb1 := toNat_highHalf b
  generalize (a.setWidth 32).setWidth 64 = a0 at *
  generalize (b.setWidth 32).setWidth 64 = b0 at *
  generalize ((a >>> 32).setWidth 32).setWidth 64 = a1 at *
  generalize ((b >>> 32).setWidth 32).setWidth 64 = b1 at *
  rw [← ha0, ← hb0, ← ha1, ← hb1] at hproduct
  have hlt : a0.toNat < 2 ^ 32 ∧ b0.toNat < 2 ^ 32 ∧ a1.toNat < 2 ^ 32 ∧ b1.toNat < 2 ^ 32 := by
    omega
  obtain ⟨ha0, hb0, ha1, hb1⟩ := hlt
  rw [← toNat_mul_of_halves ha1 hb1, ← toNat_mul_of_halves ha1 hb0, ← toNat_mul_of_halves ha0 hb1,
    ← toNat_mul_of_halves ha0 hb0] at hproduct
  have h0 := half_mul_half_le ha0 hb0
  have h10 := half_mul_half_le ha1 hb0
  have h01 := half_mul_half_le ha0 hb1
  rw [← toNat_mul_of_halves ha0 hb0] at h0
  rw [← toNat_mul_of_halves ha1 hb0] at h10
  rw [← toNat_mul_of_halves ha0 hb1] at h01
  rw [hproduct]
  refine toNat_ofProducts h0 h10 h01 ?_
  rw [← hproduct]
  exact lt_of_lt_of_le (Nat.mul_lt_mul'' ha hb) (by norm_num)

def toBitVec (a : U128) : BitVec 128 := a.upper ++ a.lower

theorem toNat_toBitVec : a.toBitVec.toNat = a.toNat := by
  rw [toBitVec, BitVec.toNat_append, ← Nat.shiftLeft_add_eq_or_of_lt a.lower.isLt,
    Nat.shiftLeft_eq, toNat]

theorem bit_eq_testBit (i : ℕ) : a.bit i = a.toNat.testBit i := by
  rw [← toNat_toBitVec]
  change _ = a.toBitVec.getLsbD i
  rw [bit, toBitVec, BitVec.getLsbD_append]

theorem toBitVec_shl (n : ℕ) : (a.shl n).toBitVec = a.toBitVec <<< n := by
  refine BitVec.eq_of_getLsbD_eq fun i hi => ?_
  unfold shl toBitVec
  split_ifs with h0 h64 h128
  · simp [h0]
  · simp only [BitVec.getLsbD_append, BitVec.getLsbD_shiftLeft, BitVec.getLsbD_or,
      BitVec.getLsbD_ushiftRight]
    grind
  · have hindex : i - 64 - (n - 64) = i - n := by omega
    simp only [BitVec.getLsbD_append, BitVec.getLsbD_shiftLeft, BitVec.getLsbD_zero, hindex]
    grind
  · simp only [BitVec.getLsbD_append, BitVec.getLsbD_shiftLeft, BitVec.getLsbD_zero]
    grind

theorem toBitVec_shr (n : ℕ) : (a.shr n).toBitVec = a.toBitVec >>> n := by
  refine BitVec.eq_of_getLsbD_eq fun i hi => ?_
  unfold shr toBitVec
  split_ifs with h0 h64 h128
  · simp [h0]
  · simp only [BitVec.getLsbD_append, BitVec.getLsbD_shiftLeft, BitVec.getLsbD_or,
      BitVec.getLsbD_ushiftRight]
    grind
  · simp only [BitVec.getLsbD_append, BitVec.getLsbD_ushiftRight, BitVec.getLsbD_zero]
    grind
  · simp only [BitVec.getLsbD_append, BitVec.getLsbD_ushiftRight, BitVec.getLsbD_zero]
    grind

theorem toNat_shl (n : ℕ) : (a.shl n).toNat = a.toNat * 2 ^ n % 2 ^ 128 := by
  rw [← toNat_toBitVec, toBitVec_shl, BitVec.toNat_shiftLeft, Nat.shiftLeft_eq, toNat_toBitVec]

theorem toNat_shr (n : ℕ) : (a.shr n).toNat = a.toNat / 2 ^ n := by
  rw [← toNat_toBitVec, toBitVec_shr, BitVec.toNat_ushiftRight, Nat.shiftRight_eq_div_pow,
    toNat_toBitVec]

theorem toNat_shiftLeft_of_nonneg {amount : ℤ} (h : 0 ≤ amount) :
    (a.shiftLeft amount).toNat = a.toNat * 2 ^ amount.toNat % 2 ^ 128 := by
  rw [shiftLeft, if_neg (not_lt.mpr h), toNat_shl]

theorem toNat_shiftRight_of_nonneg {amount : ℤ} (h : 0 ≤ amount) :
    (a.shiftRight amount).toNat = a.toNat / 2 ^ amount.toNat := by
  rw [shiftRight, if_neg (not_lt.mpr h), toNat_shr]

theorem shiftLeft_eq_zero_iff (x : BitVec 64) {n : ℕ} (hn : n ≤ 64) :
    x <<< (64 - n) = 0#64 ↔ x.toNat % 2 ^ n = 0 := by
  have hsplit : (2 : ℕ) ^ 64 = 2 ^ n * 2 ^ (64 - n) := by rw [← pow_add, Nat.add_sub_cancel' hn]
  rw [← BitVec.toNat_inj, BitVec.toNat_shiftLeft, Nat.shiftLeft_eq, hsplit,
    Nat.mul_mod_mul_right, BitVec.toNat_ofNat, Nat.zero_mod, Nat.mul_eq_zero,
    or_iff_left (pow_ne_zero _ two_ne_zero)]

theorem toNat_orSticky (sticky : Prop) [Decidable sticky] :
    (a.orSticky sticky).toNat = if sticky then a.toNat ||| 1 else a.toNat := by
  unfold orSticky
  split
  · simp only [toNat, BitVec.toNat_or, BitVec.toNat_ofNat, or_one_eq]
    rw [show (1 : ℕ) % 2 ^ 64 = 1 from rfl, or_one_eq]
    omega
  · rfl

theorem toNat_mod_of_le {n : ℕ} (hn : n ≤ 64) :
    a.toNat % 2 ^ n = a.lower.toNat % 2 ^ n := by
  have hdvd : 2 ^ n ∣ a.upper.toNat * 2 ^ 64 := Dvd.dvd.mul_left (pow_dvd_pow 2 hn) _
  rw [toNat, Nat.add_mod, Nat.mod_eq_zero_of_dvd hdvd, Nat.zero_add, Nat.mod_mod]

theorem toNat_mod_add (k : ℕ) :
    a.toNat % 2 ^ (64 + k) = a.upper.toNat % 2 ^ k * 2 ^ 64 + a.lower.toNat := by
  have hlower := a.lower.isLt
  rw [pow_add, Nat.mod_mul, toNat]
  have hmod : (a.upper.toNat * 2 ^ 64 + a.lower.toNat) % 2 ^ 64 = a.lower.toNat := by omega
  have hdiv : (a.upper.toNat * 2 ^ 64 + a.lower.toNat) / 2 ^ 64 = a.upper.toNat := by omega
  rw [hmod, hdiv]
  ring

theorem toNat_orSticky_eq {a r : U128} {n : ℕ} {sticky : Prop} [Decidable sticky]
    (hr : r.toNat = a.toNat / 2 ^ n) (hsticky : sticky ↔ a.toNat % 2 ^ n ≠ 0) :
    (r.orSticky sticky).toNat = stickyShift a.toNat n := by
  rw [toNat_orSticky, stickyShift, hr]
  by_cases h : sticky
  · rw [if_pos h, if_neg (hsticky.mp h)]
  · rw [if_neg h, if_pos (not_not.mp fun hne => h (hsticky.mpr hne))]

theorem ne_zero_iff_toNat (x : BitVec 64) : x ≠ 0#64 ↔ x.toNat ≠ 0 := by
  rw [ne_eq, ← BitVec.toNat_inj, BitVec.toNat_ofNat, Nat.zero_mod]

theorem orSticky_orSticky (p q : Prop) [Decidable p] [Decidable q] :
    (a.orSticky p).orSticky q = a.orSticky (p ∨ q) := by
  unfold orSticky
  by_cases hp : p <;> by_cases hq : q <;> simp [hp, hq, BitVec.or_assoc]

/-- A bit that is shifted out leaves a one in the lowest place. -/
theorem toNat_stickyLogicalShiftRight {amount : ℤ} (h : 0 ≤ amount) :
    (a.stickyLogicalShiftRight amount).toNat = stickyShift a.toNat amount.toNat := by
  rw [stickyLogicalShiftRight, if_neg (not_lt.mpr h)]
  generalize amount.toNat = n
  have hshr := a.toNat_shr n
  unfold shr at hshr
  simp only
  split_ifs with h0 h64 h64' h128 hne
  · rw [stickyShift, h0, pow_zero, Nat.mod_one, if_pos rfl, Nat.div_one]
  · rw [if_neg h0, if_pos h64] at hshr
    refine toNat_orSticky_eq hshr ?_
    rw [ne_eq, shiftLeft_eq_zero_iff _ h64.le, toNat_mod_of_le a h64.le]
  · subst h64'
    refine toNat_orSticky_eq (by simpa using hshr) ?_
    rw [ne_zero_iff_toNat, toNat_mod_of_le a le_rfl, Nat.mod_eq_of_lt a.lower.isLt]
  · rw [if_neg h0, if_neg h64, if_pos h128] at hshr
    obtain ⟨k, rfl⟩ : ∃ k, n = 64 + k := ⟨n - 64, by omega⟩
    rw [orSticky_orSticky]
    refine toNat_orSticky_eq hshr ?_
    rw [show 128 - (64 + k) = 64 - k by omega, ne_eq (_ <<< _), shiftLeft_eq_zero_iff _ (by omega),
      ne_zero_iff_toNat, toNat_mod_add]
    omega
  · have hzero : a.toNat / 2 ^ n = 0 := by
      rw [← hshr, if_neg h0, if_neg h64, if_neg h128]
      rfl
    have hmod : a.toNat % 2 ^ n ≠ 0 := by
      rw [Nat.mod_eq_of_lt ((Nat.div_eq_zero_iff_lt (by positivity)).mp hzero)]
      rw [ne_zero_iff_toNat, ne_zero_iff_toNat] at hne
      unfold toNat
      omega
    rw [stickyShift, if_neg hmod, hzero]
    rfl
  · have hzero : a.toNat = 0 := by
      simp only [not_or, not_not] at hne
      simp [toNat, hne]
    rw [stickyShift, hzero, Nat.zero_mod, if_pos rfl, Nat.zero_div]
    rfl

theorem toNat_stickyLogicalShiftRight_of_neg {amount : ℤ} (h : amount < 0) :
    (a.stickyLogicalShiftRight amount).toNat = a.toNat * 2 ^ (-amount).toNat % 2 ^ 128 := by
  rw [stickyLogicalShiftRight, if_pos h, toNat_shiftLeft_of_nonneg a (by omega)]

/-- The product of two words is exact, a sticky shift keeps the quotient and says in the lowest bit
whether something was cut off, and sums and differences are exact modulo `2 ^ 128`. -/
theorem arithmetic_exact :
    (∀ a b : BitVec 64, (multiply64To128 a b).toNat = a.toNat * b.toNat) ∧
      (∀ (x : U128) (n : ℕ), (x.stickyLogicalShiftRight n).toNat =
        if x.toNat % 2 ^ n ≠ 0 then x.toNat / 2 ^ n ||| 1 else x.toNat / 2 ^ n) ∧
      (∀ a b : U128, (a.add b).toNat = (a.toNat + b.toNat) % 2 ^ 128) ∧
      ∀ a b : U128, (a.sub b).toNat = (a.toNat + 2 ^ 128 - b.toNat) % 2 ^ 128 := by
  refine ⟨toNat_multiply64To128, fun x n => ?_, toNat_add_mod, toNat_sub_mod⟩
  rw [toNat_stickyLogicalShiftRight x (Int.natCast_nonneg n), Int.toNat_natCast, stickyShift,
    ite_not]

end U128

end Umbra.Common
