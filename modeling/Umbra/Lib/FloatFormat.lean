import Mathlib.Algebra.Order.Field.Power
import Mathlib.Data.Int.Log
import Umbra.Lib.RoundToOdd

/-!
Binary floating-point formats and the rounding of rational numbers to them.

A format has a number of fraction bits and a range of exponents.  A rational
number is rounded once: it is measured in units of the last place at its own
exponent (or at the least exponent, when it is smaller), the number of units is
rounded to an integer, and a result beyond the range becomes an infinity or the
largest number of the format, depending on the direction.
-/

namespace Umbra.Lib

inductive Mode
  | nearestEven
  | up
  | down
  | truncate
deriving DecidableEq

def signed (sign : Bool) (y : ℚ) : ℚ := if sign then -y else y

theorem abs_signed (sign : Bool) (y : ℚ) : |signed sign y| = |y| := by
  cases sign <;> simp [signed]

theorem signed_lt_zero {sign : Bool} {y : ℚ} (hy : 0 < y) :
    decide (signed sign y < 0) = sign := by
  cases sign with
  | false => simpa [signed] using hy.le
  | true => simpa [signed] using hy

theorem signed_mul (sign : Bool) (y z : ℚ) : signed sign y * z = signed sign (y * z) := by
  cases sign <;> simp [signed]

theorem signed_ne_zero {sign : Bool} {y : ℚ} : signed sign y ≠ 0 ↔ y ≠ 0 := by
  cases sign <;> simp [signed]

theorem eq_signed_abs (x : ℚ) : x = signed (decide (x < 0)) |x| := by
  by_cases hx : x < 0
  · simp [signed, hx, abs_of_neg hx]
  · simp [signed, hx, abs_of_nonneg (not_lt.mp hx)]

theorem two_zpow_le_iff {y : ℚ} (hy : 0 < y) {k : ℤ} : (2 : ℚ) ^ k ≤ y ↔ k ≤ Int.log 2 y := by
  exact_mod_cast Int.zpow_le_iff_le_log one_lt_two hy

theorem lt_two_zpow_iff {y : ℚ} (hy : 0 < y) {k : ℤ} : y < 2 ^ k ↔ Int.log 2 y < k := by
  exact_mod_cast Int.lt_zpow_iff_log_lt one_lt_two hy

theorem log_two_eq {y : ℚ} {k : ℤ} (hlo : (2 : ℚ) ^ k ≤ y) (hhi : y < 2 ^ (k + 1)) :
    Int.log 2 y = k := by
  have hy : 0 < y := lt_of_lt_of_le (by positivity) hlo
  rw [two_zpow_le_iff hy] at hlo
  rw [lt_two_zpow_iff hy] at hhi
  omega

theorem zpow_mul_two_zpow (a b : ℤ) : (2 : ℚ) ^ a * 2 ^ b = 2 ^ (a + b) :=
  (zpow_add₀ two_ne_zero a b).symm

theorem log_two_mul_zpow {y : ℚ} (hy : 0 < y) (e : ℤ) :
    Int.log 2 (y * 2 ^ e) = Int.log 2 y + e := by
  have he : (0 : ℚ) < 2 ^ e := by positivity
  refine log_two_eq ?_ ?_
  · rw [zpow_add₀ two_ne_zero]
    exact mul_le_mul_of_nonneg_right ((two_zpow_le_iff hy).mpr le_rfl) he.le
  · rw [add_right_comm, zpow_add₀ two_ne_zero]
    exact mul_lt_mul_of_pos_right ((lt_two_zpow_iff hy).mpr (lt_add_one _)) he

namespace Mode

def apply : Mode → ℚ → ℤ
  | nearestEven, x =>
      if Int.fract x < 1 / 2 then ⌊x⌋
      else if 1 / 2 < Int.fract x then ⌊x⌋ + 1
      else if Even ⌊x⌋ then ⌊x⌋ else ⌊x⌋ + 1
  | up, x => ⌈x⌉
  | down, x => ⌊x⌋
  | truncate, x => if 0 ≤ x then ⌊x⌋ else ⌈x⌉

def overflowsToInfinity : Mode → Bool → Bool
  | nearestEven, _ => true
  | up, sign => !sign
  | down, sign => sign
  | truncate, _ => false

/-- The magnitude of a number with this sign is rounded away from zero. -/
def Increments (mode : Mode) (sign : Bool) (y : ℚ) : Prop :=
  match mode with
  | nearestEven => 1 / 2 < y - ⌊y⌋₊ ∨ y - ⌊y⌋₊ = 1 / 2 ∧ Odd ⌊y⌋₊
  | up => sign = false ∧ y ≠ ⌊y⌋₊
  | down => sign = true ∧ y ≠ ⌊y⌋₊
  | truncate => False

instance (mode : Mode) (sign : Bool) (y : ℚ) : Decidable (mode.Increments sign y) := by
  unfold Increments
  cases mode <;> infer_instance

def roundMagnitude (mode : Mode) (sign : Bool) (y : ℚ) : ℕ :=
  ⌊y⌋₊ + if mode.Increments sign y then 1 else 0

variable {mode : Mode} {sign : Bool} {y : ℚ}

theorem floor_eq_natFloor (hy : 0 ≤ y) : ⌊y⌋ = (⌊y⌋₊ : ℤ) := (Int.natCast_floor_eq_floor hy).symm

theorem ceil_eq_natFloor (hy : 0 ≤ y) : ⌈y⌉ = (⌊y⌋₊ : ℤ) + if y ≠ ⌊y⌋₊ then 1 else 0 := by
  have hlo := Nat.floor_le hy
  have hhi := Nat.lt_floor_add_one y
  rw [Int.ceil_eq_iff]
  split
  · rename_i hne
    have hlt := lt_of_le_of_ne hlo (Ne.symm hne)
    push_cast
    constructor <;> linarith
  · rename_i heq
    rw [not_not] at heq
    push_cast
    constructor <;> linarith

theorem not_increments_of_eq_floor (h : y = ⌊y⌋₊) : ¬mode.Increments sign y := by
  have hzero : y - ⌊y⌋₊ = 0 := sub_eq_zero.mpr h
  cases mode with
  | nearestEven => norm_num [Increments, hzero]
  | up => exact fun hincr => hincr.2 h
  | down => exact fun hincr => hincr.2 h
  | truncate => exact id

theorem half_le_of_increments_nearestEven (h : nearestEven.Increments sign y) : 1 / 2 ≤ y := by
  have hfloor : (0 : ℚ) ≤ ⌊y⌋₊ := Nat.cast_nonneg _
  rcases h with hgt | ⟨htie, -⟩ <;> linarith

theorem le_half_of_not_increments_nearestEven (h : ¬nearestEven.Increments sign y)
    (hfloor : ⌊y⌋₊ = 0) : y ≤ 1 / 2 := by
  by_contra hgt
  exact h (.inl (by simpa [hfloor] using not_le.mp hgt))

theorem apply_nearestEven_eq {x : ℚ} {k : ℤ}
    (h : |x - k| < 1 / 2 ∨ |x - k| = 1 / 2 ∧ Even k) : nearestEven.apply x = k := by
  have hlo := Int.floor_le x
  have hhi := Int.lt_floor_add_one x
  have hfract : Int.fract x = x - ⌊x⌋ := rfl
  have hk : ⌊x⌋ = k ∨ ⌊x⌋ + 1 = k := by
    have hnear : |x - k| ≤ 1 / 2 := h.elim le_of_lt fun htie => htie.1.le
    rw [abs_le] at hnear
    have hlow : (⌊x⌋ : ℚ) < k + 1 := by linarith
    have hhigh : (k : ℚ) < ⌊x⌋ + 2 := by linarith
    norm_cast at hlow hhigh
    omega
  simp only [apply, hfract]
  rcases hk with rfl | rfl
  · rw [abs_of_nonneg (by linarith)] at h
    rcases h with hlt | ⟨htie, heven⟩
    · rw [if_pos hlt]
    · rw [if_neg (by linarith), if_neg (by linarith), if_pos heven]
  · push_cast at h
    rw [abs_of_neg (by linarith)] at h
    rcases h with hlt | ⟨htie, heven⟩
    · rw [if_neg (by linarith), if_pos (by linarith)]
    · rw [if_neg (by linarith), if_neg (by linarith), if_neg]
      exact fun hfloor => Int.not_even_iff_odd.mpr hfloor.add_one heven

theorem roundMagnitude_nearestEven (sign : Bool) (hy : 0 ≤ y) :
    |y - nearestEven.roundMagnitude sign y| < 1 / 2 ∨
      |y - nearestEven.roundMagnitude sign y| = 1 / 2 ∧ Even (nearestEven.roundMagnitude sign y) := by
  have hlo := Nat.floor_le hy
  have hhi := Nat.lt_floor_add_one y
  unfold roundMagnitude
  by_cases hincr : nearestEven.Increments sign y
  · rw [if_pos hincr]
    push_cast
    rw [abs_of_neg (by linarith)]
    rcases hincr with hgt | ⟨htie, hodd⟩
    · exact .inl (by linarith)
    · exact .inr ⟨by linarith, hodd.add_one⟩
  · rw [if_neg hincr, Nat.add_zero, abs_of_nonneg (by linarith)]
    simp only [Increments, not_or, not_and, not_lt] at hincr
    rcases lt_or_eq_of_le hincr.1 with hlt | htie
    · exact .inl hlt
    · exact .inr ⟨htie, Nat.not_odd_iff_even.mp (hincr.2 htie)⟩

/-- Rounding is symmetric in the sign, up to the direction. -/
theorem apply_signed (mode : Mode) (sign : Bool) (hy : 0 ≤ y) :
    (mode.apply (signed sign y) : ℚ) = signed sign (mode.roundMagnitude sign y) := by
  cases mode with
  | nearestEven =>
      have hnear := roundMagnitude_nearestEven sign hy
      cases sign with
      | false =>
          have hresult : nearestEven.apply y = nearestEven.roundMagnitude false y :=
            apply_nearestEven_eq (by simpa using hnear)
          simp [signed, hresult]
      | true =>
          have hneg : ∀ r : ℚ, |-y + r| = |y - r| := fun r => by
            rw [← abs_neg, neg_add, neg_neg, sub_eq_add_neg]
          have hresult : nearestEven.apply (-y) = -(nearestEven.roundMagnitude true y : ℤ) :=
            apply_nearestEven_eq (by simpa [hneg] using hnear)
          simp [signed, hresult]
  | up =>
      cases sign <;>
        simp [signed, apply, roundMagnitude, Increments, Int.ceil_neg, ceil_eq_natFloor hy,
          floor_eq_natFloor hy]
  | down =>
      cases sign <;>
        simp [signed, apply, roundMagnitude, Increments, Int.floor_neg, ceil_eq_natFloor hy,
          floor_eq_natFloor hy]
  | truncate =>
      have hzero : y = 0 ∨ ¬0 ≤ -y := by
        rcases eq_or_lt_of_le hy with rfl | hpos
        · exact .inl rfl
        · exact .inr (by linarith)
      cases sign with
      | false => simp [signed, apply, roundMagnitude, Increments, floor_eq_natFloor hy, hy]
      | true =>
          rcases hzero with rfl | hneg
          · simp [signed, apply, roundMagnitude, Increments]
          · simp only [signed, apply, roundMagnitude, Increments, if_neg hneg, ↓reduceIte,
              Int.ceil_neg, floor_eq_natFloor hy]
            simp

end Mode

/-- Two numbers lie on the same side of every half-integer. -/
def SameHalves (y z : ℚ) : Prop :=
  ∀ k : ℕ, ((k : ℚ) / 2 < y ↔ (k : ℚ) / 2 < z) ∧ ((k : ℚ) / 2 ≤ y ↔ (k : ℚ) / 2 ≤ z)

namespace SameHalves

variable {y z : ℚ}

theorem floor (h : SameHalves y z) (hy : 0 ≤ y) (hz : 0 ≤ z) : ⌊y⌋₊ = ⌊z⌋₊ := by
  refine eq_of_forall_le_iff fun n => ?_
  rw [Nat.le_floor_iff hy, Nat.le_floor_iff hz]
  have := (h (2 * n)).2
  push_cast at this
  rwa [mul_div_cancel_left₀ _ two_ne_zero] at this

theorem eq_half_iff (h : SameHalves y z) (k : ℕ) : y = k / 2 ↔ z = k / 2 := by
  obtain ⟨hlt, hle⟩ := h k
  constructor
  · rintro rfl
    exact le_antisymm (not_lt.mp fun hgt => (hlt.mpr hgt).false) (hle.mp le_rfl)
  · rintro rfl
    exact le_antisymm (not_lt.mp fun hgt => (hlt.mp hgt).false) (hle.mpr le_rfl)

theorem eq_natCast_iff (h : SameHalves y z) (n : ℕ) : y = n ↔ z = n := by
  have := h.eq_half_iff (2 * n)
  push_cast at this
  rwa [mul_div_cancel_left₀ _ two_ne_zero] at this

theorem increments (h : SameHalves y z) (hy : 0 ≤ y) (hz : 0 ≤ z) (mode : Mode) (sign : Bool) :
    mode.Increments sign y ↔ mode.Increments sign z := by
  have hfloor := h.floor hy hz
  have hcut : ((2 * ⌊z⌋₊ + 1 : ℕ) : ℚ) / 2 = ⌊z⌋₊ + 1 / 2 := by
    push_cast
    ring
  have hgt := (h (2 * ⌊z⌋₊ + 1)).1
  have htie := h.eq_half_iff (2 * ⌊z⌋₊ + 1)
  rw [hcut] at hgt htie
  cases mode with
  | nearestEven =>
      simp only [Mode.Increments, hfloor]
      refine or_congr ?_ (and_congr_left' ?_)
      · rw [lt_sub_iff_add_lt', lt_sub_iff_add_lt', hgt]
      · rw [sub_eq_iff_eq_add', sub_eq_iff_eq_add', htie]
  | up => simp only [Mode.Increments, hfloor, ne_eq, h.eq_natCast_iff]
  | down => simp only [Mode.Increments, hfloor, ne_eq, h.eq_natCast_iff]
  | truncate => rfl

theorem roundMagnitude (h : SameHalves y z) (hy : 0 ≤ y) (hz : 0 ≤ z) (mode : Mode)
    (sign : Bool) : mode.roundMagnitude sign y = mode.roundMagnitude sign z := by
  simp only [Mode.roundMagnitude, h.floor hy hz, h.increments hy hz]

end SameHalves

/-- Rounding to odd is not noticed when two more bits are dropped. -/
theorem RoundsToOdd.sameHalves {x : ℚ} {m : ℕ} (h : RoundsToOdd x m) (s : ℕ) :
    SameHalves (x / 2 ^ (s + 2)) (m / 2 ^ (s + 2)) := by
  intro k
  have heven : Even (k * 2 ^ (s + 1)) := Even.mul_left (by simp [pow_succ]) k
  have hpos : (0 : ℚ) < 2 ^ (s + 2) := by positivity
  have hcut : (k : ℚ) / 2 * 2 ^ (s + 2) = ((k * 2 ^ (s + 1) : ℕ) : ℚ) := by
    push_cast
    ring
  rw [lt_div_iff₀ hpos, lt_div_iff₀ hpos, le_div_iff₀ hpos, le_div_iff₀ hpos, hcut,
    ← h.gt_iff heven, ← h.le_iff heven, Nat.cast_lt, Nat.cast_le]
  exact ⟨Iff.rfl, Iff.rfl⟩

inductive Datum
  | finite (sign : Bool) (magnitude : ℚ)
  | infinity (sign : Bool)
  | nan
deriving DecidableEq

namespace Datum

def toRat : Datum → Option ℚ
  | finite sign magnitude => some (signed sign magnitude)
  | _ => none

end Datum

structure Format where
  fraction : ℕ
  emin : ℤ
  emax : ℤ
  fraction_pos : 0 < fraction
  emin_le_emax : emin ≤ emax

namespace Format

variable (f : Format)

/-- The exponent of the unit in the last place of a number. -/
def scale (x : ℚ) : ℤ := max (Int.log 2 |x|) f.emin - f.fraction

/-- The number rounded to the precision of the format, as if there were no greatest
exponent. -/
def roundUnbounded (mode : Mode) (x : ℚ) : ℚ :=
  mode.apply (x * 2 ^ (-f.scale x)) * 2 ^ f.scale x

def maxFinite : ℚ := (2 ^ (f.fraction + 1) - 1) * 2 ^ (f.emax - f.fraction)

def round (mode : Mode) (x : ℚ) : Datum :=
  let sign := decide (x < 0)
  let magnitude := |f.roundUnbounded mode x|
  if magnitude < 2 ^ (f.emax + 1) then .finite sign magnitude
  else if mode.overflowsToInfinity sign then .infinity sign
  else .finite sign f.maxFinite

def Inexact (mode : Mode) (x : ℚ) : Prop := (f.round mode x).toRat ≠ some x

instance (mode : Mode) (x : ℚ) : Decidable (f.Inexact mode x) :=
  inferInstanceAs (Decidable (_ ≠ _))

variable {f} {mode : Mode} {sign : Bool} {y z : ℚ}

def units (f : Format) (y : ℚ) : ℚ := y * 2 ^ (-f.scale y)

theorem units_mul_zpow (f : Format) (y : ℚ) : f.units y * 2 ^ f.scale y = y := by
  rw [units, mul_assoc, ← zpow_add₀ two_ne_zero, neg_add_cancel, zpow_zero, mul_one]

theorem units_nonneg (f : Format) (hy : 0 ≤ y) : 0 ≤ f.units y :=
  mul_nonneg hy (by positivity)

theorem scale_signed (f : Format) (sign : Bool) (y : ℚ) :
    f.scale (signed sign y) = f.scale y := by
  simp only [scale, abs_signed]

def magnitude (f : Format) (mode : Mode) (sign : Bool) (y : ℚ) : ℚ :=
  mode.roundMagnitude sign (f.units y) * 2 ^ f.scale y

theorem magnitude_nonneg (f : Format) (mode : Mode) (sign : Bool) (y : ℚ) :
    0 ≤ f.magnitude mode sign y :=
  mul_nonneg (Nat.cast_nonneg _) (by positivity)

def bounded (f : Format) (mode : Mode) (sign : Bool) (magnitude : ℚ) : Datum :=
  if magnitude < 2 ^ (f.emax + 1) then .finite sign magnitude
  else if mode.overflowsToInfinity sign then .infinity sign
  else .finite sign f.maxFinite

theorem roundUnbounded_signed (hy : 0 ≤ y) :
    f.roundUnbounded mode (signed sign y) = signed sign (f.magnitude mode sign y) := by
  rw [roundUnbounded, scale_signed, signed_mul,
    show y * 2 ^ (-f.scale y) = f.units y from rfl,
    Mode.apply_signed mode sign (f.units_nonneg hy), signed_mul]
  rfl

theorem round_signed (hy : 0 < y) :
    f.round mode (signed sign y) = f.bounded mode sign (f.magnitude mode sign y) := by
  rw [round, roundUnbounded_signed hy.le, abs_signed, abs_of_nonneg (f.magnitude_nonneg mode sign y),
    signed_lt_zero hy]
  rfl

theorem magnitude_eq_self_iff : f.magnitude mode sign y = y ↔ f.units y = ⌊f.units y⌋₊ := by
  have hpos : (2 : ℚ) ^ f.scale y ≠ 0 := by positivity
  have hcancel : f.magnitude mode sign y = y ↔
      (mode.roundMagnitude sign (f.units y) : ℚ) = f.units y := by
    nth_rewrite 2 [← f.units_mul_zpow y]
    rw [magnitude, mul_left_inj' hpos]
  rw [hcancel]
  constructor
  · intro h
    rw [← h, Nat.floor_natCast]
  · intro h
    rw [Mode.roundMagnitude, if_neg (Mode.not_increments_of_eq_floor h), Nat.add_zero, ← h]

theorem units_maxFinite (f : Format) : f.units f.maxFinite = ⌊f.units f.maxFinite⌋₊ := by
  have hone : (1 : ℚ) ≤ 2 ^ f.fraction := one_le_pow₀ one_le_two
  have hsplit : ∀ e : ℤ, (2 : ℚ) ^ e = 2 ^ f.fraction * 2 ^ (e - f.fraction) := fun e => by
    rw [← zpow_natCast, ← zpow_add₀ two_ne_zero, add_sub_cancel]
  have hunit : (0 : ℚ) < 2 ^ (f.emax - f.fraction) := by positivity
  have hnonneg : 0 ≤ f.maxFinite := by
    refine mul_nonneg ?_ hunit.le
    rw [pow_succ]
    linarith
  have hlog : Int.log 2 |f.maxFinite| = f.emax := by
    rw [abs_of_nonneg hnonneg]
    refine log_two_eq ?_ ?_
    · rw [hsplit f.emax, maxFinite, pow_succ]
      exact mul_le_mul_of_nonneg_right (by linarith) hunit.le
    · rw [hsplit (f.emax + 1), maxFinite, pow_succ,
        show f.emax + 1 - (f.fraction : ℤ) = (f.emax - f.fraction) + 1 by ring,
        zpow_add_one₀ two_ne_zero]
      nlinarith
  have hscale : f.scale f.maxFinite = f.emax - f.fraction := by
    rw [scale, hlog, max_eq_left f.emin_le_emax]
  have hunits : f.units f.maxFinite = ((2 ^ (f.fraction + 1) - 1 : ℕ) : ℚ) := by
    rw [units, hscale, maxFinite, mul_assoc, ← zpow_add₀ two_ne_zero, add_neg_cancel, zpow_zero,
      mul_one]
    push_cast [Nat.one_le_two_pow]
    rfl
  rw [hunits, Nat.floor_natCast]

theorem maxFinite_lt (f : Format) : f.maxFinite < 2 ^ (f.emax + 1) := by
  have hunit : (0 : ℚ) < 2 ^ (f.emax - f.fraction) := by positivity
  have hsplit : (2 : ℚ) ^ (f.emax + 1) = 2 ^ (f.fraction + 1) * 2 ^ (f.emax - f.fraction) := by
    rw [← zpow_natCast, ← zpow_add₀ two_ne_zero]
    congr 1
    push_cast
    ring
  rw [hsplit, maxFinite]
  exact mul_lt_mul_of_pos_right (by linarith) hunit

theorem inexact_signed (hy : 0 < y) :
    f.Inexact mode (signed sign y) ↔
      f.units y ≠ ⌊f.units y⌋₊ ∨ 2 ^ (f.emax + 1) ≤ f.magnitude mode sign y := by
  have hinj : ∀ a b : ℚ, signed sign a = signed sign b ↔ a = b := fun a b => by
    cases sign <;> simp [signed]
  rw [Inexact, round_signed hy, bounded]
  split_ifs with hsmall hinfinity
  · rw [Datum.toRat, ne_eq, Option.some.injEq, hinj, magnitude_eq_self_iff,
      or_iff_left (not_le.mpr hsmall)]
  · exact iff_of_true (by simp [Datum.toRat]) (.inr (not_lt.mp hsmall))
  · refine iff_of_true ?_ (.inr (not_lt.mp hsmall))
    rw [Datum.toRat, ne_eq, Option.some.injEq, hinj]
    rintro rfl
    rw [magnitude_eq_self_iff.mpr f.units_maxFinite] at hsmall
    exact hsmall f.maxFinite_lt

/-- The rounding to the format treats the two numbers alike. -/
structure SameRounding (f : Format) (mode : Mode) (x y : ℚ) : Prop where
  round_eq : f.round mode x = f.round mode y
  inexact_iff : f.Inexact mode x ↔ f.Inexact mode y
  unbounded_eq : f.roundUnbounded mode x = f.roundUnbounded mode y
  log_eq : Int.log 2 |x| = Int.log 2 |y|

theorem SameRounding.refl (f : Format) (mode : Mode) (x : ℚ) : f.SameRounding mode x x :=
  ⟨rfl, Iff.rfl, rfl, rfl⟩

theorem SameRounding.symm {x : ℚ} (h : f.SameRounding mode x y) : f.SameRounding mode y x :=
  ⟨h.round_eq.symm, h.inexact_iff.symm, h.unbounded_eq.symm, h.log_eq.symm⟩

theorem round_congr (hy : 0 < y) (hz : 0 < z) (hlog : Int.log 2 y = Int.log 2 z)
    (hunits : SameHalves (f.units y) (f.units z)) :
    f.SameRounding mode (signed sign y) (signed sign z) := by
  have hscale : f.scale y = f.scale z := by
    rw [scale, scale, abs_of_pos hy, abs_of_pos hz, hlog]
  have hfloor := hunits.floor (f.units_nonneg hy.le) (f.units_nonneg hz.le)
  have hmagnitude : f.magnitude mode sign y = f.magnitude mode sign z := by
    rw [magnitude, magnitude, hscale,
      hunits.roundMagnitude (f.units_nonneg hy.le) (f.units_nonneg hz.le)]
  refine ⟨?_, ?_, ?_, ?_⟩
  · rw [round_signed hy, round_signed hz, hmagnitude]
  · rw [inexact_signed hy, inexact_signed hz, hmagnitude, hfloor, ne_eq, hunits.eq_natCast_iff]
  · rw [roundUnbounded_signed hy.le, roundUnbounded_signed hz.le, hmagnitude]
  · rw [abs_signed, abs_signed, abs_of_pos hy, abs_of_pos hz, hlog]

/-- Rounding to odd with two bits to spare is not noticed by the rounding to the
format. -/
theorem round_roundsToOdd (f : Format) (mode : Mode) (sign : Bool) {t : ℚ} {m : ℕ}
    (h : RoundsToOdd t m) (hm : 2 ^ (f.fraction + 2) ≤ m) (e : ℤ) :
    f.SameRounding mode (signed sign (t * 2 ^ e)) (signed sign (m * 2 ^ e)) := by
  have hmpos : 0 < m := lt_of_lt_of_le (by positivity) hm
  have hmpos' : (0 : ℚ) < m := by exact_mod_cast hmpos
  have hlarge : f.fraction + 2 ≤ Nat.log 2 m := (Nat.le_log_iff_pow_le one_lt_two hmpos.ne').mpr hm
  have heven : ∀ {k : ℕ}, 0 < k → Even (2 ^ k) := fun hk => (Nat.even_pow.mpr ⟨even_two, hk.ne'⟩)
  have hlo : (2 : ℚ) ^ (Nat.log 2 m : ℤ) ≤ t := by
    have := (h.le_iff (heven (k := Nat.log 2 m) (by omega))).mp (Nat.pow_log_le_self 2 hmpos.ne')
    exact_mod_cast this
  have hhi : t < (2 : ℚ) ^ ((Nat.log 2 m : ℤ) + 1) := by
    have := (h.lt_iff (heven (k := Nat.log 2 m + 1) (by omega))).mp
      (Nat.lt_pow_succ_log_self one_lt_two m)
    exact_mod_cast this
  have htpos : 0 < t := lt_of_lt_of_le (by positivity) hlo
  have hlog : Int.log 2 t = Int.log 2 (m : ℚ) := by
    rw [log_two_eq hlo hhi, Int.log_natCast]
  have hlog' : Int.log 2 (t * 2 ^ e) = Int.log 2 (m * 2 ^ e : ℚ) := by
    rw [log_two_mul_zpow htpos, log_two_mul_zpow hmpos', hlog]
  have hscale : f.scale (t * 2 ^ e) = f.scale (m * 2 ^ e) := by
    rw [scale, scale, abs_of_pos (by positivity), abs_of_pos (by positivity), hlog']
  obtain ⟨s, hs⟩ : ∃ s : ℕ, f.scale (m * 2 ^ e) - e = ((s + 2 : ℕ) : ℤ) := by
    have hle : (2 : ℤ) ≤ f.scale (m * 2 ^ e) - e := by
      rw [scale, abs_of_pos (by positivity), log_two_mul_zpow hmpos', Int.log_natCast]
      have := le_max_left ((Nat.log 2 m : ℤ) + e) f.emin
      omega
    exact ⟨(f.scale (m * 2 ^ e) - e - 2).toNat, by omega⟩
  have hunits : ∀ x : ℚ, x * 2 ^ e * 2 ^ (-f.scale (m * 2 ^ e)) = x / 2 ^ (s + 2) := fun x => by
    rw [mul_assoc, ← zpow_add₀ two_ne_zero,
      show e + -f.scale (m * 2 ^ e) = -((s + 2 : ℕ) : ℤ) by omega, zpow_neg, zpow_natCast,
      div_eq_mul_inv]
  refine round_congr (by positivity) (by positivity) hlog' ?_
  rw [units, units, hscale, hunits, hunits]
  exact h.sameHalves s

/-! ### Rounding a multiple instead -/

def least (f : Format) : ℚ := 2 ^ (f.emin - f.fraction)

theorem least_pos (f : Format) : 0 < f.least := by
  unfold least
  positivity

/-- A number this small is rounded without a look at its size. -/
def Vanishes (f : Format) (mode : Mode) (y : ℚ) : Prop :=
  match mode with
  | .nearestEven => y ≤ f.least / 2
  | _ => y < f.least

theorem Vanishes.lt_least (h : f.Vanishes mode y) : y < f.least := by
  have := f.least_pos
  cases mode with
  | nearestEven => exact lt_of_le_of_lt h (by linarith)
  | up => exact h
  | down => exact h
  | truncate => exact h

theorem Vanishes.mono (h : f.Vanishes mode y) (hz : z ≤ y) : f.Vanishes mode z := by
  cases mode with
  | nearestEven => exact hz.trans h
  | up => exact lt_of_le_of_lt hz h
  | down => exact lt_of_le_of_lt hz h
  | truncate => exact lt_of_le_of_lt hz h

theorem scale_of_lt_least (hy : 0 < y) (hlt : y < f.least) : f.scale y = f.emin - f.fraction := by
  have hlog : Int.log 2 y < f.emin - f.fraction := (lt_two_zpow_iff hy).mp hlt
  rw [scale, abs_of_pos hy, max_eq_right (by omega)]

theorem units_of_lt_least (hy : 0 < y) (hlt : y < f.least) : f.units y = y / f.least := by
  rw [units, scale_of_lt_least hy hlt, zpow_neg, ← div_eq_mul_inv]
  rfl

theorem floor_units_of_lt_least (hy : 0 < y) (hlt : y < f.least) : ⌊f.units y⌋₊ = 0 := by
  rw [Nat.floor_eq_zero, units_of_lt_least hy hlt, div_lt_one f.least_pos]
  exact hlt

theorem magnitude_of_lt_least (hy : 0 < y) (hlt : y < f.least) :
    f.magnitude mode sign y = if mode.Increments sign (f.units y) then f.least else 0 := by
  rw [magnitude, Mode.roundMagnitude, floor_units_of_lt_least hy hlt, scale_of_lt_least hy hlt]
  split_ifs <;> simp [least]

theorem inexact_of_lt_least (hy : 0 < y) (hlt : y < f.least) :
    f.Inexact mode (signed sign y) := by
  refine (inexact_signed hy).mpr (.inl ?_)
  rw [floor_units_of_lt_least hy hlt, units_of_lt_least hy hlt, Nat.cast_zero]
  exact (div_pos hy f.least_pos).ne'

theorem magnitude_bounds (hle : f.least ≤ y) :
    y / 2 ≤ f.magnitude mode sign y ∧ f.magnitude mode sign y ≤ 2 * y := by
  have hy : 0 < y := lt_of_lt_of_le f.least_pos hle
  have hunit : (0 : ℚ) < 2 ^ f.scale y := by positivity
  have hscale : (2 : ℚ) ^ f.scale y ≤ y := by
    rw [scale, abs_of_pos hy]
    rcases le_total f.emin (Int.log 2 y) with hnormal | hsubnormal
    · rw [max_eq_left hnormal, two_zpow_le_iff hy]
      omega
    · rw [max_eq_right hsubnormal]
      exact hle
  have hone : 1 ≤ f.units y :=
    (le_mul_iff_one_le_left hunit).mp ((f.units_mul_zpow y).symm ▸ hscale)
  have hlo := Nat.floor_le (f.units_nonneg hy.le)
  have hhi := Nat.lt_floor_add_one (f.units y)
  have hfloor : (1 : ℚ) ≤ ⌊f.units y⌋₊ := by
    exact_mod_cast Nat.le_floor (by exact_mod_cast hone)
  have hn : f.units y / 2 ≤ mode.roundMagnitude sign (f.units y) ∧
      (mode.roundMagnitude sign (f.units y) : ℚ) ≤ 2 * f.units y := by
    rw [Mode.roundMagnitude]
    split_ifs <;> push_cast <;> constructor <;> linarith
  have hy' := f.units_mul_zpow y
  unfold magnitude
  constructor
  · calc y / 2 = f.units y / 2 * 2 ^ f.scale y := by rw [div_mul_eq_mul_div, hy']
      _ ≤ _ := mul_le_mul_of_nonneg_right hn.1 hunit.le
  · calc _ ≤ 2 * f.units y * 2 ^ f.scale y := mul_le_mul_of_nonneg_right hn.2 hunit.le
      _ = 2 * y := by rw [mul_assoc, hy']

theorem two_zpow_emax_le_maxFinite (f : Format) : (2 : ℚ) ^ f.emax ≤ f.maxFinite := by
  have hone : (1 : ℚ) ≤ 2 ^ f.fraction := one_le_pow₀ one_le_two
  have hunit : (0 : ℚ) < 2 ^ (f.emax - f.fraction) := by positivity
  calc (2 : ℚ) ^ f.emax = 2 ^ f.fraction * 2 ^ (f.emax - f.fraction) := by
        rw [← zpow_natCast, ← zpow_add₀ two_ne_zero, add_sub_cancel]
    _ ≤ f.maxFinite := by
        rw [maxFinite, pow_succ]
        exact mul_le_mul_of_nonneg_right (by linarith) hunit.le

theorem least_lt_two_zpow_emax (f : Format) : f.least < 2 ^ f.emax :=
  zpow_lt_zpow_right₀ one_lt_two (by have := f.fraction_pos; have := f.emin_le_emax; omega)

theorem bounded_ne_of_lt {a b : ℚ} (ha : a < 2 ^ f.emax) (hab : a < b) :
    f.bounded mode sign b ≠ f.bounded mode sign a := by
  have hrange : a < 2 ^ (f.emax + 1) :=
    ha.trans (zpow_lt_zpow_right₀ one_lt_two (lt_add_one _))
  rw [bounded, bounded, if_pos hrange]
  split_ifs
  · simp [hab.ne']
  · simp
  · simp [(ha.trans_le f.two_zpow_emax_le_maxFinite).ne']

/-- A tiny number and a tiny multiple of it are rounded alike. -/
theorem round_eq_of_vanishes (hy : 0 < y) (hz : 0 < z) (hyv : f.Vanishes mode y)
    (hzv : f.Vanishes mode z) : f.round mode (signed sign y) = f.round mode (signed sign z) := by
  have hpos := f.least_pos
  have hincr : mode.Increments sign (f.units y) ↔ mode.Increments sign (f.units z) := by
    simp only [units_of_lt_least hy hyv.lt_least, units_of_lt_least hz hzv.lt_least]
    have hfloor : ∀ {x : ℚ}, x < f.least → ⌊x / f.least⌋₊ = 0 := fun hx => by
      rw [Nat.floor_eq_zero, div_lt_one hpos]
      exact hx
    have hfy := hfloor hyv.lt_least
    have hfz := hfloor hzv.lt_least
    have hny := (div_pos hy hpos).ne'
    have hnz := (div_pos hz hpos).ne'
    cases mode with
    | nearestEven =>
        have hhalf : ∀ {x : ℚ}, x ≤ f.least / 2 → ¬1 / 2 < x / f.least := fun hx => by
          rw [not_lt, div_le_iff₀ hpos]
          linarith
        have hyh := hhalf hyv
        have hzh := hhalf hzv
        simp only [Mode.Increments, hfy, hfz, Nat.cast_zero, sub_zero, hyh, hzh]
        simp
    | up => simp [Mode.Increments, hfy, hfz, hny, hnz]
    | down => simp [Mode.Increments, hfy, hfz, hny, hnz]
    | truncate => exact Iff.rfl
  rw [round_signed hy, round_signed hz, magnitude_of_lt_least hy hyv.lt_least,
    magnitude_of_lt_least hz hzv.lt_least]
  simp only [hincr]

theorem le_magnitude_of_directed
    (hmode : mode = .up ∧ sign = false ∨ mode = .down ∧ sign = true) :
    y ≤ f.magnitude mode sign y := by
  have hunit : (0 : ℚ) < 2 ^ f.scale y := by positivity
  have hhi := Nat.lt_floor_add_one (f.units y)
  have hround : f.units y ≤ mode.roundMagnitude sign (f.units y) := by
    have hincr : mode.Increments sign (f.units y) ↔ f.units y ≠ ⌊f.units y⌋₊ := by
      rcases hmode with ⟨rfl, rfl⟩ | ⟨rfl, rfl⟩ <;> simp [Mode.Increments]
    rw [Mode.roundMagnitude]
    split_ifs with h
    · push_cast
      exact hhi.le
    · rw [hincr, not_not] at h
      rw [Nat.add_zero, ← h]
  calc y = f.units y * 2 ^ f.scale y := (f.units_mul_zpow y).symm
    _ ≤ f.magnitude mode sign y := mul_le_mul_of_nonneg_right hround hunit.le

theorem not_inexact_least (f : Format) (mode : Mode) (sign : Bool) :
    ¬f.Inexact mode (signed sign f.least) := by
  have hlog : Int.log 2 f.least = f.emin - f.fraction :=
    log_two_eq le_rfl (zpow_lt_zpow_right₀ one_lt_two (lt_add_one _))
  have hscale : f.scale f.least = f.emin - f.fraction := by
    rw [scale, abs_of_pos f.least_pos, hlog, max_eq_right (by omega)]
  have hunits : f.units f.least = ((1 : ℕ) : ℚ) := by
    rw [units, hscale, least, ← zpow_add₀ two_ne_zero, add_neg_cancel, zpow_zero, Nat.cast_one]
  have hwhole : f.units f.least = ⌊f.units f.least⌋₊ := by rw [hunits, Nat.floor_natCast]
  rw [inexact_signed f.least_pos, not_or, not_not, not_le, magnitude_eq_self_iff.mpr hwhole]
  exact ⟨hwhole, f.least_lt_two_zpow_emax.trans (zpow_lt_zpow_right₀ one_lt_two (lt_add_one _))⟩

/-- Numbers a factor of eight apart round alike only if they vanish. -/
theorem vanishes_of_round_eq (hy : 0 < y) (hyz : 8 * y ≤ z) (hmax : y < 2 ^ (f.emax - 1))
    (hround : f.round mode (signed sign z) = f.round mode (signed sign y))
    (hinexact : f.Inexact mode (signed sign z) ↔ f.Inexact mode (signed sign y)) :
    f.Vanishes mode z := by
  have hz : 0 < z := by linarith
  have hpos := f.least_pos
  have hmax' : 2 * y < 2 ^ f.emax := by
    rw [zpow_sub_one₀ two_ne_zero] at hmax
    linarith
  rw [round_signed hz, round_signed hy] at hround
  have hnotlt : f.magnitude mode sign y < 2 ^ f.emax →
      ¬f.magnitude mode sign y < f.magnitude mode sign z :=
    fun hy' hlt => bounded_ne_of_lt hy' hlt hround
  rcases le_or_gt f.least y with hle | hlt
  · -- Neither is tiny: the magnitudes are too far apart.
    have hyb : f.magnitude mode sign y ≤ 2 * y := (magnitude_bounds hle).2
    have hzb : z / 2 ≤ f.magnitude mode sign z := (magnitude_bounds (by linarith)).1
    exact (hnotlt (by linarith) (by linarith)).elim
  · have hymag : f.magnitude mode sign y = _ := magnitude_of_lt_least hy hlt
    by_cases hincr : mode.Increments sign (f.units y)
    · rw [hymag, if_pos hincr] at hnotlt
      have hzmag := not_lt.mp (hnotlt f.least_lt_two_zpow_emax)
      rcases lt_or_ge z f.least with hzlt | hzle
      · -- A tiny number that is rounded up to nearest has no tiny multiple.
        cases mode with
        | nearestEven =>
            have := Mode.half_le_of_increments_nearestEven hincr
            rw [units_of_lt_least hy hlt, le_div_iff₀ hpos] at this
            linarith
        | up => exact hzlt
        | down => exact hzlt
        | truncate => exact hzlt
      · have hzb : z / 2 ≤ f.magnitude mode sign z := (magnitude_bounds hzle).1
        have hdirected : z ≤ f.magnitude mode sign z := by
          cases mode with
          | nearestEven =>
              have := Mode.half_le_of_increments_nearestEven hincr
              rw [units_of_lt_least hy hlt, le_div_iff₀ hpos] at this
              linarith
          | up => exact le_magnitude_of_directed (.inl ⟨rfl, hincr.1⟩)
          | down => exact le_magnitude_of_directed (.inr ⟨rfl, hincr.1⟩)
          | truncate => exact hincr.elim
        obtain rfl : z = f.least := le_antisymm (hdirected.trans hzmag) hzle
        exact (f.not_inexact_least mode sign (hinexact.mpr (inexact_of_lt_least hy hlt))).elim
    · rw [hymag, if_neg hincr] at hnotlt
      have hzmag := not_lt.mp (hnotlt (by positivity))
      rcases lt_or_ge z f.least with hzlt | hzle
      · cases mode with
        | nearestEven =>
            rw [magnitude_of_lt_least hz hzlt] at hzmag
            have hzincr : ¬Mode.nearestEven.Increments sign (f.units z) := fun h => by
              rw [if_pos h] at hzmag
              linarith
            have := Mode.le_half_of_not_increments_nearestEven hzincr (floor_units_of_lt_least hz hzlt)
            rw [units_of_lt_least hz hzlt, div_le_iff₀ hpos] at this
            exact this.trans (by linarith)
        | up => exact hzlt
        | down => exact hzlt
        | truncate => exact hzlt
      · have hzb : z / 2 ≤ f.magnitude mode sign z := (magnitude_bounds hzle).1
        linarith

theorem round_multiple_ne (hy : 0 < y) (hyz : 8 * y ≤ z) (hmax : y < 2 ^ (f.emax - 1))
    (hz : 2 * f.least < z) : f.round mode (signed sign z) ≠ f.round mode (signed sign y) := by
  have hpos := f.least_pos
  have hmax' : 2 * y < 2 ^ f.emax := by
    rw [zpow_sub_one₀ two_ne_zero] at hmax
    linarith
  have hzb : z / 2 ≤ f.magnitude mode sign z := (magnitude_bounds (by linarith)).1
  rw [round_signed (by linarith), round_signed hy]
  rcases le_or_gt f.least y with hle | hlt
  · have hyb : f.magnitude mode sign y ≤ 2 * y := (magnitude_bounds hle).2
    exact bounded_ne_of_lt (by linarith) (by linarith)
  · have hyb : f.magnitude mode sign y ≤ f.least := by
      rw [magnitude_of_lt_least hy hlt]
      split_ifs
      · exact le_rfl
      · exact hpos.le
    exact bounded_ne_of_lt (hyb.trans_lt f.least_lt_two_zpow_emax) (by linarith)

theorem round_multiple_iff (hy : 0 < y) (hyz : 8 * y ≤ z) (hmax : y < 2 ^ (f.emax - 1)) :
    (f.round mode (signed sign z) = f.round mode (signed sign y) ∧
      (f.Inexact mode (signed sign z) ↔ f.Inexact mode (signed sign y))) ↔ f.Vanishes mode z := by
  have hz : 0 < z := by linarith
  constructor
  · rintro ⟨hround, hinexact⟩
    exact vanishes_of_round_eq hy hyz hmax hround hinexact
  · intro hzv
    have hyv : f.Vanishes mode y := hzv.mono (by linarith)
    exact ⟨round_eq_of_vanishes hz hy hzv hyv,
      iff_of_true (inexact_of_lt_least hz hzv.lt_least) (inexact_of_lt_least hy hyv.lt_least)⟩

end Format

end Umbra.Lib
