import Umbra.Lib.FloatFormat

/-!
Rounding to a binary format in any faithful way.

All that is asked of a way to round is that it takes a number to one of the two
integers around it.  The number of units in the last place is rounded in that
way; what exceeds the largest number of the format becomes an infinity or that
number, as the way to round has it.  A number that has been rounded to odd in a
finer format is rounded as if it had not.
-/

namespace Umbra.Lib

/-- A way to round numbers, each to one of the two integers around it. -/
structure Rounding where
  toInteger : ℚ → ℤ
  overflowsToInfinity : Bool → Bool
  floor_or_ceil : ∀ x, toInteger x = ⌊x⌋ ∨ toInteger x = ⌈x⌉

namespace Rounding

variable {r : Rounding} {sign : Bool} {y : ℚ}

def roundMagnitude (r : Rounding) (sign : Bool) (y : ℚ) : ℕ := (r.toInteger (signed sign y)).natAbs

theorem roundMagnitude_eq (r : Rounding) (sign : Bool) (hy : 0 ≤ y) :
    (r.roundMagnitude sign y : ℤ) = ⌊y⌋ ∨ (r.roundMagnitude sign y : ℤ) = ⌈y⌉ := by
  have hfloor : 0 ≤ ⌊y⌋ := Int.floor_nonneg.mpr hy
  have hceil : 0 ≤ ⌈y⌉ := Int.ceil_nonneg hy
  unfold roundMagnitude
  cases sign with
  | false =>
      have hcases : r.toInteger y = ⌊y⌋ ∨ r.toInteger y = ⌈y⌉ := r.floor_or_ceil y
      simp only [signed, Bool.false_eq_true, ↓reduceIte]
      omega
  | true =>
      have hcases := r.floor_or_ceil (-y)
      rw [Int.floor_neg, Int.ceil_neg] at hcases
      simp only [signed, ↓reduceIte]
      omega

theorem toInteger_signed (r : Rounding) (sign : Bool) (hy : 0 ≤ y) :
    (r.toInteger (signed sign y) : ℚ) = signed sign (r.roundMagnitude sign y) := by
  have hfloor : 0 ≤ ⌊y⌋ := Int.floor_nonneg.mpr hy
  have hceil : 0 ≤ ⌈y⌉ := Int.ceil_nonneg hy
  unfold roundMagnitude
  cases sign with
  | false =>
      have hcases : r.toInteger y = ⌊y⌋ ∨ r.toInteger y = ⌈y⌉ := r.floor_or_ceil y
      have habs : r.toInteger y = ((r.toInteger y).natAbs : ℤ) := by omega
      simp only [signed, Bool.false_eq_true, ↓reduceIte]
      nth_rewrite 1 [habs]
      exact Int.cast_natCast _
  | true =>
      have hcases := r.floor_or_ceil (-y)
      rw [Int.floor_neg, Int.ceil_neg] at hcases
      have habs : r.toInteger (-y) = -((r.toInteger (-y)).natAbs : ℤ) := by omega
      simp only [signed, ↓reduceIte]
      nth_rewrite 1 [habs]
      rw [Int.cast_neg, Int.cast_natCast]

theorem roundMagnitude_bounds (r : Rounding) (sign : Bool) (hy : 0 ≤ y) :
    ⌊y⌋₊ ≤ r.roundMagnitude sign y ∧ r.roundMagnitude sign y ≤ ⌊y⌋₊ + 1 := by
  have hfloor := Mode.floor_eq_natFloor hy
  have hceil := Mode.ceil_eq_natFloor hy
  have hcases := r.roundMagnitude_eq sign hy
  split at hceil <;> omega

theorem roundMagnitude_eq_self_iff (r : Rounding) (sign : Bool) (hy : 0 ≤ y) :
    (r.roundMagnitude sign y : ℚ) = y ↔ y = ⌊y⌋₊ := by
  constructor
  · intro h
    rw [← h, Nat.floor_natCast]
  · intro h
    have hceil := Mode.ceil_eq_natFloor hy
    rw [if_neg (not_not.mpr h), add_zero] at hceil
    have hcases := r.roundMagnitude_eq sign hy
    rw [hceil, Mode.floor_eq_natFloor hy, or_self, Nat.cast_inj] at hcases
    rw [hcases, ← h]

/-- Rounding to odd: a number that is no integer becomes the odd one of its neighbours, and one
that is too large the largest of the format. -/
structure IsOdd (r : Rounding) : Prop where
  rounds : ∀ (sign : Bool) {y : ℚ}, 0 ≤ y → RoundsToOdd y (r.roundMagnitude sign y)
  saturates : ∀ sign, r.overflowsToInfinity sign = false

end Rounding

def Mode.rounding (mode : Mode) : Rounding where
  toInteger := mode.apply
  overflowsToInfinity := mode.overflowsToInfinity
  floor_or_ceil x := by
    have hceil : ⌈x⌉ = ⌊x⌋ ∨ ⌈x⌉ = ⌊x⌋ + 1 := by
      have hlo := Int.floor_le_ceil x
      have hhi := Int.ceil_le_floor_add_one x
      omega
    cases mode with
    | nearestEven =>
        have hfract : Int.fract x ≠ 0 → ⌈x⌉ = ⌊x⌋ + 1 := fun hne => by
          refine hceil.resolve_left fun heq => hne ?_
          have hle := Int.le_ceil x
          rw [heq] at hle
          exact le_antisymm (sub_nonpos.mpr hle) (Int.fract_nonneg x)
        simp only [apply]
        split_ifs with hlt hgt heven
        · exact .inl rfl
        · exact .inr (hfract (by linarith)).symm
        · exact .inl rfl
        · exact .inr (hfract (by linarith)).symm
    | up => exact .inr rfl
    | down => exact .inl rfl
    | truncate =>
        simp only [apply]
        split_ifs
        · exact .inl rfl
        · exact .inr rfl

namespace Format

variable (f : Format) (r : Rounding)

/-- The number rounded to the precision of the format, as if there were no greatest
exponent. -/
def roundUnboundedBy (x : ℚ) : ℚ := r.toInteger (x * 2 ^ (-f.scale x)) * 2 ^ f.scale x

def OverflowsBy (x : ℚ) : Prop := f.maxFinite < |f.roundUnboundedBy r x|

instance (x : ℚ) : Decidable (f.OverflowsBy r x) := inferInstanceAs (Decidable (_ < _))

def roundBy (x : ℚ) : Datum :=
  let sign := decide (x < 0)
  if f.OverflowsBy r x then
    if r.overflowsToInfinity sign then .infinity sign else .finite sign f.maxFinite
  else .finite sign |f.roundUnboundedBy r x|

def InexactBy (x : ℚ) : Prop := (f.roundBy r x).toRat ≠ some x

variable {f r} {sign : Bool} {y : ℚ}

def magnitudeBy (f : Format) (r : Rounding) (sign : Bool) (y : ℚ) : ℚ :=
  r.roundMagnitude sign (f.units y) * 2 ^ f.scale y

theorem magnitudeBy_nonneg (f : Format) (r : Rounding) (sign : Bool) (y : ℚ) :
    0 ≤ f.magnitudeBy r sign y :=
  mul_nonneg (Nat.cast_nonneg _) (by positivity)

theorem roundUnboundedBy_signed (hy : 0 ≤ y) :
    f.roundUnboundedBy r (signed sign y) = signed sign (f.magnitudeBy r sign y) := by
  rw [roundUnboundedBy, scale_signed, signed_mul,
    show y * 2 ^ (-f.scale y) = f.units y from rfl,
    r.toInteger_signed sign (f.units_nonneg hy), signed_mul]
  rfl

theorem abs_roundUnboundedBy_signed (hy : 0 ≤ y) :
    |f.roundUnboundedBy r (signed sign y)| = f.magnitudeBy r sign y := by
  rw [roundUnboundedBy_signed hy, abs_signed, abs_of_nonneg (f.magnitudeBy_nonneg r sign y)]

theorem units_lt (hy : 0 < y) : f.units y < 2 ^ (f.fraction + 1) := by
  have hpos : 0 < f.units y := by
    unfold units
    positivity
  have hle := le_max_left (Int.log 2 y) f.emin
  rw [← zpow_natCast, lt_two_zpow_iff hpos, units, log_two_mul_zpow hy, scale, abs_of_pos hy]
  push_cast
  omega

/-- No rounded number lies between the largest of the format and the next power of two. -/
theorem maxFinite_lt_magnitudeBy_iff (hy : 0 < y) :
    f.maxFinite < f.magnitudeBy r sign y ↔ 2 ^ (f.emax + 1) ≤ f.magnitudeBy r sign y := by
  refine ⟨fun h => ?_, fun h => f.maxFinite_lt.trans_le h⟩
  have hunit : (0 : ℚ) < 2 ^ (f.emax - f.fraction) := by positivity
  have hsplit : (2 : ℚ) ^ (f.emax + 1) = 2 ^ (f.fraction + 1) * 2 ^ (f.emax - f.fraction) := by
    rw [← zpow_natCast, ← zpow_add₀ two_ne_zero]
    congr 1
    push_cast
    ring
  rcases le_or_gt (f.emax - f.fraction) (f.scale y) with hge | hlt
  · -- The magnitude is a whole number of units of the greatest exponent.
    obtain ⟨k, hk⟩ := Int.eq_ofNat_of_zero_le (sub_nonneg.mpr hge)
    have hscale : (2 : ℚ) ^ f.scale y = 2 ^ k * 2 ^ (f.emax - f.fraction) := by
      rw [← zpow_natCast, ← zpow_add₀ two_ne_zero]
      congr 1
      omega
    rw [magnitudeBy, hscale, ← mul_assoc] at h ⊢
    rw [maxFinite, mul_lt_mul_iff_left₀ hunit] at h
    rw [hsplit]
    refine mul_le_mul_of_nonneg_right ?_ hunit.le
    have hone : 1 ≤ 2 ^ (f.fraction + 1) := Nat.one_le_two_pow
    have hcast : ((2 ^ (f.fraction + 1) - 1 : ℕ) : ℚ) <
        ((r.roundMagnitude sign (f.units y) * 2 ^ k : ℕ) : ℚ) := by
      push_cast [hone]
      exact h
    have hle : 2 ^ (f.fraction + 1) ≤ r.roundMagnitude sign (f.units y) * 2 ^ k := by
      have := Nat.cast_lt.mp hcast
      omega
    exact_mod_cast hle
  · -- The magnitude is at most the greatest power of two.
    have hunits := units_lt (f := f) hy
    have hfloor : ⌊f.units y⌋₊ < 2 ^ (f.fraction + 1) := by
      rw [Nat.floor_lt (f.units_nonneg hy.le)]
      exact_mod_cast hunits
    have hround : r.roundMagnitude sign (f.units y) ≤ 2 ^ (f.fraction + 1) := by
      have := (r.roundMagnitude_bounds sign (f.units_nonneg hy.le)).2
      omega
    have hround' : (r.roundMagnitude sign (f.units y) : ℚ) ≤ 2 ^ (f.fraction + 1) := by
      exact_mod_cast hround
    have hle : f.magnitudeBy r sign y ≤ 2 ^ f.emax := by
      calc f.magnitudeBy r sign y ≤ 2 ^ (f.fraction + 1) * 2 ^ f.scale y :=
            mul_le_mul_of_nonneg_right hround' (by positivity)
        _ = 2 ^ (f.fraction + 1 + f.scale y) := by
            rw [← zpow_natCast, ← zpow_add₀ two_ne_zero]
            push_cast
            rfl
        _ ≤ 2 ^ f.emax := zpow_le_zpow_right₀ one_le_two (by omega)
    exact absurd (h.trans_le hle) (not_lt.mpr f.two_zpow_emax_le_maxFinite)

theorem overflowsBy_signed (hy : 0 < y) :
    f.OverflowsBy r (signed sign y) ↔ 2 ^ (f.emax + 1) ≤ f.magnitudeBy r sign y := by
  rw [OverflowsBy, abs_roundUnboundedBy_signed hy.le, maxFinite_lt_magnitudeBy_iff hy]

theorem roundBy_signed (hy : 0 < y) :
    f.roundBy r (signed sign y) =
      if 2 ^ (f.emax + 1) ≤ f.magnitudeBy r sign y then
        if r.overflowsToInfinity sign then .infinity sign else .finite sign f.maxFinite
      else .finite sign (f.magnitudeBy r sign y) := by
  simp only [roundBy, overflowsBy_signed hy, signed_lt_zero hy, abs_roundUnboundedBy_signed hy.le]

theorem magnitudeBy_eq_self_iff (hy : 0 ≤ y) :
    f.magnitudeBy r sign y = y ↔ f.units y = ⌊f.units y⌋₊ := by
  have hpos : (2 : ℚ) ^ f.scale y ≠ 0 := by positivity
  rw [← r.roundMagnitude_eq_self_iff sign (f.units_nonneg hy)]
  nth_rewrite 2 [← f.units_mul_zpow y]
  rw [magnitudeBy, mul_left_inj' hpos]

theorem inexactBy_signed (hy : 0 < y) :
    f.InexactBy r (signed sign y) ↔
      f.units y ≠ ⌊f.units y⌋₊ ∨ 2 ^ (f.emax + 1) ≤ f.magnitudeBy r sign y := by
  have hinj : ∀ a b : ℚ, signed sign a = signed sign b ↔ a = b := fun a b => by
    cases sign <;> simp [signed]
  rw [InexactBy, roundBy_signed hy]
  split_ifs with hlarge hinfinity
  · exact iff_of_true (by simp [Datum.toRat]) (.inr hlarge)
  · refine iff_of_true ?_ (.inr hlarge)
    rw [Datum.toRat, ne_eq, Option.some.injEq, hinj]
    rintro rfl
    rw [(magnitudeBy_eq_self_iff hy.le).mpr f.units_maxFinite] at hlarge
    exact absurd f.maxFinite_lt (not_lt.mpr hlarge)
  · rw [Datum.toRat, ne_eq, Option.some.injEq, hinj, magnitudeBy_eq_self_iff hy.le,
      or_iff_left hlarge]

theorem round_eq_roundBy (mode : Mode) (x : ℚ) (hx : x ≠ 0) :
    f.round mode x = f.roundBy mode.rounding x := by
  have hpos : 0 < |x| := abs_pos.mpr hx
  have hmagnitude : f.roundUnbounded mode x = f.roundUnboundedBy mode.rounding x := rfl
  rw [eq_signed_abs x, round, roundBy]
  simp only [overflowsBy_signed hpos, ← abs_roundUnboundedBy_signed hpos.le]
  rw [← eq_signed_abs x, hmagnitude]
  simp only [← not_lt, ite_not]
  rfl

/-! ### Rounding to odd first -/

section Finer

variable {g : Format} {mode : Mode}

/-- The second format has two more bits of precision than the first, and a wider range. -/
structure Finer (f g : Format) : Prop where
  fraction_le : f.fraction + 2 ≤ g.fraction
  emin_le : g.emin - g.fraction + (f.fraction + 2) ≤ f.emin - f.fraction - 1
  emax_le : f.emax + 2 ≤ g.emax

theorem round_of_large (hy : 2 ^ (f.emax + 2) ≤ y) :
    f.round mode (signed sign y) =
      if mode.overflowsToInfinity sign then .infinity sign else .finite sign f.maxFinite := by
  have hpos : 0 < y := lt_of_lt_of_le (by positivity) hy
  have hleast : f.least ≤ y :=
    (f.least_lt_two_zpow_emax.le.trans (zpow_le_zpow_right₀ one_le_two (by omega))).trans hy
  have hdouble : (2 : ℚ) ^ (f.emax + 2) = 2 ^ (f.emax + 1) * 2 := by
    rw [← zpow_add_one₀ two_ne_zero, add_assoc, one_add_one_eq_two]
  have hbound := (@magnitude_bounds f mode sign y hleast).1
  rw [round_signed hpos, bounded, if_neg (not_lt.mpr (by linarith))]

theorem two_zpow_emax_le_of_overflow (hr : r.IsOdd) (hy : 0 < y)
    (h : 2 ^ (g.emax + 1) ≤ g.magnitudeBy r sign y) : 2 ^ g.emax ≤ y := by
  refine le_of_not_gt fun hlt => not_lt.mpr h ?_
  have hscale : g.scale y ≤ g.emax - g.fraction := by
    have hlog := (lt_two_zpow_iff hy).mp hlt
    have hrange := g.emin_le_emax
    rw [scale, abs_of_pos hy]
    omega
  have hround : r.roundMagnitude sign (g.units y) < 2 ^ (g.fraction + 1) := by
    rw [(hr.rounds sign (g.units_nonneg hy.le)).lt_iff (even_two_pow (by omega))]
    exact_mod_cast units_lt hy
  calc g.magnitudeBy r sign y < 2 ^ (g.fraction + 1) * 2 ^ g.scale y :=
        mul_lt_mul_of_pos_right (by exact_mod_cast hround) (by positivity)
    _ ≤ 2 ^ (g.fraction + 1) * 2 ^ (g.emax - g.fraction) := by gcongr; exact one_le_two
    _ = 2 ^ (g.emax + 1) := by
        rw [← zpow_natCast, zpow_mul_two_zpow]
        congr 1
        push_cast
        ring

/-- What is less than half the smallest number vanishes in every mode. -/
theorem vanishes_of_lt_half (h : y < f.least / 2) : f.Vanishes mode y := by
  have hlt : y < f.least := h.trans (half_lt_self f.least_pos)
  cases mode with
  | nearestEven => exact h.le
  | up => exact hlt
  | down => exact hlt
  | truncate => exact hlt

/-- Only below its normal numbers has the finer format fewer bits than the other one needs. -/
theorem Finer.scale_eq (h : f.Finer g) (hy : 0 < y) (hunits : g.units y < 2 ^ (f.fraction + 2)) :
    g.scale y = g.emin - g.fraction := by
  have hpos : 0 < g.units y := mul_pos hy (by positivity)
  have hfraction := h.fraction_le
  rw [← zpow_natCast, lt_two_zpow_iff hpos, units, log_two_mul_zpow hy, scale,
    abs_of_pos hy] at hunits
  rw [scale, abs_of_pos hy]
  push_cast at hunits
  omega

theorem Finer.vanishes (h : f.Finer g) {t : ℚ} (ht : t < 2 ^ (f.fraction + 2)) :
    f.Vanishes mode (t * 2 ^ (g.emin - g.fraction)) := by
  refine vanishes_of_lt_half ?_
  calc t * 2 ^ (g.emin - g.fraction)
      < 2 ^ (f.fraction + 2) * 2 ^ (g.emin - g.fraction) := by gcongr
    _ = 2 ^ (g.emin - g.fraction + (f.fraction + 2)) := by
        rw [← zpow_natCast, zpow_mul_two_zpow, add_comm]
        push_cast
        rfl
    _ ≤ 2 ^ (f.emin - f.fraction - 1) := zpow_le_zpow_right₀ one_le_two h.emin_le
    _ = f.least / 2 := by rw [zpow_sub_one₀ two_ne_zero, least, div_eq_mul_inv]

/-- Rounding to odd in a finer format first does not change what a number is rounded to. -/
theorem Finer.round_roundBy (h : f.Finer g) (hr : r.IsOdd) (mode : Mode) (sign : Bool)
    (hy : 0 < y) :
    ∃ w, 0 < w ∧ g.roundBy r (signed sign y) = .finite sign w ∧
      f.round mode (signed sign w) = f.round mode (signed sign y) := by
  have hunits : 0 < g.units y := mul_pos hy (by positivity)
  have hrounds := hr.rounds sign hunits.le
  have hpos : 0 < r.roundMagnitude sign (g.units y) := by
    refine Nat.pos_of_ne_zero fun hzero => ?_
    rw [hzero] at hrounds
    exact hunits.ne (hrounds.eq_of_even (by decide))
  have hpos' : 0 < g.magnitudeBy r sign y := mul_pos (Nat.cast_pos.mpr hpos) (by positivity)
  rw [roundBy_signed hy, hr.saturates, if_neg Bool.false_ne_true]
  split_ifs with hlarge
  · -- Both numbers are too large for the other format.
    have hemax := zpow_le_zpow_right₀ (one_le_two (α := ℚ)) h.emax_le
    have hmax := g.two_zpow_emax_le_maxFinite
    refine ⟨g.maxFinite, lt_of_lt_of_le (by positivity) hmax, rfl, ?_⟩
    rw [round_of_large (hemax.trans hmax),
      round_of_large (hemax.trans (two_zpow_emax_le_of_overflow hr hy hlarge))]
  · refine ⟨_, hpos', rfl, ?_⟩
    rcases le_or_gt (2 ^ (f.fraction + 2)) (r.roundMagnitude sign (g.units y)) with hle | hlt
    · rw [magnitudeBy, ← (f.round_roundsToOdd mode sign hrounds hle _).round_eq, units_mul_zpow]
    · have hfew : g.units y < 2 ^ (f.fraction + 2) := by
        exact_mod_cast (hrounds.lt_iff (even_two_pow (by omega))).mp hlt
      have hscale := h.scale_eq hy hfew
      refine round_eq_of_vanishes hpos' hy ?_ ?_
      · rw [magnitudeBy, hscale]
        exact h.vanishes (by exact_mod_cast hlt)
      · rw [← g.units_mul_zpow y, hscale]
        exact h.vanishes hfew

end Finer

end Format

end Umbra.Lib
