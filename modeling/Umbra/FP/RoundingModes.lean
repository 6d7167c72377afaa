import Umbra.FP.Info
import Umbra.Lib.FaithfulRounding

/-!
What the rounding modes do to a number.

A number is rounded to the integer below it or to the one above; the modes differ
in when they take the one above, and in what they make of a number beyond the
range of a format.
-/

namespace Umbra.FP

open Umbra.Lib

def RoundingMode.toInteger (rounding : RoundingMode) (x : ℚ) : ℤ :=
  match rounding with
  | .toNearestTieEven => Mode.nearestEven.apply x
  | .towardsPlusInfinity => ⌈x⌉
  | .towardsMinusInfinity => ⌊x⌋
  | .towardsZero => if 0 ≤ x then ⌊x⌋ else ⌈x⌉
  | .toNearestTieAwayFromZero => if 0 ≤ x then ⌊x + 1 / 2⌋ else ⌈x - 1 / 2⌉
  | .toOdd => if Odd ⌊x⌋ then ⌊x⌋ else ⌈x⌉

def RoundingMode.RoundsUp (rounding : RoundingMode) (x : ℚ) : Prop :=
  match rounding with
  | .toNearestTieEven => 1 / 2 < Int.fract x ∨ Int.fract x = 1 / 2 ∧ Odd ⌊x⌋
  | .towardsPlusInfinity => Int.fract x ≠ 0
  | .towardsMinusInfinity => False
  | .towardsZero => Int.fract x ≠ 0 ∧ ¬0 ≤ x
  | .toNearestTieAwayFromZero => 1 / 2 < Int.fract x ∨ Int.fract x = 1 / 2 ∧ 0 ≤ x
  | .toOdd => Int.fract x ≠ 0 ∧ ¬Odd ⌊x⌋

theorem ceil_eq_floor {x : ℚ} (h : Int.fract x = 0) : ⌈x⌉ = ⌊x⌋ := by
  have hx := Int.floor_add_fract x
  rw [h, add_zero] at hx
  rw [← hx, Int.ceil_intCast, Int.floor_intCast]

theorem ceil_eq_floor_add_one {x : ℚ} (h : Int.fract x ≠ 0) : ⌈x⌉ = ⌊x⌋ + 1 := by
  have hpos := lt_of_le_of_ne (Int.fract_nonneg x) (Ne.symm h)
  have hlt := Int.fract_lt_one x
  have hx := Int.floor_add_fract x
  rw [Int.ceil_eq_iff]
  push_cast
  constructor <;> linarith

theorem RoundingMode.RoundsUp.fract_ne_zero {rounding : RoundingMode} {x : ℚ}
    (h : rounding.RoundsUp x) : Int.fract x ≠ 0 := by
  have hhalf : 1 / 2 ≤ Int.fract x → Int.fract x ≠ 0 := fun hle heq => by
    rw [heq] at hle
    norm_num at hle
  cases rounding with
  | toNearestTieEven => exact hhalf (h.elim le_of_lt fun h => ge_of_eq h.1)
  | towardsPlusInfinity => exact h
  | towardsMinusInfinity => exact h.elim
  | towardsZero => exact h.1
  | toNearestTieAwayFromZero => exact hhalf (h.elim le_of_lt fun h => ge_of_eq h.1)
  | toOdd => exact h.1

theorem toInteger_of_roundsUp {rounding : RoundingMode} {x : ℚ} (h : rounding.RoundsUp x) :
    rounding.toInteger x = ⌊x⌋ + 1 := by
  have hlt := Int.fract_lt_one x
  have hx := Int.floor_add_fract x
  cases rounding with
  | toNearestTieEven =>
      change Mode.nearestEven.apply x = _
      rw [Mode.apply]
      rcases h with hgt | ⟨heq, hodd⟩
      · rw [if_neg (by linarith), if_pos hgt]
      · rw [if_neg (by linarith), if_neg (by linarith), if_neg (Int.not_even_iff_odd.mpr hodd)]
  | towardsPlusInfinity => exact ceil_eq_floor_add_one h
  | towardsMinusInfinity => exact h.elim
  | towardsZero => exact (if_neg h.2).trans (ceil_eq_floor_add_one h.1)
  | toNearestTieAwayFromZero =>
      change (if 0 ≤ x then ⌊x + 1 / 2⌋ else ⌈x - 1 / 2⌉) = _
      have hge : 1 / 2 ≤ Int.fract x := h.elim le_of_lt fun h => ge_of_eq h.1
      split
      · rw [Int.floor_eq_iff]
        push_cast
        constructor <;> linarith
      · rename_i hneg
        have hgt : 1 / 2 < Int.fract x := h.resolve_right fun h => hneg h.2
        rw [Int.ceil_eq_iff]
        push_cast
        constructor <;> linarith
  | toOdd => exact (if_neg h.2).trans (ceil_eq_floor_add_one h.1)

theorem toInteger_of_not_roundsUp {rounding : RoundingMode} {x : ℚ} (h : ¬rounding.RoundsUp x) :
    rounding.toInteger x = ⌊x⌋ := by
  have hnonneg := Int.fract_nonneg x
  have hx := Int.floor_add_fract x
  cases rounding with
  | toNearestTieEven =>
      change Mode.nearestEven.apply x = _
      obtain ⟨hle, htie⟩ := not_or.mp h
      rw [Mode.apply]
      split_ifs with hless heven
      · rfl
      · rfl
      · exact absurd ⟨by linarith, Int.not_even_iff_odd.mp heven⟩ htie
  | towardsPlusInfinity => exact ceil_eq_floor (not_not.mp h)
  | towardsMinusInfinity => rfl
  | towardsZero =>
      change (if 0 ≤ x then ⌊x⌋ else ⌈x⌉) = _
      split
      · rfl
      · rename_i hneg
        exact ceil_eq_floor (by_contra fun hne => h ⟨hne, hneg⟩)
  | toNearestTieAwayFromZero =>
      change (if 0 ≤ x then ⌊x + 1 / 2⌋ else ⌈x - 1 / 2⌉) = _
      obtain ⟨hle, htie⟩ := not_or.mp h
      split
      · rename_i hpos
        have hlt : Int.fract x < 1 / 2 :=
          lt_of_le_of_ne (not_lt.mp hle) fun heq => htie ⟨heq, hpos⟩
        rw [Int.floor_eq_iff]
        constructor <;> linarith
      · rw [Int.ceil_eq_iff]
        constructor <;> linarith
  | toOdd =>
      change (if Odd ⌊x⌋ then ⌊x⌋ else ⌈x⌉) = _
      split
      · rfl
      · rename_i hodd
        exact ceil_eq_floor (by_contra fun hne => h ⟨hne, hodd⟩)

theorem toInteger_zero (rounding : RoundingMode) : rounding.toInteger 0 = 0 := by
  rw [toInteger_of_not_roundsUp fun h => h.fract_ne_zero Int.fract_zero, Int.floor_zero]

theorem toInteger_bounds (rounding : RoundingMode) (x : ℚ) :
    ⌊x⌋ ≤ rounding.toInteger x ∧ rounding.toInteger x ≤ ⌊x⌋ + 1 := by
  by_cases hup : rounding.RoundsUp x
  · rw [toInteger_of_roundsUp hup]
    omega
  · rw [toInteger_of_not_roundsUp hup]
    omega

def RoundingMode.overflowsToInfinity (rounding : RoundingMode) (sign : Bool) : Bool :=
  match rounding with
  | .toNearestTieEven => true
  | .towardsPlusInfinity => !sign
  | .towardsMinusInfinity => sign
  | .towardsZero => false
  | .toNearestTieAwayFromZero => true
  | .toOdd => false

def RoundingMode.rounding (rounding : RoundingMode) : Rounding where
  toInteger := rounding.toInteger
  overflowsToInfinity := rounding.overflowsToInfinity
  floor_or_ceil x := by
    by_cases hup : rounding.RoundsUp x
    · rw [toInteger_of_roundsUp hup, ceil_eq_floor_add_one hup.fract_ne_zero]
      exact .inr rfl
    · rw [toInteger_of_not_roundsUp hup]
      exact .inl rfl

/-- The direction in which a mantissa is rounded up.  Rounding to odd rounds nothing up; it
sets the last bit afterwards. -/
def RoundingMode.direction : RoundingMode → Mode
  | .toNearestTieEven => .nearestEven
  | .towardsPlusInfinity => .up
  | .towardsMinusInfinity => .down
  | _ => .truncate

section Magnitude

variable {rounding : RoundingMode} {y : ℚ}

theorem toInteger_eq_apply (hodd : rounding ≠ .toOdd)
    (haway : rounding ≠ .toNearestTieAwayFromZero) (x : ℚ) :
    rounding.toInteger x = rounding.direction.apply x := by
  cases rounding with
  | toNearestTieEven => rfl
  | towardsPlusInfinity => rfl
  | towardsMinusInfinity => rfl
  | towardsZero => rfl
  | toNearestTieAwayFromZero => exact absurd rfl haway
  | toOdd => exact absurd rfl hodd

theorem roundMagnitude_of_ne_odd (hodd : rounding ≠ .toOdd)
    (haway : rounding ≠ .toNearestTieAwayFromZero) (sign : Bool) (hy : 0 ≤ y) :
    rounding.rounding.roundMagnitude sign y = rounding.direction.roundMagnitude sign y := by
  have happly := rounding.direction.apply_signed sign hy
  rw [← toInteger_eq_apply hodd haway] at happly
  change (rounding.toInteger (signed sign y)).natAbs = _
  cases sign with
  | false =>
      have hint : rounding.toInteger (signed false y) =
          (rounding.direction.roundMagnitude false y : ℤ) := by
        simp only [signed, Bool.false_eq_true, ↓reduceIte] at happly ⊢
        exact_mod_cast happly
      rw [hint, Int.natAbs_natCast]
  | true =>
      have hint : rounding.toInteger (signed true y) =
          -(rounding.direction.roundMagnitude true y : ℤ) := by
        simp only [signed, ↓reduceIte] at happly ⊢
        exact_mod_cast happly
      rw [hint, Int.natAbs_neg, Int.natAbs_natCast]

/-- Of the two integers around a number that is none, rounding to odd takes the odd one. -/
theorem roundMagnitude_odd (sign : Bool) (hy : 0 ≤ y) :
    RoundingMode.toOdd.rounding.roundMagnitude sign y =
      if y = ⌊y⌋₊ then ⌊y⌋₊ else ⌊y⌋₊ ||| 1 := by
  by_cases hwhole : y = ⌊y⌋₊
  · have hself := (RoundingMode.toOdd.rounding.roundMagnitude_eq_self_iff sign hy).mpr hwhole
    rw [if_pos hwhole]
    exact_mod_cast hself.trans hwhole
  · have hfloor := Mode.floor_eq_natFloor hy
    have hceil := Mode.ceil_eq_natFloor hy
    rw [if_pos hwhole] at hceil
    rw [if_neg hwhole, or_one_eq]
    cases sign with
    | false =>
        change (if Odd ⌊y⌋ then ⌊y⌋ else ⌈y⌉).natAbs = _
        simp only [Int.odd_iff, hfloor, hceil]
        split_ifs <;> omega
    | true =>
        change (if Odd ⌊-y⌋ then ⌊-y⌋ else ⌈-y⌉).natAbs = _
        simp only [Int.odd_iff, Int.floor_neg, Int.ceil_neg, hfloor, hceil]
        split_ifs <;> omega

end Magnitude

end Umbra.FP
