import Mathlib.Data.Rat.Floor
import Mathlib.Tactic.Positivity

/-!
Rounding to odd.

A number that is not an integer is rounded to odd when it is replaced by
whichever of its two neighbours is odd.  Which side of an even number it lies on
is not changed by that, so a later rounding whose cut points are even decides as
it would have decided on the number itself.  A shift to the right that keeps a
sticky bit rounds to odd, and so do sums and differences with an even number.
-/

namespace Umbra.Lib

/-- The natural number is the rational number rounded to odd. -/
def RoundsToOdd (x : ℚ) (m : ℕ) : Prop :=
  (m : ℚ) = x ∨ Odd m ∧ |x - m| < 1

/-- Shift to the right, and set the lowest bit if a bit was shifted out. -/
def stickyShift (m s : ℕ) : ℕ :=
  if m % 2 ^ s = 0 then m / 2 ^ s else m / 2 ^ s ||| 1

theorem or_one_eq (n : ℕ) : n ||| 1 = n + 1 - n % 2 := by
  have hdiv : (n ||| 1) / 2 = n / 2 := by
    rw [Nat.or_div_two]
    simp
  have hmod : (n ||| 1) % 2 = 1 := by
    rw [Nat.or_mod_two_eq_one]
    exact .inr rfl
  omega

namespace RoundsToOdd

variable {x : ℚ} {m k a s : ℕ}

theorem exact (m : ℕ) : RoundsToOdd m m := .inl rfl

theorem eq_of_even (h : RoundsToOdd x m) (hm : Even m) : (m : ℚ) = x :=
  h.resolve_right fun hodd => Nat.not_odd_iff_even.mpr hm hodd.1

theorem lt_iff (h : RoundsToOdd x m) (hk : Even k) : m < k ↔ x < k := by
  rcases h with rfl | ⟨hodd, hnear⟩
  · exact Nat.cast_lt.symm
  · rw [abs_lt] at hnear
    constructor
    · intro hlt
      have : (m : ℚ) + 1 ≤ k := by exact_mod_cast hlt
      linarith
    · intro hlt
      have hle : m ≤ k := by
        have : (m : ℚ) < k + 1 := by linarith
        exact Nat.lt_succ_iff.mp (by exact_mod_cast this)
      refine lt_of_le_of_ne hle ?_
      rintro rfl
      exact Nat.not_odd_iff_even.mpr hk hodd

theorem le_iff (h : RoundsToOdd x m) (hk : Even k) : k ≤ m ↔ (k : ℚ) ≤ x := by
  rw [← not_lt, h.lt_iff hk, not_lt]

theorem gt_iff (h : RoundsToOdd x m) (hk : Even k) : k < m ↔ (k : ℚ) < x := by
  rcases h with rfl | ⟨hodd, hnear⟩
  · exact Nat.cast_lt.symm
  · have hne : k ≠ m := fun heq => Nat.not_odd_iff_even.mpr hk (heq ▸ hodd)
    rw [abs_lt] at hnear
    constructor
    · intro hlt
      have : (k : ℚ) + 1 ≤ m := by exact_mod_cast hlt
      linarith
    · intro hlt
      have : (k : ℚ) < m + 1 := by linarith
      exact lt_of_le_of_ne (Nat.lt_succ_iff.mp (by exact_mod_cast this)) hne

theorem even_add (h : RoundsToOdd x m) (ha : Even a) : RoundsToOdd (a + x) (a + m) := by
  rcases h with rfl | ⟨hodd, hnear⟩
  · exact .inl (by push_cast; rfl)
  · refine .inr ⟨ha.add_odd hodd, ?_⟩
    have heq : (a : ℚ) + x - ((a + m : ℕ) : ℚ) = x - m := by
      push_cast
      ring
    rwa [heq]

theorem even_sub (h : RoundsToOdd x m) (ha : Even a) (hle : m ≤ a) :
    RoundsToOdd (a - x) (a - m) := by
  rcases h with rfl | ⟨hodd, hnear⟩
  · exact .inl (by push_cast [hle]; rfl)
  · refine .inr ⟨Nat.Even.sub_odd hle ha hodd, ?_⟩
    have heq : (a : ℚ) - x - ((a - m : ℕ) : ℚ) = -(x - m) := by
      push_cast [hle]
      ring
    rwa [heq, abs_neg]

theorem of_between (hlo : (m : ℚ) < x) (hhi : x < m + 1) : RoundsToOdd x (m ||| 1) := by
  rw [or_one_eq]
  rcases Nat.even_or_odd m with heven | hodd
  · rw [Nat.even_iff.mp heven, Nat.sub_zero]
    refine .inr ⟨heven.add_one, ?_⟩
    rw [abs_lt]
    push_cast
    constructor <;> linarith
  · rw [Nat.odd_iff.mp hodd, Nat.add_sub_cancel]
    refine .inr ⟨hodd, ?_⟩
    rw [abs_lt]
    constructor <;> linarith

/-- Rounding to odd in two steps is rounding to odd. -/
theorem shift (h : RoundsToOdd x m) (s : ℕ) : RoundsToOdd (x / 2 ^ s) (stickyShift m s) := by
  have hpos : (0 : ℚ) < 2 ^ s := by positivity
  have hsplit : (m : ℚ) = (m / 2 ^ s : ℕ) * 2 ^ s + (m % 2 ^ s : ℕ) := by
    exact_mod_cast (Nat.div_add_mod' m (2 ^ s)).symm
  unfold stickyShift
  split
  · rename_i hzero
    rw [hzero, Nat.cast_zero, add_zero] at hsplit
    have hx : (m : ℚ) = x ∨ s = 0 := by
      rcases Nat.eq_zero_or_pos s with rfl | hs
      · exact .inr rfl
      · refine .inl (h.eq_of_even (even_iff_two_dvd.mpr ?_))
        exact dvd_trans (dvd_pow_self 2 hs.ne') (Nat.dvd_of_mod_eq_zero hzero)
    rcases hx with rfl | rfl
    · exact .inl (by rw [eq_div_iff hpos.ne', ← hsplit])
    · simpa using h
  · rename_i hne
    have hlow : 1 ≤ m % 2 ^ s := Nat.pos_of_ne_zero hne
    have hhigh : m % 2 ^ s + 1 ≤ 2 ^ s := Nat.mod_lt _ (by positivity)
    have hlow' : (1 : ℚ) ≤ (m % 2 ^ s : ℕ) := by exact_mod_cast hlow
    have hhigh' : ((m % 2 ^ s : ℕ) : ℚ) + 1 ≤ 2 ^ s := by exact_mod_cast hhigh
    have hx : (m : ℚ) - 1 < x ∧ x < m + 1 := by
      rcases h with rfl | ⟨-, hnear⟩
      · constructor <;> linarith
      · rw [abs_lt] at hnear
        constructor <;> linarith
    refine of_between ?_ ?_
    · rw [lt_div_iff₀ hpos]
      linarith
    · rw [div_lt_iff₀ hpos]
      linarith

end RoundsToOdd

section StickyShift

variable {m s j : ℕ}

theorem even_two_pow (hj : 0 < j) : Even (2 ^ j) := Nat.even_pow.mpr ⟨even_two, hj.ne'⟩

theorem stickyShift_lt (hj : 0 < j) (h : m < 2 ^ (s + j)) : stickyShift m s < 2 ^ j := by
  have hpos : (0 : ℚ) < 2 ^ s := by positivity
  rw [((RoundsToOdd.exact m).shift s).lt_iff (even_two_pow hj), div_lt_iff₀ hpos]
  rw [add_comm, pow_add] at h
  exact_mod_cast h

theorem le_stickyShift (hj : 0 < j) (h : 2 ^ (s + j) ≤ m) : 2 ^ j ≤ stickyShift m s := by
  have hpos : (0 : ℚ) < 2 ^ s := by positivity
  rw [((RoundsToOdd.exact m).shift s).le_iff (even_two_pow hj), le_div_iff₀ hpos]
  rw [add_comm, pow_add] at h
  exact_mod_cast h

theorem stickyShift_mul_two_pow (m a b : ℕ) :
    stickyShift (m * 2 ^ a) (a + b) = stickyShift m b := by
  have hpos : 0 < 2 ^ a := by positivity
  have hmod : m * 2 ^ a % 2 ^ (a + b) = m % 2 ^ b * 2 ^ a := by
    rw [add_comm, pow_add, Nat.mul_mod_mul_right]
  have hdiv : m * 2 ^ a / 2 ^ (a + b) = m / 2 ^ b := by
    rw [add_comm, pow_add, Nat.mul_div_mul_right _ _ hpos]
  simp only [stickyShift, hmod, hdiv, Nat.mul_eq_zero, hpos.ne', or_false]

end StickyShift

end Umbra.Lib
