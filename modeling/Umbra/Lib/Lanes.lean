import Mathlib.Data.BitVec

/-!
Vectors of equally wide lanes.

A bit vector of `n` bits holds lanes of `k` bits, the first one in the lowest bits.  Files of four,
sixteen or thirty-two whole registers are functions on `Fin` instead: their indices are numerals
once the number is known not to be zero.
-/

namespace Umbra.Lib

instance neZero_four : @NeZero Nat Zero.ofOfNat0 4 := ⟨by decide⟩

instance neZero_sixteen : @NeZero Nat Zero.ofOfNat0 16 := ⟨by decide⟩

instance neZero_thirtyTwo : @NeZero Nat Zero.ofOfNat0 32 := ⟨by decide⟩

end Umbra.Lib

namespace Umbra.Lib.Lanes

variable {n : ℕ}

def lane (k : ℕ) (v : BitVec n) (i : ℕ) : BitVec k := v.extractLsb' (k * i) k

def ofLanes (n : ℕ) {k : ℕ} (f : ℕ → BitVec k) : BitVec n :=
  (BitVec.ofBoolListLE ((List.range n).map fun i => (f (i / k)).getLsbD (i % k))).setWidth n

theorem getLsbD_lane (k : ℕ) (v : BitVec n) (i j : ℕ) :
    (lane k v i).getLsbD j = (decide (j < k) && v.getLsbD (k * i + j)) := by
  rw [lane, BitVec.getLsbD_extractLsb']

theorem getLsbD_ofLanes {k : ℕ} (f : ℕ → BitVec k) (i : ℕ) :
    (ofLanes n f).getLsbD i = (decide (i < n) && (f (i / k)).getLsbD (i % k)) := by
  rw [ofLanes, BitVec.getLsbD_setWidth, BitVec.getLsbD_ofBoolListLE]
  by_cases hi : i < n <;> simp [hi]

theorem lane_ofLanes {k : ℕ} (f : ℕ → BitVec k) {i : ℕ} (hi : k * i + k ≤ n) :
    lane k (ofLanes n f) i = f i := by
  apply BitVec.eq_of_getLsbD_eq
  intro j hj
  have hdiv : (k * i + j) / k = i := by
    rw [Nat.mul_add_div (by omega), Nat.div_eq_of_lt hj, Nat.add_zero]
  have hmod : (k * i + j) % k = j := by
    rw [Nat.mul_add_mod, Nat.mod_eq_of_lt hj]
  have hlt : k * i + j < n := by omega
  rw [getLsbD_lane, getLsbD_ofLanes, hdiv, hmod]
  simp [hj, hlt]

theorem eq_of_lanes (k m : ℕ) (hk : 0 < k) (hn : n = k * m) {v w : BitVec n}
    (h : ∀ i < m, lane k v i = lane k w i) : v = w := by
  apply BitVec.eq_of_getLsbD_eq
  intro i hi
  have hdiv : i / k < m := by
    rw [Nat.div_lt_iff_lt_mul hk, Nat.mul_comm]
    omega
  have hlane := congrArg (·.getLsbD (i % k)) (h (i / k) hdiv)
  have hmod : i % k < k := Nat.mod_lt i hk
  simpa only [getLsbD_lane, hmod, decide_true, Bool.true_and, Nat.div_add_mod] using hlane

end Umbra.Lib.Lanes
