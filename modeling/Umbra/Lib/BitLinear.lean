import Mathlib.Data.BitVec

/-!
Functions on words that keep unions of bits.

Rearranging the bits of a word, masking it, and choosing a constant by one of its bits are such
functions, and so are their unions and compositions.  Two of them are equal if they agree on the
words with a single bit, which can be checked by evaluation.
-/

namespace Umbra.Lib

variable {u v w : ℕ}

def bitsIf (cond : Bool) (value : BitVec w) : BitVec w := if cond then value else 0#w

@[simp] theorem getElem_bitsIf (cond : Bool) (value : BitVec w) (i : ℕ) (h : i < w) :
    (bitsIf cond value)[i] = (cond && value[i]) := by
  cases cond <;> simp [bitsIf]

/-- The function takes no bits to no bits and a union to the union. -/
structure BitLinear (f : BitVec v → BitVec w) : Prop where
  map_zero : f 0#v = 0#w
  map_or : ∀ x y, f (x ||| y) = f x ||| f y

namespace BitLinear

theorem id : BitLinear fun x : BitVec w => x := ⟨rfl, fun _ _ => rfl⟩

theorem zero : BitLinear fun _ : BitVec v => 0#w := ⟨rfl, fun _ _ => BitVec.or_zero.symm⟩

variable {g f : BitVec v → BitVec w}

theorem comp {f : BitVec u → BitVec v} (hg : BitLinear g) (hf : BitLinear f) :
    BitLinear fun x => g (f x) where
  map_zero := by rw [hf.map_zero, hg.map_zero]
  map_or x y := by rw [hf.map_or, hg.map_or]

theorem or (hf : BitLinear f) (hg : BitLinear g) :
    BitLinear fun x => f x ||| g x where
  map_zero := by rw [hf.map_zero, hg.map_zero, BitVec.or_zero]
  map_or x y := by
    rw [hf.map_or, hg.map_or]
    ac_rfl

theorem and (hf : BitLinear f) (mask : BitVec w) :
    BitLinear fun x => f x &&& mask where
  map_zero := by rw [hf.map_zero, BitVec.zero_and]
  map_or x y := by
    rw [hf.map_or]
    ext i hi
    simp [Bool.and_or_distrib_right]

theorem shiftLeft (hf : BitLinear f) (n : ℕ) :
    BitLinear fun x => f x <<< n where
  map_zero := by rw [hf.map_zero, BitVec.zero_shiftLeft]
  map_or x y := by rw [hf.map_or, BitVec.shiftLeft_or_distrib]

theorem ushiftRight (hf : BitLinear f) (n : ℕ) :
    BitLinear fun x => f x >>> n where
  map_zero := by rw [hf.map_zero, BitVec.zero_ushiftRight]
  map_or x y := by rw [hf.map_or, BitVec.ushiftRight_or_distrib]

theorem setWidth {f : BitVec u → BitVec v} (hf : BitLinear f) (w : ℕ) :
    BitLinear fun x => (f x).setWidth w where
  map_zero := by rw [hf.map_zero, BitVec.setWidth_zero]
  map_or x y := by rw [hf.map_or, BitVec.setWidth_or]

theorem bitsIf {f : BitVec u → BitVec v} (hf : BitLinear f) (n : ℕ) (value : BitVec w) :
    BitLinear fun x => bitsIf ((f x).getLsbD n) value where
  map_zero := by
    rw [hf.map_zero, BitVec.getLsbD_zero]
    rfl
  map_or x y := by
    rw [hf.map_or, BitVec.getLsbD_or]
    cases (f x).getLsbD n <;> cases (f y).getLsbD n <;> simp [Lib.bitsIf]

theorem eq_of_twoPow (hf : BitLinear f) (hg : BitLinear g)
    (h : ∀ k : Fin v, f (BitVec.twoPow v k) = g (BitVec.twoPow v k)) (x : BitVec v) :
    f x = g x := by
  -- By induction on a bound for the bits that are set; the highest one is taken out.
  suffices hbelow : ∀ n x, (∀ i, n ≤ i → x.getLsbD i = false) → f x = g x from
    hbelow v x fun i hi => BitVec.getLsbD_of_ge x i hi
  intro n
  induction n with
  | zero =>
      intro x hx
      obtain rfl : x = 0#v := BitVec.eq_of_getLsbD_eq fun i _ => by rw [hx i i.zero_le]; simp
      rw [hf.map_zero, hg.map_zero]
  | succ n ih =>
      intro x hx
      cases hbit : x.getLsbD n with
      | false =>
          refine ih x fun i hi => ?_
          rcases Nat.eq_or_lt_of_le hi with rfl | hi
          · exact hbit
          · exact hx i hi
      | true =>
          have hn : n < v := BitVec.lt_of_getLsbD hbit
          have hrest : x = (x &&& ~~~BitVec.twoPow v n) ||| BitVec.twoPow v n := by
            refine BitVec.eq_of_getLsbD_eq fun i hi => ?_
            rcases eq_or_ne i n with rfl | hne
            · simp [hbit, hi]
            · simp [hi, hne]
          rw [hrest, hf.map_or, hg.map_or, h ⟨n, hn⟩, ih _ fun i hi => ?_]
          rcases Nat.eq_or_lt_of_le hi with rfl | hi
          · simp [hn]
          · simp [hx i hi]

end BitLinear

end Umbra.Lib
