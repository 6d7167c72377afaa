import Mathlib.Data.List.Basic
import Mathlib.Order.Basic

/-!
Closed intervals of natural numbers and sets of them.

An `Interval` is never empty, so an operation that may produce an empty one
answers with a list or an option.  An `IntervalSet` keeps its intervals sorted
and joined: adding an interval swallows every interval it overlaps or touches.
The results of this file say what the operations do to membership; nothing that
uses them looks inside.
-/

namespace Umbra.Lib

structure Interval where
  lo : ℕ
  hi : ℕ
  le : lo ≤ hi
deriving DecidableEq

namespace Interval

instance : Membership ℕ Interval := ⟨fun I a => I.lo ≤ a ∧ a ≤ I.hi⟩

theorem mem_def {I : Interval} {a : ℕ} : a ∈ I ↔ I.lo ≤ a ∧ a ≤ I.hi := Iff.rfl

instance (I : Interval) (a : ℕ) : Decidable (a ∈ I) :=
  inferInstanceAs (Decidable (_ ∧ _))

def closed (lo hi : ℕ) : Option Interval :=
  if h : lo ≤ hi then some ⟨lo, hi, h⟩ else none

theorem mem_closed {lo hi a : ℕ} :
    (∃ I ∈ (closed lo hi).toList, a ∈ I) ↔ lo ≤ a ∧ a ≤ hi := by
  unfold closed
  split
  · simp [mem_def]
  · simp only [Option.toList_none, List.not_mem_nil, false_and, exists_false, false_iff]
    omega

def meets (I J : Interval) : Bool := decide (I.lo ≤ J.hi) && decide (J.lo ≤ I.hi)

theorem meets_iff {I J : Interval} : I.meets J = true ↔ ∃ a, a ∈ I ∧ a ∈ J := by
  have hI := I.le
  have hJ := J.le
  simp only [meets, Bool.and_eq_true, decide_eq_true_eq, mem_def]
  constructor
  · rintro ⟨h₁, h₂⟩
    exact ⟨max I.lo J.lo, by omega, by omega⟩
  · rintro ⟨a, ha, hb⟩
    omega

def diff (I J : Interval) : List Interval :=
  (if I.lo < J.lo then (closed I.lo (min I.hi (J.lo - 1))).toList else []) ++
    (closed (max I.lo (J.hi + 1)) I.hi).toList

theorem mem_diff {I J : Interval} {a : ℕ} :
    (∃ K ∈ I.diff J, a ∈ K) ↔ a ∈ I ∧ a ∉ J := by
  have hJ := J.le
  unfold diff
  split_ifs with h
  · simp only [List.mem_append, or_and_right, exists_or, mem_closed]
    simp only [mem_def]
    omega
  · simp only [List.nil_append, mem_closed]
    simp only [mem_def]
    omega

end Interval

/-- A sorted list of intervals no two of which overlap or touch. -/
abbrev IntervalSet := List Interval

namespace IntervalSet

def Covers (S : IntervalSet) (a : ℕ) : Prop := ∃ I ∈ S, a ∈ I

instance (S : IntervalSet) (a : ℕ) : Decidable (Covers S a) :=
  inferInstanceAs (Decidable (∃ I ∈ S, a ∈ I))

@[simp] theorem not_covers_nil (a : ℕ) : ¬Covers [] a := by simp [Covers]

theorem covers_cons {I : Interval} {S : IntervalSet} {a : ℕ} :
    Covers (I :: S) a ↔ a ∈ I ∨ Covers S a := by simp [Covers]

def hull (I J : Interval) : Interval :=
  ⟨min I.lo J.lo, max I.hi J.hi, by have := I.le; omega⟩

/-- Add an interval to a set, joining it with every interval it overlaps or is
adjacent to. -/
def add : IntervalSet → Interval → IntervalSet
  | [], I => [I]
  | J :: S, I =>
      if J.hi + 1 < I.lo then J :: add S I
      else if I.hi + 1 < J.lo then I :: J :: S
      else add S (hull J I)

theorem covers_add {S : IntervalSet} {I : Interval} {a : ℕ} :
    Covers (add S I) a ↔ a ∈ I ∨ Covers S a := by
  induction S generalizing I with
  | nil => simp [add, Covers]
  | cons J S ih =>
      have hI := I.le
      have hJ := J.le
      unfold add
      split_ifs with h₁ h₂
      · rw [covers_cons, covers_cons, ih]
        tauto
      · rw [covers_cons]
      · rw [ih, covers_cons, ← or_assoc]
        refine or_congr ?_ Iff.rfl
        -- neither interval lies clear of the other, so their hull is their union
        simp only [Interval.mem_def, hull]
        omega

theorem hi_lt_of_mem_add {S : IntervalSet} {I : Interval} {n : ℕ}
    (hS : ∀ J ∈ S, J.hi < n) (hI : I.hi < n) : ∀ J ∈ add S I, J.hi < n := by
  induction S generalizing I with
  | nil => simpa [add] using hI
  | cons K S ih =>
      have hK : K.hi < n := hS K (by simp)
      have hrest : ∀ J ∈ S, J.hi < n := fun J hJ => hS J (by simp [hJ])
      unfold add
      split_ifs
      · simpa using ⟨hK, ih hrest hI⟩
      · simpa using ⟨hI, hK, hrest⟩
      · exact ih hrest (by simp only [hull]; omega)

end IntervalSet

end Umbra.Lib
