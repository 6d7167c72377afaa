import Mathlib.Data.Set.Card
import Umbra.Lib.Interval

/-!
Maps from intervals to sets, and the number of maximal intervals.

An `IntervalMap` is a list of segments, each an interval with the set of its values,
in ascending order and apart from each other.  Adding a set to an interval splits the
segments it meets and fills the gaps between them; taking a set out drops what becomes
empty; adjacent segments with the same values are joined afterwards.
-/

namespace Umbra.Lib

namespace Interval

def before (I J : Interval) : Option Interval :=
  if I.lo < J.lo then closed I.lo (min I.hi (J.lo - 1)) else none

def after (I J : Interval) : Option Interval := closed (max I.lo (J.hi + 1)) I.hi

def inter (I J : Interval) : Option Interval := closed (max I.lo J.lo) (min I.hi J.hi)

variable {I J K : Interval} {a : ℕ}

theorem closed_eq_some {lo hi : ℕ} : closed lo hi = some K ↔ lo ≤ hi ∧ K.lo = lo ∧ K.hi = hi := by
  unfold closed
  split
  · rename_i h
    rw [Option.some.injEq]
    constructor
    · rintro rfl
      exact ⟨h, rfl, rfl⟩
    · rintro ⟨-, rfl, rfl⟩
      rfl
  · rename_i h
    exact iff_of_false (by simp) fun hle => h hle.1

theorem before_eq_some : I.before J = some K ↔
    I.lo < J.lo ∧ K.lo = I.lo ∧ K.hi = min I.hi (J.lo - 1) := by
  have hI := I.le
  unfold before
  split
  · rename_i h
    rw [closed_eq_some]
    omega
  · rename_i h
    exact iff_of_false (by simp) fun hlt => h hlt.1

theorem after_eq_some : I.after J = some K ↔
    J.hi < I.hi ∧ K.lo = max I.lo (J.hi + 1) ∧ K.hi = I.hi := by
  have hI := I.le
  rw [after, closed_eq_some]
  omega

theorem inter_eq_some : I.inter J = some K ↔
    (I.lo ≤ J.hi ∧ J.lo ≤ I.hi) ∧ K.lo = max I.lo J.lo ∧ K.hi = min I.hi J.hi := by
  have hI := I.le
  have hJ := J.le
  rw [inter, closed_eq_some]
  omega

theorem mem_before : (∃ K ∈ I.before J, a ∈ K) ↔ a ∈ I ∧ a < J.lo := by
  simp only [Option.mem_def, before_eq_some, mem_def]
  constructor
  · rintro ⟨K, hK, ha⟩
    omega
  · rintro ⟨ha, hlt⟩
    exact ⟨⟨I.lo, min I.hi (J.lo - 1), by omega⟩, ⟨by omega, rfl, rfl⟩, by
      simp only
      omega⟩

theorem mem_after : (∃ K ∈ I.after J, a ∈ K) ↔ a ∈ I ∧ J.hi < a := by
  simp only [Option.mem_def, after_eq_some, mem_def]
  constructor
  · rintro ⟨K, hK, ha⟩
    omega
  · rintro ⟨ha, hlt⟩
    exact ⟨⟨max I.lo (J.hi + 1), I.hi, by omega⟩, ⟨by omega, rfl, rfl⟩, by
      simp only
      omega⟩

theorem mem_inter : (∃ K ∈ I.inter J, a ∈ K) ↔ a ∈ I ∧ a ∈ J := by
  simp only [Option.mem_def, inter_eq_some, mem_def]
  constructor
  · rintro ⟨K, hK, ha⟩
    omega
  · rintro ⟨ha, hb⟩
    exact ⟨⟨max I.lo J.lo, min I.hi J.hi, by omega⟩, ⟨by omega, rfl, rfl⟩, by
      simp only
      omega⟩

end Interval

/-! ### Segments -/

section Segments

variable {α : Type*}

abbrev Segment (α : Type*) := Interval × Finset α

def Ascending (M : List (Segment α)) : Prop := M.Pairwise fun s t => s.1.hi < t.1.lo

def SegmentsMap (M : List (Segment α)) (a : ℕ) (x : α) : Prop := ∃ s ∈ M, a ∈ s.1 ∧ x ∈ s.2

def segmentOf (I : Option Interval) (S : Finset α) : List (Segment α) := I.toList.map (·, S)

variable {M N : List (Segment α)} {I : Interval} {S : Finset α} {a : ℕ} {x : α}

@[simp] theorem not_segmentsMap_nil : ¬SegmentsMap ([] : List (Segment α)) a x := by
  simp [SegmentsMap]

variable {s : Segment α}

theorem segmentsMap_cons :
    SegmentsMap (s :: M) a x ↔ a ∈ s.1 ∧ x ∈ s.2 ∨ SegmentsMap M a x := by
  simp [SegmentsMap]

theorem segmentsMap_append : SegmentsMap (M ++ N) a x ↔ SegmentsMap M a x ∨ SegmentsMap N a x := by
  simp only [SegmentsMap, List.mem_append, or_and_right, exists_or]

theorem segmentsMap_segmentOf {I : Option Interval} :
    SegmentsMap (segmentOf I S) a x ↔ (∃ K ∈ I, a ∈ K) ∧ x ∈ S := by
  cases I <;> simp [SegmentsMap, segmentOf]

theorem mem_segmentOf {I : Option Interval} :
    s ∈ segmentOf I S ↔ I = some s.1 ∧ s.2 = S := by
  obtain ⟨J, T⟩ := s
  cases I with
  | none => simp [segmentOf]
  | some K => simp [segmentOf, eq_comm]

variable [DecidableEq α]

def addSegment : List (Segment α) → Interval → Finset α → List (Segment α)
  | [], I, S => [(I, S)]
  | (J, T) :: M, I, S =>
      if J.hi < I.lo then (J, T) :: addSegment M I S
      else if I.hi < J.lo then (I, S) :: (J, T) :: M
      else segmentOf (J.before I) T ++ segmentOf (I.before J) S ++ segmentOf (J.inter I) (T ∪ S) ++
        match I.after J with
        | some K => addSegment M K S
        | none => segmentOf (J.after I) T ++ M

/-- What is left of a segment when the set is taken out of it on the interval. -/
def cutSegment (I : Interval) (S : Finset α) (s : Segment α) : List (Segment α) :=
  segmentOf (s.1.before I) s.2 ++
    (if s.2 \ S = ∅ then [] else segmentOf (s.1.inter I) (s.2 \ S)) ++ segmentOf (s.1.after I) s.2

/-- Join segments that touch and have the same values. -/
def joinSegments : Segment α → List (Segment α) → List (Segment α)
  | s, [] => [s]
  | s, t :: M =>
      if s.1.hi + 1 = t.1.lo ∧ s.2 = t.2 then joinSegments (IntervalSet.hull s.1 t.1, s.2) M
      else s :: joinSegments t M

/-- Adding changes the values on the interval and nowhere else. -/
theorem segmentsMap_addSegment :
    SegmentsMap (addSegment M I S) a x ↔ SegmentsMap M a x ∨ a ∈ I ∧ x ∈ S := by
  induction M generalizing I with
  | nil => simp [addSegment, SegmentsMap]
  | cons s M ih =>
      obtain ⟨J, T⟩ := s
      unfold addSegment
      split_ifs with hbelow habove
      · rw [segmentsMap_cons, segmentsMap_cons, ih, or_assoc]
      · rw [segmentsMap_cons, or_comm]
      · have hrest : SegmentsMap (match I.after J with
            | some K => addSegment M K S
            | none => segmentOf (J.after I) T ++ M) a x ↔
            SegmentsMap M a x ∨ (a ∈ I ∧ J.hi < a) ∧ x ∈ S ∨ (a ∈ J ∧ I.hi < a) ∧ x ∈ T := by
          have hI := @Interval.mem_after I J a
          have hJ := @Interval.mem_after J I a
          cases hafter : I.after J with
          | none =>
              rw [hafter] at hI
              simp only [Option.mem_def, reduceCtorEq, false_and, exists_false, false_iff] at hI
              rw [segmentsMap_append, segmentsMap_segmentOf, hJ, or_comm]
              simp only [hI, false_and, false_or]
          | some K =>
              have hK := Interval.after_eq_some.mp hafter
              have hnone : ¬(a ∈ J ∧ I.hi < a) := by
                simp only [Interval.mem_def]
                omega
              rw [hafter] at hI
              simp only [Option.mem_def, Option.some.injEq, exists_eq_left'] at hI
              rw [ih, hI]
              simp only [hnone, false_and, or_false]
        rw [segmentsMap_append, segmentsMap_append, segmentsMap_append, hrest, segmentsMap_cons,
          segmentsMap_segmentOf, segmentsMap_segmentOf, segmentsMap_segmentOf, Interval.mem_before,
          Interval.mem_before, Interval.mem_inter, Finset.mem_union]
        by_cases hM : SegmentsMap M a x
        · simp only [hM, true_or, or_true]
        · simp only [Interval.mem_def]
          by_cases hS : x ∈ S <;> by_cases hT : x ∈ T <;>
            simp only [hM, hS, hT, and_true, and_false, or_false, false_or, or_true] <;> omega

theorem segmentsMap_cutSegment :
    SegmentsMap (cutSegment I S s) a x ↔ (a ∈ s.1 ∧ x ∈ s.2) ∧ ¬(a ∈ I ∧ x ∈ S) := by
  have hmid : SegmentsMap (if s.2 \ S = ∅ then [] else segmentOf (s.1.inter I) (s.2 \ S)) a x ↔
      (a ∈ s.1 ∧ a ∈ I) ∧ x ∈ s.2 ∧ x ∉ S := by
    split
    · rename_i hempty
      have hx : x ∉ s.2 \ S := by simp [hempty]
      rw [Finset.mem_sdiff] at hx
      exact iff_of_false not_segmentsMap_nil fun h => hx h.2
    · rw [segmentsMap_segmentOf, Interval.mem_inter, Finset.mem_sdiff]
  rw [cutSegment, segmentsMap_append, segmentsMap_append, hmid, segmentsMap_segmentOf,
    segmentsMap_segmentOf, Interval.mem_before, Interval.mem_after]
  by_cases hT : x ∈ s.2
  · simp only [Interval.mem_def]
    by_cases hS : x ∈ S <;>
      simp only [hT, hS, and_true, and_false, or_false, not_true_eq_false, not_false_eq_true] <;>
      omega
  · simp only [hT, and_false, false_and, or_false]

theorem segmentsMap_joinSegments :
    SegmentsMap (joinSegments s M) a x ↔ SegmentsMap (s :: M) a x := by
  induction M generalizing s with
  | nil => rfl
  | cons t M ih =>
      unfold joinSegments
      split
      · rename_i h
        have hs := s.1.le
        have ht := t.1.le
        have hhull : a ∈ IntervalSet.hull s.1 t.1 ↔ a ∈ s.1 ∨ a ∈ t.1 := by
          simp only [Interval.mem_def, IntervalSet.hull]
          omega
        rw [ih, segmentsMap_cons, segmentsMap_cons, segmentsMap_cons, hhull, ← h.2, or_and_right,
          or_assoc]
      · rw [segmentsMap_cons, ih]
        exact segmentsMap_cons.symm

def From (n : ℕ) (M : List (Segment α)) : Prop := ∀ s ∈ M, n ≤ s.1.lo

omit [DecidableEq α] in
theorem ascending_cons :
    Ascending (s :: M) ↔ From (s.1.hi + 1) M ∧ Ascending M := List.pairwise_cons

omit [DecidableEq α] in
theorem ascending_append {n : ℕ} (hM : Ascending M) (hbound : ∀ s ∈ M, s.1.hi < n)
    (hN : Ascending N) (hfrom : From n N) : Ascending (M ++ N) :=
  List.pairwise_append.mpr ⟨hM, hN, fun s hs t ht => (hbound s hs).trans_le (hfrom t ht)⟩

omit [DecidableEq α] in
theorem ascending_segmentOf (I : Option Interval) (S : Finset α) : Ascending (segmentOf I S) := by
  cases I with
  | none => exact List.Pairwise.nil
  | some I => exact List.pairwise_singleton _ _

omit [DecidableEq α] in
theorem from_append {n : ℕ} : From n (M ++ N) ↔ From n M ∧ From n N := List.forall_mem_append

omit [DecidableEq α] in
theorem From.mono {m n : ℕ} (h : From n M) (hle : m ≤ n) : From m M :=
  fun s hs => hle.trans (h s hs)

omit [DecidableEq α] in
theorem from_segmentOf {n : ℕ} {I : Option Interval} (h : ∀ K, I = some K → n ≤ K.lo) :
    From n (segmentOf I S) := fun s hs => h s.1 (mem_segmentOf.mp hs).1

omit [DecidableEq α] in
theorem hi_lt_segmentOf {n : ℕ} {I : Option Interval} (h : ∀ K, I = some K → K.hi < n) :
    ∀ s ∈ segmentOf I S, s.1.hi < n := fun s hs => h s.1 (mem_segmentOf.mp hs).1

theorem from_addSegment {n : ℕ} (hM : From n M) (hI : n ≤ I.lo) : From n (addSegment M I S) := by
  induction M generalizing I with
  | nil => simpa [addSegment, From] using hI
  | cons s M ih =>
      obtain ⟨J, T⟩ := s
      obtain ⟨hJ, hM⟩ : n ≤ J.lo ∧ From n M := List.forall_mem_cons.mp hM
      unfold addSegment
      split_ifs with hbelow habove
      · exact List.forall_mem_cons.mpr ⟨hJ, ih hM hI⟩
      · exact List.forall_mem_cons.mpr ⟨hI, List.forall_mem_cons.mpr ⟨hJ, hM⟩⟩
      · refine from_append.mpr ⟨from_append.mpr ⟨from_append.mpr ⟨?_, ?_⟩, ?_⟩, ?_⟩
        · exact from_segmentOf fun K hK => by have := Interval.before_eq_some.mp hK; omega
        · exact from_segmentOf fun K hK => by have := Interval.before_eq_some.mp hK; omega
        · exact from_segmentOf fun K hK => by have := Interval.inter_eq_some.mp hK; omega
        · split
          · rename_i K hK
            exact ih hM (by have := Interval.after_eq_some.mp hK; omega)
          · refine from_append.mpr ⟨from_segmentOf fun K hK => ?_, hM⟩
            have := Interval.after_eq_some.mp hK
            omega

/-- By induction on the segments, splitting them at the bounds of the interval. -/
theorem ascending_addSegment (hM : Ascending M) : Ascending (addSegment M I S) := by
  induction M generalizing I with
  | nil => exact List.pairwise_singleton _ _
  | cons s M ih =>
      obtain ⟨J, T⟩ := s
      obtain ⟨hfrom, hM⟩ := ascending_cons.mp hM
      have hJ := J.le
      have hI := I.le
      unfold addSegment
      split_ifs with hbelow habove
      · exact ascending_cons.mpr ⟨from_addSegment hfrom hbelow, ih hM⟩
      · exact ascending_cons.mpr ⟨List.forall_mem_cons.mpr ⟨habove, hfrom.mono (by simp only; omega)⟩,
          ascending_cons.mpr ⟨hfrom, hM⟩⟩
      · -- The parts below the overlap, the overlap, and what follows it.
        have hfirst : Ascending (segmentOf (J.before I) T ++ segmentOf (I.before J) S) ∧
            ∀ s ∈ segmentOf (J.before I) T ++ segmentOf (I.before J) S,
              s.1.hi < max J.lo I.lo := by
          refine ⟨ascending_append (ascending_segmentOf _ _) (hi_lt_segmentOf (n := I.lo) ?_)
            (ascending_segmentOf _ _) (from_segmentOf ?_), List.forall_mem_append.mpr
              ⟨hi_lt_segmentOf ?_, hi_lt_segmentOf ?_⟩⟩
          all_goals exact fun K hK => by have := Interval.before_eq_some.mp hK; omega
        have hmid := ascending_append hfirst.1 hfirst.2
          (ascending_segmentOf (J.inter I) (T ∪ S))
          (from_segmentOf fun K hK => by have := Interval.inter_eq_some.mp hK; omega)
        refine ascending_append (n := min J.hi I.hi + 1) hmid (List.forall_mem_append.mpr
          ⟨fun s hs => by have := hfirst.2 s hs; omega, hi_lt_segmentOf fun K hK => by
            have := Interval.inter_eq_some.mp hK; omega⟩) ?_ ?_
        · split
          · exact ih hM
          · refine ascending_append (ascending_segmentOf _ _) (hi_lt_segmentOf ?_) hM hfrom
            exact fun K hK => by have := Interval.after_eq_some.mp hK; simp only; omega
        · split
          · rename_i K hK
            have := Interval.after_eq_some.mp hK
            exact from_addSegment (hfrom.mono (by simp only; omega)) (by omega)
          · refine from_append.mpr ⟨from_segmentOf fun K hK => ?_, hfrom.mono (by simp only; omega)⟩
            have := Interval.after_eq_some.mp hK
            omega

theorem bounds_of_mem_cutSegment {t : Segment α} (ht : t ∈ cutSegment I S s) :
    s.1.lo ≤ t.1.lo ∧ t.1.hi ≤ s.1.hi := by
  have hs := s.1.le
  simp only [cutSegment, List.mem_append, mem_segmentOf] at ht
  rcases ht with (⟨hK, -⟩ | hmid) | ⟨hK, -⟩
  · have := Interval.before_eq_some.mp hK
    omega
  · split at hmid
    · cases hmid
    · have := Interval.inter_eq_some.mp (mem_segmentOf.mp hmid).1
      omega
  · have := Interval.after_eq_some.mp hK
    omega

theorem ascending_cutSegment (s : Segment α) : Ascending (cutSegment I S s) := by
  have hI := I.le
  have hmid : Ascending (if s.2 \ S = ∅ then [] else segmentOf (s.1.inter I) (s.2 \ S)) ∧
      ∀ t ∈ if s.2 \ S = ∅ then [] else segmentOf (s.1.inter I) (s.2 \ S),
        I.lo ≤ t.1.lo ∧ t.1.hi < I.hi + 1 := by
    split
    · exact ⟨List.Pairwise.nil, fun t ht => by cases ht⟩
    · refine ⟨ascending_segmentOf _ _, fun t ht => ?_⟩
      have := Interval.inter_eq_some.mp (mem_segmentOf.mp ht).1
      omega
  have hlow : ∀ t ∈ segmentOf (s.1.before I) s.2, t.1.hi < I.lo :=
    hi_lt_segmentOf fun K hK => by have := Interval.before_eq_some.mp hK; omega
  refine ascending_append (n := I.hi + 1)
    (ascending_append (ascending_segmentOf _ _) hlow hmid.1 fun t ht => (hmid.2 t ht).1)
    (List.forall_mem_append.mpr ⟨fun t ht => by have := hlow t ht; omega,
      fun t ht => (hmid.2 t ht).2⟩) (ascending_segmentOf _ _) (from_segmentOf fun K hK => ?_)
  have := Interval.after_eq_some.mp hK
  omega

theorem ascending_flatMap_cutSegment (hM : Ascending M) :
    Ascending (M.flatMap (cutSegment I S)) := by
  induction M with
  | nil => exact hM
  | cons s M ih =>
      obtain ⟨hfrom, hM⟩ := ascending_cons.mp hM
      rw [List.flatMap_cons]
      refine ascending_append (ascending_cutSegment s)
        (fun t ht => Nat.lt_succ_of_le (bounds_of_mem_cutSegment ht).2) (ih hM) fun t ht => ?_
      obtain ⟨u, hu, ht⟩ := List.mem_flatMap.mp ht
      exact (hfrom u hu).trans (bounds_of_mem_cutSegment ht).1

theorem from_joinSegments {n : ℕ} (h : From n (s :: M)) :
    From n (joinSegments s M) := by
  induction M generalizing s with
  | nil => exact h
  | cons t M ih =>
      obtain ⟨hs, hrest⟩ := List.forall_mem_cons.mp h
      obtain ⟨ht, hM⟩ := List.forall_mem_cons.mp hrest
      unfold joinSegments
      split
      · exact ih (List.forall_mem_cons.mpr ⟨le_min hs ht, hM⟩)
      · exact List.forall_mem_cons.mpr ⟨hs, ih hrest⟩

theorem ascending_joinSegments (h : Ascending (s :: M)) :
    Ascending (joinSegments s M) := by
  induction M generalizing s with
  | nil => exact h
  | cons t M ih =>
      obtain ⟨hfrom, hrest⟩ := ascending_cons.mp h
      obtain ⟨hfrom', hM⟩ := ascending_cons.mp hrest
      have ht := t.1.le
      unfold joinSegments
      split
      · refine ih (ascending_cons.mpr ⟨?_, hM⟩)
        have hle : s.1.hi + 1 ≤ t.1.lo := hfrom t List.mem_cons_self
        refine hfrom'.mono ?_
        simp only [IntervalSet.hull]
        omega
      · exact ascending_cons.mpr ⟨from_joinSegments hfrom, ih hrest⟩

omit [DecidableEq α] in
theorem mem_takeWhile_iff (hM : Ascending M) (n : ℕ) :
    s ∈ M.takeWhile (fun s => decide (s.1.lo ≤ n)) ↔ s ∈ M ∧ s.1.lo ≤ n := by
  induction M with
  | nil => simp
  | cons t M ih =>
      obtain ⟨hfrom, hM⟩ := ascending_cons.mp hM
      have ht := t.1.le
      rw [List.takeWhile_cons]
      split
      · rename_i hle
        rw [decide_eq_true_eq] at hle
        rw [List.mem_cons, List.mem_cons, ih hM]
        constructor
        · rintro (rfl | h)
          · exact ⟨.inl rfl, hle⟩
          · exact ⟨.inr h.1, h.2⟩
        · rintro ⟨rfl | h, hn⟩
          · exact .inl rfl
          · exact .inr ⟨h, hn⟩
      · rename_i hgt
        rw [decide_eq_true_eq, not_le] at hgt
        refine iff_of_false List.not_mem_nil ?_
        rintro ⟨hs, hn⟩
        rcases List.mem_cons.mp hs with rfl | hs
        · omega
        · have := hfrom s hs
          omega

omit [DecidableEq α] in
/-- In ascending order, the segments from the first one that does not end before the interval to
the last one that does not begin behind it are those that meet it. -/
theorem mem_takeWhile_dropWhile (hM : Ascending M) (I : Interval) :
    s ∈ (M.dropWhile fun s => decide (s.1.hi < I.lo)).takeWhile (fun s => decide (s.1.lo ≤ I.hi)) ↔
      s ∈ M ∧ s.1.meets I = true := by
  induction M with
  | nil => simp
  | cons t M ih =>
      obtain ⟨hfrom, hrest⟩ := ascending_cons.mp hM
      rw [List.dropWhile_cons]
      simp only [Interval.meets, Bool.and_eq_true, decide_eq_true_eq] at ih ⊢
      split
      · rename_i hlt
        rw [ih hrest, List.mem_cons, or_and_right, or_iff_right]
        rintro ⟨rfl, -, hle⟩
        omega
      · rename_i hge
        rw [mem_takeWhile_iff hM]
        refine and_congr_right fun hs => (and_iff_left ?_).symm
        rcases List.mem_cons.mp hs with rfl | hs
        · omega
        · have := hfrom s hs
          have := s.1.le
          omega

end Segments

/-! ### The map -/

/-- A map from points to sets of values, kept as segments in ascending order. -/
structure IntervalMap (α : Type*) where
  segments : List (Segment α)
  ascending : Ascending segments

namespace IntervalMap

variable {α : Type*}

def empty : IntervalMap α := ⟨[], List.Pairwise.nil⟩

def MapsTo (M : IntervalMap α) (a : ℕ) (x : α) : Prop := SegmentsMap M.segments a x

/-- The first segment that does not end before the point, and those behind it. -/
def lowerBound (M : IntervalMap α) (a : ℕ) : List (Segment α) :=
  M.segments.dropWhile fun s => decide (s.1.hi < a)

variable [DecidableEq α]

def join (M : IntervalMap α) : IntervalMap α where
  segments := match M.segments with
    | [] => []
    | s :: rest => joinSegments s rest
  ascending := by
    have h := M.ascending
    split
    · exact List.Pairwise.nil
    · rename_i s rest heq
      rw [heq] at h
      exact ascending_joinSegments h

def add (M : IntervalMap α) (I : Option Interval) (S : Finset α) : IntervalMap α :=
  match I with
  | none => M
  | some I => join ⟨addSegment M.segments I S, ascending_addSegment M.ascending⟩

def subtract (M : IntervalMap α) (I : Interval) (S : Finset α) : IntervalMap α :=
  join ⟨M.segments.flatMap (cutSegment I S), ascending_flatMap_cutSegment M.ascending⟩

variable {M : IntervalMap α} {S : Finset α} {a : ℕ} {x : α}

@[simp] theorem mapsTo_join : M.join.MapsTo a x ↔ M.MapsTo a x := by
  obtain ⟨segments, hM⟩ := M
  cases segments with
  | nil => rfl
  | cons s rest => exact segmentsMap_joinSegments

theorem mapsTo_add {I : Option Interval} :
    (M.add I S).MapsTo a x ↔ M.MapsTo a x ∨ (∃ J ∈ I, a ∈ J) ∧ x ∈ S := by
  cases I with
  | none => simp [add]
  | some I =>
      rw [add, mapsTo_join]
      simp only [Option.mem_def, Option.some.injEq, exists_eq_left']
      exact segmentsMap_addSegment

theorem mapsTo_subtract {I : Interval} :
    (M.subtract I S).MapsTo a x ↔ M.MapsTo a x ∧ ¬(a ∈ I ∧ x ∈ S) := by
  rw [subtract, mapsTo_join]
  constructor
  · rintro ⟨t, ht, hmem⟩
    obtain ⟨s, hs, ht⟩ := List.mem_flatMap.mp ht
    obtain ⟨h, hnot⟩ := segmentsMap_cutSegment.mp ⟨t, ht, hmem⟩
    exact ⟨⟨s, hs, h⟩, hnot⟩
  · rintro ⟨⟨s, hs, h⟩, hnot⟩
    obtain ⟨t, ht, hmem⟩ := segmentsMap_cutSegment.mpr ⟨h, hnot⟩
    exact ⟨t, List.mem_flatMap.mpr ⟨s, hs, ht⟩, hmem⟩

end IntervalMap

/-! ### Maximal intervals -/

/-- The number of maximal intervals of a set: each has one last point. -/
noncomputable def maximalIntervals (A : Set ℕ) : ℕ := {a | a ∈ A ∧ a + 1 ∉ A}.ncard

namespace IntervalSet

def Separated (S : IntervalSet) : Prop := S.Pairwise fun I J => I.hi + 1 < J.lo

theorem lo_of_mem_add {S : IntervalSet} {I : Interval} {n : ℕ} (hS : ∀ J ∈ S, n ≤ J.lo)
    (hI : n ≤ I.lo) : ∀ J ∈ add S I, n ≤ J.lo := by
  induction S generalizing I with
  | nil => simpa [add] using hI
  | cons K S ih =>
      obtain ⟨hK, hrest⟩ := List.forall_mem_cons.mp hS
      unfold add
      split_ifs
      · exact List.forall_mem_cons.mpr ⟨hK, ih hrest hI⟩
      · exact List.forall_mem_cons.mpr ⟨hI, List.forall_mem_cons.mpr ⟨hK, hrest⟩⟩
      · exact ih hrest (le_min hK hI)

theorem separated_add {S : IntervalSet} (hS : Separated S) (I : Interval) :
    Separated (add S I) := by
  induction S generalizing I with
  | nil => exact List.pairwise_singleton _ _
  | cons J S ih =>
      obtain ⟨hJ, hrest⟩ := List.pairwise_cons.mp hS
      have hle := J.le
      unfold add
      split_ifs with h₁ h₂
      · exact List.pairwise_cons.mpr ⟨lo_of_mem_add hJ h₁, ih hrest I⟩
      · refine List.pairwise_cons.mpr ⟨List.forall_mem_cons.mpr ⟨h₂, fun K hK => ?_⟩, hS⟩
        have := hJ K hK
        omega
      · exact ih hrest _

theorem covers_and_not_covers_succ {S : IntervalSet} (hS : Separated S) {a : ℕ} :
    Covers S a ∧ ¬Covers S (a + 1) ↔ a ∈ S.map Interval.hi := by
  have hsymm : Std.Symm fun I J : Interval => I.hi + 1 < J.lo ∨ J.hi + 1 < I.lo :=
    ⟨fun _ _ => Or.symm⟩
  have hapart := List.Pairwise.forall (hS.imp fun {I J} h =>
    (Or.inl h : I.hi + 1 < J.lo ∨ J.hi + 1 < I.lo))
  rw [List.mem_map]
  constructor
  · rintro ⟨⟨I, hI, ha⟩, hnot⟩
    refine ⟨I, hI, le_antisymm ?_ ha.2⟩
    by_contra hlt
    exact hnot ⟨I, hI, by have := ha.1; omega, by omega⟩
  · rintro ⟨I, hI, rfl⟩
    refine ⟨⟨I, hI, I.le, le_rfl⟩, ?_⟩
    rintro ⟨J, hJ, hlo, hhi⟩
    have hle := I.le
    rcases eq_or_ne I J with rfl | hne
    · omega
    · rcases hapart hI hJ hne with h | h
      · omega
      · omega

theorem maximalIntervals_eq_length {S : IntervalSet} (hS : Separated S) :
    maximalIntervals {a | Covers S a} = S.length := by
  have hnodup : (S.map Interval.hi).Nodup :=
    List.pairwise_map.mpr (hS.imp fun {I J} h => by have := J.le; omega)
  have hends : {a | a ∈ {a | Covers S a} ∧ a + 1 ∉ {a | Covers S a}} =
      ((S.map Interval.hi).toFinset : Set ℕ) := by
    ext a
    rw [List.coe_toFinset]
    exact covers_and_not_covers_succ hS
  rw [maximalIntervals, hends, Set.ncard_coe_finset, List.toFinset_card_of_nodup hnodup,
    List.length_map]

end IntervalSet

end Umbra.Lib
