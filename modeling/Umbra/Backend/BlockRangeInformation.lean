import Mathlib.Data.List.Dedup
import Umbra.Lib.Interval

/-!
The registry of guest ranges.

`BlockRangeInformation` remembers, for every emitted block, the guest addresses
it was translated from.  It is kept twice: `blockRanges` maps an address to the
descriptors whose blocks cover it (an interval map with set union as its
aggregation), `rangesByDescriptor` maps a descriptor to its ranges.  The two
views always describe one relation; the structure carries that as a field, so
every operation has to re-establish it.
-/

namespace Umbra.IR

/-- The 64-bit key under which translations are filed. -/
abbrev LocationDescriptor := UInt64

end Umbra.IR

namespace Umbra.Backend

open Umbra.Lib Umbra.IR

def subtract (ranges : List (Interval × LocationDescriptor)) (I : Interval)
    (location : LocationDescriptor) : List (Interval × LocationDescriptor) :=
  ranges.flatMap fun entry =>
    if entry.2 = location then (entry.1.diff I).map (·, location) else [entry]

def MapsTo (ranges : List (Interval × LocationDescriptor)) (a : ℕ)
    (location : LocationDescriptor) : Prop :=
  ∃ entry ∈ ranges, entry.2 = location ∧ a ∈ entry.1

instance (ranges : List (Interval × LocationDescriptor)) (a : ℕ)
    (location : LocationDescriptor) : Decidable (MapsTo ranges a location) :=
  inferInstanceAs (Decidable (∃ entry ∈ ranges, entry.2 = location ∧ a ∈ entry.1))

/-- Subtracting takes out the one descriptor on the interval and nothing else. -/
theorem mapsTo_subtract {ranges : List (Interval × LocationDescriptor)} {I : Interval}
    {location d : LocationDescriptor} {a : ℕ} :
    MapsTo (subtract ranges I location) a d ↔
      MapsTo ranges a d ∧ ¬(d = location ∧ a ∈ I) := by
  have hentry : ∀ entry : Interval × LocationDescriptor,
      (∃ e ∈ (if entry.2 = location then (entry.1.diff I).map (·, location) else [entry]),
        e.2 = d ∧ a ∈ e.1) ↔ (entry.2 = d ∧ a ∈ entry.1) ∧ ¬(d = location ∧ a ∈ I) := by
    rintro ⟨J, e⟩
    by_cases he : e = location
    · subst he
      have hdiff := Interval.mem_diff (I := J) (J := I) (a := a)
      simp only [↓reduceIte, List.mem_map, exists_exists_and_eq_and]
      constructor
      · rintro ⟨K, hK, rfl, ha⟩
        have := hdiff.mp ⟨K, hK, ha⟩
        tauto
      · rintro ⟨⟨rfl, ha⟩, hI⟩
        obtain ⟨K, hK, haK⟩ := hdiff.mpr ⟨ha, fun h => hI ⟨rfl, h⟩⟩
        exact ⟨K, hK, rfl, haK⟩
    · simp only [he, ↓reduceIte, List.mem_singleton, exists_eq_left]
      constructor
      · rintro ⟨rfl, ha⟩
        exact ⟨⟨rfl, ha⟩, fun h => he h.1⟩
      · exact And.left
  simp only [MapsTo, subtract, List.mem_flatMap]
  constructor
  · rintro ⟨e, ⟨entry, hmem, he⟩, hd⟩
    obtain ⟨h, hnot⟩ := (hentry entry).mp ⟨e, he, hd⟩
    exact ⟨⟨entry, hmem, h⟩, hnot⟩
  · rintro ⟨⟨entry, hmem, h⟩, hnot⟩
    obtain ⟨e, he, hd⟩ := (hentry entry).mpr ⟨h, hnot⟩
    exact ⟨e, ⟨entry, hmem, he⟩, hd⟩

theorem mapsTo_subtract_all {S : IntervalSet} {location d : LocationDescriptor} {a : ℕ}
    {ranges : List (Interval × LocationDescriptor)} :
    MapsTo (S.foldl (fun rs I => subtract rs I location) ranges) a d ↔
      MapsTo ranges a d ∧ ¬(d = location ∧ S.Covers a) := by
  induction S generalizing ranges with
  | nil => simp
  | cons I S ih =>
      rw [List.foldl_cons, ih, mapsTo_subtract, IntervalSet.covers_cons]
      tauto

theorem covers_add_all {ranges : List Interval} {S : IntervalSet} {a : ℕ} :
    IntervalSet.Covers (ranges.foldl IntervalSet.add S) a ↔
      (∃ I ∈ ranges, a ∈ I) ∨ IntervalSet.Covers S a := by
  induction ranges generalizing S with
  | nil => simp
  | cons I ranges ih =>
      rw [List.foldl_cons, ih, IntervalSet.covers_add]
      simp only [List.mem_cons, exists_eq_or_imp, or_assoc, or_left_comm]

structure BlockRangeInformation where
  blockRanges : List (Interval × LocationDescriptor)
  rangesByDescriptor : LocationDescriptor → Option IntervalSet
  sync : ∀ d a, MapsTo blockRanges a d ↔
    IntervalSet.Covers ((rangesByDescriptor d).getD []) a

namespace BlockRangeInformation

def Registered (r : BlockRangeInformation) (d : LocationDescriptor) (a : ℕ) : Prop :=
  MapsTo r.blockRanges a d

instance (r : BlockRangeInformation) (d : LocationDescriptor) (a : ℕ) :
    Decidable (r.Registered d a) :=
  inferInstanceAs (Decidable (MapsTo r.blockRanges a d))

def empty : BlockRangeInformation where
  blockRanges := []
  rangesByDescriptor := fun _ => none
  sync := by simp [MapsTo]

/-- `AddRange`.  An empty range leaves the address view alone but still makes the
descriptor known. -/
def addRange (r : BlockRangeInformation) (range : Option Interval)
    (location : LocationDescriptor) : BlockRangeInformation where
  blockRanges := range.toList.map (·, location) ++ r.blockRanges
  rangesByDescriptor := Function.update r.rangesByDescriptor location
    (some (range.toList.foldl IntervalSet.add ((r.rangesByDescriptor location).getD [])))
  sync := by
    intro d a
    have hsync := r.sync d a
    simp only [MapsTo, List.mem_append, List.mem_map] at hsync ⊢
    by_cases hd : d = location
    · subst hd
      simp only [Function.update_self, Option.getD_some, covers_add_all, ← hsync]
      constructor
      · rintro ⟨_, ⟨I, hI, rfl⟩ | hmem, hd, ha⟩
        · exact .inl ⟨I, hI, ha⟩
        · exact .inr ⟨_, hmem, hd, ha⟩
      · rintro (⟨I, hI, ha⟩ | ⟨entry, hmem, hd, ha⟩)
        · exact ⟨(I, d), .inl ⟨I, hI, rfl⟩, rfl, ha⟩
        · exact ⟨entry, .inr hmem, hd, ha⟩
    · rw [Function.update_of_ne hd, ← hsync]
      constructor
      · rintro ⟨_, ⟨I, hI, rfl⟩ | hmem, he, ha⟩
        · exact absurd he.symm hd
        · exact ⟨_, hmem, he, ha⟩
      · rintro ⟨entry, hmem, he, ha⟩
        exact ⟨entry, .inr hmem, he, ha⟩

def clearCache (_ : BlockRangeInformation) : BlockRangeInformation := empty

/-- The body of the loop of `InvalidateLocations`: a descriptor is invalidated as
a unit, on all of its ranges. -/
def invalidateLocation (r : BlockRangeInformation) (descriptor : LocationDescriptor) :
    BlockRangeInformation where
  blockRanges := ((r.rangesByDescriptor descriptor).getD []).foldl
    (fun rs I => subtract rs I descriptor) r.blockRanges
  rangesByDescriptor := Function.update r.rangesByDescriptor descriptor none
  sync := by
    intro d a
    rw [mapsTo_subtract_all, r.sync d a]
    by_cases hd : d = descriptor
    · subst hd
      simp
    · simp [hd]

def invalidateLocations (r : BlockRangeInformation) (locations : List LocationDescriptor) :
    BlockRangeInformation :=
  locations.foldl invalidateLocation r

/-- The descriptors `InvalidateRanges` collects: those of every entry of the
interval map that meets one of the ranges. -/
def locationsMeeting (r : BlockRangeInformation) (ranges : IntervalSet) :
    List LocationDescriptor :=
  (ranges.flatMap fun I => (r.blockRanges.filter (·.1.meets I)).map (·.2)).dedup

def invalidateRanges (r : BlockRangeInformation) (ranges : IntervalSet) :
    List LocationDescriptor × BlockRangeInformation :=
  let eraseLocations := r.locationsMeeting ranges
  (eraseLocations, r.invalidateLocations eraseLocations)

/-! ### What the operations do to the registered relation -/

@[simp] theorem not_registered_empty (d : LocationDescriptor) (a : ℕ) :
    ¬empty.Registered d a := by simp [Registered, empty, MapsTo]

@[simp] theorem not_registered_clearCache (r : BlockRangeInformation)
    (d : LocationDescriptor) (a : ℕ) : ¬r.clearCache.Registered d a :=
  not_registered_empty d a

variable {r : BlockRangeInformation} {d : LocationDescriptor}

theorem registered_addRange {range : Option Interval} {location : LocationDescriptor} {a : ℕ} :
    (r.addRange range location).Registered d a ↔
      r.Registered d a ∨ d = location ∧ ∃ I ∈ range, a ∈ I := by
  simp only [Registered, addRange, MapsTo, List.mem_append, List.mem_map, Option.mem_toList]
  constructor
  · rintro ⟨_, ⟨I, hI, rfl⟩ | hmem, hd, ha⟩
    · exact .inr ⟨hd.symm, I, hI, ha⟩
    · exact .inl ⟨_, hmem, hd, ha⟩
  · rintro (⟨entry, hmem, hd, ha⟩ | ⟨rfl, I, hI, ha⟩)
    · exact ⟨entry, .inr hmem, hd, ha⟩
    · exact ⟨(I, d), .inl ⟨I, hI, rfl⟩, rfl, ha⟩

theorem registered_invalidateLocation {descriptor : LocationDescriptor} {a : ℕ} :
    (r.invalidateLocation descriptor).Registered d a ↔
      r.Registered d a ∧ d ≠ descriptor := by
  simp only [Registered, invalidateLocation, mapsTo_subtract_all]
  constructor
  · rintro ⟨h, hnot⟩
    refine ⟨h, ?_⟩
    -- a registered address of the descriptor is one of its own ranges
    rintro rfl
    exact hnot ⟨rfl, (r.sync d a).mp h⟩
  · rintro ⟨h, hne⟩
    exact ⟨h, fun hd => hne hd.1⟩

theorem registered_invalidateLocations {locations : List LocationDescriptor} {a : ℕ} :
    (r.invalidateLocations locations).Registered d a ↔ r.Registered d a ∧ d ∉ locations := by
  unfold invalidateLocations
  induction locations generalizing r with
  | nil => simp
  | cons l locations ih =>
      rw [List.foldl_cons, ih, registered_invalidateLocation, List.mem_cons, not_or, and_assoc]

theorem rangesByDescriptor_invalidateLocations {locations : List LocationDescriptor} :
    (r.invalidateLocations locations).rangesByDescriptor d =
      if d ∈ locations then none else r.rangesByDescriptor d := by
  unfold invalidateLocations
  induction locations generalizing r with
  | nil => simp
  | cons l locations ih =>
      rw [List.foldl_cons, ih]
      by_cases hd : d = l
      · subst hd
        simp [invalidateLocation]
      · simp [invalidateLocation, hd]

theorem mem_locationsMeeting {ranges : IntervalSet} :
    d ∈ r.locationsMeeting ranges ↔ ∃ a, ranges.Covers a ∧ r.Registered d a := by
  simp only [locationsMeeting, List.mem_dedup, List.mem_flatMap, List.mem_map,
    List.mem_filter, Interval.meets_iff, Registered, MapsTo, IntervalSet.Covers]
  constructor
  · rintro ⟨I, hI, entry, ⟨hmem, a, ha, haI⟩, rfl⟩
    exact ⟨a, ⟨I, hI, haI⟩, entry, hmem, rfl, ha⟩
  · rintro ⟨a, ⟨I, hI, haI⟩, entry, hmem, rfl, ha⟩
    exact ⟨I, hI, entry, ⟨hmem, a, ha, haI⟩, rfl⟩

theorem registered_invalidateRanges {ranges : IntervalSet} {a : ℕ} :
    (r.invalidateRanges ranges).2.Registered d a ↔
      r.Registered d a ∧ ¬∃ b, ranges.Covers b ∧ r.Registered d b := by
  simp only [invalidateRanges, registered_invalidateLocations, mem_locationsMeeting]

end BlockRangeInformation

end Umbra.Backend
