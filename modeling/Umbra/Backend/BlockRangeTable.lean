import Mathlib.Algebra.BigOperators.Finprod
import Mathlib.Data.List.AList
import Umbra.Backend.BlockRangeInformation
import Umbra.Lib.IntervalMap

/-!
The registry of guest ranges as it is stored.

`BlockRangeInformation` keeps an interval map from addresses to sets of descriptors, and a
hash table from descriptors to their ranges, in which a second range turns a single interval
into an interval set.  A counter beside them is kept up to date by additions and subtractions
of sizes.  The stored registry represents the relation of descriptors and addresses on which
the models of the code caches are built, and the counter is the number of intervals in it.
-/

namespace Umbra.Backend

open Umbra.Lib Umbra.IR

/-- The ranges of one descriptor.  The set is allocated when a second range is added. -/
structure DescriptorRanges where
  first : Option Interval
  multiple : Option IntervalSet

namespace DescriptorRanges

def allocated (r : DescriptorRanges) : IntervalSet :=
  r.multiple.getD (r.first.toList.foldl IntervalSet.add [])

def add (r : DescriptorRanges) (range : Option Interval) : DescriptorRanges :=
  { r with multiple := some (range.toList.foldl IntervalSet.add r.allocated) }

def size (r : DescriptorRanges) : ℕ :=
  match r.multiple with
  | some ranges => ranges.length
  | none => if r.first.isSome then 1 else 0

def intervals (r : DescriptorRanges) : IntervalSet :=
  match r.multiple with
  | some ranges => ranges
  | none => r.first.toList

theorem size_eq (r : DescriptorRanges) : r.size = r.intervals.length := by
  obtain ⟨first, _ | ranges⟩ := r
  · cases first <;> rfl
  · rfl

theorem intervals_eq_allocated (r : DescriptorRanges) : r.intervals = r.allocated := by
  obtain ⟨first, _ | ranges⟩ := r
  · cases first <;> rfl
  · rfl

theorem intervals_add (r : DescriptorRanges) (range : Option Interval) :
    (r.add range).intervals = range.toList.foldl IntervalSet.add r.intervals := by
  rw [intervals_eq_allocated r]
  rfl

end DescriptorRanges

abbrev DescriptorTable := AList fun _ : LocationDescriptor => DescriptorRanges

structure BlockRangeTable where
  blockRanges : IntervalMap LocationDescriptor
  rangesByDescriptor : DescriptorTable
  rangeCount : BitVec 64
  invalidatedDescriptors : BitVec 64

structure WalkOrder where
  list : Finset LocationDescriptor → List LocationDescriptor
  nodup : ∀ S, (list S).Nodup
  toFinset : ∀ S, (list S).toFinset = S

instance : Nonempty WalkOrder := ⟨⟨Finset.toList, Finset.nodup_toList, Finset.toList_toFinset⟩⟩

structure BlockRangeStats where
  rangeCount : BitVec 64
  descriptorCount : ℕ
  invalidatedDescriptors : BitVec 64

namespace BlockRangeTable

def empty : BlockRangeTable := ⟨.empty, ∅, 0#64, 0#64⟩

def addRange (t : BlockRangeTable) (range : Option Interval) (location : LocationDescriptor) :
    BlockRangeTable :=
  let t := { t with blockRanges := t.blockRanges.add range {location} }
  match t.rangesByDescriptor.lookup location with
  | none =>
      let descriptorRanges : DescriptorRanges := ⟨range, none⟩
      { t with
        rangesByDescriptor := t.rangesByDescriptor.insert location descriptorRanges
        rangeCount := t.rangeCount + BitVec.ofNat 64 descriptorRanges.size }
  | some descriptorRanges =>
      let previousRangeCount := descriptorRanges.size
      let descriptorRanges := descriptorRanges.add range
      let currentRangeCount := descriptorRanges.size
      { t with
        rangesByDescriptor := t.rangesByDescriptor.insert location descriptorRanges
        rangeCount :=
          if currentRangeCount ≥ previousRangeCount then
            t.rangeCount + BitVec.ofNat 64 (currentRangeCount - previousRangeCount)
          else t.rangeCount - BitVec.ofNat 64 (previousRangeCount - currentRangeCount) }

def clearCache (t : BlockRangeTable) : BlockRangeTable :=
  { t with blockRanges := .empty, rangesByDescriptor := ∅, rangeCount := 0#64 }

def invalidateLocation (t : BlockRangeTable) (descriptor : LocationDescriptor) :
    BlockRangeTable :=
  match t.rangesByDescriptor.lookup descriptor with
  | none => t
  | some descriptorRanges =>
      { t with
        blockRanges := descriptorRanges.intervals.foldl
          (fun ranges I => ranges.subtract I {descriptor}) t.blockRanges
        rangeCount := t.rangeCount - BitVec.ofNat 64 descriptorRanges.size
        rangesByDescriptor := t.rangesByDescriptor.erase descriptor }

def invalidateLocations (t : BlockRangeTable) (locations : List LocationDescriptor) :
    BlockRangeTable :=
  locations.foldl invalidateLocation
    { t with
      invalidatedDescriptors := t.invalidatedDescriptors + BitVec.ofNat 64 locations.length }

/-- The inner loop of `InvalidateRanges`: the segments from `lower_bound` on, up to the first one
behind the range. -/
def collect (last : ℕ) :
    List (Segment LocationDescriptor) → Finset LocationDescriptor → Finset LocationDescriptor
  | [], eraseLocations => eraseLocations
  | segment :: rest, eraseLocations =>
      if segment.1.lo > last then eraseLocations
      else collect last rest (eraseLocations ∪ segment.2)

def eraseLocations (t : BlockRangeTable) (ranges : IntervalSet) : Finset LocationDescriptor :=
  ranges.foldl (fun found I => collect I.hi (t.blockRanges.lowerBound I.lo) found) ∅

def invalidateRanges (order : WalkOrder) (t : BlockRangeTable) (ranges : IntervalSet) :
    Finset LocationDescriptor × BlockRangeTable :=
  (t.eraseLocations ranges, t.invalidateLocations (order.list (t.eraseLocations ranges)))

def getStats (t : BlockRangeTable) : BlockRangeStats where
  rangeCount := t.rangeCount
  descriptorCount := t.rangesByDescriptor.entries.length
  invalidatedDescriptors := t.invalidatedDescriptors

/-! ### The search -/

variable {t : BlockRangeTable} {r : BlockRangeInformation} {d location : LocationDescriptor}
  {a : ℕ}

theorem mem_collect {last : ℕ} {segments : List (Segment LocationDescriptor)}
    {found : Finset LocationDescriptor} :
    d ∈ collect last segments found ↔
      d ∈ found ∨ ∃ s ∈ segments.takeWhile (fun s => decide (s.1.lo ≤ last)), d ∈ s.2 := by
  induction segments generalizing found with
  | nil => simp [collect]
  | cons s rest ih =>
      unfold collect
      split
      · rename_i hlast
        simp [not_le.mpr hlast]
      · rename_i hlast
        rw [ih, List.takeWhile_cons, if_pos (by simpa using hlast), Finset.mem_union]
        simp only [List.mem_cons, exists_eq_or_imp, or_assoc]

theorem mem_eraseLocations {ranges : IntervalSet} :
    d ∈ t.eraseLocations ranges ↔ ∃ a, ranges.Covers a ∧ t.blockRanges.MapsTo a d := by
  have hfold : ∀ found : Finset LocationDescriptor,
      d ∈ ranges.foldl (fun found I => collect I.hi (t.blockRanges.lowerBound I.lo) found) found ↔
        d ∈ found ∨ ∃ I ∈ ranges, ∃ s ∈ t.blockRanges.segments, s.1.meets I = true ∧ d ∈ s.2 := by
    induction ranges with
    | nil => simp
    | cons I ranges ih =>
        intro found
        rw [List.foldl_cons, ih, mem_collect]
        simp only [IntervalMap.lowerBound, mem_takeWhile_dropWhile t.blockRanges.ascending,
          List.mem_cons, exists_eq_or_imp, and_assoc, or_assoc]
  rw [eraseLocations, hfold]
  simp only [Finset.notMem_empty, false_or, Interval.meets_iff]
  constructor
  · rintro ⟨I, hI, s, hs, ⟨a, ha, haI⟩, hd⟩
    exact ⟨a, ⟨I, hI, haI⟩, s, hs, ha, hd⟩
  · rintro ⟨a, ⟨I, hI, haI⟩, s, hs, ha, hd⟩
    exact ⟨I, hI, s, hs, ⟨a, ha, haI⟩, hd⟩

/-! ### The relation it represents -/

/-- The stored registry and the relation have the same descriptors at every address and the same
ranges for every descriptor. -/
structure Represents (t : BlockRangeTable) (r : BlockRangeInformation) : Prop where
  mapsTo : ∀ a d, t.blockRanges.MapsTo a d ↔ r.Registered d a
  ranges : ∀ d, (t.rangesByDescriptor.lookup d).map DescriptorRanges.intervals =
    r.rangesByDescriptor d

theorem represents_empty : Represents empty .empty where
  mapsTo a d := iff_of_false (fun h => not_segmentsMap_nil h)
    (BlockRangeInformation.not_registered_empty d a)
  ranges _ := rfl

theorem represents_clearCache (t : BlockRangeTable) (r : BlockRangeInformation) :
    Represents t.clearCache r.clearCache where
  mapsTo := represents_empty.mapsTo
  ranges := represents_empty.ranges

theorem addRange_eq (t : BlockRangeTable) (range : Option Interval)
    (location : LocationDescriptor) :
    ∃ ranges : DescriptorRanges,
      ranges.intervals = range.toList.foldl IntervalSet.add
        (((t.rangesByDescriptor.lookup location).map DescriptorRanges.intervals).getD []) ∧
      (t.addRange range location).blockRanges = t.blockRanges.add range {location} ∧
      (t.addRange range location).rangesByDescriptor =
        t.rangesByDescriptor.insert location ranges ∧
      (t.addRange range location).rangeCount = t.rangeCount + BitVec.ofNat 64 ranges.size -
        BitVec.ofNat 64 (((t.rangesByDescriptor.lookup location).map DescriptorRanges.size).getD 0) := by
  cases hlookup : t.rangesByDescriptor.lookup location with
  | none =>
      refine ⟨⟨range, none⟩, ?_, ?_⟩
      · cases range <;> rfl
      · simp [addRange, hlookup]
  | some ranges =>
      refine ⟨ranges.add range, ranges.intervals_add range, ?_⟩
      have hsplit : ∀ m n : ℕ, n ≤ m →
          BitVec.ofNat 64 m = BitVec.ofNat 64 (m - n) + BitVec.ofNat 64 n := fun m n hle => by
        rw [← BitVec.ofNat_add, Nat.sub_add_cancel hle]
      simp only [addRange, hlookup, Option.map_some, Option.getD_some, true_and]
      split
      · rename_i hge
        rw [hsplit _ _ hge, ← BitVec.add_assoc, BitVec.add_sub_cancel]
      · rename_i hlt
        rw [hsplit ranges.size _ (not_le.mp hlt).le]
        grind

theorem Represents.addRange (h : Represents t r) (range : Option Interval)
    (location : LocationDescriptor) :
    Represents (t.addRange range location) (r.addRange range location) := by
  obtain ⟨ranges, hranges, hblocks, htable, -⟩ := t.addRange_eq range location
  refine ⟨fun a d => ?_, fun d => ?_⟩
  · rw [hblocks, IntervalMap.mapsTo_add, h.mapsTo, BlockRangeInformation.registered_addRange,
      Finset.mem_singleton, and_comm (a := d = location)]
  · rw [htable]
    by_cases hd : d = location
    · subst hd
      rw [AList.lookup_insert, Option.map_some, hranges, h.ranges]
      simp [BlockRangeInformation.addRange]
    · rw [AList.lookup_insert_ne hd, h.ranges]
      simp [BlockRangeInformation.addRange, hd]

theorem mapsTo_subtract_each {S : IntervalSet} {M : IntervalMap LocationDescriptor} :
    (S.foldl (fun ranges I => ranges.subtract I {location}) M).MapsTo a d ↔
      M.MapsTo a d ∧ ¬(d = location ∧ S.Covers a) := by
  induction S generalizing M with
  | nil => simp
  | cons I S ih =>
      rw [List.foldl_cons, ih, IntervalMap.mapsTo_subtract, IntervalSet.covers_cons,
        Finset.mem_singleton]
      tauto

theorem invalidateLocation_eq (t : BlockRangeTable) (location : LocationDescriptor) :
    (t.invalidateLocation location).blockRanges =
        (((t.rangesByDescriptor.lookup location).map DescriptorRanges.intervals).getD []).foldl
          (fun ranges I => ranges.subtract I {location}) t.blockRanges ∧
      (t.invalidateLocation location).rangesByDescriptor = t.rangesByDescriptor.erase location ∧
      (t.invalidateLocation location).rangeCount = t.rangeCount -
        BitVec.ofNat 64 (((t.rangesByDescriptor.lookup location).map DescriptorRanges.size).getD 0) := by
  unfold invalidateLocation
  cases hlookup : t.rangesByDescriptor.lookup location with
  | none =>
      refine ⟨rfl, ?_, (BitVec.sub_zero _).symm⟩
      exact AList.ext (List.kerase_of_notMem_keys (AList.lookup_eq_none.mp hlookup)).symm
  | some ranges => exact ⟨rfl, rfl, rfl⟩

theorem Represents.invalidateLocation (h : Represents t r) (location : LocationDescriptor) :
    Represents (t.invalidateLocation location) (r.invalidateLocation location) := by
  obtain ⟨hblocks, htable, -⟩ := t.invalidateLocation_eq location
  refine ⟨fun a d => ?_, fun d => ?_⟩
  · rw [hblocks, mapsTo_subtract_each, h.mapsTo, h.ranges,
      BlockRangeInformation.registered_invalidateLocation]
    refine and_congr_right fun hreg => not_congr ?_
    constructor
    · exact fun hd => hd.1
    · rintro rfl
      exact ⟨rfl, (r.sync d a).mp hreg⟩
  · rw [htable]
    by_cases hd : d = location
    · subst hd
      simp [BlockRangeInformation.invalidateLocation]
    · rw [AList.lookup_erase_ne hd, h.ranges]
      simp [BlockRangeInformation.invalidateLocation, hd]

theorem Represents.invalidateLocations (h : Represents t r) (locations : List LocationDescriptor) :
    Represents (t.invalidateLocations locations) (r.invalidateLocations locations) := by
  have hfold : ∀ t r, Represents t r →
      Represents (locations.foldl BlockRangeTable.invalidateLocation t)
        (locations.foldl BlockRangeInformation.invalidateLocation r) := by
    induction locations with
    | nil => exact fun t r h => h
    | cons location rest ih => exact fun t r h => ih _ _ (h.invalidateLocation location)
  exact hfold _ r ⟨h.mapsTo, h.ranges⟩

theorem lookup_invalidateLocations {locations : List LocationDescriptor} (hd : d ∉ locations) :
    (t.invalidateLocations locations).rangesByDescriptor.lookup d =
      t.rangesByDescriptor.lookup d := by
  have hfold : ∀ t : BlockRangeTable, (locations.foldl BlockRangeTable.invalidateLocation
      t).rangesByDescriptor.lookup d = t.rangesByDescriptor.lookup d := by
    induction locations with
    | nil => exact fun t => rfl
    | cons location rest ih =>
        obtain ⟨hne, hrest⟩ := not_or.mp fun h => hd (List.mem_cons.mpr h)
        intro t
        rw [List.foldl_cons, ih hrest, (t.invalidateLocation_eq location).2.1,
          AList.lookup_erase_ne hne]
  exact hfold _

theorem represents_of_mem_iff {locations locations' : List LocationDescriptor}
    (h : Represents t (r.invalidateLocations locations))
    (hmem : ∀ d, d ∈ locations ↔ d ∈ locations') :
    Represents t (r.invalidateLocations locations') where
  mapsTo a d := by
    rw [h.mapsTo, BlockRangeInformation.registered_invalidateLocations,
      BlockRangeInformation.registered_invalidateLocations, hmem]
  ranges d := by
    rw [h.ranges, BlockRangeInformation.rangesByDescriptor_invalidateLocations,
      BlockRangeInformation.rangesByDescriptor_invalidateLocations]
    simp only [hmem]

theorem Represents.mem_eraseLocations (h : Represents t r) {ranges : IntervalSet} :
    d ∈ t.eraseLocations ranges ↔ d ∈ r.locationsMeeting ranges := by
  rw [BlockRangeTable.mem_eraseLocations, BlockRangeInformation.mem_locationsMeeting]
  simp only [h.mapsTo]

theorem mem_walk (order : WalkOrder) {S : Finset LocationDescriptor} :
    d ∈ order.list S ↔ d ∈ S := by
  conv_rhs => rw [← order.toFinset S]
  exact List.mem_toFinset.symm

theorem Represents.invalidateRanges (h : Represents t r) (order : WalkOrder)
    (ranges : IntervalSet) :
    Represents (t.invalidateRanges order ranges).2 (r.invalidateRanges ranges).2 :=
  represents_of_mem_iff (h.invalidateLocations _) fun _ =>
    (mem_walk order).trans h.mem_eraseLocations

/-! ### The counter -/

def total (table : DescriptorTable) : ℕ := (table.entries.map fun entry => entry.2.size).sum

theorem total_eq_erase (table : DescriptorTable) (location : LocationDescriptor) :
    total table = ((table.lookup location).map DescriptorRanges.size).getD 0 +
      total (table.erase location) := by
  by_cases hmem : location ∈ table
  · obtain ⟨ranges, before, after, -, hentries, herase⟩ := List.exists_of_kerase hmem
    have hlookup : table.lookup location = some ranges :=
      AList.mem_lookup_iff.mpr (by rw [hentries]; simp)
    have hsum : total (table.erase location) =
        ((before ++ after).map fun entry => entry.2.size).sum := by
      rw [← herase]
      rfl
    rw [hlookup, hsum, total, hentries]
    simp only [List.map_append, List.sum_append, List.map_cons, List.sum_cons, Option.map_some,
      Option.getD_some]
    omega
  · rw [AList.lookup_eq_none.mpr hmem, AList.ext (s := table.erase location) (t := table)
      (List.kerase_of_notMem_keys hmem)]
    simp

theorem total_insert (table : DescriptorTable) (location : LocationDescriptor)
    (ranges : DescriptorRanges) :
    total (table.insert location ranges) = ranges.size + total (table.erase location) := by
  rw [total, AList.entries_insert]
  rfl

/-- The counter is the number of intervals, and those of a descriptor are joined. -/
structure Counted (t : BlockRangeTable) : Prop where
  rangeCount : t.rangeCount = BitVec.ofNat 64 (total t.rangesByDescriptor)
  separated : ∀ d ranges, t.rangesByDescriptor.lookup d = some ranges →
    IntervalSet.Separated ranges.intervals

theorem counted_empty : Counted empty where
  rangeCount := rfl
  separated d ranges h := by
    rw [empty, AList.lookup_empty] at h
    cases h

theorem counted_clearCache (t : BlockRangeTable) : Counted t.clearCache where
  rangeCount := rfl
  separated := counted_empty.separated

theorem Counted.addRange (h : Counted t) (range : Option Interval)
    (location : LocationDescriptor) : Counted (t.addRange range location) := by
  obtain ⟨ranges, hranges, -, htable, hcount⟩ := t.addRange_eq range location
  have htotal := total_eq_erase t.rangesByDescriptor location
  refine ⟨?_, fun d ranges' hlookup => ?_⟩
  · rw [hcount, htable, total_insert, h.rangeCount, htotal, BitVec.ofNat_add, BitVec.ofNat_add]
    grind
  · rw [htable] at hlookup
    by_cases hd : d = location
    · subst hd
      obtain rfl : ranges = ranges' := Option.some.inj ((AList.lookup_insert _).symm.trans hlookup)
      rw [hranges]
      have hbefore : IntervalSet.Separated
          (((t.rangesByDescriptor.lookup d).map DescriptorRanges.intervals).getD []) := by
        cases hold : t.rangesByDescriptor.lookup d with
        | none => exact List.Pairwise.nil
        | some old => exact h.separated d old hold
      cases range with
      | none => exact hbefore
      | some I => exact IntervalSet.separated_add hbefore I
    · exact h.separated d ranges' ((AList.lookup_insert_ne hd).symm.trans hlookup)

theorem Counted.invalidateLocation (h : Counted t) (location : LocationDescriptor) :
    Counted (t.invalidateLocation location) := by
  obtain ⟨-, htable, hcount⟩ := t.invalidateLocation_eq location
  have htotal := total_eq_erase t.rangesByDescriptor location
  refine ⟨?_, fun d ranges hlookup => ?_⟩
  · rw [hcount, htable, h.rangeCount, htotal, BitVec.ofNat_add]
    grind
  · rw [htable] at hlookup
    by_cases hd : d = location
    · subst hd
      rw [AList.lookup_erase] at hlookup
      cases hlookup
    · exact h.separated d ranges ((AList.lookup_erase_ne hd).symm.trans hlookup)

theorem Counted.invalidateLocations (h : Counted t) (locations : List LocationDescriptor) :
    Counted (t.invalidateLocations locations) := by
  have hfold : ∀ t, Counted t → Counted (locations.foldl BlockRangeTable.invalidateLocation t) := by
    induction locations with
    | nil => exact fun t h => h
    | cons location rest ih => exact fun t h => ih _ (h.invalidateLocation location)
  exact hfold _ ⟨h.rangeCount, h.separated⟩

theorem size_le_total {table : DescriptorTable} {ranges : DescriptorRanges}
    (h : table.lookup d = some ranges) : ranges.size ≤ total table := by
  rw [total_eq_erase table d, h]
  exact Nat.le_add_right _ _

/-- The intervals of the table are the maximal intervals of the descriptors' addresses. -/
theorem finsum_maximalIntervals (ht : Counted t) (h : Represents t r) :
    ∑ᶠ d, maximalIntervals {a | r.Registered d a} = total t.rangesByDescriptor := by
  have hsize : ∀ d, maximalIntervals {a | r.Registered d a} =
      ((t.rangesByDescriptor.lookup d).map DescriptorRanges.size).getD 0 := by
    intro d
    have hset : {a | r.Registered d a} = {a | IntervalSet.Covers
        (((t.rangesByDescriptor.lookup d).map DescriptorRanges.intervals).getD []) a} := by
      ext a
      rw [h.ranges]
      exact r.sync d a
    rw [hset]
    cases hlookup : t.rangesByDescriptor.lookup d with
    | none => exact IntervalSet.maximalIntervals_eq_length List.Pairwise.nil
    | some ranges =>
        rw [Option.map_some, Option.getD_some, Option.map_some, Option.getD_some, ranges.size_eq]
        exact IntervalSet.maximalIntervals_eq_length (ht.separated d ranges hlookup)
  have hsupport : (Function.support fun d => maximalIntervals {a | r.Registered d a}) ⊆
      (t.rangesByDescriptor.keys.toFinset : Set LocationDescriptor) := by
    intro d hd
    rw [List.coe_toFinset]
    by_contra hnot
    refine hd ?_
    simp only [hsize, AList.lookup_eq_none.mpr hnot, Option.map_none, Option.getD_none]
  rw [finsum_eq_sum_of_support_subset _ hsupport, List.sum_toFinset _ t.rangesByDescriptor.keys_nodup,
    total, AList.keys, List.keys, List.map_map]
  congr 1
  refine List.map_congr_left fun entry hentry => ?_
  have hlookup : t.rangesByDescriptor.lookup entry.1 = some entry.2 :=
    AList.mem_lookup_iff.mpr hentry
  simp only [Function.comp_apply, hsize, hlookup, Option.map_some, Option.getD_some]

end BlockRangeTable

/-! ### Every sequence of calls -/

inductive RangeCall where
  | addRange (range : Option Interval) (location : LocationDescriptor)
  | invalidateRanges (ranges : IntervalSet)
  | invalidateLocations (locations : List LocationDescriptor)
  | clearCache

def BlockRangeTable.call (order : WalkOrder) (t : BlockRangeTable) : RangeCall → BlockRangeTable
  | .addRange range location => t.addRange range location
  | .invalidateRanges ranges => (t.invalidateRanges order ranges).2
  | .invalidateLocations locations => t.invalidateLocations locations
  | .clearCache => t.clearCache

/-- The ranges registered for each descriptor and not invalidated since. -/
abbrev LiveRanges := LocationDescriptor → List Interval

namespace LiveRanges

def Meets (live : LiveRanges) (ranges : IntervalSet) (d : LocationDescriptor) : Prop :=
  ∃ I ∈ live d, ∃ J ∈ ranges, I.meets J = true

instance (live : LiveRanges) (ranges : IntervalSet) (d : LocationDescriptor) :
    Decidable (live.Meets ranges d) :=
  inferInstanceAs (Decidable (∃ I ∈ live d, ∃ J ∈ ranges, I.meets J = true))

def call (live : LiveRanges) : RangeCall → LiveRanges
  | .addRange range location => fun d =>
      if d = location then range.toList ++ live d else live d
  | .invalidateRanges ranges => fun d => if live.Meets ranges d then [] else live d
  | .invalidateLocations locations => fun d => if d ∈ locations then [] else live d
  | .clearCache => fun _ => []

theorem meets_iff {live : LiveRanges} {ranges : IntervalSet} {d : LocationDescriptor} :
    live.Meets ranges d ↔ ∃ a, ranges.Covers a ∧ ∃ I ∈ live d, a ∈ I := by
  simp only [Meets, Interval.meets_iff, IntervalSet.Covers]
  constructor
  · rintro ⟨I, hI, J, hJ, a, ha, haJ⟩
    exact ⟨a, ⟨J, hJ, haJ⟩, I, hI, ha⟩
  · rintro ⟨a, ⟨J, hJ, haJ⟩, I, hI, ha⟩
    exact ⟨I, hI, J, hJ, a, ha, haJ⟩

end LiveRanges

namespace BlockRangeTable

variable {t : BlockRangeTable} {d : LocationDescriptor} {a : ℕ}

/-- What holds after any sequence of calls: the stored registry is a relation counted right, and
the relation is that of the live ranges. -/
def Keeps (t : BlockRangeTable) (live : LiveRanges) : Prop :=
  Counted t ∧ ∃ r, Represents t r ∧ ∀ d a, r.Registered d a ↔ ∃ I ∈ live d, a ∈ I

theorem Keeps.call {live : LiveRanges} (h : Keeps t live) (order : WalkOrder) (c : RangeCall) :
    Keeps (t.call order c) (live.call c) := by
  obtain ⟨hcounted, r, hr, hlive⟩ := h
  cases c with
  | addRange range location =>
      refine ⟨hcounted.addRange range location, _, hr.addRange range location, fun d a => ?_⟩
      rw [BlockRangeInformation.registered_addRange, hlive]
      by_cases hd : d = location
      · simp [LiveRanges.call, hd, or_and_right, exists_or, or_comm]
      · simp [LiveRanges.call, hd]
  | invalidateRanges ranges =>
      refine ⟨hcounted.invalidateLocations _, _, hr.invalidateRanges order ranges, fun d a => ?_⟩
      rw [BlockRangeInformation.registered_invalidateRanges]
      simp only [hlive, ← LiveRanges.meets_iff, LiveRanges.call]
      split
      · rename_i hmeets
        simp [hmeets]
      · rename_i hmeets
        exact and_iff_left hmeets
  | invalidateLocations locations =>
      refine ⟨hcounted.invalidateLocations _, _, hr.invalidateLocations locations, fun d a => ?_⟩
      rw [BlockRangeInformation.registered_invalidateLocations, hlive]
      by_cases hd : d ∈ locations
      · simp [LiveRanges.call, hd]
      · simp [LiveRanges.call, hd]
  | clearCache =>
      refine ⟨counted_clearCache t, _, represents_clearCache t r, fun d a => ?_⟩
      simp [LiveRanges.call]

theorem keeps_run (order : WalkOrder) (calls : List RangeCall) :
    Keeps (calls.foldl (BlockRangeTable.call order) empty)
      (calls.foldl LiveRanges.call fun _ => []) := by
  have hrun : ∀ t live, Keeps t live → Keeps (calls.foldl (BlockRangeTable.call order) t)
      (calls.foldl LiveRanges.call live) := by
    induction calls with
    | nil => exact fun t live h => h
    | cons c rest ih => exact fun t live h => ih _ _ (h.call order c)
  refine hrun _ _ ⟨counted_empty, _, represents_empty, fun d a => ?_⟩
  simp

/-- After any sequence of calls, `InvalidateRanges` returns the descriptors with a live range that
meets the given ones; no address maps to a returned descriptor afterwards, and the others keep
their ranges.  The counter is the number of maximal intervals over all descriptors, and never
below what is subtracted from it. -/
theorem blockRanges_exact (order : WalkOrder) (calls : List RangeCall) :
    let t := calls.foldl (BlockRangeTable.call order) empty
    let live := calls.foldl LiveRanges.call fun _ => []
    let total := ∑ᶠ d, maximalIntervals {a | ∃ I ∈ live d, a ∈ I}
    (∀ d a, t.blockRanges.MapsTo a d ↔ ∃ I ∈ live d, a ∈ I) ∧
    (∀ d a, IntervalSet.Covers
      (((t.rangesByDescriptor.lookup d).map DescriptorRanges.intervals).getD []) a ↔
        ∃ I ∈ live d, a ∈ I) ∧
    (∀ Q d, d ∈ (t.invalidateRanges order Q).1 ↔ live.Meets Q d) ∧
    (∀ Q d, d ∈ (t.invalidateRanges order Q).1 →
      ∀ a, ¬(t.invalidateRanges order Q).2.blockRanges.MapsTo a d) ∧
    (∀ Q d, d ∉ (t.invalidateRanges order Q).1 →
      (∀ a, (t.invalidateRanges order Q).2.blockRanges.MapsTo a d ↔ ∃ I ∈ live d, a ∈ I) ∧
      (t.invalidateRanges order Q).2.rangesByDescriptor.lookup d =
        t.rangesByDescriptor.lookup d) ∧
    t.getStats.rangeCount = BitVec.ofNat 64 total ∧
    (∀ d ranges, t.rangesByDescriptor.lookup d = some ranges → ranges.size ≤ total) := by
  intro t live total
  obtain ⟨hcounted, r, hr, hlive⟩ := keeps_run order calls
  have hmeets : ∀ Q d, d ∈ t.eraseLocations Q ↔ live.Meets Q d := fun Q d => by
    rw [hr.mem_eraseLocations, BlockRangeInformation.mem_locationsMeeting, LiveRanges.meets_iff]
    simp only [hlive]
    rfl
  have hafter : ∀ Q d a, (t.invalidateRanges order Q).2.blockRanges.MapsTo a d ↔
      (∃ I ∈ live d, a ∈ I) ∧ d ∉ t.eraseLocations Q := fun Q d a => by
    have hkeep := hr.invalidateLocations (order.list (t.eraseLocations Q))
    rw [invalidateRanges, hkeep.mapsTo, BlockRangeInformation.registered_invalidateLocations, hlive,
      mem_walk]
  have htotal : total = BlockRangeTable.total t.rangesByDescriptor := by
    rw [← finsum_maximalIntervals hcounted hr]
    simp only [hlive]
    rfl
  refine ⟨fun d a => (hr.mapsTo a d).trans (hlive d a), fun d a => ?_, hmeets,
    fun Q d hd a h => ((hafter Q d a).mp h).2 hd, fun Q d hd =>
      ⟨fun a => (hafter Q d a).trans (and_iff_left hd), ?_⟩, ?_, fun d ranges hlookup => ?_⟩
  · rw [hr.ranges]
    exact (r.sync d a).symm.trans (hlive d a)
  · exact lookup_invalidateLocations fun hmem => hd ((mem_walk order).mp hmem)
  · rw [htotal]
    exact hcounted.rangeCount
  · rw [htotal]
    exact size_le_total hlookup

end BlockRangeTable

end Umbra.Backend
