import Umbra.Backend.Slab

/-!
How the slab divides its code memory.

The area behind the prelude is cut into segments of equal size, the last of which takes
what the division leaves over.  The places of the segments never change; emission fills
one segment at a time.
-/

namespace Umbra.Backend

open Umbra.Lib

/-- How the area from `first` to `last` is cut: `count` segments of `bytes` bytes, the
last one up to the end. -/
structure Segmentation where
  first : ℕ
  last : ℕ
  bytes : ℕ
  count : ℕ
  count_pos : 0 < count
  nonnull : first ≠ 0
  room : count = 1 ∨ first + bytes * count ≤ last
  bytes_pos : first < last → 0 < bytes

namespace Segmentation

variable (g : Segmentation)

def segment (i : ℕ) : Range :=
  (g.first + g.bytes * i, if i + 1 = g.count then g.last else g.first + g.bytes * i + g.bytes)

def segments : List Range := (List.range g.count).map g.segment

variable {g}

theorem mem_segments {r : Range} : r ∈ g.segments ↔ ∃ i < g.count, g.segment i = r := by
  simp [segments]

theorem segment_le {i j : ℕ} (hij : i < j) (hj : j < g.count) :
    (g.segment i).2 ≤ (g.segment j).1 := by
  have hmul : g.bytes * (i + 1) ≤ g.bytes * j := Nat.mul_le_mul_left _ hij
  simp only [segment, if_neg (by omega : ¬i + 1 = g.count)]
  rw [Nat.mul_succ] at hmul
  omega

theorem pairwise : g.segments.Pairwise fun r s => r.2 ≤ s.1 :=
  List.pairwise_map.mpr (List.pairwise_lt_range.imp_of_mem fun _ hj hij =>
    segment_le hij (List.mem_range.mp hj))

theorem segment_within {i : ℕ} (hi : i < g.count) :
    g.first ≤ (g.segment i).1 ∧ (g.segment i).2 ≤ g.last := by
  refine ⟨Nat.le_add_right _ _, ?_⟩
  have hmul : g.bytes * (i + 1) ≤ g.bytes * g.count := Nat.mul_le_mul_left _ hi
  have hroom := g.room
  unfold segment
  simp only
  rw [Nat.mul_succ] at hmul
  split_ifs
  · exact le_refl _
  · omega

theorem contains_segment {a : ℕ} (hfirst : g.first ≤ a) (hlast : a < g.last) :
    min ((a - g.first) / g.bytes) (g.count - 1) < g.count ∧
      (g.segment (min ((a - g.first) / g.bytes) (g.count - 1))).Contains a := by
  have hpos := g.bytes_pos (hfirst.trans_lt hlast)
  have hcount := g.count_pos
  have hdiv := Nat.div_add_mod (a - g.first) g.bytes
  have hmod := Nat.mod_lt (a - g.first) hpos
  obtain ⟨q, hq⟩ : ∃ q, q = (a - g.first) / g.bytes := ⟨_, rfl⟩
  rw [← hq] at hdiv ⊢
  refine ⟨by omega, ?_⟩
  unfold Range.Contains segment
  simp only
  by_cases hlt : q < g.count - 1
  · rw [min_eq_left hlt.le, if_neg (by omega)]
    omega
  · have hmul : g.bytes * (g.count - 1) ≤ g.bytes * q := Nat.mul_le_mul_left _ (by omega)
    rw [min_eq_right (by omega), if_pos (by omega)]
    omega

theorem exists_contains_iff {a : ℕ} :
    (∃ r ∈ g.segments, r.Contains a) ↔ g.first ≤ a ∧ a < g.last := by
  constructor
  · rintro ⟨r, hr, ha⟩
    obtain ⟨i, hi, rfl⟩ := mem_segments.mp hr
    obtain ⟨hlo, hhi⟩ := segment_within hi
    exact ⟨hlo.trans ha.1, ha.2.trans_le hhi⟩
  · rintro ⟨hfirst, hlast⟩
    obtain ⟨hlt, hcontains⟩ := contains_segment hfirst hlast
    exact ⟨_, mem_segments.mpr ⟨_, hlt, rfl⟩, hcontains⟩

end Segmentation

def codeRange (segment : CodeSegment) : Range := (segment.beginPtr, segment.endPtr)

theorem map_modify_of_eq {β : Type} (φ : CodeSegment → β) (segments : List CodeSegment) (i : ℕ)
    {f : CodeSegment → CodeSegment} (hf : ∀ segment, φ (f segment) = φ segment) :
    (segments.modify i f).map φ = segments.map φ := by
  induction segments generalizing i with
  | nil => simp
  | cons segment segments ih =>
      cases i with
      | zero => simp [hf]
      | succ i => simp [ih]

theorem segmentBytes_fits {usable count bytes minimum : ℕ} (hminimum : 4096 ≤ minimum)
    (hcount : 0 < count) (hshare : count = 1 ∨ count ≤ usable / minimum)
    (hbytes : bytes = if usable / count / 4096 * 4096 = 0 then usable
      else usable / count / 4096 * 4096) :
    bytes * count ≤ usable ∧ (0 < usable → 0 < bytes) := by
  have hdiv : usable / count * count ≤ usable := Nat.div_mul_le_self _ _
  by_cases hzero : usable / count / 4096 * 4096 = 0
  · rw [if_pos hzero] at hbytes
    obtain rfl : count = 1 := by
      refine hshare.resolve_right fun hle => ?_
      have hshare : minimum ≤ usable / count := by
        rw [Nat.le_div_iff_mul_le hcount, Nat.mul_comm]
        exact (Nat.le_div_iff_mul_le (by omega)).mp hle
      omega
    rw [hbytes, Nat.mul_one]
    exact ⟨le_refl _, id⟩
  · rw [if_neg hzero] at hbytes
    rw [hbytes]
    refine ⟨?_, fun _ => Nat.pos_of_ne_zero hzero⟩
    exact (Nat.mul_le_mul_right count (Nat.div_mul_le_self _ _)).trans hdiv

theorem segmentCount_bounds {count target byMinimum : ℕ}
    (hcount : count = min 48 (min (max 1 target) (max 1 byMinimum))) :
    0 < count ∧ (count = 1 ∨ count ≤ byMinimum) ∧ (target = 0 → count = 1) := by
  omega

namespace Slab

variable {C S : Type} [CodeCache C S]

theorem selectRecycleSegment_lt (s : Slab C) (hpos : 0 < s.codeSegments.length) :
    s.selectRecycleSegment < s.codeSegments.length := by
  unfold selectRecycleSegment
  simp only
  split
  · exact hpos
  · split
    · exact Nat.mod_lt _ hpos
    · -- The loop only ever moves to an index of the list.
      have hfold : ∀ (indices : List ℕ) (victim : ℕ), (∀ i ∈ indices, i < s.codeSegments.length) →
          victim < s.codeSegments.length → indices.foldl (fun victim index =>
            if index = s.currentSegment then victim
            else if (s.codeSegments.getD index default).lastTouch <
                (s.codeSegments.getD victim default).lastTouch then index
            else victim) victim < s.codeSegments.length := by
        intro indices
        induction indices with
        | nil => exact fun victim _ hvictim => hvictim
        | cons index indices ih =>
            intro victim hindices hvictim
            refine ih _ (fun i hi => hindices i (List.mem_cons_of_mem _ hi)) ?_
            simp only
            split_ifs
            · exact hvictim
            · exact hindices index List.mem_cons_self
            · exact hvictim
      refine hfold _ _ (fun i hi => List.mem_range.mp hi) ?_
      split_ifs <;> omega

/-- The slab is created with the segments of a division of its area.  Where the prelude leaves
no room, the number of usable bytes has wrapped around. -/
theorem exists_segmentation_create (cache : C) (shared : Bool) {begin_ usable last : ℕ}
    (hnonnull : begin_ ≠ 0) (hlast : (begin_ + usable) % 2 ^ 64 = last)
    (hexact : begin_ ≤ last → begin_ + usable = last)
    (hwrapped : ¬begin_ ≤ last →
      (usable + 32 * 1024 * 1024 - 1) % 2 ^ 64 / (32 * 1024 * 1024) = 0) :
    ∃ (g : Segmentation) (s : Slab C), g.first = begin_ ∧ g.last = last ∧
      create cache begin_ usable shared = s.resetCodeSegments ∧ s.cache = cache ∧
      s.codeSegments.map codeRange = g.segments ∧ s.codeSegmentsBegin = g.first ∧
      s.regularSegmentBytes = g.bytes := by
  obtain ⟨count, hcount⟩ : ∃ count, count = min 48 (min
      (max 1 ((usable + 32 * 1024 * 1024 - 1) % 2 ^ 64 / (32 * 1024 * 1024)))
      (max 1 (usable / (16 * 1024 * 1024)))) := ⟨_, rfl⟩
  obtain ⟨hpos, hshare, hone⟩ := segmentCount_bounds hcount
  obtain ⟨bytes, hbytes⟩ : ∃ bytes, bytes = if usable / count / 4096 * 4096 = 0 then usable
      else usable / count / 4096 * 4096 := ⟨_, rfl⟩
  obtain ⟨hmul, hbytes_pos⟩ := segmentBytes_fits (by norm_num) hpos hshare hbytes
  have hroom : count = 1 ∨ begin_ + bytes * count ≤ last := by
    by_cases hfits : begin_ ≤ last
    · exact .inr (hexact hfits ▸ Nat.add_le_add_left hmul begin_)
    · exact .inl (hone (hwrapped hfits))
  have hnonempty : begin_ < last → 0 < bytes := fun hlt =>
    hbytes_pos (by have := hexact hlt.le; omega)
  refine ⟨⟨begin_, last, bytes, count, hpos, hnonnull, hroom, hnonempty⟩, _, rfl, rfl, rfl, rfl,
    ?_, rfl, ?_⟩
  · simp only
    rw [← hcount, ← hbytes, hlast, List.map_map]
    rfl
  · simp only
    rw [← hcount, ← hbytes]

end Slab

end Umbra.Backend
