import Mathlib.Data.List.Sort
import Mathlib.Data.Prod.Lex
import Mathlib.Tactic.Linarith

/-!
Unions of half-open ranges as sorted lists.

A collection of ranges `[first, last)` is made searchable by dropping the empty
ones, sorting the rest and merging neighbours that touch.  In the list that
results, an address is in the union exactly when it is in the last range that
starts no later than the address, which is what a binary search looks at.
-/

namespace Umbra.Lib

abbrev Range := ℕ × ℕ

instance : LawfulBEq Range := inferInstance

namespace Range

def Contains (r : Range) (a : ℕ) : Prop :=
  r.1 ≤ a ∧ a < r.2

instance (r : Range) (a : ℕ) : Decidable (r.Contains a) :=
  inferInstanceAs (Decidable (_ ∧ _))

def sort (ranges : List Range) : List Range :=
  ranges.insertionSort fun x y => toLex x ≤ toLex y

theorem mem_sort {ranges : List Range} {r : Range} : r ∈ sort ranges ↔ r ∈ ranges :=
  (List.perm_insertionSort _ ranges).mem_iff

theorem sorted_sort (ranges : List Range) : (sort ranges).Pairwise fun x y => x.1 ≤ y.1 := by
  have hlex : (sort ranges).Pairwise fun x y => toLex x ≤ toLex y :=
    haveI : Std.Total fun x y : Range => toLex x ≤ toLex y := ⟨fun x y => le_total _ _⟩
    haveI : IsTrans Range fun x y => toLex x ≤ toLex y := ⟨fun _ _ _ => le_trans⟩
    List.pairwise_insertionSort _ ranges
  refine hlex.imp fun {x y} hxy => ?_
  rcases Prod.Lex.toLex_le_toLex.mp hxy with hlt | ⟨heq, -⟩
  · exact hlt.le
  · exact heq.le

def mergeFrom (current : Range) : List Range → List Range
  | [] => [current]
  | r :: rest =>
      if r.1 ≤ current.2 then mergeFrom (current.1, max current.2 r.2) rest
      else current :: mergeFrom r rest

/-- Join each range to the one before it when they overlap or touch. -/
def merge : List Range → List Range
  | [] => []
  | r :: rest => mergeFrom r rest

/-- One turn of the loop that merges sorted ranges inside their own vector.  The first `merged`
entries are what has been made of the ranges before `index`. -/
def mergeStep (state : ℕ × List Range) (index : ℕ) : ℕ × List Range :=
  let (merged, ranges) := state
  let range := ranges.getD index default
  let last := ranges.getD (merged - 1) default
  if merged ≠ 0 ∧ range.1 ≤ last.2 then
    (merged, ranges.set (merged - 1) (last.1, max last.2 range.2))
  else (merged + 1, ranges.set merged range)

def mergeInPlace (ranges : List Range) : List Range :=
  let (merged, ranges) := (List.range ranges.length).foldl mergeStep (0, ranges)
  ranges.take merged

/-- In the middle of the loop the vector has the merged entries, then entries that are out of date,
then the ranges to come. -/
theorem take_foldl_mergeStep (done : List Range) (last : Range) (stale rest : List Range) :
    let state := (List.range' (done.length + 1 + stale.length) rest.length).foldl mergeStep
      (done.length + 1, done ++ last :: stale ++ rest)
    state.2.take state.1 = done ++ mergeFrom last rest := by
  induction rest generalizing done last stale with
  | nil => simp [mergeFrom, List.take_append, List.take_of_length_le]
  | cons r rest ih =>
      have hread : (done ++ last :: stale ++ r :: rest).getD (done.length + 1 + stale.length) default =
          r := by
        rw [List.getD_eq_getElem?_getD, List.getElem?_append_right (by simp; omega)]
        simp [Nat.add_assoc, Nat.add_comm 1]
      have hlast : (done ++ last :: stale ++ r :: rest).getD (done.length + 1 - 1) default = last := by
        rw [List.getD_eq_getElem?_getD, List.append_assoc, List.getElem?_append_right (by simp)]
        simp
      simp only [List.length_cons, List.range'_succ, List.foldl_cons]
      unfold mergeFrom
      by_cases htouch : r.1 ≤ last.2
      · have hstep : mergeStep (done.length + 1, done ++ last :: stale ++ r :: rest)
            (done.length + 1 + stale.length) = (done.length + 1,
              done ++ (last.1, max last.2 r.2) :: (stale ++ [r]) ++ rest) := by
          unfold mergeStep
          simp only [hread, hlast]
          rw [if_pos ⟨Nat.succ_ne_zero _, htouch⟩]
          simp
        rw [hstep, if_pos htouch]
        simpa [Nat.add_assoc] using ih done (last.1, max last.2 r.2) (stale ++ [r])
      · -- The entry behind the merged ones is overwritten, which may be the range itself.
        have hstep : mergeStep (done.length + 1, done ++ last :: stale ++ r :: rest)
            (done.length + 1 + stale.length) = (done.length + 1 + 1,
              (done ++ [last]) ++ r :: (stale ++ [r]).tail ++ rest) := by
          unfold mergeStep
          simp only [hread, hlast]
          rw [if_neg fun h => htouch h.2]
          cases stale with
          | nil => simp
          | cons s stale => simp
        rw [hstep, if_neg htouch]
        have hindex : (done ++ [last]).length + 1 + (stale ++ [r]).tail.length =
            done.length + 1 + stale.length + 1 := by
          simp
          omega
        have hrest := ih (done ++ [last]) r (stale ++ [r]).tail
        rw [hindex, List.length_append, List.length_singleton] at hrest
        rw [hrest, List.append_assoc, List.singleton_append]

theorem mergeInPlace_eq (ranges : List Range) : mergeInPlace ranges = merge ranges := by
  cases ranges with
  | nil => rfl
  | cons r rest =>
      have hloop := take_foldl_mergeStep [] r [] rest
      have hfirst : mergeStep (0, r :: rest) 0 = (1, r :: rest) := rfl
      unfold mergeInPlace
      rw [List.length_cons, List.range_eq_range', List.range'_succ, List.foldl_cons, hfirst]
      exact hloop

theorem contains_join {r s : Range} (hle : r.1 ≤ s.1) (htouch : s.1 ≤ r.2)
    (a : ℕ) : Contains (r.1, max r.2 s.2) a ↔ Contains r a ∨ Contains s a := by
  simp only [Contains]
  omega

theorem exists_mem_mergeFrom {current : Range} {rest : List Range}
    (hcurrent : current.1 ≤ current.2) (hrest : ∀ r ∈ rest, r.1 ≤ r.2)
    (hsorted : (current :: rest).Pairwise fun x y => x.1 ≤ y.1) (a : ℕ) :
    (∃ r ∈ mergeFrom current rest, r.Contains a) ↔ ∃ r ∈ current :: rest, r.Contains a := by
  induction rest generalizing current with
  | nil => simp [mergeFrom]
  | cons s rest ih =>
      obtain ⟨hfirst, hsorted'⟩ := List.pairwise_cons.mp hsorted
      obtain ⟨hs, hrest'⟩ := List.forall_mem_cons.mp hrest
      obtain ⟨hsfirst, hsorted''⟩ := List.pairwise_cons.mp hsorted'
      unfold mergeFrom
      split
      · rename_i htouch
        have hjoined : ((current.1, max current.2 s.2) :: rest).Pairwise
            fun x y => x.1 ≤ y.1 :=
          List.pairwise_cons.mpr
            ⟨fun r hr => hfirst r (List.mem_cons_of_mem s hr), hsorted''⟩
        rw [ih (le_max_of_le_left hcurrent) hrest' hjoined]
        simp only [List.exists_mem_cons_iff, contains_join
          (hfirst s List.mem_cons_self) htouch, or_assoc]
      · simp only [List.exists_mem_cons_iff, ih hs hrest' hsorted']

theorem exists_mem_merge {ranges : List Range} (hle : ∀ r ∈ ranges, r.1 ≤ r.2)
    (hsorted : ranges.Pairwise fun x y => x.1 ≤ y.1) (a : ℕ) :
    (∃ r ∈ merge ranges, r.Contains a) ↔ ∃ r ∈ ranges, r.Contains a := by
  cases ranges with
  | nil => simp [merge]
  | cons r rest =>
      obtain ⟨hr, hrest⟩ := List.forall_mem_cons.mp hle
      exact exists_mem_mergeFrom hr hrest hsorted a

theorem apart_mergeFrom {current : Range} {rest : List Range}
    (hcurrent : current.1 ≤ current.2) (hrest : ∀ r ∈ rest, r.1 ≤ r.2)
    (hsorted : (current :: rest).Pairwise fun x y => x.1 ≤ y.1) :
    (mergeFrom current rest).Pairwise (fun x y => x.2 < y.1) ∧
      ∀ r ∈ mergeFrom current rest, current.1 ≤ r.1 ∧ r.1 ≤ r.2 := by
  induction rest generalizing current with
  | nil => simpa [mergeFrom] using hcurrent
  | cons s rest ih =>
      obtain ⟨hfirst, hsorted'⟩ := List.pairwise_cons.mp hsorted
      obtain ⟨hs, hrest'⟩ := List.forall_mem_cons.mp hrest
      obtain ⟨-, hsorted''⟩ := List.pairwise_cons.mp hsorted'
      unfold mergeFrom
      split
      · exact ih (le_max_of_le_left hcurrent) hrest' (List.pairwise_cons.mpr
          ⟨fun r hr => hfirst r (List.mem_cons_of_mem s hr), hsorted''⟩)
      · rename_i hgap
        obtain ⟨hapart, hfrom⟩ := ih hs hrest' hsorted'
        have hlt : current.2 < s.1 := not_le.mp hgap
        refine ⟨List.pairwise_cons.mpr ⟨fun r hr => ?_, hapart⟩, ?_⟩
        · exact hlt.trans_le (hfrom r hr).1
        · refine List.forall_mem_cons.mpr ⟨⟨le_rfl, hcurrent⟩, fun r hr => ?_⟩
          exact ⟨(hcurrent.trans hlt.le).trans (hfrom r hr).1, (hfrom r hr).2⟩

def lastFrom (ranges : List Range) (a : ℕ) : Option Range :=
  (ranges.takeWhile fun r => r.1 ≤ a).getLast?

/-- In ranges that lie apart, only the last one that starts no later than `a`
can contain `a`. -/
theorem exists_mem_lastFrom {ranges : List Range}
    (hapart : ranges.Pairwise fun x y => x.2 < y.1) (hle : ∀ r ∈ ranges, r.1 ≤ r.2) (a : ℕ) :
    (∃ r ∈ lastFrom ranges a, a < r.2) ↔ ∃ r ∈ ranges, r.Contains a := by
  induction ranges with
  | nil => simp [lastFrom]
  | cons s rest ih =>
      obtain ⟨hfirst, hapart'⟩ := List.pairwise_cons.mp hapart
      obtain ⟨hs, hle'⟩ := List.forall_mem_cons.mp hle
      by_cases hsa : s.1 ≤ a
      · cases rest with
        | nil => simp [lastFrom, hsa, Contains]
        | cons t rest =>
            by_cases hta : t.1 ≤ a
            · have hnot : ¬s.Contains a := fun hc =>
                (hc.2.trans (hfirst t List.mem_cons_self)).not_ge hta
              have hskip : lastFrom (s :: t :: rest) a = lastFrom (t :: rest) a := by
                simp [lastFrom, hsa, hta]
              rw [hskip, ih hapart' hle', List.exists_mem_cons_iff (a := s)]
              simp [hnot]
            · have hbeyond : ∀ r ∈ t :: rest, ¬r.Contains a := by
                refine List.forall_mem_cons.mpr ⟨fun hc => hta hc.1, fun r hr hc => hta ?_⟩
                have htr := (List.pairwise_cons.mp hapart').1 r hr
                exact ((hle' t List.mem_cons_self).trans htr.le).trans hc.1
              have hlast : lastFrom (s :: t :: rest) a = some s := by
                simp [lastFrom, hsa, hta]
              rw [hlast, List.exists_mem_cons_iff]
              simp only [Option.mem_def, Option.some.injEq, exists_eq_left', Contains, hsa,
                true_and]
              exact ⟨Or.inl, fun h => h.resolve_right fun ⟨r, hr, hc⟩ => hbeyond r hr hc⟩
      · have hbeyond : ∀ r ∈ s :: rest, ¬r.Contains a := by
          refine List.forall_mem_cons.mpr ⟨fun hc => hsa hc.1, fun r hr hc => hsa ?_⟩
          exact (hs.trans (hfirst r hr).le).trans hc.1
        have hnone : lastFrom (s :: rest) a = none := by simp [lastFrom, hsa]
        rw [hnone]
        exact ⟨by simp, fun ⟨r, hr, hc⟩ => (hbeyond r hr hc).elim⟩

def union (ranges : List Range) : List Range :=
  merge (sort (ranges.filter fun r => r.1 < r.2))

def search (ranges : List Range) (a : ℕ) : Bool :=
  match lastFrom ranges a with
  | none => false
  | some r => a < r.2

/-- After sorting and merging, only the last range that starts no later can hold the address. -/
theorem search_union (ranges : List Range) (a : ℕ) :
    search (union ranges) a = true ↔ ∃ r ∈ ranges, r.Contains a := by
  set kept := sort (ranges.filter fun r => r.1 < r.2) with hkept
  have hmem : ∀ r, r ∈ kept ↔ r ∈ ranges ∧ r.1 < r.2 := by simp [hkept, mem_sort]
  have hle : ∀ r ∈ kept, r.1 ≤ r.2 := fun r hr => ((hmem r).mp hr).2.le
  have hsorted := sorted_sort (ranges.filter fun r => r.1 < r.2)
  have hmerged : (merge kept).Pairwise (fun x y => x.2 < y.1) ∧ ∀ r ∈ merge kept, r.1 ≤ r.2 := by
    cases hcases : kept with
    | nil => simp [merge]
    | cons r rest =>
        rw [hcases] at hle
        rw [← hkept, hcases] at hsorted
        obtain ⟨hr, hrest⟩ := List.forall_mem_cons.mp hle
        obtain ⟨hapart, hfrom⟩ := apart_mergeFrom hr hrest hsorted
        exact ⟨hapart, fun s hs => (hfrom s hs).2⟩
  calc search (union ranges) a = true
      ↔ ∃ r ∈ lastFrom (merge kept) a, a < r.2 := by
        unfold search union
        rw [← hkept]
        cases lastFrom (merge kept) a <;> simp
    _ ↔ ∃ r ∈ kept, r.Contains a := by
        rw [exists_mem_lastFrom hmerged.1 hmerged.2, exists_mem_merge hle hsorted]
    _ ↔ ∃ r ∈ ranges, r.Contains a := by
        refine exists_congr fun r => ?_
        rw [hmem, and_assoc]
        exact and_congr_right fun _ => and_iff_right_of_imp fun hc => hc.1.trans_lt hc.2

end Range

end Umbra.Lib
