import Mathlib.Data.List.Nodup

/-!
Chains threaded through one map.

The nodes of an intrusive list point to their successors; many chains share the one map `next` as
long as they have no node in common.  A walk along a chain need not end, so each walk gets a
number of steps it may take.
-/

namespace Umbra.Lib.Chain

variable {ι : Type*} {next next' : ι → Option ι} {o : Option ι} {l l' l₁ l₂ : List ι}
  {a p t : ι} {n : ℕ}

/-- From `o` on, the map spells out the list and then ends. -/
def Spells (next : ι → Option ι) : Option ι → List ι → Prop
  | o, [] => o = none
  | o, a :: l => o = some a ∧ Spells next (next a) l

@[simp] theorem spells_nil_iff : Spells next o [] ↔ o = none := Iff.rfl

@[simp] theorem spells_cons_iff : Spells next o (a :: l) ↔ o = some a ∧ Spells next (next a) l :=
  Iff.rfl

theorem Spells.unique (h : Spells next o l) (h' : Spells next o l') : l = l' := by
  induction l generalizing o l' with
  | nil =>
      cases l' with
      | nil => rfl
      | cons b l' => exact absurd (h.symm.trans h'.1) nofun
  | cons a l ih =>
      cases l' with
      | nil => exact absurd (h.1.symm.trans h') nofun
      | cons b l' =>
          obtain rfl : a = b := Option.some.inj (h.1.symm.trans h'.1)
          rw [ih h.2 h'.2]

theorem Spells.congr (h : Spells next o l) (hl : ∀ a ∈ l, next' a = next a) :
    Spells next' o l := by
  induction l generalizing o with
  | nil => exact h
  | cons a l ih =>
      refine ⟨h.1, ?_⟩
      rw [hl a (by simp)]
      exact ih h.2 fun b hb => hl b (by simp [hb])

theorem Spells.tail (h : Spells next o (l₁ ++ t :: l₂)) : Spells next (next t) l₂ := by
  induction l₁ generalizing o with
  | nil => exact h.2
  | cons a l₁ ih => exact ih h.2

theorem Spells.nodup (h : Spells next o l) : l.Nodup := by
  induction l generalizing o with
  | nil => exact List.nodup_nil
  | cons a l ih =>
      refine List.nodup_cons.mpr ⟨fun hmem => ?_, ih h.2⟩
      -- Twice the same node: the same rest twice, of two lengths.
      obtain ⟨l₁, l₂, rfl⟩ := List.append_of_mem hmem
      have hrest : Spells next (next a) l₂ := Spells.tail h.2
      have hlength := congrArg List.length (h.2.unique hrest)
      simp only [List.length_append, List.length_cons] at hlength
      omega

section Walks

def lastFrom (next : ι → Option ι) : ℕ → ι → Option ι
  | 0, _ => none
  | n + 1, a =>
      match next a with
      | none => some a
      | some b => lastFrom next n b

def predFrom [DecidableEq ι] (next : ι → Option ι) (t : ι) : ℕ → ι → Option ι
  | 0, _ => none
  | n + 1, a =>
      match next a with
      | none => none
      | some b => if b = t then some a else predFrom next t n b

theorem lastFrom_eq (h : Spells next (next a) l) (hn : l.length < n) :
    lastFrom next n a = some ((a :: l).getLast (by simp)) := by
  induction l generalizing a n with
  | nil =>
      obtain ⟨n, rfl⟩ : ∃ k, n = k + 1 := ⟨n - 1, by simp at hn; omega⟩
      simp [lastFrom, spells_nil_iff.mp h]
  | cons b l ih =>
      obtain ⟨n, rfl⟩ : ∃ k, n = k + 1 := ⟨n - 1, by simp at hn; omega⟩
      simp only [lastFrom, h.1]
      rw [ih h.2 (by simpa using hn)]
      simp

theorem predFrom_eq [DecidableEq ι] (h : Spells next (next a) (l₁ ++ t :: l₂))
    (hn : l₁.length < n) : predFrom next t n a = some ((a :: l₁).getLast (by simp)) := by
  induction l₁ generalizing a n with
  | nil =>
      obtain ⟨n, rfl⟩ : ∃ k, n = k + 1 := ⟨n - 1, by simp at hn; omega⟩
      simp [predFrom, h.1]
  | cons b l₁ ih =>
      obtain ⟨n, rfl⟩ : ∃ k, n = k + 1 := ⟨n - 1, by simp at hn; omega⟩
      have hne : b ≠ t := by
        rintro rfl
        simpa using h.nodup
      simp only [predFrom, h.1, hne, if_false]
      rw [ih h.2 (by simpa using hn)]
      simp

end Walks

section Updates

variable [DecidableEq ι]

theorem Spells.append (h : Spells next (next a) l) (ha : a ∉ l) (ht : t ∉ a :: l)
    (hend : next t = none) :
    Spells (Function.update next ((a :: l).getLast (by simp)) (some t))
      (Function.update next ((a :: l).getLast (by simp)) (some t) a) (l ++ [t]) := by
  induction l generalizing a with
  | nil =>
      have hta : t ≠ a := by simpa using ht
      simp [Function.update_of_ne hta, hend]
  | cons b l ih =>
      have hlast : (a :: b :: l).getLast (by simp) = (b :: l).getLast (by simp) := by simp
      have hne : a ≠ (b :: l).getLast (by simp) := fun h => ha (h ▸ List.getLast_mem _)
      rw [hlast, Function.update_of_ne hne, h.1]
      refine ⟨rfl, ih h.2 ?_ ?_⟩
      · exact (List.nodup_cons.mp h.nodup).1
      · exact fun hmem => ht (List.mem_cons_of_mem _ hmem)

theorem Spells.erase (h : Spells next (next a) (l₁ ++ t :: l₂)) (ha : a ∉ l₁ ++ t :: l₂) :
    Spells (Function.update (Function.update next ((a :: l₁).getLast (by simp)) (next t)) t none)
      (Function.update (Function.update next ((a :: l₁).getLast (by simp)) (next t)) t none a)
      (l₁ ++ l₂) := by
  induction l₁ generalizing a with
  | nil =>
      have hat : a ≠ t := fun h => ha (by simp [h])
      have hnodup := List.nodup_cons.mp h.nodup
      simp only [List.getLast_singleton, Function.update_of_ne hat, Function.update_self,
        List.nil_append]
      refine h.2.congr fun b hb => ?_
      have hbt : b ≠ t := fun h => hnodup.1 (h ▸ hb)
      have hba : b ≠ a := fun h => ha (by simp [← h, hb])
      rw [Function.update_of_ne hbt, Function.update_of_ne hba]
  | cons b l₁ ih =>
      have hlast : (a :: b :: l₁).getLast (by simp) = (b :: l₁).getLast (by simp) := by simp
      have hne : a ≠ (b :: l₁).getLast (by simp) := fun h =>
        ha (by rw [List.cons_append, ← List.cons_append]
               exact List.mem_append_left _ (h ▸ List.getLast_mem _))
      have hat : a ≠ t := fun h => ha (by simp [h])
      rw [hlast, Function.update_of_ne hat, Function.update_of_ne hne, h.1]
      exact ⟨rfl, ih h.2 (List.nodup_cons.mp h.nodup).1⟩

end Updates

end Umbra.Lib.Chain
