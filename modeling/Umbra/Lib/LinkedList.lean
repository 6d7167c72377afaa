import Mathlib.Data.List.Nodup

/-!
Doubly linked lists threaded through two maps.

The nodes of an intrusive list are elements of a fixed type; their links are the
maps `next` and `prev`, which many lists share as long as they have no node in
common.  `Linked` says that a list of nodes is what the links spell out.
-/

namespace Umbra.Lib

variable {ι : Type*}

structure Links (ι : Type*) where
  prev : ι → Option ι
  next : ι → Option ι

namespace Links

/-- The links spell out the list: each node points to its neighbours in it. -/
def Linked (k : Links ι) (l : List ι) : Prop :=
  ∀ a p b, l = a ++ p :: b → k.prev p = a.getLast? ∧ k.next p = b.head?

variable {k k' : Links ι} {l a b : List ι} {p q : ι}

theorem linked_nil (k : Links ι) : k.Linked [] := by
  intro a p b h
  simp at h

theorem Linked.congr (h : k.Linked l) (hl : ∀ p ∈ l, k'.prev p = k.prev p ∧ k'.next p = k.next p) :
    k'.Linked l := by
  intro a p b hsplit
  obtain ⟨hprev, hnext⟩ := hl p (by simp [hsplit])
  rw [hprev, hnext]
  exact h a p b hsplit

section

variable [DecidableEq ι]

def setPrev (k : Links ι) (p : ι) (value : Option ι) : Links ι :=
  { k with prev := Function.update k.prev p value }

def setNext (k : Links ι) (p : ι) (value : Option ι) : Links ι :=
  { k with next := Function.update k.next p value }

def setPrevOf (k : Links ι) (target : Option ι) (value : Option ι) : Links ι :=
  target.elim k fun p => k.setPrev p value

def setNextOf (k : Links ι) (target : Option ι) (value : Option ι) : Links ι :=
  target.elim k fun p => k.setNext p value

@[simp] theorem setPrev_next (k : Links ι) (p : ι) (value : Option ι) :
    (k.setPrev p value).next = k.next := rfl

@[simp] theorem setNext_prev (k : Links ι) (p : ι) (value : Option ι) :
    (k.setNext p value).prev = k.prev := rfl

@[simp] theorem setPrevOf_next (k : Links ι) (target value : Option ι) :
    (k.setPrevOf target value).next = k.next := by
  cases target <;> rfl

@[simp] theorem setNextOf_prev (k : Links ι) (target value : Option ι) :
    (k.setNextOf target value).prev = k.prev := by
  cases target <;> rfl

theorem setPrev_prev (k : Links ι) (p q : ι) (value : Option ι) :
    (k.setPrev p value).prev q = if q = p then value else k.prev q := Function.update_apply _ _ _ _

theorem setNext_next (k : Links ι) (p q : ι) (value : Option ι) :
    (k.setNext p value).next q = if q = p then value else k.next q := Function.update_apply _ _ _ _

theorem setPrevOf_prev (k : Links ι) (target value : Option ι) (q : ι) :
    (k.setPrevOf target value).prev q = if target = some q then value else k.prev q := by
  cases target with
  | none => simp [setPrevOf]
  | some p => simp [setPrevOf, setPrev_prev, eq_comm]

theorem setNextOf_next (k : Links ι) (target value : Option ι) (q : ι) :
    (k.setNextOf target value).next q = if target = some q then value else k.next q := by
  cases target with
  | none => simp [setNextOf]
  | some p => simp [setNextOf, setNext_next, eq_comm]

/-! ### Insertion at the front -/

def pushFront (k : Links ι) (p : ι) (head : Option ι) : Links ι :=
  ((k.setPrev p none).setNext p head).setPrevOf head (some p)

theorem pushFront_of_ne (k : Links ι) {head : Option ι} (hp : q ≠ p) (hhead : head ≠ some q) :
    (k.pushFront p head).prev q = k.prev q ∧ (k.pushFront p head).next q = k.next q := by
  simp [pushFront, setPrevOf_prev, setPrev_prev, setNext_next, hp, hhead]

theorem Linked.pushFront (h : k.Linked l) (hl : l.Nodup) (hp : p ∉ l) :
    (k.pushFront p l.head?).Linked (p :: l) := by
  intro a q b hsplit
  cases a with
  | nil =>
      -- The new node.
      obtain ⟨rfl, rfl⟩ : p = q ∧ l = b := by simpa using hsplit
      have hne : l.head? ≠ some p := fun hhead => hp (List.mem_of_head? hhead)
      simp [Links.pushFront, setPrevOf_prev, setPrev_prev, setNext_next, hne]
  | cons p' a =>
      obtain ⟨rfl, rfl⟩ : p = p' ∧ l = a ++ q :: b := by simpa using hsplit
      obtain ⟨hprev, hnext⟩ := h a q b rfl
      have hq : q ≠ p := by
        rintro rfl
        simp at hp
      cases a with
      | nil =>
          -- The old head.
          simp [Links.pushFront, setPrevOf_prev, setNext_next, hq, hnext]
      | cons c a =>
          have hne : (c :: a ++ q :: b).head? ≠ some q := by
            rintro hhead
            obtain rfl : c = q := by simpa using hhead
            simp at hl
          obtain ⟨hprev', hnext'⟩ := k.pushFront_of_ne hq hne
          rw [hprev', hnext', hprev, hnext, List.getLast?_cons_cons]
          exact ⟨rfl, rfl⟩

/-! ### Removal -/

def unlink (k : Links ι) (p : ι) : Links ι :=
  (((k.setNextOf (k.prev p) (k.next p)).setPrevOf (k.next p) (k.prev p)).setPrev p none).setNext
    p none

theorem unlink_prev (k : Links ι) (hq : q ≠ p) :
    (k.unlink p).prev q = if k.next p = some q then k.prev p else k.prev q := by
  simp [unlink, setPrev_prev, setPrevOf_prev, hq]

theorem unlink_next (k : Links ι) (hq : q ≠ p) :
    (k.unlink p).next q = if k.prev p = some q then k.next p else k.next q := by
  simp [unlink, setNext_next, setNextOf_next, hq]

theorem Linked.unlink_of_not_mem (h : k.Linked l) (hp : p ∉ l)
    (hprev : ∀ q ∈ l, k.prev p ≠ some q) (hnext : ∀ q ∈ l, k.next p ≠ some q) :
    (k.unlink p).Linked l := by
  refine h.congr fun q hq => ?_
  have hne : q ≠ p := fun heq => hp (heq ▸ hq)
  rw [unlink_prev k hne, unlink_next k hne, if_neg (hnext q hq), if_neg (hprev q hq)]
  exact ⟨rfl, rfl⟩

/-- The neighbours of the node are linked to each other, at either end too. -/
theorem Linked.unlink (h : k.Linked (a ++ p :: b)) (hl : (a ++ p :: b).Nodup) :
    (k.unlink p).Linked (a ++ b) := by
  obtain ⟨hprev, hnext⟩ := h a p b rfl
  have hdisjoint : ∀ q ∈ a, q ∉ p :: b := fun q hqa hqb =>
    (List.nodup_append.mp hl).2.2 q hqa q hqb rfl
  have hpb : p ∉ b := (List.nodup_cons.mp (List.nodup_append.mp hl).2.1).1
  have hbehind : ∀ e q d, b = e ++ q :: d →
      (k.unlink p).prev q = (a ++ e).getLast? ∧ (k.unlink p).next q = d.head? := by
    intro e q d hb
    have hqb : q ∈ b := by simp [hb]
    have hq : q ≠ p := fun heq => hpb (heq ▸ hqb)
    obtain ⟨hprevq, hnextq⟩ := h (a ++ p :: e) q d (by simp [hb])
    have hnotlast : k.prev p ≠ some q := by
      rw [hprev]
      intro hlast
      exact hdisjoint q (List.mem_of_getLast? hlast) (List.mem_cons_of_mem p hqb)
    rw [unlink_prev k hq, unlink_next k hq, if_neg hnotlast, hnextq, hnext, hb]
    refine ⟨?_, rfl⟩
    cases e with
    | nil => simp [hprev]
    | cons r e =>
        have hne : (r :: e ++ q :: d).head? ≠ some q := by
          intro hhead
          obtain rfl : r = q := by simpa using hhead
          rw [hb] at hl
          simp [List.nodup_append] at hl
        rw [if_neg hne, hprevq]
        simp [List.getLast?_append, List.getLast?_cons]
  intro c q d hsplit
  rcases List.append_eq_append_iff.mp hsplit with ⟨e, rfl, hb⟩ | ⟨e, rfl, hd⟩
  · exact hbehind e q d hb
  · cases e with
    | nil => simpa using hbehind [] q d (by simpa using hd.symm)
    | cons r e =>
        -- The node lies before the one removed.
        obtain ⟨rfl, rfl⟩ : q = r ∧ d = e ++ b := by simpa using hd
        have hq : q ≠ p := by
          rintro rfl
          exact hdisjoint q (by simp) List.mem_cons_self
        obtain ⟨hprevq, hnextq⟩ := h c q (e ++ p :: b) (by simp)
        have hnothead : k.next p ≠ some q := by
          rw [hnext]
          intro hhead
          exact hdisjoint q (by simp) (List.mem_cons_of_mem p (List.mem_of_head? hhead))
        rw [unlink_prev k hq, unlink_next k hq, if_neg hnothead, hprevq, hprev, hnextq, hnext]
        refine ⟨rfl, ?_⟩
        cases e with
        | nil => simp
        | cons r e =>
            have hne : (c ++ q :: r :: e).getLast? ≠ some q := by
              intro hlast
              have hmem : q ∈ r :: e := by
                rw [List.getLast?_append, List.getLast?_cons_cons] at hlast
                exact List.mem_of_getLast? (by simpa using hlast)
              have hnodup := (List.nodup_append.mp (List.nodup_append.mp hl).1).2.1
              exact (List.nodup_cons.mp hnodup).1 hmem
            rw [if_neg hne]
            rfl

end

end Links

end Umbra.Lib
