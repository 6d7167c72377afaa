import Mathlib.Data.BitVec
import Umbra.X64.RegAlloc

/-!
The indices of the register allocator agree with a scan of all locations.
-/

namespace Umbra.X64

open Lib (wp)

namespace HostLocInfo

variable {Inst : Type} {i : HostLocInfo Inst}

theorem isEmpty_iff : i.isEmpty = true ↔ i.isBeingUsedCount = 0 ∧ i.values = [] := by
  simp [isEmpty]

/-- A location without values has no use of a value outstanding. -/
def Settled (i : HostLocInfo Inst) : Prop :=
  i.values = [] → i.totalUses = i.accumulatedUses + i.currentReferences

theorem settled_of_mem {v : Inst} (hv : v ∈ i.values) : i.Settled := by
  intro hnil
  simp [hnil] at hv

theorem values_releaseAll : i.releaseAll.values = [] ∨ i.releaseAll.values = i.values := by
  unfold releaseAll
  dsimp only
  split <;> simp

theorem Settled.releaseAll (hi : i.Settled) : i.releaseAll.Settled := by
  unfold HostLocInfo.releaseAll Settled
  dsimp only
  split
  · simp
  · intro hnil
    simpa using hi hnil

theorem Settled.releaseAll_eq_empty (hi : i.Settled) (hempty : i.releaseAll.isEmpty = true) :
    i.releaseAll = {} := by
  unfold HostLocInfo.releaseAll at hempty ⊢
  dsimp only at hempty ⊢
  split at hempty
  · rename_i huses
    rw [if_pos huses]
  · rename_i huses
    exact absurd (hi (isEmpty_iff.mp hempty).2) huses

@[simp] theorem releaseAll_empty : ({} : HostLocInfo Inst).releaseAll = {} := by
  simp [releaseAll]

theorem values_releaseOne : i.releaseOne.values = [] ∨ i.releaseOne.values = i.values := by
  unfold releaseOne
  dsimp only
  split
  · exact .inr rfl
  · split
    · exact values_releaseAll
    · exact .inr rfl

theorem settled_releaseOne (hi : i.Settled) : i.releaseOne.Settled := by
  have hmoved (x y : BitVec 64) : x + 1 + (y - 1) = x + y := by
    rw [add_assoc, add_sub_cancel]
  unfold releaseOne
  dsimp only
  split
  · exact hi
  · have hone : ({ i with
        isBeingUsedCount := i.isBeingUsedCount - 1
        isScratch := false
        accumulatedUses := i.accumulatedUses + 1
        currentReferences := i.currentReferences - 1 } : HostLocInfo Inst).Settled := by
      intro hnil
      exact (hi hnil).trans (hmoved _ _).symm
    split
    · exact hone.releaseAll
    · exact hone

def Shrinks (i j : HostLocInfo Inst) : Prop :=
  (∀ v ∈ j.values, v ∈ i.values) ∧ (i.Settled → j.Settled)

theorem shrinks_of_readLock {j : HostLocInfo Inst} (h : i.readLock = some j) : i.Shrinks j := by
  unfold readLock at h
  split at h
  · simp at h
  · obtain rfl := Option.some.inj h
    exact ⟨fun _ hv => hv, fun hi => hi⟩

theorem shrinks_of_writeLock {j : HostLocInfo Inst} (h : i.writeLock = some j) : i.Shrinks j := by
  unfold writeLock at h
  split at h
  · obtain rfl := Option.some.inj h
    exact ⟨fun _ hv => hv, fun hi => hi⟩
  · simp at h

theorem shrinks_of_setLastUse {j : HostLocInfo Inst} (h : i.setLastUse = some j) :
    i.Shrinks j := by
  unfold setLastUse at h
  split at h
  · obtain rfl := Option.some.inj h
    exact ⟨fun _ hv => hv, fun hi => hi⟩
  · simp at h

theorem shrinks_releaseOne : i.Shrinks i.releaseOne := by
  refine ⟨fun v hv => ?_, settled_releaseOne⟩
  obtain hnil | hsame := i.values_releaseOne
  · simp [hnil] at hv
  · rwa [hsame] at hv

theorem shrinks_of_addArgReference {j : HostLocInfo Inst} {v : Inst} (hv : v ∈ i.values)
    (h : i.addArgReference = some j) : i.Shrinks j := by
  unfold addArgReference at h
  dsimp only at h
  split at h
  · obtain rfl := Option.some.inj h
    exact ⟨fun _ hw => hw, fun _ => settled_of_mem hv⟩
  · simp at h

theorem mem_addValue {b : RegAlloc.Block Inst} {j : HostLocInfo Inst} {v : Inst}
    (h : i.addValue b v = some j) :
    v ∈ j.values ∧ ∀ w ∈ j.values, w = v ∨ w ∈ i.values := by
  unfold addValue at h
  cases hwidth : getBitWidth (b.type v) with
  | none => simp [hwidth] at h
  | some width =>
      simp only [hwidth, Option.bind_eq_bind, Option.bind_some, Option.pure_def,
        Option.some.injEq] at h
      subst j
      refine ⟨by simp, fun w hw => ?_⟩
      split at hw
      · simp at hw
        exact .inl hw
      · simp at hw
        exact hw.symm

end HostLocInfo

namespace RegAlloc

variable {Inst : Type} {b : Block Inst}

/-! ### The records and the table -/

namespace Storage

variable {st : Storage Inst} {act act' : List HostLoc} {loc : HostLoc} {info : HostLocInfo Inst}

@[simp] theorem hostlocInfo_setInfo (l : HostLoc) :
    (st.setInfo loc info).hostlocInfo l = if l = loc then info else st.hostlocInfo l := by
  simp [setInfo, Function.update_apply]

@[simp] theorem valueLocations_setInfo :
    (st.setInfo loc info).valueLocations = st.valueLocations := rfl

@[simp] theorem hostlocInfo_setIndex (v : Inst) :
    (st.setIndex b loc v).hostlocInfo = st.hostlocInfo := rfl

theorem getElem?_foldl_setIndex (vs : List Inst) (n : ℕ) :
    (vs.foldl (fun st v => st.setIndex b loc v) st).valueLocations[n]? =
      if (∃ v ∈ vs, b.name v = n) ∧ n < st.valueLocations.length then some (some loc)
      else st.valueLocations[n]? := by
  induction vs generalizing st with
  | nil => simp
  | cons v vs ih =>
      rw [List.foldl_cons, ih]
      simp only [setIndex, List.length_set, List.getElem?_set, List.mem_cons, exists_eq_or_imp]
      by_cases hlt : n < st.valueLocations.length
      · by_cases hvs : ∃ w ∈ vs, b.name w = n
        · simp [hvs, hlt]
        · by_cases hv : b.name v = n
          · simp [hvs, hv, hlt]
          · simp [hvs, hv]
      · have hout : st.valueLocations[n]? = none := by simpa using hlt
        by_cases hv : b.name v = n
        · simp [hlt, hv]
        · simp [hlt, hv]

@[simp] theorem hostlocInfo_foldl_setIndex (vs : List Inst) :
    (vs.foldl (fun st v => st.setIndex b loc v) st).hostlocInfo = st.hostlocInfo := by
  induction vs generalizing st with
  | nil => rfl
  | cons v vs ih => exact ih

theorem length_foldl_setIndex (vs : List Inst) :
    (vs.foldl (fun st v => st.setIndex b loc v) st).valueLocations.length =
      st.valueLocations.length := by
  induction vs generalizing st with
  | nil => rfl
  | cons v vs ih =>
      rw [List.foldl_cons, ih]
      exact List.length_set

@[simp] theorem hostlocInfo_reindex : (st.reindex b loc).hostlocInfo = st.hostlocInfo :=
  hostlocInfo_foldl_setIndex _

/-- The records and the table fit together, except that the values of some locations, which have
just been brought there, are still to be entered: only active locations hold anything, a value is
in one location at most, and the table names no reserved register. -/
structure ConsistentBut (b : Block Inst) (act : List HostLoc) (pending : List HostLoc)
    (st : Storage Inst) : Prop where
  inactive : ∀ loc, loc ∉ act → st.hostlocInfo loc = {}
  known : ∀ loc, ∀ v ∈ (st.hostlocInfo loc).values,
    v ∈ b.insts ∧ b.name v < st.valueLocations.length
  unique : ∀ v l l', v ∈ (st.hostlocInfo l).values → v ∈ (st.hostlocInfo l').values → l = l'
  indexed : ∀ loc ∉ pending, ∀ v ∈ (st.hostlocInfo loc).values,
    st.valueLocations[b.name v]? = some (some loc)
  allocatable : ∀ (n : ℕ) (loc : HostLoc), st.valueLocations[n]? = some (some loc) →
    loc.Allocatable
  settled : ∀ loc, (st.hostlocInfo loc).Settled

abbrev Consistent (b : Block Inst) (act : List HostLoc) (st : Storage Inst) : Prop :=
  st.ConsistentBut b act []

/-- The loop after a transfer settles one location. -/
theorem ConsistentBut.reindex {pending : List HostLoc} (h : st.ConsistentBut b act (loc :: pending))
    (hloc : loc.Allocatable) : (st.reindex b loc).ConsistentBut b act pending where
  inactive l hl := by rw [hostlocInfo_reindex, h.inactive l hl]
  known l v hv := by
    rw [hostlocInfo_reindex] at hv
    rw [Storage.reindex, length_foldl_setIndex]
    exact h.known l v hv
  unique v l l' hl hl' := by
    rw [hostlocInfo_reindex] at hl hl'
    exact h.unique v l l' hl hl'
  indexed l hl v hv := by
    rw [hostlocInfo_reindex] at hv
    rw [Storage.reindex, getElem?_foldl_setIndex]
    by_cases heq : l = loc
    · subst l
      rw [if_pos ⟨⟨v, hv, rfl⟩, (h.known loc v hv).2⟩]
    · rw [if_neg, h.indexed l (by simp [heq, hl]) v hv]
      rintro ⟨⟨w, hw, hname⟩, -⟩
      obtain rfl := b.name_injective w (h.known loc w hw).1 v (h.known l v hv).1 hname
      exact heq (h.unique w l loc hv hw)
  allocatable n l hl := by
    rw [Storage.reindex, getElem?_foldl_setIndex] at hl
    split at hl
    · obtain rfl : loc = l := by simpa using hl
      exact hloc
    · exact h.allocatable n l hl
  settled l := by
    rw [hostlocInfo_reindex]
    exact h.settled l

namespace Consistent

theorem mono (h : st.Consistent b act) (hact : ∀ l ∈ act, l ∈ act') : st.Consistent b act' :=
  { h with inactive := fun l hl => h.inactive l fun hl' => hl (hact l hl') }

theorem getElem? (h : st.Consistent b act) {v : Inst} (hv : v ∈ (st.hostlocInfo loc).values) :
    st.valueLocations[b.name v]? = some (some loc) :=
  h.indexed loc (List.not_mem_nil) v hv

theorem mem_active (h : st.Consistent b act) (hloc : ¬ (st.hostlocInfo loc).isEmpty) :
    loc ∈ act := by
  by_contra hact
  rw [h.inactive loc hact] at hloc
  exact hloc rfl

theorem mem_active_of_mem {v : Inst} (h : st.Consistent b act)
    (hv : v ∈ (st.hostlocInfo loc).values) : loc ∈ act := by
  refine h.mem_active fun hempty => ?_
  rw [(HostLocInfo.isEmpty_iff.mp hempty).2] at hv
  simp at hv

/-- The values of the locations are moved about; those of a location that keeps its own need not
be entered again. -/
theorem permute {st' : Storage Inst} {pending : List HostLoc} (h : st.Consistent b act)
    (σ : Equiv.Perm HostLoc) (htable : st'.valueLocations = st.valueLocations)
    (hvalues : ∀ l, ∀ v ∈ (st'.hostlocInfo l).values, v ∈ (st.hostlocInfo (σ l)).values)
    (hfixed : ∀ l ∉ pending, (st'.hostlocInfo l).values ≠ [] → σ l = l)
    (hinactive : ∀ l, l ∉ act → st'.hostlocInfo l = {})
    (hsettled : ∀ l, (st'.hostlocInfo l).Settled) : st'.ConsistentBut b act pending where
  inactive := hinactive
  known l v hv := by
    rw [htable]
    exact h.known (σ l) v (hvalues l v hv)
  unique v l l' hl hl' := σ.injective (h.unique v _ _ (hvalues l v hl) (hvalues l' v hl'))
  indexed l hl v hv := by
    have hkept : σ l = l := hfixed l hl (List.ne_nil_of_mem hv)
    rw [htable, h.getElem? (hvalues l v hv), hkept]
  allocatable := by
    rw [htable]
    exact h.allocatable
  settled := hsettled

theorem takeInfo {dest source : HostLoc} (h : st.Consistent b act) (hd : dest ∈ act)
    (hs : source ∈ act) :
    (st.takeInfo dest source).ConsistentBut b act [dest] := by
  have hinfo (l : HostLoc) : (st.takeInfo dest source).hostlocInfo l =
      if l = dest then st.hostlocInfo source else if l = source then {} else st.hostlocInfo l := by
    simp [Storage.takeInfo]
  refine h.permute (Equiv.swap dest source) ?_ ?_ ?_ ?_ ?_
  · rfl
  · intro l v hv
    rw [hinfo] at hv
    split_ifs at hv with hl hl'
    · subst l
      rwa [Equiv.swap_apply_left]
    · simp at hv
    · rwa [Equiv.swap_apply_of_ne_of_ne hl hl']
  · intro l hl hvalues
    rw [hinfo, if_neg (by simpa using hl)] at hvalues
    split_ifs at hvalues with hl'
    · simp at hvalues
    · exact Equiv.swap_apply_of_ne_of_ne (by simpa using hl) hl'
  · intro l hl
    rw [hinfo, if_neg (ne_of_mem_of_not_mem hd hl).symm,
      if_neg (ne_of_mem_of_not_mem hs hl).symm, h.inactive l hl]
  · intro l
    rw [hinfo]
    split_ifs
    · exact h.settled source
    · intro; rfl
    · exact h.settled l

theorem swapInfo {x y : HostLoc} (h : st.Consistent b act) (hx : x ∈ act) (hy : y ∈ act) :
    (st.swapInfo x y).ConsistentBut b act [x, y] := by
  have hinfo (l : HostLoc) : (st.swapInfo x y).hostlocInfo l =
      st.hostlocInfo (Equiv.swap x y l) := by
    simp only [Storage.swapInfo, hostlocInfo_setInfo, Equiv.swap_apply_def]
    split_ifs <;> simp_all
  refine h.permute (Equiv.swap x y) ?_ ?_ ?_ ?_ ?_
  · rfl
  · intro l v hv
    rwa [hinfo] at hv
  · intro l hl _
    simp only [List.mem_cons, List.not_mem_nil, or_false, not_or] at hl
    exact Equiv.swap_apply_of_ne_of_ne hl.1 hl.2
  · intro l hl
    rw [hinfo, Equiv.swap_apply_of_ne_of_ne (ne_of_mem_of_not_mem hx hl).symm
      (ne_of_mem_of_not_mem hy hl).symm, h.inactive l hl]
  · intro l
    rw [hinfo]
    exact h.settled _

theorem setInfo (h : st.Consistent b act) (hloc : loc ∈ act)
    (hvalues : ∀ v ∈ info.values, v ∈ (st.hostlocInfo loc).values) (hinfo : info.Settled) :
    (st.setInfo loc info).Consistent b act := by
  refine h.permute (Equiv.refl _) ?_ ?_ ?_ ?_ ?_
  · rfl
  · intro l v hv
    rw [hostlocInfo_setInfo] at hv
    split at hv
    · subst l
      exact hvalues v hv
    · exact hv
  · intro l _ _
    rfl
  · intro l hl
    rw [hostlocInfo_setInfo, if_neg (ne_of_mem_of_not_mem hloc hl).symm, h.inactive l hl]
  · intro l
    rw [hostlocInfo_setInfo]
    split
    · exact hinfo
    · exact h.settled l

theorem define {v : Inst} (h : st.Consistent b act) (hloc : loc ∈ act)
    (hallocatable : loc.Allocatable) (hv : v ∈ b.insts)
    (hlt : b.name v < st.valueLocations.length)
    (hnew : ∀ l, v ∉ (st.hostlocInfo l).values)
    (hvalues : ∀ w ∈ info.values, w = v ∨ w ∈ (st.hostlocInfo loc).values)
    (hinfo : v ∈ info.values) :
    ((st.setInfo loc info).setIndex b loc v).Consistent b act := by
  -- a value found in a location is the new one, or it was there before
  have hold {l : HostLoc} {w : Inst}
      (hw : w ∈ (((st.setInfo loc info).setIndex b loc v).hostlocInfo l).values) :
      (w = v ∧ l = loc) ∨ w ∈ (st.hostlocInfo l).values := by
    rw [hostlocInfo_setIndex, hostlocInfo_setInfo] at hw
    split at hw
    · rename_i hl
      subst l
      exact (hvalues w hw).imp_left fun heq => ⟨heq, rfl⟩
    · exact .inr hw
  refine ⟨?_, ?_, ?_, ?_, ?_, ?_⟩
  · intro l hl
    rw [hostlocInfo_setIndex, hostlocInfo_setInfo, if_neg (ne_of_mem_of_not_mem hloc hl).symm,
      h.inactive l hl]
  · intro l w hw
    simp only [Storage.setIndex, valueLocations_setInfo, List.length_set]
    obtain ⟨rfl, -⟩ | hw := hold hw
    · exact ⟨hv, hlt⟩
    · exact h.known l w hw
  · intro w l l' hl hl'
    obtain ⟨rfl, rfl⟩ | hin := hold hl
    · obtain ⟨-, rfl⟩ | hin' := hold hl'
      · rfl
      · exact absurd hin' (hnew l')
    · obtain ⟨rfl, -⟩ | hin' := hold hl'
      · exact absurd hin (hnew l)
      · exact h.unique w l l' hin hin'
  · intro l _ w hw
    simp only [Storage.setIndex, valueLocations_setInfo]
    obtain ⟨rfl, rfl⟩ | hw := hold hw
    · rw [List.getElem?_set_self hlt]
    · -- the name of an old value is not the name of the new one
      rw [List.getElem?_set_ne, h.getElem? hw]
      intro hname
      exact hnew l (b.name_injective v hv w (h.known l w hw).1 hname ▸ hw)
  · intro n l hl
    simp only [Storage.setIndex, valueLocations_setInfo] at hl
    by_cases hn : b.name v = n
    · subst n
      rw [List.getElem?_set_self hlt] at hl
      obtain rfl : loc = l := by simpa using hl
      exact hallocatable
    · rw [List.getElem?_set_ne hn] at hl
      exact h.allocatable n l hl
  · intro l
    rw [hostlocInfo_setIndex, hostlocInfo_setInfo]
    split
    · exact HostLocInfo.settled_of_mem hinfo
    · exact h.settled l

end Consistent

end Storage

/-! ### The active list -/

/-- The active list has no location twice, the flags say what is in it, and no reserved register
is. -/
structure ActiveList (s : RegAlloc Inst) : Prop where
  count_le : s.activeLocationCount ≤ s.activeLocations.length
  nodup : s.active.Nodup
  flags : ∀ loc, s.activeLocationFlags loc = true ↔ loc ∈ s.active
  allocatable : ∀ loc ∈ s.active, loc.Allocatable

structure Indexed (b : Block Inst) (s : RegAlloc Inst) : Prop where
  list : ActiveList s
  storage : s.toStorage.Consistent b s.active

/-- What is known where a call stops: an exception leaves the invariant behind. -/
def Unwound (b : Block Inst) (e : Stop) (s : RegAlloc Inst) : Prop := e = .exception → Indexed b s

variable {s : RegAlloc Inst} {loc : HostLoc} {α : Type} {E : Stop → RegAlloc Inst → Prop}
  {Q : Unit → RegAlloc Inst → Prop}

@[simp] theorem unwound_terminated : Unwound b .terminated s := by simp [Unwound]

@[simp] theorem unwound_undefinedBehaviour : Unwound b .undefinedBehaviour s := by simp [Unwound]

@[simp] theorem wp_assert {c : Prop} [Decidable c] :
    wp (assert c) Q E s ↔ (c → Q () s) ∧ (¬ c → E .terminated s) := by
  rw [assert, Lib.wp_ite, Lib.wp_pure, Lib.wp_throw]

@[simp] theorem wp_deref {o : Option α} {Q : α → RegAlloc Inst → Prop} :
    wp (deref o) Q (Unwound b) s ↔ ∀ a, o = some a → Q a s := by
  cases o <;> simp [deref]

@[simp] theorem wp_modifyStorage {f : Storage Inst → Storage Inst} :
    wp (modifyStorage f) Q E s ↔ Q () { s with toStorage := f s.toStorage } := Iff.rfl

@[simp] theorem wp_locInfo {Q : HostLocInfo Inst → RegAlloc Inst → Prop} :
    wp (locInfo loc) Q E s ↔
      (loc.Allocatable → Q (s.hostlocInfo loc) s) ∧ (¬ loc.Allocatable → E .terminated s) := by
  simp only [locInfo, Lib.wp_bind, wp_assert, Lib.wp_get, Lib.wp_pure]

theorem wp_update {f : HostLocInfo Inst → Option (HostLocInfo Inst)} :
    wp (update loc f) Q (Unwound b) s ↔ (loc.Allocatable → ∀ info,
      f (s.hostlocInfo loc) = some info →
        Q () { s with toStorage := s.toStorage.setInfo loc info }) := by
  simp only [update, Lib.wp_bind, wp_locInfo, unwound_terminated, implies_true, and_true]
  refine imp_congr_right fun _ => ?_
  cases f (s.hostlocInfo loc) <;> simp

/-- The calls into the emitter and the heap change nothing here. -/
theorem wp_mayThrow (hs : Indexed b s) (hQ : ∀ n, Q () { s with untilException := n }) :
    wp mayThrow Q (Unwound b) s := by
  simp only [mayThrow, Lib.wp_bind, Lib.wp_get, Lib.wp_ite, Lib.wp_throw, Lib.wp_modify]
  exact ⟨fun _ _ => hs, fun _ => hQ _⟩

theorem wp_emitMove {bitWidth : ℕ} {dest source : HostLoc} (hs : Indexed b s)
    (hQ : ∀ n, Q () { s with untilException := n }) :
    wp (emitMove bitWidth dest source) Q (Unwound b) s := by
  have hthrow := wp_mayThrow hs hQ
  cases dest <;> cases source <;> simp [emitMove, hthrow]

theorem wp_emitExchange {x y : HostLoc} (hs : Indexed b s)
    (hQ : ∀ n, Q () { s with untilException := n }) :
    wp (emitExchange x y) Q (Unwound b) s := by
  simp [emitExchange, wp_mayThrow hs hQ]

theorem active_append (loc : HostLoc)
    (hlt : s.activeLocationCount < s.activeLocations.length) :
    (s.activeLocations.set s.activeLocationCount loc).take (s.activeLocationCount + 1) =
      s.active ++ [loc] := by
  rw [List.take_add_one, List.take_set_of_le le_rfl, List.getElem?_set_self hlt]
  rfl

theorem wp_markActive (hs : ActiveList s) (hloc : loc.Allocatable) :
    wp (markActive loc)
      (fun _ t => ActiveList t ∧ t.toStorage = s.toStorage ∧ loc ∈ t.active ∧
        ∀ l ∈ s.active, l ∈ t.active) (Unwound b) s := by
  simp only [markActive, Lib.wp_bind, Lib.wp_get, Lib.wp_ite, Lib.wp_pure, wp_assert,
    Lib.wp_modify, unwound_terminated, implies_true, and_true]
  refine ⟨fun hflag => ⟨hs, trivial, (hs.flags loc).mp hflag, fun _ hl => hl⟩, fun hflag hlt => ?_⟩
  have hnew : loc ∉ s.active := fun hmem => hflag ((hs.flags loc).mpr hmem)
  have hactive := active_append (s := s) loc hlt
  refine ⟨⟨?_, ?_, ?_, ?_⟩, trivial, ?_, ?_⟩
  · change s.activeLocationCount + 1 ≤ (s.activeLocations.set _ _).length
    rw [List.length_set]
    exact hlt
  · change (List.take _ _).Nodup
    rw [hactive]
    exact hs.nodup.append (List.nodup_singleton loc) (by simpa using hnew)
  · intro l
    change Function.update s.activeLocationFlags loc true l = true ↔ l ∈ List.take _ _
    rw [hactive, Function.update_apply]
    split <;> simp_all [hs.flags]
  · intro l hl
    change l ∈ List.take _ _ at hl
    rw [hactive, List.mem_append, List.mem_singleton] at hl
    obtain hl | rfl := hl
    · exact hs.allocatable l hl
    · exact hloc
  · change loc ∈ List.take _ _
    simp [hactive]
  · intro l hl
    change l ∈ List.take _ _
    simp [hactive, hl]

theorem Indexed.setUntilException (hs : Indexed b s) (n : ℕ) :
    Indexed b { s with untilException := n } :=
  ⟨⟨hs.list.count_le, hs.list.nodup, hs.list.flags, hs.list.allocatable⟩, hs.storage⟩

theorem Indexed.setInfo (hs : Indexed b s) {info : HostLocInfo Inst} (hloc : loc ∈ s.active)
    (hinfo : (s.hostlocInfo loc).Shrinks info) :
    Indexed b { s with toStorage := s.toStorage.setInfo loc info } :=
  ⟨⟨hs.list.count_le, hs.list.nodup, hs.list.flags, hs.list.allocatable⟩,
    hs.storage.setInfo hloc hinfo.1 (hinfo.2 (hs.storage.settled loc))⟩

theorem wp_update_of_shrinks (hs : Indexed b s) (hloc : loc ∈ s.active)
    {f : HostLocInfo Inst → Option (HostLocInfo Inst)}
    (hf : ∀ info, f (s.hostlocInfo loc) = some info → (s.hostlocInfo loc).Shrinks info) :
    wp (update loc f) (fun _ => Indexed b) (Unwound b) s :=
  wp_update.mpr fun _ info hinfo => hs.setInfo hloc (hf info hinfo)

theorem Indexed.wp_markActive (hs : Indexed b s) (hloc : loc.Allocatable) :
    wp (markActive loc)
      (fun _ t => Indexed b t ∧ t.toStorage = s.toStorage ∧ loc ∈ t.active ∧
        ∀ l ∈ s.active, l ∈ t.active) (Unwound b) s := by
  refine Lib.wp_mono (RegAlloc.wp_markActive hs.list hloc) ?_
  rintro _ t ⟨ht, hst, hmem, hsub⟩
  refine ⟨⟨ht, ?_⟩, hst, hmem, hsub⟩
  rw [hst]
  exact hs.storage.mono hsub

theorem wp_modifyStorage_markActive {f : Storage Inst → Storage Inst} (hs : Indexed b s)
    (hloc : loc.Allocatable) {P : RegAlloc Inst → Prop}
    (hf : ∀ act, loc ∈ act → s.toStorage.Consistent b act → (f s.toStorage).Consistent b act)
    (hP : ∀ t, t.toStorage = f s.toStorage → loc ∈ t.active → Indexed b t → P t) :
    wp (modifyStorage f >>= fun _ => markActive loc) (fun _ => P) (Unwound b) s := by
  rw [Lib.wp_bind, wp_modifyStorage]
  have hlist : ActiveList { s with toStorage := f s.toStorage } :=
    ⟨hs.list.count_le, hs.list.nodup, hs.list.flags, hs.list.allocatable⟩
  refine Lib.wp_mono (wp_markActive hlist hloc) ?_
  rintro _ t ⟨ht, hst, hmem, hsub⟩
  refine hP t hst hmem ⟨ht, ?_⟩
  rw [hst]
  exact hf t.active hmem (hs.storage.mono hsub)

/-! ### Finding a value -/

section Scan

variable [DecidableEq Inst] {v : Inst}

/-- The scan over all locations that the table replaces. -/
def scan (st : Storage Inst) (v : Inst) : Option HostLoc :=
  HostLoc.all.find? fun loc => (st.hostlocInfo loc).containsValue v

theorem scan_eq_some_iff {st : Storage Inst} {act : List HostLoc} (h : st.Consistent b act) :
    scan st v = some loc ↔ v ∈ (st.hostlocInfo loc).values := by
  have hfound {l : HostLoc} (hl : scan st v = some l) : v ∈ (st.hostlocInfo l).values := by
    simpa [HostLocInfo.containsValue] using List.find?_some hl
  refine ⟨hfound, fun hv => ?_⟩
  cases hscan : scan st v with
  | none =>
      have := List.find?_eq_none.mp hscan loc (HostLoc.mem_all loc)
      simp [HostLocInfo.containsValue, hv] at this
  | some l => rw [h.unique v l loc (hfound hscan) hv]

theorem scan_eq_none_iff {st : Storage Inst} :
    scan st v = none ↔ ∀ loc, v ∉ (st.hostlocInfo loc).values := by
  simp [scan, HostLocInfo.containsValue]

theorem scan_eq_none_of_table {st : Storage Inst} {act : List HostLoc} (h : st.Consistent b act)
    (htable : ∀ loc, st.valueLocations[b.name v]? = some (some loc) →
      v ∉ (st.hostlocInfo loc).values) : scan st v = none :=
  scan_eq_none_iff.mpr fun loc hv => htable loc (h.getElem? hv) hv

theorem valueLocation_eq_scan (hs : Indexed b s) :
    valueLocation b v s = .ok (scan s.toStorage v) s := by
  have hwp : wp (valueLocation b v) (fun o t => o = scan s.toStorage v ∧ t = s)
      (fun _ _ => False) s := by
    simp only [valueLocation, Lib.wp_bind, Lib.wp_get]
    split
    · rename_i loc hat
      rw [Lib.wp_bind, wp_locInfo]
      refine ⟨fun _ => ⟨?_, rfl⟩, fun hloc => hloc (hs.storage.allocatable _ _ hat)⟩
      by_cases hv : v ∈ (s.hostlocInfo loc).values
      · simp [HostLocInfo.containsValue, hv, (scan_eq_some_iff hs.storage).mpr hv]
      · rw [scan_eq_none_of_table hs.storage]
        · simp [HostLocInfo.containsValue, hv]
        · intro l hl
          obtain rfl : loc = l := by simpa using hat.symm.trans hl
          exact hv
    · rename_i hat
      exact ⟨(scan_eq_none_of_table hs.storage fun l hl => by simp [hat] at hl).symm, rfl⟩
    · rename_i hat
      exact ⟨(scan_eq_none_of_table hs.storage fun l hl => by simp [hat] at hl).symm, rfl⟩
  obtain ⟨o, t, hrun, rfl, rfl⟩ := Lib.exists_ok_of_wp hwp
  exact hrun

theorem wp_valueLocation {Q : Option HostLoc → RegAlloc Inst → Prop} (hs : Indexed b s) :
    wp (valueLocation b v) Q E s ↔ Q (scan s.toStorage v) s := by
  rw [wp, valueLocation_eq_scan hs]

end Scan

/-! ### Moving a value -/

section Moves

def KeepsOthers (source : HostLoc) (s t : RegAlloc Inst) : Prop :=
  ∀ l ≠ source, ¬ (s.hostlocInfo l).isEmpty → t.hostlocInfo l = s.hostlocInfo l

theorem wp_move {dest source : HostLoc} (hs : Indexed b s) :
    wp (move b dest source) (fun _ t => Indexed b t ∧ KeepsOthers source s t ∧
      (¬ (s.hostlocInfo source).isEmpty → dest ∈ t.active)) (Unwound b) s := by
  simp only [move, Lib.wp_bind, wp_locInfo, wp_assert, Lib.wp_ite, Lib.wp_pure,
    unwound_terminated, implies_true, and_true]
  rintro hsource hdest - ⟨hfree, -⟩ - -
  refine ⟨fun hempty => ⟨hs, fun l _ _ => rfl, fun h => absurd hempty h⟩, fun hfull => ?_⟩
  refine wp_emitMove hs fun n => ?_
  have hs' := hs.setUntilException n
  refine wp_modifyStorage_markActive hs' hdest (fun act hd hst => ?_) fun t ht hd hindexed => ?_
  · have hsource' : source ∈ act := hst.mem_active hfull
    exact (hst.takeInfo hd hsource').reindex hdest
  · refine ⟨hindexed, fun l hl hheld => ?_, fun _ => hd⟩
    have hne : l ≠ dest := by
      rintro rfl
      exact hheld hfree
    rw [ht]
    simp [Storage.takeInfo, hl, hne]

theorem wp_exchange {x y : HostLoc} (hs : Indexed b s) :
    wp (exchange b x y) (fun _ t => Indexed b t ∧
      (¬ (s.hostlocInfo y).isEmpty → x ∈ t.active)) (Unwound b) s := by
  simp only [exchange, Lib.wp_bind, wp_locInfo, wp_assert, Lib.wp_ite,
    unwound_terminated, implies_true, and_true]
  rintro hx hy - - - - - -
  refine ⟨fun _ => ?_, fun hxfull _ => ⟨fun hyempty => ?_, fun hyfull => ?_⟩⟩
  · exact Lib.wp_mono (wp_move hs) fun _ t ht => ⟨ht.1, ht.2.2⟩
  · exact Lib.wp_mono (wp_move hs) fun _ t ht => ⟨ht.1, fun h => absurd hyempty h⟩
  · refine wp_emitExchange hs fun n => ?_
    -- both locations hold something, so they are active before they are marked
    have hswapped : Indexed b { s with
        toStorage := ((s.toStorage.swapInfo x y).reindex b x).reindex b y
        untilException := n } :=
      ⟨⟨hs.list.count_le, hs.list.nodup, hs.list.flags, hs.list.allocatable⟩,
        ((hs.storage.swapInfo (hs.storage.mem_active hxfull)
          (hs.storage.mem_active hyfull)).reindex hx).reindex hy⟩
    rw [Lib.wp_bind, wp_modifyStorage, Lib.wp_bind]
    refine Lib.wp_mono (hswapped.wp_markActive hx) fun _ t ht => ?_
    refine Lib.wp_mono (ht.1.wp_markActive hy) fun _ t' ht' => ?_
    exact ⟨ht'.1, fun _ => ht'.2.2.2 x ht.2.2.1⟩

theorem wp_spillRegister (hs : Indexed b s) :
    wp (spillRegister b loc) (fun _ t => Indexed b t ∧ KeepsOthers loc s t) (Unwound b) s := by
  simp only [spillRegister, findFreeSpill, Lib.wp_bind, wp_locInfo, wp_assert, Lib.wp_get,
    unwound_terminated, implies_true, and_true]
  rintro - - - - -
  split
  · rw [Lib.wp_pure]
    exact Lib.wp_mono (wp_move hs) fun _ t ht => ⟨ht.1, ht.2.1⟩
  · simp

theorem wp_moveOutOfTheWay (hs : Indexed b s) :
    wp (moveOutOfTheWay b loc) (fun _ t => Indexed b t ∧ KeepsOthers loc s t ∧ loc.Allocatable)
      (Unwound b) s := by
  simp only [moveOutOfTheWay, Lib.wp_bind, wp_locInfo, wp_assert, Lib.wp_ite, Lib.wp_pure,
    unwound_terminated, implies_true, and_true]
  rintro hloc - -
  refine ⟨fun _ => ⟨hs, fun l _ _ => rfl, hloc⟩, fun _ => ?_⟩
  exact Lib.wp_mono (wp_spillRegister hs) fun _ t ht => ⟨ht.1, ht.2, hloc⟩

/-- The common end of the functions that hand out a scratch location. -/
theorem wp_markActive_writeLock (hs : Indexed b s) (hloc : loc.Allocatable) :
    wp (do markActive loc; update loc (·.writeLock); return loc : Alloc Inst HostLoc)
      (fun _ => Indexed b) (Unwound b) s := by
  refine Lib.wp_bind.mpr (Lib.wp_mono (hs.wp_markActive hloc) fun _ t ht => ?_)
  refine Lib.wp_bind.mpr (Lib.wp_mono ?_ fun _ _ ht' => ht')
  exact wp_update_of_shrinks ht.1 ht.2.2.1 fun _ => HostLocInfo.shrinks_of_writeLock

end Moves

/-! ### The calls -/

section Calls

variable {p : Platform} {desired : List HostLoc} {v : Inst}

theorem wp_copyToScratch {bitWidth : ℕ} {dest source : HostLoc} (hs : Indexed b s) :
    wp (copyToScratch bitWidth dest source) (fun _ => Indexed b) (Unwound b) s := by
  simp only [copyToScratch, Lib.wp_bind, wp_locInfo, wp_assert, unwound_terminated,
    implies_true, and_true]
  intro _ _ _
  exact wp_emitMove hs hs.setUntilException

theorem wp_selectARegister (hs : Indexed b s) :
    wp (selectARegister p desired) (fun loc t => t = s ∧ loc ∈ desired) (Unwound b) s := by
  unfold selectARegister
  rw [Lib.wp_bind, wp_assert]
  refine ⟨fun _ => ?_, fun _ => unwound_terminated⟩
  cases desired with
  | nil => exact unwound_terminated
  | cons first rest =>
      simp only [Lib.wp_bind, wp_locInfo, Lib.wp_ite, Lib.wp_pure, unwound_terminated,
        implies_true, and_true]
      intro _
      refine ⟨fun _ => by simp, fun _ => ?_⟩
      have hchecked : wp ((first :: rest).forM fun loc => assert loc.Allocatable)
          (fun _ t => t = s) (Unwound b) s := by
        refine Lib.wp_forM rfl fun loc _ t ht => wp_assert.mpr ⟨fun _ => ht, fun _ => ?_⟩
        exact unwound_terminated
      refine Lib.wp_mono hchecked ?_
      rintro _ _ rfl
      simp only [Lib.wp_bind, Lib.wp_get, wp_assert, unwound_terminated, implies_true, and_true]
      intro _
      split
      · rename_i loc tail hfront
        -- both partitions only reorder
        have hmem := (p.partition.perm _ _).mem_iff.mp (hfront ▸ List.mem_cons_self)
        exact ⟨rfl, (p.partition.perm _ _).mem_iff.mp (List.mem_of_mem_take hmem)⟩
      · exact unwound_terminated

theorem wp_scratchImpl (hs : Indexed b s) :
    wp (scratchImpl p b desired) (fun _ => Indexed b) (Unwound b) s := by
  refine Lib.wp_bind.mpr (Lib.wp_mono (wp_selectARegister hs) ?_)
  rintro loc _ ⟨rfl, -⟩
  refine Lib.wp_bind.mpr (Lib.wp_mono (wp_moveOutOfTheWay hs) ?_)
  rintro _ t ⟨ht, -, hloc⟩
  exact wp_markActive_writeLock ht hloc

theorem wp_loadImmediate {type : IR.IRType} (hs : Indexed b s) :
    wp (loadImmediate type loc) (fun _ => Indexed b) (Unwound b) s := by
  simp only [loadImmediate, Lib.wp_bind, wp_assert, unwound_terminated, implies_true, and_true]
  intro _ _
  exact wp_mayThrow hs hs.setUntilException

theorem wp_readLock (hs : Indexed b s) (hloc : loc ∈ s.active) :
    wp (do update loc (·.readLock); return loc : Alloc Inst HostLoc) (fun _ => Indexed b)
      (Unwound b) s :=
  Lib.wp_bind.mpr (wp_update_of_shrinks hs hloc fun _ => HostLocInfo.shrinks_of_readLock)

theorem wp_scratch_loadImmediate {type : IR.IRType} (hs : Indexed b s) :
    wp (scratchImpl p b desired >>= loadImmediate type) (fun _ => Indexed b) (Unwound b) s :=
  Lib.wp_bind.mpr (Lib.wp_mono (wp_scratchImpl hs) fun _ _ ht => wp_loadImmediate ht)

variable [DecidableEq Inst]

theorem wp_useScratchImpl (hs : Indexed b s) {useValue : Value Inst} :
    wp (useScratchImpl p b useValue desired) (fun _ => Indexed b) (Unwound b) s := by
  cases useValue with
  | imm type => exact wp_scratch_loadImmediate hs
  | inst v =>
      unfold useScratchImpl
      dsimp only
      rw [Lib.wp_bind, wp_valueLocation hs, Lib.wp_bind, wp_deref]
      intro current hcurrent
      split
      · exact unwound_terminated
      · rename_i bitWidth _
        simp only [Lib.wp_bind, wp_locInfo, Lib.wp_ite, unwound_terminated, implies_true, and_true]
        intro hallocatable
        refine ⟨fun _ _ => ⟨fun _ => ?_, fun _ => ?_⟩, fun _ => ?_⟩
        · refine Lib.wp_mono (wp_moveOutOfTheWay hs) fun _ t ht => ?_
          exact wp_markActive_writeLock ht.1 hallocatable
        · have hactive := hs.storage.mem_active_of_mem ((scan_eq_some_iff hs.storage).mp hcurrent)
          have hlast := wp_update_of_shrinks hs hactive fun _ => HostLocInfo.shrinks_of_setLastUse
          exact Lib.wp_mono hlast fun _ t ht => wp_markActive_writeLock ht hallocatable
        · refine Lib.wp_mono (wp_selectARegister hs) ?_
          rintro dest _ ⟨rfl, -⟩
          refine Lib.wp_bind.mpr (Lib.wp_mono (wp_moveOutOfTheWay hs) ?_)
          rintro _ t ⟨ht, -, hdest⟩
          refine Lib.wp_bind.mpr (Lib.wp_mono (wp_copyToScratch ht) fun _ t' ht' => ?_)
          exact wp_markActive_writeLock ht' hdest

/-- Whichever way a value is used, the indices stay in order, an exception included. -/
theorem wp_useImpl (hs : Indexed b s) {useValue : Value Inst} :
    wp (useImpl p b useValue desired) (fun _ => Indexed b) (Unwound b) s := by
  cases useValue with
  | imm type => exact wp_scratch_loadImmediate hs
  | inst v =>
      unfold useImpl
      dsimp only
      rw [Lib.wp_bind, wp_valueLocation hs, Lib.wp_bind, wp_deref]
      intro current hcurrent
      have hv := (scan_eq_some_iff hs.storage).mp hcurrent
      have hactive := hs.storage.mem_active_of_mem hv
      simp only [Lib.wp_bind, wp_locInfo, Lib.wp_ite, unwound_terminated, implies_true, and_true]
      intro hallocatable
      refine ⟨fun _ => ?_, fun houtside => ?_⟩
      · exact Lib.wp_bind.mp (wp_readLock hs hactive)
      · refine fun _ => ⟨fun _ => wp_useScratchImpl hs, fun _ => ?_⟩
        have hheld : ¬ (s.hostlocInfo current).isEmpty := by
          intro hempty
          simp [(HostLocInfo.isEmpty_iff.mp hempty).2] at hv
        refine Lib.wp_mono (wp_selectARegister hs) ?_
        rintro dest _ ⟨rfl, hdest⟩
        simp only [Lib.wp_ite]
        refine ⟨fun _ => wp_useScratchImpl hs, fun _ => ⟨fun _ => ?_, fun _ => ?_⟩⟩
        · refine Lib.wp_bind.mpr (Lib.wp_mono (wp_exchange hs) ?_)
          rintro _ t ⟨ht, hmem⟩
          exact wp_readLock ht (hmem hheld)
        · refine Lib.wp_bind.mpr (Lib.wp_mono (wp_moveOutOfTheWay hs) ?_)
          rintro _ t ⟨ht, hkept, -⟩
          -- the destination is among the desired locations, so it is not where the value is
          have hsame := hkept current (fun heq => houtside (heq ▸ hdest)) hheld
          refine Lib.wp_bind.mpr (Lib.wp_mono (wp_move ht) ?_)
          rintro _ t' ⟨ht', -, hmem⟩
          exact wp_readLock ht' (hmem (hsame ▸ hheld))

omit [DecidableEq Inst] in
/-- The value is put into the location and its index, behind whatever exception may still come. -/
theorem wp_addValue (hs : Indexed b s) (hv : v ∈ b.insts)
    (hlt : b.name v < s.valueLocations.length) (hallocatable : loc.Allocatable)
    (hnew : ∀ l, v ∉ (s.hostlocInfo l).values) (n : ℕ) :
    wp (match (s.hostlocInfo loc).addValue b v with
      | none => throw .terminated
      | some info => do
          modifyStorage fun st => (st.setInfo loc info).setIndex b loc v
          markActive loc) (fun _ => Indexed b) (Unwound b) { s with untilException := n } := by
  split
  · exact unwound_terminated
  · rename_i info hinfo
    obtain ⟨hmem, hvalues⟩ := HostLocInfo.mem_addValue hinfo
    refine wp_modifyStorage_markActive (hs.setUntilException n) hallocatable
      (fun act hloc hst => ?_) fun _ _ _ ht => ht
    exact hst.define hloc hallocatable hv hlt hnew hvalues hmem

theorem wp_defineValueImpl (hs : Indexed b s) (hv : v ∈ b.insts) :
    wp (defineValueImpl b v loc) (fun _ => Indexed b) (Unwound b) s := by
  unfold defineValueImpl
  rw [Lib.wp_bind, wp_valueLocation hs]
  simp only [Lib.wp_bind, wp_assert, Lib.wp_get, wp_locInfo, unwound_terminated, implies_true,
    and_true]
  intro hnew hlt hallocatable
  rw [scan_eq_none_iff] at hnew
  have hadd := wp_addValue hs hv hlt hallocatable hnew
  exact Lib.wp_ite.mpr ⟨fun _ => hadd s.untilException, fun _ =>
    Lib.wp_bind.mpr (wp_mayThrow hs hadd)⟩

theorem wp_defineValueImplAs (hs : Indexed b s) (hv : v ∈ b.insts) {useInst : Value Inst} :
    wp (defineValueImplAs p b v useInst) (fun _ => Indexed b) (Unwound b) s := by
  unfold defineValueImplAs
  rw [Lib.wp_bind, wp_valueLocation hs]
  simp only [Lib.wp_bind, wp_assert, unwound_terminated, implies_true, and_true]
  intro hnew
  cases useInst with
  | imm type =>
      refine Lib.wp_bind.mpr (Lib.wp_mono (wp_scratchImpl hs) fun loc t ht => ?_)
      refine Lib.wp_bind.mpr (Lib.wp_mono (wp_defineValueImpl ht hv) fun _ t' ht' => ?_)
      exact Lib.wp_bind.mpr (wp_loadImmediate ht')
  | inst w =>
      refine Lib.wp_bind.mpr ((wp_valueLocation hs).mpr ?_)
      cases scan s.toStorage w with
      | none => exact unwound_terminated
      | some location => exact wp_defineValueImpl hs hv

theorem wp_addArgReference (hs : Indexed b s) (hloc : scan s.toStorage v = some loc) :
    wp (update loc (·.addArgReference)) (fun _ => Indexed b) (Unwound b) s := by
  have hv := (scan_eq_some_iff hs.storage).mp hloc
  exact wp_update_of_shrinks hs (hs.storage.mem_active_of_mem hv) fun _ =>
    HostLocInfo.shrinks_of_addArgReference hv

theorem wp_getArgumentInfo (hs : Indexed b s) :
    wp (getArgumentInfo b v) (fun _ => Indexed b) (Unwound b) s := by
  refine Lib.wp_bind.mpr (Lib.wp_forM hs fun arg _ t ht => ?_)
  cases arg with
  | imm type => exact ht
  | inst w =>
      refine Lib.wp_ite.mpr ⟨fun _ => ht, fun _ => Lib.wp_bind.mpr ((wp_valueLocation ht).mpr ?_)⟩
      cases hloc : scan t.toStorage w with
      | none => exact unwound_terminated
      | some loc => exact wp_addArgReference ht hloc

theorem wp_registerPseudoOperation (hs : Indexed b s) :
    wp (registerPseudoOperation b v) (fun _ => Indexed b) (Unwound b) s := by
  unfold registerPseudoOperation isValueLive
  simp only [Lib.wp_bind, wp_valueLocation hs, Lib.wp_pure, wp_assert, unwound_terminated,
    implies_true, and_true]
  intro _
  refine Lib.wp_forM hs fun arg _ t ht => ?_
  cases arg with
  | imm type => exact ht
  | inst w =>
      refine Lib.wp_ite.mpr ⟨fun _ => ht, fun _ => Lib.wp_bind.mpr ((wp_valueLocation ht).mpr ?_)⟩
      cases hloc : scan t.toStorage w with
      | none => exact ht
      | some loc => exact wp_addArgReference ht hloc

omit [DecidableEq Inst] in
theorem wp_bind_toReg {m : Alloc Inst HostLoc} (hm : wp m (fun _ => Indexed b) (Unwound b) s) :
    wp (m >>= hostLocToReg64) (fun _ => Indexed b) (Unwound b) s ∧
      wp (m >>= hostLocToXmm) (fun _ => Indexed b) (Unwound b) s := by
  constructor
  · refine Lib.wp_bind.mpr (Lib.wp_mono hm fun loc t ht => ?_)
    cases loc <;> first | exact ht | exact unwound_terminated
  · refine Lib.wp_bind.mpr (Lib.wp_mono hm fun loc t ht => ?_)
    cases loc <;> first | exact ht | exact unwound_terminated

theorem wp_hostCallArg (hs : Indexed b s) {arg : Option (Value Inst)} :
    wp (hostCallArg p b loc arg) (fun _ => Indexed b) (Unwound b) s := by
  cases arg with
  | none => exact hs
  | some arg =>
      refine Lib.wp_ite.mpr ⟨fun _ => hs, fun _ => Lib.wp_bind.mpr (Lib.wp_bind.mpr ?_)⟩
      refine Lib.wp_mono (wp_useScratchImpl hs) fun _ t ht => ?_
      exact Lib.wp_ite.mpr ⟨fun _ => wp_mayThrow ht ht.setUntilException, fun _ => ht⟩

theorem wp_hostCall (hs : Indexed b s) {resultDef : Option Inst}
    (hdef : ∀ v ∈ resultDef, v ∈ b.insts) {args : Fin 4 → Option (Value Inst)} :
    wp (hostCall p b resultDef args) (fun _ => Indexed b) (Unwound b) s := by
  unfold hostCall
  refine Lib.wp_bind.mpr (Lib.wp_mono (wp_bind_toReg (wp_scratchImpl hs)).1 fun _ t ht => ?_)
  have hresult : wp (hostCallResult p b resultDef) (fun _ => Indexed b) (Unwound b) t := by
    cases resultDef with
    | none => exact ht
    | some inst => exact wp_defineValueImpl ht (hdef inst rfl)
  refine Lib.wp_bind.mpr (Lib.wp_mono hresult fun _ t ht => ?_)
  refine Lib.wp_bind.mpr (Lib.wp_mono (Lib.wp_forM ht fun i _ t ht => ?_) fun _ t ht => ?_)
  · exact wp_hostCallArg ht
  refine Lib.wp_bind.mpr (Lib.wp_mono (Lib.wp_forM ht fun i _ t ht => ?_) fun _ t ht => ?_)
  · cases args i with
    | some arg => exact ht
    | none => exact Lib.wp_discard.mpr (wp_bind_toReg (wp_scratchImpl ht)).1
  · exact Lib.wp_forM ht fun loc _ t ht => Lib.wp_discard.mpr (wp_scratchImpl ht)

omit [DecidableEq Inst] in
theorem wp_stackSpace (hs : Indexed b s) {stackSpace : BitVec 64} :
    wp (allocStackSpace stackSpace) (fun _ => Indexed b) (Unwound b) s ∧
      wp (releaseStackSpace stackSpace) (fun _ => Indexed b) (Unwound b) s := by
  have hreserve (n : BitVec 64) : wp (do
      modify fun s => { s with reservedStackSpace := n }
      mayThrow) (fun _ => Indexed b) (Unwound b) s := by
    have hs' : Indexed b { s with reservedStackSpace := n } :=
      ⟨⟨hs.list.count_le, hs.list.nodup, hs.list.flags, hs.list.allocatable⟩, hs.storage⟩
    exact Lib.wp_bind.mpr (wp_mayThrow hs' hs'.setUntilException)
  constructor
  · simp only [allocStackSpace, Lib.wp_bind, wp_assert, Lib.wp_get, unwound_terminated,
      implies_true, and_true]
    exact fun _ _ => Lib.wp_bind.mp (hreserve stackSpace)
  · simp only [releaseStackSpace, Lib.wp_bind, wp_assert, Lib.wp_get, unwound_terminated,
      implies_true, and_true]
    exact fun _ _ => Lib.wp_bind.mp (hreserve 0)

omit [DecidableEq Inst] in
theorem wp_release (hs : Indexed b s) {reg : Reg}
    (hlocked : (s.hostlocInfo reg.hostLoc).isLocked) :
    wp (release reg) (fun _ => Indexed b) (Unwound b) s := by
  have hheld : ¬ (s.hostlocInfo reg.hostLoc).isEmpty := by
    intro hempty
    simp [HostLocInfo.isLocked, (HostLocInfo.isEmpty_iff.mp hempty).1] at hlocked
  refine wp_update_of_shrinks hs (hs.storage.mem_active hheld) fun info hinfo => ?_
  obtain rfl := Option.some.inj hinfo
  exact HostLocInfo.shrinks_releaseOne

end Calls

end RegAlloc

end Umbra.X64
