import Umbra.X64.RegAllocIndex

/-!
The indices of the register allocator refine a scan over all locations.

The loop that ends an allocation scope visits the active locations only and compacts their list in
place; it does what releasing every location would do.  From this and from what the calls keep it
follows for every run of the emitter, over any number of blocks and through exceptions, that the
indices give what a scan would.
-/

namespace Umbra.X64.RegAlloc

open Lib (wp)

variable {Inst : Type} {b : Block Inst} {s t : RegAlloc Inst} {loc : HostLoc}

namespace Storage

/-- Release every location: what `EndOfAllocScope` amounts to. -/
def releaseEvery (st : Storage Inst) : Storage Inst :=
  { st with hostlocInfo := fun loc => (st.hostlocInfo loc).releaseAll }

def AllEmpty (st : Storage Inst) : Prop := ∀ loc, (st.hostlocInfo loc).isEmpty = true

def Clean (st : Storage Inst) : Prop := ∀ loc, st.hostlocInfo loc = {}

theorem Clean.allEmpty {st : Storage Inst} (h : st.Clean) : st.AllEmpty := by
  intro loc
  rw [h loc]
  rfl

instance (st : Storage Inst) : Decidable st.AllEmpty :=
  decidable_of_iff (HostLoc.all.all fun loc => (st.hostlocInfo loc).isEmpty) (by
    simp [AllEmpty])

end Storage

/-! ### The end of a scope -/

section EndOfScope

variable {E : Stop → RegAlloc Inst → Prop} {Q : Unit → RegAlloc Inst → Prop}

theorem wp_update_some {g : HostLocInfo Inst → HostLocInfo Inst} (hloc : loc.Allocatable) :
    wp (update loc fun info => some (g info)) Q E s ↔
      Q () { s with toStorage := s.toStorage.setInfo loc (g (s.hostlocInfo loc)) } := by
  simp [update, hloc]

def remains (s : RegAlloc Inst) (loc : HostLoc) : Bool :=
  !(s.hostlocInfo loc).releaseAll.isEmpty

/-- What holds of the loop of `EndOfAllocScope` after `i` turns: the array is untouched from there
on, and the locations of the turns taken are released, those that remain being at its start. -/
structure Released (s₀ : RegAlloc Inst) (i retained : ℕ) (s : RegAlloc Inst) : Prop where
  retained_le : retained ≤ i
  length : s.activeLocations.length = s₀.activeLocations.length
  ahead : ∀ j, i ≤ j → s.activeLocations[j]? = s₀.activeLocations[j]?
  behind : s.activeLocations.take retained = (s₀.activeLocations.take i).filter (remains s₀)
  flags : ∀ l, s.activeLocationFlags l = true ↔
    s₀.activeLocationFlags l = true ∧ (l ∈ s₀.activeLocations.take i → remains s₀ l = true)
  info : ∀ l, s.hostlocInfo l =
    if l ∈ s₀.activeLocations.take i then (s₀.hostlocInfo l).releaseAll else s₀.hostlocInfo l
  table : s.valueLocations = s₀.valueLocations

theorem released_zero : Released s 0 0 s := by
  constructor <;> simp

section Turn

variable {s₀ : RegAlloc Inst} {i retained : ℕ}

theorem Released.drop (h : Released s₀ i retained s) (hat : s₀.activeLocations[i]? = some loc)
    (hnew : loc ∉ s₀.activeLocations.take i) (hgone : remains s₀ loc = false) :
    Released s₀ (i + 1) retained { s with
      toStorage := s.toStorage.setInfo loc (s₀.hostlocInfo loc).releaseAll
      activeLocationFlags := Function.update s.activeLocationFlags loc false } := by
  have htake : s₀.activeLocations.take (i + 1) = s₀.activeLocations.take i ++ [loc] := by
    rw [List.take_add_one, hat]
    rfl
  refine ⟨Nat.le_succ_of_le h.retained_le, h.length, fun j hj => h.ahead j (Nat.le_of_succ_le hj),
    ?_, fun l => ?_, fun l => ?_, h.table⟩
  · rw [htake, List.filter_append, h.behind]
    simp [hgone]
  · change Function.update s.activeLocationFlags loc false l = true ↔ _
    rw [htake, Function.update_apply]
    split
    · subst l
      simp [hgone]
    · rename_i hl
      rw [h.flags l]
      simp [hl]
  · rw [htake, Storage.hostlocInfo_setInfo, h.info l]
    split <;> simp_all

/-- A location that still holds something moves to the front of the array. -/
theorem Released.keep (h : Released s₀ i retained s) (hat : s₀.activeLocations[i]? = some loc)
    (hnew : loc ∉ s₀.activeLocations.take i) (hkept : remains s₀ loc = true) :
    Released s₀ (i + 1) (retained + 1) { s with
      toStorage := s.toStorage.setInfo loc (s₀.hostlocInfo loc).releaseAll
      activeLocations := s.activeLocations.set retained loc } := by
  have htake : s₀.activeLocations.take (i + 1) = s₀.activeLocations.take i ++ [loc] := by
    rw [List.take_add_one, hat]
    rfl
  have hlt : retained < s.activeLocations.length := by
    rw [h.length]
    exact h.retained_le.trans_lt (List.getElem?_eq_some_iff.mp hat).1
  refine ⟨Nat.succ_le_succ h.retained_le, by simpa using h.length, fun j hj => ?_, ?_,
    fun l => ?_, fun l => ?_, h.table⟩
  · -- the array is written at an index that the loop has passed
    have hne : retained ≠ j := (h.retained_le.trans_lt hj).ne
    rw [List.getElem?_set_ne hne, h.ahead j (Nat.le_of_succ_le hj)]
  · rw [htake, List.filter_append, ← h.behind, List.take_add_one, List.take_set_of_le le_rfl,
      List.getElem?_set_self hlt]
    simp [hkept]
  · rw [htake, h.flags l]
    simp only [List.mem_append, List.mem_singleton, or_imp]
    refine and_congr_right fun _ => ⟨fun hl => ⟨hl, ?_⟩, fun hl => hl.1⟩
    rintro rfl
    exact hkept
  · rw [htake, Storage.hostlocInfo_setInfo, h.info l]
    split <;> simp_all

end Turn

/-- The whole loop, over a list without repetitions. -/
theorem wp_releaseFrom {s₀ : RegAlloc Inst} (hlist : ActiveList s₀) {turns i retained : ℕ}
    (hturns : i + turns = s₀.activeLocationCount) (h : Released s₀ i retained s) :
    wp (releaseFrom turns i retained) (fun k t => Released s₀ s₀.activeLocationCount k t)
      (fun _ _ => False) s := by
  induction turns generalizing i retained s with
  | zero =>
      obtain rfl : i = s₀.activeLocationCount := hturns
      exact h
  | succ turns ih =>
      have hi : i < s₀.activeLocations.length := by
        have := hlist.count_le
        omega
      obtain ⟨loc, hat⟩ : ∃ loc, s₀.activeLocations[i]? = some loc :=
        ⟨_, List.getElem?_eq_getElem hi⟩
      have hactive : s₀.activeLocations.take (i + 1) = s₀.activeLocations.take i ++ [loc] := by
        rw [List.take_add_one, hat]
        rfl
      have hhead : (s₀.activeLocations.take i ++ [loc]).Sublist s₀.active := by
        rw [← hactive]
        exact List.take_sublist_take_left (by omega)
      have hloc : loc.Allocatable := hlist.allocatable loc (hhead.subset (by simp))
      have hnew : loc ∉ s₀.activeLocations.take i := by
        have hnodup := List.nodup_append.mp (hlist.nodup.sublist hhead)
        exact fun hmem => hnodup.2.2 loc hmem loc (by simp) rfl
      have hinfo : s.hostlocInfo loc = s₀.hostlocInfo loc := by rw [h.info loc, if_neg hnew]
      unfold releaseFrom
      simp only [Lib.wp_bind, Lib.wp_get, h.ahead i le_rfl, hat, deref, Lib.wp_pure,
        wp_update_some hloc, wp_locInfo, hloc, Lib.wp_ite, Lib.wp_modify,
        Storage.hostlocInfo_setInfo, hinfo, if_true, not_true_eq_false, false_implies, and_true,
        forall_const]
      refine ⟨fun hgone => ?_, fun hkept => ?_⟩
      · exact ih (by omega) (h.drop hat hnew (by simpa [remains] using hgone))
      · exact ih (by omega) (h.keep hat hnew (by simpa [remains] using hkept))

theorem Storage.Consistent.releaseEvery (h : s.toStorage.Consistent b s.active) :
    s.toStorage.releaseEvery.Consistent b (s.active.filter (remains s)) := by
  have hsame : s.toStorage.releaseEvery.Consistent b s.active := by
    refine h.permute (Equiv.refl _) rfl (fun l v hv => ?_) (fun _ _ _ => rfl) (fun l hl => ?_)
      fun l => (h.settled l).releaseAll
    · obtain hnil | hvalues := (s.hostlocInfo l).values_releaseAll
      · change v ∈ (s.hostlocInfo l).releaseAll.values at hv
        simp [hnil] at hv
      · exact hvalues ▸ hv
    · change (s.hostlocInfo l).releaseAll = {}
      rw [h.inactive l hl, HostLocInfo.releaseAll_empty]
  refine { hsame with inactive := fun l hl => ?_ }
  by_cases hactive : l ∈ s.active
  · refine (h.settled l).releaseAll_eq_empty ?_
    simpa [List.mem_filter, hactive, remains] using hl
  · exact hsame.inactive l hactive

theorem Released.storage_eq {retained : ℕ} (hs : Indexed b s)
    (h : Released s s.activeLocationCount retained t) :
    t.toStorage = s.toStorage.releaseEvery := by
  have hinfo (l : HostLoc) : t.hostlocInfo l = (s.hostlocInfo l).releaseAll := by
    rw [h.info l]
    split
    · rfl
    · rename_i hl
      rw [hs.storage.inactive l hl, HostLocInfo.releaseAll_empty]
  change (⟨t.hostlocInfo, t.valueLocations⟩ : Storage Inst) = ⟨_, s.valueLocations⟩
  rw [funext hinfo, h.table]

theorem Released.indexed {retained : ℕ} (hs : Indexed b s)
    (h : Released s s.activeLocationCount retained t) :
    Indexed b { t with activeLocationCount := retained } := by
  have hactive : t.activeLocations.take retained = s.active.filter (remains s) := h.behind
  refine ⟨⟨?_, ?_, ?_, ?_⟩, ?_⟩
  · change retained ≤ t.activeLocations.length
    rw [h.length]
    exact h.retained_le.trans hs.list.count_le
  · change (t.activeLocations.take retained).Nodup
    rw [hactive]
    exact hs.list.nodup.filter _
  · intro l
    change t.activeLocationFlags l = true ↔ l ∈ t.activeLocations.take retained
    rw [hactive, h.flags l, hs.list.flags l, List.mem_filter]
    exact and_congr_right fun hl => ⟨fun hremains => hremains hl, fun hremains _ => hremains⟩
  · intro l hl
    change l ∈ t.activeLocations.take retained at hl
    rw [hactive] at hl
    exact hs.list.allocatable l (List.mem_filter.mp hl).1
  · change t.toStorage.Consistent b (t.activeLocations.take retained)
    rw [hactive, h.storage_eq hs]
    exact hs.storage.releaseEvery

/-- `EndOfAllocScope` returns, and has done what releasing every location would do; the active
list is left with the locations that hold a value. -/
theorem endOfAllocScope_eq (hs : Indexed b s) :
    ∃ t, endOfAllocScope s = .ok () t ∧ Indexed b t ∧
      t.toStorage = s.toStorage.releaseEvery ∧ t.active = s.active.filter (remains s) := by
  have hwp : wp endOfAllocScope (fun _ t => Indexed b t ∧
      t.toStorage = s.toStorage.releaseEvery ∧ t.active = s.active.filter (remains s))
      (fun _ _ => False) s := by
    simp only [endOfAllocScope, Lib.wp_bind, Lib.wp_get]
    refine Lib.wp_mono (wp_releaseFrom hs.list (Nat.zero_add _) released_zero) fun k t ht => ?_
    have hst := ht.storage_eq hs
    exact ⟨ht.indexed hs, hst, ht.behind⟩
  obtain ⟨_, t, hrun, ht⟩ := Lib.exists_ok_of_wp hwp
  exact ⟨t, hrun, ht⟩

end EndOfScope

/-! ### The end of a block -/

section EndOfBlock

theorem active_eq_nil_iff (hs : ActiveList s) : s.active = [] ↔ s.activeLocationCount = 0 := by
  have := hs.count_le
  rw [active, ← List.length_eq_zero_iff, List.length_take, Nat.min_eq_left this]

theorem assertNoMoreUses_eq_ok_iff :
    assertNoMoreUses s = .ok () s ↔ s.activeLocationCount = 0 := by
  constructor
  · intro hok
    have hwp : wp assertNoMoreUses (fun _ _ => s.activeLocationCount = 0) (fun _ _ => True) s := by
      simp [assertNoMoreUses]
    have hzero := Lib.wp_ok hwp hok
    exact hzero
  · intro hzero
    have hwp : wp assertNoMoreUses (fun _ t => t = s) (fun _ _ => False) s := by
      simp [assertNoMoreUses, hzero]
    obtain ⟨_, t, hrun, rfl⟩ := Lib.exists_ok_of_wp hwp
    exact hrun

theorem clean_of_active_eq_nil (hs : Indexed b s) (h : s.active = []) : s.toStorage.Clean :=
  fun loc => hs.storage.inactive loc (by simp [h])

theorem wp_clear {locs : List HostLoc} (hlocs : ∀ loc ∈ locs, loc.Allocatable) :
    wp (locs.forM fun loc => update loc fun _ => some {})
      (fun _ t => ∀ l, t.hostlocInfo l = if l ∈ locs then {} else s.hostlocInfo l)
      (fun _ _ => False) s := by
  induction locs generalizing s with
  | nil => simp
  | cons loc locs ih =>
      refine Lib.wp_bind.mpr ((wp_update_some (hlocs loc (by simp))).mpr ?_)
      refine Lib.wp_mono (ih fun l hl => hlocs l (by simp [hl])) fun _ t ht l => ?_
      rw [ht l, Storage.hostlocInfo_setInfo]
      split_ifs <;> simp_all

/-- The destructor leaves a clean storage, whatever the block's emission came to. -/
theorem destroy_clean (hs : Indexed b s) : ∃ t, destroy s = .ok () t ∧ t.toStorage.Clean := by
  have hwp : wp destroy (fun _ t => t.toStorage.Clean) (fun _ _ => False) s := by
    refine Lib.wp_bind.mpr (Lib.wp_get.mpr ?_)
    refine Lib.wp_mono (wp_clear hs.list.allocatable) fun _ t ht l => ?_
    rw [ht l]
    split
    · rfl
    · rename_i hl
      exact hs.storage.inactive l hl
  obtain ⟨_, t, hrun, ht⟩ := Lib.exists_ok_of_wp hwp
  exact ⟨t, hrun, ht⟩

theorem construct_indexed {st : Storage Inst} (hst : st.Clean) (n : ℕ) :
    Indexed b (construct b st n) := by
  refine ⟨⟨Nat.zero_le _, List.nodup_nil, fun l => ?_, fun l hl => ?_⟩, ⟨fun l _ => hst l,
    fun l v hv => ?_, fun v l l' hl _ => ?_, fun l _ v hv => ?_, fun i l hl => ?_, fun l => ?_⟩⟩
  · simp [construct, active]
  · simp [construct, active] at hl
  · simp [construct, hst l] at hv
  · simp [construct, hst l] at hl
  · simp [construct, hst l] at hv
  · simp [construct, List.getElem?_replicate] at hl
  · simp [construct, hst l, HostLocInfo.Settled]

end EndOfBlock

/-! ### Runs of the emitter -/

section Runs

variable [DecidableEq Inst] {p : Platform}

structure RefinesScan (b : Block Inst) (s : RegAlloc Inst) : Prop where
  /-- The table gives the location a scan finds. -/
  valueLocation_eq : ∀ v, valueLocation b v s = .ok (scan s.toStorage v) s
  unique : ∀ v l l', v ∈ (s.hostlocInfo l).values → v ∈ (s.hostlocInfo l').values → l = l'
  /-- What holds a value or a lock is in the active list once. -/
  count_active : ∀ l, ¬ (s.hostlocInfo l).isEmpty → s.active.count l = 1
  /-- The end of a scope releases every location, and after it the check for uses sees them
  all. -/
  endOfAllocScope : ∃ t, endOfAllocScope s = .ok () t ∧
    t.toStorage = s.toStorage.releaseEvery ∧
    (assertNoMoreUses t = .ok () t ↔ t.toStorage.AllEmpty)
  allEmpty_of_assert : assertNoMoreUses s = .ok () s → s.toStorage.AllEmpty
  destroy : ∃ t, destroy s = .ok () t ∧ t.toStorage.Clean

theorem Indexed.refinesScan (hs : Indexed b s) : RefinesScan b s where
  valueLocation_eq v := valueLocation_eq_scan hs
  unique := hs.storage.unique
  count_active l hl := List.count_eq_one_of_mem hs.list.nodup (hs.storage.mem_active hl)
  endOfAllocScope := by
    obtain ⟨t, hrun, ht, hst, hactive⟩ := endOfAllocScope_eq hs
    refine ⟨t, hrun, hst, ?_⟩
    rw [assertNoMoreUses_eq_ok_iff, ← active_eq_nil_iff ht.list]
    refine ⟨fun hnil => (clean_of_active_eq_nil ht hnil).allEmpty, fun hempty => ?_⟩
    -- a location that remained would hold a value
    rw [hactive, List.filter_eq_nil_iff]
    intro l _
    have hl := hempty l
    rw [hst] at hl
    change (s.hostlocInfo l).releaseAll.isEmpty = true at hl
    simp [remains, hl]
  allEmpty_of_assert hpass := by
    rw [assertNoMoreUses_eq_ok_iff, ← active_eq_nil_iff hs.list] at hpass
    exact (clean_of_active_eq_nil hs hpass).allEmpty
  destroy := destroy_clean hs

def InBlock : Emitter Inst → Action Inst → Prop
  | .emitting b _, .call call => ∀ v ∈ call.defines, v ∈ b.insts
  | _, _ => True

def ReleasesLocked : Emitter Inst → Action Inst → Prop
  | .emitting _ s, .call call =>
      ∀ reg ∈ call.releases, (s.hostlocInfo reg.hostLoc).isLocked = true
  | _, _ => True

/-- Every call keeps the invariant, also where it throws. -/
theorem wp_exec {call : Call Inst} (hs : Indexed b s) (hdef : ∀ v ∈ call.defines, v ∈ b.insts)
    (hrelease : ∀ reg ∈ call.releases, (s.hostlocInfo reg.hostLoc).isLocked = true) :
    wp (call.exec p b) (fun _ => Indexed b) (Unwound b) s := by
  cases call with
  | getArgumentInfo inst => exact Lib.wp_discard.mpr (wp_getArgumentInfo hs)
  | registerPseudoOperation inst => exact wp_registerPseudoOperation hs
  | isValueLive inst =>
      exact Lib.wp_discard.mpr (Lib.wp_bind.mpr ((wp_valueLocation hs).mpr hs))
  | useGpr arg => exact Lib.wp_discard.mpr (wp_bind_toReg (wp_useImpl hs)).1
  | useXmm arg => exact Lib.wp_discard.mpr (wp_bind_toReg (wp_useImpl hs)).2
  | use arg loc => exact Lib.wp_bind.mpr (wp_useImpl hs)
  | useScratchGpr arg => exact Lib.wp_discard.mpr (wp_bind_toReg (wp_useScratchImpl hs)).1
  | useScratchXmm arg => exact Lib.wp_discard.mpr (wp_bind_toReg (wp_useScratchImpl hs)).2
  | useScratch arg loc => exact Lib.wp_bind.mpr (wp_useScratchImpl hs)
  | defineValue inst reg => exact wp_defineValueImpl hs (hdef inst (by simp [Call.defines]))
  | defineValueAs inst arg => exact wp_defineValueImplAs hs (hdef inst (by simp [Call.defines]))
  | release reg => exact wp_release hs (hrelease reg (by simp [Call.releases]))
  | scratchGpr => exact Lib.wp_discard.mpr (wp_bind_toReg (wp_scratchImpl hs)).1
  | scratchGprAt loc => exact Lib.wp_discard.mpr (wp_bind_toReg (wp_scratchImpl hs)).1
  | scratchXmm => exact Lib.wp_discard.mpr (wp_bind_toReg (wp_scratchImpl hs)).2
  | scratchXmmAt loc => exact Lib.wp_discard.mpr (wp_bind_toReg (wp_scratchImpl hs)).2
  | hostCall resultDef args =>
      exact wp_hostCall hs fun v hv => hdef v (by simpa [Call.defines] using hv)
  | allocStackSpace stackSpace => exact (wp_stackSpace hs).1
  | releaseStackSpace stackSpace => exact (wp_stackSpace hs).2
  | endOfAllocScope =>
      obtain ⟨t, hrun, ht, -⟩ := endOfAllocScope_eq hs
      change wp RegAlloc.endOfAllocScope _ _ s
      rw [wp, hrun]
      exact ht
  | assertNoMoreUses =>
      exact Lib.wp_bind.mpr (wp_assert.mpr ⟨fun _ => hs, fun _ => unwound_terminated⟩)

/-- Between two blocks the storage is clean, within one the invariant holds. -/
def Sound : Emitter Inst → Prop
  | .idle st => st.Clean
  | .emitting b s => Indexed b s

omit [DecidableEq Inst] in
theorem destroyed_sound {e : Emitter Inst} (hs : Indexed b s) (he : destroyed s = some e) :
    Sound e := by
  obtain ⟨t, hrun, ht⟩ := destroy_clean hs
  rw [destroyed, hrun] at he
  obtain rfl := Option.some.inj he
  exact ht

theorem Sound.step {e e' : Emitter Inst} {action : Action Inst} (he : Sound e)
    (hblock : InBlock e action) (hrelease : ReleasesLocked e action)
    (hstep : step p e action = some e') : Sound e' := by
  cases e with
  | idle st =>
      cases action with
      | construct b n =>
          obtain rfl := Option.some.inj hstep
          exact construct_indexed he n
      | call call => cases hstep
      | destroy => cases hstep
  | emitting b s =>
      cases action with
      | construct b n => cases hstep
      | call call =>
          have hwp := wp_exec (p := p) he hblock hrelease
          simp only [RegAlloc.step] at hstep
          split at hstep
          · rename_i hrun
            obtain rfl := Option.some.inj hstep
            have hkept := Lib.wp_ok hwp hrun
            exact hkept
          · rename_i hrun
            exact destroyed_sound (Lib.wp_error hwp hrun rfl) hstep
          · cases hstep
      | destroy => exact destroyed_sound he hstep

def Storage.fresh : Storage Inst := ⟨fun _ => {}, []⟩

/-- The indices are in order: those of an allocator at work give what a scan over all locations
would, and a storage at rest is clean. -/
def InOrder : Emitter Inst → Prop
  | .idle st => st.Clean
  | .emitting b s => RefinesScan b s

/-- In every run in which only locked registers are released, over any number of blocks and
through exceptions, the indices are in order. -/
theorem index_refines_scan {e : Emitter Inst}
    (hreach : Lib.Reaches (step p) (fun e a => InBlock e a ∧ ReleasesLocked e a)
      (.idle Storage.fresh) e) : InOrder e := by
  have hsound : Sound e :=
    hreach.invariant (fun _ => rfl) fun _ _ _ he hok hstep => he.step hok.1 hok.2 hstep
  cases e with
  | idle st => exact hsound
  | emitting b s => exact Indexed.refinesScan hsound

instance decidableInBlock : (e : Emitter Inst) → (a : Action Inst) → Decidable (InBlock e a)
  | .emitting b _, .call call => inferInstanceAs (Decidable (∀ v ∈ call.defines, v ∈ b.insts))
  | .emitting _ _, .construct _ _ => isTrue trivial
  | .emitting _ _, .destroy => isTrue trivial
  | .idle _, _ => isTrue trivial

instance decidableReleasesLocked :
    (e : Emitter Inst) → (a : Action Inst) → Decidable (ReleasesLocked e a)
  | .emitting _ s, .call call =>
      inferInstanceAs (Decidable (∀ reg ∈ call.releases, (s.hostlocInfo reg.hostLoc).isLocked))
  | .emitting _ _, .construct _ _ => isTrue trivial
  | .emitting _ _, .destroy => isTrue trivial
  | .idle _, _ => isTrue trivial

end Runs

/-! ### Runs in which a register is released -/

section Release

def twoInstructions : Block ℕ where
  insts := [0, 1]
  name := id
  instructionCount := 2
  type _ := .u32
  useCount v := if v = 0 then 1 else 0
  args v := if v = 0 then [] else [.inst 0]
  name_lt := by decide
  name_injective := by simp

/-- The two instructions are emitted, and the allocator is at work on the next block. -/
def emitTwo : List (Action ℕ) :=
  [.construct twoInstructions 10, .call (.scratchGprAt .rax), .call (.defineValue 0 (.reg 0)),
    .call .endOfAllocScope, .call (.getArgumentInfo 1), .call (.useScratchGpr (.inst 0)),
    .call (.release (.reg 0)), .call .endOfAllocScope, .call .assertNoMoreUses, .destroy,
    .construct twoInstructions 10]

theorem index_refines_scan_emitTwo :
    ∃ e, Lib.run (step .systemV) (.idle Storage.fresh) emitTwo = some e ∧ InOrder e := by
  obtain ⟨e, he⟩ : ∃ e, Lib.run (step .systemV) (.idle Storage.fresh) emitTwo = some e := by
    rw [← Option.isSome_iff_exists]
    decide +kernel
  refine ⟨e, he, index_refines_scan (p := .systemV) (Lib.reaches_of_run he ?_)⟩
  decide +kernel

def endsInBlock (P : RegAlloc ℕ → Prop) [DecidablePred P] : Option (Emitter ℕ) → Bool
  | some (.emitting _ s) => P s
  | _ => false

theorem exists_of_endsInBlock {P : RegAlloc ℕ → Prop} [DecidablePred P]
    (actions : List (Action ℕ))
    (hfollows : Lib.Follows (step .systemV) InBlock (.idle Storage.fresh) actions)
    (hends : endsInBlock P (Lib.run (step .systemV) (.idle Storage.fresh) actions) = true) :
    ∃ b s, Lib.Reaches (step .systemV) InBlock (.idle Storage.fresh) (.emitting b s) ∧ P s := by
  cases hrun : Lib.run (step .systemV) (.idle Storage.fresh) actions with
  | none => simp [hrun, endsInBlock] at hends
  | some e =>
      cases e with
      | idle st => simp [hrun, endsInBlock] at hends
      | emitting b s =>
          refine ⟨b, s, Lib.reaches_of_run hrun hfollows, ?_⟩
          simpa [hrun, endsInBlock] using hends

/-- `Release` does not look at the lists.  A scratch register that is released within its scope
stays in the active list, so the check for uses fails though every location is empty; and a
register that is not locked is locked by its release, unknown to the active list, so that the check
passes and the destructor hands the lock on to the next block. -/
theorem release_escapes_active_list :
    (∃ b s, Lib.Reaches (step .systemV) InBlock (.idle (Storage.fresh : Storage ℕ))
        (.emitting b s) ∧ s.toStorage.AllEmpty ∧ assertNoMoreUses s ≠ .ok () s) ∧
      ∃ b s, Lib.Reaches (step .systemV) InBlock (.idle (Storage.fresh : Storage ℕ))
        (.emitting b s) ∧ (s.hostlocInfo .rax).isLocked = true ∧ HostLoc.rax ∉ s.active ∧
        assertNoMoreUses s = .ok () s ∧ ∃ t, destroy s = .ok () t ∧ ¬ t.toStorage.Clean := by
  constructor
  · obtain ⟨b, s, hreach, hempty, hcount⟩ := exists_of_endsInBlock
      (P := fun s => s.toStorage.AllEmpty ∧ s.activeLocationCount ≠ 0)
      [.construct twoInstructions 10, .call (.scratchGprAt .rax), .call (.release (.reg 0))]
      (by decide +kernel) (by decide +kernel)
    exact ⟨b, s, hreach, hempty, fun hpass => hcount (assertNoMoreUses_eq_ok_iff.mp hpass)⟩
  · obtain ⟨b, s, hreach, hlocked, hcount⟩ := exists_of_endsInBlock
      (P := fun s => (s.hostlocInfo .rax).isLocked = true ∧ s.activeLocationCount = 0)
      [.construct twoInstructions 10, .call (.release (.reg 0)), .call .endOfAllocScope]
      (by decide +kernel) (by decide +kernel)
    have hactive : s.active = [] := by simp [active, hcount]
    refine ⟨b, s, hreach, hlocked, by simp [hactive], assertNoMoreUses_eq_ok_iff.mpr hcount, s,
      ?_, fun hclean => ?_⟩
    · change (s.active.forM fun loc => update loc fun _ => some {}) s = _
      rw [hactive]
      rfl
    · rw [hclean] at hlocked
      cases hlocked

end Release

end Umbra.X64.RegAlloc
