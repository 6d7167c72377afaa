import Mathlib.Data.Set.Card
import Umbra.Interface.ExclusiveMonitor

/-!
The exclusive monitor with and without a resolver.

Without a resolver `CheckAndClear` scans the addresses and leaves the lists alone, so that they say
less and less.  Nothing that can be observed depends on them there; but their heads stay in the
table.
-/

namespace Umbra.ExclusiveMonitor

open Umbra.Lib

variable {n : ℕ} {m m₁ m₂ : ExclusiveMonitor n} {p : Fin n} {address : VAddr}

/-! ### What does not depend on the lists -/

@[simp] theorem readAndMark_exclusiveAddresses (m : ExclusiveMonitor n) (p : Fin n)
    (address : VAddr) (value : List Byte) : (m.readAndMark p address value).exclusiveAddresses =
      Function.update m.exclusiveAddresses p (m.maskedAddress p address) := by
  simp [readAndMark, addReservation]

@[simp] theorem readAndMark_exclusiveValues (m : ExclusiveMonitor n) (p : Fin n)
    (address : VAddr) (value : List Byte) : (m.readAndMark p address value).exclusiveValues =
      Function.update m.exclusiveValues p (storeValue (m.exclusiveValues p) value) := by
  simp [readAndMark, addReservation]

@[simp] theorem readAndMark_addressResolver (m : ExclusiveMonitor n) (p : Fin n)
    (address : VAddr) (value : List Byte) :
    (m.readAndMark p address value).addressResolver = m.addressResolver := by
  simp [readAndMark, addReservation]

@[simp] theorem clearProcessor_exclusiveAddresses (m : ExclusiveMonitor n) (p : Fin n) :
    (m.clearProcessor p).exclusiveAddresses =
      Function.update m.exclusiveAddresses p invalidExclusiveAddress := by
  simp [clearProcessor]

@[simp] theorem clearProcessor_exclusiveValues (m : ExclusiveMonitor n) (p : Fin n) :
    (m.clearProcessor p).exclusiveValues = m.exclusiveValues := by
  simp [clearProcessor]

@[simp] theorem clearProcessor_addressResolver (m : ExclusiveMonitor n) (p : Fin n) :
    (m.clearProcessor p).addressResolver = m.addressResolver := by
  simp [clearProcessor]

theorem maskedAddress_of_none (h : m.addressResolver = none) (p : Fin n) (address : VAddr) :
    m.maskedAddress p address = address := by
  rw [maskedAddress, resolveAddress, h]
  exact BitVec.and_allOnes

theorem checkAndClear_of_ne (h : m.exclusiveAddresses p ≠ m.maskedAddress p address) :
    m.checkAndClear p address = some (false, m) := if_pos h

/-- The check without a resolver, by a scan of the addresses. -/
theorem checkAndClear_of_none (h : m.addressResolver = none) (p : Fin n) (address : VAddr) :
    ∃ m', m.checkAndClear p address = some (decide (m.exclusiveAddresses p = address), m') ∧
      m'.addressResolver = none ∧ m'.exclusiveValues = m.exclusiveValues ∧
      ∀ q, m'.exclusiveAddresses q =
        if m.exclusiveAddresses p = address ∧ m.exclusiveAddresses q = address then
          invalidExclusiveAddress
        else m.exclusiveAddresses q := by
  by_cases hp : m.exclusiveAddresses p = address
  · refine ⟨{ m with
      exclusiveAddresses := fun other =>
        if m.exclusiveAddresses other = address then invalidExclusiveAddress
        else m.exclusiveAddresses other }, ?_, h, rfl, fun q => ?_⟩
    · simp [checkAndClear, maskedAddress_of_none h, hp, h]
    · simp [hp]
  · refine ⟨m, ?_, h, rfl, fun q => ?_⟩
    · simp [checkAndClear, maskedAddress_of_none h, hp]
    · simp [hp]

/-! ### What keeps the lists -/

theorem Indexed.readAndMark (h : m.Indexed m.exclusiveAddresses)
    (hkey : m.maskedAddress p address ≠ invalidExclusiveAddress) (value : List Byte) :
    (m.readAndMark p address value).Indexed (m.readAndMark p address value).exclusiveAddresses := by
  have hadded := (h.removeReservation p).addReservation (p := p) (Function.update_self _ _ _) hkey
  rw [Function.update_idem, ← readAndMark_exclusiveAddresses m p address value] at hadded
  exact hadded.congr rfl rfl

theorem Indexed.clearProcessor (h : m.Indexed m.exclusiveAddresses) (p : Fin n) :
    (m.clearProcessor p).Indexed (m.clearProcessor p).exclusiveAddresses := by
  rw [clearProcessor_exclusiveAddresses]
  exact (h.removeReservation p).congr rfl rfl

theorem Indexed.clear (m : ExclusiveMonitor n) : m.clear.Indexed m.clear.exclusiveAddresses :=
  (create_indexed m.addressResolver).congr rfl rfl

/-- With a resolver the check keeps the lists, also for the key that stands for none. -/
theorem Indexed.checkAndClear {resolver : Fin n → VAddr → VAddr}
    (h : m.Indexed m.exclusiveAddresses) (hresolver : m.addressResolver = some resolver)
    (p : Fin n) (address : VAddr) :
    ∃ passed m', m.checkAndClear p address = some (passed, m') ∧
      m'.Indexed m'.exclusiveAddresses ∧ m'.addressResolver = m.addressResolver := by
  by_cases hkey : m.maskedAddress p address = invalidExclusiveAddress
  swap
  · obtain ⟨m', hrun, hindexed, hkeep, -⟩ := checkAndClear_eq h hresolver hkey
    exact ⟨_, m', hrun, hindexed, hkeep⟩
  -- No list is filed under this key, so the addresses are scanned, and stay as they are.
  obtain ⟨chain, -, -, hhead, hmem⟩ := h invalidExclusiveAddress
  have hchain : chain = [] := List.eq_nil_iff_forall_not_mem.mpr fun q hq => ((hmem q).mp hq).2 rfl
  have hnone : m.reservationHeads invalidExclusiveAddress = none := by rw [hhead, hchain]; rfl
  by_cases hp : m.exclusiveAddresses p = invalidExclusiveAddress
  · refine ⟨true, m, ?_, h, rfl⟩
    have hsame : (fun other => if m.exclusiveAddresses other = invalidExclusiveAddress then
        invalidExclusiveAddress else m.exclusiveAddresses other) = m.exclusiveAddresses := by
      funext q
      split
      · rename_i hq
        exact hq.symm
      · rfl
    have hsome : m.addressResolver.isSome = true := by rw [hresolver]; rfl
    simp only [ExclusiveMonitor.checkAndClear, hkey, hp, ne_eq, not_true_eq_false, if_false,
      hsome, if_true, hnone, hsame]
  · refine ⟨false, m, ?_, h, rfl⟩
    simp [ExclusiveMonitor.checkAndClear, hkey, hp]

/-! ### The two modes -/

/-- The addresses that a request is about are not the one that stands for none. -/
def Action.Valid : Action n → Prop
  | .readAndMark _ address _ => address ≠ invalidExclusiveAddress
  | .doExclusiveOperation _ address _ => address ≠ invalidExclusiveAddress
  | .clear => True
  | .clearProcessor _ => True

/-- A monitor without a resolver and one with the identity that look the same from outside. -/
structure Alike (m₁ m₂ : ExclusiveMonitor n) : Prop where
  none : m₁.addressResolver = none
  identity : m₂.addressResolver = some fun _ address => address
  addresses : m₁.exclusiveAddresses = m₂.exclusiveAddresses
  values : m₁.exclusiveValues = m₂.exclusiveValues
  indexed : m₂.Indexed m₂.exclusiveAddresses

theorem alike_create (n : ℕ) : Alike (create n none) (create n (some fun _ address => address)) :=
  ⟨rfl, rfl, rfl, rfl, create_indexed _⟩

namespace Alike

theorem masked (h : Alike m₁ m₂) (p : Fin n) (address : VAddr) :
    m₁.maskedAddress p address = address ∧ m₂.maskedAddress p address = address :=
  ⟨maskedAddress_of_none h.none p address, maskedAddress_eq h.identity p address⟩

theorem readAndMark (h : Alike m₁ m₂) (hvalid : address ≠ invalidExclusiveAddress) (p : Fin n)
    (value : List Byte) :
    Alike (m₁.readAndMark p address value) (m₂.readAndMark p address value) := by
  obtain ⟨h₁, h₂⟩ := h.masked p address
  refine ⟨?_, ?_, ?_, ?_, h.indexed.readAndMark (by rwa [h₂]) value⟩
  · rw [readAndMark_addressResolver, h.none]
  · rw [readAndMark_addressResolver, h.identity]
  · rw [readAndMark_exclusiveAddresses, readAndMark_exclusiveAddresses, h₁, h₂, h.addresses]
  · rw [readAndMark_exclusiveValues, readAndMark_exclusiveValues, h.values]

theorem doExclusiveOperation (h : Alike m₁ m₂) (hvalid : address ≠ invalidExclusiveAddress)
    (p : Fin n) (size : ℕ) : ∃ received m₁' m₂',
      m₁.doExclusiveOperation p address size = some (received, m₁') ∧
      m₂.doExclusiveOperation p address size = some (received, m₂') ∧ Alike m₁' m₂' := by
  have h₂ := (h.masked p address).2
  have hvalid₂ : m₂.maskedAddress p address ≠ invalidExclusiveAddress := by rwa [h₂]
  obtain ⟨m₁', hrun₁, hnone, hvalues₁, haddresses₁⟩ := checkAndClear_of_none h.none p address
  obtain ⟨m₂', hrun₂, hindexed, hidentity, hvalues₂, haddresses₂⟩ :=
    checkAndClear_eq h.indexed h.identity hvalid₂
  rw [h₂] at hrun₂ haddresses₂
  have hvalues : m₁'.exclusiveValues = m₂'.exclusiveValues := by
    rw [hvalues₁, hvalues₂, h.values]
  refine ⟨_, m₁', m₂', by rw [ExclusiveMonitor.doExclusiveOperation, hrun₁]; rfl, ?_,
    hnone, hidentity.trans h.identity, funext fun q => ?_, hvalues, hindexed⟩
  · rw [ExclusiveMonitor.doExclusiveOperation, hrun₂, ← h.addresses, hvalues]
    rfl
  · rw [haddresses₁, haddresses₂, h.addresses]

theorem clear (h : Alike m₁ m₂) : Alike m₁.clear m₂.clear :=
  ⟨h.none, h.identity, rfl, h.values, Indexed.clear m₂⟩

theorem clearProcessor (h : Alike m₁ m₂) (p : Fin n) :
    Alike (m₁.clearProcessor p) (m₂.clearProcessor p) := by
  refine ⟨?_, ?_, ?_, ?_, h.indexed.clearProcessor p⟩
  · rw [clearProcessor_addressResolver, h.none]
  · rw [clearProcessor_addressResolver, h.identity]
  · rw [clearProcessor_exclusiveAddresses, clearProcessor_exclusiveAddresses, h.addresses]
  · rw [clearProcessor_exclusiveValues, clearProcessor_exclusiveValues, h.values]

theorem step {s₁ s₂ : Recorded n} (h : Alike s₁.monitor s₂.monitor)
    (hhistory : s₁.history = s₂.history) {action : Action n} (hvalid : action.Valid) :
    ∃ t₁ t₂, ExclusiveMonitor.step s₁ action = some t₁ ∧
      ExclusiveMonitor.step s₂ action = some t₂ ∧
      Alike t₁.monitor t₂.monitor ∧ t₁.history = t₂.history := by
  cases action with
  | readAndMark p address value =>
      exact ⟨_, _, rfl, rfl, h.readAndMark hvalid p value, congrArg (List.cons _) hhistory⟩
  | doExclusiveOperation p address size =>
      obtain ⟨received, m₁', m₂', hrun₁, hrun₂, h'⟩ := h.doExclusiveOperation hvalid p size
      refine ⟨⟨m₁', .doExclusiveOperation p address received :: s₁.history⟩,
        ⟨m₂', .doExclusiveOperation p address received :: s₂.history⟩, ?_, ?_, h',
        congrArg (List.cons _) hhistory⟩
      · rw [ExclusiveMonitor.step, hrun₁]
        rfl
      · rw [ExclusiveMonitor.step, hrun₂]
        rfl
  | clear => exact ⟨_, _, rfl, rfl, h.clear, congrArg (List.cons _) hhistory⟩
  | clearProcessor p => exact ⟨_, _, rfl, rfl, h.clearProcessor p, congrArg (List.cons _) hhistory⟩

theorem run {s₁ s₂ : Recorded n} (h : Alike s₁.monitor s₂.monitor)
    (hhistory : s₁.history = s₂.history) (actions : List (Action n))
    (hvalid : ∀ action ∈ actions, action.Valid) :
    ∃ t₁ t₂, Lib.run ExclusiveMonitor.step s₁ actions = some t₁ ∧
      Lib.run ExclusiveMonitor.step s₂ actions = some t₂ ∧
      Alike t₁.monitor t₂.monitor ∧ t₁.history = t₂.history := by
  induction actions generalizing s₁ s₂ with
  | nil => exact ⟨s₁, s₂, rfl, rfl, h, hhistory⟩
  | cons action rest ih =>
      obtain ⟨t₁, t₂, hstep₁, hstep₂, h', hhistory'⟩ :=
        h.step hhistory (hvalid action List.mem_cons_self)
      obtain ⟨u₁, u₂, hrun₁, hrun₂, hu⟩ := ih h' hhistory'
        fun action haction => hvalid action (List.mem_cons_of_mem _ haction)
      refine ⟨u₁, u₂, ?_, ?_, hu⟩
      · rw [Lib.run, hstep₁]
        exact hrun₁
      · rw [Lib.run, hstep₂]
        exact hrun₂

end Alike

/-- After every sequence of requests the two monitors have given the same answers and hold the same
addresses. -/
theorem modes_agree (n : ℕ) (actions : List (Action n))
    (hvalid : ∀ action ∈ actions, action.Valid) :
    ∃ s₁ s₂, run step ⟨create n none, []⟩ actions = some s₁ ∧
      run step ⟨create n (some fun _ address => address), []⟩ actions = some s₂ ∧
      s₁.history = s₂.history ∧
      s₁.monitor.exclusiveAddresses = s₂.monitor.exclusiveAddresses := by
  have hstart : Alike (⟨create n none, []⟩ : Recorded n).monitor
      (⟨create n (some fun _ address => address), []⟩ : Recorded n).monitor := alike_create n
  obtain ⟨s₁, s₂, hrun₁, hrun₂, h, hhistory⟩ := hstart.run rfl actions hvalid
  exact ⟨s₁, s₂, hrun₁, hrun₂, hhistory, h.addresses⟩

/-- Two reservations of one address, of which the first store ends both. -/
theorem modes_agree_two :
    ∃ s₁ s₂, run step ⟨create 2 none, []⟩
        [.readAndMark 0 0x1000#64 [1], .readAndMark 1 0x1000#64 [1],
          .doExclusiveOperation 0 0x1000#64 1, .doExclusiveOperation 1 0x1000#64 1] = some s₁ ∧
      run step ⟨create 2 (some fun _ address => address), []⟩
        [.readAndMark 0 0x1000#64 [1], .readAndMark 1 0x1000#64 [1],
          .doExclusiveOperation 0 0x1000#64 1, .doExclusiveOperation 1 0x1000#64 1] = some s₂ ∧
      s₁.history = s₂.history ∧
      s₁.monitor.exclusiveAddresses = s₂.monitor.exclusiveAddresses := by
  refine modes_agree 2 _ ?_
  simp [Action.Valid, invalidExclusiveAddress]

/-! ### The size of the table -/

def heads (m : ExclusiveMonitor n) : Set VAddr := {key | (m.reservationHeads key).isSome}

/-- The head of a list holds its key, so there are no more keys than processors. -/
theorem Indexed.encard_heads_le (h : m.Indexed m.exclusiveAddresses) : m.heads.encard ≤ n := by
  have hhead {key : VAddr} {q : Fin n} (hq : m.reservationHeads key = some q) :
      m.exclusiveAddresses q = key := by
    obtain ⟨chain, -, -, hhead, hmem⟩ := h key
    rw [hhead] at hq
    exact ((hmem q).mp (List.mem_of_head? hq)).1
  have hsubset : m.heads ⊆ Set.range m.exclusiveAddresses := by
    intro key hkey
    obtain ⟨q, hq⟩ := Option.isSome_iff_exists.mp hkey
    exact ⟨q, hhead hq⟩
  calc m.heads.encard ≤ (Set.range m.exclusiveAddresses).encard := Set.encard_le_encard hsubset
    _ = (m.exclusiveAddresses '' Set.univ).encard := by rw [Set.image_univ]
    _ ≤ (Set.univ : Set (Fin n)).encard := Set.encard_image_le _ _
    _ = n := by simp

/-- What `ReadAndMark` marks is not the address that stands for none, and an exclusive operation
without a resolver finds no reservation. -/
def Bounded (s : Recorded n) : Action n → Prop
  | .readAndMark p address _ => s.monitor.maskedAddress p address ≠ invalidExclusiveAddress
  | .doExclusiveOperation p address _ =>
      s.monitor.addressResolver.isSome ∨ s.monitor.exclusiveAddresses p ≠ address
  | .clear => True
  | .clearProcessor _ => True

theorem Indexed.step {s t : Recorded n} {action : Action n}
    (h : s.monitor.Indexed s.monitor.exclusiveAddresses) (hok : Bounded s action)
    (hstep : ExclusiveMonitor.step s action = some t) :
    t.monitor.Indexed t.monitor.exclusiveAddresses := by
  cases action with
  | readAndMark p address value =>
      obtain rfl := Option.some.inj hstep
      exact h.readAndMark hok value
  | doExclusiveOperation p address size =>
      obtain ⟨⟨received, m'⟩, hrun, rfl⟩ := Option.map_eq_some_iff.mp hstep
      obtain ⟨⟨passed, m''⟩, hcheck, hresult⟩ := Option.map_eq_some_iff.mp hrun
      obtain rfl : m'' = m' := congrArg Prod.snd hresult
      cases hresolver : s.monitor.addressResolver with
      | none =>
          have hp : s.monitor.exclusiveAddresses p ≠ address := by
            simpa [hresolver, Bounded] using hok
          rw [checkAndClear_of_ne (by rwa [maskedAddress_of_none hresolver])] at hcheck
          obtain ⟨-, rfl⟩ := Prod.mk.inj (Option.some.inj hcheck)
          exact h
      | some resolver =>
          obtain ⟨passed', m₃, hcheck', hindexed, -⟩ := h.checkAndClear hresolver p address
          rw [hcheck] at hcheck'
          obtain ⟨-, rfl⟩ := Prod.mk.inj (Option.some.inj hcheck')
          exact hindexed
  | clear =>
      obtain rfl := Option.some.inj hstep
      exact Indexed.clear s.monitor
  | clearProcessor p =>
      obtain rfl := Option.some.inj hstep
      exact h.clearProcessor p

/-- In every run whose requests are of this kind there are no more heads than processors. -/
theorem heads_bounded {n : ℕ} {resolver : Option (Fin n → VAddr → VAddr)} {s : Recorded n}
    (h : Reaches step Bounded ⟨create n resolver, []⟩ s) : s.monitor.heads.encard ≤ n := by
  refine Indexed.encard_heads_le (h.invariant
    (I := fun s => s.monitor.Indexed s.monitor.exclusiveAddresses) (create_indexed resolver) ?_)
  exact fun s action t hs hok hstep => Indexed.step hs hok hstep

/-- A reservation that its processor moves, with the identity as a resolver. -/
theorem heads_bounded_moved :
    ∃ s : Recorded 1, Reaches step Bounded ⟨create 1 (some fun _ address => address), []⟩ s ∧
      s.monitor.reservationHeads 0x2000#64 = some 0 ∧ s.monitor.heads.encard ≤ 1 := by
  have h : Reaches step Bounded ⟨create 1 (some fun _ address => address), []⟩ _ :=
    .tail (.tail (.tail .refl
      ⟨.readAndMark 0 0x1000#64 [], by unfold Bounded; decide, rfl⟩)
      ⟨.doExclusiveOperation 0 0x1000#64 0, .inl rfl, rfl⟩)
      ⟨.readAndMark 0 0x2000#64 [], by unfold Bounded; decide, rfl⟩
  exact ⟨_, h, by decide, heads_bounded h⟩

/-- One processor: an exclusive operation without a resolver leaves the head behind. -/
theorem heads_leak :
    ∃ s : Recorded 1, run step ⟨create 1 none, []⟩
        [.readAndMark 0 0x1000#64 [], .doExclusiveOperation 0 0x1000#64 0,
          .readAndMark 0 0x2000#64 []] = some s ∧ ¬s.monitor.heads.encard ≤ 1 := by
  refine ⟨_, rfl, ?_⟩
  rw [Set.encard_le_one_iff]
  intro h
  exact absurd (h 0x1000#64 0x2000#64 rfl rfl) (by decide)

end Umbra.ExclusiveMonitor
