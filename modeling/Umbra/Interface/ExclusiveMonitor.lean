import Mathlib.Data.Fintype.Card
import Umbra.Lib.LinkedList
import Umbra.Lib.Run

/-!
The global exclusive monitor.

Every processor holds at most one reservation: the key its last exclusive load
resolved to, with the bytes it read.  The processors that hold the same key are
threaded on a doubly linked list whose head is filed under the key, so that a
successful exclusive store can clear them all without looking at the others.
Each operation holds the monitor's lock, so the functions below are the atomic
steps of the component.
-/

namespace Umbra

open Umbra.Lib

abbrev VAddr := BitVec 64

abbrev Byte := BitVec 8

namespace ExclusiveMonitor

def invalidExclusiveAddress : VAddr := 0xDEADDEADDEADDEAD#64

def reservationGranuleMask : VAddr := 0xFFFFFFFFFFFFFFFF#64

end ExclusiveMonitor

/-- The monitor for `n` processors.  `INVALID_PROCESSOR_ID` is `none`. -/
structure ExclusiveMonitor (n : ℕ) where
  addressResolver : Option (Fin n → VAddr → VAddr)
  exclusiveAddresses : Fin n → VAddr
  exclusiveValues : Fin n → List Byte
  reservations : Links (Fin n)
  reservationHeads : VAddr → Option (Fin n)

namespace ExclusiveMonitor

variable {n : ℕ}

def create (n : ℕ) (resolver : Option (Fin n → VAddr → VAddr)) : ExclusiveMonitor n where
  addressResolver := resolver
  exclusiveAddresses := fun _ => invalidExclusiveAddress
  exclusiveValues := fun _ => List.replicate 16 0
  reservations := ⟨fun _ => none, fun _ => none⟩
  reservationHeads := fun _ => none

def resolveAddress (m : ExclusiveMonitor n) (processor : Fin n) (address : VAddr) : VAddr :=
  match m.addressResolver with
  | none => address
  | some resolver => resolver processor address

def maskedAddress (m : ExclusiveMonitor n) (processor : Fin n) (address : VAddr) : VAddr :=
  m.resolveAddress processor address &&& reservationGranuleMask

def addReservation (m : ExclusiveMonitor n) (processor : Fin n) (address : VAddr) :
    ExclusiveMonitor n :=
  { m with
    reservations := m.reservations.pushFront processor (m.reservationHeads address)
    reservationHeads := Function.update m.reservationHeads address (some processor) }

def removeReservation (m : ExclusiveMonitor n) (processor : Fin n) : ExclusiveMonitor n :=
  let address := m.exclusiveAddresses processor
  if address = invalidExclusiveAddress then m
  else
    { m with
      reservations := m.reservations.unlink processor
      reservationHeads :=
        if m.reservations.prev processor = none ∧ (m.reservationHeads address).isSome then
          Function.update m.reservationHeads address (m.reservations.next processor)
        else m.reservationHeads }

def storeValue (buffer value : List Byte) : List Byte := value ++ buffer.drop value.length

/-- `ReadAndMark`, given the bytes its operation reads. -/
def readAndMark (m : ExclusiveMonitor n) (processor : Fin n) (address : VAddr)
    (value : List Byte) : ExclusiveMonitor n :=
  let key := m.maskedAddress processor address
  let m := m.removeReservation processor
  let m := { m with exclusiveAddresses := Function.update m.exclusiveAddresses processor key }
  let m := m.addReservation processor key
  { m with
    exclusiveValues := Function.update m.exclusiveValues processor
      (storeValue (m.exclusiveValues processor) value) }

def clearReservation (m : ExclusiveMonitor n) (current : Fin n) : ExclusiveMonitor n :=
  { m with
    exclusiveAddresses := Function.update m.exclusiveAddresses current invalidExclusiveAddress
    reservations := (m.reservations.setPrev current none).setNext current none }

def clearReservations (m : ExclusiveMonitor n) : ℕ → Option (Fin n) → Option (ExclusiveMonitor n)
  | _, none => some m
  | 0, some _ => none
  | turns + 1, some current =>
      (m.clearReservation current).clearReservations turns (m.reservations.next current)

/-- `CheckAndClear`: whether the check passes, and the monitor afterwards.  The answer is
`none` when the loop over the list does not come to its end within one turn for each
processor. -/
def checkAndClear (m : ExclusiveMonitor n) (processor : Fin n) (address : VAddr) :
    Option (Bool × ExclusiveMonitor n) :=
  let key := m.maskedAddress processor address
  if m.exclusiveAddresses processor ≠ key then some (false, m)
  else
    match if m.addressResolver.isSome then m.reservationHeads key else none with
    | none =>
        some (true, { m with
          exclusiveAddresses := fun other =>
            if m.exclusiveAddresses other = key then invalidExclusiveAddress
            else m.exclusiveAddresses other })
    | some head =>
        (m.clearReservations n (some head)).map fun m =>
          (true, { m with reservationHeads := Function.update m.reservationHeads key none })

/-- `DoExclusiveOperation` on a value of `size` bytes: what the operation receives, `none`
when it does not run. -/
def doExclusiveOperation (m : ExclusiveMonitor n) (processor : Fin n) (address : VAddr)
    (size : ℕ) : Option (Option (List Byte) × ExclusiveMonitor n) :=
  (m.checkAndClear processor address).map fun (passed, m) =>
    (if passed then some ((m.exclusiveValues processor).take size) else none, m)

def clear (m : ExclusiveMonitor n) : ExclusiveMonitor n :=
  { m with
    exclusiveAddresses := fun _ => invalidExclusiveAddress
    reservations := ⟨fun _ => none, fun _ => none⟩
    reservationHeads := fun _ => none }

def clearProcessor (m : ExclusiveMonitor n) (processor : Fin n) : ExclusiveMonitor n :=
  let m := m.removeReservation processor
  { m with
    exclusiveAddresses := Function.update m.exclusiveAddresses processor invalidExclusiveAddress }

/-! ### The index of reservations -/

/-- For every key, the list filed under it holds exactly the processors that the given
addresses assign to the key, each once. -/
def Indexed (m : ExclusiveMonitor n) (addresses : Fin n → VAddr) : Prop :=
  ∀ key, ∃ chain : List (Fin n), chain.Nodup ∧ m.reservations.Linked chain ∧
    m.reservationHeads key = chain.head? ∧
    ∀ p, p ∈ chain ↔ addresses p = key ∧ key ≠ invalidExclusiveAddress

variable {m m' : ExclusiveMonitor n} {addresses : Fin n → VAddr} {p : Fin n} {key : VAddr}

theorem Indexed.congr (h : m.Indexed addresses) (hlinks : m'.reservations = m.reservations)
    (hheads : m'.reservationHeads = m.reservationHeads) : m'.Indexed addresses := by
  intro key
  obtain ⟨chain, hchain⟩ := h key
  exact ⟨chain, by rwa [hlinks, hheads]⟩

theorem create_indexed (resolver : Option (Fin n → VAddr → VAddr)) :
    (create n resolver).Indexed fun _ => invalidExclusiveAddress := by
  intro key
  refine ⟨[], List.nodup_nil, Links.linked_nil _, rfl, fun p => ?_⟩
  simp only [List.not_mem_nil, false_iff, not_and]
  exact fun heq hne => hne heq.symm

theorem Indexed.addReservation (h : m.Indexed addresses)
    (hp : addresses p = invalidExclusiveAddress) (hkey : key ≠ invalidExclusiveAddress) :
    (m.addReservation p key).Indexed (Function.update addresses p key) := by
  -- The processor is on no list so far.
  have hfree : ∀ {key'} {chain : List (Fin n)}, (∀ q, q ∈ chain ↔ addresses q = key' ∧
      key' ≠ invalidExclusiveAddress) → p ∉ chain := fun hmem hin =>
    ((hmem p).mp hin).2 (((hmem p).mp hin).1.symm.trans hp)
  obtain ⟨front, hfront, hflinked, hfhead, hfmem⟩ := h key
  intro key'
  by_cases heq : key' = key
  · subst heq
    refine ⟨p :: front, List.nodup_cons.mpr ⟨hfree hfmem, hfront⟩, ?_, ?_, fun q => ?_⟩
    · change (m.reservations.pushFront p (m.reservationHeads key')).Linked _
      rw [hfhead]
      exact hflinked.pushFront hfront (hfree hfmem)
    · exact Function.update_self _ _ _
    · by_cases hq : q = p
      · simp [hq, hkey]
      · simp [hq, hfmem]
  · obtain ⟨chain, hnodup, hlinked, hhead, hmem⟩ := h key'
    refine ⟨chain, hnodup, ?_, ?_, fun q => ?_⟩
    · refine hlinked.congr fun q hq => Links.pushFront_of_ne _ ?_ ?_
      · rintro rfl
        exact hfree hmem hq
      · rw [hfhead]
        intro hfq
        have hqf := (hfmem q).mp (List.mem_of_head? hfq)
        exact heq (((hmem q).mp hq).1.symm.trans hqf.1)
    · exact (Function.update_of_ne heq _ _).trans hhead
    · by_cases hq : q = p
      · subst hq
        simp only [Function.update_self]
        exact iff_of_false (hfree hmem) fun ⟨hk, _⟩ => heq hk.symm
      · rw [Function.update_of_ne hq, hmem]

/-- Unlinking a processor takes it out of the one list it is in. -/
theorem Indexed.removeReservation (h : m.Indexed m.exclusiveAddresses) (p : Fin n) :
    (m.removeReservation p).Indexed
      (Function.update m.exclusiveAddresses p invalidExclusiveAddress) := by
  unfold ExclusiveMonitor.removeReservation
  simp only
  split
  · rename_i hp
    rwa [Function.update_eq_self_iff.mpr hp.symm]
  · rename_i hp
    obtain ⟨chain, hnodup, hlinked, hhead, hmem⟩ := h (m.exclusiveAddresses p)
    obtain ⟨a, b, rfl⟩ := List.append_of_mem ((hmem p).mpr ⟨rfl, hp⟩)
    obtain ⟨hprev, hnext⟩ := hlinked a p b rfl
    have hpa : p ∉ a := fun hin =>
      (List.nodup_append.mp hnodup).2.2 p hin p List.mem_cons_self rfl
    have hpb : p ∉ b := (List.nodup_cons.mp (List.nodup_append.mp hnodup).2.1).1
    intro key
    by_cases hkey : key = m.exclusiveAddresses p
    · subst hkey
      refine ⟨a ++ b, ?_, hlinked.unlink hnodup, ?_, fun q => ?_⟩
      · exact hnodup.sublist (List.Sublist.append_left (List.sublist_cons_self p b) a)
      · -- The head moves on when the processor was at the front.
        cases a with
        | nil => simp [hprev, hhead, hnext]
        | cons c a =>
            have hlast : (c :: a).getLast? ≠ none := by simp
            simp [hprev, hhead, hlast]
      · by_cases hq : q = p
        · subst hq
          simp only [Function.update_self, List.mem_append, hpa, hpb, or_self, false_iff, not_and]
          exact fun heq _ => hp heq.symm
        · rw [Function.update_of_ne hq, ← hmem]
          simp [hq]
    · obtain ⟨other, hnodup', hlinked', hhead', hmem'⟩ := h key
      have hapart : ∀ q ∈ other, q ∉ a ++ p :: b := fun q hq hin =>
        hkey (((hmem' q).mp hq).1.symm.trans ((hmem q).mp hin).1)
      refine ⟨other, hnodup', ?_, ?_, fun q => ?_⟩
      · refine hlinked'.unlink_of_not_mem (fun hin => hapart p hin (by simp)) ?_ ?_
        · intro q hq hlast
          exact hapart q hq (List.mem_append_left _ (List.mem_of_getLast? (hprev ▸ hlast)))
        · intro q hq hfirst
          exact hapart q hq (List.mem_append_right _
            (List.mem_cons_of_mem p (List.mem_of_head? (hnext ▸ hfirst))))
      · dsimp only
        split
        · rw [Function.update_of_ne hkey, hhead']
        · exact hhead'
      · by_cases hq : q = p
        · subst hq
          rw [Function.update_self, hmem']
          constructor
          · rintro ⟨heq, -⟩
            exact absurd heq.symm hkey
          · rintro ⟨heq, hne⟩
            exact absurd heq.symm hne
        · rw [Function.update_of_ne hq, hmem']

/-! ### Clearing a list -/

def cleared (m : ExclusiveMonitor n) (chain : List (Fin n)) : ExclusiveMonitor n :=
  { m with
    exclusiveAddresses := fun q =>
      if q ∈ chain then invalidExclusiveAddress else m.exclusiveAddresses q
    reservations :=
      ⟨fun q => if q ∈ chain then none else m.reservations.prev q,
        fun q => if q ∈ chain then none else m.reservations.next q⟩ }

theorem cleared_clearReservation (m : ExclusiveMonitor n) (p : Fin n) (chain : List (Fin n)) :
    (m.clearReservation p).cleared chain = m.cleared (p :: chain) := by
  simp only [cleared, clearReservation, Links.setNext, Links.setPrev, Function.update_apply,
    List.mem_cons]
  congr 1
  · funext q
    by_cases hq : q = p <;> by_cases hc : q ∈ chain <;> simp [hq, hc]
  · congr 1
    · funext q
      by_cases hq : q = p <;> by_cases hc : q ∈ chain <;> simp [hq, hc]
    · funext q
      by_cases hq : q = p <;> by_cases hc : q ∈ chain <;> simp [hq, hc]

theorem clearReservations_eq {chain : List (Fin n)} {turns : ℕ} (hnodup : chain.Nodup)
    (hnext : ∀ a q b, chain = a ++ q :: b → m.reservations.next q = b.head?)
    (hturns : chain.length ≤ turns) :
    m.clearReservations turns chain.head? = some (m.cleared chain) := by
  induction chain generalizing m turns with
  | nil =>
      rw [List.head?_nil, clearReservations.eq_def]
      simp [cleared]
  | cons p rest ih =>
      obtain ⟨turns, rfl⟩ : ∃ t, turns = t + 1 := ⟨turns - 1, by simp at hturns; omega⟩
      have hp := (List.nodup_cons.mp hnodup).1
      rw [List.head?_cons, clearReservations, hnext [] p rest rfl, ← cleared_clearReservation]
      refine ih (List.nodup_cons.mp hnodup).2 (fun a q b hsplit => ?_) (by simpa using hturns)
      -- The rest of the list is as it was.
      have hq : q ≠ p := by
        rintro rfl
        exact hp (by simp [hsplit])
      have hrest := hnext (p :: a) q b (by simp [hsplit])
      simpa [clearReservation, Links.setNext_next, hq] using hrest

theorem Indexed.cleared {chain : List (Fin n)} (h : m.Indexed m.exclusiveAddresses)
    (hmem : ∀ p, p ∈ chain ↔ m.exclusiveAddresses p = key ∧ key ≠ invalidExclusiveAddress) :
    Indexed { m.cleared chain with
      reservationHeads := Function.update m.reservationHeads key none }
      (m.cleared chain).exclusiveAddresses := by
  intro key'
  by_cases hkey : key' = key
  · subst hkey
    refine ⟨[], List.nodup_nil, Links.linked_nil _, ?_, fun p => ?_⟩
    · simp
    · simp only [List.not_mem_nil, false_iff, ExclusiveMonitor.cleared]
      rintro ⟨heq, hne⟩
      split at heq
      · exact hne heq.symm
      · rename_i hp
        exact hp ((hmem p).mpr ⟨heq, hne⟩)
  · obtain ⟨other, hnodup, hlinked, hhead, hother⟩ := h key'
    have hapart : ∀ q ∈ other, q ∉ chain := fun q hq hin =>
      hkey (((hother q).mp hq).1.symm.trans ((hmem q).mp hin).1)
    refine ⟨other, hnodup, ?_, ?_, fun p => ?_⟩
    · refine hlinked.congr fun q hq => ?_
      simp [ExclusiveMonitor.cleared, hapart q hq]
    · simpa [hkey] using hhead
    · simp only [ExclusiveMonitor.cleared]
      split
      · rename_i hp
        refine iff_of_false (fun hin => hapart p hin hp) ?_
        rintro ⟨heq, hne⟩
        exact hne heq.symm
      · exact hother p

/-- An indexed monitor with a resolver passes the check when the addresses agree, and
then clears exactly the processors with the same key. -/
theorem checkAndClear_eq {resolver : Fin n → VAddr → VAddr} {address : VAddr}
    (h : m.Indexed m.exclusiveAddresses) (hresolver : m.addressResolver = some resolver)
    (hvalid : m.maskedAddress p address ≠ invalidExclusiveAddress) :
    ∃ m', m.checkAndClear p address =
        some (decide (m.exclusiveAddresses p = m.maskedAddress p address), m') ∧
      m'.Indexed m'.exclusiveAddresses ∧ m'.addressResolver = m.addressResolver ∧
      m'.exclusiveValues = m.exclusiveValues ∧
      ∀ q, m'.exclusiveAddresses q =
        if m.exclusiveAddresses p = m.maskedAddress p address ∧
            m.exclusiveAddresses q = m.maskedAddress p address then invalidExclusiveAddress
        else m.exclusiveAddresses q := by
  unfold checkAndClear
  simp only
  generalize m.maskedAddress p address = key at hvalid ⊢
  by_cases hp : m.exclusiveAddresses p = key
  · obtain ⟨chain, hnodup, hlinked, hhead, hmem⟩ := h key
    have hin : p ∈ chain := (hmem p).mpr ⟨hp, hvalid⟩
    obtain ⟨head, hsome⟩ : ∃ head, chain.head? = some head := by
      cases chain with
      | nil => simp at hin
      | cons head rest => exact ⟨head, rfl⟩
    have hlength : chain.length ≤ n := by
      simpa using hnodup.length_le_card
    have hloop : m.clearReservations n (some head) = some (m.cleared chain) := by
      rw [← hsome]
      exact clearReservations_eq hnodup (fun a q b hsplit => (hlinked a q b hsplit).2) hlength
    refine ⟨{ m.cleared chain with
      reservationHeads := Function.update m.reservationHeads key none }, ?_, h.cleared hmem,
      rfl, rfl, fun q => ?_⟩
    · simp only [hp, ne_eq, not_true_eq_false, ↓reduceIte, hresolver, Option.isSome_some, hhead,
        hsome, hloop, Option.map_some, decide_true]
      rfl
    · simp [ExclusiveMonitor.cleared, hp, hmem, hvalid]
  · refine ⟨m, ?_, h, rfl, rfl, fun q => ?_⟩
    · simp [hp]
    · simp [hp]

/-! ### Runs -/

inductive Action (n : ℕ)
  | readAndMark (processor : Fin n) (address : VAddr) (value : List Byte)
  | doExclusiveOperation (processor : Fin n) (address : VAddr) (size : ℕ)
  | clear
  | clearProcessor (processor : Fin n)

inductive Event (n : ℕ)
  | readAndMark (processor : Fin n) (address : VAddr) (value : List Byte)
  | doExclusiveOperation (processor : Fin n) (address : VAddr) (received : Option (List Byte))
  | clear
  | clearProcessor (processor : Fin n)

structure Recorded (n : ℕ) where
  monitor : ExclusiveMonitor n
  history : List (Event n)

def step (s : Recorded n) : Action n → Option (Recorded n)
  | .readAndMark p address value =>
      some ⟨s.monitor.readAndMark p address value, .readAndMark p address value :: s.history⟩
  | .doExclusiveOperation p address size =>
      (s.monitor.doExclusiveOperation p address size).map fun (received, m) =>
        ⟨m, .doExclusiveOperation p address received :: s.history⟩
  | .clear => some ⟨s.monitor.clear, .clear :: s.history⟩
  | .clearProcessor p => some ⟨s.monitor.clearProcessor p, .clearProcessor p :: s.history⟩

/-- The event takes the reservation of a key away from a processor. -/
def Event.Ends (resolver : Fin n → VAddr → VAddr) (p : Fin n) (key : VAddr) : Event n → Prop
  | .readAndMark q _ _ => q = p
  | .doExclusiveOperation q address received => resolver q address = key ∧ received.isSome
  | .clear => True
  | .clearProcessor q => q = p

/-- The latest `ReadAndMark` of the processor resolved to the key and read the value, and
nothing has ended the reservation since. -/
def Reserved (resolver : Fin n → VAddr → VAddr) (history : List (Event n)) (p : Fin n)
    (key : VAddr) (value : List Byte) : Prop :=
  ∃ since address before, history = since ++ Event.readAndMark p address value :: before ∧
    resolver p address = key ∧ ∀ event ∈ since, ¬event.Ends resolver p key

variable {resolver : Fin n → VAddr → VAddr} {history : List (Event n)} {value : List Byte}

theorem not_reserved_nil : ¬Reserved resolver [] p key value := by
  rintro ⟨since, address, before, h, -⟩
  simp at h

theorem reserved_cons_of_not_ends {event : Event n} (h : ¬event.Ends resolver p key) :
    Reserved resolver (event :: history) p key value ↔ Reserved resolver history p key value := by
  constructor
  · rintro ⟨since, address, before, hsplit, hkey, hsince⟩
    cases since with
    | nil =>
        obtain ⟨rfl, -⟩ := List.cons.inj hsplit
        exact absurd rfl h
    | cons head since =>
        obtain ⟨-, rfl⟩ := List.cons.inj hsplit
        exact ⟨since, address, before, rfl, hkey,
          fun e he => hsince e (List.mem_cons_of_mem head he)⟩
  · rintro ⟨since, address, before, rfl, hkey, hsince⟩
    exact ⟨event :: since, address, before, rfl, hkey, List.forall_mem_cons.mpr ⟨h, hsince⟩⟩

theorem not_reserved_cons_of_ends {event : Event n} (h : event.Ends resolver p key)
    (hread : ∀ address, event ≠ .readAndMark p address value) :
    ¬Reserved resolver (event :: history) p key value := by
  rintro ⟨since, address, before, hsplit, -, hsince⟩
  cases since with
  | nil => exact hread address (List.cons.inj hsplit).1
  | cons head since =>
      obtain ⟨rfl, -⟩ := List.cons.inj hsplit
      exact hsince event List.mem_cons_self h

theorem reserved_cons_readAndMark {address : VAddr} {read : List Byte} :
    Reserved resolver (.readAndMark p address read :: history) p key value ↔
      resolver p address = key ∧ read = value := by
  constructor
  · rintro ⟨since, address', before, hsplit, hkey, hsince⟩
    cases since with
    | nil =>
        obtain ⟨hevent, -⟩ := List.cons.inj hsplit
        obtain ⟨-, rfl, rfl⟩ := Event.readAndMark.inj hevent
        exact ⟨hkey, rfl⟩
    | cons head since =>
        obtain ⟨rfl, -⟩ := List.cons.inj hsplit
        exact absurd rfl (hsince _ List.mem_cons_self)
  · rintro ⟨hkey, rfl⟩
    exact ⟨[], address, history, rfl, hkey, by simp⟩

structure Sound (resolver : Fin n → VAddr → VAddr) (s : Recorded n) : Prop where
  addressResolver : s.monitor.addressResolver = some resolver
  indexed : s.monitor.Indexed s.monitor.exclusiveAddresses
  reserved : ∀ p key, key ≠ invalidExclusiveAddress →
    (s.monitor.exclusiveAddresses p = key ↔ ∃ value, Reserved resolver s.history p key value)
  value : ∀ p key value, Reserved resolver s.history p key value →
    ∃ older, s.monitor.exclusiveValues p = value ++ older

theorem sound_create (resolver : Fin n → VAddr → VAddr) :
    Sound resolver ⟨create n (some resolver), []⟩ where
  addressResolver := rfl
  indexed := create_indexed _
  reserved p key hkey := by
    refine iff_of_false (fun h => hkey h.symm) ?_
    rintro ⟨value, hreserved⟩
    exact not_reserved_nil hreserved
  value p key value h := absurd h not_reserved_nil

@[simp] theorem removeReservation_exclusiveAddresses (m : ExclusiveMonitor n) (p : Fin n) :
    (m.removeReservation p).exclusiveAddresses = m.exclusiveAddresses := by
  unfold removeReservation
  simp only
  split <;> rfl

@[simp] theorem removeReservation_exclusiveValues (m : ExclusiveMonitor n) (p : Fin n) :
    (m.removeReservation p).exclusiveValues = m.exclusiveValues := by
  unfold removeReservation
  simp only
  split <;> rfl

@[simp] theorem removeReservation_addressResolver (m : ExclusiveMonitor n) (p : Fin n) :
    (m.removeReservation p).addressResolver = m.addressResolver := by
  unfold removeReservation
  simp only
  split <;> rfl

theorem maskedAddress_eq (h : m.addressResolver = some resolver) (p : Fin n) (address : VAddr) :
    m.maskedAddress p address = resolver p address := by
  rw [maskedAddress, resolveAddress, h]
  exact BitVec.and_allOnes

section Steps

variable {s : Recorded n}

/-- A new reservation replaces the old one of the processor. -/
theorem Sound.readAndMark (h : Sound resolver s)
    (hvalid : ∀ p address, resolver p address ≠ invalidExclusiveAddress) (p : Fin n)
    (address : VAddr) (read : List Byte) :
    Sound resolver ⟨s.monitor.readAndMark p address read,
      .readAndMark p address read :: s.history⟩ := by
  have hkey := maskedAddress_eq h.addressResolver p address
  have haddresses : (s.monitor.readAndMark p address read).exclusiveAddresses =
      Function.update s.monitor.exclusiveAddresses p (resolver p address) := by
    simp [ExclusiveMonitor.readAndMark, addReservation, hkey]
  have hother : ∀ q key, q ≠ p → ¬Event.Ends resolver q key (.readAndMark p address read) :=
    fun q key hq => Ne.symm hq
  refine ⟨?_, ?_, fun q key hne => ?_, fun q key value hreserved => ?_⟩
  · simpa [ExclusiveMonitor.readAndMark, addReservation] using h.addressResolver
  · have hadded := (h.indexed.removeReservation p).addReservation (p := p)
      (Function.update_self _ _ _) (hvalid p address)
    rw [Function.update_idem, ← haddresses] at hadded
    exact hadded.congr (by simp [ExclusiveMonitor.readAndMark, addReservation, hkey])
      (by simp [ExclusiveMonitor.readAndMark, addReservation, hkey])
  · simp only [haddresses]
    by_cases hq : q = p
    · subst hq
      simp [reserved_cons_readAndMark]
    · rw [Function.update_of_ne hq, h.reserved q key hne]
      exact exists_congr fun value => (reserved_cons_of_not_ends (hother q key hq)).symm
  · by_cases hq : q = p
    · subst hq
      obtain ⟨-, rfl⟩ := reserved_cons_readAndMark.mp hreserved
      exact ⟨_, Function.update_self _ _ _⟩
    · obtain ⟨older, holder⟩ := h.value q key value
        ((reserved_cons_of_not_ends (hother q key hq)).mp hreserved)
      refine ⟨older, ?_⟩
      simpa [ExclusiveMonitor.readAndMark, addReservation, hq] using holder

/-- Whether the operation runs, and on what. -/
theorem Sound.doExclusiveOperation (h : Sound resolver s)
    (hvalid : ∀ p address, resolver p address ≠ invalidExclusiveAddress) (p : Fin n)
    (address : VAddr) (size : ℕ) :
    ∃ received m', s.monitor.doExclusiveOperation p address size = some (received, m') ∧
      (received.isSome ↔ ∃ value, Reserved resolver s.history p (resolver p address) value) ∧
      (∀ value, Reserved resolver s.history p (resolver p address) value →
        ∃ older, received = some ((value ++ older).take size)) ∧
      Sound resolver ⟨m', .doExclusiveOperation p address received :: s.history⟩ := by
  have hkey := maskedAddress_eq h.addressResolver p address
  obtain ⟨m', hrun, hindexed, hresolver, hvalues, haddresses⟩ :=
    @checkAndClear_eq n s.monitor p resolver address h.indexed h.addressResolver
      (hkey ▸ hvalid p address)
  rw [hkey] at hrun haddresses
  have hpassed := h.reserved p (resolver p address) (hvalid p address)
  refine ⟨_, m', by rw [ExclusiveMonitor.doExclusiveOperation, hrun]; rfl, ?_, ?_, ?_⟩
  · rw [← hpassed]
    by_cases hp : s.monitor.exclusiveAddresses p = resolver p address <;> simp [hp]
  · intro value hreserved
    obtain ⟨older, holder⟩ := h.value p _ value hreserved
    refine ⟨older, ?_⟩
    rw [hpassed.mpr ⟨value, hreserved⟩, hvalues, holder]
    simp
  · refine ⟨hresolver.trans h.addressResolver, hindexed, fun q key hne => ?_,
      fun q key value hreserved => ?_⟩
    · simp only [haddresses]
      by_cases hends : s.monitor.exclusiveAddresses p = resolver p address ∧
          resolver p address = key
      · obtain ⟨hp, rfl⟩ := hends
        refine iff_of_false ?_ ?_
        · split
          · exact fun heq => hne heq.symm
          · rename_i hq
            exact fun heq => hq ⟨hp, heq⟩
        · rintro ⟨value, hreserved⟩
          refine not_reserved_cons_of_ends ?_ (by simp) hreserved
          exact ⟨rfl, by simp [hp]⟩
      · have hnot : ¬Event.Ends resolver q key (.doExclusiveOperation p address
            (if decide (s.monitor.exclusiveAddresses p = resolver p address) = true then
              some ((m'.exclusiveValues p).take size) else none)) := by
          rintro ⟨heq, hsome⟩
          refine hends ⟨?_, heq⟩
          by_contra hp
          simp [hp] at hsome
        rw [exists_congr fun value => reserved_cons_of_not_ends hnot, ← h.reserved q key hne]
        split
        · rename_i hboth
          refine iff_of_false (fun heq => hne heq.symm) fun heq => ?_
          exact hends ⟨hboth.1, hboth.2.symm.trans heq⟩
        · rfl
    · -- The buffers are as they were, and so is any reservation that is left.
      rw [hvalues]
      obtain ⟨since, a, before, hsplit, hk, hsince⟩ := hreserved
      cases since with
      | nil => exact absurd (List.cons.inj hsplit).1 (by simp)
      | cons head since =>
          obtain ⟨-, hhistory⟩ := List.cons.inj hsplit
          exact h.value q key value ⟨since, a, before, hhistory, hk,
            fun e he => hsince e (List.mem_cons_of_mem head he)⟩

theorem Sound.clear (h : Sound resolver s) :
    Sound resolver ⟨s.monitor.clear, .clear :: s.history⟩ := by
  have hnot : ∀ p key value, ¬Reserved resolver (.clear :: s.history) p key value :=
    fun p key value => not_reserved_cons_of_ends trivial (by simp)
  refine ⟨h.addressResolver, ?_, fun p key hne => ?_, fun p key value hr => (hnot _ _ _ hr).elim⟩
  · exact (create_indexed (some resolver)).congr rfl rfl
  · refine iff_of_false (fun heq => hne heq.symm) ?_
    rintro ⟨value, hreserved⟩
    exact hnot _ _ _ hreserved

theorem Sound.clearProcessor (h : Sound resolver s) (p : Fin n) :
    Sound resolver ⟨s.monitor.clearProcessor p, .clearProcessor p :: s.history⟩ := by
  have haddresses : (s.monitor.clearProcessor p).exclusiveAddresses =
      Function.update s.monitor.exclusiveAddresses p invalidExclusiveAddress := by
    simp [ExclusiveMonitor.clearProcessor]
  have hnot : ∀ key value, ¬Reserved resolver (.clearProcessor p :: s.history) p key value :=
    fun key value => not_reserved_cons_of_ends rfl (by simp)
  have hother : ∀ q key, q ≠ p → ¬Event.Ends resolver q key (.clearProcessor p) :=
    fun q key hq => Ne.symm hq
  refine ⟨?_, ?_, fun q key hne => ?_, fun q key value hreserved => ?_⟩
  · simpa [ExclusiveMonitor.clearProcessor] using h.addressResolver
  · rw [haddresses]
    exact (h.indexed.removeReservation p).congr rfl rfl
  · simp only [haddresses]
    by_cases hq : q = p
    · subst hq
      rw [Function.update_self]
      refine iff_of_false (fun heq => hne heq.symm) ?_
      rintro ⟨value, hreserved⟩
      exact hnot _ _ hreserved
    · rw [Function.update_of_ne hq, h.reserved q key hne]
      exact exists_congr fun value => (reserved_cons_of_not_ends (hother q key hq)).symm
  · by_cases hq : q = p
    · subst hq
      exact absurd hreserved (hnot _ _)
    · simpa [ExclusiveMonitor.clearProcessor] using
        h.value q key value ((reserved_cons_of_not_ends (hother q key hq)).mp hreserved)

/-- Every request goes through and keeps the monitor sound. -/
theorem Sound.step (h : Sound resolver s)
    (hvalid : ∀ p address, resolver p address ≠ invalidExclusiveAddress) (action : Action n) :
    ∃ t, step s action = some t ∧ Sound resolver t := by
  cases action with
  | readAndMark p address value => exact ⟨_, rfl, h.readAndMark hvalid p address value⟩
  | doExclusiveOperation p address size =>
      obtain ⟨received, m', hrun, -, -, hsound⟩ := h.doExclusiveOperation hvalid p address size
      exact ⟨_, by rw [ExclusiveMonitor.step, hrun]; rfl, hsound⟩
  | clear => exact ⟨_, rfl, h.clear⟩
  | clearProcessor p => exact ⟨_, rfl, h.clearProcessor p⟩

theorem Sound.run (h : Sound resolver s)
    (hvalid : ∀ p address, resolver p address ≠ invalidExclusiveAddress)
    (actions : List (Action n)) :
    ∃ t, Lib.run ExclusiveMonitor.step s actions = some t ∧ Sound resolver t := by
  induction actions generalizing s with
  | nil => exact ⟨s, rfl, h⟩
  | cons action rest ih =>
      obtain ⟨t, hstep, ht⟩ := h.step hvalid action
      obtain ⟨u, hrun, hu⟩ := ih ht
      exact ⟨u, by rw [Lib.run, hstep]; exact hrun, hu⟩

end Steps

def evenResolver : Fin 2 → VAddr → VAddr := fun _ address => address &&& ~~~1#64

theorem evenResolver_ne (p : Fin 2) (address : VAddr) :
    evenResolver p address ≠ invalidExclusiveAddress := by
  intro h
  have hbit := congrArg (fun w : VAddr => w.getLsbD 0) h
  simp [evenResolver, invalidExclusiveAddress] at hbit

end ExclusiveMonitor

end Umbra
