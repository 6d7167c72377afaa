import Mathlib.Tactic.IntervalCases
import Umbra.A32.AbortRestart

/-!
The store- and load-multiple instructions of ARM as a push and a pop.

An addressing mode says on which side of the base the words lie and whether the
base is one of them.  A store in one mode and the load in the opposite mode meet
the same words and move the base there and back.
-/

namespace Umbra.A32

open Umbra.Lib

/-- The addressing mode: increment or decrement the address, after or before the
access. -/
inductive Mode
  | ia | ib | da | db

namespace Mode

def load (mode : Mode) (n : Reg) (list : BitVec 16) : Multiple :=
  match mode with
  | ia => .armLDM true n list
  | ib => .armLDMIB true n list
  | da => .armLDMDA true n list
  | db => .armLDMDB true n list

def store (mode : Mode) (n : Reg) (list : BitVec 16) : Multiple :=
  match mode with
  | ia => .armSTM true n list
  | ib => .armSTMIB true n list
  | da => .armSTMDA true n list
  | db => .armSTMDB true n list

def opposite : Mode → Mode
  | ia => db
  | ib => da
  | da => ib
  | db => ia

def writeback (mode : Mode) (base : BitVec 32) (count : ℕ) : BitVec 32 :=
  match mode with
  | ia | ib => base + BitVec.ofNat 32 (4 * count)
  | da | db => base - BitVec.ofNat 32 (4 * count)

/-- The word number `i`, from the lowest, of the `count` words between the base and
the base written back: the modes `ia` and `db` have the word at the lower end, the
modes `ib` and `da` the one at the upper end. -/
def word (mode : Mode) (base : BitVec 32) (count i : ℕ) : BitVec 32 :=
  match mode with
  | ia => base + BitVec.ofNat 32 (4 * i)
  | ib => base + BitVec.ofNat 32 (4 * (i + 1))
  | da => base - BitVec.ofNat 32 (4 * (count - 1 - i))
  | db => base - BitVec.ofNat 32 (4 * (count - i))

def words (mode : Mode) (base : BitVec 32) (count : ℕ) : List (BitVec 32) :=
  (List.range count).map (mode.word base count)

end Mode

namespace IREmitter

def readAt (ir : IREmitter) (address : BitVec 32) : Program.Access GuestState :=
  ⟨BitVec 32, fun s => (ir.ordered (s.memory.readWord address), s)⟩

def writeAt (ir : IREmitter) (address value : BitVec 32) : Program.Access GuestState :=
  ⟨Unit, fun s => ((), { s with memory := s.memory.writeWord address (ir.ordered value) })⟩

end IREmitter

/-! ### The accesses of the helpers -/

section Accesses

variable {ir : IREmitter}

theorem accesses_getRegister_bind {r : Reg} (hr : r ≠ Reg.pc) {q : BitVec 32 → IR Bool}
    (s : GuestState) : (ir.getRegister r >>= q).accesses s = (q (s.regs r)).accesses s := by
  have hget : ir.getRegister r = .silent fun s => (s.regs r, s) := if_neg hr
  rw [hget, Program.accesses_bind]
  rfl

def consecutive (address : BitVec 32) (count : ℕ) : List (BitVec 32) :=
  (List.range count).map (after address)

theorem consecutive_succ (address : BitVec 32) (count : ℕ) :
    consecutive address (count + 1) = address :: consecutive (address + 4#32) count := by
  have hfirst : after address 0 = address := BitVec.add_zero address
  have hrest : after address ∘ Nat.succ = after (address + 4#32) :=
    funext fun i => (after_succ address i).symm
  rw [consecutive, List.range_succ_eq_map, List.map_cons, List.map_map, hfirst, hrest, consecutive]

theorem accesses_loadRegisters (rs : List Reg) (address : BitVec 32) (s : GuestState) :
    (loadRegisters ir rs address).accesses s =
      (consecutive address rs.length).map ir.readAt := by
  induction rs generalizing address s with
  | nil => rfl
  | cons r rs ih =>
      rw [loadRegisters, Program.accesses_bind, ih, List.length_cons, consecutive_succ]
      rfl

/-- The loop reads the registers it stores as they were before it. -/
theorem accesses_storeRegisters {rs : List Reg} (hpc : Reg.pc ∉ rs) (address : BitVec 32)
    (s : GuestState) :
    (storeRegisters ir rs address).accesses s =
      (rs.zip (consecutive address rs.length)).map fun p => ir.writeAt p.2 (s.regs p.1) := by
  induction rs generalizing address s with
  | nil => rfl
  | cons r rs ih =>
      rw [List.mem_cons, not_or] at hpc
      have hr : ir.getRegister r = .silent fun s => (s.regs r, s) := if_neg (Ne.symm hpc.1)
      rw [storeRegisters, Program.accesses_bind, ih hpc.2, List.length_cons, consecutive_succ, hr]
      rfl

variable {n : Reg} {list : BitVec 16}

theorem countOnes_eq_length (hpc : list.getLsbD 15 = false) :
    countOnes list = (lowRegisters list).length := by
  rw [countOnes_eq, hpc, if_neg Bool.false_ne_true, Nat.add_zero]

theorem accesses_ldmHelper (hpc : list.getLsbD 15 = false) (W : Bool)
    (address writeback : BitVec 32) (s : GuestState) :
    (ldmHelper ir (pure ()) W n list address writeback).accesses s =
      (consecutive address (countOnes list)).map ir.readAt := by
  have hcount := countOnes_eq_length hpc
  simp only [ldmHelper, hpc, Program.accesses_bind, accesses_loadRegisters, hcount]
  cases W && !list.getLsbD n.val <;> simp [IREmitter.setRegister]

theorem accesses_stmHelper (hpc : list.getLsbD 15 = false) (W : Bool)
    (address writeback : BitVec 32) (s : GuestState) :
    (stmHelper ir W n list address writeback).accesses s =
      ((lowRegisters list).zip (consecutive address (countOnes list))).map
        fun p => ir.writeAt p.2 (s.regs p.1) := by
  have hcount := countOnes_eq_length hpc
  simp only [stmHelper, stmHelperLow, hpc, Program.accesses_bind,
    accesses_storeRegisters (pc_notMem_lowRegisters list), hcount]
  cases W <;> simp [IREmitter.setRegister]

end Accesses

/-! ### One instruction -/

section Single

variable {ir : IREmitter} {n : Reg} {list : BitVec 16} {body : IR Bool}

theorem countOnes_lt_one_iff {list : BitVec 16} : countOnes list < 1 ↔ list = 0#16 := by
  constructor
  · intro h
    have hnone : countOnes list = 0 := by omega
    rw [countOnes, List.countP_eq_zero] at hnone
    refine BitVec.eq_of_getLsbD_eq fun i hi => ?_
    simpa using hnone ⟨i, hi⟩ (List.mem_finRange _)
  · rintro rfl
    decide

theorem armLoad_eq (hn : n ≠ Reg.pc) (hlist : list ≠ 0#16) (hbase : list.getLsbD n.val = false)
    (hpassed : ir.passed = true) (W : Bool) : armLoad ir W n list body = some body := by
  rw [armLoad, if_neg (not_or.2 ⟨hn, countOnes_lt_one_iff.not.2 hlist⟩), hbase, hpassed]
  simp

theorem armStore_eq (hn : n ≠ Reg.pc) (hlist : list ≠ 0#16) (hpassed : ir.passed = true) :
    armStore ir n list body = some body := by
  rw [armStore, if_neg (not_or.2 ⟨hn, countOnes_lt_one_iff.not.2 hlist⟩), hpassed]
  rfl

end Single

namespace Mode

variable {ir : IREmitter} {mode : Mode} {n : Reg} {list : BitVec 16}

def first (mode : Mode) (list : BitVec 16) : BitVec 32 :=
  match mode with
  | ia => 0#32
  | ib => 4#32
  | da => -(listSize list - 4#32)
  | db => -listSize list

def change (mode : Mode) (list : BitVec 16) : BitVec 32 :=
  match mode with
  | ia | ib => listSize list
  | da | db => -listSize list

theorem transfer_load :
    (mode.load n list).transfer = ⟨true, true, n, list, mode.first list, mode.change list⟩ := by
  cases mode <;> rfl

theorem transfer_store :
    (mode.store n list).transfer = ⟨false, true, n, list, mode.first list, mode.change list⟩ := by
  cases mode <;> rfl

theorem writeback_eq (base : BitVec 32) :
    mode.writeback base (countOnes list) = base + mode.change list := by
  cases mode with
  | ia | ib => rfl
  | da | db => exact BitVec.sub_eq_add_neg ..

theorem opposite_first (base : BitVec 32) :
    base + mode.change list + mode.opposite.first list = base + mode.first list := by
  cases mode <;> simp only [change, opposite, first] <;> bv_omega

theorem opposite_change (base : BitVec 32) :
    base + mode.change list + mode.opposite.change list = base := by
  cases mode <;> simp only [change, opposite] <;> bv_omega

theorem sub_words (base : BitVec 32) (d i : ℕ) :
    base - BitVec.ofNat 32 (4 * d) =
      base + -BitVec.ofNat 32 (4 * (d + i)) + BitVec.ofNat 32 (4 * i) := by
  rw [Nat.mul_add, BitVec.ofNat_add]
  generalize BitVec.ofNat 32 (4 * d) = x
  generalize BitVec.ofNat 32 (4 * i) = y
  bv_omega

theorem words_eq (base : BitVec 32) :
    mode.words base (countOnes list) =
      consecutive (base + mode.first list) (countOnes list) := by
  refine List.map_congr_left fun i hi => ?_
  have hi : i < countOnes list := List.mem_range.1 hi
  cases mode with
  | ia => simp [word, first, after]
  | ib =>
      simp only [word, first, after, Nat.mul_succ, BitVec.ofNat_add]
      rw [BitVec.add_assoc, BitVec.add_comm 4#32]
  | da =>
      obtain ⟨d, hd⟩ := Nat.exists_eq_add_of_lt hi
      have hlast : countOnes list - 1 - i = d := by omega
      simp only [word, first, after, listSize, hlast]
      rw [sub_words base d i, hd]
      congr 3
      have hwords : 4 * (i + d + 1) = 4 * (d + i) + 4 := by omega
      rw [hwords, BitVec.ofNat_add, BitVec.add_sub_cancel]
  | db =>
      have hsum : countOnes list - i + i = countOnes list := by omega
      simp only [word, first, after, listSize]
      rw [sub_words base (countOnes list - i) i, hsum]

variable (mode) (hn : n ≠ Reg.pc) (hlist : list ≠ 0#16) (hbase : list.getLsbD n.val = false)
  (hpc : list.getLsbD 15 = false) (hpassed : ir.passed = true)

include hn hlist hbase hpc hpassed

theorem load_accesses : ∃ p, (mode.load n list).translate ir = some p ∧
    ∀ s, p.accesses s = (mode.words (s.regs n) (countOnes list)).map ir.readAt := by
  have hsome (body : IR Bool) : armLoad ir true n list body = some body :=
    armLoad_eq hn hlist hbase hpassed true
  cases mode with
  | ia =>
      refine ⟨_, hsome _, fun s => ?_⟩
      rw [words_eq, accesses_getRegister_bind hn, accesses_ldmHelper hpc]
      exact congrArg (fun a => (consecutive a _).map ir.readAt) (BitVec.add_zero _).symm
  | ib =>
      refine ⟨_, hsome _, fun s => ?_⟩
      rw [words_eq, accesses_getRegister_bind hn, accesses_getRegister_bind hn,
        accesses_ldmHelper hpc]
      rfl
  | da =>
      refine ⟨_, hsome _, fun s => ?_⟩
      rw [words_eq, accesses_getRegister_bind hn, accesses_ldmHelper hpc, BitVec.sub_eq_add_neg]
      rfl
  | db =>
      refine ⟨_, hsome _, fun s => ?_⟩
      rw [words_eq, accesses_getRegister_bind hn, accesses_ldmHelper hpc, BitVec.sub_eq_add_neg]
      rfl

omit hbase

theorem store_accesses : ∃ p, (mode.store n list).translate ir = some p ∧
    ∀ s, p.accesses s =
      ((lowRegisters list).zip (mode.words (s.regs n) (countOnes list))).map
        fun q => ir.writeAt q.2 (s.regs q.1) := by
  have hsome (body : IR Bool) : armStore ir n list body = some body :=
    armStore_eq hn hlist hpassed
  cases mode with
  | ia =>
      refine ⟨_, hsome _, fun s => ?_⟩
      rw [words_eq, accesses_getRegister_bind hn, accesses_stmHelper hpc]
      exact congrArg (fun a => ((lowRegisters list).zip (consecutive a _)).map _)
        (BitVec.add_zero _).symm
  | ib =>
      refine ⟨_, hsome _, fun s => ?_⟩
      rw [words_eq, accesses_getRegister_bind hn, accesses_getRegister_bind hn,
        accesses_stmHelper hpc]
      rfl
  | da =>
      refine ⟨_, hsome _, fun s => ?_⟩
      rw [words_eq, accesses_getRegister_bind hn, accesses_stmHelper hpc, BitVec.sub_eq_add_neg]
      rfl
  | db =>
      refine ⟨_, hsome _, fun s => ?_⟩
      rw [words_eq, accesses_getRegister_bind hn, accesses_stmHelper hpc, BitVec.sub_eq_add_neg]
      rfl

end Mode

/-! ### The state after one instruction -/

section Result

variable {ir : IREmitter} {i : Multiple} {s : GuestState}

theorem Transfer.result_of_writesBack {t : Transfer} (hpc : t.list.getLsbD 15 = false)
    (hback : t.writesBack = true) :
    t.result ir s = (true, (t.moved ir (lowRegisters t.list) (s.regs t.n + t.first) s).setReg t.n
      (s.regs t.n + t.change)) := by
  rw [Transfer.result, Transfer.resultAt, hpc, if_neg Bool.false_ne_true, Transfer.beforePC,
    if_pos hback]

theorem Multiple.run_eq {p : IR Bool} (hp : i.translate ir = some p) (hpassed : ir.passed = true) :
    p.run s = i.transfer.result ir s := by
  have hemits := (Multiple.emits_of_translate hp).2
  rw [if_neg (fun h => by simp [hpassed] at h)] at hemits
  exact hemits.1 s

theorem Multiple.execute_eq {p : IR Bool} (hp : i.translate ir = some p)
    (hpassed : ir.passed = true) :
    i.execute ir s = some (ir.leave (i.transfer.result ir s)) := by
  rw [Multiple.execute, hp, Option.map_some, Multiple.run_eq hp hpassed]

theorem leave_regs {r : Reg} (hr : r ≠ Reg.pc) : (ir.leave (true, s)).regs r = s.regs r :=
  Function.update_of_ne hr ..

end Result

/-! ### Words stored and loaded -/

section Words

variable {ir : IREmitter}

theorem ordered_ordered (v : BitVec 32) : ir.ordered (ir.ordered v) = v := by
  unfold IREmitter.ordered
  split
  · unfold IREmitter.byteReverseWord
    refine BitVec.eq_of_getLsbD_eq fun i hi => ?_
    simp only [BitVec.getLsbD_append, BitVec.getLsbD_extractLsb']
    interval_cases i <;> rfl
  · rfl

theorem readWord_writeWord_self (m : GuestMemory) (address value : BitVec 32) :
    (m.writeWord address value).readWord address = value := by
  have h1 : address + 1#32 ≠ address := by bv_omega
  have h2 : address + 2#32 ≠ address := by bv_omega
  have h3 : address + 3#32 ≠ address := by bv_omega
  have h21 : address + 2#32 ≠ address + 1#32 := by bv_omega
  have h31 : address + 3#32 ≠ address + 1#32 := by bv_omega
  have h32 : address + 3#32 ≠ address + 2#32 := by bv_omega
  simp only [GuestMemory.readWord, GuestMemory.writeWord, if_neg h1, if_neg h2, if_neg h3,
    if_neg h21, if_neg h31, if_neg h32, if_pos]
  refine BitVec.eq_of_getLsbD_eq fun i hi => ?_
  simp only [BitVec.getLsbD_append, BitVec.getLsbD_extractLsb']
  interval_cases i <;> rfl

theorem exists_of_covers {rs : List Reg} {address x : BitVec 32} (h : Covers rs address x) :
    ∃ k < 4 * rs.length, x = address + BitVec.ofNat 32 k := by
  induction rs generalizing address with
  | nil => exact h.elim
  | cons r rs ih =>
      rcases h with (h | h | h | h) | h
      · exact ⟨0, by simp, by rw [h, BitVec.add_zero]⟩
      · exact ⟨1, by simp; omega, h⟩
      · exact ⟨2, by simp; omega, h⟩
      · exact ⟨3, by simp; omega, h⟩
      · obtain ⟨k, hk, hx⟩ := ih h
        refine ⟨4 + k, by simp; omega, ?_⟩
        rw [hx, BitVec.ofNat_add, ← BitVec.add_assoc]

theorem not_covers_behind {rs : List Reg} (hlength : rs.length ≤ 16) (address : BitVec 32) {j : ℕ}
    (hj : j < 4) : ¬Covers rs (address + 4#32) (address + BitVec.ofNat 32 j) := by
  intro h
  obtain ⟨k, hk, heq⟩ := exists_of_covers h
  rw [BitVec.add_assoc, BitVec.add_right_inj] at heq
  have hnat := congrArg BitVec.toNat heq
  simp only [BitVec.toNat_add, BitVec.toNat_ofNat] at hnat
  omega

theorem readWord_stored {rs : List Reg} (hlength : rs.length ≤ 16) {r : Reg} (hr : r ∈ rs)
    (address : BitVec 32) (s : GuestState) :
    (stored ir rs address s).memory.readWord (after address (rs.idxOf r)) =
      ir.ordered (s.regs r) := by
  induction rs generalizing address s with
  | nil => cases hr
  | cons q rs ih =>
      have hlength' : rs.length ≤ 16 := by
        rw [List.length_cons] at hlength
        omega
      rw [stored]
      by_cases hq : r = q
      · subst hq
        rw [List.idxOf_cons_self, after, Nat.mul_zero, BitVec.add_zero]
        -- the words behind leave the four bytes as they were written
        have hbyte (j : ℕ) (hj : j < 4) (u : GuestState) :
            (stored ir rs (address + 4#32) u).memory (address + BitVec.ofNat 32 j) =
              u.memory (address + BitVec.ofNat 32 j) :=
          stored_memory_of_not_covers (not_covers_behind hlength' address hj) u
        have hfirst := hbyte 0 (by decide)
        rw [BitVec.add_zero] at hfirst
        rw [GuestMemory.readWord, hbyte 3 (by decide), hbyte 2 (by decide), hbyte 1 (by decide),
          hfirst]
        exact readWord_writeWord_self ..
      · rw [List.idxOf_cons_ne _ (Ne.symm hq), ← after_succ]
        exact ih hlength' ((List.mem_cons.1 hr).resolve_left hq) ..

theorem map_loaded_regs {rs : List Reg} (hnodup : rs.Nodup) (address : BitVec 32)
    (s : GuestState) :
    rs.map (loaded ir rs address s).regs =
      (consecutive address rs.length).map fun a => ir.ordered (s.memory.readWord a) := by
  refine List.ext_getElem (by simp [consecutive]) fun i hi _ => ?_
  rw [List.length_map] at hi
  simp only [List.getElem_map, consecutive, List.getElem_range]
  rw [loaded_regs_of_mem (List.getElem_mem hi) hnodup, hnodup.idxOf_getElem i hi]
  rfl

end Words

/-! ### Push and pop -/

namespace Mode

variable (mode : Mode) (ir : IREmitter) (n : Reg) (list : BitVec 16)

/-- The load makes one read for each listed register, in ascending order, at the
words of the mode; the registers hold what is read, and the base is written back. -/
def Loads : Prop :=
  ∃ p, (mode.load n list).translate ir = some p ∧ ∀ s : GuestState,
    let words := mode.words (s.regs n) (countOnes list)
    p.accesses s = words.map ir.readAt ∧
      (lowRegisters list).map (p.run s).2.regs =
        words.map (fun a => ir.ordered (s.memory.readWord a)) ∧
      (p.run s).2.regs n = mode.writeback (s.regs n) (countOnes list)

/-- The store makes one write for each listed register, in ascending order, at the
words of the mode, and the base is written back. -/
def Stores : Prop :=
  ∃ p, (mode.store n list).translate ir = some p ∧ ∀ s : GuestState,
    let words := mode.words (s.regs n) (countOnes list)
    p.accesses s = ((lowRegisters list).zip words).map (fun q => ir.writeAt q.2 (s.regs q.1)) ∧
      (p.run s).2.regs n = mode.writeback (s.regs n) (countOnes list)

/-- The store and then the load in the opposite mode restore the base and every
listed register. -/
def Restores (ir' : IREmitter) : Prop :=
  ∀ s : GuestState, ∃ t u, (mode.store n list).execute ir s = some t ∧
    (mode.opposite.load n list).execute ir' t = some u ∧ u.regs n = s.regs n ∧
      ∀ r : Reg, list.getLsbD r.val = true → u.regs r = s.regs r

variable {mode ir n list} (hn : n ≠ Reg.pc) (hlist : list ≠ 0#16)
  (hbase : list.getLsbD n.val = false) (hpc : list.getLsbD 15 = false)

include hbase hpc

theorem result_load (s : GuestState) :
    (mode.load n list).transfer.result ir s =
      (true, (loaded ir (lowRegisters list) (s.regs n + mode.first list) s).setReg n
        (s.regs n + mode.change list)) := by
  rw [transfer_load]
  refine Transfer.result_of_writesBack (t := ⟨true, true, n, list, _, _⟩) hpc ?_
  rw [Transfer.writesBack, hbase]
  rfl

omit hbase

theorem result_store (s : GuestState) :
    (mode.store n list).transfer.result ir s =
      (true, (stored ir (lowRegisters list) (s.regs n + mode.first list) s).setReg n
        (s.regs n + mode.change list)) := by
  rw [transfer_store]
  refine Transfer.result_of_writesBack (t := ⟨false, true, n, list, _, _⟩) hpc ?_
  simp [Transfer.writesBack]

include hn hlist

theorem stores (hpassed : ir.passed = true) : mode.Stores ir n list := by
  obtain ⟨p, hp, haccesses⟩ := store_accesses mode hn hlist hpc hpassed
  refine ⟨p, hp, fun s => ⟨haccesses s, ?_⟩⟩
  rw [Multiple.run_eq hp hpassed, result_store hpc, writeback_eq]
  exact Function.update_self ..

include hbase

theorem loads (hpassed : ir.passed = true) : mode.Loads ir n list := by
  obtain ⟨p, hp, haccesses⟩ := load_accesses mode hn hlist hbase hpc hpassed
  refine ⟨p, hp, fun s => ⟨haccesses s, ?_, ?_⟩⟩
  · rw [Multiple.run_eq hp hpassed, result_load hbase hpc, words_eq, countOnes_eq_length hpc,
      ← map_loaded_regs (nodup_lowRegisters list)]
    refine List.map_congr_left fun r hr => Function.update_of_ne ?_ _ _
    rintro rfl
    rw [(mem_lowRegisters hn).1 hr] at hbase
    cases hbase
  · rw [Multiple.run_eq hp hpassed, result_load hbase hpc, writeback_eq]
    exact Function.update_self ..

/-- The load in the opposite mode reads the words that the store wrote. -/
theorem restores {ir' : IREmitter} (hpassed : ir.passed = true) (hpassed' : ir'.passed = true)
    (hendian : ir'.currentLocation.eFlag = ir.currentLocation.eFlag) :
    mode.Restores ir n list ir' := by
  intro s
  obtain ⟨p, hp, -⟩ := store_accesses mode hn hlist hpc hpassed
  obtain ⟨q, hq, -⟩ := load_accesses mode.opposite hn hlist hbase hpc hpassed'
  obtain ⟨t, ht⟩ : ∃ t, t = ir.leave ((mode.store n list).transfer.result ir s) := ⟨_, rfl⟩
  refine ⟨t, _, ht ▸ Multiple.execute_eq hp hpassed, Multiple.execute_eq hq hpassed', ?_⟩
  rw [result_store hpc] at ht
  have hmemory : t.memory =
      (stored ir (lowRegisters list) (s.regs n + mode.first list) s).memory := ht ▸ rfl
  have hback : t.regs n = s.regs n + mode.change list := by
    rw [ht, leave_regs hn]
    exact Function.update_self ..
  rw [result_load hbase hpc, hback, opposite_first, opposite_change]
  constructor
  · rw [leave_regs hn]
    exact Function.update_self ..
  intro r hr
  have hrpc : r ≠ Reg.pc := by
    rintro rfl
    exact Bool.false_ne_true (hpc.symm.trans hr)
  have hrn : r ≠ n := by
    rintro rfl
    exact Bool.false_ne_true (hbase.symm.trans hr)
  have hlow : r ∈ lowRegisters list := (mem_lowRegisters hrpc).2 hr
  have hlength : (lowRegisters list).length ≤ 16 := countOnes_eq_length hpc ▸ countOnes_le list
  have hordered (v : BitVec 32) : ir'.ordered v = ir.ordered v := by
    rw [IREmitter.ordered, hendian, IREmitter.ordered]
  calc (ir'.leave (true, (loaded ir' (lowRegisters list) (s.regs n + mode.first list) t).setReg n
        (s.regs n))).regs r
      = (loaded ir' (lowRegisters list) (s.regs n + mode.first list) t).regs r := by
        rw [leave_regs hrpc]
        exact Function.update_of_ne hrn ..
    _ = ir.ordered (t.memory.readWord
          (after (s.regs n + mode.first list) ((lowRegisters list).idxOf r))) := by
        rw [loaded_regs_of_mem hlow (nodup_lowRegisters list), hordered]
        rfl
    _ = s.regs r := by rw [hmemory, readWord_stored hlength hlow, ordered_ordered]

end Mode

/-- The handlers refuse every list without registers and the program counter as
base.  Otherwise each instruction makes the accesses of its mode, and a store is
undone by the load in the opposite mode. -/
theorem Mode.push_pop (mode : Mode) (ir ir' : IREmitter) (n : Reg) (list : BitVec 16)
    (hpc : list.getLsbD 15 = false) (hbase : list.getLsbD n.val = false)
    (hpassed : ir.passed = true) (hpassed' : ir'.passed = true)
    (hendian : ir'.currentLocation.eFlag = ir.currentLocation.eFlag) :
    if n = Reg.pc ∨ list = 0#16 then
      (mode.store n list).translate ir = none ∧ (mode.load n list).translate ir = none
    else mode.Restores ir n list ir' ∧ mode.Stores ir n list ∧ mode.Loads ir n list := by
  split
  · next h =>
      have hrefused := or_congr_right (a := n = Reg.pc) (@countOnes_lt_one_iff list) |>.2 h
      cases mode <;> exact ⟨if_pos hrefused, if_pos hrefused⟩
  · next h =>
      obtain ⟨hn, hlist⟩ := not_or.1 h
      exact ⟨restores hn hlist hbase hpc hpassed hpassed' hendian, stores hn hlist hpc hpassed,
        loads hn hlist hbase hpc hpassed⟩

namespace Sample

def armEmitter (pc : BitVec 32) : IREmitter where
  currentLocation := ⟨pc, false, false, ⟨0#8⟩, 0#32, false⟩
  arch := .v7
  passed := true

end Sample

open Sample in
/-- `PUSH {r4-r7, lr}` and `POP {r4-r7, lr}`. -/
theorem Mode.push_pop_stack :
    Mode.db.Restores (armEmitter 0x8000#32) Reg.sp 0x40F0#16 (armEmitter 0x8004#32) ∧
      Mode.db.Stores (armEmitter 0x8000#32) Reg.sp 0x40F0#16 ∧
      Mode.db.Loads (armEmitter 0x8000#32) Reg.sp 0x40F0#16 := by
  have h := Mode.push_pop .db (armEmitter 0x8000#32) (armEmitter 0x8004#32) Reg.sp 0x40F0#16
    (by decide) (by decide) rfl rfl rfl
  rwa [if_neg (by decide)] at h

end Umbra.A32
