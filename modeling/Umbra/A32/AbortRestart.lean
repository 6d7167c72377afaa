import Umbra.A32.LoadStoreMultiple

/-!
When an aborted load- or store-multiple can be executed again.

Every instruction is a `Transfer`: it moves the registers up to R14 in order,
writes the base back, and moves the word of the program counter last.  What an
abort leaves is the transfer cut off at the access, so a second execution does
the same as the first unless the base has changed by then.
-/

namespace Umbra.A32

open Umbra.Lib

/-! ### What the helpers do -/

section Loops

variable (ir : IREmitter)

def loaded : List Reg → BitVec 32 → GuestState → GuestState
  | [], _, s => s
  | r :: rs, address, s =>
      loaded rs (address + 4#32) (s.setReg r (ir.ordered (s.memory.readWord address)))

def stored : List Reg → BitVec 32 → GuestState → GuestState
  | [], _, s => s
  | r :: rs, address, s => stored rs (address + 4#32)
      { s with memory := s.memory.writeWord address (ir.ordered (s.regs r)) }

variable {ir}

@[simp] theorem loaded_memory (rs : List Reg) (address : BitVec 32) (s : GuestState) :
    (loaded ir rs address s).memory = s.memory := by
  induction rs generalizing address s with
  | nil => rfl
  | cons r rs ih => rw [loaded, ih, GuestState.setReg_memory]

@[simp] theorem loaded_tFlag (rs : List Reg) (address : BitVec 32) (s : GuestState) :
    (loaded ir rs address s).tFlag = s.tFlag := by
  induction rs generalizing address s with
  | nil => rfl
  | cons r rs ih => rw [loaded, ih, GuestState.setReg_tFlag]

theorem loaded_regs_of_notMem {rs : List Reg} {r : Reg} (hr : r ∉ rs) (address : BitVec 32)
    (s : GuestState) : (loaded ir rs address s).regs r = s.regs r := by
  induction rs generalizing address s with
  | nil => rfl
  | cons q rs ih =>
      rw [List.mem_cons, not_or] at hr
      rw [loaded, ih hr.2, GuestState.setReg_regs, Function.update_of_ne hr.1]

theorem loaded_regs_of_mem {rs : List Reg} {r : Reg} (hr : r ∈ rs) (hnodup : rs.Nodup)
    (address : BitVec 32) (s : GuestState) :
    (loaded ir rs address s).regs r =
      ir.ordered (s.memory.readWord (address + BitVec.ofNat 32 (4 * rs.idxOf r))) := by
  induction rs generalizing address s with
  | nil => cases hr
  | cons q rs ih =>
      rw [List.nodup_cons] at hnodup
      by_cases hq : r = q
      · subst hq
        rw [loaded, loaded_regs_of_notMem hnodup.1, List.idxOf_cons_self]
        simp
      · have hr' : r ∈ rs := (List.mem_cons.1 hr).resolve_left hq
        rw [loaded, ih hr' hnodup.2, List.idxOf_cons_ne _ (Ne.symm hq), GuestState.setReg_memory]
        congr 2
        bv_omega

theorem loaded_congr {rs : List Reg} {s t : GuestState} (hmemory : s.memory = t.memory)
    (hflag : s.tFlag = t.tFlag) (hregs : ∀ r, r ∉ rs → s.regs r = t.regs r)
    (address : BitVec 32) : loaded ir rs address s = loaded ir rs address t := by
  induction rs generalizing address s t with
  | nil =>
      cases s
      cases t
      simp only [loaded, GuestState.mk.injEq]
      exact ⟨funext fun r => hregs r (List.not_mem_nil), hflag, hmemory⟩
  | cons q rs ih =>
      rw [loaded, loaded, hmemory]
      refine ih ?_ ?_ (fun r hr => ?_) _
      · exact hmemory
      · exact hflag
      by_cases hq : r = q
      · subst hq
        simp
      · simp only [GuestState.setReg_regs, Function.update_of_ne hq]
        exact hregs r (List.not_mem_cons_of_ne_of_not_mem hq hr)

theorem loaded_loaded_take (rs : List Reg) (k : ℕ) (address : BitVec 32) (s : GuestState) :
    loaded ir rs address (loaded ir (rs.take k) address s) = loaded ir rs address s :=
  loaded_congr (loaded_memory ..) (loaded_tFlag ..)
    (fun _ hr => loaded_regs_of_notMem (fun h => hr (List.mem_of_mem_take h)) ..) _

@[simp] theorem stored_regs (rs : List Reg) (address : BitVec 32) (s : GuestState) :
    (stored ir rs address s).regs = s.regs := by
  induction rs generalizing address s with
  | nil => rfl
  | cons r rs ih => rw [stored, ih]

@[simp] theorem stored_tFlag (rs : List Reg) (address : BitVec 32) (s : GuestState) :
    (stored ir rs address s).tFlag = s.tFlag := by
  induction rs generalizing address s with
  | nil => rfl
  | cons r rs ih => rw [stored, ih]

/-- The byte `x` is in one of the words that storing `rs` from `address` on writes. -/
def Covers : List Reg → BitVec 32 → BitVec 32 → Prop
  | [], _, _ => False
  | _ :: rs, address, x =>
      (x = address ∨ x = address + 1#32 ∨ x = address + 2#32 ∨ x = address + 3#32) ∨
        Covers rs (address + 4#32) x

theorem covers_of_take {rs : List Reg} {k : ℕ} {address x : BitVec 32}
    (h : Covers (rs.take k) address x) : Covers rs address x := by
  induction rs generalizing k address with
  | nil => rw [List.take_nil] at h; exact h
  | cons r rs ih =>
      cases k with
      | zero => exact h.elim
      | succ k => exact h.imp_right ih

theorem writeWord_of_ne {m : GuestMemory} {address value x : BitVec 32}
    (h : ¬(x = address ∨ x = address + 1#32 ∨ x = address + 2#32 ∨ x = address + 3#32)) :
    m.writeWord address value x = m x := by
  simp only [not_or] at h
  simp only [GuestMemory.writeWord, if_neg h.1, if_neg h.2.1, if_neg h.2.2.1, if_neg h.2.2.2]

theorem stored_memory_of_not_covers {rs : List Reg} {address x : BitVec 32}
    (h : ¬Covers rs address x) (s : GuestState) :
    (stored ir rs address s).memory x = s.memory x := by
  induction rs generalizing address s with
  | nil => rfl
  | cons r rs ih =>
      simp only [Covers, not_or] at h
      rw [stored, ih h.2]
      exact writeWord_of_ne (by simpa only [not_or] using h.1)

theorem stored_congr {rs : List Reg} {s t : GuestState} {address : BitVec 32}
    (hregs : s.regs = t.regs) (hflag : s.tFlag = t.tFlag)
    (hmemory : ∀ x, ¬Covers rs address x → s.memory x = t.memory x) :
    stored ir rs address s = stored ir rs address t := by
  induction rs generalizing address s t with
  | nil =>
      cases s
      cases t
      simp only [stored, GuestState.mk.injEq]
      exact ⟨hregs, hflag, funext fun x => hmemory x id⟩
  | cons r rs ih =>
      rw [stored, stored, hregs]
      refine ih rfl hflag fun x hx => ?_
      by_cases hword : x = address ∨ x = address + 1#32 ∨ x = address + 2#32 ∨ x = address + 3#32
      · simp only [GuestMemory.writeWord]
        split_ifs with h0 h1 h2 h3
        · rfl
        · rfl
        · rfl
        · rfl
        · exact absurd hword (by simp only [h0, h1, h2, h3, or_self, not_false_eq_true])
      · simp only [writeWord_of_ne hword]
        exact hmemory x (fun h => h.elim hword hx)

theorem stored_stored_take (rs : List Reg) (k : ℕ) (address : BitVec 32) (s : GuestState) :
    stored ir rs address (stored ir (rs.take k) address s) = stored ir rs address s :=
  stored_congr (stored_regs ..) (stored_tFlag ..)
    fun _ hx => stored_memory_of_not_covers (fun h => hx (covers_of_take h)) _

def after (address : BitVec 32) (count : ℕ) : BitVec 32 := address + BitVec.ofNat 32 (4 * count)

theorem after_succ (address : BitVec 32) (count : ℕ) :
    after (address + 4#32) count = after address (count + 1) := by
  unfold after
  bv_omega

theorem run_loadRegisters (rs : List Reg) (address : BitVec 32) (s : GuestState) :
    (loadRegisters ir rs address).run s = (after address rs.length, loaded ir rs address s) := by
  induction rs generalizing address s with
  | nil => simp [loadRegisters, loaded, after]
  | cons r rs ih =>
      rw [loadRegisters, Program.run_bind, ih, after_succ]
      rfl

theorem committed_loadRegisters_bind {α : Type} (rs : List Reg) (address : BitVec 32)
    (next : BitVec 32 → IR α) (k : ℕ) (s : GuestState) :
    (loadRegisters ir rs address >>= next).committed k s =
      if k < rs.length then some (loaded ir (rs.take k) address s)
      else (next (after address rs.length)).committed (k - rs.length)
        (loaded ir rs address s) := by
  induction rs generalizing address k s with
  | nil => simp [loadRegisters, loaded, after, bind, pure, Program.bind]
  | cons r rs ih =>
      cases k with
      | zero => simp [loadRegisters, Program.bind_assoc, IREmitter.readMemory32, loaded]
      | succ k =>
          simp only [loadRegisters, Program.bind_assoc, IREmitter.readMemory32,
            Program.committed_access_bind_succ, IREmitter.setRegister,
            Program.committed_silent_bind, ih, after_succ, List.length_cons,
            Nat.add_lt_add_iff_right, Nat.add_sub_add_right, List.take_succ_cons]
          rfl

theorem run_storeRegisters {rs : List Reg} (hpc : Reg.pc ∉ rs) (address : BitVec 32)
    (s : GuestState) :
    (storeRegisters ir rs address).run s =
      (after address rs.length, stored ir rs address s) := by
  induction rs generalizing address s with
  | nil => simp [storeRegisters, stored, after]
  | cons r rs ih =>
      rw [List.mem_cons, not_or] at hpc
      rw [storeRegisters, Program.run_bind, ih hpc.2, after_succ]
      simp only [IREmitter.getRegister, if_neg (Ne.symm hpc.1)]
      rfl

theorem committed_storeRegisters_bind {α : Type} {rs : List Reg} (hpc : Reg.pc ∉ rs)
    (address : BitVec 32) (next : BitVec 32 → IR α) (k : ℕ) (s : GuestState) :
    (storeRegisters ir rs address >>= next).committed k s =
      if k < rs.length then some (stored ir (rs.take k) address s)
      else (next (after address rs.length)).committed (k - rs.length)
        (stored ir rs address s) := by
  induction rs generalizing address k s with
  | nil => simp [storeRegisters, stored, after, bind, pure, Program.bind]
  | cons r rs ih =>
      rw [List.mem_cons, not_or] at hpc
      have hr : ir.getRegister r = .silent fun s => (s.regs r, s) := if_neg (Ne.symm hpc.1)
      cases k with
      | zero => simp [storeRegisters, hr, Program.bind_assoc, IREmitter.writeMemory32, stored]
      | succ k =>
          simp only [storeRegisters, hr, Program.bind_assoc, IREmitter.writeMemory32,
            Program.committed_silent_bind, Program.committed_access_bind_succ, ih hpc.2,
            after_succ, List.length_cons, Nat.add_lt_add_iff_right, Nat.add_sub_add_right,
            List.take_succ_cons]
          rfl

end Loops

/-! ### The helpers as a whole -/

theorem pc_notMem_lowRegisters (list : BitVec 16) : Reg.pc ∉ lowRegisters list := by
  simp [lowRegisters, Reg.pc]

theorem mem_lowRegisters {list : BitVec 16} {r : Reg} (hr : r ≠ Reg.pc) :
    r ∈ lowRegisters list ↔ list.getLsbD r.val = true := by
  have hle : r.val ≤ 14 := by
    have hne : r.val ≠ 15 := fun h => hr (Fin.ext h)
    omega
  simp [lowRegisters, hle]

theorem nodup_lowRegisters (list : BitVec 16) : (lowRegisters list).Nodup :=
  (List.nodup_finRange 16).filter _

theorem countOnes_eq (list : BitVec 16) :
    countOnes list = (lowRegisters list).length + if list.getLsbD 15 then 1 else 0 := by
  have hrange : List.finRange 16 = (List.finRange 16).filter (·.val ≤ 14) ++ [15] := by decide
  have hlow : lowRegisters list =
      ((List.finRange 16).filter (·.val ≤ 14)).filter fun r => list.getLsbD r.val := by
    rw [List.filter_filter, lowRegisters]
    congr 1
    funext r
    rw [Bool.and_comm]
  rw [countOnes, hrange, List.countP_append, List.countP_eq_length_filter, ← hlow,
    List.countP_singleton]
  rfl

/-- A transfer of a list of registers: `first` and `change` are the offsets of the
first address and of the address written back from the base. -/
structure Transfer where
  load : Bool
  W : Bool
  n : Reg
  list : BitVec 16
  first : BitVec 32
  change : BitVec 32

namespace Transfer

variable (t : Transfer) (ir : IREmitter)

def moved (rs : List Reg) (address : BitVec 32) (s : GuestState) : GuestState :=
  if t.load then loaded ir rs address s else stored ir rs address s

/-- Whether the base is written back; a load into the base wins. -/
def writesBack : Bool := t.W && !(t.load && t.list.getLsbD t.n.val)

def beforePC (address writeback : BitVec 32) (s : GuestState) : GuestState :=
  if t.writesBack then (t.moved ir (lowRegisters t.list) address s).setReg t.n writeback
  else t.moved ir (lowRegisters t.list) address s

def movePC (address : BitVec 32) (s : GuestState) : Bool × GuestState :=
  if t.load then (false, ((ir.loadWritePC (ir.ordered (s.memory.readWord address))).run s).2)
  else (true, { s with memory := s.memory.writeWord address (ir.ordered ir.pc) })

def resultAt (address writeback : BitVec 32) (s : GuestState) : Bool × GuestState :=
  if t.list.getLsbD 15 then
    t.movePC ir (after address (lowRegisters t.list).length) (t.beforePC ir address writeback s)
  else (true, t.beforePC ir address writeback s)

def committedAt (address writeback : BitVec 32) (k : ℕ) (s : GuestState) : Option GuestState :=
  if k < (lowRegisters t.list).length then
    some (t.moved ir ((lowRegisters t.list).take k) address s)
  else if t.list.getLsbD 15 ∧ k = (lowRegisters t.list).length then
    some (t.beforePC ir address writeback s)
  else none

def result (s : GuestState) : Bool × GuestState :=
  t.resultAt ir (s.regs t.n + t.first) (s.regs t.n + t.change) s

def committed (k : ℕ) (s : GuestState) : Option GuestState :=
  t.committedAt ir (s.regs t.n + t.first) (s.regs t.n + t.change) k s

/-- The program does what the transfer says, with and without aborts. -/
def Describes (p : IR Bool) : Prop :=
  (∀ s, p.run s = t.result ir s) ∧ ∀ k s, p.committed k s = t.committed ir k s

def DescribesAt (address writeback : BitVec 32) (p : IR Bool) : Prop :=
  (∀ s, p.run s = t.resultAt ir address writeback s) ∧
    ∀ k s, p.committed k s = t.committedAt ir address writeback k s

theorem DescribesAt.of_eq {t : Transfer} {ir : IREmitter} {a a' w w' : BitVec 32} {p : IR Bool}
    (h : t.DescribesAt ir a w p) (ha : a = a') (hw : w = w') : t.DescribesAt ir a' w' p :=
  ha ▸ hw ▸ h

end Transfer

section Helpers

variable {ir : IREmitter} {W : Bool} {n : Reg} {list : BitVec 16}

def Transparent (p : IR Unit) : Prop :=
  ∀ (next : Unit → IR Bool) (s : GuestState), (p >>= next).run s = (next ()).run s ∧
    ∀ k, (p >>= next).committed k s = (next ()).committed k s

theorem transparent_pure : Transparent (pure ()) := fun _ _ => ⟨rfl, fun _ => rfl⟩

theorem transparent_updateUpperLocationDescriptor :
    Transparent IREmitter.updateUpperLocationDescriptor := fun _ _ => ⟨rfl, fun _ => rfl⟩

theorem committed_access_last {α : Type} (f : GuestState → α × GuestState)
    (next : α → IR Bool) (hnext : ∀ a k s, (next a).committed k s = none) (k : ℕ)
    (s : GuestState) :
    (Program.access f >>= next).committed k s = if k = 0 then some s else none := by
  cases k with
  | zero => rfl
  | succ k => rw [Program.committed_access_bind_succ, hnext, if_neg (Nat.succ_ne_zero k)]

theorem committed_loadWritePC_bind (v : BitVec 32) (k : ℕ) (s : GuestState) :
    (ir.loadWritePC v >>= fun _ => pure false).committed k s = none := by
  unfold IREmitter.loadWritePC
  split <;> rfl

theorem committed_writeMemory32_bind (address v : BitVec 32) (k : ℕ) (s : GuestState) :
    (ir.writeMemory32 address v >>= fun _ => pure true).committed k s =
      if k = 0 then some s else none :=
  committed_access_last _ _ (fun _ _ _ => rfl) k s

theorem describes_ldmHelper {before : IR Unit} (hbefore : Transparent before)
    (first change address writeback : BitVec 32) :
    Transfer.DescribesAt ⟨true, W, n, list, first, change⟩ ir address writeback
      (ldmHelper ir before W n list address writeback) := by
  refine ⟨fun s => ?_, fun k s => ?_⟩
  · simp only [ldmHelper, Program.run_bind, run_loadRegisters, Transfer.resultAt, Transfer.movePC,
      Transfer.beforePC, Transfer.moved, Transfer.writesBack, Bool.true_and]
    cases W && !list.getLsbD n.val <;> cases list.getLsbD 15 <;>
      simp [(hbefore _ _).1, IREmitter.setRegister, IREmitter.readMemory32]
  · simp only [ldmHelper, committed_loadRegisters_bind, Transfer.committedAt,
      Transfer.beforePC, Transfer.moved, Transfer.writesBack, Bool.true_and, ↓reduceIte]
    by_cases hk : k < (lowRegisters list).length
    · rw [if_pos hk, if_pos hk]
    rw [if_neg hk, if_neg hk]
    have hlast : k - (lowRegisters list).length = 0 ↔ k = (lowRegisters list).length := by omega
    cases W && !list.getLsbD n.val <;> cases list.getLsbD 15 <;>
      simp [(hbefore _ _).2, IREmitter.setRegister, IREmitter.readMemory32, Program.bind_assoc,
        committed_access_last, committed_loadWritePC_bind, hlast]

theorem describes_stmHelper (first change address writeback : BitVec 32) :
    Transfer.DescribesAt ⟨false, W, n, list, first, change⟩ ir address writeback
      (stmHelper ir W n list address writeback) := by
  have hpc := pc_notMem_lowRegisters list
  refine ⟨fun s => ?_, fun k s => ?_⟩
  · simp only [stmHelper, stmHelperLow, Program.run_bind, run_storeRegisters hpc,
      Transfer.resultAt, Transfer.movePC, Transfer.beforePC, Transfer.moved, Transfer.writesBack]
    cases W <;> cases list.getLsbD 15 <;>
      simp [IREmitter.setRegister, IREmitter.writeMemory32]
  · simp only [stmHelper, stmHelperLow, Program.bind_assoc, committed_storeRegisters_bind hpc,
      Transfer.committedAt, Transfer.beforePC, Transfer.moved, Transfer.writesBack]
    by_cases hk : k < (lowRegisters list).length
    · rw [if_pos hk, if_pos hk]
      rfl
    rw [if_neg hk, if_neg hk]
    have hlast : k - (lowRegisters list).length = 0 ↔ k = (lowRegisters list).length := by omega
    cases W <;> cases list.getLsbD 15 <;>
      simp [IREmitter.setRegister, committed_writeMemory32_bind, Program.bind_assoc, hlast]

theorem describes_stmHelperLow {list : BitVec 15} (first change address writeback : BitVec 32) :
    Transfer.DescribesAt ⟨false, W, n, list.setWidth 16, first, change⟩ ir address writeback
      (stmHelperLow ir W n (list.setWidth 16) address writeback >>= fun _ => pure true) := by
  have h : Transfer.DescribesAt ⟨false, W, n, list.setWidth 16, first, change⟩ ir address writeback
      (stmHelper ir W n (list.setWidth 16) address writeback) := describes_stmHelper ..
  have hpc : (list.setWidth 16).getLsbD 15 = false := by simp
  simpa only [stmHelper, hpc, Bool.false_eq_true, ↓reduceIte, Program.pure_bind] using h

end Helpers

namespace Transfer

variable {t : Transfer} {ir : IREmitter}

theorem describes_getRegister (hn : t.n ≠ Reg.pc) {q : BitVec 32 → IR Bool}
    (h : ∀ b, t.DescribesAt ir (b + t.first) (b + t.change) (q b)) :
    t.Describes ir (ir.getRegister t.n >>= q) := by
  have hget : ir.getRegister t.n = .silent fun s => (s.regs t.n, s) := if_neg hn
  rw [hget]
  exact ⟨fun s => (h (s.regs t.n)).1 s, fun k s => (h (s.regs t.n)).2 k s⟩

/-- Reading the base a second time makes no difference. -/
theorem Describes.getRegister_again (hn : t.n ≠ Reg.pc) {q : BitVec 32 → BitVec 32 → IR Bool}
    (h : t.Describes ir (ir.getRegister t.n >>= fun a => q a a)) :
    t.Describes ir (ir.getRegister t.n >>= fun a => ir.getRegister t.n >>= q a) := by
  rw [IREmitter.getRegister, if_neg hn] at h ⊢
  exact ⟨h.1, h.2⟩

structure Valid (t : Transfer) : Prop where
  base_ne_pc : t.n ≠ Reg.pc
  change_ne_zero : t.change ≠ 0#32
  not_both : t.load = true → t.W = true → t.list.getLsbD t.n.val = false

/-- No access is made after the instruction has changed the base: the access is not
the word of the program counter of a transfer with writeback, and not behind the
word that a load puts into the base. -/
def Safe (t : Transfer) (k : ℕ) : Prop :=
  ¬(t.W = true ∧ t.list.getLsbD 15 = true ∧ k + 1 = countOnes t.list) ∧
    ¬(t.load = true ∧ t.list.getLsbD t.n.val = true ∧ (lowRegisters t.list).idxOf t.n < k)

theorem moved_moved_take (rs : List Reg) (k : ℕ) (address : BitVec 32) (s : GuestState) :
    t.moved ir rs address (t.moved ir (rs.take k) address s) = t.moved ir rs address s := by
  unfold moved
  split
  · exact loaded_loaded_take ..
  · exact stored_stored_take ..

theorem moved_regs {rs : List Reg} {r : Reg} (hr : t.load = true → r ∉ rs) (address : BitVec 32)
    (s : GuestState) : (t.moved ir rs address s).regs r = s.regs r := by
  unfold moved
  split
  · rename_i hload
    exact loaded_regs_of_notMem (hr hload) ..
  · rw [stored_regs]

theorem moved_tFlag (rs : List Reg) (address : BitVec 32) (s : GuestState) :
    (t.moved ir rs address s).tFlag = s.tFlag := by
  unfold moved
  split
  · exact loaded_tFlag ..
  · exact stored_tFlag ..

theorem memoryAbort_of_at {s : GuestState} (h : s.At ir) : ir.memoryAbort s = s := by
  cases s
  obtain ⟨hpc, hflag⟩ := h
  simp only [IREmitter.memoryAbort, GuestState.setReg, GuestState.mk.injEq, and_true]
  exact ⟨Function.update_eq_self_iff.2 hpc.symm, hflag.symm⟩

theorem at_moved {rs : List Reg} {s : GuestState} (h : s.At ir) (hpc : Reg.pc ∉ rs)
    (address : BitVec 32) : (t.moved ir rs address s).At ir :=
  ⟨(moved_regs (fun _ => hpc) ..).trans h.1, (moved_tFlag ..).trans h.2⟩

/-- What is committed at an access, once the writeback before the program counter
is out of the way. -/
theorem committed_eq {k : ℕ} {s : GuestState} (hk : k < countOnes t.list)
    (hback : t.writesBack = true → t.list.getLsbD 15 = true → k + 1 ≠ countOnes t.list) :
    t.committed ir k s =
      some (t.moved ir ((lowRegisters t.list).take k) (s.regs t.n + t.first) s) := by
  rw [committed, committedAt]
  rw [countOnes_eq] at hk hback
  by_cases hlow : k < (lowRegisters t.list).length
  · rw [if_pos hlow]
  · have hpc : t.list.getLsbD 15 = true := by
      by_contra hpc
      rw [if_neg hpc] at hk
      exact hlow hk
    rw [if_pos hpc] at hk hback
    have hlast : k = (lowRegisters t.list).length := by omega
    rw [if_neg hlow, if_pos ⟨hpc, hlast⟩, beforePC, if_neg, hlast, List.take_length]
    exact fun h => hback h hpc (by rw [hlast])

theorem restart_eq_of_safe (hvalid : t.Valid) {k : ℕ} (hsafe : t.Safe k) {s u : GuestState}
    (hat : s.At ir) (hk : k < countOnes t.list) (hu : t.committed ir k s = some u) :
    t.result ir (ir.memoryAbort u) = t.result ir s := by
  obtain ⟨hback, hbase⟩ := hsafe
  have hwrites : t.writesBack = true → t.W = true := fun h => (Bool.and_eq_true_iff.1 h).1
  rw [committed_eq hk fun h hpc heq => hback ⟨hwrites h, hpc, heq⟩, Option.some_inj] at hu
  subst hu
  have hpc : Reg.pc ∉ (lowRegisters t.list).take k :=
    fun h => pc_notMem_lowRegisters _ (List.mem_of_mem_take h)
  rw [memoryAbort_of_at (at_moved hat hpc _)]
  -- the base is as it was, so the second execution moves the same words
  have hn : (t.moved ir ((lowRegisters t.list).take k) (s.regs t.n + t.first) s).regs t.n =
      s.regs t.n := by
    refine moved_regs (fun hload hmem => ?_) _ _
    have hlow := List.mem_of_mem_take hmem
    exact hbase ⟨hload, (mem_lowRegisters hvalid.base_ne_pc).1 hlow,
      (List.mem_take_iff_idxOf_lt hlow).1 hmem⟩
  simp only [result, resultAt, beforePC, hn, moved_moved_take]

theorem leave_resultAt_regs {r : Reg} (hr : r ≠ Reg.pc) (address writeback : BitVec 32)
    (s : GuestState) :
    (ir.leave (t.resultAt ir address writeback s)).regs r =
      (t.beforePC ir address writeback s).regs r := by
  unfold resultAt movePC IREmitter.leave IREmitter.loadWritePC
  split_ifs <;>
    simp [IREmitter.bxWritePC, IREmitter.branchWritePC, IREmitter.setRegister,
      Function.update_of_ne hr] at *

def start (ir : IREmitter) (memory : GuestMemory) : GuestState where
  regs r := if r = Reg.pc then ir.currentLocation.pc else 0#32
  tFlag := ir.currentLocation.tFlag
  memory := memory

theorem at_start (ir : IREmitter) (memory : GuestMemory) : (start ir memory).At ir :=
  ⟨rfl, rfl⟩

theorem start_regs {r : Reg} (hr : r ≠ Reg.pc) (memory : GuestMemory) :
    (start ir memory).regs r = 0#32 := if_neg hr

/-- Executing again after the writeback moves the base a second time. -/
theorem restart_ne_of_writeback (hvalid : t.Valid) (hW : t.W = true)
    (hpc : t.list.getLsbD 15 = true) {k : ℕ} (hk : k + 1 = countOnes t.list) {s : GuestState}
    (hat : s.At ir) :
    ∃ u, t.committed ir k s = some u ∧
      ir.leave (t.result ir (ir.memoryAbort u)) ≠ ir.leave (t.result ir s) := by
  have hn := hvalid.base_ne_pc
  have hback : t.writesBack = true := by
    cases hload : t.load with
    | false => rw [writesBack, hW, hload]; rfl
    | true => rw [writesBack, hW, hload, hvalid.not_both hload hW]; rfl
  have hlast : k = (lowRegisters t.list).length := by
    rw [countOnes_eq, if_pos hpc] at hk
    omega
  have hbefore (address writeback : BitVec 32) (s : GuestState) :
      t.beforePC ir address writeback s =
        (t.moved ir (lowRegisters t.list) address s).setReg t.n writeback := if_pos hback
  refine ⟨t.beforePC ir (s.regs t.n + t.first) (s.regs t.n + t.change) s, ?_, fun heq => ?_⟩
  · rw [committed, committedAt, if_neg (by omega), if_pos ⟨hpc, hlast⟩]
  · have hmoved := at_moved (t := t) hat (pc_notMem_lowRegisters t.list) (s.regs t.n + t.first)
    have hat' : (t.beforePC ir (s.regs t.n + t.first) (s.regs t.n + t.change) s).At ir := by
      rw [hbefore]
      exact ⟨(Function.update_of_ne (Ne.symm hn) _ _).trans hmoved.1, hmoved.2⟩
    rw [memoryAbort_of_at hat'] at heq
    have hregs := congrArg (fun u : GuestState => u.regs t.n) heq
    simp only [result, leave_resultAt_regs hn, hbefore, GuestState.setReg_regs,
      Function.update_self] at hregs
    exact hvalid.change_ne_zero (by bv_omega)

def oneWord (ir : IREmitter) (address : BitVec 32) : GuestMemory := fun x =>
  if x = address + (if ir.currentLocation.eFlag then 3#32 else 0#32) then 64#8 else 0#8

theorem oneWord_self (address : BitVec 32) :
    ir.ordered ((oneWord ir address).readWord address) = 64#32 := by
  unfold IREmitter.ordered GuestMemory.readWord oneWord
  cases ir.currentLocation.eFlag <;> simp [IREmitter.byteReverseWord]

theorem oneWord_far (address : BitVec 32) :
    ir.ordered ((oneWord ir address).readWord (address + 64#32)) = 0#32 := by
  unfold IREmitter.ordered GuestMemory.readWord oneWord
  cases ir.currentLocation.eFlag <;> simp [IREmitter.byteReverseWord, BitVec.add_assoc]

/-- Executing again after the base has been loaded reads the words elsewhere. -/
theorem restart_ne_of_base_loaded (hvalid : t.Valid) (hload : t.load = true)
    (hlist : t.list.getLsbD t.n.val = true) {k : ℕ} (hidx : (lowRegisters t.list).idxOf t.n < k)
    (hk : k < countOnes t.list) :
    ∃ s u, s.At ir ∧ t.committed ir k s = some u ∧
      ir.leave (t.result ir (ir.memoryAbort u)) ≠ ir.leave (t.result ir s) := by
  have hn := hvalid.base_ne_pc
  obtain ⟨rs, hrs⟩ : ∃ rs, rs = lowRegisters t.list := ⟨_, rfl⟩
  obtain ⟨slot, hslot⟩ : ∃ slot, slot = t.first + BitVec.ofNat 32 (4 * rs.idxOf t.n) := ⟨_, rfl⟩
  have hmem : t.n ∈ rs := hrs ▸ (mem_lowRegisters hn).2 hlist
  have hback : t.writesBack = false := by simp [writesBack, hload, hlist]
  have hnodup : rs.Nodup := hrs ▸ nodup_lowRegisters t.list
  have hfinal (s : GuestState) (hs : s.memory = oneWord ir slot) :
      (ir.leave (t.result ir s)).regs t.n =
        ir.ordered ((oneWord ir slot).readWord (s.regs t.n + slot)) := by
    rw [result, leave_resultAt_regs hn, beforePC, if_neg (by simp [hback]), moved, if_pos hload,
      ← hrs, loaded_regs_of_mem hmem hnodup, hs, hslot, BitVec.add_assoc]
  refine ⟨start ir (oneWord ir slot), _, at_start .., committed_eq hk fun h => ?_, fun heq => ?_⟩
  · rw [hback] at h
    cases h
  rw [memoryAbort_of_at (at_moved (at_start ..)
    (fun h => pc_notMem_lowRegisters _ (List.mem_of_mem_take h)) _)] at heq
  have hregs := congrArg (fun u : GuestState => u.regs t.n) heq
  simp only [moved, if_pos hload, ← hrs] at hregs
  have htake : t.n ∈ rs.take k := (List.mem_take_iff_idxOf_lt hmem).2 (hrs ▸ hidx)
  have hloaded : (loaded ir (rs.take k) ((start ir (oneWord ir slot)).regs t.n + t.first)
      (start ir (oneWord ir slot))).regs t.n = 64#32 := by
    rw [loaded_regs_of_mem htake (hnodup.sublist (List.take_sublist ..)),
      (List.take_prefix k rs).idxOf_eq_of_mem htake, start_regs hn, BitVec.zero_add, ← hslot]
    exact oneWord_self slot
  rw [hfinal _ (loaded_memory ..), hfinal _ rfl, hloaded, start_regs hn, BitVec.zero_add,
    oneWord_self, BitVec.add_comm, oneWord_far] at hregs
  exact absurd hregs (by decide)

end Transfer

/-! ### The instructions -/

theorem countOnes_le (list : BitVec 16) : countOnes list ≤ 16 :=
  List.countP_le_length.trans (by simp)

theorem listSize_ne_zero {list : BitVec 16} (h : 1 ≤ countOnes list) : listSize list ≠ 0#32 := by
  have hle := countOnes_le list
  intro heq
  have hnat := congrArg BitVec.toNat heq
  rw [listSize, BitVec.toNat_ofNat, Nat.mod_eq_of_lt (by omega), BitVec.toNat_ofNat] at hnat
  omega

namespace Multiple

def testsCondition : Multiple → Bool
  | armLDM .. | armLDMDA .. | armLDMDB .. | armLDMIB .. => true
  | armSTM .. | armSTMDA .. | armSTMDB .. | armSTMIB .. => true
  | thumb32LDMDB .. | thumb32LDMIA .. | thumb32STMIA .. | thumb32STMDB .. => false

def transfer : Multiple → Transfer
  | armLDM W n list => ⟨true, W, n, list, 0#32, listSize list⟩
  | armLDMDA W n list => ⟨true, W, n, list, -(listSize list - 4#32), -listSize list⟩
  | armLDMDB W n list => ⟨true, W, n, list, -listSize list, -listSize list⟩
  | armLDMIB W n list => ⟨true, W, n, list, 4#32, listSize list⟩
  | armSTM W n list => ⟨false, W, n, list, 0#32, listSize list⟩
  | armSTMDA W n list => ⟨false, W, n, list, -(listSize list - 4#32), -listSize list⟩
  | armSTMDB W n list => ⟨false, W, n, list, -listSize list, -listSize list⟩
  | armSTMIB W n list => ⟨false, W, n, list, 4#32, listSize list⟩
  | thumb32LDMDB W n list => ⟨true, W, n, list, -listSize list, -listSize list⟩
  | thumb32LDMIA W n list => ⟨true, W, n, list, 0#32, listSize list⟩
  | thumb32STMIA W n list =>
      ⟨false, W, n, list.setWidth 16, 0#32, listSize (list.setWidth 16)⟩
  | thumb32STMDB W n list =>
      ⟨false, W, n, list.setWidth 16, -listSize (list.setWidth 16), -listSize (list.setWidth 16)⟩

variable {i : Multiple} {ir : IREmitter}

def Emits (i : Multiple) (ir : IREmitter) (p : IR Bool) : Prop :=
  i.transfer.Valid ∧
    if i.testsCondition = true ∧ ir.passed = false then p = pure true
    else i.transfer.Describes ir p

end Multiple

section Checks

variable {ir : IREmitter} {W : Bool} {n : Reg} {list : BitVec 16} {body p : IR Bool}

theorem armLoad_eq_some (h : armLoad ir W n list body = some p) :
    n ≠ Reg.pc ∧ 1 ≤ countOnes list ∧ (W = true → list.getLsbD n.val = false) ∧
      p = if ir.passed then body else pure true := by
  unfold armLoad at h
  split_ifs at h with h1 h2 h3
  all_goals
    rw [not_or, not_lt] at h1
    rw [not_and, Bool.not_eq_true] at h2
    cases hpassed : ir.passed <;> simp_all

theorem armStore_eq_some (h : armStore ir n list body = some p) :
    n ≠ Reg.pc ∧ 1 ≤ countOnes list ∧ p = if ir.passed then body else pure true := by
  unfold armStore at h
  split_ifs at h with h1 h2
  all_goals
    rw [not_or, not_lt] at h1
    cases hpassed : ir.passed <;> simp_all

theorem thumbLoad_eq_some (h : thumbLoad ir W n list body = some p) :
    n ≠ Reg.pc ∧ 1 ≤ countOnes list ∧ (W = true → list.getLsbD n.val = false) ∧ p = body := by
  unfold thumbLoad at h
  split_ifs at h with h1 h2 h3 h4 h5
  rw [not_or, not_lt] at h1
  rw [not_and, Bool.not_eq_true] at h3
  exact ⟨h1.1, by omega, h3, (Option.some_inj.1 h).symm⟩

theorem thumbStore_eq_some (h : thumbStore W n list body = some p) :
    n ≠ Reg.pc ∧ 1 ≤ countOnes list ∧ p = body := by
  unfold thumbStore at h
  split_ifs at h with h1 h2 h3
  rw [not_or, not_lt] at h1
  exact ⟨h1.1, by omega, (Option.some_inj.1 h).symm⟩

end Checks

namespace Multiple

variable {i : Multiple} {ir : IREmitter} {p body : IR Bool}

theorem emits_of_condition (hvalid : i.transfer.Valid) (htests : i.testsCondition = true)
    (hp : p = if ir.passed then body else pure true)
    (hbody : i.transfer.Describes ir body) : i.Emits ir p := by
  subst hp
  refine ⟨hvalid, ?_⟩
  cases hpassed : ir.passed with
  | false => simp [htests]
  | true => simpa using hbody

theorem emits_of_always (hvalid : i.transfer.Valid) (htests : i.testsCondition = false)
    (hbody : i.transfer.Describes ir body) : i.Emits ir body :=
  ⟨hvalid, by simpa [htests] using hbody⟩

def Steps (t : Transfer) : Prop := t.change = listSize t.list ∨ t.change = -listSize t.list

theorem Steps.change_ne_zero {t : Transfer} (h : Steps t) (hcount : 1 ≤ countOnes t.list) :
    t.change ≠ 0#32 := by
  have hsize := listSize_ne_zero hcount
  rcases h with h | h
  · exact h ▸ hsize
  · exact h ▸ fun heq => hsize (BitVec.neg_eq_zero_iff.1 heq)

theorem emits_armLoad (htests : i.testsCondition = true) (hsteps : Steps i.transfer)
    (h : armLoad ir i.transfer.W i.transfer.n i.transfer.list body = some p)
    (hbody : i.transfer.n ≠ Reg.pc → i.transfer.Describes ir body) : i.Emits ir p := by
  obtain ⟨hn, hcount, hboth, hp⟩ := armLoad_eq_some h
  exact emits_of_condition ⟨hn, hsteps.change_ne_zero hcount, fun _ => hboth⟩ htests hp (hbody hn)

theorem emits_armStore (hload : i.transfer.load = false) (htests : i.testsCondition = true)
    (hsteps : Steps i.transfer) (h : armStore ir i.transfer.n i.transfer.list body = some p)
    (hbody : i.transfer.n ≠ Reg.pc → i.transfer.Describes ir body) : i.Emits ir p := by
  obtain ⟨hn, hcount, hp⟩ := armStore_eq_some h
  refine emits_of_condition ⟨hn, hsteps.change_ne_zero hcount, ?_⟩ htests hp (hbody hn)
  exact fun h => absurd h (hload ▸ Bool.false_ne_true)

theorem emits_thumbLoad (htests : i.testsCondition = false) (hsteps : Steps i.transfer)
    (h : thumbLoad ir i.transfer.W i.transfer.n i.transfer.list body = some p)
    (hbody : i.transfer.n ≠ Reg.pc → i.transfer.Describes ir body) : i.Emits ir p := by
  obtain ⟨hn, hcount, hboth, rfl⟩ := thumbLoad_eq_some h
  exact emits_of_always ⟨hn, hsteps.change_ne_zero hcount, fun _ => hboth⟩ htests (hbody hn)

theorem emits_thumbStore (hload : i.transfer.load = false) (htests : i.testsCondition = false)
    (hsteps : Steps i.transfer)
    (h : thumbStore i.transfer.W i.transfer.n i.transfer.list body = some p)
    (hbody : i.transfer.n ≠ Reg.pc → i.transfer.Describes ir body) : i.Emits ir p := by
  obtain ⟨hn, hcount, rfl⟩ := thumbStore_eq_some h
  refine emits_of_always ⟨hn, hsteps.change_ne_zero hcount, ?_⟩ htests (hbody hn)
  exact fun h => absurd h (hload ▸ Bool.false_ne_true)

/-- The addresses of the addressing modes that count down from the base. -/
theorem sub_size_eq (b size : BitVec 32) : b - (size - 4#32) - 4#32 = b + -size := by
  bv_omega

/-- What every handler emits is the transfer of its instruction. -/
theorem emits_of_translate (h : i.translate ir = some p) : i.Emits ir p := by
  cases i with
  | armLDM W n list =>
      exact emits_armLoad rfl (.inl rfl) h fun hn => Transfer.describes_getRegister hn fun b =>
        (describes_ldmHelper transparent_pure ..).of_eq (BitVec.add_zero b).symm rfl
  | armLDMDA W n list =>
      exact emits_armLoad rfl (.inr rfl) h fun hn => Transfer.describes_getRegister hn fun b =>
        (describes_ldmHelper transparent_pure ..).of_eq (BitVec.sub_eq_add_neg ..)
          (sub_size_eq ..)
  | armLDMDB W n list =>
      exact emits_armLoad rfl (.inr rfl) h fun hn => Transfer.describes_getRegister hn fun b =>
        (describes_ldmHelper transparent_pure ..).of_eq (BitVec.sub_eq_add_neg ..)
          (BitVec.sub_eq_add_neg ..)
  | armLDMIB W n list =>
      exact emits_armLoad rfl (.inl rfl) h fun hn =>
        Transfer.Describes.getRegister_again hn <| Transfer.describes_getRegister hn fun _ =>
          describes_ldmHelper transparent_pure ..
  | armSTM W n list =>
      exact emits_armStore rfl rfl (.inl rfl) h fun hn =>
        Transfer.describes_getRegister hn fun b =>
          (describes_stmHelper ..).of_eq (BitVec.add_zero b).symm rfl
  | armSTMDA W n list =>
      exact emits_armStore rfl rfl (.inr rfl) h fun hn =>
        Transfer.describes_getRegister hn fun b =>
          (describes_stmHelper ..).of_eq (BitVec.sub_eq_add_neg ..) (sub_size_eq ..)
  | armSTMDB W n list =>
      exact emits_armStore rfl rfl (.inr rfl) h fun hn =>
        Transfer.describes_getRegister hn fun b =>
          (describes_stmHelper ..).of_eq (BitVec.sub_eq_add_neg ..) (BitVec.sub_eq_add_neg ..)
  | armSTMIB W n list =>
      exact emits_armStore rfl rfl (.inl rfl) h fun hn =>
        Transfer.Describes.getRegister_again hn <| Transfer.describes_getRegister hn fun _ =>
          describes_stmHelper ..
  | thumb32LDMDB W n list =>
      exact emits_thumbLoad rfl (.inr rfl) h fun hn => Transfer.describes_getRegister hn fun b =>
        (describes_ldmHelper transparent_updateUpperLocationDescriptor ..).of_eq
          (BitVec.sub_eq_add_neg ..) (BitVec.sub_eq_add_neg ..)
  | thumb32LDMIA W n list =>
      exact emits_thumbLoad rfl (.inl rfl) h fun hn => Transfer.describes_getRegister hn fun b =>
        (describes_ldmHelper transparent_updateUpperLocationDescriptor ..).of_eq
          (BitVec.add_zero b).symm rfl
  | thumb32STMIA W n list =>
      exact emits_thumbStore rfl rfl (.inl rfl) h fun hn =>
        Transfer.describes_getRegister hn fun b =>
          (describes_stmHelperLow ..).of_eq (BitVec.add_zero b).symm rfl
  | thumb32STMDB W n list =>
      exact emits_thumbStore rfl rfl (.inr rfl) h fun hn =>
        Transfer.describes_getRegister hn fun b =>
          (describes_stmHelperLow ..).of_eq (BitVec.sub_eq_add_neg ..) (BitVec.sub_eq_add_neg ..)

/-- The handler accepts the instruction, its condition passes, and it makes the
access number `k`. -/
def Makes (i : Multiple) (ir : IREmitter) (k : ℕ) : Prop :=
  (i.translate ir).isSome ∧ (i.testsCondition = true → ir.passed = true) ∧
    k < countOnes i.transfer.list

theorem committed_none {t : Transfer} {k : ℕ} {s : GuestState} (hk : countOnes t.list ≤ k) :
    t.committed ir k s = none := by
  rw [countOnes_eq] at hk
  rw [Transfer.committed, Transfer.committedAt, if_neg (by omega), if_neg]
  rintro ⟨hpc, rfl⟩
  rw [if_pos hpc] at hk
  omega

/-- Executing the instruction again after an abort of access `k` does what the first execution would
have done, from every state at the instruction, exactly if it does not make that access or has not
changed its base before it. -/
theorem restarts_iff (i : Multiple) (ir : IREmitter) (k : ℕ) :
    (∀ s : GuestState, s.At ir → i.Restarts ir k s) ↔ (i.Makes ir k → i.transfer.Safe k) := by
  cases hp : i.translate ir with
  | none => simp [Restarts, aborted, Makes, hp]
  | some p =>
      obtain ⟨hvalid, hemits⟩ := emits_of_translate hp
      have hrestarts (s : GuestState) : i.Restarts ir k s ↔ ∀ u, p.committed k s = some u →
          ir.leave (p.run (ir.memoryAbort u)) = ir.leave (p.run s) := by
        simp [Restarts, aborted, execute, hp]
      simp only [hrestarts]
      split_ifs at hemits with hskip
      · subst hemits
        have hmakes : ¬i.Makes ir k := fun h => by
          have := h.2.1 hskip.1
          rw [hskip.2] at this
          cases this
        simp [hmakes]
      obtain ⟨hrun, hcommitted⟩ := hemits
      simp only [hrun, hcommitted]
      constructor
      · intro hall hmakes
        obtain ⟨-, -, hk⟩ := hmakes
        refine ⟨fun ⟨hW, hpc, hlast⟩ => ?_, fun ⟨hload, hlist, hidx⟩ => ?_⟩
        · obtain ⟨u, hu, hne⟩ := Transfer.restart_ne_of_writeback hvalid hW hpc hlast
            (Transfer.at_start ir fun _ => 0#8)
          exact hne (hall _ (Transfer.at_start ..) u hu)
        · obtain ⟨s, u, hat, hu, hne⟩ :=
            @Transfer.restart_ne_of_base_loaded _ ir hvalid hload hlist k hidx hk
          exact hne (hall s hat u hu)
      · intro hsafe s hat u hu
        have hk : k < countOnes i.transfer.list := by
          by_contra hk
          rw [committed_none (not_lt.1 hk)] at hu
          cases hu
        have hmakes : i.Makes ir k := by
          refine ⟨hp ▸ rfl, fun htests => ?_, hk⟩
          by_contra hpassed
          exact hskip ⟨htests, Bool.not_eq_true _ ▸ hpassed⟩
        rw [Transfer.restart_eq_of_safe hvalid (hsafe hmakes) hat hk hu]

end Multiple

namespace Sample

def thumbEmitter : IREmitter where
  currentLocation := ⟨0x8000#32, true, false, ⟨0#8⟩, 0#32, false⟩
  arch := .v7
  passed := true

def popPC : Multiple := .thumb32LDMIA true Reg.sp 0x8001#16

def stackState : GuestState where
  regs r := if r = Reg.sp then 0x1000#32 else if r = Reg.pc then 0x8000#32 else 0#32
  tFlag := true
  memory _ := 0#8

end Sample

open Sample in
/-- When the access to the program counter's word aborts, the stack pointer has been
written back already, and the `POP` executed again pops the words after it. -/
theorem popPC_pops_twice :
    stackState.At thumbEmitter ∧ ¬popPC.Restarts thumbEmitter 1 stackState ∧
      (popPC.execute thumbEmitter stackState).map (·.regs Reg.sp) = some 0x1008#32 ∧
      ((popPC.aborted thumbEmitter 1 stackState).bind (popPC.execute thumbEmitter)).map
        (·.regs Reg.sp) = some 0x1010#32 := by
  have hexecute : (popPC.execute thumbEmitter stackState).map (·.regs Reg.sp) =
      some 0x1008#32 := by decide +kernel
  have hagain : ((popPC.aborted thumbEmitter 1 stackState).bind
      (popPC.execute thumbEmitter)).map (·.regs Reg.sp) = some 0x1010#32 := by decide +kernel
  refine ⟨⟨rfl, rfl⟩, fun h => ?_, hexecute, hagain⟩
  cases ht : popPC.aborted thumbEmitter 1 stackState with
  | none =>
      rw [ht] at hagain
      cases hagain
  | some t =>
      rw [ht, Option.bind_some, h t ht, hexecute] at hagain
      exact absurd hagain (by decide)

end Umbra.A32
