import Umbra.IR.Value
import Umbra.Lib.ByteMemory
import Umbra.Lib.StraightLine

/-!
`A64CallbackConfigPass`, and what is left of DC ZVA after it.

The translator turns every data cache instruction into one opcode that raises the
operation.  Where the operations are not hooked, the pass drops the opcode, and
for DC ZVA it writes zeros in front of it: sixteen bytes at a time, then eight,
then four, from the address in the register on.
-/

namespace Umbra.A64.CallbackConfig

open Umbra.IR Umbra.Lib Umbra.Lib.StraightLine

inductive DataCacheOperation
  | cleanAndInvalidateBySetWay
  | cleanAndInvalidateByVAToPoC
  | cleanBySetWay
  | cleanByVAToPoC
  | cleanByVAToPoU
  | cleanByVAToPoP
  | invalidateBySetWay
  | invalidateByVAToPoC
  | zeroByVA
deriving DecidableEq

def DataCacheOperation.code : DataCacheOperation → BitVec 64
  | cleanAndInvalidateBySetWay => 0
  | cleanAndInvalidateByVAToPoC => 1
  | cleanBySetWay => 2
  | cleanByVAToPoC => 3
  | cleanByVAToPoU => 4
  | cleanByVAToPoP => 5
  | invalidateBySetWay => 6
  | invalidateByVAToPoC => 7
  | zeroByVA => 8

inductive WriteSize
  | w32 | w64 | w128
deriving DecidableEq

namespace WriteSize

def bytes : WriteSize → ℕ
  | w32 => 4
  | w64 => 8
  | w128 => 16

theorem bytes_pos (n : WriteSize) : 0 < n.bytes := by
  cases n <;> decide

def bytesOfVal (n : WriteSize) (v : Val) : List (BitVec 8) :=
  match n with
  | w32 => bytesOf 4 (v.as .u32)
  | w64 => bytesOf 8 (v.as .u64)
  | w128 => bytesOf 16 (v.as .u128)

end WriteSize

/-- The opcodes that are emitted here; `X` are the others.  The writes have the access
type DCZVA.  A register that the IR has as an immediate operand is part of the
opcode here. -/
inductive Opcode (X : Type)
  | getX (r : Fin 31)
  | add64
  | zeroExtendLongToQuad
  | writeMemory (n : WriteSize)
  | dataCacheOperationRaised
  | other (x : X)

abbrev Inst (X : Type) := Instr (Opcode X) Val

structure UserConfig where
  hookDataCacheOperations : Bool
  dczidEl0 : BitVec 32

/-- `4 << (dczid_el0 & 0b1111)`. -/
def UserConfig.blockBytes (conf : UserConfig) : ℕ := 4 <<< (conf.dczidEl0 &&& 0b1111#32).toNat

structure Emission (X : Type) where
  code : List (Inst X)
  next : ℕ

namespace Emission

variable {X : Type}

def inst (e : Emission X) (op : Opcode X) (args : List (Operand Val)) : Emission X :=
  ⟨e.code ++ [⟨e.next, .op op, args⟩], e.next + 1⟩

def keep (e : Emission X) (i : Inst X) : Emission X := { e with code := e.code ++ [i] }

end Emission

def imm64 (v : BitVec 64) : Operand Val := .const ⟨.u64, v⟩

/-- `Value::GetU64`, which asserts that the value is an immediate. -/
def getU64 : Operand Val → Option (BitVec 64)
  | .const ⟨.u64, v⟩ => some v
  | _ => none

/-! ### The translation -/

section Translation

variable {X : Type}

/-- `IREmitter::GetX`; the register 31 is the zero register. -/
def getXOf (e : Emission X) (Rt : Fin 32) : Emission X × Operand Val :=
  if h : Rt.val < 31 then (e.inst (.getX ⟨Rt.val, h⟩) [], .result e.next) else (e, imm64 0#64)

def dataCacheInstruction (e : Emission X) (location : BitVec 64) (op : DataCacheOperation)
    (Rt : Fin 32) : Emission X :=
  let (e, value) := getXOf e Rt
  e.inst .dataCacheOperationRaised [imm64 location, imm64 op.code, value]

def dcZVA (e : Emission X) (location : BitVec 64) (Rt : Fin 32) : Emission X :=
  dataCacheInstruction e location .zeroByVA Rt

end Translation

/-! ### The pass -/

section Pass

variable {X : Type}

/-- One of the loops `while (bytes >= n)`: what is emitted, the address behind the
last write, and the bytes left. -/
def emitWrites (location : BitVec 64) (n : WriteSize) (zero : Operand Val) (e : Emission X)
    (addr : Operand Val) (bytes : ℕ) : Emission X × Operand Val × ℕ :=
  if n.bytes ≤ bytes then
    let e := e.inst (.writeMemory n) [imm64 location, addr, zero]
    emitWrites location n zero
      (e.inst .add64 [addr, imm64 (BitVec.ofNat 64 n.bytes), .const ⟨.u1, false⟩])
      (.result e.next) (bytes - n.bytes)
  else (e, addr, bytes)
termination_by bytes
decreasing_by
  have := n.bytes_pos
  omega

def emitZeros (location : BitVec 64) (addr : Operand Val) (bytes : ℕ) (e : Emission X) :
    Emission X :=
  let zero := .result e.next
  let e := e.inst .zeroExtendLongToQuad [imm64 0#64]
  let (e, addr, bytes) := emitWrites location .w128 zero e addr bytes
  let (e, addr, bytes) := emitWrites location .w64 (imm64 0#64) e addr bytes
  (emitWrites location .w32 (.const ⟨.u32, 0#32⟩) e addr bytes).1

/-- The pass at one instruction; `none` is a failed assertion. -/
def visit (conf : UserConfig) (e : Emission X) (i : Inst X) : Option (Emission X) :=
  match i.code with
  | .op .dataCacheOperationRaised => do
      let op ← i.args[1]?.bind getU64
      if op = DataCacheOperation.zeroByVA.code then
        let location ← i.args[0]?.bind getU64
        let addr ← i.args[2]?
        pure ((emitZeros location addr conf.blockBytes e).keep i.invalidate)
      else
        pure (e.keep i.invalidate)
  | _ => pure (e.keep i)

def freshId (block : List (Inst X)) : ℕ := block.foldr (fun i n => max (i.id + 1) n) 0

def a64CallbackConfigPass (conf : UserConfig) (block : List (Inst X)) : Option (List (Inst X)) :=
  if conf.hookDataCacheOperations then some block
  else (block.foldlM (visit conf) ⟨[], freshId block⟩).map (·.code)

end Pass

/-! ### What the instructions do -/

/-- The world: the memory, the operations raised to the callback, and whatever the
other opcodes work on. -/
structure World (Y : Type) where
  memory : ByteMemory 64
  raised : List (BitVec 64 × BitVec 64)
  rest : Y

/-- What the other opcodes do, of which nothing is assumed. -/
structure Others (X Y : Type) where
  yields : X → Bool
  value : X → List Val → (Fin 31 → BitVec 64) → World Y → Val
  regs : X → List Val → (Fin 31 → BitVec 64) → World Y → Fin 31 → BitVec 64
  world : X → List Val → (Fin 31 → BitVec 64) → World Y → World Y

section Semantics

variable {X Y : Type} (others : Others X Y)

def value : Opcode X → List Val → (Fin 31 → BitVec 64) → World Y → Val
  | .getX r, _, regs, _ => ⟨.u64, regs r⟩
  | .add64, [a, b, carry], _, _ =>
      ⟨.u64, a.as .u64 + b.as .u64 + BitVec.setWidth 64 (BitVec.ofBool (carry.as .u1))⟩
  | .zeroExtendLongToQuad, [v], _, _ => ⟨.u128, (v.as .u64).setWidth 128⟩
  | .other x, args, regs, w => others.value x args regs w
  | _, _, _, _ => default

def worldAfter : Opcode X → List Val → (Fin 31 → BitVec 64) → World Y → World Y
  | .writeMemory n, [_, vaddr, v], _, w =>
      { w with memory := w.memory.write (vaddr.as .u64) (n.bytesOfVal v) }
  | .dataCacheOperationRaised, [_, op, v], _, w =>
      { w with raised := (op.as .u64, v.as .u64) :: w.raised }
  | .other x, args, regs, w => others.world x args regs w
  | _, _, _, w => w

def machine : Machine (Opcode X) Val (fun _ : Fin 31 => BitVec 64) (World Y) where
  yields
    | .getX _ | .add64 | .zeroExtendLongToQuad => true
    | .writeMemory _ | .dataCacheOperationRaised => false
    | .other x => others.yields x
  reads _ := Set.univ
  writes
    | .other _ => Set.univ
    | _ => ∅
  value := value others
  cellsAfter
    | .other x => others.regs x
    | _ => fun _ regs _ => regs
  worldAfter := worldAfter others
  frame := by
    intro o args regs w r hr
    cases o with
    | other x => exact absurd (Set.mem_univ r) hr
    | _ => rfl
  value_congr := by
    intro o args regs regs' w h
    rw [funext fun r => h r (Set.mem_univ r)]
  cells_congr := by
    intro o args regs regs' w h r _
    rw [funext fun r => h r (Set.mem_univ r)]
  world_congr := by
    intro o args regs regs' w h
    rw [funext fun r => h r (Set.mem_univ r)]

abbrev Cfg (Y : Type) := Config Val (fun _ : Fin 31 => BitVec 64) (World Y)

def xValue (Rt : Fin 32) (c : Cfg Y) : BitVec 64 :=
  if h : Rt.val < 31 then c.cells ⟨Rt.val, h⟩ else 0#64

end Semantics

/-! ### The zeros written -/

section Zeros

variable {X Y : Type} {others : Others X Y}

/-- None of the instructions raises a data cache operation. -/
def NoneRaised (code : List (Inst X)) : Prop := ∀ i ∈ code, i.code ≠ .op .dataCacheOperationRaised

theorem NoneRaised.append {code code' : List (Inst X)} (h : NoneRaised code)
    (h' : NoneRaised code') : NoneRaised (code ++ code') := fun i hi =>
  (List.mem_append.1 hi).elim (h i) (h' i)

/-- Running the code writes `k` zeros from `a` on, and leaves the registers and the
results below `lo` as they were. -/
structure Zeroes (others : Others X Y) (code : List (Inst X)) (c : Cfg Y) (a : BitVec 64)
    (k lo : ℕ) : Prop where
  cells : ((machine others).run code c).cells = c.cells
  world : ((machine others).run code c).world =
    { c.world with memory := c.world.memory.write a (List.replicate k 0#8) }
  results : ∀ id < lo, ((machine others).run code c).results id = c.results id

theorem Zeroes.nil (c : Cfg Y) (a : BitVec 64) (lo : ℕ) : Zeroes others [] c a 0 lo :=
  ⟨rfl, rfl, fun _ _ => rfl⟩

theorem Zeroes.append {code code' : List (Inst X)} {c : Cfg Y} {a : BitVec 64} {k k' lo lo' : ℕ}
    (h : Zeroes others code c a k lo)
    (h' : Zeroes others code' ((machine others).run code c) (a + BitVec.ofNat 64 k) k' lo')
    (hlo : lo ≤ lo') (hfit : k + k' ≤ 2 ^ 64) : Zeroes others (code ++ code') c a (k + k') lo := by
  have hwrite : (c.world.memory.write a (List.replicate k 0#8)).write (a + BitVec.ofNat 64 k)
      (List.replicate k' 0#8) = c.world.memory.write a (List.replicate (k + k') 0#8) := by
    have hlength : (List.replicate k 0#8).length + (List.replicate k' 0#8).length ≤ 2 ^ 64 := by
      rwa [List.length_replicate, List.length_replicate]
    have h := ByteMemory.write_append (m := c.world.memory) (a := a) hlength
    rwa [List.length_replicate, List.replicate_append_replicate] at h
  constructor
  · rw [Machine.run_append, h'.cells, h.cells]
  · rw [Machine.run_append, h'.world, h.world]
    exact congrArg (World.mk · _ _) hwrite
  · intro id hid
    rw [Machine.run_append, h'.results id (hid.trans_le hlo), h.results id hid]

def writeCode (location : BitVec 64) (n : WriteSize) (zero addr : Operand Val) (id : ℕ) :
    List (Inst X) :=
  [⟨id, .op (.writeMemory n), [imm64 location, addr, zero]⟩,
    ⟨id + 1, .op .add64, [addr, imm64 (BitVec.ofNat 64 n.bytes), .const ⟨.u1, false⟩]⟩]

theorem zeroes_write (others : Others X Y) (location : BitVec 64) (n : WriteSize) (id : ℕ)
    {zero addr : Operand Val}
    {c : Cfg Y} {a : BitVec 64} (haddr : addr.eval c.results = ⟨.u64, a⟩)
    (hzero : n.bytesOfVal (zero.eval c.results) = List.replicate n.bytes 0#8) :
    Zeroes others (writeCode location n zero addr id) c a n.bytes (id + 1) ∧
      (Operand.result (id + 1)).eval
          ((machine others).run (writeCode location n zero addr id) c).results =
        ⟨.u64, a + BitVec.ofNat 64 n.bytes⟩ := by
  have hwrite : (machine others).step ⟨id, .op (.writeMemory n), [imm64 location, addr, zero]⟩ c =
      { c with world := { c.world with
          memory := c.world.memory.write a (List.replicate n.bytes 0#8) } } := by
    simp [Machine.step, machine, worldAfter, haddr, hzero]
  have hadd : (machine others).run (writeCode location n zero addr id) c =
      { c with
        results := Function.update c.results (id + 1) ⟨.u64, a + BitVec.ofNat 64 n.bytes⟩
        world := { c.world with
          memory := c.world.memory.write a (List.replicate n.bytes 0#8) } } := by
    rw [writeCode, Machine.run_cons, hwrite, Machine.run_cons, Machine.run_nil]
    simp [Machine.step, machine, value, worldAfter, haddr, imm64]
  refine ⟨⟨by rw [hadd], by rw [hadd], fun i hi => ?_⟩, ?_⟩
  · rw [hadd]
    exact Function.update_of_ne hi.ne _ _
  · rw [hadd]
    exact Function.update_self ..

/-- What the code emitted by one loop does when the operand `zero` is zero. -/
theorem emitWrites_spec (others : Others X Y) (location : BitVec 64) (n : WriteSize)
    (zero : Operand Val) (bytes : ℕ) (hbytes : bytes ≤ 2 ^ 64) (e : Emission X)
    (addr : Operand Val) (hwithin : zero.Within {id | id < e.next}) :
    ∃ e' addr' code, emitWrites location n zero e addr bytes = (e', addr', bytes % n.bytes) ∧
      e'.code = e.code ++ code ∧ e.next ≤ e'.next ∧ NoneRaised code ∧
      ∀ (c : Cfg Y) (a : BitVec 64), addr.eval c.results = ⟨.u64, a⟩ →
        n.bytesOfVal (zero.eval c.results) = List.replicate n.bytes 0#8 →
        Zeroes others code c a (bytes - bytes % n.bytes) e.next ∧
          addr'.eval ((machine others).run code c).results =
            ⟨.u64, a + BitVec.ofNat 64 (bytes - bytes % n.bytes)⟩ := by
  induction bytes using Nat.strong_induction_on generalizing e addr with
  | _ bytes ih =>
    rw [emitWrites]
    have hpos := n.bytes_pos
    split
    · next hle =>
        have hmod : (bytes - n.bytes) % n.bytes = bytes % n.bytes := (Nat.mod_eq_sub_mod hle).symm
        have hrest : n.bytes + (bytes - n.bytes - bytes % n.bytes) = bytes - bytes % n.bytes := by
          have hless := hmod ▸ Nat.mod_le (bytes - n.bytes) n.bytes
          omega
        obtain ⟨e', addr', code, heq, hcode, hnext, hraised, hrun⟩ := ih (bytes - n.bytes) (by omega)
          (by omega) ((e.inst (.writeMemory n) [imm64 location, addr, zero]).inst .add64
            [addr, imm64 (BitVec.ofNat 64 n.bytes), .const ⟨.u1, false⟩]) (.result (e.next + 1))
          (hwithin.mono fun id (hid : id < e.next) => by simp [Emission.inst]; omega)
        refine ⟨e', addr', writeCode location n zero addr e.next ++ code, hmod ▸ heq, ?_, ?_,
          .append ?_ hraised, fun c a haddr hzero => ?_⟩
        · rw [hcode]
          simp [Emission.inst, writeCode]
        · simp only [Emission.inst] at hnext
          omega
        · simp [NoneRaised, writeCode]
        · obtain ⟨hfirst, hstep⟩ := zeroes_write others location n e.next haddr hzero
          have hzero' := hzero
          rw [← Operand.eval_congr hwithin fun id hid =>
            hfirst.results id (Nat.lt_succ_of_lt hid)] at hzero'
          obtain ⟨hothers, hlast⟩ := hrun _ _ hstep hzero'
          rw [hmod] at hothers hlast
          refine ⟨?_, ?_⟩
          · have h := hfirst.append hothers (by simp [Emission.inst]) (by omega)
            rw [hrest] at h
            exact ⟨h.cells, h.world, fun id hid => h.results id (Nat.lt_succ_of_lt hid)⟩
          · rw [← hrest, BitVec.ofNat_add, ← BitVec.add_assoc, Machine.run_append]
            exact hlast
    · next hle =>
        rw [Nat.mod_eq_of_lt (by omega), Nat.sub_self]
        refine ⟨e, addr, [], rfl, (List.append_nil _).symm, le_rfl, nofun, fun c a haddr _ => ?_⟩
        exact ⟨.nil c a _, haddr.trans (by rw [BitVec.add_zero])⟩

theorem zeroes_zeroExtend (others : Others X Y) (id : ℕ) (c : Cfg Y) (a : BitVec 64) :
    Zeroes others [⟨id, .op .zeroExtendLongToQuad, [imm64 0#64]⟩] c a 0 id ∧
      (Operand.result id).eval ((machine others).run
        [⟨id, .op .zeroExtendLongToQuad, [imm64 0#64]⟩] c).results = ⟨.u128, 0#128⟩ := by
  have hrun : (machine others).run [⟨id, .op .zeroExtendLongToQuad, [imm64 0#64]⟩] c =
      { c with results := Function.update c.results id ⟨.u128, 0#128⟩ } := by
    simp [Machine.step, machine, value, worldAfter, imm64]
  refine ⟨⟨by rw [hrun], by rw [hrun]; rfl, fun i hi => ?_⟩, ?_⟩
  · rw [hrun]
    exact Function.update_of_ne hi.ne _ _
  · rw [hrun]
    exact Function.update_self ..

/-- The three loops together write all bytes. -/
theorem emitZeros_spec (others : Others X Y) (location : BitVec 64) (addr : Operand Val)
    {bytes : ℕ} (hfour : 4 ∣ bytes) (hbytes : bytes ≤ 2 ^ 64) (e : Emission X) :
    ∃ code, (emitZeros location addr bytes e).code = e.code ++ code ∧
      e.next ≤ (emitZeros location addr bytes e).next ∧ NoneRaised code ∧
      (addr.Within {id | id < e.next} → ∀ (c : Cfg Y) (a : BitVec 64),
        addr.eval c.results = ⟨.u64, a⟩ → Zeroes others code c a bytes e.next) := by
  obtain ⟨e₂, addr₂, code₂, heq₂, hcode₂, hnext₂, hraised₂, hrun₂⟩ :=
    emitWrites_spec others location .w128 (.result e.next) bytes hbytes
      (e.inst .zeroExtendLongToQuad [imm64 0#64]) addr (Nat.lt_succ_self e.next)
  obtain ⟨e₃, addr₃, code₃, heq₃, hcode₃, hnext₃, hraised₃, hrun₃⟩ :=
    emitWrites_spec others location .w64 (imm64 0#64) (bytes % 16) (by omega) e₂ addr₂ trivial
  obtain ⟨e₄, addr₄, code₄, heq₄, hcode₄, hnext₄, hraised₄, hrun₄⟩ :=
    emitWrites_spec others location .w32 (.const ⟨.u32, 0#32⟩) (bytes % 16 % 8) (by omega) e₃ addr₃
      trivial
  simp only [WriteSize.bytes] at heq₂ hrun₂ heq₃ hrun₃ heq₄ hrun₄
  have hemit : emitZeros location addr bytes e = e₄ := by
    simp only [emitZeros, heq₂, heq₃, heq₄]
  have hnext : e.next + 1 ≤ e₂.next := hnext₂
  rw [hemit]
  refine ⟨[⟨e.next, .op .zeroExtendLongToQuad, [imm64 0#64]⟩] ++ (code₂ ++ (code₃ ++ code₄)), ?_,
    by omega, .append (by simp [NoneRaised]) (hraised₂.append (hraised₃.append hraised₄)),
    fun hwithin c a haddr => ?_⟩
  · rw [hcode₄, hcode₃, hcode₂, Emission.inst]
    simp
  · obtain ⟨hzero, hvalue⟩ := zeroes_zeroExtend others e.next c a
    rw [← Operand.eval_congr hwithin hzero.results] at haddr
    -- each loop starts where the one before has stopped
    have hzero₂ : WriteSize.w128.bytesOfVal ⟨.u128, 0#128⟩ = List.replicate 16 0#8 := by decide
    have hzero₃ : WriteSize.w64.bytesOfVal ⟨.u64, 0#64⟩ = List.replicate 8 0#8 := by decide
    have hzero₄ : WriteSize.w32.bytesOfVal ⟨.u32, 0#32⟩ = List.replicate 4 0#8 := by decide
    obtain ⟨h₂, haddr₂⟩ := hrun₂ _ a haddr (by rw [hvalue, hzero₂])
    obtain ⟨h₃, haddr₃⟩ := hrun₃ _ _ haddr₂ hzero₃
    obtain ⟨h₄, -⟩ := hrun₄ _ _ haddr₃ hzero₄
    have h₃₄ := h₃.append h₄ hnext₃ (by omega)
    have h₂₄ := h₂.append h₃₄ hnext₂ (by omega)
    rw [← BitVec.add_zero a] at h₂₄
    have hall := hzero.append h₂₄ (Nat.le_succ e.next) (by omega)
    have htotal : 0 + (bytes - bytes % 16 + (bytes % 16 - bytes % 16 % 8 +
        (bytes % 16 % 8 - bytes % 16 % 8 % 4))) = bytes := by omega
    rwa [htotal] at hall

end Zeros

/-! ### The block after the pass -/

section Block

variable {X Y : Type} {others : Others X Y} {conf : UserConfig}

theorem lt_freshId {block : List (Inst X)} {i : Inst X} (hi : i ∈ block) :
    i.id < freshId block := by
  induction block with
  | nil => cases hi
  | cons j block ih =>
      change i.id < max (j.id + 1) (freshId block)
      rcases List.mem_cons.1 hi with rfl | hi
      · omega
      · have := ih hi
        omega

/-- A data cache operation has the operands that the translator gives it. -/
def FromTranslator (i : Inst X) : Prop :=
  i.code = .op .dataCacheOperationRaised → ∃ location op v, i.args = [imm64 location, imm64 op, v]

/-- What becomes of one instruction of a block that uses the numbers below `lo`: it stays unless
it is a data cache operation, which is made to do nothing, and for DC ZVA has code in front of it
that writes the zeros. -/
inductive Rewritten (others : Others X Y) (conf : UserConfig) (lo : ℕ) (i : Inst X) :
    List (Inst X) → Prop
  | same (hcode : i.code ≠ .op .dataCacheOperationRaised) : Rewritten others conf lo i [i]
  | dropped {location op : BitVec 64} {v : Operand Val}
      (hcode : i.code = .op .dataCacheOperationRaised)
      (hargs : i.args = [imm64 location, imm64 op, v])
      (hop : op ≠ DataCacheOperation.zeroByVA.code) : Rewritten others conf lo i [i.invalidate]
  | zeroed {location : BitVec 64} {v : Operand Val} {code : List (Inst X)}
      (hcode : i.code = .op .dataCacheOperationRaised)
      (hargs : i.args = [imm64 location, imm64 DataCacheOperation.zeroByVA.code, v])
      (hraised : NoneRaised code)
      (hzeroes : v.Within {id | id < lo} → ∀ (c : Cfg Y) (a : BitVec 64),
        v.eval c.results = ⟨.u64, a⟩ → Zeroes others code c a conf.blockBytes lo) :
      Rewritten others conf lo i (code ++ [i.invalidate])

theorem Rewritten.noneRaised {lo : ℕ} {i : Inst X} {segment : List (Inst X)}
    (h : Rewritten others conf lo i segment) : NoneRaised segment := by
  have hvoid : NoneRaised [i.invalidate] := by simp [NoneRaised, Instr.invalidate]
  cases h with
  | same hcode => simpa [NoneRaised] using hcode
  | dropped => exact hvoid
  | zeroed _ _ hraised => exact hraised.append hvoid

/-- The block has been rewritten instruction by instruction. -/
def Rewrites (others : Others X Y) (conf : UserConfig) (lo : ℕ) (block out : List (Inst X)) :
    Prop :=
  ∃ segments : List (List (Inst X)), out = segments.flatten ∧
    List.Forall₂ (Rewritten others conf lo) block segments

theorem Rewrites.nil_right {lo : ℕ} {out : List (Inst X)} (h : Rewrites others conf lo [] out) :
    out = [] := by
  obtain ⟨segments, rfl, hsegments⟩ := h
  cases hsegments
  rfl

theorem Rewrites.noneRaised {lo : ℕ} {block out : List (Inst X)}
    (h : Rewrites others conf lo block out) : NoneRaised out := by
  obtain ⟨segments, rfl, hsegments⟩ := h
  induction hsegments with
  | nil => exact nofun
  | cons hsegment _ ih => exact hsegment.noneRaised.append ih

/-- The pass leaves a block as it is exactly if there is no data cache operation in it. -/
theorem Rewrites.eq_iff {lo : ℕ} {block out : List (Inst X)}
    (h : Rewrites others conf lo block out) : out = block ↔ NoneRaised block := by
  constructor
  · rintro rfl
    exact h.noneRaised
  · intro hnone
    obtain ⟨segments, rfl, hsegments⟩ := h
    induction hsegments with
    | nil => rfl
    | @cons i segment block segments hsegment _ ih =>
        have hi : i.code ≠ .op .dataCacheOperationRaised := hnone i List.mem_cons_self
        have hsame : segment = [i] := by
          cases hsegment with
          | same => rfl
          | dropped hcode => exact absurd hcode hi
          | zeroed hcode => exact absurd hcode hi
        rw [List.flatten_cons, hsame, ih fun j hj => hnone j (List.mem_cons_of_mem i hj)]
        rfl

end Block

/-! ### The footprint -/

section Footprint

variable (conf : UserConfig)

theorem blockBytes_eq : ∃ k ≤ 15, conf.blockBytes = 2 ^ (k + 2) := by
  refine ⟨(conf.dczidEl0 &&& 0b1111#32).toNat, ?_, ?_⟩
  · have : (conf.dczidEl0 &&& 0b1111#32).toNat < 2 ^ 4 := by
      rw [BitVec.toNat_and]
      exact Nat.and_lt_two_pow _ (by decide)
    omega
  · rw [UserConfig.blockBytes, Nat.shiftLeft_eq, Nat.pow_add, Nat.mul_comm]

theorem four_dvd_blockBytes : 4 ∣ conf.blockBytes := by
  obtain ⟨k, -, hk⟩ := blockBytes_eq conf
  exact hk ▸ ⟨2 ^ k, by rw [Nat.pow_add, Nat.mul_comm]⟩

theorem blockBytes_dvd : conf.blockBytes ∣ 2 ^ 64 := by
  obtain ⟨k, hle, hk⟩ := blockBytes_eq conf
  exact hk ▸ Nat.pow_dvd_pow 2 (by omega)

theorem blockBytes_le : conf.blockBytes ≤ 2 ^ 64 := Nat.le_of_dvd (by decide) (blockBytes_dvd conf)

theorem blockBytes_pos : 0 < conf.blockBytes := by
  obtain ⟨k, -, hk⟩ := blockBytes_eq conf
  exact hk ▸ Nat.two_pow_pos _

/-- The byte `x` is in the aligned block that contains `a`. -/
def InBlock (a x : BitVec 64) : Prop := x.toNat / conf.blockBytes = a.toNat / conf.blockBytes

instance (a x : BitVec 64) : Decidable (InBlock conf a x) := inferInstanceAs (Decidable (_ = _))

def InRange (a x : BitVec 64) : Prop := (x - a).toNat < conf.blockBytes

instance (a x : BitVec 64) : Decidable (InRange conf a x) := inferInstanceAs (Decidable (_ < _))

/-- DC ZVA as the architecture has it. -/
def zeroBlock (a : BitVec 64) (m : ByteMemory 64) : ByteMemory 64 := fun x =>
  if InBlock conf a x then 0#8 else m x

variable {conf}

theorem write_replicate_zero (m : ByteMemory 64) (a x : BitVec 64) :
    m.write a (List.replicate conf.blockBytes 0#8) x = if InRange conf a x then 0#8 else m x := by
  by_cases h : InRange conf a x
  · have hlt : (x - a).toNat < conf.blockBytes := h
    rw [if_pos h, ByteMemory.write, List.getElem?_replicate, if_pos hlt, Option.getD_some]
  · rw [if_neg h]
    refine ByteMemory.write_of_le ?_
    rw [List.length_replicate]
    exact not_lt.1 h

theorem inBlock_iff_inRange {a : BitVec 64} (ha : conf.blockBytes ∣ a.toNat) (x : BitVec 64) :
    InBlock conf a x ↔ InRange conf a x := by
  obtain ⟨q, hq⟩ := ha
  obtain ⟨p, hp⟩ := blockBytes_dvd conf
  have hpos := blockBytes_pos conf
  have hlt := a.isLt
  have hfits : a.toNat + conf.blockBytes ≤ 2 ^ 64 := by
    rw [hq, hp] at hlt ⊢
    have hqp : q + 1 ≤ p := Nat.lt_of_mul_lt_mul_left hlt
    calc conf.blockBytes * q + conf.blockBytes = conf.blockBytes * (q + 1) := by
          rw [Nat.mul_succ]
      _ ≤ conf.blockBytes * p := Nat.mul_le_mul_left _ hqp
  have hdiv : a.toNat / conf.blockBytes = q := by rw [hq, Nat.mul_div_cancel_left _ hpos]
  have hx := x.isLt
  rw [InBlock, InRange, hdiv, Nat.div_eq_iff hpos, Nat.mul_comm, ← hq, BitVec.toNat_sub]
  omega

/-- What the pass makes of DC ZVA is right if the address is aligned, and otherwise
only where the difference does not show. -/
theorem write_eq_zeroBlock_iff {a : BitVec 64} {m : ByteMemory 64} :
    m.write a (List.replicate conf.blockBytes 0#8) = zeroBlock conf a m ↔
      conf.blockBytes ∣ a.toNat ∨ ∀ x, ¬(InBlock conf a x ↔ InRange conf a x) → m x = 0#8 := by
  constructor
  · intro h
    refine .inr fun x hx => ?_
    have hat := congrFun h x
    rw [write_replicate_zero, zeroBlock] at hat
    by_cases hblock : InBlock conf a x <;> by_cases hrange : InRange conf a x <;> simp_all
  · intro h
    funext x
    rw [write_replicate_zero, zeroBlock]
    by_cases hx : InBlock conf a x ↔ InRange conf a x
    · simp only [hx]
    · rcases h with h | h
      · exact absurd (inBlock_iff_inRange h x) hx
      · simp only [h x hx, ite_self]

variable (conf) {X Y : Type} (others : Others X Y)

/-- The pass at a DC ZVA emits the zeros and drops the operation. -/
theorem visit_zeroByVA (location : BitVec 64) (v : Operand Val) (id : ℕ) (e : Emission X) :
    ∃ e' code, visit conf e ⟨id, .op .dataCacheOperationRaised,
        [imm64 location, imm64 DataCacheOperation.zeroByVA.code, v]⟩ = some e' ∧
      e'.code = e.code ++ (code ++ [⟨id, .void, []⟩]) ∧ e.next ≤ e'.next ∧ NoneRaised code ∧
      (v.Within {id | id < e.next} → ∀ (c : Cfg Y) (a : BitVec 64),
        v.eval c.results = ⟨.u64, a⟩ → Zeroes others code c a conf.blockBytes e.next) := by
  obtain ⟨code, hcode, hnext, hraised, hzeroes⟩ := emitZeros_spec others location v
    (four_dvd_blockBytes conf) (blockBytes_le conf) e
  refine ⟨_, code, rfl, ?_, hnext, hraised, hzeroes⟩
  simp only [Emission.keep, hcode, List.append_assoc]
  rfl

theorem visit_spec {lo : ℕ} {e : Emission X} (hlo : lo ≤ e.next) {i : Inst X}
    (hi : FromTranslator i) :
    ∃ e' segment, visit conf e i = some e' ∧ e'.code = e.code ++ segment ∧ e.next ≤ e'.next ∧
      Rewritten others conf lo i segment := by
  by_cases hcode : i.code = .op .dataCacheOperationRaised
  · obtain ⟨location, op, v, hargs⟩ := hi hcode
    by_cases hop : op = DataCacheOperation.zeroByVA.code
    · subst hop
      have hieq : i = ⟨i.id, .op .dataCacheOperationRaised,
          [imm64 location, imm64 DataCacheOperation.zeroByVA.code, v]⟩ := by
        rw [← hcode, ← hargs]
      obtain ⟨e', code, hvisit, hcode', hnext, hraised, hzeroes⟩ :=
        visit_zeroByVA conf others location v i.id e
      rw [← hieq] at hvisit
      refine ⟨e', code ++ [i.invalidate], hvisit, hcode', hnext,
        .zeroed hcode hargs hraised fun hwithin c a hva => ?_⟩
      have h := hzeroes (hwithin.mono fun id (hid : id < lo) => hid.trans_le hlo) c a hva
      exact ⟨h.cells, h.world, fun id hid => h.results id (hid.trans_le hlo)⟩
    · refine ⟨e.keep i.invalidate, [i.invalidate], ?_, rfl, le_rfl, .dropped hcode hargs hop⟩
      simp [visit, hcode, hargs, imm64, getU64, hop]
  · refine ⟨e.keep i, [i], ?_, rfl, le_rfl, .same hcode⟩
    unfold visit
    split
    · exact absurd ‹_› hcode
    · rfl

theorem foldlM_visit_spec {lo : ℕ} {block : List (Inst X)}
    (hblock : ∀ i ∈ block, FromTranslator i) {e : Emission X} (hlo : lo ≤ e.next) :
    ∃ e' out, block.foldlM (visit conf) e = some e' ∧ e'.code = e.code ++ out ∧
      e.next ≤ e'.next ∧ Rewrites others conf lo block out := by
  induction block generalizing e with
  | nil => exact ⟨e, [], rfl, (List.append_nil _).symm, le_rfl, [], rfl, .nil⟩
  | cons i block ih =>
      obtain ⟨e₁, segment, hvisit, hcode₁, hnext₁, hsegment⟩ :=
        visit_spec conf others hlo (hblock i List.mem_cons_self)
      obtain ⟨e₂, out, hfold, hcode₂, hnext₂, segments, rfl, hsegments⟩ :=
        ih (fun j hj => hblock j (List.mem_cons_of_mem _ hj)) (hlo.trans hnext₁)
      refine ⟨e₂, segment ++ segments.flatten, ?_, ?_, hnext₁.trans hnext₂, segment :: segments,
        rfl, .cons hsegment hsegments⟩
      · rw [List.foldlM_cons, hvisit]
        exact hfold
      · rw [hcode₂, hcode₁, List.append_assoc]

theorem Zeroes.append_void {code : List (Inst X)} {c : Cfg Y} {a : BitVec 64} {k lo : ℕ}
    (h : Zeroes others code c a k lo) (id : ℕ) :
    Zeroes others (code ++ [⟨id, .void, []⟩]) c a k lo := by
  have hrun : (machine others).run (code ++ [⟨id, .void, []⟩]) c = (machine others).run code c :=
    Machine.run_append ..
  exact ⟨by rw [hrun, h.cells], by rw [hrun, h.world], fun i hi => by rw [hrun, h.results i hi]⟩

/-- The pass at the code of a DC ZVA: what is emitted zeroes the bytes from the address on. -/
theorem foldlM_visit_dcZVA (location : BitVec 64) (Rt : Fin 32) {id : ℕ} {e : Emission X}
    (hid : id < e.next) :
    ∃ e' code, (dcZVA ⟨[], id⟩ location Rt).code.foldlM (visit conf) e = some e' ∧
      e'.code = e.code ++ code ∧ e.next ≤ e'.next ∧ ∀ c : Cfg Y,
        ((machine others).run code c).cells = c.cells ∧
        ((machine others).run code c).world = { c.world with
          memory := c.world.memory.write (xValue Rt c) (List.replicate conf.blockBytes 0#8) } := by
  by_cases hRt : Rt.val < 31
  · obtain ⟨e', code, hvisit, hcode, hnext, -, hzeroes⟩ := visit_zeroByVA conf others location
      (.result id) (id + 1) (e.keep ⟨id, .op (.getX ⟨Rt.val, hRt⟩), []⟩)
    refine ⟨e', ⟨id, .op (.getX ⟨Rt.val, hRt⟩), []⟩ :: (code ++ [⟨id + 1, .void, []⟩]), ?_, ?_,
      hnext, fun c => ?_⟩
    · rw [← hvisit]
      simp [dcZVA, dataCacheInstruction, getXOf, hRt, Emission.inst, visit, Emission.keep]
    · rw [hcode, Emission.keep, List.append_assoc]
      rfl
    · have hget : (machine others).step ⟨id, .op (.getX ⟨Rt.val, hRt⟩), []⟩ c =
          { c with results := Function.update c.results id ⟨.u64, xValue Rt c⟩ } := by
        simp [Machine.step, machine, value, worldAfter, xValue, hRt]
      rw [Machine.run_cons, hget]
      have h := (hzeroes hid { c with results := Function.update c.results id ⟨.u64, xValue Rt c⟩ }
        (xValue Rt c) (Function.update_self ..)).append_void others (id + 1)
      exact ⟨h.cells, h.world⟩
  · obtain ⟨e', code, hvisit, hcode, hnext, -, hzeroes⟩ := visit_zeroByVA conf others location
      (imm64 0#64) id e
    refine ⟨e', code ++ [⟨id, .void, []⟩], ?_, hcode, hnext, fun c => ?_⟩
    · rw [← hvisit]
      simp [dcZVA, dataCacheInstruction, getXOf, hRt, Emission.inst]
    · have h := (hzeroes trivial c (xValue Rt c) (by simp [xValue, hRt, imm64])).append_void
        others id
      exact ⟨h.cells, h.world⟩

theorem exists_id_dcZVA (location : BitVec 64) (Rt : Fin 32) (id : ℕ) :
    ∃ i ∈ (dcZVA (⟨[], id⟩ : Emission X) location Rt).code, i.id = id := by
  by_cases hRt : Rt.val < 31 <;>
    simp [dcZVA, dataCacheInstruction, getXOf, hRt, Emission.inst]

end Footprint

/-- The pass over a block with a DC ZVA in it, the operations not hooked. -/
theorem a64CallbackConfigPass_dcZVA {X Y : Type} (others : Others X Y) (conf : UserConfig)
    (hhook : conf.hookDataCacheOperations = false) (before behind : List (Inst X))
    (hbefore : ∀ i ∈ before, FromTranslator i) (hbehind : ∀ i ∈ behind, FromTranslator i)
    (location : BitVec 64) (Rt : Fin 32) (id : ℕ) :
    let block := before ++ (dcZVA ⟨[], id⟩ location Rt).code ++ behind
    ∃ before' zva behind',
      a64CallbackConfigPass conf block = some (before' ++ zva ++ behind') ∧
      Rewrites others conf (freshId block) before before' ∧
      Rewrites others conf (freshId block) behind behind' ∧ ∀ c : Cfg Y,
        ((machine others).run zva c).cells = c.cells ∧
        ((machine others).run zva c).world = { c.world with
          memory := c.world.memory.write (xValue Rt c) (List.replicate conf.blockBytes 0#8) } := by
  intro block
  have hid : id < freshId block := by
    obtain ⟨i, hi, rfl⟩ := exists_id_dcZVA (X := X) location Rt id
    exact lt_freshId (by simp [block, hi])
  obtain ⟨e₁, before', hfold₁, hcode₁, hnext₁, hrewrites₁⟩ :=
    foldlM_visit_spec conf others hbefore (le_refl (Emission.mk [] (freshId block)).next)
  obtain ⟨e₂, zva, hfold₂, hcode₂, hnext₂, hrun⟩ :=
    foldlM_visit_dcZVA conf others location Rt (hid.trans_le hnext₁)
  obtain ⟨e₃, behind', hfold₃, hcode₃, -, hrewrites₃⟩ :=
    foldlM_visit_spec conf others hbehind (hnext₁.trans hnext₂)
  refine ⟨before', zva, behind', ?_, hrewrites₁, hrewrites₃, hrun⟩
  rw [a64CallbackConfigPass, hhook, if_neg Bool.false_ne_true]
  have hfold : block.foldlM (visit conf) ⟨[], freshId block⟩ = some e₃ := by
    rw [List.foldlM_append, List.foldlM_append, hfold₁, Option.bind_eq_bind,
      Option.bind_some, hfold₂, Option.bind_some, hfold₃]
  rw [hfold, Option.map_some, hcode₃, hcode₂, hcode₁]
  rfl

/-- The code of the DC ZVA changes memory alone, and does what the architecture says exactly when
the address is aligned or the bytes in only one of the two ranges are zero already.  The rest of
the block is rewritten instruction by instruction, and stays as it is exactly when there is no
data cache operation in it. -/
theorem dcZVA_zeroes_iff {X Y : Type} (others : Others X Y) (conf : UserConfig)
    (hhook : conf.hookDataCacheOperations = false) (before behind : List (Inst X))
    (hbefore : ∀ i ∈ before, FromTranslator i) (hbehind : ∀ i ∈ behind, FromTranslator i)
    (location : BitVec 64) (Rt : Fin 32) (id : ℕ) :
    let block := before ++ (dcZVA ⟨[], id⟩ location Rt).code ++ behind
    ∃ before' zva behind',
      a64CallbackConfigPass conf block = some (before' ++ zva ++ behind') ∧
      Rewrites others conf (freshId block) before before' ∧
      Rewrites others conf (freshId block) behind behind' ∧
      (before' = before ∧ behind' = behind ↔ NoneRaised before ∧ NoneRaised behind) ∧
      ∀ c : Cfg Y,
        let c' := (machine others).run zva c
        let a := xValue Rt c
        c'.cells = c.cells ∧ c'.world.raised = c.world.raised ∧ c'.world.rest = c.world.rest ∧
          (c'.world.memory = zeroBlock conf a c.world.memory ↔
            conf.blockBytes ∣ a.toNat ∨
              ∀ x, ¬(InBlock conf a x ↔ InRange conf a x) → c.world.memory x = 0#8) := by
  obtain ⟨before', zva, behind', hpass, hrewrites, hrewrites', hrun⟩ :=
    a64CallbackConfigPass_dcZVA others conf hhook before behind hbefore hbehind location Rt id
  refine ⟨before', zva, behind', hpass, hrewrites, hrewrites',
    and_congr hrewrites.eq_iff hrewrites'.eq_iff, fun c => ?_⟩
  obtain ⟨hcells, hworld⟩ := hrun c
  refine ⟨hcells, by rw [hworld], by rw [hworld], ?_⟩
  rw [hworld]
  exact write_eq_zeroBlock_iff

namespace Sample

def sixteenWords : UserConfig := ⟨false, 4#32⟩

def noOthers : Others Empty Unit := ⟨nofun, nofun, nofun, nofun⟩

def filled (a : BitVec 64) : Cfg Unit where
  results _ := default
  cells _ := a
  world := ⟨fun _ => 1#8, [], ()⟩

end Sample

open Sample in
theorem dcZVA_zeroes_iff_aligned :
    ∃ zva, a64CallbackConfigPass sixteenWords (dcZVA (⟨[], 0⟩ : Emission Empty) 0#64 0).code =
        some zva ∧
      ((machine noOthers).run zva (filled 0x1040#64)).world.memory =
        zeroBlock sixteenWords 0x1040#64 (filled 0x1040#64).world.memory := by
  obtain ⟨before, zva, behind, hpass, hbefore, hbehind, -, h⟩ :=
    dcZVA_zeroes_iff noOthers sixteenWords rfl [] [] nofun nofun 0#64 0 0
  obtain rfl := hbefore.nil_right
  obtain rfl := hbehind.nil_right
  refine ⟨zva, ?_, (h (filled 0x1040#64)).2.2.2.2 (.inl (by decide))⟩
  simpa using hpass

open Sample in
/-- From the address 0x1041 on, the first byte of the block keeps its value and the
first byte behind it is lost. -/
theorem dcZVA_unaligned :
    ∃ zva, a64CallbackConfigPass sixteenWords (dcZVA (⟨[], 0⟩ : Emission Empty) 0#64 0).code =
        some zva ∧
      ((machine noOthers).run zva (filled 0x1041#64)).world.memory ≠
        zeroBlock sixteenWords 0x1041#64 (filled 0x1041#64).world.memory ∧
      ((machine noOthers).run zva (filled 0x1041#64)).world.memory 0x1040#64 = 1#8 ∧
      ((machine noOthers).run zva (filled 0x1041#64)).world.memory 0x1080#64 = 0#8 := by
  obtain ⟨before, zva, behind, hpass, hbefore, hbehind, h⟩ :=
    a64CallbackConfigPass_dcZVA noOthers sixteenWords rfl [] [] nofun nofun 0#64 0 0
  obtain rfl := hbefore.nil_right
  obtain rfl := hbehind.nil_right
  refine ⟨zva, by simpa using hpass, ?_⟩
  rw [(h (filled 0x1041#64)).2]
  have hfirst : (filled 0x1041#64).world.memory.write (xValue 0 (filled 0x1041#64))
      (List.replicate sixteenWords.blockBytes 0#8) 0x1040#64 = 1#8 := by
    rw [write_replicate_zero]
    decide
  have hbehind : (filled 0x1041#64).world.memory.write (xValue 0 (filled 0x1041#64))
      (List.replicate sixteenWords.blockBytes 0#8) 0x1080#64 = 0#8 := by
    rw [write_replicate_zero]
    decide
  refine ⟨fun heq => ?_, hfirst, hbehind⟩
  have hat := (congrFun heq 0x1040#64).symm.trans hfirst
  exact absurd hat (by decide)

end Umbra.A64.CallbackConfig
