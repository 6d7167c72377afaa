import Umbra.IR.ConstantFoldingDefined

/-!
Division in the constant propagation pass.

Both widths are divided at 64 bits.  For 32-bit operands the quotient always fits; for 64-bit
operands there is one pair of operands for which it does not, and C++ leaves that undefined.  All
other quotients are those of the architecture.
-/

namespace Umbra.IR.ConstantPropagation

section Division

variable {α β : Type} {b c : IRBlock} {a : ℕ} {w : Width} {v lhs rhs : Value} {isSigned : Bool}

theorem run_query_bind (f : IRBlock → Except Stop α) (k : α → Pass β) (b : IRBlock) :
    (query f >>= k) b = (f b >>= fun x => k x b) := by
  change ((do return (← f b, b)) >>= fun p => k p.1 p.2) = _
  cases f b <;> rfl

theorem Harmless.bind_eq_undefined {x : Except Stop α} {f : α → Except Stop β}
    (hx : Harmless x) : (x >>= f) = .error .undefinedBehaviour ↔
      ∃ y, x = .ok y ∧ f y = .error .undefinedBehaviour := by
  cases x with
  | error stop =>
      refine ⟨fun h => absurd (congrArg _ (Except.error.inj h)) hx, ?_⟩
      rintro ⟨y, h, -⟩
      cases h
  | ok y => exact ⟨fun h => ⟨y, rfl, h⟩, fun ⟨_, hy, h⟩ => Except.ok.inj hy ▸ h⟩

theorem run_ite {p : Prop} [Decidable p] (m m' : Pass α) (b : IRBlock) :
    (if p then m else m') b = if p then m b else m' b := by
  split <;> rfl

def quotient (b : IRBlock) (isSigned : Bool) (lhs rhs : Value) :
    Except Stop (Option (BitVec 64)) := do
  if isSigned then return Host.signedDivide (← b.getImmediateAsS64 lhs) (← b.getImmediateAsS64 rhs)
  else return Host.divide (← b.getImmediateAsU64 lhs) (← b.getImmediateAsU64 rhs)

theorem run_foldDivide (b : IRBlock) (a : ℕ) (w : Width) (isSigned : Bool) :
    foldDivide a w isSigned b = (do
      let rhs ← b.getArg a 1
      if ← b.isZero rhs then replaceUsesWithImm a w 0 b
      else
        let lhs ← b.getArg a 0
        if b.isImmediate lhs && b.isImmediate rhs then
          let q ← quotient b isSigned lhs rhs
          (do replaceUsesWithImm a w (← host q) : Pass Unit) b
        else if ← b.isUnsignedImmediate rhs 1 then replaceUsesWith a lhs b
        else return ((), b)) := by
  unfold foldDivide getArg isImmediate getImmediateAsS64 getImmediateAsU64
  simp only [run_query_bind, run_ite, quotient]
  cases isSigned <;>
    simp only [if_true, Bool.false_eq_true, if_false, bind_assoc, pure_bind] <;> rfl

theorem signExtend_eq_zero_iff {n : ℕ} (x : BitVec n) (hn : n ≤ 64) :
    x.setWidth 64 = 0#64 ↔ x.signExtend 64 = 0#64 := by
  -- Either way the bits of `x` are still there.
  have hbits {y : BitVec 64} (hy : y = 0#64) (hx : ∀ i < n, y.getLsbD i = x.getLsbD i) :
      x = 0#n := by
    apply BitVec.eq_of_getLsbD_eq
    intro i hi
    rw [← hx i hi, hy]
    simp
  constructor
  · intro hx
    have hzero := hbits hx fun i hi => by simp [show i < 64 by omega]
    simp [hzero, BitVec.signExtend]
  · intro hx
    have hzero := hbits hx fun i hi => by
      simp [BitVec.getElem_signExtend, hi, show i < 64 by omega]
    simp [hzero]

theorem asU64_of_asS64 {i : Imm} {y : BitVec 64} (h : i.asS64 = .ok y) :
    ∃ z, i.asU64 = .ok z ∧ (z = 0 ↔ y = 0) := by
  cases i with
  | u8 x => exact ⟨_, rfl, Except.ok.inj h ▸ signExtend_eq_zero_iff x (by decide)⟩
  | u16 x => exact ⟨_, rfl, Except.ok.inj h ▸ signExtend_eq_zero_iff x (by decide)⟩
  | u32 x => exact ⟨_, rfl, Except.ok.inj h ▸ signExtend_eq_zero_iff x (by decide)⟩
  | _ => exact ⟨y, h, Iff.rfl⟩

/-- The operands of the signed division `a` are immediates, the most negative 64-bit number and
`-1`. -/
def MostNegativeByMinusOne (b : IRBlock) (a : ℕ) : Prop :=
  (∃ w, (b.inst a).op = .alu (.signedDiv w)) ∧
    b.getImmediateAsS64 ((b.inst a).args 0) = .ok (BitVec.intMin 64) ∧
    b.getImmediateAsS64 ((b.inst a).args 1) = .ok (-1)

theorem getArg_eq_ok {index : Fin 4} (h : b.getArg a index = .ok v) :
    v = (b.inst a).args index := by
  unfold IRBlock.getArg at h
  split at h
  · cases h
  · split_ifs at h
    exact (Except.ok.inj h).symm

theorem resolve_of_getImmediateAsS64 {x : BitVec 64} (h : b.getImmediateAsS64 v = .ok x) :
    ∃ i, b.resolve v = .imm i ∧ i.asS64 = .ok x := by
  unfold IRBlock.getImmediateAsS64 at h
  split at h
  · rename_i i hi
    exact ⟨i, hi, h⟩
  · cases h

theorem isImmediate_of_resolve {i : Imm} (h : b.resolve v = .imm i) : b.isImmediate v = true := by
  rw [IRBlock.isImmediate, h]

theorem isZero_of_getImmediateAsS64 {y : BitVec 64} (h : b.getImmediateAsS64 v = .ok y) :
    b.isZero v = .ok (y = 0) := by
  obtain ⟨i, hi, hy⟩ := resolve_of_getImmediateAsS64 h
  obtain ⟨z, hz, hzero⟩ := asU64_of_asS64 hy
  have hread : b.getImmediateAsU64 v = .ok z := by
    simp [IRBlock.getImmediateAsU64, hi, hz]
  rw [IRBlock.isZero, IRBlock.isUnsignedImmediate, if_pos (isImmediate_of_resolve hi), hread]
  exact congrArg Except.ok (decide_eq_decide.mpr hzero)

theorem resolveWith_imm (n : ℕ) (i : Imm) : b.resolveWith n (.imm i) = .imm i := by
  cases n <;> rfl

theorem getArg_of_getImmediateAsS64 {index : Fin 4} {argType : IRType} {x : BitVec 64}
    (htype : (b.inst a).op.argTypes[index.val]? = some argType)
    (h : b.getImmediateAsS64 ((b.inst a).args index) = .ok x) :
    b.getArg a index = .ok ((b.inst a).args index) := by
  have hne : (b.inst a).args index ≠ .imm .empty := by
    intro hempty
    rw [hempty, IRBlock.getImmediateAsS64, IRBlock.resolve, resolveWith_imm] at h
    cases h
  simp [IRBlock.getArg, htype, hne]

theorem signedDivide_eq_none_iff {x y : BitVec 64} (hy : y ≠ 0) :
    Host.signedDivide x y = none ↔ x = BitVec.intMin 64 ∧ y = -1 := by
  unfold Host.signedDivide
  split_ifs with h
  · exact iff_of_true rfl (h.resolve_left hy)
  · exact iff_of_false nofun (not_or.mp h).2

theorem run_host_bind (x : Option α) (k : α → Pass β) (b : IRBlock) :
    (host x >>= k) b = match x with
      | some y => k y b
      | none => .error .undefinedBehaviour := by
  cases x <;> rfl

theorem harmless_quotient : Harmless (quotient b isSigned lhs rhs) := by
  unfold quotient
  split
  · exact harmless_getImmediateAsS64.bind fun _ => harmless_getImmediateAsS64.bind fun _ =>
      harmless_pure _
  · exact harmless_getImmediateAsU64.bind fun _ => harmless_getImmediateAsU64.bind fun _ =>
      harmless_pure _

/-- A division that is undefined comes down to an undefined quotient. -/
theorem foldDivide_undefined (h : foldDivide a w isSigned b = .error .undefinedBehaviour) :
    b.isZero ((b.inst a).args 1) = .ok false ∧ b.isImmediate ((b.inst a).args 1) = true ∧
      quotient b isSigned ((b.inst a).args 0) ((b.inst a).args 1) = .ok none := by
  rw [run_foldDivide] at h
  obtain ⟨rhs, hrhs, h⟩ := harmless_getArg.bind_eq_undefined.mp h
  obtain ⟨zero, hzero, h⟩ := harmless_isUnsignedImmediate.bind_eq_undefined.mp h
  split_ifs at h with hz
  · exact absurd h (defined_replaceUsesWithImm.ne b)
  · obtain ⟨lhs, hlhs, h⟩ := harmless_getArg.bind_eq_undefined.mp h
    obtain rfl := getArg_eq_ok hrhs
    obtain rfl := getArg_eq_ok hlhs
    split_ifs at h with himm
    · obtain ⟨q, hq, h⟩ := harmless_quotient.bind_eq_undefined.mp h
      rw [run_host_bind] at h
      cases q with
      | some q => exact absurd h (defined_replaceUsesWithImm.ne b)
      | none =>
          obtain rfl : zero = false := by simpa using hz
          exact ⟨hzero, (Bool.and_eq_true _ _ ▸ himm).2, hq⟩
    · obtain ⟨one, -, h⟩ := harmless_isUnsignedImmediate.bind_eq_undefined.mp h
      split_ifs at h
      · exact absurd h (defined_replaceUsesWith.ne b)
      · cases h

theorem foldDivide_unsigned_defined : foldDivide a w false b ≠ .error .undefinedBehaviour := by
  intro h
  obtain ⟨hzero, himm, hq⟩ := foldDivide_undefined h
  obtain ⟨x, -, hq⟩ := IRBlock.bind_eq_ok.mp hq
  obtain ⟨y, hy, hq⟩ := IRBlock.bind_eq_ok.mp hq
  have hdivide : Host.divide x y = none := Except.ok.inj hq
  have hne : y ≠ 0 := by
    rintro rfl
    simp [IRBlock.isZero, IRBlock.isUnsignedImmediate, himm, hy] at hzero
  rw [Host.divide, if_neg hne] at hdivide
  cases hdivide

theorem foldDivide_signed_undefined_iff (hop : (b.inst a).op = .alu (.signedDiv w)) :
    foldDivide a w true b = .error .undefinedBehaviour ↔ MostNegativeByMinusOne b a := by
  constructor
  · intro h
    obtain ⟨hzero, himm, hq⟩ := foldDivide_undefined h
    obtain ⟨x, hx, hq⟩ := IRBlock.bind_eq_ok.mp hq
    obtain ⟨y, hy, hq⟩ := IRBlock.bind_eq_ok.mp hq
    have hne : y ≠ 0 := by
      rintro rfl
      simp [isZero_of_getImmediateAsS64 hy] at hzero
    obtain ⟨rfl, rfl⟩ := (signedDivide_eq_none_iff hne).mp (Except.ok.inj hq)
    exact ⟨⟨w, hop⟩, hx, hy⟩
  · rintro ⟨-, hx, hy⟩
    have hlhs : b.getArg a 0 = .ok ((b.inst a).args 0) :=
      getArg_of_getImmediateAsS64 (by rw [hop]; rfl) hx
    have hrhs : b.getArg a 1 = .ok ((b.inst a).args 1) :=
      getArg_of_getImmediateAsS64 (by rw [hop]; rfl) hy
    obtain ⟨i, hi, -⟩ := resolve_of_getImmediateAsS64 hx
    obtain ⟨j, hj, -⟩ := resolve_of_getImmediateAsS64 hy
    rw [run_foldDivide, hrhs, hlhs]
    have hquotient : quotient b true ((b.inst a).args 0) ((b.inst a).args 1) = .ok none := by
      simp only [quotient, if_true, hx, hy]
      exact congrArg Except.ok ((signedDivide_eq_none_iff (by decide)).mpr ⟨rfl, rfl⟩)
    simp only [bind, Except.bind, isZero_of_getImmediateAsS64 hy, isImmediate_of_resolve hi,
      isImmediate_of_resolve hj, hquotient]
    rfl

theorem run_foldInst (b : IRBlock) (a : ℕ) : foldInst a b = foldOpcode a (b.inst a).op b :=
  run_query_bind _ _ b

theorem foldInst_undefined_iff (b : IRBlock) (a : ℕ) :
    foldInst a b = .error .undefinedBehaviour ↔ MostNegativeByMinusOne b a := by
  rw [run_foldInst]
  by_cases hsigned : ∃ w, (b.inst a).op = .alu (.signedDiv w)
  · obtain ⟨w, hop⟩ := hsigned
    rw [hop]
    exact foldDivide_signed_undefined_iff hop
  · refine iff_of_false ?_ fun h => hsigned h.1
    by_cases hunsigned : ∃ w, (b.inst a).op = .alu (.unsignedDiv w)
    · obtain ⟨w, hop⟩ := hunsigned
      rw [hop]
      exact foldDivide_unsigned_defined
    · exact (defined_foldOpcode (not_exists.mp hsigned) (not_exists.mp hunsigned)).ne b

/-! ### The quotients -/

/-- `SDIV` and `UDIV`: the quotient is rounded towards zero, and anything by zero is zero. -/
def armQuotient (isSigned : Bool) {n : ℕ} (x y : BitVec n) : BitVec n :=
  if y = 0 then 0
  else if isSigned then BitVec.ofInt n (x.toInt.tdiv y.toInt)
  else BitVec.ofNat n (x.toNat / y.toNat)

def Imm.ofWidth? : (w : Width) → Imm → Option (BitVec w.bits)
  | .w32, .u32 x => some x
  | .w64, .u64 x => some x
  | _, _ => none

/-- The value of an operand of this width, if `values` are the results of the instructions. -/
def operand (b : IRBlock) (w : Width) (values : ℕ → BitVec 64) (v : Value) :
    Option (BitVec w.bits) :=
  match b.resolve v with
  | .imm i => Imm.ofWidth? w i
  | .inst g => some ((values g).setWidth w.bits)

def divOp (isSigned : Bool) (w : Width) : AluOp := if isSigned then .signedDiv w else .unsignedDiv w

section Quotients

variable {w : Width} {values : ℕ → BitVec 64} {i : Imm}

theorem bits_le (w : Width) : w.bits ≤ 64 := by cases w <;> decide

theorem asU64_of_ofWidth {x : BitVec w.bits} (h : Imm.ofWidth? w i = some x) :
    i.asU64 = .ok (x.setWidth 64) := by
  match w, i, x, h with
  | .w32, .u32 x, _, rfl => rfl
  | .w64, .u64 x, _, rfl => exact congrArg Except.ok (BitVec.setWidth_eq x).symm

theorem asS64_of_ofWidth {x : BitVec w.bits} (h : Imm.ofWidth? w i = some x) :
    i.asS64 = .ok (x.signExtend 64) := by
  match w, i, x, h with
  | .w32, .u32 x, _, rfl => rfl
  | .w64, .u64 x, _, rfl => exact congrArg Except.ok (BitVec.signExtend_eq x).symm

theorem ofWidth_immOfWidth (value : BitVec 64) :
    Imm.ofWidth? w (immOfWidth w value) = some (value.setWidth w.bits) := by
  cases w with
  | w32 => rfl
  | w64 => exact congrArg some (BitVec.setWidth_eq value).symm

theorem operand_imm (b : IRBlock) (w : Width) (values : ℕ → BitVec 64) (i : Imm) :
    operand b w values (.imm i) = Imm.ofWidth? w i := by
  rw [operand, IRBlock.resolve, resolveWith_imm]

/-- Division at 64 bits and truncation give the quotient at the width of the operands. -/
theorem setWidth_quotient {isSigned : Bool} {x y : BitVec w.bits} {q : BitVec 64}
    (hq : (if isSigned then Host.signedDivide (x.signExtend 64) (y.signExtend 64)
      else Host.divide (x.setWidth 64) (y.setWidth 64)) = some q) :
    q.setWidth w.bits = armQuotient isSigned x y := by
  cases isSigned with
  | true =>
      simp only [if_true, Host.signedDivide] at hq
      split_ifs at hq with hundefined
      have hy : y ≠ 0 := fun hy => hundefined (.inl (by simp [hy, BitVec.signExtend]))
      rw [← Option.some.inj hq, armQuotient, if_neg hy]
      exact Host.setWidth_sdiv_signExtend (bits_le w) x y
  | false =>
      simp only [Bool.false_eq_true, if_false, Host.divide] at hq
      split_ifs at hq with hundefined
      have hy : y ≠ 0 := fun hy => hundefined (by simp [hy])
      rw [← Option.some.inj hq, armQuotient, if_neg hy]
      exact Host.setWidth_div_setWidth (bits_le w) x y

theorem armQuotient_one {n : ℕ} (isSigned : Bool) (x : BitVec n) (hn : 1 < n) :
    armQuotient isSigned x 1 = x := by
  have hone : (1 : BitVec n).toInt = 1 := BitVec.toInt_one hn
  have hnat : (1 : BitVec n).toNat = 1 := BitVec.toNat_one (by omega)
  have hne : (1 : BitVec n) ≠ 0 := fun h => by simp [h] at hnat
  rw [armQuotient, if_neg hne, hone, hnat]
  cases isSigned <;> simp

theorem args_of_replaceUsesWith (h : replaceUsesWith a v b = .ok ((), c)) :
    (c.inst a).args 0 = v := by
  obtain ⟨d, hd, h⟩ := IRBlock.bind_eq_ok.mp h
  obtain rfl : d = c := congrArg Prod.snd (Except.ok.inj h)
  have hcode := congrFun (IRBlock.codeUpdate_replaceUsesWith hd).code a
  rw [Function.update_self] at hcode
  rw [show (d.inst a).args = _ from congrArg Prod.snd hcode]
  simp

theorem operand_of_isUnsignedImmediate {y : BitVec w.bits} {n : ℕ}
    (h : b.isUnsignedImmediate v (BitVec.ofNat 64 n) = .ok true)
    (hy : operand b w values v = some y) : y = BitVec.ofNat w.bits n := by
  unfold IRBlock.isUnsignedImmediate at h
  split_ifs at h with himm
  · obtain ⟨z, hz, h⟩ := IRBlock.bind_eq_ok.mp h
    obtain rfl : z = _ := of_decide_eq_true (Except.ok.inj h)
    unfold IRBlock.getImmediateAsU64 at hz
    unfold operand at hy
    split at hz
    · rename_i i hi
      simp only [hi] at hy
      have hext : y.setWidth 64 = BitVec.ofNat 64 n :=
        Except.ok.inj ((asU64_of_ofWidth hy).symm.trans hz)
      have hback := congrArg (BitVec.setWidth w.bits) hext
      rw [BitVec.setWidth_setWidth_of_le _ (bits_le w), BitVec.setWidth_eq] at hback
      rw [hback, BitVec.setWidth_ofNat_of_le (bits_le w)]
    · cases hz
  · cases h

theorem quotient_eq {isSigned : Bool} {lhs rhs : Value} {x y : BitVec w.bits}
    (hlhs : b.isImmediate lhs = true) (hrhs : b.isImmediate rhs = true)
    (hx : operand b w values lhs = some x) (hy : operand b w values rhs = some y) :
    quotient b isSigned lhs rhs =
      .ok (if isSigned then Host.signedDivide (x.signExtend 64) (y.signExtend 64)
        else Host.divide (x.setWidth 64) (y.setWidth 64)) := by
  have hread {v : Value} {z : BitVec w.bits} (himm : b.isImmediate v = true)
      (hz : operand b w values v = some z) : b.getImmediateAsU64 v = .ok (z.setWidth 64) ∧
        b.getImmediateAsS64 v = .ok (z.signExtend 64) := by
    unfold IRBlock.isImmediate at himm
    unfold operand at hz
    unfold IRBlock.getImmediateAsU64 IRBlock.getImmediateAsS64
    split at himm
    · rename_i i hi
      simp only [hi] at hz
      exact ⟨asU64_of_ofWidth hz, asS64_of_ofWidth hz⟩
    · cases himm
  obtain ⟨hxu, hxs⟩ := hread hlhs hx
  obtain ⟨hyu, hys⟩ := hread hrhs hy
  cases isSigned <;> simp only [quotient, hxu, hxs, hyu, hys] <;> rfl

/-- A division that is folded is replaced by its quotient. -/
theorem foldDivide_quotient {isSigned : Bool} {x y : BitVec w.bits}
    (hop : (b.inst a).op = .alu (divOp isSigned w))
    (hfold : foldDivide a w isSigned b = .ok ((), c)) (hfolded : (c.inst a).op = .identity)
    (hx : operand b w values ((b.inst a).args 0) = some x)
    (hy : operand b w values ((b.inst a).args 1) = some y) :
    operand b w values ((c.inst a).args 0) = some (armQuotient isSigned x y) := by
  rw [run_foldDivide] at hfold
  obtain ⟨rhs, hrhs, hfold⟩ := IRBlock.bind_eq_ok.mp hfold
  obtain rfl := getArg_eq_ok hrhs
  obtain ⟨zero, hzero, hfold⟩ := IRBlock.bind_eq_ok.mp hfold
  split_ifs at hfold with hz
  · subst hz
    obtain rfl := operand_of_isUnsignedImmediate hzero hy
    rw [args_of_replaceUsesWith hfold, operand_imm, ofWidth_immOfWidth]
    simp [armQuotient]
  · obtain ⟨lhs, hlhs, hfold⟩ := IRBlock.bind_eq_ok.mp hfold
    obtain rfl := getArg_eq_ok hlhs
    split_ifs at hfold with himm
    · obtain ⟨himml, himmr⟩ := Bool.and_eq_true_iff.mp himm
      obtain ⟨q, hq, hfold⟩ := IRBlock.bind_eq_ok.mp hfold
      rw [quotient_eq himml himmr hx hy] at hq
      rw [run_host_bind] at hfold
      cases q with
      | none => cases hfold
      | some q =>
          rw [args_of_replaceUsesWith hfold, operand_imm, ofWidth_immOfWidth,
            setWidth_quotient (Except.ok.inj hq)]
    · obtain ⟨one, hone, hfold⟩ := IRBlock.bind_eq_ok.mp hfold
      split_ifs at hfold with ho
      · subst ho
        obtain rfl := operand_of_isUnsignedImmediate hone hy
        rw [args_of_replaceUsesWith hfold, hx]
        exact congrArg some (armQuotient_one isSigned x (by cases w <;> decide)).symm
      · obtain rfl : b = c := congrArg Prod.snd (Except.ok.inj hfold)
        rw [hop] at hfolded
        cases hfolded

end Quotients

/-! ### The pass -/

/-- If the visit of `a` folds a division, what it puts in its place is the quotient. -/
def QuotientAgrees (b : IRBlock) (a : ℕ) : Prop :=
  ∀ w isSigned c values x y, (b.inst a).op = .alu (divOp isSigned w) →
    foldInst a b = .ok ((), c) → (c.inst a).op = .identity →
    operand b w values ((b.inst a).args 0) = some x →
    operand b w values ((b.inst a).args 1) = some y →
    operand b w values ((c.inst a).args 0) = some (armQuotient isSigned x y)

theorem quotientAgrees (b : IRBlock) (a : ℕ) : QuotientAgrees b a := by
  intro w isSigned c values x y hop hfold hfolded hx hy
  rw [run_foldInst, hop] at hfold
  cases isSigned with
  | true => exact foldDivide_quotient hop hfold hfolded hx hy
  | false => exact foldDivide_quotient hop hfold hfolded hx hy

def visitsFrom : List ℕ → IRBlock → List (IRBlock × ℕ)
  | [], _ => []
  | a :: l, b =>
      (b, a) :: match foldInst a b with
        | .ok (_, c) => visitsFrom l c
        | .error _ => []

def visits (b : IRBlock) : List (IRBlock × ℕ) := visitsFrom b.instructions b

theorem forM_undefined_iff (l : List ℕ) (b : IRBlock) :
    l.forM foldInst b = .error .undefinedBehaviour ↔
      ∃ s ∈ visitsFrom l b, MostNegativeByMinusOne s.1 s.2 := by
  induction l generalizing b with
  | nil => exact iff_of_false nofun (by simp [visitsFrom])
  | cons a l ih =>
      have hrun : (a :: l).forM foldInst b = (foldInst a b >>= fun p => l.forM foldInst p.2) := rfl
      rw [hrun, visitsFrom, List.exists_mem_cons_iff, ← foldInst_undefined_iff]
      cases hfold : foldInst a b with
      | error stop =>
          change Except.error stop = _ ↔ _
          simp
      | ok p =>
          change l.forM foldInst p.2 = _ ↔ _
          rw [ih]
          simp

/-- The pass makes no undefined division, shift or conversion, and its quotients are those of the
architecture, exactly if no division it visits is that of the most negative number by `-1`. -/
theorem constantPropagation_defined_iff (b : IRBlock) :
    (constantPropagation b ≠ .error .undefinedBehaviour ∧
      ∀ s ∈ visits b, QuotientAgrees s.1 s.2) ↔
    ∀ s ∈ visits b, ¬MostNegativeByMinusOne s.1 s.2 := by
  have hrun : constantPropagation b = b.instructions.forM foldInst b := rfl
  rw [hrun, Ne, forM_undefined_iff, not_exists]
  constructor
  · rintro ⟨hdefined, -⟩ s hs hoverflow
    exact hdefined s ⟨hs, hoverflow⟩
  · intro h
    exact ⟨fun s hs => h s hs.1 hs.2, fun s _ => quotientAgrees s.1 s.2⟩

/-- The block that is just `SignedDiv64 0x8000000000000000, 0xffffffffffffffff`. -/
theorem constantPropagation_undefined : ∃ b,
    IRBlock.initial.prependNewInst none (.alu (.signedDiv .w64))
      [.imm (.u64 0x8000000000000000#64), .imm (.u64 0xffffffffffffffff#64)] = .ok (0, b) ∧
    constantPropagation b = .error .undefinedBehaviour :=
  ⟨_, rfl, rfl⟩

end Division

end Umbra.IR.ConstantPropagation
