import Mathlib.Data.Nat.Notation

/-!
The types and values of the intermediate representation.
-/

namespace Umbra.IR

inductive Ty
  | u1 | u8 | u16 | u32 | u64 | u128 | nzcv | table
deriving DecidableEq

/-- The values of a type; the flags of `NZCVFlags` with N highest. -/
abbrev Ty.Data : Ty → Type
  | u1 => Bool
  | u8 => BitVec 8
  | u16 => BitVec 16
  | u32 => BitVec 32
  | u64 => BitVec 64
  | u128 => BitVec 128
  | nzcv => BitVec 4
  | table => List (BitVec 128)

instance : (t : Ty) → Inhabited t.Data
  | .u1 => ⟨false⟩
  | .u8 | .u16 | .u32 | .u64 | .u128 | .nzcv => ⟨0⟩
  | .table => ⟨[]⟩

structure Val where
  ty : Ty
  data : ty.Data

namespace Val

instance : Inhabited Val := ⟨⟨.u1, false⟩⟩

def as (t : Ty) (v : Val) : t.Data :=
  if h : v.ty = t then h ▸ v.data else default

@[simp] theorem as_mk (t : Ty) (x : t.Data) : (⟨t, x⟩ : Val).as t = x := by
  rw [as, dif_pos rfl]

end Val

end Umbra.IR
