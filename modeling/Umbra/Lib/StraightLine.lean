import Mathlib.Data.List.Forall2
import Mathlib.Order.BooleanAlgebra.Set

/-!
Straight-line code over named cells.

A block is a list of instructions, each with an identity of its own.  An
instruction takes constants and the results of other instructions, reads some
cells, and writes some cells; whatever else it does happens in the world, which
every instruction sees as a whole.  A machine says which cells an operation reads
and writes, and that nothing else about the cells matters to it.
-/

namespace Umbra.Lib.StraightLine

inductive Operand (V : Type)
  | const (v : V)
  | result (id : ℕ)
deriving DecidableEq

namespace Operand

variable {V : Type}

instance [Inhabited V] : Inhabited (Operand V) := ⟨const default⟩

def eval (results : ℕ → V) : Operand V → V
  | const v => v
  | result id => results id

@[simp] theorem eval_const (results : ℕ → V) (v : V) : (const v).eval results = v := rfl

@[simp] theorem eval_result (results : ℕ → V) (id : ℕ) :
    (result id : Operand V).eval results = results id := rfl

def Within (ids : Set ℕ) : Operand V → Prop
  | const _ => True
  | result id => id ∈ ids

theorem Within.mono {ids ids' : Set ℕ} {v : Operand V} (h : v.Within ids) (hsub : ids ⊆ ids') :
    v.Within ids' := by
  cases v with
  | const _ => trivial
  | result id => exact hsub h

theorem eval_congr {results results' : ℕ → V} {ids : Set ℕ} {v : Operand V} (hv : v.Within ids)
    (h : ∀ id ∈ ids, results id = results' id) : v.eval results = v.eval results' := by
  cases v with
  | const _ => rfl
  | result id => exact h id hv

end Operand

/-- What an instruction does: nothing, hand on its operand, or an operation. -/
inductive Code (O : Type)
  | void
  | copy
  | op (o : O)
deriving DecidableEq

structure Instr (O V : Type) where
  id : ℕ
  code : Code O
  args : List (Operand V)
deriving DecidableEq

namespace Instr

variable {O V : Type}

def invalidate (i : Instr O V) : Instr O V := ⟨i.id, .void, []⟩

end Instr

structure Config (V : Type) {Loc : Type} (C : Loc → Type) (W : Type) where
  results : ℕ → V
  cells : ∀ l, C l
  world : W

structure Machine (O V : Type) {Loc : Type} (C : Loc → Type) (W : Type) where
  /-- Whether the operation has a result. -/
  yields : O → Bool
  /-- The cells the operation may depend on. -/
  reads : O → Set Loc
  /-- The cells the operation overwrites. -/
  writes : O → Set Loc
  value : O → List V → (∀ l, C l) → W → V
  cellsAfter : O → List V → (∀ l, C l) → W → ∀ l, C l
  worldAfter : O → List V → (∀ l, C l) → W → W
  frame : ∀ o args cells w l, l ∉ writes o → cellsAfter o args cells w l = cells l
  value_congr : ∀ o args cells cells' w, (∀ l ∈ reads o, cells l = cells' l) →
    value o args cells w = value o args cells' w
  cells_congr : ∀ o args cells cells' w, (∀ l ∈ reads o, cells l = cells' l) →
    ∀ l ∈ writes o, cellsAfter o args cells w l = cellsAfter o args cells' w l
  world_congr : ∀ o args cells cells' w, (∀ l ∈ reads o, cells l = cells' l) →
    worldAfter o args cells w = worldAfter o args cells' w

namespace Machine

variable {O V Loc W : Type} {C : Loc → Type}

section Execution

variable [Inhabited V] (m : Machine O V C W)

def step (i : Instr O V) (c : Config V C W) : Config V C W :=
  let args := i.args.map (·.eval c.results)
  match i.code with
  | .void => c
  | .copy => { c with results := Function.update c.results i.id (args.headD default) }
  | .op o =>
      { results := if m.yields o then Function.update c.results i.id (m.value o args c.cells c.world)
          else c.results
        cells := m.cellsAfter o args c.cells c.world
        world := m.worldAfter o args c.cells c.world }

def run : List (Instr O V) → Config V C W → Config V C W
  | [], c => c
  | i :: l, c => run l (m.step i c)

variable {m}

@[simp] theorem run_nil (c : Config V C W) : m.run [] c = c := rfl

@[simp] theorem run_cons (i : Instr O V) (l : List (Instr O V)) (c : Config V C W) :
    m.run (i :: l) c = m.run l (m.step i c) := rfl

theorem run_append (l l' : List (Instr O V)) (c : Config V C W) :
    m.run (l ++ l') c = m.run l' (m.run l c) := by
  induction l generalizing c with
  | nil => rfl
  | cons i l ih => exact ih _

end Execution

end Machine

end Umbra.Lib.StraightLine
