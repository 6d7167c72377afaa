import Mathlib.Data.Nat.Notation

/-!
Programs whose memory accesses may abort.

A program is a sequence of instructions that each read and change the state at
once.  Some of them are accesses: an access may abort, and then it has no
effect, the program ends, and the state is the one that the instructions before
it have committed.
-/

namespace Umbra.Lib

inductive Program (S α : Type) : Type 1
  | done (a : α)
  | inst {β : Type} (access : Bool) (f : S → β × S) (next : β → Program S α)

namespace Program

variable {S α β : Type}

protected def bind : Program S α → (α → Program S β) → Program S β
  | done a, k => k a
  | inst access f next, k => inst access f fun b => (next b).bind k

instance : Monad (Program S) where
  pure := done
  bind := Program.bind

def run : Program S α → S → α × S
  | done a, s => (a, s)
  | inst _ f next, s => (next (f s).1).run (f s).2

/-- The state committed when the access number `k` aborts; there is none when the
program makes fewer accesses. -/
def committed : Program S α → ℕ → S → Option S
  | done _, _, _ => none
  | inst false f next, k, s => (next (f s).1).committed k (f s).2
  | inst true _ _, 0, s => some s
  | inst true f next, k + 1, s => (next (f s).1).committed k (f s).2

abbrev Access (S : Type) := (β : Type) × (S → β × S)

def accesses : Program S α → S → List (Access S)
  | done _, _ => []
  | inst false f next, s => (next (f s).1).accesses (f s).2
  | @inst _ _ β true f next, s => ⟨β, f⟩ :: (next (f s).1).accesses (f s).2

@[simp] theorem run_pure (a : α) (s : S) : (pure a : Program S α).run s = (a, s) := rfl

@[simp] theorem committed_pure (a : α) (k : ℕ) (s : S) :
    (pure a : Program S α).committed k s = none := rfl

@[simp] theorem run_bind (p : Program S α) (k : α → Program S β) (s : S) :
    (p >>= k).run s = (k (p.run s).1).run (p.run s).2 := by
  induction p generalizing s with
  | done a => rfl
  | inst access f next ih => exact ih _ _

@[simp] theorem accesses_pure (a : α) (s : S) : (pure a : Program S α).accesses s = [] := rfl

@[simp] theorem accesses_bind (p : Program S α) (k : α → Program S β) (s : S) :
    (p >>= k).accesses s = p.accesses s ++ (k (p.run s).1).accesses (p.run s).2 := by
  induction p generalizing s with
  | done a => rfl
  | inst access f next ih =>
      cases access with
      | false => exact ih _ _
      | true => exact congrArg (List.cons _) (ih _ _)

def silent (f : S → α × S) : Program S α := inst false f done

def access (f : S → α × S) : Program S α := inst true f done

@[simp] theorem run_silent (f : S → α × S) (s : S) : (silent f).run s = f s := rfl

@[simp] theorem run_access (f : S → α × S) (s : S) : (access f).run s = f s := rfl

@[simp] theorem accesses_silent (f : S → α × S) (s : S) : (silent f).accesses s = [] := rfl

@[simp] theorem accesses_access (f : S → α × S) (s : S) :
    (access f).accesses s = [⟨α, f⟩] := rfl

@[simp] theorem committed_silent_bind (f : S → α × S) (next : α → Program S β) (k : ℕ) (s : S) :
    (silent f >>= next).committed k s = (next (f s).1).committed k (f s).2 := rfl

@[simp] theorem committed_access_bind_zero (f : S → α × S) (next : α → Program S β) (s : S) :
    (access f >>= next).committed 0 s = some s := rfl

@[simp] theorem committed_access_bind_succ (f : S → α × S) (next : α → Program S β) (k : ℕ)
    (s : S) :
    (access f >>= next).committed (k + 1) s = (next (f s).1).committed k (f s).2 := rfl

@[simp] theorem pure_bind (a : α) (k : α → Program S β) : pure a >>= k = k a := rfl

theorem bind_assoc {γ : Type} (p : Program S α) (k : α → Program S β) (l : β → Program S γ) :
    p >>= k >>= l = p >>= fun a => k a >>= l := by
  induction p with
  | done a => rfl
  | inst access f next ih => exact congrArg (inst access f) (funext ih)

end Program

end Umbra.Lib
