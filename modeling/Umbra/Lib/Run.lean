import Mathlib.Data.Option.Basic
import Mathlib.Logic.Relation

/-!
Runs of a machine whose step may refuse.

A machine is a function `step : σ → α → Option σ`: the action `a` taken in the
state `s` either leads to a successor or is not possible there (an assertion
fails, a lock is not free).  A run is *guarded* by a predicate `ok` when every
action is taken in a state where `ok` permits it.  The invariant rule of this
file is the only induction over runs that the rest of the development uses.
-/

namespace Umbra.Lib

variable {σ α : Type*} {step : σ → α → Option σ} {ok : σ → α → Prop}

def Guarded (step : σ → α → Option σ) (ok : σ → α → Prop) (s t : σ) : Prop :=
  ∃ a, ok s a ∧ step s a = some t

/-- The states a guarded run can reach. -/
def Reaches (step : σ → α → Option σ) (ok : σ → α → Prop) : σ → σ → Prop :=
  Relation.ReflTransGen (Guarded step ok)

def always (_ : σ) (_ : α) : Prop := True

def run (step : σ → α → Option σ) : σ → List α → Option σ
  | s, [] => some s
  | s, a :: rest => (step s a).bind fun t => run step t rest

/-- What holds at the start and is kept by every permitted step holds in every
state reached. -/
theorem Reaches.invariant {I : σ → Prop} {s t : σ} (hreach : Reaches step ok s t)
    (hs : I s) (hstep : ∀ s a t, I s → ok s a → step s a = some t → I t) : I t := by
  induction hreach with
  | refl => exact hs
  | tail _ hlast ih =>
      obtain ⟨a, hok, ha⟩ := hlast
      exact hstep _ a _ ih hok ha

/-- Every action of the list is permitted in the state it is taken in. -/
def Follows (step : σ → α → Option σ) (ok : σ → α → Prop) : σ → List α → Prop
  | _, [] => True
  | s, a :: rest => ok s a ∧ ∀ t, step s a = some t → Follows step ok t rest

instance decidableFollows [∀ s a, Decidable (ok s a)] :
    ∀ s actions, Decidable (Follows step ok s actions)
  | _, [] => isTrue trivial
  | s, a :: rest =>
      have := fun t => decidableFollows t rest
      inferInstanceAs (Decidable (ok s a ∧ ∀ t ∈ step s a, Follows step ok t rest))

theorem reaches_of_run {s t : σ} {actions : List α} (h : run step s actions = some t)
    (hok : Follows step ok s actions) : Reaches step ok s t := by
  induction actions generalizing s with
  | nil =>
      obtain rfl : s = t := by simpa [run] using h
      exact Relation.ReflTransGen.refl
  | cons a rest ih =>
      obtain ⟨u, hu, hrest⟩ := Option.bind_eq_some_iff.mp h
      exact Relation.ReflTransGen.head ⟨a, hok.1, hu⟩ (ih hrest (hok.2 u hu))

theorem follows_always (s : σ) (actions : List α) : Follows step always s actions := by
  induction actions generalizing s with
  | nil => trivial
  | cons a rest ih => exact ⟨trivial, fun t _ => ih t⟩

end Umbra.Lib
