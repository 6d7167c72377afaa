import Mathlib.Logic.Basic

/-!
Pre- and postconditions of programs that change a state and may stop.

A program reads and changes a state and either returns a value or stops for a reason.  A triple
says what holds of the value and the state where the program returns, and of the reason where it
stops.
-/

namespace Umbra.Lib

variable {σ ε α β : Type}

/-- From a state with `P` the program returns with `Q`, or stops for a reason in `E`. -/
def Triple (P : σ → Prop) (m : StateT σ (Except ε) α) (Q : α → σ → Prop) (E : ε → Prop) : Prop :=
  ∀ s, P s →
    match m s with
    | .ok (a, t) => Q a t
    | .error e => E e

namespace Triple

variable {P P' : σ → Prop} {Q Q' : α → σ → Prop} {R : β → σ → Prop} {E : ε → Prop}
  {m : StateT σ (Except ε) α} {k : α → StateT σ (Except ε) β}

theorem pure {a : α} (h : ∀ s, P s → Q a s) : Triple P (Pure.pure a) Q E := h

theorem bind (hm : Triple P m Q E) (hk : ∀ a, Triple (Q a) (k a) R E) :
    Triple P (m >>= k) R E := by
  intro s hs
  have hms := hm s hs
  change match (m s >>= fun p => k p.1 p.2) with
    | .ok (a, t) => R a t
    | .error e => E e
  cases hmr : m s with
  | error e =>
      rw [hmr] at hms
      exact hms
  | ok p =>
      rw [hmr] at hms
      exact hk p.1 p.2 hms

theorem ite {c : Prop} [Decidable c] {m m' : StateT σ (Except ε) α} (hm : Triple P m Q E)
    (hm' : Triple P m' Q E) : Triple P (if c then m else m') Q E := by
  split
  · exact hm
  · exact hm'

end Triple

end Umbra.Lib
