import Mathlib.Logic.Basic

/-!
Weakest preconditions of programs that an exception can leave half done.

A program changes a state and returns a value, or stops for a reason and leaves behind the state
it had reached: what a destructor finds when the stack is unwound.  So a postcondition has two
parts, one for the states in which the program returns and one for those in which it stops.
-/

namespace Umbra.Lib

variable {ε σ α β : Type}

/-- Started in `s` the program returns with `Q`, or stops with `E`. -/
def wp (m : EStateM ε σ α) (Q : α → σ → Prop) (E : ε → σ → Prop) (s : σ) : Prop :=
  match m s with
  | .ok a t => Q a t
  | .error e t => E e t

section Rules

variable {m : EStateM ε σ α} {k : α → EStateM ε σ β} {Q Q' : α → σ → Prop} {R : β → σ → Prop}
  {E : ε → σ → Prop} {s : σ}

@[simp] theorem wp_pure {a : α} : wp (pure a) Q E s ↔ Q a s := Iff.rfl

@[simp] theorem wp_throw {e : ε} : wp (throw e) Q E s ↔ E e s := Iff.rfl

@[simp] theorem wp_get {Q : σ → σ → Prop} : wp get Q E s ↔ Q s s := Iff.rfl

@[simp] theorem wp_modify {f : σ → σ} {Q : PUnit → σ → Prop} :
    wp (modify f) Q E s ↔ Q ⟨⟩ (f s) := Iff.rfl

@[simp] theorem wp_bind : wp (m >>= k) R E s ↔ wp m (fun a => wp (k a) R E) E s := by
  change (match EStateM.bind m k s with
    | .ok a t => R a t
    | .error e t => E e t) ↔ _
  unfold wp EStateM.bind
  cases m s <;> rfl

@[simp] theorem wp_ite {c : Prop} [Decidable c] {m m' : EStateM ε σ α} :
    wp (if c then m else m') Q E s ↔ (c → wp m Q E s) ∧ (¬ c → wp m' Q E s) := by
  split <;> simp_all

@[simp] theorem wp_discard {Q : PUnit → σ → Prop} :
    wp (discard m) Q E s ↔ wp m (fun _ => Q ⟨⟩) E s :=
  wp_bind (k := fun _ => pure PUnit.unit)

theorem wp_mono (h : wp m Q E s) (hQ : ∀ a t, Q a t → Q' a t) : wp m Q' E s := by
  unfold wp at h ⊢
  cases hm : m s with
  | ok a t => exact hQ a t (by simpa only [hm] using h)
  | error e t => simpa only [hm] using h

theorem wp_ok {a : α} {t : σ} (h : wp m Q E s) (hm : m s = .ok a t) : Q a t := by
  simpa only [wp, hm] using h

theorem wp_error {e : ε} {t : σ} (h : wp m Q E s) (hm : m s = .error e t) : E e t := by
  simpa only [wp, hm] using h

theorem exists_ok_of_wp (h : wp m Q (fun _ _ => False) s) : ∃ a t, m s = .ok a t ∧ Q a t := by
  unfold wp at h
  cases hm : m s with
  | ok a t => exact ⟨a, t, rfl, by simpa only [hm] using h⟩
  | error e t => simp only [hm] at h

/-- What every visit preserves holds after all of them. -/
theorem wp_forM {I : σ → Prop} {body : α → EStateM ε σ PUnit} {l : List α} (hs : I s)
    (hbody : ∀ a ∈ l, ∀ t, I t → wp (body a) (fun _ => I) E t) :
    wp (l.forM body) (fun _ => I) E s := by
  induction l generalizing s with
  | nil => exact hs
  | cons a l ih =>
      refine wp_bind.mpr (wp_mono (hbody a (by simp) s hs) fun _ t ht => ?_)
      exact ih ht fun b hb => hbody b (by simp [hb])

end Rules

end Umbra.Lib
