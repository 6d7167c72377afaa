import Umbra.IR.Microinstruction

/-!
What a block does.

An instruction takes the results of others and the world, and gives a result and a new world.  The
result is everything that other instructions can ask of it, flags and upper halves included; the
world is everything outside: the guest state, memory, callbacks, and what has happened so far.
Nothing is said about the single opcodes, only that one without side effects leaves the world
alone.
-/

namespace Umbra.IR

structure Semantics (R W : Type) where
  imm : Imm → R
  eval : Opcode → (Fin 4 → R) → W → R × W
  eval_world : ∀ op args w, op.mayHaveSideEffects = false → (eval op args w).2 = w

namespace Semantics

variable {R W : Type} (s : Semantics R W)

def value (results : ℕ → R) : Value → R
  | .imm i => s.imm i
  | .inst g => results g

def step (b : IRBlock) (c : (ℕ → R) × W) (a : ℕ) : (ℕ → R) × W :=
  match (b.inst a).op with
  | .void => c
  | .identity => (Function.update c.1 a (s.value c.1 ((b.inst a).args 0)), c.2)
  | op =>
      let r := s.eval op (fun i => s.value c.1 ((b.inst a).args i)) c.2
      (Function.update c.1 a r.1, r.2)

def exec (b : IRBlock) (c : (ℕ → R) × W) : (ℕ → R) × W := b.instructions.foldl (s.step b) c

variable {s} {b : IRBlock} {a : ℕ} {c : (ℕ → R) × W}

theorem step_of_void (h : (b.inst a).op = .void) : s.step b c a = c := by
  rw [step, h]

theorem step_of_identity (h : (b.inst a).op = .identity) :
    s.step b c a = (Function.update c.1 a (s.value c.1 ((b.inst a).args 0)), c.2) := by
  rw [step, h]

theorem step_of_op (hvoid : (b.inst a).op ≠ .void) (hidentity : (b.inst a).op ≠ .identity) :
    s.step b c a =
      (Function.update c.1 a
        (s.eval (b.inst a).op (fun i => s.value c.1 ((b.inst a).args i)) c.2).1,
       (s.eval (b.inst a).op (fun i => s.value c.1 ((b.inst a).args i)) c.2).2) := by
  rw [step]
  split
  · exact absurd ‹_› hvoid
  · exact absurd ‹_› hidentity
  · rfl

theorem step_of_pure (h : (b.inst a).op.mayHaveSideEffects = false) :
    (s.step b c a).2 = c.2 ∧ ∀ g, g ≠ a → (s.step b c a).1 g = c.1 g := by
  by_cases hvoid : (b.inst a).op = .void
  · rw [step_of_void hvoid]
    exact ⟨rfl, fun _ _ => rfl⟩
  by_cases hidentity : (b.inst a).op = .identity
  · rw [step_of_identity hidentity]
    exact ⟨rfl, fun g hg => Function.update_of_ne hg _ _⟩
  · rw [step_of_op hvoid hidentity]
    exact ⟨s.eval_world _ _ _ h, fun g hg => Function.update_of_ne hg _ _⟩

theorem value_congr {results results' : ℕ → R} {v : Value}
    (h : ∀ g, v = .inst g → results' g = results g) : s.value results' v = s.value results v := by
  cases v with
  | imm i => rfl
  | inst g => exact h g rfl

theorem step_congr {b' : IRBlock} {c' : (ℕ → R) × W} (hcode : b'.code a = b.code a)
    (hargs : ∀ i g, (b.inst a).args i = .inst g → c'.1 g = c.1 g) (hworld : c'.2 = c.2)
    {K : ℕ → Prop} (hK : ∀ g, K g → c'.1 g = c.1 g) :
    (s.step b' c' a).2 = (s.step b c a).2 ∧
      ∀ g, K g → (s.step b' c' a).1 g = (s.step b c a).1 g := by
  have hop : (b'.inst a).op = (b.inst a).op := congrArg Prod.fst hcode
  have hargs' : (b'.inst a).args = (b.inst a).args := congrArg Prod.snd hcode
  have hvalue (i : Fin 4) :
      s.value c'.1 ((b'.inst a).args i) = s.value c.1 ((b.inst a).args i) := by
    rw [hargs']
    exact value_congr (hargs i)
  have hupdate (r : R) (g : ℕ) (hg : K g) :
      Function.update c'.1 a r g = Function.update c.1 a r g := by
    by_cases hga : g = a
    · subst hga
      simp
    · rw [Function.update_of_ne hga, Function.update_of_ne hga, hK g hg]
  by_cases hvoid : (b.inst a).op = .void
  · rw [step_of_void hvoid, step_of_void (hop.trans hvoid)]
    exact ⟨hworld, hK⟩
  by_cases hidentity : (b.inst a).op = .identity
  · rw [step_of_identity hidentity, step_of_identity (hop.trans hidentity), hvalue]
    exact ⟨hworld, hupdate _⟩
  · rw [step_of_op hvoid hidentity, step_of_op (hop ▸ hvoid) (hop ▸ hidentity)]
    simp only [hvalue, hop, hworld]
    exact ⟨trivial, hupdate _⟩

end Semantics

end Umbra.IR
