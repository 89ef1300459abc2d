import RtHypervisor.Verified.Run

/-!
# Simulation of fallible programs

A program over a concrete state and one over an abstract state simulate each other when both
fail in the same way or both return related results.  `Sim.bind` composes simulations along
the monadic code, and `Sim.exists_ok` reads a result of the concrete program off one of the
abstract program.
-/

namespace RtHypervisor.Verified.Simulation

open RtHypervisor.Verified.Run

variable {φ α β γ δ : Type}

/-- Both programs fail alike, or return results related by `R`. -/
inductive Sim (R : α → β → Prop) : Except φ α → Except φ β → Prop
  | ok {a : α} {b : β} (h : R a b) : Sim R (.ok a) (.ok b)
  | error (e : φ) : Sim R (.error e) (.error e)

variable {R R' : α → β → Prop} {Q : γ → δ → Prop} {x : Except φ α} {y : Except φ β}

theorem Sim.bind {f : α → Except φ γ} {g : β → Except φ δ} (h : Sim R x y)
    (hnext : ∀ a b, R a b → Sim Q (f a) (g b)) : Sim Q (x >>= f) (y >>= g) := by
  cases h with
  | ok h => exact hnext _ _ h
  | error e => exact .error e

/-- The same first step on both sides. -/
theorem Sim.bind_left {τ : Type} {z : Except φ τ} {f : τ → Except φ γ} {g : τ → Except φ δ}
    (hnext : ∀ c, z = .ok c → Sim Q (f c) (g c)) : Sim Q (z >>= f) (z >>= g) := by
  cases z with
  | ok c => exact hnext c rfl
  | error e => exact .error e

/-- What the abstract program returns, the concrete one does. -/
theorem Sim.exists_ok {b : β} (h : Sim R x (.ok b)) : ∃ a, x = .ok a ∧ R a b := by
  cases h with
  | ok h => exact ⟨_, rfl, h⟩

end RtHypervisor.Verified.Simulation
