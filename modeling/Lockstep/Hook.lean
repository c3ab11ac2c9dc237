import Lockstep.Candidate
import Lockstep.Reference

/-!
# Invariant hooks

A hook is called after every accepted step. It is shown the expected contents and may look at
the candidate; it accepts the step, rejects it with a message, or panics. A hook keeps a state
of its own from call to call.
-/

namespace Lockstep

universe u v w

/-- What a hook says about a step. -/
inductive HookAnswer where
  | accept
  /-- The step counts as a divergence. -/
  | reject (message : String)
  /-- The hook panicked, which ends the whole test. -/
  | panic (p : Panic)
  deriving DecidableEq

/-- A hook with states of type `η`, over candidates with states of type `σ`. -/
abbrev Hook (η : Type u) (σ : Type v) (α : Type w) := η → View α → σ → HookAnswer × η

namespace Hook

variable {σ : Type v} {α : Type w}

/-- The hook that accepts every step. -/
def accepting : Hook Unit σ α := fun h _ _ => (.accept, h)

/-- The hook that judges each step by the expected contents alone. -/
def ofView (check : View α → HookAnswer) : Hook Unit σ α := fun h v _ => (check v, h)

end Hook

end Lockstep
