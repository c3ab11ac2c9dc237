import Lockstep.Candidate

/-!
# Factories

Every replay gets a fresh candidate. A factory makes them one after the other; it may keep a
state from one to the next, and making one may panic.
-/

namespace Lockstep

universe u v

/-- Makes candidates with states of type `σ`; the factory itself has states of type `φ`. -/
abbrev Factory (φ : Type u) (σ : Type v) := φ → Except Panic σ × φ

/-- The factory whose candidates all begin in the same state. -/
def Factory.constant {σ : Type v} (s : σ) : Factory Unit σ := fun f => (.ok s, f)

end Lockstep
