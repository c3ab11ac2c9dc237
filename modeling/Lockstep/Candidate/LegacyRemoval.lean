import Lockstep.Candidate

/-!
# The legacy removal defect

A wrapper that gives any candidate a historical defect: once a production has ended with a fault,
every later removal is refused without asking the candidate inside, also the one that is still
due. It is what `Judge.toleratesLegacyRemoval` is for.
-/

namespace Lockstep

universe u v

/-- The state of a wrapped candidate. -/
structure LegacyRemoval (σ : Type u) where
  inner : σ
  /-- Whether a production has ended with a fault. -/
  nextFailed : Bool

namespace LegacyRemoval

variable {σ : Type u} {α : Type v}

/-- Wraps a candidate in its present state. -/
def ofInner (inner : σ) : LegacyRemoval σ := ⟨inner, false⟩

/-- Asks the candidate inside. -/
def hasMore (c : Candidate σ α) (s : LegacyRemoval σ) : Reply Bool × LegacyRemoval σ :=
  let (reply, inner) := c.hasMore s.inner
  (reply, { s with inner })

/-- Asks the candidate inside, and notes a fault. A panic is not one. -/
def produceNext (c : Candidate σ α) (s : LegacyRemoval σ) : Reply α × LegacyRemoval σ :=
  match c.produceNext s.inner with
  | (.fault f, inner) => (.fault f, ⟨inner, true⟩)
  | (reply, inner) => (reply, { s with inner })

/-- Refuses once a production has failed. -/
def removeLast (c : Candidate σ α) (s : LegacyRemoval σ) : Reply Unit × LegacyRemoval σ :=
  if s.nextFailed then (.fault .illegalRemoval, s)
  else
    let (reply, inner) := c.removeLast s.inner
    (reply, { s with inner })

/-- The candidate inside, with the defect. -/
def candidate (c : Candidate σ α) : Candidate (LegacyRemoval σ) α where
  hasMore := hasMore c
  produceNext := produceNext c
  removeLast := removeLast c

end LegacyRemoval

end Lockstep
