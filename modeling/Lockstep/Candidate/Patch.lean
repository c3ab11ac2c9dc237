import Lockstep.Candidate

/-!
# Patched candidates

A candidate with some calls of one method replaced. The calls of the method are counted, and at
the chosen call, or from that call on, the patch replies instead of the candidate inside.
-/

namespace Lockstep

universe u v w

/-- A reply to put in the place of a method's own. -/
inductive Substitute (α : Type u) where
  | hasMore (reply : Reply Bool)
  | produceNext (reply : Reply α)
  | removeLast (reply : Reply Unit)

/-- Which calls are replaced, and how. -/
structure Patch (α : Type u) where
  substitute : Substitute α
  /-- The number of the first call that is replaced, from zero. -/
  call : Nat
  /-- Whether all later calls are replaced too. -/
  repeats : Bool
  /-- Whether the candidate inside is called all the same, and its reply dropped. -/
  passes : Bool

/-- The state of a patched candidate. -/
structure Patched (σ : Type u) where
  inner : σ
  /-- The number of calls of the patched method so far. -/
  calls : Nat

namespace Patch

variable {σ : Type u} {α : Type v} {β : Type w}

/-- Whether the call of number `n` is replaced. -/
def replaces (p : Patch α) (n : Nat) : Bool :=
  if p.repeats then p.call ≤ n else n = p.call

/-- A call of a method that the patch leaves alone. -/
def untouched (method : σ → Reply β × σ) (s : Patched σ) : Reply β × Patched σ :=
  let (reply, inner) := method s.inner
  (reply, { s with inner })

/-- A call of the patched method. A panic of the candidate inside is not held back. -/
def intercept (p : Patch α) (own : Reply β) (method : σ → Reply β × σ) (s : Patched σ) :
    Reply β × Patched σ :=
  if p.replaces s.calls then
    if p.passes then
      match method s.inner with
      | (.panic e, inner) => (.panic e, ⟨inner, s.calls + 1⟩)
      | (_, inner) => (own, ⟨inner, s.calls + 1⟩)
    else (own, { s with calls := s.calls + 1 })
  else
    let (reply, inner) := method s.inner
    (reply, ⟨inner, s.calls + 1⟩)

/-- The candidate inside, with the patch. -/
def candidate (p : Patch α) (c : Candidate σ α) : Candidate (Patched σ) α :=
  let plain : Candidate (Patched σ) α :=
    { hasMore := untouched c.hasMore
      produceNext := untouched c.produceNext
      removeLast := untouched c.removeLast }
  match p.substitute with
  | .hasMore reply => { plain with hasMore := p.intercept reply c.hasMore }
  | .produceNext reply => { plain with produceNext := p.intercept reply c.produceNext }
  | .removeLast reply => { plain with removeLast := p.intercept reply c.removeLast }

end Patch

end Lockstep
