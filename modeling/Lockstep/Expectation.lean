import Lockstep.Outcome

/-!
# Expectations

What the reference predicts of one call, and the contract on the order of production under
which it predicts.
-/

namespace Lockstep

universe u

/-- Whether the order of production belongs to the contract. -/
inductive Order where
  /-- The elements come in the expected order. -/
  | determinate
  /-- The elements come in any order, each as often as expected. -/
  | indeterminate
  deriving DecidableEq, Repr

/-- The name of an order contract in reports. -/
def Order.name : Order → String
  | determinate => "determinate"
  | indeterminate => "indeterminate"

/-- The predicted outcome of one call. -/
inductive Expectation (α : Type u) where
  | hasMore (more : Bool)
  | element (x : α)
  | anyOf (xs : List α)
  | removed
  /-- The call ends with a fault that stands for this kind. -/
  | fault (kind : FaultKind)
  deriving DecidableEq

/-- An expectation in words. -/
def Expectation.text {α : Type u} [Literal α] : Expectation α → String
  | hasMore more => "has_more = " ++ literal more
  | element x => "produced " ++ literal x
  | anyOf xs => "any of " ++ literal xs
  | removed => "removed"
  | fault kind => "error " ++ kind.name

end Lockstep
