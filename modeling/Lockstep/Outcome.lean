import Lockstep.Fault
import Lockstep.Literal

/-!
# Outcomes

What was observed of one call on a candidate: the answer, the element, the completed removal, or
the fault it ended with. A panic is observed as a fault of kind `FaultKind.panicked`.
-/

namespace Lockstep

universe u

/-- What was observed of one call. -/
inductive Outcome (α : Type u) where
  | hasMore (more : Bool)
  | produced (x : α)
  | removed
  | failed (fault : Fault)
  deriving DecidableEq

namespace Outcome

variable {α : Type u}

/-- The fault that the call ended with. -/
def fault? : Outcome α → Option Fault
  | failed f => some f
  | _ => none

/-- The element that the call returned. -/
def element? : Outcome α → Option α
  | produced x => some x
  | _ => none

/-- An outcome in words. -/
def text [Literal α] : Outcome α → String
  | hasMore more => "has_more = " ++ literal more
  | produced x => "produced " ++ literal x
  | removed => "removed"
  | failed f => "error " ++ f.text

@[simp] theorem fault?_eq_some {o : Outcome α} {f : Fault} : o.fault? = some f ↔ o = failed f := by
  cases o <;> simp [fault?]

@[simp] theorem element?_eq_some {o : Outcome α} {x : α} :
    o.element? = some x ↔ o = produced x := by
  cases o <;> simp [element?]

end Outcome

end Lockstep
