/-!
# Faults

The error that a candidate's method may end with. A fault has a base kind, by which alone it is
judged; it may name a subordinate kind of its own, and carries a message for the reader.
-/

namespace Lockstep

/-- The base classification of a fault. -/
inductive FaultKind where
  /-- No element is left to produce. -/
  | exhausted
  /-- A removal with no element eligible for it. -/
  | illegalRemoval
  /-- The candidate does not offer the operation. -/
  | unsupported
  /-- The candidate rejected its input. -/
  | invalidArgument
  /-- The candidate panicked. -/
  | panicked
  deriving DecidableEq, Repr

/-- The name of a kind in reports. -/
def FaultKind.name : FaultKind → String
  | exhausted => "exhausted"
  | illegalRemoval => "illegal-remove-state"
  | unsupported => "unsupported"
  | invalidArgument => "invalid-argument"
  | panicked => "panicked"

/-- A fault raised by a candidate. -/
structure Fault where
  kind : FaultKind
  /-- The name of the subordinate kind, if the fault is one. -/
  specialization : Option String := none
  message : String
  deriving DecidableEq, Repr

namespace Fault

/-- The fault of a candidate with nothing left to produce. -/
def exhausted : Fault := { kind := .exhausted, message := "no more elements" }

/-- The fault of a removal with no element eligible for it. -/
def illegalRemoval : Fault :=
  { kind := .illegalRemoval, message := "no element eligible for removal" }

/-- The fault of an operation that is not offered. -/
def unsupported : Fault := { kind := .unsupported, message := "operation not supported" }

/-- The fault that stands for a panic. -/
def panicked (message : String) : Fault := { kind := .panicked, message }

/-- The fault as a subordinate kind of its base kind; a later name replaces an earlier one. -/
def specialize (f : Fault) (name : String) : Fault := { f with specialization := some name }

/-- Whether the fault may stand where `kind` is expected: a subordinate kind may stand for its
base kind, whatever its name. -/
def standsFor (f : Fault) (kind : FaultKind) : Bool := f.kind == kind

/-- The base kind, the subordinate kind in parentheses if there is one, and the message. -/
def text (f : Fault) : String :=
  let suffix := match f.specialization with
    | some name => " (" ++ name ++ ")"
    | none => ""
  f.kind.name ++ suffix ++ ": " ++ f.message

theorem standsFor_iff {f : Fault} {kind : FaultKind} : f.standsFor kind = true ↔ f.kind = kind := by
  simp [standsFor]

@[simp] theorem standsFor_specialize (f : Fault) (name : String) (kind : FaultKind) :
    (f.specialize name).standsFor kind = f.standsFor kind := rfl

end Fault

end Lockstep
