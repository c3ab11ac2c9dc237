import Lockstep.Expectation

/-!
# Verdicts

One observed outcome is judged against the expectation for it. Values must be equal, or one of
the pending elements when the order is open; a fault must stand for the kind expected, whatever
its own name and message; a value where a fault was expected is a missing fault, and the other
way round an unexpected one.

One defect can be tolerated on request. Some iterators, once `produceNext` has reported that
nothing is left, refuse the removal that is still due for the last element. The judge accepts
that refusal directly after the report, and nowhere else.
-/

namespace Lockstep

universe u

/-- Why a step diverged from the reference. -/
inductive Violation where
  | valueMismatch
  /-- The reference expected a fault and the candidate returned normally. -/
  | missingFault (expected : FaultKind)
  /-- The candidate raised a fault of another kind than the expected one. -/
  | mismatchedKind (expected actual : FaultKind)
  /-- The candidate raised a fault where the reference predicted success. -/
  | unexpectedFault (actual : FaultKind)
  /-- The invariant hook rejected the step. -/
  | invariantFailed (message : String)
  deriving DecidableEq

/-- A violation in words. -/
def Violation.text : Violation → String
  | valueMismatch => "value mismatch: candidate result disagrees with the reference"
  | missingFault expected =>
    "missing exception: expected " ++ expected.name ++ " error but the candidate returned normally"
  | mismatchedKind expected actual =>
    "mismatched exception: expected " ++ expected.name ++ " error but the candidate raised " ++
      actual.name
  | unexpectedFault actual =>
    "unexpected exception: candidate raised " ++ actual.name ++
      " where the reference predicted success"
  | invariantFailed message => "invariant check failed: " ++ message

/-- The judgement on one step. -/
inductive Verdict where
  | agree
  /-- The outcome is the known legacy defect, accepted on request. -/
  | tolerated
  | diverge (violation : Violation)
  deriving DecidableEq

/-- Whether a replay goes on after the step. -/
def Verdict.isAcceptable : Verdict → Bool
  | diverge _ => false
  | _ => true

/-- The reason of a divergence. -/
def Verdict.violation? : Verdict → Option Violation
  | diverge v => some v
  | _ => none

/-- Judges outcomes against expectations. -/
structure Judge where
  /-- Whether a refused removal directly after exhaustion is accepted. -/
  toleratesLegacyRemoval : Bool := false
  deriving DecidableEq

namespace Judge

variable {α : Type u}

/-- Whether a fault of kind `raised` in place of a due removal is the known defect: the call
directly before it failed for want of elements. -/
def isLegacyRemoval (j : Judge) (raised : FaultKind) (previous : Option (Outcome α)) : Bool :=
  j.toleratesLegacyRemoval && raised == .illegalRemoval &&
    (previous.bind Outcome.fault?).any (·.standsFor .exhausted)

/-- The verdict on an outcome; `previous` is the outcome of the step before it in the same
replay. -/
def judge [BEq α] (j : Judge) (expected : Expectation α) (actual : Outcome α)
    (previous : Option (Outcome α)) : Verdict :=
  match expected, actual with
  | .fault kind, .failed f =>
    if f.standsFor kind then .agree else .diverge (.mismatchedKind kind f.kind)
  | .fault kind, _ => .diverge (.missingFault kind)
  | .removed, .failed f =>
    if j.isLegacyRemoval f.kind previous then .tolerated else .diverge (.unexpectedFault f.kind)
  | _, .failed f => .diverge (.unexpectedFault f.kind)
  | .hasMore want, .hasMore got => if want = got then .agree else .diverge .valueMismatch
  | .element want, .produced got => if want == got then .agree else .diverge .valueMismatch
  | .anyOf pending, .produced got =>
    if pending.any (· == got) then .agree else .diverge .valueMismatch
  | .removed, .removed => .agree
  | _, _ => .diverge .valueMismatch

/-- Only a due removal that failed can be tolerated. -/
theorem judge_eq_tolerated [BEq α] {j : Judge} {expected : Expectation α} {actual : Outcome α}
    {previous : Option (Outcome α)} :
    j.judge expected actual previous = .tolerated ↔
      ∃ f, expected = .removed ∧ actual = .failed f ∧ j.isLegacyRemoval f.kind previous = true := by
  constructor
  · intro h
    cases expected with
    | removed =>
      cases actual with
      | failed f => exact ⟨f, rfl, rfl, by simpa [judge] using h⟩
      | _ => simp [judge] at h
    | _ => cases actual <;> simp only [judge] at h <;> (try split at h) <;> simp_all
  · rintro ⟨f, rfl, rfl, h⟩
    simp [judge, h]

end Judge

end Lockstep
