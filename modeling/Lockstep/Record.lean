import Lockstep.Verdict
import Lockstep.Word

/-!
# Records

What a replay of one word leaves behind: the word, and the steps that were executed up to and
including the first divergence. Whether the replay succeeded can be read off the last step.
-/

namespace Lockstep

universe u

/-- One executed step. -/
structure Step (α : Type u) where
  /-- The position in the word, from zero. -/
  index : Nat
  operation : Operation
  expected : Expectation α
  actual : Outcome α
  /-- The judgement, or the rejection of the hook. -/
  verdict : Verdict
  deriving DecidableEq

/-- The record of a replay. -/
structure Record (α : Type u) where
  word : Word
  steps : List (Step α)
  deriving DecidableEq

namespace Record

variable {α : Type u}

/-- The step that diverged: the last one, if its verdict is not acceptable. -/
def failedStep? (r : Record α) : Option (Step α) :=
  r.steps.getLast?.filter fun step => !step.verdict.isAcceptable

/-- Whether no step diverged. -/
def isSuccess (r : Record α) : Bool := r.failedStep?.isNone

/-- The reason of the divergence. -/
def violation? (r : Record α) : Option Violation :=
  r.failedStep?.bind fun step => step.verdict.violation?

/-- The operations that were executed, with the diverging one. -/
def executed (r : Record α) : Word := r.word.take r.steps.length

/-- The number of steps accepted as the legacy defect. -/
def toleratedSteps (r : Record α) : Nat := r.steps.countP fun step => step.verdict = .tolerated

/-- The record in words: one line for a success, four for a divergence. -/
def text [Literal α] (r : Record α) : String :=
  match r.failedStep? with
  | none => "sequence " ++ r.word.text ++ " passed"
  | some step =>
    "sequence " ++ r.word.text ++ " diverged at step " ++ (step.index + 1).repr ++ " (" ++
      step.operation.name ++ ") with stimuli " ++ r.executed.text ++ "\n" ++
      "  expected: " ++ step.expected.text ++ "\n" ++
      "  actual:   " ++ step.actual.text ++ "\n" ++
      (match step.verdict with
        | .diverge violation => "  reason:   " ++ violation.text
        | _ => "")

end Record

end Lockstep
