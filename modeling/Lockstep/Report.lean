import Lockstep.Blake3
import Lockstep.Record
import Lockstep.Settings

/-!
# Reports

What a whole test comes to: a summary if every word passed, and otherwise the refusal of the
settings or the first counterexample.
-/

namespace Lockstep

universe u

/-- The account of a test in which no word diverged. -/
structure Summary where
  words : Nat
  /-- The number of steps executed over all words. -/
  steps : Nat
  /-- The number of steps accepted as the legacy defect. -/
  tolerated : Nat
  /-- The digest of the words replayed, in order. -/
  fingerprint : Digest
  deriving DecidableEq

/-- A summary in words. -/
def Summary.text (s : Summary) : String :=
  s.words.repr ++ " sequences passed (" ++ s.steps.repr ++ " steps, " ++ s.tolerated.repr ++
    " tolerated), space " ++ s.fingerprint.hex

/-- The first counterexample. -/
structure FailureReport (α : Type u) where
  /-- The place of the word in the space, from zero. -/
  index : Nat
  order : Order
  record : Record α
  deriving DecidableEq

namespace FailureReport

variable {α : Type u}

/-- The reason of the divergence. -/
def violation? (r : FailureReport α) : Option Violation := r.record.violation?

/-- A counterexample in words. -/
def text [Literal α] (r : FailureReport α) : String :=
  "candidate diverged from the " ++ r.order.name ++ " reference in sequence #" ++
    (r.index + 1).repr ++ "\n" ++ r.record.text

end FailureReport

/-- Why a test did not pass. -/
inductive TestError (α : Type u) where
  /-- The settings were refused, and nothing was replayed. -/
  | settings (e : SettingsError)
  /-- A word diverged. -/
  | diverged (report : FailureReport α)
  deriving DecidableEq

namespace TestError

variable {α : Type u}

/-- The counterexample, if one was found. -/
def report? : TestError α → Option (FailureReport α)
  | settings _ => none
  | diverged report => some report

/-- The reason of the divergence, if a word diverged. -/
def violation? (e : TestError α) : Option Violation := e.report?.bind FailureReport.violation?

/-- The error in words. -/
def text [Literal α] : TestError α → String
  | settings e => e.text
  | diverged report => report.text

end TestError

end Lockstep
