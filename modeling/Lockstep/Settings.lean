import Lockstep.Space
import Lockstep.Verdict

/-!
# Settings

The parameters of a test: the order contract, the number of operations in each word, the
features of the candidate, and what is tolerated, explored and left out. Settings are checked
before a test begins.
-/

namespace Lockstep

/-- The parameters of a test. -/
structure Settings where
  order : Order
  /-- The number of operations in each word. -/
  steps : Nat := 3
  features : FeatureSet := .modifiable
  /-- Whether the legacy removal defect is accepted. -/
  toleratesLegacyRemoval : Bool := false
  /-- Whether removals that the reference refuses are explored too. -/
  illegalRemovals : Bool := false
  /-- The largest number of removals in a word, if there is one. -/
  removalCap : Option Nat := none
  deriving DecidableEq, Repr

/-- Why settings are refused. -/
inductive SettingsError where
  /-- The words would be longer than `Settings.maxSteps`. -/
  | stepBoundTooLarge (steps : Nat)
  /-- Refused removals were asked for on a read-only candidate. -/
  | illegalRemovalsNeedModifiable
  deriving DecidableEq, Repr

namespace Settings

/-- The largest length of the words that are explored. With removals the space may hold
`3 ^ steps` words. -/
def maxSteps : Nat := 16

/-- Refuses words that are too long, and refused removals on a read-only candidate. The length is
looked at first. -/
def validate (s : Settings) : Except SettingsError Unit :=
  if maxSteps < s.steps then .error (.stepBoundTooLarge s.steps)
  else if s.illegalRemovals && !s.features.contains .modifiable then
    .error .illegalRemovalsNeedModifiable
  else .ok ()

/-- The space of words for `n` expected elements. -/
def space (s : Settings) (n : Nat) : Space :=
  { steps := s.steps
    features := s.features
    elements := n
    illegalRemovals := s.illegalRemovals
    removalCap := s.removalCap }

/-- The judge that honours the tolerance. -/
def judge (s : Settings) : Judge := ⟨s.toleratesLegacyRemoval⟩

/-- Settings are accepted exactly when the words are short enough and refused removals, if asked
for, meet a modifiable candidate. -/
theorem validate_eq_ok {s : Settings} :
    s.validate = .ok () ↔
      s.steps ≤ maxSteps ∧ (s.illegalRemovals = true → s.features.contains .modifiable = true) := by
  unfold validate
  by_cases hsteps : maxSteps < s.steps
  · simp [hsteps, Nat.not_le.mpr hsteps]
  · have hle : s.steps ≤ maxSteps := Nat.le_of_not_lt hsteps
    cases hillegal : s.illegalRemovals <;> cases hmod : s.features.contains .modifiable <;>
      simp [hsteps, hle]

end Settings

/-- A refusal in words. -/
def SettingsError.text : SettingsError → String
  | stepBoundTooLarge steps =>
    "invalid tester configuration: step bound " ++ steps.repr ++ " exceeds maximum " ++
      Settings.maxSteps.repr
  | illegalRemovalsNeedModifiable =>
    "invalid tester configuration: illegal removals can only be explored on modifiable candidates"

end Lockstep
