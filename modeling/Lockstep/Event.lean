import Lockstep.Expectation
import Lockstep.Word

/-!
# Events

What a test reports while it runs. An event has a level, a fixed message and fields; a reader
asks for the events of one level and the more severe ones.
-/

namespace Lockstep

/-- The severity of an event. -/
inductive Level where
  /-- Something that may deserve a look. -/
  | warn
  /-- The course of a test. -/
  | info
  /-- The cause of a failure. -/
  | debug
  /-- Every replay. -/
  | trace
  deriving DecidableEq, Repr

namespace Level

/-- The place of a level, the most severe first. -/
def rank : Level → Nat
  | warn => 0
  | info => 1
  | debug => 2
  | trace => 3

/-- The name of a level. -/
def name : Level → String
  | warn => "WARN"
  | info => "INFO"
  | debug => "DEBUG"
  | trace => "TRACE"

/-- Whether a reader who asks for `threshold` is shown the level. -/
def within (level threshold : Level) : Bool := level.rank ≤ threshold.rank

end Level

/-- The value of a field. -/
inductive FieldValue where
  | number (n : Nat)
  | flag (b : Bool)
  | text (s : String)
  deriving DecidableEq

/-- Something that happened in a test. -/
inductive Event where
  | exploring (order : Order) (steps elements : Nat) (toleratesLegacyRemoval : Bool)
  /-- The judge took a refused removal for the legacy defect; steps count from one. -/
  | tolerating (step : Nat) (word : Word)
  | replayed (word : Word) (steps : Nat) (success : Bool)
  | diverged (index : Nat) (word : Word) (steps : Nat)
  | finished (words steps tolerated : Nat)
  deriving DecidableEq

namespace Event

/-- The level of an event. -/
def level : Event → Level
  | exploring .. => .info
  | tolerating .. => .warn
  | replayed .. => .trace
  | diverged .. => .debug
  | finished .. => .info

/-- The message of an event. -/
def message : Event → String
  | exploring .. => "exploring sequence space"
  | tolerating .. => "tolerating legacy removal defect after exhaustion"
  | replayed .. => "sequence replayed"
  | diverged .. => "candidate diverged"
  | finished .. => "no divergence found"

/-- The fields of an event by name. -/
def fields : Event → List (String × FieldValue)
  | exploring order steps elements tolerates =>
    [("order", .text order.name), ("steps", .number steps), ("elements", .number elements),
      ("tolerate_legacy_defect", .flag tolerates)]
  | tolerating step word => [("step", .number step), ("sequence", .text word.text)]
  | replayed word steps success =>
    [("sequence", .text word.text), ("steps", .number steps), ("success", .flag success)]
  | diverged index word steps =>
    [("sequence_index", .number index), ("sequence", .text word.text), ("steps", .number steps)]
  | finished words steps tolerated =>
    [("sequences", .number words), ("steps", .number steps), ("tolerated", .number tolerated)]

end Event

end Lockstep
