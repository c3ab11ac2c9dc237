import Lockstep.CommandLine.Grammar
import Lockstep.CommandLine.Number
import Lockstep.Settings

/-!
# The commands

The program has two commands: `check` tests a built-in candidate against expected elements, and
`enumerate` prints the space that a test would explore. `Command.ofArguments` reads a command
line into one of them.
-/

namespace Lockstep.CommandLine

/-- A candidate that is built over the expected elements. -/
inductive BuiltIn where
  | cursor
  | readOnly
  /-- A removable cursor over the elements in reverse. -/
  | reversed
  /-- A read-only stream of the distinct elements. -/
  | distinct
  /-- A removable cursor with the legacy removal defect. -/
  | legacyDefect
  deriving DecidableEq, Repr

namespace BuiltIn

/-- The choices on the command line. -/
def choices : List (String × BuiltIn) :=
  [("vec", cursor), ("read-only", readOnly), ("reversed", reversed), ("hash-set", distinct),
    ("legacy-defect", legacyDefect)]

/-- The name in reports. -/
def name : BuiltIn → String
  | cursor => "Vec"
  | readOnly => "ReadOnly"
  | reversed => "Reversed"
  | distinct => "HashSet"
  | legacyDefect => "LegacyDefect"

end BuiltIn

/-- What to do. -/
inductive Command where
  | check (elements : List Int) (candidate : BuiltIn) (settings : Settings)
  | enumerate (elements : Nat) (settings : Settings)
  deriving DecidableEq

/-- A command, and how much is to be reported while it runs. -/
structure Invocation where
  command : Command
  /-- How often more reports were asked for. -/
  verbosity : Nat
  deriving DecidableEq

/-- What is read of a command line. -/
structure Arguments where
  elements : List Int := []
  /-- The number of expected elements, where only the number matters. -/
  elementCount : Nat := 2
  candidate : BuiltIn := .cursor
  settings : Settings := { order := .determinate }
  verbosity : Nat := 0

namespace Arguments

/-- Looks a text up among choices. -/
def choose {β : Type} (choices : List (String × β)) (s : String) : Except ValueError β :=
  match choices.lookup s with
  | some b => .ok b
  | none => .error .notAChoice

/-- Reads a number, or says why the text is none. -/
def number {β : Type} (r : Except NumberError β) : Except ValueError β :=
  r.mapError fun e => .malformed e.text

/-- The choices of an order contract. -/
def orders : List (String × Order) := [("known", .determinate), ("unknown", .indeterminate)]

/-- An option that changes the settings and takes no value. -/
def settingsFlag (name : String) (mark : Settings → Settings) : CommandOption Arguments :=
  ⟨name, .flag fun a => { a with settings := mark a.settings }⟩

/-- Options that every command takes. -/
def common : List (CommandOption Arguments) :=
  [⟨"verbose", .counter 'v' fun a => { a with verbosity := a.verbosity + 1 }⟩, ⟨"help", .help⟩]

/-- Options that shape the space. -/
def spaceOptions : List (CommandOption Arguments) :=
  [⟨"steps", .value "STEPS" fun s a => do
      return { a with settings := { a.settings with steps := ← number (readCount s) } }⟩,
    settingsFlag "unmodifiable" fun s => { s with features := .readOnly },
    settingsFlag "explore-illegal-removals" fun s => { s with illegalRemovals := true }]

/-- Options of a test. -/
def checkOptions : List (CommandOption Arguments) :=
  spaceOptions ++
    [⟨"elements", .values "ELEMENTS" fun s a => do
        return { a with elements := a.elements ++ [← number (readInteger s)] }⟩,
      ⟨"order", .value "ORDER" fun s a => do
        return { a with settings := { a.settings with order := ← choose orders s } }⟩,
      ⟨"candidate", .value "CANDIDATE" fun s a => do
        return { a with candidate := ← choose BuiltIn.choices s }⟩,
      settingsFlag "tolerate-legacy-defect" fun s => { s with toleratesLegacyRemoval := true },
      ⟨"removal-cap", .value "REMOVAL_CAP" fun s a => do
        let cap ← number (readCount s)
        return { a with settings := { a.settings with removalCap := some cap } }⟩] ++
    common

/-- Options of the listing of a space. -/
def enumerateOptions : List (CommandOption Arguments) :=
  spaceOptions ++
    [⟨"elements-count", .value "ELEMENTS_COUNT" fun s a => do
        return { a with elementCount := ← number (readCount s) }⟩] ++
    common

/-- The options of each command, and the command that they make up. -/
def commands : List (String × List (CommandOption Arguments) × (Arguments → Command)) :=
  [("check", checkOptions, fun a => .check a.elements a.candidate a.settings),
    ("enumerate", enumerateOptions, fun a => .enumerate a.elementCount a.settings)]

/-- Reads the arguments of one command. Nothing in them stands alone. -/
def readCommand (options : List (CommandOption Arguments)) (make : Arguments → Command)
    (start : Arguments) (args : List String) : Except ArgumentError Invocation :=
  Reader.read options (fun _ _ arg _ => .error (.unexpectedArgument arg))
    (fun r => .ok ⟨make r.arguments, r.arguments.verbosity⟩) { arguments := start } args

/-- Carries on behind the name of a command. A request for help may name one command. -/
def dispatch (r : Reader Arguments) (behindDashes : Bool) (arg : String) (rest : List String) :
    Except ArgumentError Invocation :=
  match commands.lookup arg with
  | some (options, make) =>
    if behindDashes then .error (.unexpectedArgument arg)
    else readCommand options make r.arguments rest
  | none =>
    if arg = "help" then
      if behindDashes then .error (.unexpectedArgument arg)
      else
        match rest with
        | [] => .error .helpWanted
        | c :: more =>
          if (commands.lookup c).isNone && c ≠ "help" then .error (.unknownCommand c)
          else .error (more.head?.elim .helpWanted .unknownCommand)
    else .error (.unknownCommand arg)

/-- A line that ends before a command was named. -/
def endEarly (r : Reader Arguments) : Except ArgumentError Invocation :=
  .error (if r.seen.isEmpty then .nothingGiven else .missingCommand)

end Arguments

/-- Reads a command line. -/
def Invocation.ofArguments (args : List String) : Except ArgumentError Invocation :=
  Reader.read Arguments.common Arguments.dispatch Arguments.endEarly { arguments := {} } args

end Lockstep.CommandLine
