import Lockstep.Candidate.Blueprint
import Lockstep.CommandLine.Arguments
import Lockstep.CommandLine.ControlSequence
import Lockstep.Tester

/-!
# The command line

Carries a command out. A run ends in one of four ways: finished, failed for a reason, not begun
because the command line cannot be read, or in a panic.
-/

namespace Lockstep.CommandLine

/-- The name of the program. -/
def programName : String := "iterconform"

/-- What the program does, in a line. -/
def programAbout : String := "Bounded exhaustive conformance tester for iterators"

/-- How a run ends. -/
inductive Ending where
  /-- All went well, with this output. -/
  | finished (output : String)
  /-- The run failed: what was being done, and why it could not be. -/
  | failed (context cause : String)
  /-- The command line was not carried out. -/
  | refused (e : ArgumentError)
  /-- A panic that nobody held back. -/
  | panicked (p : Panic)

/-- What was typed, as a message quotes it: plain, between single quotes. -/
def quote (s : String) : String := "'" ++ plain s ++ "'"

/-- A message about a command line that is not carried out. -/
def ArgumentError.text : ArgumentError → String
  | nothingGiven | helpWanted => programAbout
  | missingCommand =>
    "error: '" ++ programName ++ "' requires a subcommand but one was not provided"
  | unknownCommand arg => "error: unrecognized subcommand " ++ quote arg
  | unexpectedArgument arg => "error: unexpected argument " ++ quote arg ++ " found"
  | unexpectedValue value label =>
    "error: unexpected value " ++ quote value ++ " for '" ++ label ++
      "' found; no more were expected"
  | repeated label => "error: the argument '" ++ label ++ "' cannot be used multiple times"
  | missingValue label => noValue label
  | invalidValue value label .notAChoice =>
    if value.isEmpty then noValue label else invalid value label
  | invalidValue value label (.malformed reason) => invalid value label ++ ": " ++ reason
where
  /-- An option whose value is absent, or empty where a choice was expected. -/
  noValue (label : String) : String :=
    "error: a value is required for '" ++ label ++ "' but none was supplied"
  /-- An option whose value is refused. -/
  invalid (value label : String) : String :=
    "error: invalid value " ++ quote value ++ " for '" ++ label ++ "'"

/-- The first line of a text. A line ends before a line feed, or before a carriage return and a
line feed. -/
def firstLine (s : String) : String := String.ofList (go s.toList)
where
  /-- The characters up to the end of the line. -/
  go : List Char → List Char
    | [] | '\n' :: _ | '\r' :: '\n' :: _ => []
    | c :: cs => c :: go cs

namespace Ending

/-- The exit code. -/
def code : Ending → Nat
  | finished _ => 0
  | failed .. => 1
  | refused .helpWanted => 0
  | refused _ => 2
  | panicked _ => 101

/-- The standard output. -/
def output : Ending → String
  | finished output => output
  | failed .. => ""
  | refused .helpWanted => programAbout ++ "\n"
  | refused _ => ""
  | panicked _ => ""

/-- The message about a run that did not finish; every line of a cause is indented. Of a panic the
program itself says nothing. -/
def complaint : Ending → String
  | finished _ => ""
  | failed context cause =>
    "Error: " ++ context ++ "\n\nCaused by:\n" ++
      String.join ((cause.splitOn "\n").map fun line => "    " ++ line ++ "\n")
  | refused .helpWanted => ""
  | refused e => firstLine e.text
  | panicked _ => ""

end Ending

/-- How a built-in candidate is made over the expected elements. -/
def BuiltIn.blueprint (elements : List Int) : BuiltIn → Blueprint Int
  | cursor => .cursor elements
  | readOnly => .stream (elements.map some)
  | reversed => .cursor elements.reverse
  | distinct => .stream (elements.eraseDups.map some)
  | legacyDefect => .legacy (.cursor elements)

/-- Tests a built-in candidate, and says what was reported meanwhile. -/
def check (elements : List Int) (candidate : BuiltIn) (settings : Settings) : Ending × List Event :=
  let tester : Tester Int := ⟨elements, settings⟩
  match tester.test Running.candidate Blueprint.inTurn [candidate.blueprint elements] with
  | .error p => (.panicked p, [])
  | .ok run =>
    let ending : Ending := match run.result with
      | .ok summary => .finished ("PASS " ++ candidate.name ++ ": " ++ summary.text ++ "\n")
      | .error e@(.diverged _) =>
        .failed ("candidate " ++ candidate.name ++ " failed conformance") e.text
      | .error e@(.settings _) => .failed "conformance run not started" e.text
    (ending, run.session.events.toList)

/-- The words of a space with their numbers, a line each, then how many they are and the digest. -/
def listing (space : Space) : Except Panic String := do
  let line (n : Nat) (w : Word) : String := n.repr ++ "\t" ++ w.text ++ "\n"
  let (count, lines) ← space.fold (fun (n, lines) w => (n + 1, lines.push (line (n + 1) w)))
    (0, #[])
  let digest ← space.fingerprint
  return String.join lines.toList ++ count.repr ++ " sequences, space " ++ digest.hex ++ "\n"

/-- Prints the words of a space. -/
def enumerate (elements : Nat) (settings : Settings) : Ending :=
  match settings.validate with
  | .error e => .failed "invalid enumeration parameters" e.text
  | .ok () =>
    match listing (settings.space elements) with
    | .error p => .panicked p
    | .ok output => .finished output

/-- Carries a command line out. The events are those that its reader asked to be shown. -/
def run (args : List String) : Ending × List Event :=
  match Invocation.ofArguments args with
  | .error e => (.refused e, [])
  | .ok invocation =>
    match invocation.command with
    | .check elements candidate settings =>
      let (ending, events) := check elements candidate settings
      let threshold : Level := match invocation.verbosity with
        | 0 => .warn
        | 1 => .debug
        | _ => .trace
      (ending, events.filter (·.level.within threshold))
    | .enumerate elements settings => (enumerate elements settings, [])

end Lockstep.CommandLine
