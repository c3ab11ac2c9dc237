/-!
# The grammar of a command line

Options are written `--name`, `--name value` or `--name=value`, and those without a value may
have a one-letter form, which can be clustered: `-vv`. After a lone `--` nothing is an option.

A value in a place of its own is looked at late: an option waits for its value, and its value
waits until the next known option or the end of the line. An argument that no option explains
is therefore reported before a waiting value that would be refused.
-/

namespace Lockstep.CommandLine

/-- Why the value of an option is refused. -/
inductive ValueError where
  /-- The text does not denote a value, for the reason given. -/
  | malformed (reason : String)
  /-- The text is not one of the choices. -/
  | notAChoice
  deriving DecidableEq, Repr

/-- What an option takes, and what it does to the arguments `α` read so far. -/
inductive OptionKind (α : Type) where
  /-- No value; given at most once. -/
  | flag (mark : α → α)
  /-- No value; given any number of times, also by one letter. -/
  | counter (letter : Char) (count : α → α)
  /-- One value, called `placeholder` in messages; given at most once. -/
  | value (placeholder : String) (set : String → α → Except ValueError α)
  /-- Values separated by commas; given any number of times. Any argument that follows is a
  value, whatever it begins with. -/
  | values (placeholder : String) (add : String → α → Except ValueError α)
  | help

/-- An option of a command. -/
structure CommandOption (α : Type) where
  name : String
  kind : OptionKind α

/-- Why a command line is not carried out. -/
inductive ArgumentError where
  /-- There are no arguments at all. -/
  | nothingGiven
  /-- The usage of the program was asked for. -/
  | helpWanted
  | missingCommand
  | unknownCommand (arg : String)
  /-- No option and no command explains the argument. -/
  | unexpectedArgument (arg : String)
  /-- An option without a value was given one. -/
  | unexpectedValue (value label : String)
  /-- An option was given too often. -/
  | repeated (label : String)
  /-- An option lacks its value. -/
  | missingValue (label : String)
  /-- The value of an option is refused. -/
  | invalidValue (value label : String) (e : ValueError)
  deriving DecidableEq, Repr

namespace CommandOption

variable {α : Type}

/-- The option as it stands in messages. -/
def label (o : CommandOption α) : String :=
  let name := "--" ++ o.name
  match o.kind with
  | .flag _ | .help => name
  | .counter _ _ => name ++ "..."
  | .value placeholder _ | .values placeholder _ => name ++ " <" ++ placeholder ++ ">"

/-- Whether the option waits for a value. -/
def takesValue (o : CommandOption α) : Bool :=
  match o.kind with
  | .value .. | .values .. => true
  | _ => false

/-- Whether the option takes any argument that follows as its value. -/
def takesAny (o : CommandOption α) : Bool :=
  match o.kind with
  | .values .. => true
  | _ => false

/-- Whether the option may be given again. -/
def repeats (o : CommandOption α) : Bool :=
  match o.kind with
  | .counter .. | .values .. => true
  | _ => false

/-- The one-letter form. -/
def letter? (o : CommandOption α) : Option Char :=
  match o.kind with
  | .counter letter _ => some letter
  | .help => some 'h'
  | _ => none

/-- Enters the option with a value into the arguments. -/
def enter (o : CommandOption α) (value : String) (a : α) : Except ArgumentError α :=
  let refuse (v : String) (e : ValueError) := ArgumentError.invalidValue v o.label e
  match o.kind with
  | .flag mark => .ok (mark a)
  | .counter _ count => .ok (count a)
  | .help => .error .helpWanted
  | .value _ set => (set value a).mapError (refuse value)
  | .values _ add =>
    (value.splitOn ",").foldlM (fun a v => (add v a).mapError (refuse v)) a

end CommandOption

/-- The state of a reader. -/
structure Reader (α : Type) where
  /-- The arguments entered so far. -/
  arguments : α
  /-- The names of the options entered so far. -/
  seen : List String := []
  /-- The option that waits, with its value if it has one. -/
  waiting : Option (CommandOption α × Option String) := none

namespace Reader

variable {α : Type} {β : Type}

/-- Enters an option, unless it was given too often. -/
def enter (r : Reader α) (o : CommandOption α) (value : String) : Except ArgumentError (Reader α) :=
  if !o.repeats && r.seen.contains o.name then .error (.repeated o.label)
  else (o.enter value r.arguments).map fun a => { r with arguments := a, seen := o.name :: r.seen }

/-- Enters the option that waits. -/
def settle (r : Reader α) : Except ArgumentError (Reader α) :=
  match r.waiting with
  | none => .ok r
  | some (o, none) => .error (.missingValue o.label)
  | some (o, some value) => { r with waiting := none }.enter o value

/-- Reads `--name` or `--name=value`. -/
def long (options : List (CommandOption α)) (r : Reader α) (name : String) (value : Option String) :
    Except ArgumentError (Reader α) :=
  match options.find? (·.name == name) with
  | none => .error (.unexpectedArgument ("--" ++ name))
  | some o =>
    match o.takesValue, value with
    | false, none => do (← r.settle).enter o ""
    | false, some v => .error (.unexpectedValue v o.label)
    | true, some v => do (← r.settle).enter o v
    | true, none => do return { (← r.settle) with waiting := some (o, none) }

/-- Reads a cluster of one-letter options. -/
def letters (options : List (CommandOption α)) :
    Reader α → List Char → Except ArgumentError (Reader α)
  | r, [] => .ok r
  | r, c :: cs =>
    match options.find? (·.letter? == some c) with
    | none => .error (.unexpectedArgument (String.ofList ['-', c]))
    | some o => do letters options (← (← r.settle).enter o "") cs

/-- The option that has yet to be given its value. -/
def expecting? (r : Reader α) : Option (CommandOption α) :=
  match r.waiting with
  | some (o, none) => some o
  | _ => none

/-- Reads a line. An argument that is neither an option nor a value is given to `other`, together
with whether a lone `--` stands before it and with what follows it. -/
def read (options : List (CommandOption α))
    (other : Reader α → (behindDashes : Bool) → String → List String → Except ArgumentError β)
    (finish : Reader α → Except ArgumentError β) : Reader α → List String → Except ArgumentError β
  | r, [] => do finish (← r.settle)
  | r, arg :: rest =>
    let supply (o : CommandOption α) : Reader α := { r with waiting := some (o, some arg) }
    match r.expecting?.filter (·.takesAny) with
    | some o => read options other finish (supply o) rest
    | none =>
      match arg.toList with
      | ['-', '-'] =>
        match rest with
        | [] => do finish (← r.settle)
        | arg :: rest => other r true arg rest
      | '-' :: '-' :: cs =>
        let value := match cs.dropWhile (· ≠ '=') with
          | [] => none
          | _ :: v => some (String.ofList v)
        do read options other finish
            (← r.long options (String.ofList (cs.takeWhile (· ≠ '='))) value) rest
      | '-' :: c :: cs => do read options other finish (← letters options r (c :: cs)) rest
      | _ =>
        match r.expecting? with
        | some o => read options other finish (supply o) rest
        | none => other r false arg rest

end Reader

end Lockstep.CommandLine
