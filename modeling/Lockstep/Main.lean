import Lockstep.CommandLine

/-!
# The program

Reads the command line, carries it out, and prints what came of it: reports and complaints on
the standard error, the result on the standard output.
-/

namespace Lockstep

/-- An event on a line of its own. -/
def Event.line (e : Event) : String :=
  let value : FieldValue → String
    | .number n => n.repr
    | .flag b => literal b
    | .text s => s
  e.level.name ++ " " ++ e.message ++
    String.join (e.fields.map fun (name, v) => " " ++ name ++ "=" ++ value v)

end Lockstep

/-- The command line. -/
def main (args : List String) : IO UInt32 := do
  let (ending, events) := Lockstep.CommandLine.run args
  for e in events do
    IO.eprintln e.line
  IO.print ending.output
  let complaint := ending.complaint
  unless complaint.isEmpty do
    IO.eprintln (complaint.dropEndWhile (· = '\n')).copy
  return UInt32.ofNat ending.code
