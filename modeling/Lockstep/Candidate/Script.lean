import Lockstep.Candidate

/-!
# Scripted candidates

A candidate that reads its replies from a script, one list for each method. Each call uses up
one reply, and the last reply of a list is given for ever.
-/

namespace Lockstep

universe u v

/-- The replies that a scripted candidate has left. -/
structure Script (α : Type u) where
  hasMore : List (Reply Bool)
  produceNext : List (Reply α)
  /-- The replies to `Operation.removeLast`, if removal is scripted at all. -/
  removeLast : Option (List (Reply Unit))

namespace Script

variable {α : Type u} {β : Type v}

/-- The next reply of a list and the list behind it. The operation is not offered where there is
no reply at all. -/
def turn : List (Reply β) → Reply β × List (Reply β)
  | [] => (.fault .unsupported, [])
  | [reply] => (reply, [reply])
  | reply :: rest => (reply, rest)

/-- The candidate that follows the script. -/
def candidate : Candidate (Script α) α where
  hasMore s := let (reply, rest) := turn s.hasMore; (reply, { s with hasMore := rest })
  produceNext s := let (reply, rest) := turn s.produceNext; (reply, { s with produceNext := rest })
  removeLast s :=
    match s.removeLast with
    | none => (.fault .unsupported, s)
    | some replies => let (reply, rest) := turn replies; (reply, { s with removeLast := some rest })

end Script

end Lockstep
