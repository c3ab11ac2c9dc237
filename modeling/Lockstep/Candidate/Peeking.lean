import Lockstep.Candidate

/-!
# Streams behind a candidate

A read-only candidate over a stream that can only be asked for its next result. To say whether
an element is available, the candidate asks the stream ahead of time and remembers the result,
also the result that nothing came; the next production uses the remembered result up first.
Nothing is assumed of the stream: an element may follow after nothing came.
-/

namespace Lockstep

universe u v

/-- The state of a candidate over a stream with states of type `ι`. -/
structure Peeking (ι : Type u) (α : Type v) where
  stream : ι
  /-- The result that was asked for ahead of time, if one is remembered. -/
  ahead : Option (Option α)

namespace Peeking

variable {ι : Type u} {α : Type v}

/-- Nothing is asked ahead of time yet. -/
def ofStream (stream : ι) : Peeking ι α := ⟨stream, none⟩

/-- The result that comes next, and the stream behind it. -/
def peek (next : ι → Option α × ι) (p : Peeking ι α) : Option α × ι :=
  match p.ahead with
  | some result => (result, p.stream)
  | none => next p.stream

/-- Asks for the next result and remembers it. -/
def hasMore (next : ι → Option α × ι) (p : Peeking ι α) : Reply Bool × Peeking ι α :=
  let (result, stream) := p.peek next
  (.value result.isSome, ⟨stream, some result⟩)

/-- Uses the next result up. -/
def produceNext (next : ι → Option α × ι) (p : Peeking ι α) : Reply α × Peeking ι α :=
  let (result, stream) := p.peek next
  (match result with
    | some x => .value x
    | none => .fault .exhausted,
   ⟨stream, none⟩)

/-- The candidate over a stream. It has no removal. -/
def candidate (next : ι → Option α × ι) : Candidate (Peeking ι α) α where
  hasMore := hasMore next
  produceNext := produceNext next

/-- The stream that gives the results of a list in turn, and nothing behind its end. -/
def nextOfList : List (Option α) → Option α × List (Option α)
  | [] => (none, [])
  | result :: rest => (result, rest)

/-- The stream of the elements of a list. -/
def ofList (items : List α) : Peeking (List (Option α)) α := ofStream (items.map some)

end Peeking

end Lockstep
