import Lockstep.Candidate.Cursor
import Lockstep.Candidate.LegacyRemoval
import Lockstep.Candidate.Patch
import Lockstep.Candidate.Peeking
import Lockstep.Candidate.Script
import Lockstep.Factory

/-!
# Blueprints of candidates

A `Running` candidate is a machine together with its present state, whose type is kept to
itself, so that candidates of different kinds can take turns in one test. A `Blueprint` says how
to make one: the built-in candidates, and the doubles that stand in for faulty implementations.
-/

namespace Lockstep

universe u

/-- A candidate in some state of its own. -/
structure Running (α : Type u) where
  State : Type u
  machine : Candidate State α
  state : State
  /-- The list behind it, where that may be looked at. -/
  backing : State → Option (List α) := fun _ => none

namespace Running

variable {α : Type u}

/-- All running candidates as one machine. -/
def candidate : Candidate (Running α) α where
  hasMore r := let (reply, state) := r.machine.hasMore r.state; (reply, { r with state })
  produceNext r := let (reply, state) := r.machine.produceNext r.state; (reply, { r with state })
  removeLast r := let (reply, state) := r.machine.removeLast r.state; (reply, { r with state })

/-- The list behind the candidate, where that may be looked at. -/
def backingList (r : Running α) : Option (List α) := r.backing r.state

end Running

/-- How to make a candidate. -/
inductive Blueprint (α : Type u) where
  | cursor (items : List α)
  /-- A cursor over a list that a hook may look at; if `lossy`, removals are lost. -/
  | shared (items : List α) (lossy : Bool)
  /-- A read-only candidate over a stream with these results, and nothing behind them. -/
  | stream (results : List (Option α))
  | legacy (inner : Blueprint α)
  | script (replies : Script α)
  | patch (change : Patch α) (inner : Blueprint α)
  /-- No candidate: making it panics. -/
  | broken (panic : Panic)

namespace Blueprint

variable {α : Type u}

/-- Makes the candidate. -/
def make : Blueprint α → Except Panic (Running α)
  | cursor items => .ok { State := _, machine := Cursor.candidate, state := .ofList items }
  | shared items lossy =>
    .ok
      { State := _
        machine := if lossy then Cursor.lossy else Cursor.candidate
        state := .ofList items
        backing := fun c => some c.contents }
  | stream results =>
    .ok { State := _, machine := Peeking.candidate Peeking.nextOfList, state := .ofStream results }
  | legacy inner =>
    match inner.make with
    | .ok r =>
      .ok
        { State := _
          machine := LegacyRemoval.candidate r.machine
          state := .ofInner r.state
          backing := fun s => r.backing s.inner }
    | .error p => .error p
  | script replies => .ok { State := _, machine := Script.candidate, state := replies }
  | patch change inner =>
    match inner.make with
    | .ok r =>
      .ok
        { State := _
          machine := change.candidate r.machine
          state := ⟨r.state, 0⟩
          backing := fun s => r.backing s.inner }
    | .error p => .error p
  | broken p => .error p

/-- The factory that takes blueprints in turn, and the last one for ever. -/
def inTurn : Factory (List (Blueprint α)) (Running α)
  | [] => (.error ⟨some "no blueprint"⟩, [])
  | [b] => (b.make, [b])
  | b :: rest => (b.make, rest)

end Blueprint

end Lockstep
