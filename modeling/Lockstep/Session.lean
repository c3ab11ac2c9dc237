import Lockstep.Factory
import Lockstep.Replay

/-!
# Sessions

Several replays in a row. Each word gets a candidate of its own from one factory, and all of
them share one hook; both carry their state from word to word. A `Session` is that state,
together with an account of what happened so far.
-/

namespace Lockstep

universe u v w x

/-- The state of a row of replays. -/
structure Session (φ : Type u) (η : Type v) (α : Type w) where
  factory : φ
  hook : η
  /-- The number of calls of the factory so far. -/
  made : Nat
  /-- What each call of the hook was shown so far. -/
  views : Array (View α)
  /-- What was reported so far. -/
  events : Array Event

namespace Session

variable {φ : Type u} {η : Type v} {α : Type w} {σ : Type x}

/-- The session before the first replay. -/
def start (factory : φ) (hook : η) : Session φ η α := ⟨factory, hook, 0, #[], #[]⟩

/-- The session with one more event. -/
def report (s : Session φ η α) (e : Event) : Session φ η α := { s with events := s.events.push e }

variable [BEq α]

/-- Replays one more word, on a fresh candidate. A panic of the factory or of the hook ends the
session. -/
def replay (s : Session φ η α) (runner : Runner α) (c : Candidate σ α) (make : Factory φ σ)
    (hook : Hook η σ α) (w : Word) : Except Panic (Record α × Session φ η α) :=
  match make s.factory with
  | (.error p, _) => .error p
  | (.ok start, factory) =>
    let replay := runner.replay c hook start s.hook w
    match replay.panic with
    | some p => .error p
    | none =>
      .ok
        (replay.record w,
          { factory
            hook := replay.hook
            made := s.made + 1
            views := s.views ++ replay.views
            events := s.events ++ replay.events w })

/-- Replays words one after the other. -/
def replayAll (s : Session φ η α) (runner : Runner α) (c : Candidate σ α) (make : Factory φ σ)
    (hook : Hook η σ α) : List Word → Except Panic (List (Record α) × Session φ η α)
  | [] => .ok ([], s)
  | w :: ws =>
    match s.replay runner c make hook w with
    | .error p => .error p
    | .ok (record, s) =>
      match s.replayAll runner c make hook ws with
      | .error p => .error p
      | .ok (records, s) => .ok (record :: records, s)

end Session

end Lockstep
