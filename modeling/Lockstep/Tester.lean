import Lockstep.Report
import Lockstep.Session
import Lockstep.Space.Fingerprint

/-!
# The tester

A test replays every word of its space in order, each on a fresh candidate, and stops at the
first divergence. Because the order is fixed, a faulty candidate that always behaves alike gives
the same counterexample every time.
-/

namespace Lockstep

universe u v w x

/-- Tests candidates against expected elements. -/
structure Tester (α : Type u) where
  expected : List α
  settings : Settings

/-- The account of the words that passed so far. -/
structure Tally where
  words : Nat := 0
  steps : Nat := 0
  /-- The number of steps accepted as the legacy defect. -/
  tolerated : Nat := 0
  /-- The bytes that the words gave to the fingerprint. -/
  stream : ByteArray := .empty

namespace Tally

/-- The account with one more record. -/
def add {α : Type u} (t : Tally) (r : Record α) : Tally :=
  { words := t.words + 1
    steps := t.steps + r.steps.length
    tolerated := t.tolerated + r.toleratedSteps
    stream := Word.absorb t.stream r.word }

/-- The summary of a test in which every word passed. -/
def summary (t : Tally) : Summary := ⟨t.words, t.steps, t.tolerated, Blake3.digest t.stream⟩

end Tally

/-- What a test came to, and the session behind it. -/
structure TestRun (φ : Type u) (η : Type v) (α : Type w) where
  /-- The summary, or why there is none. -/
  result : Except (TestError α) Summary
  /-- The session after the last replay. -/
  session : Session φ η α

/-- Why an exploration stopped before the end of the space. -/
inductive Tester.Stop (φ : Type u) (η : Type v) (α : Type w) where
  | panicked (p : Panic)
  | diverged (report : FailureReport α) (session : Session φ η α)

namespace Tester

variable {φ : Type u} {η : Type v} {α : Type w} {σ : Type x}

/-- The space that is explored. -/
def space (t : Tester α) : Space := t.settings.space t.expected.length

/-- The runner of the replays. -/
def runner (t : Tester α) : Runner α := ⟨t.expected, t.settings.order, t.settings.judge⟩

variable [BEq α]

/-- Replays one word and enters it into the account. -/
def visit (t : Tester α) (c : Candidate σ α) (make : Factory φ σ) (hook : Hook η σ α)
    (state : Tally × Session φ η α) (w : Word) :
    Except (Stop φ η α) (Tally × Session φ η α) :=
  match state.2.replay t.runner c make hook w with
  | .error p => .error (.panicked p)
  | .ok (record, session) =>
    if record.isSuccess then .ok (state.1.add record, session)
    else
      .error <| .diverged ⟨state.1.words, t.settings.order, record⟩ <|
        session.report (.diverged state.1.words w record.steps.length)

/-- Explores the whole space unless a word diverges. -/
def explore (t : Tester α) (c : Candidate σ α) (make : Factory φ σ) (hook : Hook η σ α)
    (session : Session φ η α) : Except Panic (TestRun φ η α) :=
  match t.space.foldUntil .panicked (t.visit c make hook) ({}, session) with
  | .error (.panicked p) => .error p
  | .error (.diverged report session) => .ok ⟨.error (.diverged report), session⟩
  | .ok (tally, session) =>
    .ok
      ⟨.ok tally.summary, session.report (.finished tally.words tally.steps tally.tolerated)⟩

/-- Tests the candidates of a factory, with a hook that is called after every accepted step.
Settings that are refused end the test before the first candidate is made. -/
def testWith (t : Tester α) (c : Candidate σ α) (make : Factory φ σ) (hook : Hook η σ α)
    (f : φ) (h : η) : Except Panic (TestRun φ η α) :=
  match t.settings.validate with
  | .error e => .ok ⟨.error (.settings e), .start f h⟩
  | .ok () =>
    t.explore c make hook <|
      (Session.start f h).report <|
        .exploring t.settings.order t.settings.steps t.expected.length
          t.settings.toleratesLegacyRemoval

/-- Tests the candidates of a factory. -/
def test (t : Tester α) (c : Candidate σ α) (make : Factory φ σ) (f : φ) :
    Except Panic (TestRun φ Unit α) :=
  t.testWith c make Hook.accepting f ()

end Tester

end Lockstep
