import Lockstep.Event
import Lockstep.Hook
import Lockstep.Record

/-!
# Replays

A replay makes the calls of one word on a fresh candidate, in lock-step with the reference. Each
step is predicted, performed and judged; a step that the judge accepts moves the reference on
and is shown to the invariant hook. The replay stops at the first divergence, whether the judge
found it or the hook. Nothing is undone: the candidate is dropped after its word.
-/

namespace Lockstep

universe u v w

/-- What a replay leaves behind. -/
structure Replay (η : Type u) (α : Type v) where
  /-- The steps that were executed, up to and including the first divergence. -/
  steps : List (Step α)
  /-- What each call of the hook was shown. -/
  views : List (View α)
  /-- The positions at which the judge tolerated the legacy defect, whatever the hook said. -/
  warnings : List Nat
  hook : η
  /-- The panic of the hook that cut the replay short. -/
  panic : Option Panic := none

namespace Replay

variable {η : Type u} {α : Type v}

/-- A replay with an accepted step in front of it. -/
def after (r : Replay η α) (step : Step α) (view : View α) (warnings : List Nat) : Replay η α :=
  { r with
    steps := step :: r.steps
    views := view :: r.views
    warnings := warnings ++ r.warnings }

/-- The record that the replay of a word leaves. -/
def record (r : Replay η α) (w : Word) : Record α := ⟨w, r.steps⟩

/-- What the replay of a word reports. -/
def events (r : Replay η α) (w : Word) : List Event :=
  r.warnings.map (fun i => .tolerating (i + 1) w) ++
    [.replayed w r.steps.length (r.record w).isSuccess]

end Replay

/-- The reference after an acceptable step. -/
def Reference.settle {α : Type u} [BEq α] (r : Reference α) (op : Operation) (actual : Outcome α) :
    Verdict → Reference α
  | .agree => r.advance op actual.element?
  | .tolerated => r.forfeit
  | .diverge _ => r

/-- Replays words against the expected elements. -/
structure Runner (α : Type u) where
  expected : List α
  order : Order
  judge : Judge

namespace Runner

variable {σ : Type u} {α : Type v} {η : Type w} [BEq α]

/-- Replays a word from the middle of a replay on: `index` steps are behind, which left the
reference at `r`, the outcome `previous`, the candidate at `s` and the hook at `h`. -/
def replayFrom (judge : Judge) (c : Candidate σ α) (hook : Hook η σ α) :
    (index : Nat) → (r : Reference α) → (previous : Option (Outcome α)) → (s : σ) → (h : η) →
      Word → Replay η α
  | _, _, _, _, h, [] => { steps := [], views := [], warnings := [], hook := h }
  | index, r, previous, s, h, op :: rest =>
    let expected := r.predict op
    let performed := c.perform op s
    let verdict := judge.judge expected performed.1 previous
    let step (verdict : Verdict) : Step α := ⟨index, op, expected, performed.1, verdict⟩
    if verdict.isAcceptable then
      let r := r.settle op performed.1 verdict
      let warnings := if verdict = .tolerated then [index] else []
      let called := hook h r.view performed.2
      match called.1 with
      | .accept =>
        (replayFrom judge c hook (index + 1) r (some performed.1) performed.2 called.2 rest).after
          (step verdict) r.view warnings
      | .reject message =>
        { steps := [step (.diverge (.invariantFailed message))]
          views := [r.view]
          warnings
          hook := called.2 }
      | .panic p => { steps := [], views := [r.view], warnings, hook := called.2, panic := some p }
    else { steps := [step verdict], views := [], warnings := [], hook := h }

/-- Replays a word on a candidate in the state `s`, with the hook in the state `h`. -/
def replay (runner : Runner α) (c : Candidate σ α) (hook : Hook η σ α) (s : σ) (h : η) (w : Word) :
    Replay η α :=
  replayFrom runner.judge c hook 0 (.initial runner.expected runner.order) none s h w

end Runner

end Lockstep
