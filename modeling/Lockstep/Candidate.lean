import Lockstep.Outcome
import Lockstep.Panic
import Lockstep.Word

/-!
# Candidates

A candidate is the implementation under test, as a machine: three methods, each of which reads
the state, replies and leaves a new state. A reply is a value, a fault that is returned, or a
panic. Everything a candidate can do is in this type, so a statement for all candidates is a
statement for all machines over all types of states.

`Candidate.perform` makes one call and observes it as an outcome; that is where a panic becomes
a fault. `Candidate.outcomes` observes a whole word. `Candidate.call` and `Candidate.callAll` do
the same and hold no panic back; without a panic they observe the same outcomes.

What the two ways to make a call have to do with each other is said by `Candidate.perform_of_call`
and `Candidate.perform_of_panic`.
-/

namespace Lockstep

universe u v

/-- What a method replies. -/
inductive Reply (β : Type u) where
  | value (b : β)
  | fault (f : Fault)
  | panic (p : Panic)
  deriving DecidableEq

namespace Reply

variable {α : Type u} {β : Type v}

/-- A reply as an outcome: a value as `f` says, a fault as itself, and a panic as a fault that
carries its message. -/
def toOutcome (f : β → Outcome α) : Reply β → Outcome α
  | value b => f b
  | fault e => .failed e
  | panic p => .failed (.panicked p.message)

/-- A reply as an outcome, unless it is a panic. -/
def outcome (f : β → Outcome α) : Reply β → Except Panic (Outcome α)
  | value b => .ok (f b)
  | fault e => .ok (.failed e)
  | panic p => .error p

theorem toOutcome_of_outcome {f : β → Outcome α} {r : Reply β} {o : Outcome α}
    (h : r.outcome f = .ok o) : r.toOutcome f = o := by
  cases r with
  | value b => exact Except.ok.inj h
  | fault e => exact Except.ok.inj h
  | panic p => exact nomatch h

theorem toOutcome_of_panic {f : β → Outcome α} {r : Reply β} {p : Panic}
    (h : r.outcome f = .error p) : r.toOutcome f = .failed (.panicked p.message) := by
  cases r with
  | value b => cases h
  | fault e => cases h
  | panic q =>
    cases h
    rfl

end Reply

/-- An implementation of the iteration contract over states of type `σ`. -/
structure Candidate (σ : Type u) (α : Type v) where
  hasMore : σ → Reply Bool × σ
  produceNext : σ → Reply α × σ
  /-- Removes the element produced last. A candidate need not support it. -/
  removeLast : σ → Reply Unit × σ := fun s => (.fault .unsupported, s)

namespace Candidate

variable {σ : Type u} {α : Type v}

/-- Makes one call and observes it. -/
def perform (c : Candidate σ α) (op : Operation) (s : σ) : Outcome α × σ :=
  match op with
  | .hasMore => let (r, s) := c.hasMore s; (r.toOutcome .hasMore, s)
  | .produceNext => let (r, s) := c.produceNext s; (r.toOutcome .produced, s)
  | .removeLast => let (r, s) := c.removeLast s; (r.toOutcome fun _ => .removed, s)

/-- Makes one call and does not hold a panic back. -/
def call (c : Candidate σ α) (op : Operation) (s : σ) : Except Panic (Outcome α × σ) :=
  match op with
  | .hasMore => let (r, s) := c.hasMore s; (r.outcome .hasMore).map (·, s)
  | .produceNext => let (r, s) := c.produceNext s; (r.outcome .produced).map (·, s)
  | .removeLast => let (r, s) := c.removeLast s; (r.outcome fun _ => .removed).map (·, s)

/-- The outcomes of the calls of a word, unless one of them panics. -/
def callAll (c : Candidate σ α) (s : σ) : Word → Except Panic (List (Outcome α))
  | [] => .ok []
  | op :: w =>
    match c.call op s with
    | .error p => .error p
    | .ok (o, s) => (c.callAll s w).map (o :: ·)

/-- The outcomes of the calls of a word, one after the other. -/
def outcomes (c : Candidate σ α) (s : σ) : Word → List (Outcome α)
  | [] => []
  | op :: w => (c.perform op s).1 :: c.outcomes (c.perform op s).2 w

/-- The state after the calls of a word. -/
def stateAfter (c : Candidate σ α) (s : σ) (w : Word) : σ :=
  w.foldl (fun s op => (c.perform op s).2) s

@[simp] theorem outcomes_nil (c : Candidate σ α) (s : σ) : c.outcomes s [] = [] := rfl

@[simp] theorem outcomes_cons (c : Candidate σ α) (s : σ) (op : Operation) (w : Word) :
    c.outcomes s (op :: w) = (c.perform op s).1 :: c.outcomes (c.perform op s).2 w := rfl

@[simp] theorem stateAfter_nil (c : Candidate σ α) (s : σ) : c.stateAfter s [] = s := rfl

@[simp] theorem stateAfter_cons (c : Candidate σ α) (s : σ) (op : Operation) (w : Word) :
    c.stateAfter s (op :: w) = c.stateAfter (c.perform op s).2 w := rfl

theorem outcomes_append (c : Candidate σ α) (s : σ) (u v : Word) :
    c.outcomes s (u ++ v) = c.outcomes s u ++ c.outcomes (c.stateAfter s u) v := by
  induction u generalizing s with
  | nil => rfl
  | cons op u ih => simp [ih]

private theorem map_eq_ok {β : Type u} {γ : Type v} {f : β → γ} {x : Except Panic β} {c : γ}
    (h : x.map f = .ok c) : ∃ b, x = .ok b ∧ f b = c := by
  cases x with
  | error p => exact nomatch h
  | ok b => exact ⟨b, rfl, Except.ok.inj h⟩

/-- A call that does not panic is performed alike. -/
theorem perform_of_call {c : Candidate σ α} {op : Operation} {s t : σ} {o : Outcome α}
    (h : c.call op s = .ok (o, t)) : c.perform op s = (o, t) := by
  cases op <;>
  · obtain ⟨o', ho, heq⟩ := map_eq_ok h
    cases heq
    simp [perform, Reply.toOutcome_of_outcome ho]

private theorem map_eq_error {β : Type u} {γ : Type v} {f : β → γ} {x : Except Panic β} {p : Panic}
    (h : x.map f = .error p) : x = .error p := by
  cases x with
  | error q => exact congrArg Except.error (Except.error.inj h)
  | ok b => cases h

/-- A call that panics is performed as a fault that carries the message. -/
theorem perform_of_panic {c : Candidate σ α} {op : Operation} {s : σ} {p : Panic}
    (h : c.call op s = .error p) : (c.perform op s).1 = .failed (.panicked p.message) := by
  cases op <;> exact Reply.toOutcome_of_panic (map_eq_error h)

@[simp] theorem length_outcomes (c : Candidate σ α) (s : σ) (w : Word) :
    (c.outcomes s w).length = w.length := by
  induction w generalizing s with
  | nil => rfl
  | cons op w ih => simp [ih]

end Candidate

end Lockstep
