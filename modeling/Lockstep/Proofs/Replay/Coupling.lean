import Lockstep.Proofs.Replay.Extent
import Mathlib.Data.List.Forall2

/-!
# Replays side by side

Two replays of one word, whose candidates may differ, or what the references hold, can be run side
by side.  What is said about them is a relation between their checkpoints that one operation keeps
(`Bench.InStep` at every operation), and what follows is a relation between all that the two
replays leave behind (`Replay.Alike`).

Both are told by three relations: `X` between what was expected, `O` between what was observed, and
`V` between the views.  Everything else has to be the same.

* **`Bench.run_alike`** — replays that stay in step are alike.
* **`Bench.run_alike_of_passes`** — if they stay in step only while the judge accepts, what the one
  passes the other passes too.
-/

namespace Lockstep

universe u v w x

variable {σ : Type u} {σ' : Type x} {α : Type v} {η : Type w}
  {X : Expectation α → Expectation α → Prop} {O : Outcome α → Outcome α → Prop}
  {V : View α → View α → Prop}

/-! ## Alike -/

/-- Two steps differ at most in what was expected and in what was observed. -/
structure Step.Alike (X : Expectation α → Expectation α → Prop) (O : Outcome α → Outcome α → Prop)
    (step step' : Step α) : Prop where
  index : step'.index = step.index
  operation : step'.operation = step.operation
  expected : X step.expected step'.expected
  actual : O step.actual step'.actual
  verdict : step'.verdict = step.verdict

/-- Two records of one word agree step by step. -/
structure Record.Alike (X : Expectation α → Expectation α → Prop) (O : Outcome α → Outcome α → Prop)
    (r r' : Record α) : Prop where
  word : r'.word = r.word
  steps : List.Forall₂ (Step.Alike X O) r.steps r'.steps

/-- Two replays agree in all that they leave behind. -/
structure Replay.Alike (X : Expectation α → Expectation α → Prop) (O : Outcome α → Outcome α → Prop)
    (V : View α → View α → Prop) (r r' : Replay η α) : Prop where
  steps : List.Forall₂ (Step.Alike X O) r.steps r'.steps
  views : List.Forall₂ V r.views r'.views
  warnings : r'.warnings = r.warnings
  hook : r'.hook = r.hook
  panic : r'.panic = r.panic

namespace Record

variable {r r' : Record α}

/-- The step that diverged is the last one, and the last steps agree. -/
theorem Alike.failedStep? (h : r.Alike X O r') :
    Option.Rel (Step.Alike X O) r.failedStep? r'.failedStep? := by
  have hlast := List.rel_reverse h.steps
  rw [Record.failedStep?, Record.failedStep?, List.getLast?_eq_head?_reverse,
    List.getLast?_eq_head?_reverse]
  revert hlast
  generalize r.steps.reverse = steps, r'.steps.reverse = steps'
  rintro (_ | ⟨hstep, -⟩)
  · exact .none
  · rw [List.head?_cons, List.head?_cons, Option.filter, Option.filter, hstep.verdict]
    split
    · exact .some hstep
    · exact .none

theorem Alike.isSuccess (h : r.Alike X O r') : r'.isSuccess = r.isSuccess := by
  have hfailed := h.failedStep?
  rw [Record.isSuccess, Record.isSuccess]
  generalize r.failedStep? = failed, r'.failedStep? = failed' at hfailed ⊢
  cases hfailed <;> rfl

theorem Alike.violation? (h : r.Alike X O r') : r'.violation? = r.violation? := by
  have hfailed := h.failedStep?
  rw [Record.violation?, Record.violation?]
  generalize r.failedStep? = failed, r'.failedStep? = failed' at hfailed ⊢
  cases hfailed with
  | none => rfl
  | some hstep => exact congrArg Verdict.violation? hstep.verdict

theorem Alike.toleratedSteps (h : r.Alike X O r') : r'.toleratedSteps = r.toleratedSteps := by
  have hsteps := h.steps
  rw [Record.toleratedSteps, Record.toleratedSteps]
  generalize r.steps = steps, r'.steps = steps' at hsteps ⊢
  induction hsteps with
  | nil => rfl
  | cons hstep _ ih => rw [List.countP_cons, List.countP_cons, ih, hstep.verdict]

end Record

namespace Replay

variable {r r' : Replay η α} {step step' : Step α} {view view' : View α}

theorem Alike.record (h : r.Alike X O V r') (w : Word) :
    (r.record w).Alike X O (r'.record w) := ⟨rfl, h.steps⟩

theorem Alike.passes {w : Word} (h : r.Alike X O V r') (hpasses : r.Passes w) : r'.Passes w :=
  ⟨h.panic.trans hpasses.unbroken, (h.record w).isSuccess.trans hpasses.success⟩

/-- Alike replays stay alike with alike steps in front. -/
theorem Alike.after (h : r.Alike X O V r') (hstep : step.Alike X O step') (hview : V view view')
    (warnings : List Nat) :
    (r.after step view warnings).Alike X O V (r'.after step' view' warnings) where
  steps := .cons hstep h.steps
  views := .cons hview h.views
  warnings := congrArg (warnings ++ ·) h.warnings
  hook := h.hook
  panic := h.panic

end Replay

/-! ## In step -/

namespace Bench

variable [BEq α] {b : Bench σ α η} {b' : Bench σ' α η} {k : Checkpoint σ α η}
  {k' : Checkpoint σ' α η} {op : Operation} {w : Word}

/-- Two replays are **in step** at an operation: the judge says the same of both, and if it
    accepts, the hook is called with related views and answers the same. -/
structure InStep (X : Expectation α → Expectation α → Prop) (O : Outcome α → Outcome α → Prop)
    (V : View α → View α → Prop) (b : Bench σ α η) (b' : Bench σ' α η) (k : Checkpoint σ α η)
    (k' : Checkpoint σ' α η) (op : Operation) : Prop where
  index : k'.index = k.index
  hook : k'.hook = k.hook
  expected : X (k.reference.predict op) (k'.reference.predict op)
  actual : O (b.outcome k op) (b'.outcome k' op)
  verdict : b'.verdict k' op = b.verdict k op
  view : (b.verdict k op).isAcceptable = true → V (b.settled k op).view (b'.settled k' op).view
  called : (b.verdict k op).isAcceptable = true → b'.called k' op = b.called k op

namespace InStep

theorem stepWith (h : InStep X O V b b' k k' op) (v : Verdict) :
    (b.stepWith k op v).Alike X O (b'.stepWith k' op v) :=
  ⟨h.index, rfl, h.expected, h.actual, rfl⟩

theorem warnings (h : InStep X O V b b' k k' op) : b'.warnings k' op = b.warnings k op := by
  rw [Bench.warnings, Bench.warnings, h.verdict, h.index]

/-- **One operation in step**, in front of replays that are alike behind it. -/
theorem run_cons (h : InStep X O V b b' k k' op)
    (hrest : (b.verdict k op).isAcceptable = true → (b.called k op).1 = .accept →
      (b.run (b.behind k op) w).Alike X O V (b'.run (b'.behind k' op) w)) :
    (b.run k (op :: w)).Alike X O V (b'.run k' (op :: w)) := by
  cases hv : (b.verdict k op).isAcceptable with
  | false =>
      have hv' : (b'.verdict k' op).isAcceptable = false := by rw [h.verdict, hv]
      rw [run_cons_of_diverge hv, run_cons_of_diverge hv', h.verdict]
      exact ⟨.cons (h.stepWith _) .nil, .nil, rfl, h.hook, rfl⟩
  | true =>
      have hv' : (b'.verdict k' op).isAcceptable = true := by rw [h.verdict, hv]
      have hcalled := h.called hv
      cases ha : (b.called k op).1 with
      | accept =>
          rw [run_cons_of_accept hv ha, run_cons_of_accept hv' (by rw [hcalled, ha]), h.verdict,
            h.warnings]
          exact (hrest hv ha).after (h.stepWith _) (h.view hv) _
      | reject message =>
          rw [run_cons_of_reject hv ha, run_cons_of_reject hv' (by rw [hcalled, ha])]
          exact ⟨.cons (h.stepWith _) .nil, .cons (h.view hv) .nil, h.warnings,
            congrArg Prod.snd hcalled, rfl⟩
      | panic p =>
          rw [run_cons_of_panic hv ha, run_cons_of_panic hv' (by rw [hcalled, ha])]
          exact ⟨.nil, .cons (h.view hv) .nil, h.warnings, congrArg Prod.snd hcalled, rfl⟩

end InStep

/-! ## Whole replays -/

variable {R : Checkpoint σ α η → Checkpoint σ' α η → Prop}

/-- **Replays that stay in step** are alike.  Induction on the word: the relation carries on behind
    every operation that the judge accepts. -/
theorem run_alike
    (hstep : ∀ ⦃k k'⦄ op, R k k' → InStep X O V b b' k k' op ∧
      ((b.verdict k op).isAcceptable = true → R (b.behind k op) (b'.behind k' op)))
    (hk : R k k') (w : Word) : (b.run k w).Alike X O V (b'.run k' w) := by
  induction w generalizing k k' with
  | nil => exact ⟨.nil, .nil, rfl, (hstep .hasMore hk).1.hook, rfl⟩
  | cons op w ih =>
      obtain ⟨hin, hbehind⟩ := hstep op hk
      refine hin.run_cons ?_
      intro hv _
      exact ih (hbehind hv)

/-- **Replays that stay in step while the judge accepts**, the first of which passes. -/
theorem run_alike_of_passes (hhook : ∀ ⦃k k'⦄, R k k' → k'.hook = k.hook)
    (hstep : ∀ ⦃k k'⦄ op, R k k' → (b.verdict k op).isAcceptable = true →
      InStep X O V b b' k k' op ∧ R (b.behind k op) (b'.behind k' op))
    (hk : R k k') {u : Word} (h : (b.run k w).Passes u) :
    (b.run k w).Alike X O V (b'.run k' w) := by
  obtain ⟨last, hreach⟩ := (passes_iff_reach u).mp h
  clear h
  induction w generalizing k k' with
  | nil => exact ⟨.nil, .nil, rfl, hhook hk, rfl⟩
  | cons op w ih =>
      obtain ⟨k₁, hnext, hrest⟩ := Option.bind_eq_some_iff.mp hreach
      obtain ⟨hv, -, rfl⟩ := next?_eq_some.mp hnext
      obtain ⟨hin, hbehind⟩ := hstep op hk hv
      refine hin.run_cons ?_
      intro _ _
      exact ih hbehind hrest

end Bench

end Lockstep
