import Lockstep.Proofs.Prediction
import Lockstep.Proofs.Replay.Course

/-!
# What the tolerance masks

The tolerance of the legacy defect changes three things in a replay: the verdict on one kind of
refusal, how the reference moves on behind it, and whether the hook is called there.  This file
compares a strict and a tolerant replay of one word, for the same candidate and the same hook.

The two benches share every checkpoint until the tolerant judge tolerates something; there the
strict replay ends.  So the induction over the word needs no relation between two states, only
the verdict at one checkpoint that both have reached (`strict_verdict`).

* **`Bench.same_or_forked`** — the comparison from any checkpoint on.
* **`Runner.tolerance_masks_one_refusal`** — the comparison of two whole replays.
-/

namespace Lockstep

universe u v w

variable {σ : Type u} {α : Type v} {η : Type w}

/-- The step at which the tolerance comes to bear, with the verdict that stands on record: a
    removal that was due, refused as illegal. -/
def Step.refusal (i : Nat) (f : Fault) (v : Verdict) : Step α :=
  ⟨i, .removeLast, .removed, .failed f, v⟩

/-- A removal that was due, refused as illegal. -/
def Step.IsRefusedRemoval (step : Step α) : Prop :=
  step.operation = .removeLast ∧ step.expected = .removed ∧
    ∃ f, step.actual = .failed f ∧ f.kind = .illegalRemoval

/-- A step that a strict replay would have ended with: the refusal of a removal that was due, and
    yet the hook was called. -/
def Step.IsMasked (step : Step α) : Prop :=
  step.IsRefusedRemoval ∧
    (step.verdict = .tolerated ∨ ∃ message, step.verdict = .diverge (.invariantFailed message))

/-- **The fork.**  The strict replay is the tolerant one up to place `i` and ends there with the
    refusal of a removal; the tolerant replay shows the hook the view `v` there, and goes by its
    answer.  `first` is the index of the first step, and `s` the state of the candidate before
    it. -/
structure Forked (c : Candidate σ α) (hook : Hook η σ α) (first : Nat) (s : σ) (word : Word)
    (strict tolerant : Replay η α) (i : Nat) (f : Fault) (v : View α) : Prop where
  kind : f.kind = .illegalRemoval
  steps : strict.steps =
    tolerant.steps.take i ++
      [.refusal (first + i) f (.diverge (.unexpectedFault .illegalRemoval))]
  views : strict.views = tolerant.views.take i
  unbroken : strict.panic = none
  shown : tolerant.views[i]? = some v
  answered :
    match (hook strict.hook v (c.stateAfter s (word.take (i + 1)))).1 with
    | .accept => tolerant.steps[i]? = some (.refusal (first + i) f .tolerated)
    | .reject message =>
      tolerant.steps[i]? = some (.refusal (first + i) f (.diverge (.invariantFailed message)))
    | .panic p => tolerant.steps.length = i ∧ tolerant.panic = some p

namespace Bench

/-- The bench with a judge that tolerates the legacy defect or does not. -/
def tolerating (tolerates : Bool) (c : Candidate σ α) (hook : Hook η σ α) : Bench σ α η :=
  ⟨⟨tolerates⟩, c, hook⟩

variable [BEq α] {c : Candidate σ α} {hook : Hook η σ α} {k : Checkpoint σ α η}
  {op : Operation} {w : Word}

/-! ## One step under both judges -/

/-- Where nothing is tolerated the verdicts are the same. -/
theorem strict_verdict (h : (tolerating true c hook).verdict k op ≠ .tolerated) :
    (tolerating false c hook).verdict k op = (tolerating true c hook).verdict k op :=
  Judge.strict_of_ne_tolerated h

theorem strict_settled (h : (tolerating true c hook).verdict k op ≠ .tolerated) :
    (tolerating false c hook).settled k op = (tolerating true c hook).settled k op := by
  rw [settled, strict_verdict h]
  rfl

theorem strict_called (h : (tolerating true c hook).verdict k op ≠ .tolerated) :
    (tolerating false c hook).called k op = (tolerating true c hook).called k op := by
  rw [called, strict_settled h]
  rfl

theorem strict_behind (h : (tolerating true c hook).verdict k op ≠ .tolerated) :
    (tolerating false c hook).behind k op = (tolerating true c hook).behind k op := by
  rw [behind, strict_settled h, strict_called h]
  rfl

/-- What is tolerated is a refusal in place of a removal that was due, and a strict replay ends
    with it. -/
theorem refusal_of_tolerated (h : (tolerating true c hook).verdict k op = .tolerated) :
    ∃ f : Fault, f.kind = .illegalRemoval ∧
      (∀ v, (tolerating true c hook).stepWith k op v = .refusal k.index f v) ∧
      (tolerating false c hook).run k (op :: w) =
        ⟨[.refusal k.index f (.diverge (.unexpectedFault .illegalRemoval))], [], [], k.hook,
          none⟩ := by
  obtain ⟨f, hexp, hact, hlegacy⟩ := Judge.judge_eq_tolerated.mp h
  obtain ⟨hop, -⟩ := Reference.predict_eq_removed.mp hexp
  have hkind : f.kind = .illegalRemoval := (Judge.isLegacyRemoval_iff.mp hlegacy).2.1
  have hstrict : (tolerating false c hook).verdict k op =
      .diverge (.unexpectedFault .illegalRemoval) := Judge.strict_of_tolerated h
  have hstep : ∀ v, (tolerating true c hook).stepWith k op v = .refusal k.index f v := by
    intro v
    rw [stepWith, Step.refusal, hexp, hact, hop]
  refine ⟨f, hkind, hstep, ?_⟩
  rw [run_cons_of_diverge (by rw [hstrict]; rfl), hstrict]
  show Replay.mk [(tolerating true c hook).stepWith k op _] [] [] k.hook none = _
  rw [hstep]

/-! ## Two replays -/

omit [BEq α] in
/-- A common first step moves a fork one place back. -/
theorem forked_after {first : Nat} {s : σ} {strict tolerant : Replay η α} {i : Nat} {f : Fault}
    {v : View α} (step : Step α) (view : View α) (ws ws' : List Nat)
    (h : Forked c hook (first + 1) (c.perform op s).2 w strict tolerant i f v) :
    Forked c hook first s (op :: w) (strict.after step view ws) (tolerant.after step view ws')
      (i + 1) f v := by
  have hindex : first + 1 + i = first + (i + 1) := by omega
  have hsteps := h.steps
  have hanswered := h.answered
  rw [hindex] at hsteps hanswered
  refine ⟨h.kind, ?_, ?_, h.unbroken, h.shown, ?_⟩
  · show step :: strict.steps = _
    rw [hsteps]
    rfl
  · show view :: strict.views = _
    rw [h.views]
    rfl
  · rw [List.take_succ_cons, Candidate.stateAfter_cons]
    show match (hook strict.hook v _).1 with
      | .accept => _
      | .reject _ => _
      | .panic p => tolerant.steps.length + 1 = i + 1 ∧ _
    cases ha : (hook strict.hook v (c.stateAfter (c.perform op s).2 (w.take (i + 1)))).1 with
    | accept =>
        rw [ha] at hanswered
        exact hanswered
    | reject message =>
        rw [ha] at hanswered
        exact hanswered
    | panic p =>
        rw [ha] at hanswered
        exact ⟨congrArg (· + 1) hanswered.1, hanswered.2⟩

/-- A tolerated first step forks the replays at once. -/
theorem forked_of_tolerated (h : (tolerating true c hook).verdict k op = .tolerated) :
    ∃ f v, Forked c hook k.index k.candidate (op :: w)
      ((tolerating false c hook).run k (op :: w)) ((tolerating true c hook).run k (op :: w))
      0 f v := by
  obtain ⟨f, hkind, hstep, hstrict⟩ := refusal_of_tolerated (w := w) h
  have hv : ((tolerating true c hook).verdict k op).isAcceptable = true := by rw [h]; rfl
  refine ⟨f, ((tolerating true c hook).settled k op).view, ?_⟩
  rw [hstrict]
  -- the strict replay has ended; how the tolerant one goes on is up to the hook
  cases ha : ((tolerating true c hook).called k op).1 with
  | accept =>
      rw [run_cons_of_accept hv ha, hstep, h]
      refine ⟨hkind, rfl, rfl, rfl, rfl, ?_⟩
      show match ((tolerating true c hook).called k op).1 with
        | .accept => _ | .reject _ => _ | .panic _ => _
      rw [ha]
      rfl
  | reject message =>
      rw [run_cons_of_reject hv ha, hstep]
      refine ⟨hkind, rfl, rfl, rfl, rfl, ?_⟩
      show match ((tolerating true c hook).called k op).1 with
        | .accept => _ | .reject _ => _ | .panic _ => _
      rw [ha]
      rfl
  | panic p =>
      rw [run_cons_of_panic hv ha]
      refine ⟨hkind, rfl, rfl, rfl, rfl, ?_⟩
      show match ((tolerating true c hook).called k op).1 with
        | .accept => _ | .reject _ => _ | .panic _ => _
      rw [ha]
      exact ⟨rfl, rfl⟩

/-- A step that is not tolerated and ends one replay ends both, and alike. -/
theorem same_of_stop (htol : (tolerating true c hook).verdict k op ≠ .tolerated)
    (hstop : (tolerating true c hook).next? k op = none) :
    (tolerating false c hook).run k (op :: w) = (tolerating true c hook).run k (op :: w) ∧
      ∀ step ∈ ((tolerating true c hook).run k (op :: w)).steps, step.verdict ≠ .tolerated := by
  have hverdict := strict_verdict htol
  have hsettled := strict_settled htol
  have hcalled := strict_called htol
  cases hv : ((tolerating true c hook).verdict k op).isAcceptable with
  | false =>
      rw [run_cons_of_diverge hv, run_cons_of_diverge (by rw [hverdict]; exact hv), hverdict]
      refine ⟨rfl, ?_⟩
      intro step hstep
      rw [List.mem_singleton.mp hstep]
      exact htol
  | true =>
      have hv' : ((tolerating false c hook).verdict k op).isAcceptable = true := by
        rw [hverdict]
        exact hv
      cases ha : ((tolerating true c hook).called k op).1 with
      | accept =>
          rw [next?_eq_some.mpr ⟨hv, ha, rfl⟩] at hstop
          exact nomatch hstop
      | reject message =>
          rw [run_cons_of_reject hv ha, run_cons_of_reject hv' (by rw [hcalled]; exact ha),
            hsettled, hcalled, warnings, warnings, hverdict]
          refine ⟨rfl, ?_⟩
          intro step hstep
          rw [List.mem_singleton.mp hstep]
          exact Verdict.noConfusion
      | panic p =>
          rw [run_cons_of_panic hv ha, run_cons_of_panic hv' (by rw [hcalled]; exact ha),
            hsettled, hcalled, warnings, warnings, hverdict]
          refine ⟨rfl, ?_⟩
          intro step hstep
          exact nomatch hstep

/-- A step that is not tolerated and accepted goes in front of both replays. -/
theorem strict_run_of_next {k' : Checkpoint σ α η}
    (htol : (tolerating true c hook).verdict k op ≠ .tolerated)
    (hnext : (tolerating true c hook).next? k op = some k') :
    (tolerating false c hook).run k (op :: w) =
      ((tolerating false c hook).run k' w).after
        ((tolerating true c hook).stepWith k op ((tolerating true c hook).verdict k op))
        ((tolerating true c hook).settled k op).view
        ((tolerating true c hook).warnings k op) := by
  have hverdict := strict_verdict htol
  obtain ⟨hv, ha, rfl⟩ := next?_eq_some.mp hnext
  rw [run_cons_of_accept (by rw [hverdict]; exact hv) (by rw [strict_called htol]; exact ha),
    strict_settled htol, strict_behind htol, warnings, hverdict]
  rfl

/-- **Two replays from one checkpoint.**  They are the same and nothing is tolerated, or they
    fork.  Induction on the word: until something is tolerated both stand at one checkpoint. -/
theorem same_or_forked (c : Candidate σ α) (hook : Hook η σ α) (k : Checkpoint σ α η)
    (w : Word) :
    ((tolerating false c hook).run k w = (tolerating true c hook).run k w ∧
        ∀ step ∈ ((tolerating true c hook).run k w).steps, step.verdict ≠ .tolerated) ∨
      ∃ i f v, Forked c hook k.index k.candidate w ((tolerating false c hook).run k w)
        ((tolerating true c hook).run k w) i f v := by
  induction w generalizing k with
  | nil =>
      left
      refine ⟨rfl, ?_⟩
      intro step hstep
      exact nomatch hstep
  | cons op w ih =>
      by_cases htol : (tolerating true c hook).verdict k op = .tolerated
      · obtain ⟨f, v, hfork⟩ := forked_of_tolerated (w := w) htol
        exact Or.inr ⟨0, f, v, hfork⟩
      · cases hnext : (tolerating true c hook).next? k op with
        | none => exact Or.inl (same_of_stop htol hnext)
        | some k' =>
            rw [run_cons_of_next hnext, strict_run_of_next htol hnext]
            obtain ⟨-, -, rfl⟩ := next?_eq_some.mp hnext
            -- both replays have come to the same checkpoint
            rcases ih ((tolerating true c hook).behind k op) with ⟨hsame, hnone⟩ | hfork
            · left
              rw [hsame]
              refine ⟨rfl, ?_⟩
              intro step hstep
              rcases List.mem_cons.mp hstep with rfl | hrest
              · exact htol
              · exact hnone step hrest
            · obtain ⟨i, f, v, hfork⟩ := hfork
              exact Or.inr ⟨i + 1, f, v, forked_after _ _ _ _ hfork⟩

end Bench

namespace Forked

variable {c : Candidate σ α} {hook : Hook η σ α} {first i : Nat} {s : σ} {w : Word}
  {strict tolerant : Replay η α} {f : Fault} {v : View α}

/-- A strict replay that comes to a fork has failed. -/
theorem not_isSuccess (h : Forked c hook first s w strict tolerant i f v) (u : Word) :
    (strict.record u).isSuccess = false := by
  simp [Record.isSuccess, Record.failedStep?, Replay.record, h.steps, Step.refusal,
    Verdict.isAcceptable]

/-- A tolerant replay that comes to a fork shows the masked step, unless the hook panicked. -/
theorem exists_isMasked (h : Forked c hook first s w strict tolerant i f v)
    (hpanic : tolerant.panic = none) : ∃ step ∈ tolerant.steps, step.IsMasked := by
  have hanswered := h.answered
  cases ha : (hook strict.hook v (c.stateAfter s (w.take (i + 1)))).1 with
  | accept =>
      rw [ha] at hanswered
      exact ⟨_, List.mem_of_getElem? hanswered, ⟨rfl, rfl, f, rfl, h.kind⟩, Or.inl rfl⟩
  | reject message =>
      rw [ha] at hanswered
      exact ⟨_, List.mem_of_getElem? hanswered, ⟨rfl, rfl, f, rfl, h.kind⟩,
        Or.inr ⟨message, rfl⟩⟩
  | panic p =>
      rw [ha] at hanswered
      rw [hanswered.2] at hpanic
      exact nomatch hpanic

end Forked

/-- **The tolerance masks nothing else.**  Replayed by a strict and by a tolerant judge, a word
    leaves the same behind and nothing is tolerated, or the two fork.  So a strict success is no
    matter of the tolerance, and neither is a tolerant replay that shows no masked step. -/
theorem Runner.tolerance_masks_one_refusal [BEq α] (expected : List α) (order : Order)
    (c : Candidate σ α) (hook : Hook η σ α) (s : σ) (h : η) (w : Word) :
    let strict := (Runner.mk expected order ⟨false⟩).replay c hook s h w
    let tolerant := (Runner.mk expected order ⟨true⟩).replay c hook s h w
    ((strict = tolerant ∧ ∀ step ∈ tolerant.steps, step.verdict ≠ .tolerated) ∨
        ∃ i f v, Forked c hook 0 s w strict tolerant i f v) ∧
      ((strict.record w).isSuccess = true → tolerant = strict) ∧
      (tolerant.panic = none → (∀ step ∈ tolerant.steps, ¬ step.IsMasked) →
        tolerant = strict) := by
  intro strict tolerant
  have hcases : (strict = tolerant ∧ ∀ step ∈ tolerant.steps, step.verdict ≠ .tolerated) ∨
      ∃ i f v, Forked c hook 0 s w strict tolerant i f v :=
    Bench.same_or_forked c hook (.start (.initial expected order) s h) w
  refine ⟨hcases, ?_, ?_⟩
  · intro hsuccess
    rcases hcases with ⟨hsame, -⟩ | ⟨i, f, v, hfork⟩
    · exact hsame.symm
    · rw [hfork.not_isSuccess w] at hsuccess
      exact nomatch hsuccess
  · intro hpanic hnone
    rcases hcases with ⟨hsame, -⟩ | ⟨i, f, v, hfork⟩
    · exact hsame.symm
    · obtain ⟨step, hstep, hmasked⟩ := hfork.exists_isMasked hpanic
      exact absurd hmasked (hnone step hstep)

end Lockstep
