import Lockstep.Candidate.Script
import Lockstep.Proofs.Accounts
import Lockstep.Proofs.Replay.Defect
import Lockstep.Proofs.Replay.Forecast

/-!
# What a divergence blames

The violation on record is decided by three things: what an operation can come to at all, what was
predicted of it, and what the judge makes of the two.  This file joins them along every replay.  A
prediction is told by the word in front of it (`Word.Forecast`), so the violation is told by the
word and by the outcome of the last step.

* **`Word.AcceptsFault`**, **`Word.Blames`** — the faults that are accepted, and the violation for
  every other outcome.
* **`Judge.acceptsFault_of_forecast`**, **`Judge.blames_of_forecast`** — one step.
* **`Bench.observes_run`** — what is recorded of a call, and of one that panics.
* **`Tester.violations_classified`** — whole replays, and the tests that prune illegal removals.
-/

namespace Lockstep

universe u v w x

variable {φ : Type x} {σ : Type u} {α : Type v} {η : Type w}

/-! ## Outcomes of an operation -/

/-- What an operation can come to: a value of its own kind, or a fault. -/
inductive Operation.Yields : Operation → Outcome α → Prop where
  | answer (more : Bool) : Yields .hasMore (.hasMore more)
  | element (x : α) : Yields .produceNext (.produced x)
  | removed : Yields .removeLast .removed
  | fault (op : Operation) (f : Fault) : Yields op (.failed f)

/-- A call comes to what its operation can come to.  A panic is a fault, too. -/
theorem Candidate.yields_perform (c : Candidate σ α) (op : Operation) (s : σ) :
    op.Yields (c.perform op s).1 := by
  cases op with
  | hasMore =>
      show Operation.hasMore.Yields ((c.hasMore s).1.toOutcome .hasMore)
      cases (c.hasMore s).1 with
      | value more => exact .answer more
      | fault f => exact .fault _ f
      | panic p => exact .fault _ _
  | produceNext =>
      show Operation.produceNext.Yields ((c.produceNext s).1.toOutcome .produced)
      cases (c.produceNext s).1 with
      | value x => exact .element x
      | fault f => exact .fault _ f
      | panic p => exact .fault _ _
  | removeLast =>
      show Operation.removeLast.Yields ((c.removeLast s).1.toOutcome fun _ => .removed)
      cases (c.removeLast s).1 with
      | value _ => exact .removed
      | fault f => exact .fault _ f
      | panic p => exact .fault _ _

/-! ## What is accepted and what is blamed -/

/-- The faults that may be accepted at place `i` of a word over `n` elements: a production with
    nothing left, and a removal. -/
inductive Word.AcceptsFault (n : Nat) (w : Word) (i : Nat) : Operation → FaultKind → Prop where
  | exhausted (h : n ≤ (w.take i).count .produceNext) : AcceptsFault n w i .produceNext .exhausted
  | illegalRemoval : AcceptsFault n w i .removeLast .illegalRemoval

/-- The violation that an operation at place `i` of a word over `n` elements is blamed for, if it
    comes to the given outcome and that diverges.  An element is pending while fewer productions
    stand in front than there are elements, and the marker is set while a removal is due. -/
inductive Word.Blames (n : Nat) (w : Word) (i : Nat) :
    Operation → Outcome α → Violation → Prop where
  | wrongAnswer (more : Bool) : Blames n w i .hasMore (.hasMore more) .valueMismatch
  | failedAnswer (f : Fault) : Blames n w i .hasMore (.failed f) (.unexpectedFault f.kind)
  /-- An element was pending, but another one came. -/
  | wrongElement (h : (w.take i).count .produceNext < n) (x : α) :
      Blames n w i .produceNext (.produced x) .valueMismatch
  | failedProduction (h : (w.take i).count .produceNext < n) (f : Fault) :
      Blames n w i .produceNext (.failed f) (.unexpectedFault f.kind)
  /-- Nothing was pending, but an element came. -/
  | producedPastEnd (h : n ≤ (w.take i).count .produceNext) (x : α) :
      Blames n w i .produceNext (.produced x) (.missingFault .exhausted)
  | otherFaultPastEnd (h : n ≤ (w.take i).count .produceNext) {f : Fault}
      (hkind : f.kind ≠ .exhausted) :
      Blames n w i .produceNext (.failed f) (.mismatchedKind .exhausted f.kind)
  | failedRemoval (h : Word.Due n w i) (f : Fault) :
      Blames n w i .removeLast (.failed f) (.unexpectedFault f.kind)
  /-- Nothing could be removed, but the candidate says that it did. -/
  | removedUndue (h : ¬ Word.Due n w i) :
      Blames n w i .removeLast .removed (.missingFault .illegalRemoval)
  | otherFaultUndue (h : ¬ Word.Due n w i) {f : Fault} (hkind : f.kind ≠ .illegalRemoval) :
      Blames n w i .removeLast (.failed f) (.mismatchedKind .illegalRemoval f.kind)

/-- Whether a violation says that an illegal removal was expected. -/
def Violation.OfIllegalRemoval (violation : Violation) : Prop :=
  violation = .missingFault .illegalRemoval ∨
    ∃ actual, violation = .mismatchedKind .illegalRemoval actual

namespace Word.Blames

variable {n : Nat} {w : Word} {i : Nat} {op : Operation} {actual : Outcome α}
  {violation : Violation}

/-- A removal is never blamed for a wrong value. -/
theorem ne_removeLast (h : Blames n w i op actual .valueMismatch) : op ≠ .removeLast := by
  cases h with
  | wrongAnswer _ => exact fun hop => nomatch hop
  | wrongElement _ _ => exact fun hop => nomatch hop

/-- An illegal removal is only expected of a removal that is not due. -/
theorem not_due (h : Blames n w i op actual violation) (hillegal : violation.OfIllegalRemoval) :
    op = .removeLast ∧ ¬ Word.Due n w i := by
  rcases hillegal with rfl | ⟨kind, rfl⟩
  · cases h with
    | removedUndue hnot => exact ⟨rfl, hnot⟩
  · cases h with
    | otherFaultUndue hnot _ => exact ⟨rfl, hnot⟩

end Word.Blames

/-! ## One step -/

namespace Judge

variable [BEq α] {j : Judge} {expected : List α} {order : Order} {w : Word} {i : Nat}
  {op : Operation} {e : Expectation α} {actual : Outcome α} {previous : Option (Outcome α)}

theorem acceptsFault_of_forecast {f : Fault} (hforecast : Word.Forecast expected order w i op e)
    (hv : (j.judge e (.failed f) previous).isAcceptable = true) :
    Word.AcceptsFault expected.length w i op f.kind := by
  rcases isAcceptable_failed.mp hv with rfl | ⟨rfl, hlegacy⟩
  · generalize hkind : f.kind = kind at hforecast
    cases hforecast with
    | exhausted h => exact .exhausted h
    | illegalRemoval _ => exact .illegalRemoval
  · -- the tolerated refusal of a removal that is due
    obtain ⟨-, hkind, -⟩ := isLegacyRemoval_iff.mp hlegacy
    rw [hkind]
    cases hforecast with
    | removed _ => exact .illegalRemoval

/-- Of two verdicts, the one that diverges. -/
private theorem eq_of_ite_diverge {p : Prop} [Decidable p] {v : Verdict}
    {violation violation' : Violation} (hv : v.isAcceptable = true)
    (h : (if p then v else .diverge violation) = .diverge violation') :
    ¬ p ∧ violation = violation' := by
  by_cases hp : p
  · rw [if_pos hp] at h
    rw [h] at hv
    cases hv
  · rw [if_neg hp] at h
    exact ⟨hp, Verdict.diverge.inj h⟩

/-- **The violation of one step**, from the word in front of it and from what it came to. -/
theorem blames_of_forecast {violation : Violation}
    (hforecast : Word.Forecast expected order w i op e) (hyields : op.Yields actual)
    (hv : j.judge e actual previous = .diverge violation) :
    Word.Blames expected.length w i op actual violation := by
  -- six predictions, each of which meets a value of its operation or a fault
  cases hforecast with
  | hasMore =>
      cases hyields with
      | answer more =>
          obtain ⟨-, rfl⟩ := eq_of_ite_diverge rfl hv
          exact .wrongAnswer more
      | fault _ f =>
          obtain rfl := Verdict.diverge.inj hv
          exact .failedAnswer f
  | exhausted h =>
      cases hyields with
      | element x =>
          obtain rfl := Verdict.diverge.inj hv
          exact .producedPastEnd h x
      | fault _ f =>
          obtain ⟨hkind, rfl⟩ := eq_of_ite_diverge rfl hv
          exact .otherFaultPastEnd h (mt Fault.standsFor_iff.mpr hkind)
  | element horder h =>
      have hcount := (List.getElem?_eq_some_iff.mp h).1
      cases hyields with
      | element x =>
          obtain ⟨-, rfl⟩ := eq_of_ite_diverge rfl hv
          exact .wrongElement hcount x
      | fault _ f =>
          obtain rfl := Verdict.diverge.inj hv
          exact .failedProduction hcount f
  | anyOf horder hcount hlen =>
      cases hyields with
      | element x =>
          obtain ⟨-, rfl⟩ := eq_of_ite_diverge rfl hv
          exact .wrongElement hcount x
      | fault _ f =>
          obtain rfl := Verdict.diverge.inj hv
          exact .failedProduction hcount f
  | removed h =>
      cases hyields with
      | removed => exact nomatch hv
      | fault _ f =>
          obtain ⟨-, rfl⟩ := eq_of_ite_diverge rfl hv
          exact .failedRemoval h f
  | illegalRemoval h =>
      cases hyields with
      | removed =>
          obtain rfl := Verdict.diverge.inj hv
          exact .removedUndue h
      | fault _ f =>
          obtain ⟨hkind, rfl⟩ := eq_of_ite_diverge rfl hv
          exact .otherFaultUndue h (mt Fault.standsFor_iff.mpr hkind)

end Judge

/-! ## Whole replays -/

/-- The violations of a replay over `n` elements are **classified**: no fault is masked, and what
    is blamed is told by the last step. -/
structure Replay.Classified (n : Nat) (w : Word) (r : Replay η α) : Prop where
  /-- A fault is accepted in two cases only. -/
  accepted : ∀ i step f, r.steps[i]? = some step → step.actual = .failed f →
    step.verdict.isAcceptable = true → Word.AcceptsFault n w i step.operation f.kind
  /-- Every other fault ends the replay with a divergence at this step. -/
  fatal : ∀ i step f, r.steps[i]? = some step → step.actual = .failed f →
    step.operation = .hasMore ∨ f.kind = .panicked ∨ f.kind = .unsupported ∨
      f.kind = .invalidArgument →
    r.steps.length = i + 1 ∧ (r.record w).failedStep? = some step ∧
      ∃ violation, step.verdict = .diverge violation
  /-- A failed record gives the violation of its last step, which the hook rejected or which is
      blamed by the taxonomy. -/
  failed : (r.record w).isSuccess = false →
    ∃ i step violation, r.steps.length = i + 1 ∧ r.steps[i]? = some step ∧
      w[i]? = some step.operation ∧ step.verdict = .diverge violation ∧
      (r.record w).violation? = some violation ∧
      ((∃ message, violation = .invariantFailed message) ∨
        Word.Blames n w i step.operation step.actual violation)
  /-- No removal is taken for a wrong value. -/
  removals : ∀ step ∈ r.steps, step.operation = .removeLast →
    step.verdict ≠ .diverge .valueMismatch

/-- **What a replay records of its calls** on a candidate.  A call that returns leaves its outcome,
    and one that panics a fault that carries the message: the replay ends with it, and diverges. -/
structure Replay.Observes (c : Candidate σ α) (s : σ) (w : Word) (r : Replay η α) : Prop where
  returned : ∀ i step o s', r.steps[i]? = some step →
    c.call step.operation (c.stateAfter s (w.take i)) = .ok (o, s') → step.actual = o
  panicked : ∀ i step p, r.steps[i]? = some step →
    c.call step.operation (c.stateAfter s (w.take i)) = .error p →
      step.actual = .failed (.panicked p.message) ∧
        r.steps.length = i + 1 ∧ (r.record w).failedStep? = some step ∧
          ∃ violation, step.verdict = .diverge violation

namespace Bench

variable [BEq α] {b : Bench σ α η} {expected : List α} {order : Order} {s : σ} {h : η} {w : Word}
  {i : Nat} {step : Step α}

/-- Each step on record has what its operation comes to behind the calls in front of it. -/
theorem actual_of_steps {first : Reference α}
    (hstep : (b.run (.start first s h) w).steps[i]? = some step) :
    step.actual =
      (b.candidate.perform step.operation (b.candidate.stateAfter s (w.take i))).1 := by
  obtain ⟨k, op, hreach, -, hmade⟩ := exists_of_steps_getElem? hstep
  have hstate : k.candidate = b.candidate.stateAfter s (w.take i) := candidate_of_reach hreach
  rw [(step?_eq_some hmade).1, ← hstate]
  rfl

theorem acceptsFault_of_steps {f : Fault}
    (hstep : (b.run (.start (.initial expected order) s h) w).steps[i]? = some step)
    (hactual : step.actual = .failed f) (hv : step.verdict.isAcceptable = true) :
    Word.AcceptsFault expected.length w i step.operation f.kind := by
  obtain ⟨-, hforecast⟩ := forecast_of_steps hstep
  obtain ⟨k, op, -, -, hmade⟩ := exists_of_steps_getElem? hstep
  have hacceptable := isAcceptable_of_step? hmade hv
  rw [(step?_eq_some hmade).1] at hforecast hactual ⊢
  have houtcome : b.outcome k op = .failed f := hactual
  rw [verdict, houtcome] at hacceptable
  exact Judge.acceptsFault_of_forecast hforecast hacceptable

/-- A divergence on record is a rejection by the hook, or it is blamed by the taxonomy. -/
theorem blames_of_steps {violation : Violation}
    (hstep : (b.run (.start (.initial expected order) s h) w).steps[i]? = some step)
    (hverdict : step.verdict = .diverge violation) :
    (∃ message, violation = .invariantFailed message) ∨
      Word.Blames expected.length w i step.operation step.actual violation := by
  obtain ⟨-, hforecast⟩ := forecast_of_steps hstep
  obtain ⟨k, op, -, -, hmade⟩ := exists_of_steps_getElem? hstep
  obtain ⟨hshape, hjudged | ⟨message, -, -, hrejected⟩⟩ := step?_eq_some hmade
  · rw [hshape] at hforecast ⊢
    exact Or.inr (Judge.blames_of_forecast hforecast (b.candidate.yields_perform op k.candidate)
      (hjudged.symm.trans hverdict))
  · rw [hverdict] at hrejected
    exact Or.inl ⟨message, Verdict.diverge.inj hrejected⟩

/-- **The violations of a replay**, for every candidate and every hook. -/
theorem classified_run (b : Bench σ α η) (expected : List α) (order : Order) (s : σ) (h : η)
    (w : Word) :
    (b.run (.start (.initial expected order) s h) w).Classified expected.length w where
  accepted := by
    intro i step f hstep hactual hv
    exact acceptsFault_of_steps hstep hactual hv
  fatal := by
    intro i step f hstep hactual hfatal
    cases hv : step.verdict.isAcceptable with
    | true =>
        -- such a fault is none of the two that are accepted
        have haccepts := acceptsFault_of_steps hstep hactual hv
        generalize step.operation = op, f.kind = kind at hfatal haccepts
        cases haccepts <;> simp at hfatal
    | false =>
        obtain ⟨violation, hverdict⟩ := Verdict.exists_eq_diverge hv
        obtain ⟨hlen, hfailed⟩ := failedStep?_of_step hstep hverdict w
        exact ⟨hlen, hfailed, violation, hverdict⟩
  failed := by
    intro hfailed
    obtain ⟨i, step, violation, hlen, hstep, -, hverdict, hviolation⟩ :=
      Record.exists_of_failed hfailed
    exact ⟨i, step, violation, hlen, hstep, (forecast_of_steps hstep).1, hverdict, hviolation,
      blames_of_steps hstep hverdict⟩
  removals := by
    intro step hmem hop hverdict
    obtain ⟨i, hstep⟩ := List.mem_iff_getElem?.mp hmem
    rcases blames_of_steps hstep hverdict with ⟨message, hmessage⟩ | hblames
    · cases hmessage
    · exact hblames.ne_removeLast hop

/-- **The calls of a replay**, and the panics among them. -/
theorem observes_run (b : Bench σ α η) (expected : List α) (order : Order) (s : σ) (h : η)
    (w : Word) : (b.run (.start (.initial expected order) s h) w).Observes b.candidate s w where
  returned := by
    intro i step o s' hstep hcall
    rw [actual_of_steps hstep, Candidate.perform_of_call hcall]
  panicked := by
    intro i step p hstep hcall
    have hactual : step.actual = .failed (.panicked p.message) :=
      (actual_of_steps hstep).trans (Candidate.perform_of_panic hcall)
    have hclassified := b.classified_run expected order s h w
    exact ⟨hactual, hclassified.fatal i step _ hstep hactual (Or.inr (Or.inl rfl))⟩

end Bench

/-- **The taxonomy of violations.**  The violations of every replay are classified, and a panic of
    the candidate is on record as one and ends the replay.  So a test that leaves illegal removals
    out reports no divergence from an expected illegal removal. -/
theorem Tester.violations_classified [BEq α] (t : Tester α) (c : Candidate σ α)
    (hook : Hook η σ α) :
    (∀ s h w, (t.runner.replay c hook s h w).Classified t.expected.length w ∧
        (t.runner.replay c hook s h w).Observes c s w) ∧
      (t.settings.illegalRemovals = false →
        ∀ (make : Factory φ σ) f h run report, t.testWith c make hook f h = .ok run →
          run.result = .error (.diverged report) →
            ∃ violation, report.violation? = some violation ∧ ¬ violation.OfIllegalRemoval) := by
  have hclassified : ∀ s h w, (t.runner.replay c hook s h w).Classified t.expected.length w := by
    intro s h w
    exact Bench.classified_run ⟨t.runner.judge, c, hook⟩ t.expected t.settings.order s h w
  have hobserves : ∀ s h w, (t.runner.replay c hook s h w).Observes c s w := by
    intro s h w
    exact Bench.observes_run ⟨t.runner.judge, c, hook⟩ t.expected t.settings.order s h w
  refine ⟨fun s h w => ⟨hclassified s h w, hobserves s h w⟩, ?_⟩
  intro hpruned make f h run report hrun hreport
  have hdiverged := divergedWith_of_testWith hrun hreport
  obtain ⟨records, session, session', -, -, hreplay, -⟩ := hdiverged.replayed
  obtain ⟨s, f', -, -, hrecord, -⟩ := Session.replay_eq_ok hreplay
  have hfailed := hdiverged.failed
  rw [hrecord] at hfailed
  obtain ⟨i, step, violation, -, -, hop, -, hviolation, hblamed⟩ :=
    (hclassified s session.hook report.record.word).failed hfailed
  refine ⟨violation, ?_, ?_⟩
  · rw [FailureReport.violation?, hrecord]
    exact hviolation
  · intro hillegal
    rcases hblamed with ⟨message, rfl⟩ | hblames
    · rcases hillegal with hmissing | ⟨kind, hkind⟩
      · cases hmissing
      · cases hkind
    · -- every removal of an explored word is due
      obtain ⟨hremoval, hnot⟩ := hblames.not_due hillegal
      have hlegal : t.space.Legal report.record.word :=
        Space.mem_words.mp (List.mem_of_getElem? hdiverged.word)
      exact hnot (hlegal.due hpruned i (hop.trans (congrArg some hremoval)))

/-- A candidate whose second answer is a panic, with the tolerance on. -/
example :
    ((Runner.mk [7] .determinate ⟨true⟩).replay Script.candidate Hook.accepting
      ⟨[.value true, .panic ⟨none⟩], [.value 7], none⟩ ()
      [.hasMore, .produceNext, .hasMore, .produceNext]).steps.map (·.verdict) =
      [.agree, .agree, .diverge (.unexpectedFault .panicked)] := by
  decide

end Lockstep
