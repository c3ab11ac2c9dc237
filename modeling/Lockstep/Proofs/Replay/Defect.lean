import Lockstep.Candidate.Cursor
import Lockstep.Candidate.LegacyRemoval
import Lockstep.Proofs.Replay.Tolerance

/-!
# The legacy defect in a replay

The judge takes a refused removal for the legacy defect by looking at one thing only: the fault
of the call before it.  It asks neither for the operation of that call nor for what was predicted
of it.  In a replay it need not, because the call before was accepted, and an accepted exhaustion
is always that of a production with nothing pending.

Behind a tolerated step the reference is **spent**: nothing is pending and nothing can be removed.
No step changes a spent reference, so nothing can be tolerated a second time.

* **`Reference.settle_of_spent`** — the invariant of everything behind a tolerated step.
* **`Bench.exhaustion_before_tolerated`** — the checkpoint in front of a tolerated step.
* **`Runner.tolerated_exactly_defect`** — the tolerated steps of a whole replay.
-/

namespace Lockstep

universe u v w

variable {σ : Type u} {α : Type v} {η : Type w}

/-! ## Spent references -/

namespace Reference

/-- Nothing is pending and nothing can be removed. -/
def Spent (r : Reference α) : Prop := r.pending = [] ∧ r.canRemove = false

/-- **A spent reference stands still**, whatever the step and whatever the verdict on it. -/
theorem settle_of_spent [BEq α] {r : Reference α} (h : r.Spent) (op : Operation)
    (actual : Outcome α) (v : Verdict) : r.settle op actual v = r := by
  obtain ⟨hpending, hmark⟩ := h
  cases v with
  | agree =>
      cases op with
      | hasMore => rfl
      | produceNext => exact advance_produceNext_of_pending_nil hpending actual.element?
      | removeLast => exact advance_removeLast_of_unmarked hmark actual.element?
  | tolerated =>
      show Reference.mk r.order r.produced r.pending false = r
      rw [← hmark]
  | diverge violation => rfl

end Reference

/-- What is predicted of an operation once the reference is spent. -/
def Expectation.whenSpent : Operation → Expectation α
  | .hasMore => .hasMore false
  | .produceNext => .fault .exhausted
  | .removeLast => .fault .illegalRemoval

theorem Reference.predict_of_spent {r : Reference α} (h : r.Spent) (op : Operation) :
    r.predict op = .whenSpent op := by
  cases op with
  | hasMore => simp [predict, Expectation.whenSpent, h.1]
  | produceNext => exact predict_eq_exhausted.mpr ⟨rfl, h.1⟩
  | removeLast => exact predict_eq_illegalRemoval.mpr ⟨rfl, h.2⟩

/-! ## The pattern -/

/-- A production that was predicted to be exhausted, and was. -/
def Step.IsExhaustion (step : Step α) : Prop :=
  step.operation = .produceNext ∧ step.expected = .fault .exhausted ∧
    ∃ f, step.actual = .failed f ∧ f.kind = .exhausted

namespace Replay

/-- The legacy defect at place `i`: an exhaustion, and directly behind it a refused removal. -/
def ShowsDefect (r : Replay η α) (i : Nat) : Prop :=
  ∃ j before step, i = j + 1 ∧ r.steps[j]? = some before ∧ before.IsExhaustion ∧
    r.steps[i]? = some step ∧ step.IsRefusedRemoval

/-- From place `i` on every accepted step shows the hook what the step before place `i` showed
    it, and behind place `i` every prediction is that of a spent reference. -/
def StandsStill (r : Replay η α) (i : Nat) : Prop :=
  (∃ v, r.views[i - 1]? = some v ∧
      ∀ j step, i ≤ j → r.steps[j]? = some step → step.verdict.isAcceptable = true →
        r.views[j]? = some v) ∧
    ∀ j step, i < j → r.steps[j]? = some step → step.expected = .whenSpent step.operation

end Replay

namespace Bench

variable [BEq α] {b : Bench σ α η} {k k' : Checkpoint σ α η} {op : Operation} {u w : Word}

/-! ## Before a tolerated step -/

/-- **An accepted exhaustion** is that of a production with nothing pending. -/
theorem exhaustion_of_accepted {f : Fault} (hv : (b.verdict k op).isAcceptable = true)
    (hf : b.outcome k op = .failed f) (hkind : f.kind = .exhausted) :
    k.reference.predict op = .fault .exhausted ∧ b.verdict k op = .agree := by
  rw [verdict, hf] at hv
  rcases Judge.isAcceptable_failed.mp hv with hexp | ⟨-, hlegacy⟩
  · rw [hkind] at hexp
    refine ⟨hexp, ?_⟩
    rw [verdict, hf]
    exact Judge.failed_eq_agree.mpr (by rw [hexp, hkind])
  · have hillegal := (Judge.isLegacyRemoval_iff.mp hlegacy).2.1
    rw [hkind] at hillegal
    exact nomatch hillegal

/-- **In front of a tolerated step** an exhaustion was accepted, and it left the reference with
    nothing pending as it was. -/
theorem exhaustion_before_tolerated {first : Reference α} {s : σ} {h : η} {i : Nat}
    (hreach : b.reach (.start first s h) (w.take i) = some k) (hop : w[i]? = some op)
    (htol : b.verdict k op = .tolerated) :
    ∃ j k₁ op₁, i = j + 1 ∧ b.reach (.start first s h) (w.take j) = some k₁ ∧
      w[j]? = some op₁ ∧ b.next? k₁ op₁ = some k ∧
      (b.stepWith k₁ op₁ (b.verdict k₁ op₁)).IsExhaustion ∧
      k.reference = k₁.reference ∧ k.reference.pending = [] := by
  obtain ⟨f, -, -, hlegacy⟩ := Judge.judge_eq_tolerated.mp htol
  obtain ⟨-, -, g, hprev, hkind⟩ := Judge.isLegacyRemoval_iff.mp hlegacy
  cases i with
  | zero =>
      -- the first step has no step before it
      rw [List.take_zero] at hreach
      rw [← Option.some.inj hreach] at hprev
      exact nomatch hprev
  | succ j =>
      have hj : j < w.length := by
        have hlen := (List.getElem?_eq_some_iff.mp hop).1
        omega
      have hop₁ : w[j]? = some w[j] := List.getElem?_eq_getElem hj
      obtain ⟨k₁, hreach₁, hnext⟩ := exists_of_reach_take_succ hop₁ hreach
      obtain ⟨hv, -, rfl⟩ := next?_eq_some.mp hnext
      have hout : b.outcome k₁ w[j] = .failed g := Option.some.inj hprev
      obtain ⟨hexp, hagree⟩ := exhaustion_of_accepted hv hout hkind
      obtain ⟨hprod, hpending⟩ := Reference.predict_eq_exhausted.mp hexp
      have hsame : b.settled k₁ w[j] = k₁.reference := by
        rw [settled, hagree, hprod]
        exact Reference.advance_produceNext_of_pending_nil hpending _
      refine ⟨j, k₁, w[j], rfl, hreach₁, hop₁, hnext, ⟨hprod, hexp, g, hout, hkind⟩, hsame, ?_⟩
      show (b.settled k₁ w[j]).pending = []
      rw [hsame]
      exact hpending

/-! ## Behind a tolerated step -/

/-- A tolerated step leaves a reference without pending elements spent, and shows the hook what
    it showed before. -/
theorem settled_of_tolerated (htol : b.verdict k op = .tolerated) :
    b.settled k op = k.reference.forfeit := by
  rw [settled, htol]
  rfl

/-- **A spent reference lasts** to the end of the replay. -/
theorem reference_of_reach_of_spent (hspent : k.reference.Spent)
    (hreach : b.reach k u = some k') : k'.reference = k.reference := by
  induction u generalizing k with
  | nil => rw [← Option.some.inj hreach]
  | cons op u ih =>
      obtain ⟨k₁, hnext, hrest⟩ := Option.bind_eq_some_iff.mp hreach
      obtain ⟨-, -, rfl⟩ := next?_eq_some.mp hnext
      have hstill : (b.behind k op).reference = k.reference :=
        Reference.settle_of_spent hspent _ _ _
      rw [← hstill] at hspent ⊢
      exact ih hspent hrest

/-- Every checkpoint behind a tolerated step has the reference that this step left, and it is
    spent. -/
theorem spent_behind_tolerated {first : Reference α} {s : σ} {h : η} {i n : Nat}
    (hreach : b.reach (.start first s h) (w.take i) = some k) (hop : w[i]? = some op)
    (htol : b.verdict k op = .tolerated) (hin : i < n)
    (hreach' : b.reach (.start first s h) (w.take n) = some k') :
    k'.reference.Spent ∧ k'.reference.view = k.reference.view := by
  obtain ⟨-, -, -, -, -, -, -, -, -, hpending⟩ := exhaustion_before_tolerated hreach hop htol
  obtain ⟨k₂, hreach₂, hrest⟩ := exists_reach_take (Nat.succ_le_of_lt hin) hreach'
  rw [reach_take_succ hop, hreach] at hreach₂
  obtain ⟨-, -, rfl⟩ := next?_eq_some.mp hreach₂
  have hleft : (b.behind k op).reference = k.reference.forfeit := settled_of_tolerated htol
  have hspent : (b.behind k op).reference.Spent := by
    rw [hleft]
    exact ⟨hpending, rfl⟩
  rw [reference_of_reach_of_spent hspent hrest]
  refine ⟨hspent, ?_⟩
  rw [hleft, Reference.view_forfeit]

/-- Nothing is tolerated at a spent reference. -/
theorem not_tolerated_of_spent (hspent : k.reference.Spent) : b.verdict k op ≠ .tolerated := by
  intro htol
  obtain ⟨f, hexp, -, -⟩ := Judge.judge_eq_tolerated.mp htol
  have hmark := (Reference.predict_eq_removed.mp hexp).2
  rw [hspent.2] at hmark
  exact nomatch hmark

/-! ## Whole replays -/

/-- The judge tolerated the step behind a tolerated verdict on record. -/
theorem verdict_of_step? {step : Step α} (hstep : b.step? k op = some step)
    (htol : step.verdict = .tolerated) : b.verdict k op = .tolerated := by
  obtain ⟨-, hsame | ⟨message, -, -, hreject⟩⟩ := step?_eq_some hstep
  · rw [← hsame, htol]
  · rw [htol] at hreject
    exact nomatch hreject

/-- The judge accepted a step with an acceptable verdict on record. -/
theorem isAcceptable_of_step? {step : Step α} (hstep : b.step? k op = some step)
    (hv : step.verdict.isAcceptable = true) : (b.verdict k op).isAcceptable = true := by
  obtain ⟨-, hsame | ⟨message, hjudge, -, -⟩⟩ := step?_eq_some hstep
  · rw [← hsame, hv]
  · exact hjudge

variable {first : Reference α} {s : σ} {h : η} {i : Nat}

/-- **Soundness of the tolerance**: what is tolerated shows the defect. -/
theorem showsDefect_of_tolerated (hreach : b.reach (.start first s h) (w.take i) = some k)
    (hop : w[i]? = some op) (htol : b.verdict k op = .tolerated) {step : Step α}
    (hstep : b.step? k op = some step) : (b.run (.start first s h) w).ShowsDefect i := by
  obtain ⟨f, hexp, hact, hlegacy⟩ := Judge.judge_eq_tolerated.mp htol
  obtain ⟨j, k₁, op₁, rfl, hreach₁, hop₁, hnext, hexhausted, -, -⟩ :=
    exhaustion_before_tolerated hreach hop htol
  refine ⟨j, _, step, rfl, ?_, hexhausted, ?_, ?_⟩
  · rw [steps_getElem?_of_reach hreach₁ hop₁]
    exact step?_of_next hnext
  · rw [steps_getElem?_of_reach hreach hop, hstep]
  · rw [(step?_eq_some hstep).1]
    exact ⟨(Reference.predict_eq_removed.mp hexp).1, hexp, f, hact,
      (Judge.isLegacyRemoval_iff.mp hlegacy).2.1⟩

/-- **Completeness of the tolerance**: a tolerant judge tolerates whatever shows the defect. -/
theorem tolerated_of_showsDefect (hflag : b.judge.toleratesLegacyRemoval = true)
    (hreach : b.reach (.start first s h) (w.take i) = some k) (hop : w[i]? = some op)
    (hdefect : (b.run (.start first s h) w).ShowsDefect i) : b.verdict k op = .tolerated := by
  obtain ⟨j, before, step, rfl, hbefore, ⟨-, -, g, hg, hgkind⟩, hstep, ⟨-, hexp, f, hf, hfkind⟩⟩ :=
    hdefect
  obtain ⟨k₁, op₁, hreach₁, hop₁, hstep₁⟩ := exists_of_steps_getElem? hbefore
  rw [steps_getElem?_of_reach hreach hop] at hstep
  -- the fault of the step before is what the judge is shown as the previous outcome
  rw [reach_take_succ hop₁, hreach₁] at hreach
  obtain ⟨-, -, rfl⟩ := next?_eq_some.mp hreach
  rw [(step?_eq_some hstep₁).1] at hg
  rw [(step?_eq_some hstep).1] at hexp hf
  refine Judge.judge_eq_tolerated.mpr ⟨f, hexp, hf, ?_⟩
  exact Judge.isLegacyRemoval_iff.mpr ⟨hflag, hfkind, g, congrArg some hg, hgkind⟩

/-- Behind a tolerated step the replay stands still. -/
theorem standsStill_of_tolerated (hreach : b.reach (.start first s h) (w.take i) = some k)
    (hop : w[i]? = some op) (htol : b.verdict k op = .tolerated) :
    (b.run (.start first s h) w).StandsStill i := by
  constructor
  · refine ⟨k.reference.view, ?_, ?_⟩
    · obtain ⟨j, k₁, op₁, rfl, hreach₁, hop₁, hnext, -, -, -⟩ :=
        exhaustion_before_tolerated hreach hop htol
      rw [Nat.add_sub_cancel, views_getElem?_of_reach hreach₁ hop₁, view?_of_next hnext]
      obtain ⟨-, -, rfl⟩ := next?_eq_some.mp hnext
      rfl
    · intro j step hij hstep hacceptable
      obtain ⟨k', op', hreach', hop', hstep'⟩ := exists_of_steps_getElem? hstep
      rw [views_getElem?_of_reach hreach' hop', view?,
        if_pos (isAcceptable_of_step? hstep' hacceptable)]
      rcases Nat.eq_or_lt_of_le hij with rfl | hlt
      · -- the tolerated step itself
        rw [hreach] at hreach'
        rw [hop] at hop'
        rw [← Option.some.inj hreach', ← Option.some.inj hop', settled_of_tolerated htol,
          Reference.view_forfeit]
      · obtain ⟨hspent, hview⟩ := spent_behind_tolerated hreach hop htol hlt hreach'
        rw [settled, Reference.settle_of_spent hspent, hview]
  · intro j step hij hstep
    obtain ⟨k', op', hreach', -, hstep'⟩ := exists_of_steps_getElem? hstep
    rw [(step?_eq_some hstep').1]
    exact Reference.predict_of_spent (spent_behind_tolerated hreach hop htol hij hreach').1 op'

/-- **At most one** step of a replay is tolerated. -/
theorem eq_of_tolerated {n : Nat} {op' : Operation}
    (hreach : b.reach (.start first s h) (w.take i) = some k) (hop : w[i]? = some op)
    (htol : b.verdict k op = .tolerated)
    (hreach' : b.reach (.start first s h) (w.take n) = some k') (hop' : w[n]? = some op')
    (htol' : b.verdict k' op' = .tolerated) : n = i := by
  -- the later one of two would have been tolerated at a spent reference
  rcases Nat.lt_trichotomy i n with hlt | heq | hgt
  · have hspent := (spent_behind_tolerated hreach hop htol hlt hreach').1
    exact absurd htol' (not_tolerated_of_spent hspent)
  · exact heq.symm
  · have hspent := (spent_behind_tolerated hreach' hop' htol' hgt hreach).1
    exact absurd htol (not_tolerated_of_spent hspent)

/-- On record stands what the judge said, or that the hook rejected the view of this step and the
    candidate behind it. -/
theorem verdict_or_rejection (hreach : b.reach k (w.take i) = some k') (hop : w[i]? = some op)
    {step : Step α} (hstep : b.step? k' op = some step) :
    step.verdict = b.verdict k' op ∨
      ∃ message v h', step.verdict = .diverge (.invariantFailed message) ∧
        (b.run k w).views[i]? = some v ∧
        b.hook h' v (b.candidate.stateAfter k.candidate (w.take (i + 1))) =
          (.reject message, (b.run k w).hook) := by
  obtain ⟨-, hsame | ⟨message, hv, ha, hreject⟩⟩ := step?_eq_some hstep
  · exact Or.inl hsame
  · refine Or.inr ⟨message, (b.settled k' op).view, k'.hook, hreject, ?_, ?_⟩
    · rw [views_getElem?_of_reach hreach hop, view?, if_pos hv]
    · -- the replay ends here, so its hook is the one that rejected
      have hlast : (b.run k w).hook = (b.called k' op).2 := by
        obtain ⟨hlt, hget⟩ := List.getElem?_eq_some_iff.mp hop
        rw [← List.take_append_drop i w, run_append hreach, List.drop_eq_getElem_cons hlt, hget,
          run_cons_of_reject hv ha]
        rfl
      rw [← candidate_behind_of_reach hreach hop, hlast, ← ha]
      rfl

end Bench

/-- **The tolerated steps of a replay.**  They are the refused removals of the documented
    pattern, there is at most one of them, and the replay stands still behind it.  The other way
    round, with the tolerance on, a step that shows the pattern is tolerated unless the hook
    rejects it. -/
theorem Runner.tolerated_exactly_defect [BEq α] (runner : Runner α) (c : Candidate σ α)
    (hook : Hook η σ α) (s : σ) (h : η) (w : Word) :
    let r := runner.replay c hook s h w
    (∀ i step, r.steps[i]? = some step → step.verdict = .tolerated →
        runner.judge.toleratesLegacyRemoval = true ∧ r.ShowsDefect i ∧
          (∀ j other, r.steps[j]? = some other → other.verdict = .tolerated → j = i) ∧
          r.StandsStill i) ∧
      (runner.judge.toleratesLegacyRemoval = true →
        ∀ i step, r.steps[i]? = some step → r.ShowsDefect i →
          step.verdict = .tolerated ∨
            ∃ message v h', step.verdict = .diverge (.invariantFailed message) ∧
              r.views[i]? = some v ∧
              hook h' v (c.stateAfter s (w.take (i + 1))) = (.reject message, r.hook)) := by
  intro r
  let b : Bench σ α η := ⟨runner.judge, c, hook⟩
  have hr : r = b.run (.start (.initial runner.expected runner.order) s h) w :=
    runner.replay_eq_run c hook s h w
  rw [hr]
  constructor
  · intro i step hstep htol
    obtain ⟨k, op, hreach, hop, hmade⟩ := Bench.exists_of_steps_getElem? hstep
    have hverdict := Bench.verdict_of_step? hmade htol
    obtain ⟨f, -, -, hlegacy⟩ := Judge.judge_eq_tolerated.mp hverdict
    refine ⟨(Judge.isLegacyRemoval_iff.mp hlegacy).1,
      Bench.showsDefect_of_tolerated hreach hop hverdict hmade, ?_,
      Bench.standsStill_of_tolerated hreach hop hverdict⟩
    intro j other hother htol'
    obtain ⟨k', op', hreach', hop', hmade'⟩ := Bench.exists_of_steps_getElem? hother
    exact Bench.eq_of_tolerated hreach hop hverdict hreach' hop'
      (Bench.verdict_of_step? hmade' htol')
  · intro hflag i step hstep hdefect
    obtain ⟨k, op, hreach, hop, hmade⟩ := Bench.exists_of_steps_getElem? hstep
    have hverdict : b.verdict k op = .tolerated :=
      Bench.tolerated_of_showsDefect hflag hreach hop hdefect
    rcases Bench.verdict_or_rejection hreach hop hmade with hsame | hreject
    · exact Or.inl (hsame.trans hverdict)
    · exact Or.inr hreject

/-- The defect over one element, with the tolerance on. -/
example :
    ((Runner.mk [7] .determinate ⟨true⟩).replay (LegacyRemoval.candidate Cursor.candidate)
      Hook.accepting (.ofInner (.ofList [7])) ()
      [.produceNext, .produceNext, .removeLast, .hasMore]).steps.map (·.verdict) =
      [.agree, .agree, .tolerated, .agree] := by
  decide

end Lockstep
