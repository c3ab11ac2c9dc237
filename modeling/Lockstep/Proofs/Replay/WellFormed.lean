import Lockstep.Candidate.Cursor
import Lockstep.Candidate.LegacyRemoval
import Lockstep.Proofs.Replay.Extent

/-!
# Records are well formed

Whether a record succeeded, where it failed and why is read off its last step alone.  That this is
enough rests on the replay: there are two ways to fail in one step, by the judge and by the hook,
and both end the replay at once.

The file asks the judge and the hook once more.  `Record.judged` is what the judge says of a step on
record, `Hook.answers` what the hook says when it is shown the same views and candidates in turn.
The verdict on record is told by the two (`Verdict.Recorded`), and everything else follows.

* **`Bench.recorded_of_steps`** — the verdict on record, place by place.
* **`Runner.record_wellFormed`** — the record of a whole replay.
-/

namespace Lockstep

universe u v w

variable {σ : Type u} {α : Type v} {η : Type w}

/-! ## Asking once more -/

/-- The states of a candidate behind each of the calls of a word. -/
def Candidate.states (c : Candidate σ α) (s : σ) : Word → List σ
  | [] => []
  | op :: w => (c.perform op s).2 :: c.states (c.perform op s).2 w

/-- What a hook answers if it is shown views and candidates one after the other. -/
def Hook.answers (hook : Hook η σ α) (h : η) : List (View α × σ) → List HookAnswer
  | [] => []
  | (view, s) :: shown => (hook h view s).1 :: hook.answers (hook h view s).2 shown

namespace Record

/-- The outcome on record in front of place `i`. -/
def previous? (r : Record α) : Nat → Option (Outcome α)
  | 0 => none
  | i + 1 => r.steps[i]?.map Step.actual

/-- What the judge says of the step at place `i`. -/
def judged [BEq α] (r : Record α) (j : Judge) (i : Nat) : Option Verdict :=
  r.steps[i]?.map fun step => j.judge step.expected step.actual (r.previous? i)

/-- A record is **well formed** with respect to a judge and to the answers of a hook. -/
structure WellFormed [BEq α] (r : Record α) (j : Judge) (answers : List HookAnswer) : Prop where
  /-- There is at most one step for each operation. -/
  extent : r.steps.length ≤ r.word.length
  /-- Each step stands for the operation at its place. -/
  place : ∀ (i : Nat) (step : Step α), r.steps[i]? = some step →
    step.index = i ∧ r.word[i]? = some step.operation
  /-- Only the last step may have diverged. -/
  accepted : ∀ (i : Nat) (step : Step α), r.steps[i]? = some step → i + 1 < r.steps.length →
    step.verdict.isAcceptable = true
  /-- A record is a success exactly if no step of it diverged. -/
  success : r.isSuccess = true ↔ ∀ step ∈ r.steps, step.verdict.isAcceptable = true
  /-- This is so exactly if the judge found no divergence and the hook accepted every step. -/
  agreed : r.isSuccess = true ↔
    (∀ i v, r.judged j i = some v → v.isAcceptable = true) ∧
      ∀ i, i < r.steps.length → answers[i]? = some .accept
  /-- Then all operations were executed. -/
  complete : r.isSuccess = true → r.steps.length = r.word.length
  /-- A record that is no success gives a violation. -/
  violated : r.violation?.isSome = true ↔ r.isSuccess = false
  /-- The violation is a failed invariant exactly if the hook rejected the last step, and then it
      carries the message of the hook. -/
  rejected : ∀ message, r.violation? = some (.invariantFailed message) ↔
    ∃ i, r.steps.length = i + 1 ∧ answers[i]? = some (.reject message)
  /-- The step that failed is the last operation of the executed prefix. -/
  failed : ∀ step, r.failedStep? = some step →
    step.index + 1 = r.executed.length ∧ r.executed.getLast? = some step.operation
  /-- The tolerated steps are those that the judge tolerated and the hook accepted. -/
  tolerated : r.toleratedSteps = (List.range r.steps.length).countP fun i =>
    r.judged j i = some .tolerated ∧ answers[i]? = some .accept

end Record

/-! ## The verdict on record -/

/-- How the verdict on record comes about: what the judge accepts is shown to the hook, and a
    rejection takes the place of the verdict. -/
inductive Verdict.Recorded (judged : Verdict) : Option HookAnswer → Verdict → Prop where
  | diverged (h : judged.isAcceptable = false) : Recorded judged none judged
  | accepted (h : judged.isAcceptable = true) : Recorded judged (some .accept) judged
  | rejected (h : judged.isAcceptable = true) (message : String) :
      Recorded judged (some (.reject message)) (.diverge (.invariantFailed message))

namespace Verdict.Recorded

variable {judged verdict : Verdict} {answer : Option HookAnswer}

theorem isAcceptable_iff (h : Recorded judged answer verdict) :
    verdict.isAcceptable = true ↔ judged.isAcceptable = true ∧ answer = some .accept := by
  cases h with
  | diverged hv => simp [hv]
  | accepted hv => simp [hv]
  | rejected hv message => simp [isAcceptable]

theorem eq_tolerated_iff (h : Recorded judged answer verdict) :
    verdict = .tolerated ↔ judged = .tolerated ∧ answer = some .accept := by
  cases h with
  | diverged hv =>
      have hne : judged ≠ .tolerated := by
        rintro rfl
        exact nomatch hv
      simp [hne]
  | accepted hv => simp
  | rejected hv message => simp

/-- A failed invariant on record is a rejection by the hook, as the judge never says so. -/
theorem eq_invariantFailed_iff (h : Recorded judged answer verdict)
    (hjudge : judged.passedJudge = judged.isAcceptable) {message : String} :
    verdict = .diverge (.invariantFailed message) ↔ answer = some (.reject message) := by
  have hne : judged ≠ .diverge (.invariantFailed message) := by
    rintro rfl
    exact nomatch hjudge
  cases h with
  | diverged hv => simp [hne]
  | accepted hv => simp [hne]
  | rejected hv message' => simp

end Verdict.Recorded

namespace Bench

variable [BEq α] {b : Bench σ α η} {k k' : Checkpoint σ α η} {op : Operation} {w : Word} {i : Nat}

/-- What the hook answers, if it is called. -/
def answer? (b : Bench σ α η) (k : Checkpoint σ α η) (op : Operation) : Option HookAnswer :=
  if (b.verdict k op).isAcceptable then some (b.called k op).1 else none

/-- What the hook answers in a replay, call by call. -/
def answers (b : Bench σ α η) (k : Checkpoint σ α η) (w : Word) : List HookAnswer :=
  b.hook.answers k.hook ((b.run k w).views.zip (b.candidate.states k.candidate w))

/-- **The answer at place `i`** is given at the checkpoint reached there. -/
theorem answers_getElem? (k : Checkpoint σ α η) (w : Word) (i : Nat) :
    (b.answers k w)[i]? =
      (b.reach k (w.take i)).bind fun k' => w[i]?.bind (b.answer? k') := by
  refine getElem?_of_growth (f := b.answers) (fun _ => rfl) ?_ ?_ w k i
  · intro k op w k' h
    obtain ⟨hv, -, rfl⟩ := next?_eq_some.mp h
    refine ⟨(b.called k op).1, if_pos hv, ?_⟩
    rw [answers, run_cons_of_next h]
    rfl
  · intro k op w h
    rw [answers, (run_cons_of_stop h).2, view?, answer?]
    cases (b.verdict k op).isAcceptable <;> rfl

theorem answers_getElem?_of_reach (hreach : b.reach k (w.take i) = some k')
    (hop : w[i]? = some op) : (b.answers k w)[i]? = b.answer? k' op := by
  rw [answers_getElem?, hreach, hop]
  rfl

theorem recorded_of_step? {step : Step α} (h : b.step? k op = some step) :
    Verdict.Recorded (b.verdict k op) (b.answer? k op) step.verdict := by
  rw [step?] at h
  rw [answer?]
  cases hv : (b.verdict k op).isAcceptable with
  | false =>
      rw [hv, if_neg Bool.false_ne_true] at h
      rw [← Option.some.inj h]
      exact .diverged hv
  | true =>
      rw [hv, if_pos rfl] at h
      rw [if_pos rfl]
      cases ha : (b.called k op).1 with
      | accept =>
          rw [ha] at h
          rw [← Option.some.inj h]
          exact .accepted hv
      | reject message =>
          rw [ha] at h
          rw [← Option.some.inj h]
          exact .rejected hv message
      | panic p =>
          rw [ha] at h
          cases h

variable {first : Reference α} {s : σ} {h : η}

/-- The outcome in front of a checkpoint is the one on record there. -/
theorem previous_of_reach (hreach : b.reach (.start first s h) (w.take i) = some k)
    (hi : i ≤ w.length) :
    k.previous = ((b.run (.start first s h) w).record w).previous? i := by
  cases i with
  | zero => rw [← Option.some.inj hreach]; rfl
  | succ i =>
      have hop : w[i]? = some w[i] := List.getElem?_eq_getElem hi
      obtain ⟨k₁, hreach₁, hnext⟩ := exists_of_reach_take_succ hop hreach
      rw [Record.previous?, Replay.record, steps_getElem?_of_reach hreach₁ hop, step?_of_next hnext]
      obtain ⟨-, -, rfl⟩ := next?_eq_some.mp hnext
      rfl

/-- **The verdict on record** at place `i` is told by the judge and by the hook. -/
theorem recorded_of_steps {step : Step α}
    (hstep : (b.run (.start first s h) w).steps[i]? = some step) :
    ∃ judged, ((b.run (.start first s h) w).record w).judged b.judge i = some judged ∧
      judged.passedJudge = judged.isAcceptable ∧
      Verdict.Recorded judged (b.answers (.start first s h) w)[i]? step.verdict := by
  obtain ⟨k, op, hreach, hop, hmade⟩ := exists_of_steps_getElem? hstep
  have hi : i ≤ w.length := Nat.le_of_lt (List.getElem?_eq_some_iff.mp hop).1
  refine ⟨b.verdict k op, ?_, Judge.passedJudge_judge _ _ _ _, ?_⟩
  · rw [Record.judged, ← previous_of_reach hreach hi]
    show ((b.run (.start first s h) w).steps[i]?).map _ = _
    rw [hstep, (step?_eq_some hmade).1]
    rfl
  · rw [answers_getElem?_of_reach hreach hop]
    exact recorded_of_step? hmade

/-! ## What follows for the record -/

/-- Each step stands for the operation at its place. -/
theorem place_of_steps {step : Step α}
    (hstep : (b.run (.start first s h) w).steps[i]? = some step) :
    step.index = i ∧ w[i]? = some step.operation := by
  obtain ⟨k, op, hreach, hop, hmade⟩ := exists_of_steps_getElem? hstep
  have hi : i ≤ w.length := Nat.le_of_lt (List.getElem?_eq_some_iff.mp hop).1
  have hindex : k.index = 0 + (w.take i).length := index_of_reach hreach
  rw [List.length_take_of_le hi, Nat.zero_add] at hindex
  rw [(step?_eq_some hmade).1]
  exact ⟨hindex, hop⟩

/-- Only the last step may have diverged. -/
theorem isAcceptable_of_lt {step : Step α} (hstep : (b.run k w).steps[i]? = some step)
    (hlt : i + 1 < (b.run k w).steps.length) : step.verdict.isAcceptable = true := by
  cases hv : step.verdict.isAcceptable with
  | true => rfl
  | false =>
      obtain ⟨violation, hverdict⟩ := Verdict.exists_eq_diverge hv
      obtain ⟨hlen, -⟩ := failedStep?_of_step hstep hverdict w
      omega

end Bench

namespace Record

variable {r : Record α} {step : Step α}

theorem failedStep?_eq_some :
    r.failedStep? = some step ↔
      r.steps.getLast? = some step ∧ step.verdict.isAcceptable = false := by
  rw [failedStep?, Option.filter_eq_some_iff, Bool.not_eq_true']

/-- If only the last step may have diverged, the last step tells whether any did. -/
theorem isSuccess_iff_forall
    (hlast : ∀ (i : Nat) (step : Step α), r.steps[i]? = some step → i + 1 < r.steps.length →
      step.verdict.isAcceptable = true) :
    r.isSuccess = true ↔ ∀ step ∈ r.steps, step.verdict.isAcceptable = true := by
  constructor
  · intro hsuccess step hmem
    obtain ⟨i, hi⟩ := List.mem_iff_getElem?.mp hmem
    by_cases hlt : i + 1 < r.steps.length
    · exact hlast i step hi hlt
    · -- this is the last step, which did not fail
      have hlen : r.steps.length = i + 1 := by
        have hi' := (List.getElem?_eq_some_iff.mp hi).1
        omega
      have hget : r.steps.getLast? = some step := by
        rw [List.getLast?_eq_getElem?, hlen, Nat.add_sub_cancel, hi]
      cases hv : step.verdict.isAcceptable with
      | true => rfl
      | false =>
          rw [isSuccess, failedStep?_eq_some.mpr ⟨hget, hv⟩] at hsuccess
          cases hsuccess
  · intro hall
    cases hsuccess : r.isSuccess with
    | true => rfl
    | false =>
        obtain ⟨i, step, violation, -, hi, -, hverdict, -⟩ := exists_of_failed hsuccess
        have hv := hall step (List.mem_of_getElem? hi)
        rw [hverdict] at hv
        cases hv

theorem violation?_isSome_iff : r.violation?.isSome = true ↔ r.isSuccess = false := by
  cases hsuccess : r.isSuccess with
  | true =>
      have hnone : r.failedStep? = none := Option.isNone_iff_eq_none.mp hsuccess
      simp [violation?, hnone]
  | false =>
      obtain ⟨i, step, violation, -, -, -, -, hviolation⟩ := exists_of_failed hsuccess
      simp [hviolation]

/-- The executed prefix ends with the operation of the last step. -/
theorem getLast?_executed {i : Nat} {op : Operation} (hlen : r.steps.length = i + 1)
    (hop : r.word[i]? = some op) : r.executed.length = i + 1 ∧ r.executed.getLast? = some op := by
  have hi : i < r.word.length := (List.getElem?_eq_some_iff.mp hop).1
  have hexecuted : r.executed.length = i + 1 := by
    rw [executed, List.length_take, hlen]
    omega
  refine ⟨hexecuted, ?_⟩
  rw [List.getLast?_eq_getElem?, hexecuted, Nat.add_sub_cancel, executed, List.getElem?_take, hlen,
    if_pos (Nat.lt_succ_self i), hop]

end Record

/-- Counting in a list is counting its places. -/
private theorem countP_eq_countP_range {β : Type u} {p : β → Bool} {q : Nat → Bool} {xs : List β}
    (h : ∀ i x, xs[i]? = some x → p x = q i) : xs.countP p = (List.range xs.length).countP q := by
  induction xs generalizing q with
  | nil => rfl
  | cons x xs ih =>
      have hrest : xs.countP p = (List.range xs.length).countP (q ∘ Nat.succ) :=
        ih fun i y hi => h (i + 1) y hi
      rw [List.length_cons, List.range_succ_eq_map, List.countP_cons, List.countP_cons,
        List.countP_map, hrest, h 0 x rfl]

namespace Bench

variable [BEq α] {b : Bench σ α η} {first : Reference α} {s : σ} {h : η} {w : Word}

/-- **Success** is that judge and hook accepted every step. -/
theorem isSuccess_iff_agreed (b : Bench σ α η) (first : Reference α) (s : σ) (h : η) (w : Word) :
    ((b.run (.start first s h) w).record w).isSuccess = true ↔
      (∀ i v, ((b.run (.start first s h) w).record w).judged b.judge i = some v →
          v.isAcceptable = true) ∧
        ∀ i, i < (b.run (.start first s h) w).steps.length →
          (b.answers (.start first s h) w)[i]? = some .accept := by
  rw [Record.isSuccess_iff_forall fun _ _ hstep hlt => isAcceptable_of_lt hstep hlt]
  constructor
  · intro hall
    constructor
    · intro i v hv
      obtain ⟨step, hstep, -⟩ := Option.map_eq_some_iff.mp hv
      obtain ⟨judged, hjudged, -, hverdict⟩ := recorded_of_steps hstep
      rw [hjudged] at hv
      rw [← Option.some.inj hv]
      exact (hverdict.isAcceptable_iff.mp (hall step (List.mem_of_getElem? hstep))).1
    · intro i hi
      have hstep := List.getElem?_eq_getElem hi
      obtain ⟨judged, -, -, hverdict⟩ := recorded_of_steps hstep
      exact (hverdict.isAcceptable_iff.mp (hall _ (List.mem_of_getElem? hstep))).2
  · rintro ⟨hjudge, hanswers⟩ step hmem
    obtain ⟨i, hstep⟩ := List.mem_iff_getElem?.mp hmem
    obtain ⟨judged, hjudged, -, hverdict⟩ := recorded_of_steps hstep
    exact hverdict.isAcceptable_iff.mpr
      ⟨hjudge i judged hjudged, hanswers i (List.getElem?_eq_some_iff.mp hstep).1⟩

/-- **A failed invariant** is the violation exactly if the hook rejected the last step. -/
theorem violation?_eq_invariantFailed_iff (b : Bench σ α η) (first : Reference α) (s : σ) (h : η)
    (w : Word) (message : String) :
    ((b.run (.start first s h) w).record w).violation? = some (.invariantFailed message) ↔
      ∃ i, (b.run (.start first s h) w).steps.length = i + 1 ∧
        (b.answers (.start first s h) w)[i]? = some (.reject message) := by
  constructor
  · intro hviolation
    have hfailed : ((b.run (.start first s h) w).record w).isSuccess = false := by
      rw [← Record.violation?_isSome_iff, hviolation]
      rfl
    obtain ⟨i, step, violation, hlen, hstep, -, hverdict, hviolation'⟩ :=
      Record.exists_of_failed hfailed
    obtain rfl : violation = .invariantFailed message :=
      Option.some.inj (hviolation'.symm.trans hviolation)
    obtain ⟨judged, -, hjudge, hrecorded⟩ := recorded_of_steps hstep
    exact ⟨i, hlen, (hrecorded.eq_invariantFailed_iff hjudge).mp hverdict⟩
  · rintro ⟨i, hlen, hanswer⟩
    have hi : i < (b.run (.start first s h) w).steps.length := by omega
    have hstep := List.getElem?_eq_getElem hi
    obtain ⟨judged, -, hjudge, hrecorded⟩ := recorded_of_steps hstep
    have hverdict := (hrecorded.eq_invariantFailed_iff hjudge).mpr hanswer
    obtain ⟨-, hfailed⟩ := failedStep?_of_step hstep hverdict w
    rw [Record.violation?, hfailed]
    exact congrArg Verdict.violation? hverdict

/-- **The step that failed** is the last operation of the executed prefix. -/
theorem getLast?_executed_of_failed {step : Step α}
    (hfailed : ((b.run (.start first s h) w).record w).failedStep? = some step) :
    step.index + 1 = ((b.run (.start first s h) w).record w).executed.length ∧
      ((b.run (.start first s h) w).record w).executed.getLast? = some step.operation := by
  have hnot : ((b.run (.start first s h) w).record w).isSuccess = false := by
    rw [Record.isSuccess, hfailed]
    rfl
  obtain ⟨i, last, -, hlen, hstep, hlast, -, -⟩ := Record.exists_of_failed hnot
  obtain rfl : step = last := Option.some.inj (hfailed.symm.trans hlast)
  obtain ⟨hindex, hop⟩ := place_of_steps hstep
  obtain ⟨hexecuted, hget⟩ := Record.getLast?_executed hlen hop
  exact ⟨by rw [hindex, hexecuted], hget⟩

/-- **The tolerated steps** are those that the judge tolerated and the hook accepted. -/
theorem toleratedSteps_eq_countP (b : Bench σ α η) (first : Reference α) (s : σ) (h : η)
    (w : Word) :
    ((b.run (.start first s h) w).record w).toleratedSteps =
      (List.range (b.run (.start first s h) w).steps.length).countP fun i =>
        ((b.run (.start first s h) w).record w).judged b.judge i = some .tolerated ∧
          (b.answers (.start first s h) w)[i]? = some .accept := by
  refine countP_eq_countP_range fun i step hstep => decide_eq_decide.mpr ?_
  obtain ⟨judged, hjudged, -, hrecorded⟩ := recorded_of_steps hstep
  rw [hrecorded.eq_tolerated_iff, hjudged, Option.some_inj]

end Bench

/-- **Records are well formed**, for every runner, candidate and hook.  (A hook that panics leaves
    no record.) -/
theorem Runner.record_wellFormed [BEq α] (runner : Runner α) (c : Candidate σ α)
    (hook : Hook η σ α) (s : σ) (h : η) (w : Word)
    (hpanic : (runner.replay c hook s h w).panic = none) :
    let r := runner.replay c hook s h w
    (r.record w).WellFormed runner.judge (hook.answers h (r.views.zip (c.states s w))) := by
  intro r
  let b : Bench σ α η := ⟨runner.judge, c, hook⟩
  let first : Reference α := .initial runner.expected runner.order
  let k : Checkpoint σ α η := .start first s h
  have hlast : ∀ (i : Nat) (step : Step α), r.steps[i]? = some step → i + 1 < r.steps.length →
      step.verdict.isAcceptable = true := by
    intro i step hstep hlt
    exact Bench.isAcceptable_of_lt (b := b) (k := k) hstep hlt
  exact
    { extent := b.length_steps_le k w
      place := fun i step hstep => Bench.place_of_steps (b := b) hstep
      accepted := hlast
      success := Record.isSuccess_iff_forall hlast
      agreed := b.isSuccess_iff_agreed first s h w
      complete := by
        intro hsuccess
        obtain ⟨k', hreach⟩ := (Bench.passes_iff_reach (b := b) (k := k) w).mp ⟨hpanic, hsuccess⟩
        exact (Bench.length_of_reach hreach).1
      violated := Record.violation?_isSome_iff
      rejected := b.violation?_eq_invariantFailed_iff first s h w
      failed := fun step hfailed => Bench.getLast?_executed_of_failed (b := b) hfailed
      tolerated := b.toleratedSteps_eq_countP first s h w }

/-- A cursor with the legacy defect, and a hook that has enough after three steps: the third step is
    tolerated, and the last one is rejected. -/
theorem Runner.record_wellFormed_rejected :
    let runner : Runner Nat := ⟨[7], .determinate, ⟨true⟩⟩
    let c : Candidate (LegacyRemoval (Cursor Nat)) Nat := LegacyRemoval.candidate Cursor.candidate
    let hook : Hook Nat (LegacyRemoval (Cursor Nat)) Nat := fun calls _ _ =>
      (if calls < 3 then .accept else .reject "enough", calls + 1)
    let s : LegacyRemoval (Cursor Nat) := .ofInner (.ofList [7])
    let w : Word := [.produceNext, .produceNext, .removeLast, .hasMore, .hasMore]
    let r := runner.replay c hook s 0 w
    r.panic = none ∧ r.steps.length = 4 ∧ (r.record w).toleratedSteps = 1 ∧
      (r.record w).violation? = some (.invariantFailed "enough") ∧
      (r.record w).WellFormed runner.judge (hook.answers 0 (r.views.zip (c.states s w))) := by
  intro runner c hook s w r
  have hwell := runner.record_wellFormed c hook s 0 w rfl
  exact ⟨rfl, rfl, hwell.tolerated.trans (by decide), (hwell.rejected "enough").mpr ⟨3, rfl, rfl⟩,
    hwell⟩

end Lockstep
