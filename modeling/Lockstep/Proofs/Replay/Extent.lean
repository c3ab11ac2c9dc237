import Lockstep.Proofs.Replay.Course

/-!
# How far a replay goes

A replay goes on for as long as judge and hook accept.  So everything about its extent can be read
off `Bench.reach`: it passes its word exactly if some checkpoint lies behind the whole word, and
otherwise it ends at the first operation behind which there is none.

* **`Bench.passes_iff_reach`** — a replay that passes is one that gets through.
* **`Bench.exists_stop`** — the place where a failed replay ends.
* **`Bench.length_views`** — the hook is called for the steps that the judge accepted, and
  **`Bench.acceptedSteps_of_failed`** — in a failed replay these are all but the last, or all.
-/

namespace Lockstep

universe u v w

variable {σ : Type u} {α : Type v} {η : Type w}

/-- A replay **passes** a word: no step of it diverged, and no panic of the hook cut it short. -/
structure Replay.Passes (r : Replay η α) (w : Word) : Prop where
  unbroken : r.panic = none
  success : (r.record w).isSuccess = true

/-- Whether the judge accepted the step that the verdict is on record for: a rejection by the hook
    stands in the place of an acceptable verdict. -/
def Verdict.passedJudge : Verdict → Bool
  | .diverge (.invariantFailed _) => true
  | v => v.isAcceptable

/-- The number of steps on record that the judge accepted. -/
def Record.acceptedSteps (r : Record α) : Nat :=
  r.steps.countP fun step => step.verdict.passedJudge

theorem Verdict.exists_eq_diverge {v : Verdict} (h : v.isAcceptable = false) :
    ∃ violation, v = .diverge violation := by
  cases v with
  | agree => cases h
  | tolerated => cases h
  | diverge violation => exact ⟨violation, rfl⟩

/-- The judge itself never says what a rejection by the hook puts on record. -/
theorem Judge.passedJudge_judge [BEq α] (j : Judge) (expected : Expectation α)
    (actual : Outcome α) (previous : Option (Outcome α)) :
    (j.judge expected actual previous).passedJudge =
      (j.judge expected actual previous).isAcceptable := by
  fun_cases Judge.judge j expected actual previous <;> rfl

/-- A record that failed did so at its last step, which gives the reason. -/
theorem Record.exists_of_failed {r : Record α} (h : r.isSuccess = false) :
    ∃ i step violation, r.steps.length = i + 1 ∧ r.steps[i]? = some step ∧
      r.failedStep? = some step ∧ step.verdict = .diverge violation ∧
      r.violation? = some violation := by
  cases hlast : r.steps.getLast? with
  | none => simp [Record.isSuccess, Record.failedStep?, hlast] at h
  | some step =>
      have hfailed : step.verdict.isAcceptable = false := by
        simpa [Record.isSuccess, Record.failedStep?, hlast] using h
      obtain ⟨violation, hverdict⟩ := Verdict.exists_eq_diverge hfailed
      obtain ⟨i, hi⟩ : ∃ i, r.steps.length = i + 1 :=
        Nat.exists_eq_succ_of_ne_zero fun hzero => by
          rw [List.length_eq_zero_iff.mp hzero] at hlast
          cases hlast
      have hstep : r.failedStep? = some step := by
        simp [Record.failedStep?, hlast, Option.filter, hfailed]
      refine ⟨i, step, violation, hi, ?_, hstep, hverdict, ?_⟩
      · rw [List.getLast?_eq_getElem?, hi, Nat.add_sub_cancel] at hlast
        exact hlast
      · rw [Record.violation?, hstep]
        exact congrArg Verdict.violation? hverdict

/-- A record of nothing but a divergence gives the reason for that one. -/
theorem Record.violation?_singleton {w : Word} {step : Step α} {violation : Violation}
    (h : step.verdict = .diverge violation) :
    Record.violation? ⟨w, [step]⟩ = some violation := by
  have hfailed : Record.failedStep? ⟨w, [step]⟩ = some step := by
    simp [Record.failedStep?, Option.filter, h, Verdict.isAcceptable]
  rw [Record.violation?, hfailed]
  show step.verdict.violation? = some violation
  rw [h]
  rfl

namespace Bench

variable [BEq α] {b : Bench σ α η} {k k' : Checkpoint σ α η} {op : Operation} {u w : Word}

/-! ## Getting through -/

/-- A replay that stops at its first operation does not pass. -/
theorem not_passes_of_stop (h : b.next? k op = none) (u : Word) :
    ¬ (b.run k (op :: w)).Passes u := by
  rintro ⟨hpanic, hsuccess⟩
  cases hv : (b.verdict k op).isAcceptable with
  | false =>
      rw [run_cons_of_diverge hv] at hsuccess
      simp [Record.isSuccess, Record.failedStep?, Replay.record, stepWith, hv] at hsuccess
  | true =>
      cases ha : (b.called k op).1 with
      | accept =>
          rw [next?_eq_some.mpr ⟨hv, ha, rfl⟩] at h
          cases h
      | reject message =>
          rw [run_cons_of_reject hv ha] at hsuccess
          simp [Record.isSuccess, Record.failedStep?, Replay.record, stepWith,
            Verdict.isAcceptable] at hsuccess
      | panic p =>
          rw [run_cons_of_panic hv ha] at hpanic
          cases hpanic

/-- **Passing is getting through.**  Induction on the word: an accepted step changes neither
    side, and the first one that is not accepted refutes both. -/
theorem passes_iff_reach (u : Word) :
    (b.run k w).Passes u ↔ ∃ k', b.reach k w = some k' := by
  induction w generalizing k with
  | nil => exact iff_of_true ⟨rfl, rfl⟩ ⟨k, rfl⟩
  | cons op w ih =>
      rw [reach]
      cases hnext : b.next? k op with
      | none =>
          refine iff_of_false (not_passes_of_stop hnext u) ?_
          rintro ⟨k', hk'⟩
          cases hk'
      | some k₁ =>
          have hv := (next?_eq_some.mp hnext).1
          show _ ↔ ∃ k', b.reach k₁ w = some k'
          rw [← ih, run_cons_of_next hnext]
          constructor
          · rintro ⟨hpanic, hsuccess⟩
            exact ⟨hpanic, (isSuccess_after _ _ u u hv).symm.trans hsuccess⟩
          · rintro ⟨hpanic, hsuccess⟩
            exact ⟨hpanic, (isSuccess_after _ _ u u hv).trans hsuccess⟩

/-- Whoever gets through a word gets through its initial segments. -/
theorem exists_reach_of_isPrefix (hinitial : u <+: w) (h : b.reach k w = some k') :
    ∃ k₁, b.reach k u = some k₁ := by
  obtain ⟨v, rfl⟩ := hinitial
  rw [reach_append] at h
  obtain ⟨k₁, hu, -⟩ := Option.bind_eq_some_iff.mp h
  exact ⟨k₁, hu⟩

/-- A word is got through if every place of it that is reached is got over. -/
theorem exists_reach_of_next
    (h : ∀ i op k', w[i]? = some op → b.reach k (w.take i) = some k' →
      ∃ k₁, b.next? k' op = some k₁) : ∃ k', b.reach k w = some k' := by
  induction w generalizing k with
  | nil => exact ⟨k, rfl⟩
  | cons op w ih =>
      obtain ⟨k₁, hnext⟩ := h 0 op k rfl rfl
      rw [reach, hnext]
      refine ih ?_
      intro i op' k' hop' hreach
      refine h (i + 1) op' k' hop' ?_
      rw [List.take_succ_cons, reach, hnext]
      exact hreach

theorem index_of_reach (h : b.reach k u = some k') : k'.index = k.index + u.length := by
  induction u generalizing k with
  | nil => rw [← Option.some.inj h]; rfl
  | cons op u ih =>
      obtain ⟨k₁, hnext, hrest⟩ := Option.bind_eq_some_iff.mp h
      obtain ⟨-, -, rfl⟩ := next?_eq_some.mp hnext
      have hindex : k'.index = k.index + 1 + u.length := ih hrest
      rw [List.length_cons]
      omega

/-- **A divergence** behind what was reached is the step that failed, and nothing was cut short. -/
theorem failedStep?_of_diverge {violation : Violation} (hreach : b.reach k u = some k')
    (hv : b.verdict k' op = .diverge violation) (v word : Word) :
    ((b.run k (u ++ op :: v)).record word).failedStep? =
        some (b.stepWith k' op (.diverge violation)) ∧
      (b.run k (u ++ op :: v)).panic = none := by
  rw [run_append hreach, run_cons_of_diverge (by rw [hv]; rfl), hv]
  refine ⟨?_, rfl⟩
  show ((b.run k u).steps ++ [b.stepWith k' op _]).getLast?.filter _ = _
  rw [List.getLast?_concat]
  rfl

/-- Behind a divergence on record there is no checkpoint: an accepted step would stand on record
    with the verdict of the judge. -/
theorem next?_of_diverge {step : Step α} {violation : Violation} (hstep : b.step? k op = some step)
    (hverdict : step.verdict = .diverge violation) : b.next? k op = none := by
  cases hnext : b.next? k op with
  | none => rfl
  | some k₁ =>
      rw [step?_of_next hnext] at hstep
      obtain rfl := Option.some.inj hstep
      have hv : (b.verdict k op).isAcceptable = true := (next?_eq_some.mp hnext).1
      rw [show b.verdict k op = .diverge violation from hverdict] at hv
      cases hv

/-- **A divergence on record** is the last step, and the one that failed. -/
theorem failedStep?_of_step {i : Nat} {step : Step α} {violation : Violation}
    (hstep : (b.run k w).steps[i]? = some step) (hverdict : step.verdict = .diverge violation)
    (u : Word) :
    (b.run k w).steps.length = i + 1 ∧ ((b.run k w).record u).failedStep? = some step := by
  obtain ⟨hlt, -⟩ := List.getElem?_eq_some_iff.mp hstep
  obtain ⟨k', op, hreach, hop, hmade⟩ := exists_of_steps_getElem? hstep
  have hbehind : (b.run k w).steps[i + 1]? = none := by
    rw [steps_getElem?, reach_take_succ hop, hreach, Option.bind_some,
      next?_of_diverge hmade hverdict]
    rfl
  have hlen : (b.run k w).steps.length = i + 1 :=
    Nat.le_antisymm (List.getElem?_eq_none_iff.mp hbehind) hlt
  refine ⟨hlen, ?_⟩
  rw [Record.failedStep?, Replay.record, List.getLast?_eq_getElem?, hlen, Nat.add_sub_cancel,
    hstep]
  simp [Option.filter, hverdict, Verdict.isAcceptable]

/-- **Where a failed replay ends**: its last step was made at a checkpoint that the operations
    before it reached, and there is none behind it. -/
theorem exists_stop (h : ((b.run k w).record u).isSuccess = false) :
    ∃ i k' op, (b.run k w).steps.length = i + 1 ∧ b.reach k (w.take i) = some k' ∧
      w[i]? = some op ∧ b.next? k' op = none := by
  obtain ⟨i, step, violation, hi, hlast, -, hverdict, -⟩ := Record.exists_of_failed h
  obtain ⟨k', op, hreach, hop, hstep⟩ := exists_of_steps_getElem? hlast
  exact ⟨i, k', op, hi, hreach, hop, next?_of_diverge hstep hverdict⟩

/-! ## Counting steps and calls -/

/-- A replay has at most one step on record for each operation. -/
theorem length_steps_le (b : Bench σ α η) (k : Checkpoint σ α η) (word : Word) :
    (b.run k word).steps.length ≤ word.length := by
  apply Nat.le_of_not_lt
  intro hlt
  obtain ⟨-, op, -, hop, -⟩ := exists_of_steps_getElem? (List.getElem?_eq_getElem hlt)
  rw [List.getElem?_eq_none (Nat.le_refl _)] at hop
  exact nomatch hop

/-- A replay that gets through makes every step of its word, and shows each to the hook. -/
theorem length_of_reach (h : b.reach k w = some k') :
    (b.run k w).steps.length = w.length ∧ (b.run k w).views.length = w.length := by
  induction w generalizing k with
  | nil => exact ⟨rfl, rfl⟩
  | cons op w ih =>
      obtain ⟨k₁, hnext, hrest⟩ := Option.bind_eq_some_iff.mp h
      obtain ⟨hsteps, hviews⟩ := ih hrest
      rw [run_cons_of_next hnext]
      exact ⟨congrArg (· + 1) hsteps, congrArg (· + 1) hviews⟩

/-- **The calls of the hook** are as many as the steps that the judge accepted. -/
theorem length_views (h : (b.run k w).panic = none) :
    (b.run k w).views.length = ((b.run k w).record u).acceptedSteps := by
  induction w generalizing k with
  | nil => rfl
  | cons op w ih =>
      -- a rejected step counts although it diverges, so the split is by the judge first
      have hjudge : (b.verdict k op).passedJudge = (b.verdict k op).isAcceptable :=
        Judge.passedJudge_judge _ _ _ _
      cases hv : (b.verdict k op).isAcceptable with
      | false =>
          rw [run_cons_of_diverge hv]
          simp [Record.acceptedSteps, Replay.record, stepWith, hjudge, hv]
      | true =>
          cases ha : (b.called k op).1 with
          | accept =>
              rw [run_cons_of_accept hv ha] at h ⊢
              have hrest := ih (k := b.behind k op) h
              simp only [Record.acceptedSteps, Replay.record, Replay.after, List.length_cons,
                stepWith, List.countP_cons, hjudge, hv, ↓reduceIte] at hrest ⊢
              rw [hrest]
          | reject message =>
              rw [run_cons_of_reject hv ha]
              simp [Record.acceptedSteps, Replay.record, stepWith, Verdict.passedJudge]
          | panic p =>
              rw [run_cons_of_panic hv ha] at h
              cases h

/-- **All but the last step** of a failed replay were accepted.  The last one was accepted by the
    judge exactly if the hook rejected it. -/
theorem acceptedSteps_of_failed (h : ((b.run k w).record u).isSuccess = false) :
    ∃ violation, ((b.run k w).record u).violation? = some violation ∧
      ((b.run k w).record u).acceptedSteps +
          (if (Verdict.diverge violation).passedJudge then 0 else 1) =
        (b.run k w).steps.length := by
  induction w generalizing k with
  | nil => exact nomatch h
  | cons op w ih =>
      have hjudge : (b.verdict k op).passedJudge = (b.verdict k op).isAcceptable :=
        Judge.passedJudge_judge _ _ _ _
      cases hv : (b.verdict k op).isAcceptable with
      | false =>
          rw [hv] at hjudge
          obtain ⟨violation, hviolation⟩ := Verdict.exists_eq_diverge hv
          rw [run_cons_of_diverge hv]
          refine ⟨violation, Record.violation?_singleton hviolation, ?_⟩
          rw [hviolation] at hjudge
          simp [Record.acceptedSteps, Replay.record, stepWith, hviolation, hjudge]
      | true =>
          rw [hv] at hjudge
          cases ha : (b.called k op).1 with
          | accept =>
              rw [run_cons_of_accept hv ha] at h ⊢
              rw [isSuccess_after _ _ u u hv] at h
              -- the step in front is one more on both sides
              obtain ⟨violation, hviolation, hsteps⟩ := ih h
              refine ⟨violation, ?_, ?_⟩
              · rw [Record.violation?, failedStep?_after _ _ u u hv]
                exact hviolation
              · simp only [Record.acceptedSteps, Replay.record, Replay.after, List.length_cons,
                  stepWith, List.countP_cons, hjudge, ↓reduceIte] at hsteps ⊢
                rw [← hsteps, Nat.add_right_comm]
          | reject message =>
              rw [run_cons_of_reject hv ha]
              refine ⟨.invariantFailed message, Record.violation?_singleton rfl, ?_⟩
              simp [Record.acceptedSteps, Replay.record, stepWith, Verdict.passedJudge]
          | panic p =>
              rw [run_cons_of_panic hv ha] at h
              cases h

/-- A hook that counts its calls counts the views that it was shown. -/
theorem count_hook {count : η → Nat}
    (hcount : ∀ h v s, count (b.hook h v s).2 = count h + 1) (k : Checkpoint σ α η) (w : Word) :
    count (b.run k w).hook = count k.hook + (b.run k w).views.length := by
  induction w generalizing k with
  | nil => rfl
  | cons op w ih =>
      have hcalled : count (b.called k op).2 = count k.hook + 1 := hcount _ _ _
      cases hv : (b.verdict k op).isAcceptable with
      | false => rw [run_cons_of_diverge hv]; rfl
      | true =>
          cases ha : (b.called k op).1 with
          | accept =>
              rw [run_cons_of_accept hv ha]
              have hrest : count (b.run (b.behind k op) w).hook =
                  count (b.called k op).2 + (b.run (b.behind k op) w).views.length := ih _
              show count (b.run (b.behind k op) w).hook =
                count k.hook + ((b.run (b.behind k op) w).views.length + 1)
              omega
          | reject message => rw [run_cons_of_reject hv ha]; exact hcalled
          | panic p => rw [run_cons_of_panic hv ha]; exact hcalled

/-- A hook that never panics cuts no replay short. -/
theorem panic_eq_none (hhook : ∀ h v s p, (b.hook h v s).1 ≠ .panic p) (k : Checkpoint σ α η)
    (w : Word) : (b.run k w).panic = none := by
  induction w generalizing k with
  | nil => rfl
  | cons op w ih =>
      cases hv : (b.verdict k op).isAcceptable with
      | false => rw [run_cons_of_diverge hv]
      | true =>
          cases ha : (b.called k op).1 with
          | accept => rw [run_cons_of_accept hv ha]; exact ih _
          | reject message => rw [run_cons_of_reject hv ha]
          | panic p => exact absurd ha (hhook _ _ _ p)

end Bench

end Lockstep
