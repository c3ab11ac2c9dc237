import Lockstep.Proofs.Accounts

/-!
# Tests word by word

When a factory makes all candidates alike and the hook judges by the view alone, nothing is
carried from word to word.  Each replay of a test is then a **trial** of its word by itself, and
the whole test is told by its trials: it passes if they all pass, and otherwise it reports the
record of the first one that fails, at its place in the space.

The heart is that visiting a word comes to its trial in every session (`visit_of_passes`,
`visit_of_fails`), so that the fold over the space needs no invariant on sessions.

* **`Tester.passes_iff_trials`** — passing, read off the trials.
* **`Tester.exists_summary_of_passes`** — what the summary says of tolerated steps.
* **`Tester.exists_report_of_fails`** — the report of the first trial that fails, and
  **`Tester.exists_reports_of_rejects`** — the step that it pins down, when there is no hook.
-/

namespace Lockstep

universe u v w x

variable {φ : Type u} {α : Type v} {σ : Type w} [BEq α]

/-- The **trial** of a word: its replay on a candidate that begins in `s`, with a hook that judges
    by the view alone. -/
def Tester.trial (t : Tester α) (c : Candidate σ α) (s : σ) (check : View α → HookAnswer)
    (word : Word) : Replay Unit α :=
  t.runner.replay c (Hook.ofView check) s () word

/-- A test **passed** if it came to a summary. -/
def TestRun.Passed {η : Type x} (run : TestRun φ η α) : Prop := ∃ summary, run.result = .ok summary

/-- The test passed, with so many tolerated steps. -/
def TestRun.PassedWith {η : Type x} (run : TestRun φ η α) (tolerated : Nat) : Prop :=
  ∃ summary, run.result = .ok summary ∧ summary.tolerated = tolerated

omit [BEq α] in
theorem TestRun.PassedWith.passed {η : Type x} {run : TestRun φ η α} {tolerated : Nat}
    (h : run.PassedWith tolerated) : run.Passed := by
  obtain ⟨summary, hsummary, -⟩ := h
  exact ⟨summary, hsummary⟩

/-- The failed step of a report: the operation `op` at place `i` of a word, which stands at place
    `index` of the space. -/
structure FailureReport.Pins (report : FailureReport α) (index : Nat) (word : Word) (i : Nat)
    (op : Operation) (violation : Violation) : Prop where
  index : report.index = index
  word : report.record.word = word
  step : ∃ step, report.record.failedStep? = some step ∧ step.index = i ∧ step.operation = op ∧
    step.verdict = .diverge violation

/-- A test **reports** a divergence at place `i` of the word at place `index` of its space. -/
def TestRun.Reports {η : Type x} (run : TestRun φ η α) (index : Nat) (word : Word) (i : Nat)
    (op : Operation) (violation : Violation) : Prop :=
  ∃ report, run.result = .error (.diverged report) ∧ report.Pins index word i op violation

omit [BEq α] in
theorem TestRun.Reports.not_passed {η : Type x} {run : TestRun φ η α} {index i : Nat} {word : Word}
    {op : Operation} {violation : Violation} (h : run.Reports index word i op violation) :
    ¬ run.Passed := by
  obtain ⟨report, hreport, -⟩ := h
  rintro ⟨summary, hsummary⟩
  exact nomatch hreport.symm.trans hsummary

namespace Tester

variable {t : Tester α} {c : Candidate σ α} {s : σ} {make : Factory φ σ}
  {check : View α → HookAnswer} {word : Word} {ws : List Word}

section

variable (hmake : ∀ f, (make f).1 = .ok s)

include hmake

/-! ## One word -/

theorem visit_of_passes (h : (t.trial c s check word).Passes word)
    (state : Tally × Session φ Unit α) :
    ∃ session, t.visit c make (Hook.ofView check) state word =
      .ok (state.1.add ((t.trial c s check word).record word), session) := by
  rcases visit_cases (hmake state.2.factory) h.unbroken with ⟨-, hvisit⟩ | ⟨hfail, -⟩
  · exact hvisit
  · exact absurd (hfail.symm.trans h.success) Bool.false_ne_true

theorem visit_of_fails (hpanic : (t.trial c s check word).panic = none)
    (hfail : ((t.trial c s check word).record word).isSuccess = false)
    (state : Tally × Session φ Unit α) :
    ∃ session, t.visit c make (Hook.ofView check) state word =
      .error (.diverged ⟨state.1.words, t.settings.order, (t.trial c s check word).record word⟩
        session) := by
  rcases visit_cases (hmake state.2.factory) hpanic with ⟨hsuccess, -⟩ | ⟨-, hvisit⟩
  · exact absurd (hfail.symm.trans hsuccess) Bool.false_ne_true
  · exact hvisit

/-- Only a word that passes is entered into the account. -/
theorem passes_of_visit {state state' : Tally × Session φ Unit α}
    (h : t.visit c make (Hook.ofView check) state word = .ok state') :
    (t.trial c s check word).Passes word := by
  obtain ⟨record, hreplay, hsuccess, -⟩ := visit_eq_ok h
  obtain ⟨s', f, hmade, -, hpasses⟩ := Session.passes_of_isSuccess hreplay hsuccess
  have hstart := hmake state.2.factory
  rw [hmade] at hstart
  rw [← Except.ok.inj hstart]
  exact hpasses

/-! ## All words -/

/-- Words that pass are entered one after the other, with the records of their trials. -/
theorem foldlM_visit_of_passes (h : ∀ word ∈ ws, (t.trial c s check word).Passes word)
    (state : Tally × Session φ Unit α) :
    ∃ session, ws.foldlM (t.visit c make (Hook.ofView check)) state =
      .ok ((ws.map fun word => (t.trial c s check word).record word).foldl Tally.add state.1,
        session) := by
  induction ws generalizing state with
  | nil => exact ⟨state.2, rfl⟩
  | cons word ws ih =>
      obtain ⟨hword, hws⟩ := List.forall_mem_cons.mp h
      obtain ⟨session, hvisit⟩ := visit_of_passes hmake hword state
      rw [List.foldlM_cons, hvisit]
      exact ih hws _

/-- An exploration that goes through met only words that pass. -/
theorem passes_of_foldlM {state state' : Tally × Session φ Unit α}
    (h : ws.foldlM (t.visit c make (Hook.ofView check)) state = .ok state') :
    ∀ word ∈ ws, (t.trial c s check word).Passes word := by
  induction ws generalizing state with
  | nil => exact List.forall_mem_nil _
  | cons word ws ih =>
      rw [List.foldlM_cons] at h
      cases hvisit : t.visit c make (Hook.ofView check) state word with
      | error stop =>
          rw [hvisit] at h
          cases h
      | ok middle =>
          rw [hvisit] at h
          exact List.forall_mem_cons.mpr ⟨passes_of_visit hmake hvisit, ih h⟩

end

/-! ## Whole tests -/

section

variable (hvalid : t.settings.validate = .ok ())

include hvalid

/-- Accepted settings lead to an exploration. -/
theorem testWith_of_valid {η : Type x} (c : Candidate σ α) (make : Factory φ σ) (hook : Hook η σ α)
    (f : φ) (h : η) : t.testWith c make hook f h = t.explore c make hook (t.opening f h) := by
  rw [testWith, hvalid]
  rfl

variable (hmake : ∀ f, (make f).1 = .ok s)

include hmake

/-- **The summary** of a test whose trials all pass. -/
theorem exists_summary_of_passes (h : ∀ word, t.space.Legal word →
    (t.trial c s check word).Passes word) (f : φ) :
    ∃ run summary, t.testWith c make (Hook.ofView check) f () = .ok run ∧
      run.result = .ok summary ∧
      summary.tolerated = (t.space.words.map fun word =>
        ((t.trial c s check word).record word).toleratedSteps).sum := by
  have hwords : ∀ word ∈ t.space.words, (t.trial c s check word).Passes word :=
    fun word hmem => h word (Space.mem_words.mp hmem)
  obtain ⟨session, hfold⟩ := foldlM_visit_of_passes hmake hwords ({}, t.opening f ())
  rw [testWith_of_valid hvalid, explore_of_ok hvalid hfold]
  refine ⟨_, _, rfl, rfl, ?_⟩
  rw [Tally.foldl_add]
  show 0 + (List.map _ (List.map _ _)).sum = _
  rw [Nat.zero_add, List.map_map]
  rfl

/-- **The report** of a test is the record of the first trial that fails. -/
theorem exists_report_of_fails {before rest : List Word}
    (hwords : t.space.words = before ++ word :: rest)
    (hbefore : ∀ word ∈ before, (t.trial c s check word).Passes word)
    (hpanic : (t.trial c s check word).panic = none)
    (hfail : ((t.trial c s check word).record word).isSuccess = false) (f : φ) :
    ∃ run, t.testWith c make (Hook.ofView check) f () = .ok run ∧
      run.result = .error (.diverged
        ⟨before.length, t.settings.order, (t.trial c s check word).record word⟩) := by
  obtain ⟨session, hfold⟩ := foldlM_visit_of_passes hmake hbefore ({}, t.opening f ())
  -- the tally has counted the words in front
  have hcount : ((before.map fun word =>
      (t.trial c s check word).record word).foldl Tally.add {}).words = before.length := by
    rw [Tally.foldl_add, List.length_map]
    exact Nat.zero_add _
  obtain ⟨last, hvisit⟩ := visit_of_fails hmake hpanic hfail (_, session)
  have hstop : t.space.words.foldlM (t.visit c make (Hook.ofView check)) ({}, t.opening f ()) =
      .error (.diverged
        ⟨before.length, t.settings.order, (t.trial c s check word).record word⟩ last) := by
    rw [hwords, List.foldlM_append, hfold]
    show (word :: rest).foldlM (t.visit c make (Hook.ofView check)) _ = _
    rw [List.foldlM_cons, hvisit, hcount]
    rfl
  rw [testWith_of_valid hvalid]
  exact ⟨_, explore_of_diverged hvalid hstop, rfl⟩

/-- With a hook that does not panic a test comes to a result. -/
theorem exists_result (hcheck : ∀ v p, check v ≠ .panic p) (c : Candidate σ α) (f : φ) :
    ∃ run, t.testWith c make (Hook.ofView check) f () = .ok run ∧
      (run.Passed ∨ ∃ report, run.result = .error (.diverged report)) := by
  rw [testWith_of_valid hvalid]
  cases hfold : t.space.words.foldlM (t.visit c make (Hook.ofView check)) ({}, t.opening f ()) with
  | ok state => exact ⟨_, explore_of_ok hvalid hfold, Or.inl ⟨_, rfl⟩⟩
  | error stop =>
      cases stop with
      | diverged report last => exact ⟨_, explore_of_diverged hvalid hfold, Or.inr ⟨report, rfl⟩⟩
      | panicked p =>
          obtain ⟨-, word, -, state, -, -, hvisit⟩ := exists_of_foldlM_eq_error hfold
          exact absurd hvisit
            (visit_ne_panicked (fun f => ⟨s, hmake f⟩) (fun _ v _ p => hcheck v p) state p)

/-- **Passing** is passing every trial of a legal word. -/
theorem passes_iff_trials (f : φ) :
    (∃ run, t.testWith c make (Hook.ofView check) f () = .ok run ∧ run.Passed) ↔
      ∀ word, t.space.Legal word → (t.trial c s check word).Passes word := by
  constructor
  · rintro ⟨run, hrun, summary, hresult⟩ word hlegal
    obtain ⟨-, tally, last, hfold, -⟩ := exists_foldlM_of_summary hrun hresult
    exact passes_of_foldlM hmake hfold word (Space.mem_words.mpr hlegal)
  · intro h
    obtain ⟨run, summary, hrun, hresult, -⟩ := exists_summary_of_passes hvalid hmake h f
    exact ⟨run, hrun, summary, hresult⟩

end

/-! ## Tests without a hook -/

/-- What a test without a hook replays on. -/
def bench (t : Tester α) (c : Candidate σ α) : Bench σ α Unit :=
  ⟨t.runner.judge, c, Hook.accepting⟩

/-- Where its replays begin. -/
def origin (t : Tester α) (s : σ) : Checkpoint σ α Unit :=
  .start (.initial t.expected t.settings.order) s ()

/-- The judge gets to the operation `op` behind the word `u`, and **rejects** it. -/
def Rejects (t : Tester α) (c : Candidate σ α) (s : σ) (u : Word) (op : Operation)
    (violation : Violation) : Prop :=
  ∃ k, (t.bench c).reach (t.origin s) u = some k ∧
    (t.bench c).verdict k op = .diverge violation

theorem trial_eq_run (t : Tester α) (c : Candidate σ α) (s : σ) (word : Word) :
    t.trial c s (fun _ => .accept) word = (t.bench c).run (t.origin s) word := rfl

theorem exists_reach_of_acceptable
    (h : ∀ i op k, word[i]? = some op → (t.bench c).reach (t.origin s) (word.take i) = some k →
      ((t.bench c).verdict k op).isAcceptable = true) :
    ∃ k, (t.bench c).reach (t.origin s) word = some k := by
  refine Bench.exists_reach_of_next ?_
  intro i op k hop hreach
  exact ⟨_, Bench.next?_eq_some.mpr ⟨h i op k hop hreach, rfl, rfl⟩⟩

theorem passes_of_reach {k : Checkpoint σ α Unit}
    (h : (t.bench c).reach (t.origin s) word = some k) :
    (t.trial c s (fun _ => .accept) word).Passes word :=
  (Bench.passes_iff_reach word).mpr ⟨k, h⟩

/-- **The divergence reported**: the first word that fails, with the step that the judge rejects. -/
theorem exists_reports_of_rejects (hvalid : t.settings.validate = .ok ())
    (hmake : ∀ f, (make f).1 = .ok s) {before rest : List Word} {u v : Word} {op : Operation}
    {violation : Violation} (hwords : t.space.words = before ++ (u ++ op :: v) :: rest)
    (hbefore : ∀ word ∈ before, (t.trial c s (fun _ => .accept) word).Passes word)
    (hrejects : t.Rejects c s u op violation) (f : φ) :
    ∃ run, t.test c make f = .ok run ∧
      run.Reports before.length (u ++ op :: v) u.length op violation := by
  obtain ⟨k, hreach, hv⟩ := hrejects
  obtain ⟨hfailed, hpanic⟩ := Bench.failedStep?_of_diverge hreach hv v (u ++ op :: v)
  have hfail : ((t.trial c s (fun _ => .accept) (u ++ op :: v)).record (u ++ op :: v)).isSuccess =
      false := by
    show (((t.bench c).run (t.origin s) _).record _).failedStep?.isNone = false
    rw [hfailed]
    rfl
  obtain ⟨run, hrun, hresult⟩ :=
    exists_report_of_fails hvalid hmake hwords hbefore hpanic hfail f
  have hindex : k.index = 0 + u.length := Bench.index_of_reach hreach
  exact ⟨run, hrun, _, hresult, rfl, rfl, _, hfailed, hindex.trans (Nat.zero_add _), rfl, rfl⟩

end Tester

end Lockstep
