import Lockstep.Proofs.Replay.Agreement
import Lockstep.Proofs.Space.Pass
import Lockstep.Tester

/-!
# What a test decides

A test is a fold over the words of its space that stops at the first divergence.  With a factory
that always makes the same candidate, each word of the fold is a replay by itself, and so the test
passes exactly if every replay does.

* **`Tester.explore_of_ok`**, **`Tester.explore_of_diverged`** — the exploration as a fold over
  `Space.words`.
* **`Tester.test_ok_iff_agrees`** — soundness and completeness of a strict test with a determinate
  order: it passes exactly if the candidate answers like the cursor on every legal word.
-/

namespace Lockstep

universe u v w x

/-! ## Folds that stop -/

/-- A fold passes if each of its steps does, whatever the account that the step is given. -/
private theorem exists_foldlM_eq_ok {ε : Type u} {β : Type v} {γ : Type w}
    {f : β → γ → Except ε β} {P : γ → Prop} (h : ∀ b x, (∃ b', f b x = .ok b') ↔ P x)
    (xs : List γ) (b : β) : (∃ b', xs.foldlM f b = .ok b') ↔ ∀ x ∈ xs, P x := by
  induction xs generalizing b with
  | nil => exact iff_of_true ⟨b, rfl⟩ (List.forall_mem_nil P)
  | cons x xs ih =>
      rw [List.forall_mem_cons, List.foldlM_cons, ← h b x]
      cases hf : f b x with
      | ok b' =>
          -- the fold goes on with another account, which `P` does not depend on
          show (∃ r, xs.foldlM f b' = .ok r) ↔ _
          rw [ih b']
          exact (and_iff_right ⟨b', rfl⟩).symm
      | error e =>
          refine iff_of_false ?_ ?_
          · rintro ⟨r, hr⟩
            exact nomatch hr
          · rintro ⟨⟨b', hb'⟩, -⟩
            exact nomatch hb'

/-- A fold that stops went through up to the step that stopped it. -/
theorem exists_of_foldlM_eq_error {ε : Type u} {β : Type v} {γ : Type w} {f : β → γ → Except ε β}
    {xs : List γ} {b : β} {e : ε} (he : xs.foldlM f b = .error e) :
    ∃ ys x zs b', xs = ys ++ x :: zs ∧ ys.foldlM f b = .ok b' ∧ f b' x = .error e := by
  induction xs generalizing b with
  | nil => exact nomatch he
  | cons x xs ih =>
      rw [List.foldlM_cons] at he
      cases hf : f b x with
      | ok b₁ =>
          rw [hf] at he
          obtain ⟨ys, y, zs, b', rfl, hys, hy⟩ := ih he
          refine ⟨x :: ys, y, zs, b', rfl, ?_, hy⟩
          rw [List.foldlM_cons, hf]
          exact hys
      | error e₁ =>
          rw [hf] at he
          exact ⟨[], x, xs, b, rfl, rfl, hf.trans he⟩

/-- A fold that stops does so with an error of one of its steps. -/
private theorem foldlM_eq_error {ε : Type u} {β : Type v} {γ : Type w} {f : β → γ → Except ε β}
    {P : ε → Prop} (h : ∀ b x e, f b x = .error e → P e) (xs : List γ) (b : β) {e : ε}
    (he : xs.foldlM f b = .error e) : P e := by
  obtain ⟨-, x, -, b', -, -, hx⟩ := exists_of_foldlM_eq_error he
  exact h b' x e hx

/-! ## One word of a session -/

section Session

variable {φ : Type u} {η : Type v} {α : Type w} {σ : Type x} [BEq α]

/-- With a candidate made and no panic of the hook, a word leaves the record of its replay. -/
theorem Session.exists_replay_eq_ok {session : Session φ η α} {runner : Runner α}
    {c : Candidate σ α} {make : Factory φ σ} {hook : Hook η σ α} {word : Word} {s : σ}
    (hmake : (make session.factory).1 = .ok s)
    (hpanic : (runner.replay c hook s session.hook word).panic = none) :
    ∃ session', session.replay runner c make hook word =
      .ok ((runner.replay c hook s session.hook word).record word, session') := by
  obtain ⟨f, hf⟩ : ∃ f, make session.factory = (.ok s, f) := ⟨_, Prod.ext hmake rfl⟩
  simp only [Session.replay, hf, hpanic]
  exact ⟨_, rfl⟩

namespace Tester

variable {t : Tester α} {c : Candidate σ α} {make : Factory φ σ} {hook : Hook η σ α}
  {session session' : Session φ η α}

/-- **Visiting a word** comes to its replay, unless factory or hook panic: it enters the record
    into the account, or it stops with it. -/
theorem visit_cases {state : Tally × Session φ η α} {word : Word} {s : σ}
    (hmake : (make state.2.factory).1 = .ok s)
    (hpanic : (t.runner.replay c hook s state.2.hook word).panic = none) :
    let record := (t.runner.replay c hook s state.2.hook word).record word
    (record.isSuccess = true ∧
        ∃ session, t.visit c make hook state word = .ok (state.1.add record, session)) ∨
      (record.isSuccess = false ∧
        ∃ session, t.visit c make hook state word =
          .error (.diverged ⟨state.1.words, t.settings.order, record⟩ session)) := by
  intro record
  obtain ⟨session, hsession⟩ := Session.exists_replay_eq_ok hmake hpanic
  have hvisit : t.visit c make hook state word =
      if record.isSuccess then .ok (state.1.add record, session)
      else .error (.diverged ⟨state.1.words, t.settings.order, record⟩
        (session.report (.diverged state.1.words word record.steps.length))) := by
    rw [visit, hsession]
  rw [hvisit]
  cases hsuccess : record.isSuccess with
  | true => exact Or.inl ⟨rfl, session, rfl⟩
  | false => exact Or.inr ⟨rfl, _, rfl⟩

omit [BEq α] in
/-- Accepted settings keep the words short, so that a pass over them has room for every frame. -/
theorem steps_le_frameLimit (hvalid : t.settings.validate = .ok ()) :
    t.space.steps ≤ Space.frameLimit :=
  Nat.le_trans (Settings.validate_eq_ok.mp hvalid).1 (by decide)

/-- **A finished exploration** is a fold over the words of the space that went through. -/
theorem explore_of_ok (hvalid : t.settings.validate = .ok ()) {tally : Tally}
    (h : t.space.words.foldlM (t.visit c make hook) ({}, session) = .ok (tally, session')) :
    t.explore c make hook session =
      .ok ⟨.ok tally.summary,
        session'.report (.finished tally.words tally.steps tally.tolerated)⟩ := by
  rw [explore, Space.foldUntil_eq_foldlM (steps_le_frameLimit hvalid), h]

/-- **A diverged exploration** is one that stopped at a word. -/
theorem explore_of_diverged (hvalid : t.settings.validate = .ok ()) {report : FailureReport α}
    (h : t.space.words.foldlM (t.visit c make hook) ({}, session) =
      .error (.diverged report session')) :
    t.explore c make hook session = .ok ⟨.error (.diverged report), session'⟩ := by
  rw [explore, Space.foldUntil_eq_foldlM (steps_le_frameLimit hvalid), h]

end Tester

end Session

/-! ## Candidates that always begin alike -/

namespace Tester

variable {φ : Type u} {α : Type v} {σ : Type w} [BEq α] {t : Tester α} {c : Candidate σ α} {s : σ}
  {make : Factory φ σ}

section Strict

variable (horder : t.settings.order = .determinate)
  (hstrict : t.settings.toleratesLegacyRemoval = false) (hmake : ∀ f, (make f).1 = .ok s)

include horder hstrict

omit [BEq α] in
/-- The replays of a strict test with a determinate order. -/
theorem runner_strict : t.runner = ⟨t.expected, .determinate, ⟨false⟩⟩ := by
  rw [runner, horder, Settings.judge, hstrict]

include hmake

/-- A word passes exactly if the candidate answers it like the cursor; otherwise it diverges. -/
theorem visit_strict (c : Candidate σ α) (state : Tally × Session φ Unit α) (word : Word) :
    (∃ state', t.visit c make Hook.accepting state word = .ok state') ∧
        List.Forall₂ Outcome.Agrees (Cursor.candidate.outcomes (Cursor.ofList t.expected) word)
          (c.outcomes s word) ∨
      (∃ report session, t.visit c make Hook.accepting state word =
          .error (.diverged report session)) ∧
        ¬ List.Forall₂ Outcome.Agrees (Cursor.candidate.outcomes (Cursor.ofList t.expected) word)
          (c.outcomes s word) := by
  have hpanic : (t.runner.replay c Hook.accepting s state.2.hook word).panic = none := by
    rw [runner_strict horder hstrict]
    exact Runner.panic_replay_accepting t.expected c s word
  have hcases := visit_cases (hmake state.2.factory) hpanic
  rw [runner_strict horder hstrict] at hcases
  rw [← Runner.isSuccess_iff_agrees]
  rcases hcases with ⟨hsuccess, session, hvisit⟩ | ⟨hfail, session, hvisit⟩
  · exact Or.inl ⟨⟨_, hvisit⟩, hsuccess⟩
  · refine Or.inr ⟨⟨_, session, hvisit⟩, ?_⟩
    rw [hfail]
    exact Bool.false_ne_true

theorem exists_visit_eq_ok (c : Candidate σ α) (state : Tally × Session φ Unit α) (word : Word) :
    (∃ state', t.visit c make Hook.accepting state word = .ok state') ↔
      List.Forall₂ Outcome.Agrees (Cursor.candidate.outcomes (Cursor.ofList t.expected) word)
        (c.outcomes s word) := by
  rcases visit_strict horder hstrict hmake c state word with
    ⟨hok, hagrees⟩ | ⟨⟨report, session, herror⟩, hnot⟩
  · exact iff_of_true hok hagrees
  · refine iff_of_false ?_ hnot
    rintro ⟨state', hstate⟩
    cases herror.symm.trans hstate

/-- With these candidates nothing but a divergence stops a test. -/
theorem diverged_of_visit_eq_error {state : Tally × Session φ Unit α} {word : Word}
    {e : Stop φ Unit α} (he : t.visit c make Hook.accepting state word = .error e) :
    ∃ report session, e = .diverged report session := by
  rcases visit_strict horder hstrict hmake c state word with
    ⟨⟨state', hok⟩, -⟩ | ⟨⟨report, session, herror⟩, -⟩
  · cases hok.symm.trans he
  · exact ⟨report, session, Except.error.inj (he.symm.trans herror)⟩

end Strict

/-- **A strict test with a determinate order decides agreement.**  It comes to a result, and the
    result is a summary exactly if the candidate answers every legal word, call by call, as the
    cursor over the expected elements does. -/
theorem test_ok_iff_agrees (hvalid : t.settings.validate = .ok ())
    (horder : t.settings.order = .determinate)
    (hstrict : t.settings.toleratesLegacyRemoval = false)
    (hmake : ∀ f, (make f).1 = .ok s) (c : Candidate σ α) (f : φ) :
    ∃ run, t.test c make f = .ok run ∧
      ((∃ summary, run.result = .ok summary) ↔
        ∀ word, t.space.Legal word →
          List.Forall₂ Outcome.Agrees
            (Cursor.candidate.outcomes (Cursor.ofList t.expected) word) (c.outcomes s word)) := by
  rw [test, testWith, hvalid]
  show ∃ run, t.explore c make Hook.accepting _ = .ok run ∧ _
  generalize Session.report _ _ = session
  have hfold := exists_foldlM_eq_ok (exists_visit_eq_ok horder hstrict hmake c) t.space.words
    ({}, session)
  have hlegal : ∀ P : Word → Prop, (∀ word ∈ t.space.words, P word) ↔
      ∀ word, t.space.Legal word → P word :=
    fun P => forall_congr' fun word => by rw [Space.mem_words]
  rw [hlegal] at hfold
  rw [← hfold]
  cases hrun : t.space.words.foldlM (t.visit c make Hook.accepting) ({}, session) with
  | ok state => exact ⟨_, explore_of_ok hvalid hrun, iff_of_true ⟨_, rfl⟩ ⟨_, rfl⟩⟩
  | error e =>
      -- a panic would be no result at all
      obtain ⟨report, session', rfl⟩ :=
        foldlM_eq_error (P := fun e => ∃ report session, e = .diverged report session)
          (fun _ _ _ => diverged_of_visit_eq_error horder hstrict hmake) _ _ hrun
      refine ⟨_, explore_of_diverged hvalid hrun, iff_of_false ?_ ?_⟩
      · rintro ⟨summary, hsummary⟩
        exact nomatch hsummary
      · rintro ⟨state, hstate⟩
        exact nomatch hstate

/-- The test of the cursor itself over one element, with removals that the reference refuses. -/
theorem test_ok_iff_agrees_cursor :
    let t : Tester Nat := ⟨[7], { order := .determinate, steps := 4, illegalRemovals := true }⟩
    t.settings.validate = .ok () ∧ t.settings.order = .determinate ∧
      t.settings.toleratesLegacyRemoval = false ∧
      (∀ f, (Factory.constant (Cursor.ofList [7]) f).1 = .ok (Cursor.ofList [7])) ∧
      ∃ run, t.test Cursor.candidate (Factory.constant (Cursor.ofList [7])) () = .ok run ∧
        ((∃ summary, run.result = .ok summary) ↔
          ∀ word, t.space.Legal word →
            List.Forall₂ Outcome.Agrees
              (Cursor.candidate.outcomes (Cursor.ofList t.expected) word)
              (Cursor.candidate.outcomes (Cursor.ofList [7]) word)) :=
  ⟨rfl, rfl, rfl, fun _ => rfl,
    test_ok_iff_agrees rfl rfl rfl (fun _ => rfl) Cursor.candidate ()⟩

end Tester

end Lockstep
