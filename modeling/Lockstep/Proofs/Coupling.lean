import Lockstep.Proofs.Replay.Coupling
import Lockstep.Proofs.Trial

/-!
# Tests side by side

Two tests that explore the same words can be run side by side, each with a factory and a candidate
of its own.  If the replays of every word are alike, so are the tests: they come to the same
summary, or they diverge at the same word in the same step.

The relation passes through every level on which something may stop: the factory, the replay, the
visit of a word, the fold over all words, and the whole test.  `EndAlike` is what stays the same on
each of them, that either both stop or both go on.

* **`Session.replay_alike`**, **`Tester.visit_alike`** — one word.
* **`Tester.testWith_alike`** — the whole test.
-/

namespace Lockstep

universe u v w x y z

/-! ## Computations that end alike -/

/-- Two computations end alike: both in errors that are related, or both in values that are. -/
inductive EndAlike {ε : Type u} {ε' : Type v} {β : Type w} {β' : Type x} (E : ε → ε' → Prop)
    (A : β → β' → Prop) : Except ε β → Except ε' β' → Prop where
  | ok {b : β} {b' : β'} (h : A b b') : EndAlike E A (.ok b) (.ok b')
  | error {e : ε} {e' : ε'} (h : E e e') : EndAlike E A (.error e) (.error e')

namespace EndAlike

variable {ε : Type u} {ε' : Type v} {β : Type w} {β' : Type x} {E : ε → ε' → Prop}
  {A : β → β' → Prop}

/-- What a computation that ends alike comes to, if the other one comes to a value. -/
theorem exists_of_ok {e : Except ε β} {e' : Except ε' β'} {b : β} (h : EndAlike E A e e')
    (he : e = .ok b) : ∃ b', e' = .ok b' ∧ A b b' := by
  cases h with
  | ok hb =>
      obtain rfl := Except.ok.inj he
      exact ⟨_, rfl, hb⟩
  | error _ => exact nomatch he

/-- Folds whose steps end alike do so, and both stop at the same place or not at all. -/
theorem foldlM {γ : Type y} {f : β → γ → Except ε β} {f' : β' → γ → Except ε' β'}
    (hf : ∀ ⦃b b'⦄ x, A b b' → EndAlike E A (f b x) (f' b' x)) (xs : List γ) {b : β} {b' : β'}
    (hb : A b b') : EndAlike E A (xs.foldlM f b) (xs.foldlM f' b') := by
  induction xs generalizing b b' with
  | nil => exact .ok hb
  | cons x xs ih =>
      rw [List.foldlM_cons, List.foldlM_cons]
      generalize hx : f b x = r, hx' : f' b' x = r'
      have hstep := hf x hb
      rw [hx, hx'] at hstep
      cases hstep with
      | ok h => exact ih h
      | error h => exact .error h

end EndAlike

/-! ## What is related -/

variable {φ : Type u} {φ' : Type v} {η : Type w} {α : Type x} {σ : Type y} {σ' : Type z}
  {F : φ → φ' → Prop} {S : σ → σ' → Prop} {X : Expectation α → Expectation α → Prop}
  {O : Outcome α → Outcome α → Prop} {V : View α → View α → Prop}

/-- Two factories in related states make candidates in related states, or both panic. -/
structure Factory.Alike (F : φ → φ' → Prop) (S : σ → σ' → Prop) (make : Factory φ σ)
    (make' : Factory φ' σ') : Prop where
  made : ∀ ⦃f f'⦄, F f f' → EndAlike Eq S (make f).1 (make' f').1
  next : ∀ ⦃f f'⦄, F f f' → F (make f).2 (make' f').2

theorem Factory.Alike.refl (make : Factory φ σ) : Factory.Alike Eq Eq make make where
  made := by
    rintro f - rfl
    cases (make f).1 with
    | ok s => exact .ok rfl
    | error p => exact .error rfl
  next := by
    rintro f - rfl
    rfl

/-- Factories whose candidates begin in one state each, and these are related. -/
theorem Factory.Alike.constant {s : σ} {s' : σ'} (hs : S s s') :
    Factory.Alike Eq S (.constant s) (.constant s') where
  made _ _ _ := .ok hs
  next _ _ hf := hf

/-- Two sessions agree in what factory and hook came to, in the number of candidates made and in
    what the hook was shown.  Their events are left out, because these name the order. -/
structure Session.Alike (F : φ → φ' → Prop) (V : View α → View α → Prop) (session : Session φ η α)
    (session' : Session φ' η α) : Prop where
  factory : F session.factory session'.factory
  hook : session'.hook = session.hook
  made : session'.made = session.made
  views : List.Forall₂ V session.views.toList session'.views.toList

/-- Two replays in sessions left alike records and alike sessions. -/
structure Session.ReplayedAlike (F : φ → φ' → Prop) (X : Expectation α → Expectation α → Prop)
    (O : Outcome α → Outcome α → Prop) (V : View α → View α → Prop)
    (replayed : Record α × Session φ η α) (replayed' : Record α × Session φ' η α) : Prop where
  record : replayed.1.Alike X O replayed'.1
  session : replayed.2.Alike F V replayed'.2

/-- Two explorations have come to the same account, and to alike sessions. -/
structure Tester.AccountAlike (F : φ → φ' → Prop) (V : View α → View α → Prop)
    (state : Tally × Session φ η α) (state' : Tally × Session φ' η α) : Prop where
  tally : state'.1 = state.1
  session : state.2.Alike F V state'.2

/-- Two reports name the same word, the same failing step in it and the same violation.  Their
    orders are those of the settings. -/
structure FailureReport.Alike (X : Expectation α → Expectation α → Prop)
    (O : Outcome α → Outcome α → Prop) (report report' : FailureReport α) : Prop where
  index : report'.index = report.index
  record : report.record.Alike X O report'.record
  failed : ∃ step step', report.record.failedStep? = some step ∧
    report'.record.failedStep? = some step' ∧ step.Alike X O step'
  violation : report'.violation? = report.violation?

/-- Two tests failed for one reason. -/
inductive TestError.Alike (X : Expectation α → Expectation α → Prop)
    (O : Outcome α → Outcome α → Prop) : TestError α → TestError α → Prop where
  | settings (e : SettingsError) : Alike X O (.settings e) (.settings e)
  | diverged {report report' : FailureReport α} (h : report.Alike X O report') :
      Alike X O (.diverged report) (.diverged report')

/-- Two explorations stopped for one reason. -/
inductive Tester.Stop.Alike (F : φ → φ' → Prop) (X : Expectation α → Expectation α → Prop)
    (O : Outcome α → Outcome α → Prop) (V : View α → View α → Prop) :
    Stop φ η α → Stop φ' η α → Prop where
  | panicked (p : Panic) : Alike F X O V (.panicked p) (.panicked p)
  | diverged {report report' : FailureReport α} {session : Session φ η α}
      {session' : Session φ' η α} (hreport : report.Alike X O report')
      (hsession : session.Alike F V session') :
      Alike F X O V (.diverged report session) (.diverged report' session')

/-- Two tests come to the same summary, or fail for one reason, and leave alike sessions. -/
structure TestRun.Alike (F : φ → φ' → Prop) (X : Expectation α → Expectation α → Prop)
    (O : Outcome α → Outcome α → Prop) (V : View α → View α → Prop) (run : TestRun φ η α)
    (run' : TestRun φ' η α) : Prop where
  result : EndAlike (TestError.Alike X O) Eq run.result run'.result
  session : run.session.Alike F V run'.session

/-! ## One word -/

/-- Alike records are entered into an account alike. -/
theorem Tally.add_alike {record record' : Record α} (h : record.Alike X O record') (tally : Tally) :
    tally.add record' = tally.add record := by
  rw [Tally.add, Tally.add, h.word, h.steps.length_eq, h.toleratedSteps]

/-- Failing records that are alike make alike reports. -/
theorem FailureReport.alike_of_record {report report' : FailureReport α}
    (hindex : report'.index = report.index) (hrecord : report.record.Alike X O report'.record)
    (hfailed : report.record.isSuccess = false) : report.Alike X O report' := by
  refine ⟨hindex, hrecord, ?_, hrecord.violation?⟩
  have hsteps := hrecord.failedStep?
  rw [Record.isSuccess] at hfailed
  generalize report.record.failedStep? = step, report'.record.failedStep? = step' at hsteps hfailed
  cases hsteps with
  | none => exact Bool.noConfusion hfailed
  | some hstep => exact ⟨_, _, rfl, rfl, hstep⟩

theorem Session.Alike.report {session : Session φ η α} {session' : Session φ' η α}
    (h : session.Alike F V session') (e e' : Event) :
    (session.report e).Alike F V (session'.report e') :=
  ⟨h.factory, h.hook, h.made, h.views⟩

variable [BEq α] {c : Candidate σ α} {c' : Candidate σ' α} {make : Factory φ σ}
  {make' : Factory φ' σ'} {hook : Hook η σ α} {hook' : Hook η σ' α} {session : Session φ η α}
  {session' : Session φ' η α} {word : Word}

/-- **One word in two sessions.**  Its replays need only be alike on the candidate that is made. -/
theorem Session.replay_alike {runner runner' : Runner α} (hmake : Factory.Alike F S make make')
    (hsession : session.Alike F V session')
    (hreplay : ∀ s s', (make session.factory).1 = .ok s → S s s' →
      (runner.replay c hook s session.hook word).Alike X O V
        (runner'.replay c' hook' s' session.hook word)) :
    EndAlike Eq (ReplayedAlike F X O V) (session.replay runner c make hook word)
      (session'.replay runner' c' make' hook' word) := by
  have hmade := hmake.made hsession.factory
  have hnext := hmake.next hsession.factory
  rw [Session.replay, Session.replay, hsession.hook]
  generalize make session.factory = made, make' session'.factory = made' at hmade hnext hreplay ⊢
  obtain ⟨start, f⟩ := made
  obtain ⟨start', f'⟩ := made'
  cases hmade with
  | error hpanic => exact .error hpanic
  | ok hs =>
      have halike := hreplay _ _ rfl hs
      simp only [halike.panic]
      split
      · exact .error rfl
      · refine .ok ⟨halike.record word, hnext, halike.hook, congrArg (· + 1) hsession.made, ?_⟩
        rw [Array.toList_appendList, Array.toList_appendList]
        exact List.rel_append hsession.views halike.views

namespace Tester

variable {t t' : Tester α} {state : Tally × Session φ η α} {state' : Tally × Session φ' η α}

/-- **The visits of one word** end alike if its replays do. -/
theorem visit_alike (hstate : AccountAlike F V state state')
    (hreplay : EndAlike Eq (Session.ReplayedAlike F X O V)
      (state.2.replay t.runner c make hook word) (state'.2.replay t'.runner c' make' hook' word)) :
    EndAlike (Stop.Alike F X O V) (AccountAlike F V) (t.visit c make hook state word)
      (t'.visit c' make' hook' state' word) := by
  rw [visit, visit, hstate.tally]
  generalize state.2.replay t.runner c make hook word = replayed,
    state'.2.replay t'.runner c' make' hook' word = replayed' at hreplay ⊢
  cases hreplay with
  | error hpanic => exact hpanic ▸ .error (.panicked _)
  | ok h =>
      simp only [h.record.isSuccess]
      split
      · exact .ok ⟨Tally.add_alike h.record _, h.session⟩
      · rename_i hfailed
        refine .error (.diverged ?_ (h.session.report _ _))
        exact FailureReport.alike_of_record rfl h.record (Bool.eq_false_iff.mpr hfailed)

/-! ## Whole tests -/

variable (hspace : t'.space = t.space) (hmake : Factory.Alike F S make make')
  (hreplay : ∀ s s' h word, S s s' → (t.runner.replay c hook s h word).Alike X O V
    (t'.runner.replay c' hook' s' h word))

include hspace hmake hreplay

theorem explore_alike (hvalid : t.settings.validate = .ok ())
    (hvalid' : t'.settings.validate = .ok ()) (hsession : session.Alike F V session') :
    EndAlike Eq (TestRun.Alike F X O V) (t.explore c make hook session)
      (t'.explore c' make' hook' session') := by
  have hfold : EndAlike (Stop.Alike F X O V) (AccountAlike F V)
      (t.space.words.foldlM (t.visit c make hook) ({}, session))
      (t.space.words.foldlM (t'.visit c' make' hook') ({}, session')) := by
    refine EndAlike.foldlM ?_ _ ⟨rfl, hsession⟩
    intro state state' word hstate
    refine visit_alike hstate (Session.replay_alike hmake hstate.session ?_)
    intro s s' _ hs
    exact hreplay s s' _ word hs
  rw [explore, explore, Space.foldUntil_eq_foldlM (steps_le_frameLimit hvalid),
    Space.foldUntil_eq_foldlM (steps_le_frameLimit hvalid'), hspace]
  generalize t.space.words.foldlM (t.visit c make hook) ({}, session) = ending,
    t.space.words.foldlM (t'.visit c' make' hook') ({}, session') = ending' at hfold ⊢
  cases hfold with
  | ok h =>
      obtain ⟨htally, hsession'⟩ := h
      exact .ok ⟨.ok (congrArg Tally.summary htally.symm), hsession'.report _ _⟩
  | error h =>
      cases h with
      | panicked p => exact .error rfl
      | diverged hreport hsession' => exact .ok ⟨.error (.diverged hreport), hsession'⟩

/-- **Tests side by side.**  With alike replays of every word the two tests are alike. -/
theorem testWith_alike (hvalid : t'.settings.validate = t.settings.validate) {f : φ} {f' : φ'}
    (hf : F f f') (h : η) :
    EndAlike Eq (TestRun.Alike F X O V) (t.testWith c make hook f h)
      (t'.testWith c' make' hook' f' h) := by
  have hstart : (Session.start f h : Session φ η α).Alike F V (Session.start f' h) :=
    ⟨hf, rfl, rfl, .nil⟩
  rw [testWith, testWith, hvalid]
  cases haccepted : t.settings.validate with
  | error e => exact .ok ⟨.error (.settings e), hstart⟩
  | ok _ =>
      exact explore_alike hspace hmake hreplay haccepted (hvalid.trans haccepted)
        (hstart.report _ _)

end Tester

end Lockstep
