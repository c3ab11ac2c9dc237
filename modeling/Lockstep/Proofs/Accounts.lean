import Lockstep.Proofs.Replay.Extent
import Lockstep.Proofs.Space.Size
import Lockstep.Proofs.Tester
import Mathlib.Algebra.GroupWithZero.Nat

/-!
# What a test adds up to

A test threads the states of a factory and of a hook through two nested loops, over the words of
its space and over the steps of each word, and may leave either one early.  This file settles the
account: which words were replayed, what the sums of the summary are, and how often factory and
hook were called.

The calls between two sessions are a relation that composes (`Session.Calls.trans`).  It says the
number twice: as the session keeps it, and as any factory or hook would that counts its own calls.

* **`Session.calls_replay`** — the calls behind one word, and **`Session.calls_replayAll`** — the
  calls behind a row of words.
* **`Tester.foldlM_visit_eq_ok`**, **`Tester.visit_eq_diverged`** — an exploration as the replays
  that it consists of.
* **`Tester.testWith_eq_ok`** — what a test can come to, and what its exploration was.
* **`Tester.testWith_accounts`** — the account of a whole test.
-/

namespace Lockstep

universe u v w x

variable {φ : Type u} {η : Type v} {α : Type w} {σ : Type x}

/-! ## Calls between two sessions -/

/-- Between two sessions the factory was called `m` times and the hook `n` times.  Any count that
    their states keep of their own calls says the same. -/
structure Session.Calls (make : Factory φ σ) (hook : Hook η σ α) (m n : Nat)
    (first last : Session φ η α) : Prop where
  made : last.made = first.made + m
  shown : last.views.size = first.views.size + n
  counted_made : ∀ count : φ → Nat, (∀ f, count (make f).2 = count f + 1) →
    count last.factory = count first.factory + m
  counted_shown : ∀ count : η → Nat, (∀ h v s, count (hook h v s).2 = count h + 1) →
    count last.hook = count first.hook + n

namespace Session

variable {make : Factory φ σ} {hook : Hook η σ α} {first last middle : Session φ η α}

theorem Calls.refl (make : Factory φ σ) (hook : Hook η σ α) (session : Session φ η α) :
    Calls make hook 0 0 session session :=
  ⟨rfl, rfl, fun _ _ => rfl, fun _ _ => rfl⟩

/-- Calls in a row add up. -/
theorem Calls.trans {m n m' n' : Nat} (h : Calls make hook m n first middle)
    (h' : Calls make hook m' n' middle last) :
    Calls make hook (m + m') (n + n') first last where
  made := by rw [h'.made, h.made, Nat.add_assoc]
  shown := by rw [h'.shown, h.shown, Nat.add_assoc]
  counted_made := by
    intro count hcount
    rw [h'.counted_made count hcount, h.counted_made count hcount, Nat.add_assoc]
  counted_shown := by
    intro count hcount
    rw [h'.counted_shown count hcount, h.counted_shown count hcount, Nat.add_assoc]

theorem Calls.report {m n : Nat} (h : Calls make hook m n first last) (e : Event) :
    Calls make hook m n first (last.report e) :=
  ⟨h.made, h.shown, h.counted_made, h.counted_shown⟩

/-! ## One word -/

variable [BEq α] {runner : Runner α} {c : Candidate σ α} {word : Word} {record : Record α}

/-- **What a replay in a session is**: a candidate was made, and the replay of the word on it was
    not cut short. -/
theorem replay_eq_ok (h : first.replay runner c make hook word = .ok (record, last)) :
    ∃ s f, make first.factory = (.ok s, f) ∧
      (runner.replay c hook s first.hook word).panic = none ∧
      record = (runner.replay c hook s first.hook word).record word ∧
      last =
        { factory := f
          hook := (runner.replay c hook s first.hook word).hook
          made := first.made + 1
          views := first.views ++ (runner.replay c hook s first.hook word).views
          events := first.events ++ (runner.replay c hook s first.hook word).events word } := by
  rw [Session.replay] at h
  split at h
  · cases h
  · rename_i s f hmake
    cases hpanic : (runner.replay c hook s first.hook word).panic with
    | some p =>
        simp only [hpanic] at h
        cases h
    | none =>
        simp only [hpanic] at h
        obtain ⟨rfl, rfl⟩ := Prod.mk.inj (Except.ok.inj h)
        exact ⟨s, f, hmake, hpanic, rfl, rfl⟩

theorem word_of_replay (h : first.replay runner c make hook word = .ok (record, last)) :
    record.word = word := by
  obtain ⟨s, f, -, -, rfl, -⟩ := replay_eq_ok h
  rfl

/-- **The calls behind one word**: one candidate, and one view for each step that the judge
    accepted. -/
theorem calls_replay (h : first.replay runner c make hook word = .ok (record, last)) :
    Calls make hook 1 record.acceptedSteps first last := by
  obtain ⟨s, f, hmake, hpanic, rfl, rfl⟩ := replay_eq_ok h
  rw [runner.replay_eq_run] at hpanic ⊢
  have hviews := Bench.length_views (u := word) hpanic
  refine ⟨rfl, ?_, ?_, ?_⟩
  · rw [← hviews, ← Array.length_toList, Array.toList_appendList, List.length_append,
      Array.length_toList]
  · intro count hcount
    have hone := hcount first.factory
    rw [hmake] at hone
    exact hone
  · -- the hook counts what it is shown, and it is shown the accepted steps
    intro count hcount
    rw [← hviews]
    exact Bench.count_hook (b := ⟨runner.judge, c, hook⟩) hcount _ word

/-- A success is a replay that passes. -/
theorem passes_of_isSuccess (h : first.replay runner c make hook word = .ok (record, last))
    (hsuccess : record.isSuccess = true) :
    ∃ s f, make first.factory = (.ok s, f) ∧
      record = (runner.replay c hook s first.hook word).record word ∧
      (runner.replay c hook s first.hook word).Passes word := by
  obtain ⟨s, f, hmake, hpanic, rfl, -⟩ := replay_eq_ok h
  exact ⟨s, f, hmake, rfl, hpanic, hsuccess⟩

/-- A success made and showed a step for each operation of its word. -/
theorem steps_of_isSuccess (h : first.replay runner c make hook word = .ok (record, last))
    (hsuccess : record.isSuccess = true) :
    record.steps.length = word.length ∧ record.acceptedSteps = word.length := by
  obtain ⟨s, f, -, rfl, hpasses⟩ := passes_of_isSuccess h hsuccess
  rw [runner.replay_eq_run] at hpasses ⊢
  obtain ⟨k, hreach⟩ := (Bench.passes_iff_reach word).mp hpasses
  rw [← Bench.length_views hpasses.unbroken]
  exact Bench.length_of_reach hreach

/-- A failure showed all its steps but the last, or all of them if the hook rejected that one. -/
theorem accepted_of_failed (h : first.replay runner c make hook word = .ok (record, last))
    (hfailed : record.isSuccess = false) :
    ∃ violation, record.violation? = some violation ∧
      record.acceptedSteps + (if (Verdict.diverge violation).passedJudge then 0 else 1) =
        record.steps.length := by
  obtain ⟨s, f, -, -, rfl, -⟩ := replay_eq_ok h
  rw [runner.replay_eq_run] at hfailed ⊢
  exact Bench.acceptedSteps_of_failed hfailed

/-! ## A row of words -/

variable {ws : List Word} {records : List (Record α)}

theorem replayAll_cons_eq_ok
    (h : first.replayAll runner c make hook (word :: ws) = .ok (records, last)) :
    ∃ record middle rest, first.replay runner c make hook word = .ok (record, middle) ∧
      middle.replayAll runner c make hook ws = .ok (rest, last) ∧ records = record :: rest := by
  rw [replayAll] at h
  split at h
  · exact nomatch h
  · rename_i record middle hword
    split at h
    · exact nomatch h
    · rename_i rest last' hrest
      obtain ⟨rfl, rfl⟩ := Prod.mk.inj (Except.ok.inj h)
      exact ⟨record, middle, rest, hword, hrest, rfl⟩

theorem words_of_replayAll (h : first.replayAll runner c make hook ws = .ok (records, last)) :
    records.map (·.word) = ws := by
  induction ws generalizing first records with
  | nil =>
      obtain ⟨rfl, -⟩ := Prod.mk.inj (Except.ok.inj h)
      rfl
  | cons word ws ih =>
      obtain ⟨record, middle, rest, hword, hrest, rfl⟩ := replayAll_cons_eq_ok h
      rw [List.map_cons, word_of_replay hword, ih hrest]

/-- **The calls behind a row of words**: the factory is called once for each. -/
theorem calls_replayAll (h : first.replayAll runner c make hook ws = .ok (records, last)) :
    Calls make hook ws.length (records.map Record.acceptedSteps).sum first last := by
  induction ws generalizing first records with
  | nil =>
      obtain ⟨rfl, rfl⟩ := Prod.mk.inj (Except.ok.inj h)
      exact .refl make hook first
  | cons word ws ih =>
      obtain ⟨record, middle, rest, hword, hrest, rfl⟩ := replayAll_cons_eq_ok h
      rw [List.map_cons, List.sum_cons, List.length_cons, Nat.add_comm]
      exact (calls_replay hword).trans (ih hrest)

/-- In a row of successes over words of `n` operations each makes and shows `n` steps. -/
theorem steps_of_replayAll {n : Nat}
    (h : first.replayAll runner c make hook ws = .ok (records, last))
    (hsuccess : ∀ record ∈ records, record.isSuccess = true) (hlen : ∀ word ∈ ws, word.length = n) :
    ∀ record ∈ records, record.steps.length = n ∧ record.acceptedSteps = n := by
  induction ws generalizing first records with
  | nil =>
      obtain ⟨rfl, -⟩ := Prod.mk.inj (Except.ok.inj h)
      intro record hmem
      exact nomatch hmem
  | cons word ws ih =>
      obtain ⟨record, middle, rest, hword, hrest, rfl⟩ := replayAll_cons_eq_ok h
      obtain ⟨hfirst, hothers⟩ := List.forall_mem_cons.mp hsuccess
      obtain ⟨hn, hns⟩ := List.forall_mem_cons.mp hlen
      refine List.forall_mem_cons.mpr ⟨?_, ih hrest hothers hns⟩
      rw [← hn]
      exact steps_of_isSuccess hword hfirst

/-- In a row of successes each word passes, from some states that candidate and hook began in. -/
theorem passes_of_replayAll (h : first.replayAll runner c make hook ws = .ok (records, last))
    (hsuccess : ∀ record ∈ records, record.isSuccess = true) (hmem : word ∈ ws) :
    ∃ s f f' g, make f = (.ok s, f') ∧ (runner.replay c hook s g word).Passes word := by
  induction ws generalizing first records with
  | nil => exact nomatch hmem
  | cons word' ws ih =>
      obtain ⟨record, middle, rest, hword, hrest, rfl⟩ := replayAll_cons_eq_ok h
      obtain ⟨hfirst, hothers⟩ := List.forall_mem_cons.mp hsuccess
      rcases List.mem_cons.mp hmem with rfl | hmem
      · obtain ⟨s, f', hmake, -, hpasses⟩ := passes_of_isSuccess hword hfirst
        exact ⟨s, _, f', _, hmake, hpasses⟩
      · exact ih hrest hothers hmem

end Session

/-! ## The sums of the summary -/

/-- A tally with some more records: a count, two sums, and the bytes of their words. -/
theorem Tally.foldl_add (records : List (Record α)) (t : Tally) :
    records.foldl Tally.add t =
      { words := t.words + records.length
        steps := t.steps + (records.map (·.steps.length)).sum
        tolerated := t.tolerated + (records.map Record.toleratedSteps).sum
        stream := (records.map (·.word)).foldl Word.absorb t.stream } := by
  induction records generalizing t with
  | nil => rfl
  | cons record records ih =>
      rw [List.foldl_cons, ih]
      simp only [Tally.add, List.length_cons, List.map_cons, List.sum_cons, List.foldl_cons,
        Nat.add_assoc, Nat.add_comm 1]

theorem Record.sum_map_eq_mul {f : Record α → Nat} {n : Nat} {records : List (Record α)}
    (h : ∀ record ∈ records, f record = n) : (records.map f).sum = records.length * n := by
  rw [List.map_eq_replicate_iff.mpr h, List.sum_replicate_nat]

/-! ## Explorations -/

namespace Tester

variable [BEq α] {t : Tester α} {c : Candidate σ α} {make : Factory φ σ} {hook : Hook η σ α}
  {session session' : Session φ η α} {tally tally' : Tally} {word : Word} {ws : List Word}

/-- A word is entered into the account exactly if its replay succeeded. -/
theorem visit_eq_ok
    (h : t.visit c make hook (tally, session) word = .ok (tally', session')) :
    ∃ record, session.replay t.runner c make hook word = .ok (record, session') ∧
      record.isSuccess = true ∧ tally' = tally.add record := by
  rw [visit] at h
  split at h
  · cases h
  · rename_i record last hreplay
    cases hsuccess : record.isSuccess with
    | false =>
        rw [hsuccess, if_neg Bool.false_ne_true] at h
        cases h
    | true =>
        rw [hsuccess, if_pos rfl] at h
        obtain ⟨rfl, rfl⟩ := Prod.mk.inj (Except.ok.inj h)
        exact ⟨record, hreplay, hsuccess, rfl⟩

/-- A word that stops the exploration did so with the record of its replay. -/
theorem visit_eq_diverged {report : FailureReport α}
    (h : t.visit c make hook (tally, session) word = .error (.diverged report session')) :
    ∃ middle, session.replay t.runner c make hook word = .ok (report.record, middle) ∧
      report.record.isSuccess = false ∧ report.index = tally.words ∧
      report.order = t.settings.order ∧
      session' = middle.report (.diverged tally.words word report.record.steps.length) := by
  rw [visit] at h
  split at h
  · cases h
  · rename_i record middle hreplay
    cases hsuccess : record.isSuccess with
    | true =>
        rw [hsuccess, if_pos rfl] at h
        cases h
    | false =>
        rw [hsuccess, if_neg Bool.false_ne_true] at h
        obtain ⟨rfl, rfl⟩ := Stop.diverged.inj (Except.error.inj h)
        exact ⟨middle, hreplay, hsuccess, rfl, rfl, rfl⟩

/-- **An exploration that goes through** is a row of successful replays. -/
theorem foldlM_visit_eq_ok
    (h : ws.foldlM (t.visit c make hook) (tally, session) = .ok (tally', session')) :
    ∃ records, session.replayAll t.runner c make hook ws = .ok (records, session') ∧
      (∀ record ∈ records, record.isSuccess = true) ∧ tally' = records.foldl Tally.add tally := by
  induction ws generalizing tally session with
  | nil =>
      obtain ⟨rfl, rfl⟩ := Prod.mk.inj (Except.ok.inj h)
      exact ⟨[], rfl, List.forall_mem_nil _, rfl⟩
  | cons word ws ih =>
      rw [List.foldlM_cons] at h
      cases hvisit : t.visit c make hook (tally, session) word with
      | error stop =>
          rw [hvisit] at h
          exact nomatch h
      | ok state =>
          rw [hvisit] at h
          obtain ⟨tally₁, session₁⟩ := state
          obtain ⟨record, hreplay, hsuccess, hadd⟩ := visit_eq_ok hvisit
          obtain ⟨records, hrest, hothers, hfold⟩ := ih h
          refine ⟨record :: records, ?_, List.forall_mem_cons.mpr ⟨hsuccess, hothers⟩, ?_⟩
          · rw [Session.replayAll, hreplay]
            simp only [hrest]
          · rw [hfold, hadd]
            rfl

/-- A factory and a hook that do not panic let an exploration stop only at a divergence. -/
theorem visit_ne_panicked (hmake : ∀ f, ∃ s, (make f).1 = .ok s)
    (hhook : ∀ h v s p, (hook h v s).1 ≠ .panic p) (state : Tally × Session φ η α) (p : Panic) :
    t.visit c make hook state word ≠ .error (.panicked p) := by
  obtain ⟨s, hs⟩ := hmake state.2.factory
  have hpanic : (t.runner.replay c hook s state.2.hook word).panic = none := by
    rw [Runner.replay_eq_run]
    exact Bench.panic_eq_none hhook _ word
  rcases visit_cases hs hpanic with ⟨-, session, hvisit⟩ | ⟨-, session, hvisit⟩
  · rw [hvisit]
    exact fun h => nomatch h
  · rw [hvisit]
    exact fun h => nomatch h

/-- The session of a test in front of its first word. -/
def opening (t : Tester α) (f : φ) (h : η) : Session φ η α :=
  (Session.start f h).report <|
    .exploring t.settings.order t.settings.steps t.expected.length
      t.settings.toleratesLegacyRemoval

omit [BEq α] in
/-- In front of the first word nothing has been called. -/
theorem calls_opening {make : Factory φ σ} {hook : Hook η σ α} (t : Tester α) (f : φ) (h : η) :
    Session.Calls make hook 0 0 (.start f h) (t.opening f h) :=
  (Session.Calls.refl make hook _).report _

/-- **The account of a test that passed.**  All words of the space were replayed in order and
    succeeded, and the summary adds up what they left on record. -/
structure FinishedWith (t : Tester α) (c : Candidate σ α) (make : Factory φ σ) (hook : Hook η σ α)
    (f : φ) (h : η) (summary : Summary) (last : Session φ η α) : Prop where
  replayed : ∃ records session,
    (t.opening f h).replayAll t.runner c make hook t.space.words = .ok (records, session) ∧
      (∀ record ∈ records, record.isSuccess = true) ∧
      summary.tolerated = (records.map Record.toleratedSteps).sum ∧
      last = session.report (.finished summary.words summary.steps summary.tolerated)
  words : summary.words = t.space.words.length
  count : t.space.count = .ok summary.words
  steps : summary.steps = summary.words * t.settings.steps
  fingerprint : t.space.fingerprint = .ok summary.fingerprint
  calls : Session.Calls make hook summary.words summary.steps (.start f h) last

/-- **The account of a test that diverged.**  The words in front of the reported one were replayed
    in order and succeeded, the reported one failed, and nothing was replayed behind it. -/
structure DivergedWith (t : Tester α) (c : Candidate σ α) (make : Factory φ σ) (hook : Hook η σ α)
    (f : φ) (h : η) (report : FailureReport α) (last : Session φ η α) : Prop where
  replayed : ∃ records session session',
    (t.opening f h).replayAll t.runner c make hook (t.space.words.take report.index) =
        .ok (records, session) ∧
      (∀ record ∈ records, record.isSuccess = true) ∧
      session.replay t.runner c make hook report.record.word = .ok (report.record, session') ∧
      last = session'.report
        (.diverged report.index report.record.word report.record.steps.length)
  word : t.space.words[report.index]? = some report.record.word
  failed : report.record.isSuccess = false
  accepted : ∃ violation, report.violation? = some violation ∧
    report.record.acceptedSteps + (if (Verdict.diverge violation).passedJudge then 0 else 1) =
      report.record.steps.length
  order : report.order = t.settings.order
  calls : Session.Calls make hook (report.index + 1)
    (report.index * t.settings.steps + report.record.acceptedSteps) (.start f h) last

/-- The words of a space that were replayed in a row with success count the same steps each. -/
theorem sum_of_replayAll {f : φ} {h : η} {records : List (Record α)}
    (hws : ∀ word ∈ ws, word ∈ t.space.words)
    (hreplay : (t.opening f h).replayAll t.runner c make hook ws = .ok (records, session))
    (hsuccess : ∀ record ∈ records, record.isSuccess = true) :
    records.length = ws.length ∧
      (records.map (·.steps.length)).sum = ws.length * t.settings.steps ∧
      (records.map Record.acceptedSteps).sum = ws.length * t.settings.steps := by
  have hlen : ∀ word ∈ ws, word.length = t.settings.steps := by
    intro word hmem
    exact (Space.mem_words.mp (hws word hmem)).length
  have hsteps := Session.steps_of_replayAll hreplay hsuccess hlen
  have hlength : records.length = ws.length := by
    rw [← Session.words_of_replayAll hreplay, List.length_map]
  rw [← hlength]
  exact ⟨rfl, Record.sum_map_eq_mul fun record hmem => (hsteps record hmem).1,
    Record.sum_map_eq_mul fun record hmem => (hsteps record hmem).2⟩

omit [BEq α] in
/-- Short words are few. -/
theorem length_words_le (hsteps : t.settings.steps ≤ Settings.maxSteps) :
    t.space.words.length ≤ 3 ^ 16 :=
  Nat.le_trans (Space.length_words_le_three_pow t.space) (Nat.pow_le_pow_right (by decide) hsteps)

theorem finishedWith_of_foldlM (hvalid : t.settings.validate = .ok ()) {f : φ} {h : η}
    (hfold : t.space.words.foldlM (t.visit c make hook) ({}, t.opening f h) =
      .ok (tally, session)) :
    t.FinishedWith c make hook f h tally.summary
      (session.report (.finished tally.words tally.steps tally.tolerated)) := by
  obtain ⟨records, hreplay, hsuccess, rfl⟩ := foldlM_visit_eq_ok hfold
  obtain ⟨hlength, hsteps, haccepted⟩ := sum_of_replayAll (fun _ h => h) hreplay hsuccess
  have hcalls := (calls_opening t f h).trans (Session.calls_replayAll hreplay)
  rw [haccepted, Nat.zero_add, Nat.zero_add] at hcalls
  simp only [Tally.foldl_add, hlength, hsteps, Session.words_of_replayAll hreplay, Nat.zero_add]
  refine ⟨⟨records, session, hreplay, hsuccess, rfl, rfl⟩, rfl, ?_, rfl, ?_, hcalls.report _⟩
  · have hbound := length_words_le (Settings.validate_eq_ok.mp hvalid).1
    exact Space.count_eq_ok.mpr ⟨rfl, Nat.lt_of_le_of_lt hbound (by decide)⟩
  · -- the tally and the space take in the same words, one by one and in the same order
    rw [Space.fingerprint, Space.hashed, Space.fold_eq_foldl (steps_le_frameLimit hvalid)]
    rfl

theorem divergedWith_of_foldlM {f : φ} {h : η} {report : FailureReport α}
    (hfold : t.space.words.foldlM (t.visit c make hook) ({}, t.opening f h) =
      .error (.diverged report session)) :
    t.DivergedWith c make hook f h report session := by
  obtain ⟨ws, word, rest, state, hwords, hbefore, hword⟩ := exists_of_foldlM_eq_error hfold
  obtain ⟨records, hreplay, hsuccess, htally⟩ := foldlM_visit_eq_ok hbefore
  obtain ⟨middle, hlast, hfailed, hindex, horder, hsession⟩ := visit_eq_diverged hword
  have hws : ∀ w ∈ ws, w ∈ t.space.words := by
    intro w hmem
    rw [hwords]
    exact List.mem_append_left _ hmem
  obtain ⟨hlength, -, haccepted⟩ := sum_of_replayAll hws hreplay hsuccess
  -- the index counts the words in front
  have hcount : report.index = ws.length := by
    rw [hindex, htally, Tally.foldl_add, ← hlength]
    exact Nat.zero_add _
  have htake : t.space.words.take report.index = ws := by rw [hcount, hwords, List.take_left]
  -- the replays in front, and the one that failed
  have hcalls := ((calls_opening t f h).trans (Session.calls_replayAll hreplay)).trans
    (Session.calls_replay hlast)
  rw [haccepted, ← hcount, Nat.zero_add, Nat.zero_add] at hcalls
  obtain rfl := Session.word_of_replay hlast
  rw [← hindex] at hsession
  exact
    { replayed :=
        ⟨records, state.2, middle, by rw [htake]; exact hreplay, hsuccess, hlast, hsession⟩
      word := by rw [hwords, hcount, List.getElem?_append_right (Nat.le_refl _), Nat.sub_self]; rfl
      failed := hfailed
      accepted := Session.accepted_of_failed hlast hfailed
      order := horder
      calls := by rw [hsession]; exact hcalls.report _ }

/-- **What a test came to**: the settings were refused, or an exploration went through or stopped
    at a divergence. -/
theorem testWith_eq_ok {f : φ} {h : η} {run : TestRun φ η α}
    (hrun : t.testWith c make hook f h = .ok run) :
    (∃ e, run = ⟨.error (.settings e), .start f h⟩) ∨
      t.settings.validate = .ok () ∧
        ((∃ tally last,
          t.space.words.foldlM (t.visit c make hook) ({}, t.opening f h) = .ok (tally, last) ∧
            run = ⟨.ok tally.summary,
              last.report (.finished tally.words tally.steps tally.tolerated)⟩) ∨
        ∃ report last,
          t.space.words.foldlM (t.visit c make hook) ({}, t.opening f h) =
              .error (.diverged report last) ∧
            run = ⟨.error (.diverged report), last⟩) := by
  rw [testWith] at hrun
  cases hvalid : t.settings.validate with
  | error e =>
      rw [hvalid] at hrun
      exact Or.inl ⟨e, (Except.ok.inj hrun).symm⟩
  | ok _ =>
      rw [hvalid] at hrun
      refine Or.inr ⟨rfl, ?_⟩
      change t.explore c make hook (t.opening f h) = .ok run at hrun
      cases hfold : t.space.words.foldlM (t.visit c make hook) ({}, t.opening f h) with
      | ok state =>
          rw [explore_of_ok hvalid hfold] at hrun
          exact Or.inl ⟨state.1, state.2, rfl, (Except.ok.inj hrun).symm⟩
      | error stop =>
          cases stop with
          | diverged report last =>
              rw [explore_of_diverged hvalid hfold] at hrun
              exact Or.inr ⟨report, last, rfl, (Except.ok.inj hrun).symm⟩
          | panicked p =>
              rw [explore, Space.foldUntil_eq_foldlM (steps_le_frameLimit hvalid), hfold] at hrun
              cases hrun

/-- A summary that a test comes to is that of an exploration that went through. -/
theorem exists_foldlM_of_summary {f : φ} {h : η} {run : TestRun φ η α} {summary : Summary}
    (hrun : t.testWith c make hook f h = .ok run) (hsummary : run.result = .ok summary) :
    t.settings.validate = .ok () ∧ ∃ tally last,
      t.space.words.foldlM (t.visit c make hook) ({}, t.opening f h) = .ok (tally, last) ∧
        tally.summary = summary ∧
        run.session = last.report (.finished tally.words tally.steps tally.tolerated) := by
  rcases testWith_eq_ok hrun with
    ⟨e, rfl⟩ | ⟨hvalid, ⟨tally, last, hfold, rfl⟩ | ⟨report, last, -, rfl⟩⟩
  · exact nomatch hsummary
  · exact ⟨hvalid, tally, last, hfold, Except.ok.inj hsummary, rfl⟩
  · exact nomatch hsummary

/-- A divergence that a test reports stopped its exploration. -/
theorem divergedWith_of_testWith {f : φ} {h : η} {run : TestRun φ η α} {report : FailureReport α}
    (hrun : t.testWith c make hook f h = .ok run)
    (hreport : run.result = .error (.diverged report)) :
    t.DivergedWith c make hook f h report run.session := by
  rcases testWith_eq_ok hrun with
    ⟨e, rfl⟩ | ⟨-, ⟨tally, last, -, rfl⟩ | ⟨report', last, hfold, rfl⟩⟩
  · exact nomatch hreport
  · exact nomatch hreport
  · obtain rfl := TestError.diverged.inj (Except.error.inj hreport)
    exact divergedWith_of_foldlM hfold

omit [BEq α] in
/-- A pass over the words of accepted settings begins, and hands them out in order. -/
theorem exists_pass_of_steps_le (h : t.settings.steps ≤ Settings.maxSteps) :
    ∃ pass, t.space.pass = .ok pass ∧
      ∀ k, Traversal.answer t.space k pass = .ok t.space.words[k]? :=
  Space.emits_words (Nat.le_trans h (by decide))

/-- **The account of a test.**  Settings that are refused end it without a call of the factory or
    of the hook.  Otherwise the words of the pass over its space are replayed in order, up to the
    end of the pass or to the first that fails, and sums and calls are those of these replays. -/
theorem testWith_accounts (t : Tester α) (c : Candidate σ α) {make : Factory φ σ}
    {hook : Hook η σ α} (hmake : ∀ f, ∃ s, (make f).1 = .ok s)
    (hhook : ∀ h v s p, (hook h v s).1 ≠ .panic p) (f : φ) (h : η) :
    (Settings.maxSteps < t.settings.steps →
      t.testWith c make hook f h =
        .ok ⟨.error (.settings (.stepBoundTooLarge t.settings.steps)), .start f h⟩) ∧
    (t.settings.steps ≤ Settings.maxSteps → t.settings.illegalRemovals = true →
      t.settings.features.contains .modifiable = false →
      t.testWith c make hook f h =
        .ok ⟨.error (.settings .illegalRemovalsNeedModifiable), .start f h⟩) ∧
    (t.settings.steps ≤ Settings.maxSteps →
      (t.settings.illegalRemovals = true → t.settings.features.contains .modifiable = true) →
      (∃ pass, t.space.pass = .ok pass ∧
        ∀ k, Traversal.answer t.space k pass = .ok t.space.words[k]?) ∧
      ((∃ summary last, t.testWith c make hook f h = .ok ⟨.ok summary, last⟩ ∧
          t.FinishedWith c make hook f h summary last) ∨
        ∃ report last, t.testWith c make hook f h = .ok ⟨.error (.diverged report), last⟩ ∧
          t.DivergedWith c make hook f h report last)) := by
  refine ⟨fun hlong => ?_, fun hsteps hillegal hread => ?_, fun hsteps hlegal => ?_⟩
  · rw [testWith, Settings.validate, if_pos hlong]
  · rw [testWith, Settings.validate, if_neg (Nat.not_lt.mpr hsteps), hillegal, hread]
    rfl
  · refine ⟨exists_pass_of_steps_le hsteps, ?_⟩
    have hvalid : t.settings.validate = .ok () := Settings.validate_eq_ok.mpr ⟨hsteps, hlegal⟩
    rw [testWith, hvalid]
    show (∃ summary last, t.explore c make hook (t.opening f h) = _ ∧ _) ∨
      ∃ report last, t.explore c make hook (t.opening f h) = _ ∧ _
    cases hfold : t.space.words.foldlM (t.visit c make hook) ({}, t.opening f h) with
    | ok state =>
        exact Or.inl ⟨_, _, explore_of_ok hvalid hfold, finishedWith_of_foldlM hvalid hfold⟩
    | error stop =>
        cases stop with
        | diverged report last =>
            exact Or.inr
              ⟨report, last, explore_of_diverged hvalid hfold, divergedWith_of_foldlM hfold⟩
        | panicked p =>
            -- some word would have stopped at the panic
            obtain ⟨-, word, -, state, -, -, hvisit⟩ := exists_of_foldlM_eq_error hfold
            exact absurd hvisit (visit_ne_panicked hmake hhook state p)

/-- A test of the cursor with a factory and a hook that number their calls. -/
theorem testWith_accounts_counted :
    let t : Tester Nat := ⟨[7], { order := .determinate, steps := 2 }⟩
    let make : Factory Nat (Cursor Nat) := fun f => (.ok (.ofList [7]), f + 1)
    let hook : Hook Nat (Cursor Nat) Nat := fun h _ _ => (.accept, h + 1)
    (∀ f, ∃ s, (make f).1 = .ok s) ∧ (∀ h v s p, (hook h v s).1 ≠ .panic p) ∧
      ∃ summary last, t.testWith Cursor.candidate make hook 0 0 = .ok ⟨.ok summary, last⟩ ∧
        t.FinishedWith Cursor.candidate make hook 0 0 summary last ∧
        last.factory = 5 ∧ last.hook = 10 := by
  intro t make hook
  have hmake : ∀ f, ∃ s, (make f).1 = .ok s := fun _ => ⟨_, rfl⟩
  have hhook : ∀ h v s p, (hook h v s).1 ≠ .panic p := fun _ _ _ _ h => nomatch h
  refine ⟨hmake, hhook, ?_⟩
  obtain ⟨-, -, haccount⟩ := testWith_accounts t Cursor.candidate hmake hhook 0 0
  obtain ⟨-, ⟨summary, last, hrun, hfinished⟩ | ⟨report, last, hrun, -⟩⟩ :=
    haccount (by decide) (fun h => nomatch h)
  · have hwords : summary.words = 5 := hfinished.words.trans (by decide)
    have hsteps : summary.steps = 10 := by rw [hfinished.steps, hwords]; rfl
    have hmade := hfinished.calls.counted_made id fun _ => rfl
    have hshown := hfinished.calls.counted_shown id fun _ _ _ => rfl
    rw [hwords] at hmade
    rw [hsteps] at hshown
    exact ⟨summary, last, hrun, hfinished, hmade, hshown⟩
  · obtain ⟨state, hfold⟩ : ∃ state, t.space.words.foldlM (t.visit Cursor.candidate make hook)
        ({}, t.opening 0 0) = .ok state := ⟨_, rfl⟩
    have hok : t.testWith Cursor.candidate make hook 0 0 = _ := explore_of_ok rfl hfold
    exact nomatch hok.symm.trans hrun

end Tester

end Lockstep
