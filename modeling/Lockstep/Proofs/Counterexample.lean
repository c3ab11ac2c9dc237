import Lockstep.Proofs.Accounts

/-!
# The counterexample of a test

A test stops at the first word that fails, and the words of its space ascend.  If all candidates
begin alike and the hook judges by the view alone, then a replay is a function of its word, and
the reported word is the least legal one that fails.

The heart is that it is also least in what follows the divergence.  Nothing behind the executed
prefix was ever called, a production is the least operation, and no space leaves productions out:
so with productions in place of the rest the word would be legal, would fail as well, and would
come no later.

* **`Space.Legal.fill`** — productions may take the place of any end of a legal word.
* **`Bench.not_passes_of_executed_isPrefix`**, **`Bench.passes_of_prefix_of_executed`** — the
  executed prefix is the least one that fails.
* **`Tester.counterexample_canonical`** — the reported word among all words of the space.
-/

namespace Lockstep

universe u v w

/-! ## Least words -/

/-- No word comes before the productions of its length. -/
theorem Word.replicate_produceNext_le (u : Word) :
    List.replicate u.length .produceNext = u ∨ List.replicate u.length .produceNext < u := by
  induction u with
  | nil => exact Or.inl rfl
  | cons op u ih =>
      rw [List.length_cons, List.replicate_succ]
      by_cases hop : op = .produceNext
      · subst hop
        exact ih.imp (congrArg _) List.Lex.cons
      · have hlt : Operation.produceNext < op := by cases op <;> first | decide | contradiction
        exact Or.inr (List.Lex.rel hlt)

namespace Space

variable {space : Space}

/-- What is smaller than a word of a space stands in front of it. -/
theorem mem_take_of_lt {v w : Word} {i : Nat} (hw : space.words[i]? = some w)
    (hv : v ∈ space.words) (hlt : v < w) : v ∈ space.words.take i := by
  obtain ⟨hi, hget⟩ := List.getElem?_eq_some_iff.mp hw
  have hsplit : space.words = space.words.take i ++ w :: space.words.drop (i + 1) := by
    rw [← hget, ← List.drop_eq_getElem_cons hi, List.take_append_drop]
  have hascend := words_pairwise_lt space
  rw [hsplit] at hv hascend
  rcases List.mem_append.mp hv with hv | hv
  · exact hv
  · obtain ⟨-, hbehind, -⟩ := List.pairwise_append.mp hascend
    rcases List.mem_cons.mp hv with rfl | hv
    · exact absurd hlt (List.lt_asymm hlt)
    · exact absurd (List.rel_of_pairwise_cons hbehind hv) (List.lt_asymm hlt)

/-- **Productions may take the place of any end** of a legal word. -/
theorem Legal.fill {u v : Word} (h : space.Legal (u ++ v)) :
    space.Legal (u ++ List.replicate v.length .produceNext) := by
  obtain ⟨hlen, hperm⟩ := permitted_initial_iff.mpr h
  refine permitted_initial_iff.mp ⟨?_, ?_⟩
  · rw [← hlen, List.length_append, List.length_append, List.length_replicate]
  · exact permitted_append.mpr
      ⟨(permitted_append.mp hperm).1, permitted_replicate_produceNext space _ _ _⟩

end Space

/-! ## The executed prefix -/

namespace Bench

variable {σ : Type u} {α : Type v} {η : Type w} [BEq α] {b : Bench σ α η} {k : Checkpoint σ α η}
  {u v w : Word}

/-- Whatever begins with the executed prefix of a failed replay fails. -/
theorem not_passes_of_executed_isPrefix (h : ((b.run k w).record w).isSuccess = false)
    (hv : ((b.run k w).record w).executed <+: v) : ¬ (b.run k v).Passes v := by
  obtain ⟨i, k', op, hsteps, hreach, hop, hnext⟩ := exists_stop h
  have hexecuted : ((b.run k w).record w).executed = w.take (i + 1) := congrArg w.take hsteps
  rw [hexecuted] at hv
  intro hpasses
  obtain ⟨k₂, hk₂⟩ := (passes_iff_reach v).mp hpasses
  -- a way through `v` would lead through the step that diverged
  obtain ⟨k₁, hk₁⟩ := exists_reach_of_isPrefix hv hk₂
  rw [reach_take_succ hop, hreach] at hk₁
  exact nomatch hnext.symm.trans hk₁

/-- Whatever is shorter than the executed prefix of a failed replay passes. -/
theorem passes_of_prefix_of_executed (h : ((b.run k w).record w).isSuccess = false)
    (hu : u <+: ((b.run k w).record w).executed) (hne : u ≠ ((b.run k w).record w).executed) :
    (b.run k u).Passes u := by
  obtain ⟨i, k', op, hsteps, hreach, hop, -⟩ := exists_stop h
  have hexecuted : ((b.run k w).record w).executed = w.take (i + 1) := congrArg w.take hsteps
  rw [hexecuted] at hu hne
  have hlt : u.length < (w.take (i + 1)).length := by
    refine Nat.lt_of_le_of_ne hu.length_le ?_
    intro hlength
    exact hne (hu.eq_of_length hlength)
  have hshort : u <+: w.take i := by
    obtain ⟨hinitial, -⟩ := List.prefix_take_iff.mp hu
    rw [List.length_take] at hlt
    exact List.prefix_take_iff.mpr ⟨hinitial, by omega⟩
  exact (passes_iff_reach u).mpr (exists_reach_of_isPrefix hshort hreach)

end Bench

/-! ## The reported word -/

namespace Tester

variable {φ : Type u} {α : Type v} {σ : Type w} [BEq α] {t : Tester α} {c : Candidate σ α} {s : σ}
  {make : Factory φ σ} {check : View α → HookAnswer} {f : φ} {report : FailureReport α}
  {last : Session φ Unit α}

section

variable (hmake : ∀ f, (make f).1 = .ok s)
  (hdiverged : t.DivergedWith c make (Hook.ofView check) f () report last)

include hmake hdiverged

/-- The record of the report is that of a replay by itself. -/
theorem record_of_diverged :
    report.record =
      (t.runner.replay c (Hook.ofView check) s () report.record.word).record report.record.word := by
  obtain ⟨records, session, session', -, -, hreplay, -⟩ := hdiverged.replayed
  obtain ⟨s', f', hmade, -, hrecord, -⟩ := Session.replay_eq_ok hreplay
  have hstart := hmake session.factory
  rw [hmade] at hstart
  rw [← Except.ok.inj hstart]
  exact hrecord

/-- **No smaller word fails.** -/
theorem passes_of_lt_diverged {word : Word} (hlegal : t.space.Legal word)
    (hlt : word < report.record.word) :
    (t.runner.replay c (Hook.ofView check) s () word).Passes word := by
  obtain ⟨records, session, session', hreplays, hsuccess, -, -⟩ := hdiverged.replayed
  have hmem := Space.mem_take_of_lt hdiverged.word (Space.mem_words.mpr hlegal) hlt
  obtain ⟨s', f₁, f₂, h, hmade, hpasses⟩ := Session.passes_of_replayAll hreplays hsuccess hmem
  have hstart := hmake f₁
  rw [hmade] at hstart
  rw [← Except.ok.inj hstart]
  exact hpasses

/-- What begins with the executed prefix of the report fails. -/
theorem not_passes_of_executed_diverged {word : Word} (hword : report.record.executed <+: word) :
    ¬ (t.runner.replay c (Hook.ofView check) s () word).Passes word := by
  have hfailed := hdiverged.failed
  rw [record_of_diverged hmake hdiverged] at hfailed hword
  rw [Runner.replay_eq_run] at hfailed hword ⊢
  exact Bench.not_passes_of_executed_isPrefix hfailed hword

/-- What is shorter than the executed prefix of the report passes. -/
theorem passes_of_prefix_diverged {word : Word} (hword : word <+: report.record.executed)
    (hne : word ≠ report.record.executed) :
    (t.runner.replay c (Hook.ofView check) s () word).Passes word := by
  have hfailed := hdiverged.failed
  rw [record_of_diverged hmake hdiverged] at hfailed hword hne
  rw [Runner.replay_eq_run] at hfailed hword hne ⊢
  exact Bench.passes_of_prefix_of_executed hfailed hword hne

/-- **The reported word is the executed prefix, filled up with productions.**  The word so filled
    is legal and fails, so it cannot be the smaller one. -/
theorem word_of_diverged :
    report.record.word = report.record.executed ++
      List.replicate (t.settings.steps - report.record.executed.length) .produceNext := by
  have hlegal : t.space.Legal report.record.word :=
    Space.mem_words.mp (List.mem_of_getElem? hdiverged.word)
  obtain ⟨rest, hrest⟩ : report.record.executed <+: report.record.word := List.take_prefix _ _
  have hlen : t.settings.steps - report.record.executed.length = rest.length := by
    have hsteps : report.record.word.length = t.settings.steps := hlegal.length
    rw [← hsteps, ← hrest, List.length_append, Nat.add_sub_cancel_left]
  rw [hlen]
  rcases Word.replicate_produceNext_le rest with hfilled | hsmaller
  · rw [hfilled, hrest]
  · -- the filled word would stand in front of the reported one
    rw [← hrest] at hlegal
    have hlt : report.record.executed ++ List.replicate rest.length .produceNext <
        report.record.executed ++ rest := List.append_left_lt hsmaller
    rw [hrest] at hlt
    have hpasses := passes_of_lt_diverged hmake hdiverged hlegal.fill hlt
    exact absurd hpasses
      (not_passes_of_executed_diverged hmake hdiverged (List.prefix_append _ _))

end

/-- **The counterexample is canonical.**  The reported word is its executed prefix with nothing but
    productions behind; every smaller word of the space passes; and of the initial segments of
    the executed prefix all pass but the whole. -/
theorem counterexample_canonical (t : Tester α) (c : Candidate σ α)
    (hmake : ∀ f, (make f).1 = .ok s) (check : View α → HookAnswer) (f : φ)
    {run : TestRun φ Unit α} (hrun : t.testWith c make (Hook.ofView check) f () = .ok run)
    (hreport : run.result = .error (.diverged report)) :
    report.record.word = report.record.executed ++
        List.replicate (t.settings.steps - report.record.executed.length) .produceNext ∧
      (∀ word, t.space.Legal word → word < report.record.word →
        (t.runner.replay c (Hook.ofView check) s () word).Passes word) ∧
      ∀ word, word <+: report.record.executed →
        ((t.runner.replay c (Hook.ofView check) s () word).Passes word ↔
          word ≠ report.record.executed) := by
  have hdiverged := divergedWith_of_testWith hrun hreport
  refine ⟨word_of_diverged hmake hdiverged, ?_, ?_⟩
  · intro word hlegal hlt
    exact passes_of_lt_diverged hmake hdiverged hlegal hlt
  · intro word hword
    constructor
    · rintro hpasses rfl
      exact not_passes_of_executed_diverged hmake hdiverged (List.prefix_refl _) hpasses
    · intro hne
      exact passes_of_prefix_diverged hmake hdiverged hword hne

/-- The test of a cursor that denies to have any element.  It is found out where `hasMore` is
    asked first. -/
theorem counterexample_canonical_hasMore :
    let t : Tester Nat := ⟨[7], { order := .determinate, steps := 2 }⟩
    let c : Candidate (Cursor Nat) Nat :=
      { Cursor.candidate with hasMore := fun s => (.value false, s) }
    let make : Factory Unit (Cursor Nat) := Factory.constant (.ofList [7])
    let hook : Hook Unit (Cursor Nat) Nat := Hook.ofView fun _ => .accept
    (∀ f, (make f).1 = .ok (.ofList [7])) ∧
      ∃ run report, t.testWith c make hook () () = .ok run ∧
        run.result = .error (.diverged report) ∧
        report.record.executed = [.hasMore] ∧ report.record.word = [.hasMore, .produceNext] ∧
        (∀ word, t.space.Legal word → word < [.hasMore, .produceNext] →
          (t.runner.replay c hook (.ofList [7]) () word).Passes word) ∧
        ∀ word, word <+: [.hasMore] →
          ((t.runner.replay c hook (.ofList [7]) () word).Passes word ↔ word ≠ [.hasMore]) := by
  intro t c make hook
  have hrun : t.explore c make hook (t.opening () ()) = _ := explore_of_diverged rfl rfl
  refine ⟨fun _ => rfl, _, _, hrun, rfl, rfl, ?_⟩
  exact counterexample_canonical t c (fun _ => rfl) (fun _ => .accept) () hrun rfl

end Tester

end Lockstep
