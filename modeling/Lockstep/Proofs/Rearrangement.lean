import Lockstep.Proofs.Coupling
import Lockstep.Proofs.Order

/-!
# The expected elements as a multiset

In any order it does not matter how the expected elements are listed.  The reference keeps the
pending ones in a list and takes the first that is equal, so that two listings evolve through lists
in different orders; but with lawful equality both give away the same element, and what is pending
stays the same up to its order (`Reference.Rearranges.settle`).

* **`Bench.inStep_of_rearranges`** — one step from two listings.
* **`Tester.test_rearranged`** — replays and tests from two listings.
-/

namespace Lockstep

universe u v w

variable {φ : Type u} {α : Type v} {σ : Type w}

/-- Two checkpoints differ only in the order of the pending elements. -/
structure Checkpoint.Rearranges (k k' : Checkpoint σ α Unit) : Prop where
  index : k'.index = k.index
  reference : k.reference.Rearranges k'.reference
  previous : k'.previous = k.previous
  candidate : k'.candidate = k.candidate

variable [BEq α] [LawfulBEq α]

namespace Bench

variable {b : Bench σ α Unit} {k k' : Checkpoint σ α Unit}

/-- **One step from two listings.**  The hook has to accept every view, because it would see the
    listing. -/
theorem inStep_of_rearranges (hhook : b.hook = Hook.accepting) (hk : k.Rearranges k')
    (op : Operation) :
    InStep Expectation.Rearranges Eq View.Rearranges b b k k' op ∧
      ((b.verdict k op).isAcceptable = true → (b.behind k op).Rearranges (b.behind k' op)) := by
  have hexpected := hk.reference.predict op
  have houtcome : b.outcome k' op = b.outcome k op := by
    rw [outcome, outcome, hk.candidate]
  have hverdict : b.verdict k' op = b.verdict k op := by
    rw [verdict, verdict, houtcome, hk.previous]
    exact Judge.judge_of_rearranges hexpected _ _ _
  have hsettled : (b.verdict k op).isAcceptable = true →
      (b.settled k op).Rearranges (b.settled k' op) := by
    intro hv
    rw [settled, settled, houtcome, hverdict]
    exact hk.reference.settle hv
  have hcalled : b.called k' op = b.called k op := by
    rw [called, called, hhook]
    rfl
  constructor
  · exact ⟨hk.index, rfl, hexpected, houtcome.symm, hverdict, fun hv => (hsettled hv).view,
      fun _ => hcalled⟩
  · intro hv
    refine ⟨congrArg (· + 1) hk.index, hsettled hv, congrArg some houtcome, ?_⟩
    show (b.candidate.perform op k'.candidate).2 = (b.candidate.perform op k.candidate).2
    rw [hk.candidate]

end Bench

variable {xs ys : List α}

theorem Runner.replay_rearranged (hperm : xs.Perm ys) (judge : Judge) (c : Candidate σ α) (s : σ)
    (w : Word) :
    (Runner.replay ⟨xs, .indeterminate, judge⟩ c Hook.accepting s () w).Alike
      Expectation.Rearranges Eq View.Rearranges
      (Runner.replay ⟨ys, .indeterminate, judge⟩ c Hook.accepting s () w) := by
  rw [Runner.replay_eq_run, Runner.replay_eq_run]
  refine Bench.run_alike (R := Checkpoint.Rearranges) ?_ ?_ w
  · intro k k' op hk
    exact Bench.inStep_of_rearranges rfl hk op
  · exact ⟨rfl, Reference.rearranges_initial hperm, rfl, rfl⟩

/-- **In any order only the multiset counts.**  Two listings of the expected elements lead to the
    same steps, outcomes and verdicts, with the same expectations and views up to the order of what
    is pending.  So two tests come to the same summary, or diverge at the same word in the same
    step. -/
theorem Tester.test_rearranged (hperm : xs.Perm ys) (c : Candidate σ α) :
    (∀ judge s w,
      (Runner.replay ⟨xs, .indeterminate, judge⟩ c Hook.accepting s () w).Alike
        Expectation.Rearranges Eq View.Rearranges
        (Runner.replay ⟨ys, .indeterminate, judge⟩ c Hook.accepting s () w)) ∧
    ∀ settings : Settings, settings.order = .indeterminate → ∀ (make : Factory φ σ) f,
      EndAlike Eq (TestRun.Alike Eq Expectation.Rearranges Eq View.Rearranges)
        (Tester.test ⟨xs, settings⟩ c make f) (Tester.test ⟨ys, settings⟩ c make f) := by
  constructor
  · intro judge s w
    exact Runner.replay_rearranged hperm judge c s w
  · intro settings horder make f
    have hspace : Tester.space ⟨ys, settings⟩ = Tester.space ⟨xs, settings⟩ :=
      congrArg settings.space hperm.length_eq.symm
    refine Tester.testWith_alike hspace (Factory.Alike.refl make) ?_ rfl rfl ()
    rintro s _ ⟨⟩ w rfl
    rw [Tester.runner, Tester.runner, horder]
    exact Runner.replay_rearranged hperm _ c s w

/-- Two listings with a duplicate, against a cursor that lacks it: both tests diverge. -/
theorem Tester.test_rearranged_diverged :
    let settings : Settings := { order := .indeterminate, steps := 3 }
    let t : Tester Nat := ⟨[1, 2, 1], settings⟩
    let t' : Tester Nat := ⟨[1, 1, 2], settings⟩
    let make := Factory.constant (Cursor.ofList [2, 1, 3])
    [1, 2, 1].Perm [1, 1, 2] ∧ settings.order = .indeterminate ∧
      ∃ run run' report report', t.test Cursor.candidate make () = .ok run ∧
        t'.test Cursor.candidate make () = .ok run' ∧
        run.result = .error (.diverged report) ∧ run'.result = .error (.diverged report') ∧
        report.Alike Expectation.Rearranges Eq report' := by
  intro settings t t' make
  have hperm : [1, 2, 1].Perm [1, 1, 2] := by decide
  have halike := (Tester.test_rearranged hperm Cursor.candidate).2 settings rfl make ()
  obtain ⟨report, session, hfold⟩ : ∃ report session,
      t.space.words.foldlM (t.visit Cursor.candidate make Hook.accepting) ({}, t.opening () ()) =
        .error (.diverged report session) := ⟨_, _, rfl⟩
  have hrun : t.test Cursor.candidate make () = .ok ⟨.error (.diverged report), session⟩ :=
    Tester.explore_of_diverged rfl hfold
  obtain ⟨run', hrun', hruns⟩ := halike.exists_of_ok hrun
  have hresult := hruns.result
  generalize hreport' : run'.result = result' at hresult
  cases hresult with
  | error herror =>
      cases herror with
      | diverged h => exact ⟨hperm, rfl, _, run', report, _, hrun, hrun', rfl, hreport', h⟩

end Lockstep
