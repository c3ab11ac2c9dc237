import Lockstep.Proofs.Trial

/-!
# Wider settings find no less

A space holds words of one length only, so the words of a narrow space are not among those of a
wider one.  Their initial segments are: a legal word of the narrow space, filled up with
productions, is a legal word of the wide one, and a trial that gets through the longer word gets
through the shorter.  So a test that passes under wide settings passes under narrow ones, and a
candidate that is found out under narrow settings is found out under wide ones.

* **`Settings.Within.legal`** — legal words extend to legal words.
* **`Tester.detection_mono`** — nothing that narrow settings detect is lost by wider ones.
-/

namespace Lockstep

universe u v w

/-- The settings `a` are **within** the settings `b`: they judge alike, and whatever `a` explores
    is explored by `b` too.  No cap counts as an infinite one. -/
structure Settings.Within (a b : Settings) : Prop where
  order : a.order = b.order
  tolerance : a.toleratesLegacyRemoval = b.toleratesLegacyRemoval
  steps : a.steps ≤ b.steps
  features : ∀ f, a.features.contains f = true → b.features.contains f = true
  illegalRemovals : a.illegalRemovals = true → b.illegalRemovals = true
  removalCap : ∀ cap, b.removalCap = some cap → ∃ c, a.removalCap = some c ∧ c ≤ cap

namespace Settings.Within

variable {a b : Settings} {n : Nat}

/-- What the narrow space permits, the wide one permits at the same place. -/
theorem permits (h : a.Within b) {s : Shape} {op : Operation} {r : Nat}
    (hop : (a.space n).permits s op r = true) : (b.space n).permits s op r = true := by
  by_cases hremove : op = .removeLast
  · subst hremove
    rw [Space.permits_removeLast_iff] at hop ⊢
    obtain ⟨hmod, hcap, hmark⟩ := hop
    refine ⟨h.features .modifiable hmod, ?_, ?_⟩
    · intro cap hb
      obtain ⟨c, ha, hle⟩ := h.removalCap cap hb
      exact Nat.lt_of_lt_of_le (hcap c ha) hle
    · intro hb
      refine hmark ?_
      show a.illegalRemovals = false
      cases ha : a.illegalRemovals with
      | false => rfl
      | true => exact (h.illegalRemovals ha).symm.trans hb
  · exact Space.permits_of_ne_removeLast hremove _ _ _

/-- **Legal words extend to legal words.** -/
theorem legal (h : a.Within b) {word : Word} (hlegal : (a.space n).Legal word) :
    (b.space n).Legal (word ++ List.replicate (b.steps - a.steps) .produceNext) := by
  obtain ⟨hlen, hperm⟩ := Space.permitted_initial_iff.mpr hlegal
  refine Space.permitted_initial_iff.mp ⟨?_, Space.permitted_append.mpr ⟨?_, ?_⟩⟩
  · have hsteps : a.steps ≤ b.steps := h.steps
    rw [List.length_append, List.length_replicate, hlen]
    show a.steps + (b.steps - a.steps) = b.steps
    omega
  · intro i op hi
    exact h.permits (hperm i op hi)
  · exact Space.permitted_replicate_produceNext _ _ _ _

end Settings.Within

namespace Tester

variable {φ : Type u} {α : Type v} {σ : Type w} [BEq α] {s : σ} {make : Factory φ σ}
  {check : View α → HookAnswer} {a b : Settings} {expected : List α} {c : Candidate σ α}

/-- A trial that gets through a word gets through its initial segments. -/
theorem passes_of_isPrefix {t : Tester α} {u word : Word} (hinitial : u <+: word)
    (h : (t.trial c s check word).Passes word) : (t.trial c s check u).Passes u := by
  rw [trial, Runner.replay_eq_run] at h ⊢
  obtain ⟨k, hreach⟩ := (Bench.passes_iff_reach word).mp h
  exact (Bench.passes_iff_reach u).mpr (Bench.exists_reach_of_isPrefix hinitial hreach)

/-- Settings that judge alike have the same trials. -/
theorem trial_eq_of_within (hab : a.Within b) (word : Word) :
    (Tester.mk expected a).trial c s check word = (Tester.mk expected b).trial c s check word := by
  have hrunner : (Tester.mk expected a).runner = (Tester.mk expected b).runner := by
    show Runner.mk expected a.order ⟨a.toleratesLegacyRemoval⟩ = _
    rw [hab.order, hab.tolerance]
    rfl
  rw [trial, trial, hrunner]

/-- What passes under wide settings passes under narrow ones. -/
theorem passed_of_within (ha : a.validate = .ok ()) (hb : b.validate = .ok ()) (hab : a.Within b)
    (hmake : ∀ f, (make f).1 = .ok s) {f g : φ}
    (h : ∃ run, (Tester.mk expected b).testWith c make (Hook.ofView check) g () = .ok run ∧
      run.Passed) :
    ∃ run, (Tester.mk expected a).testWith c make (Hook.ofView check) f () = .ok run ∧
      run.Passed := by
  rw [passes_iff_trials hb hmake] at h
  rw [passes_iff_trials ha hmake]
  intro word hlegal
  have hwide := h _ (hab.legal hlegal)
  rw [trial_eq_of_within hab]
  exact passes_of_isPrefix (List.prefix_append _ _) hwide

/-- **Detection is monotone.**  What passes under wide settings passes under narrow ones.  With a
    hook that does not panic both tests come to a result, and a divergence under the narrow
    settings is one under the wide ones, if perhaps another. -/
theorem detection_mono (expected : List α) (ha : a.validate = .ok ()) (hb : b.validate = .ok ())
    (hab : a.Within b) (c : Candidate σ α) (hmake : ∀ f, (make f).1 = .ok s)
    (check : View α → HookAnswer) (f g : φ) :
    let narrow := (Tester.mk expected a).testWith c make (Hook.ofView check) f ()
    let wide := (Tester.mk expected b).testWith c make (Hook.ofView check) g ()
    ((∃ run, wide = .ok run ∧ run.Passed) → ∃ run, narrow = .ok run ∧ run.Passed) ∧
      ((∀ v p, check v ≠ .panic p) →
        ∃ run run', narrow = .ok run ∧ wide = .ok run' ∧
          ((∃ report, run.result = .error (.diverged report)) →
            ∃ report, run'.result = .error (.diverged report))) := by
  intro narrow wide
  have hpassed : (∃ run, wide = .ok run ∧ run.Passed) → ∃ run, narrow = .ok run ∧ run.Passed :=
    passed_of_within ha hb hab hmake
  refine ⟨hpassed, ?_⟩
  intro hcheck
  obtain ⟨run, hrun, -⟩ :=
    exists_result (t := ⟨expected, a⟩) ha hmake hcheck c f
  obtain ⟨run', hrun', hresult⟩ :=
    exists_result (t := ⟨expected, b⟩) hb hmake hcheck c g
  refine ⟨run, run', hrun, hrun', ?_⟩
  rintro ⟨report, hreport⟩
  rcases hresult with hwide | hdiverged
  · -- the narrow test would have passed as well
    obtain ⟨run₁, hrun₁, summary, hsummary⟩ := hpassed ⟨run', hrun', hwide⟩
    rw [Except.ok.inj (hrun.symm.trans hrun₁)] at hreport
    exact nomatch hreport.symm.trans hsummary
  · exact hdiverged

/-- A cursor that denies to have any element is found out with two operations, and so with three
    and refused removals among them. -/
theorem detection_mono_hasMore :
    let a : Settings := { order := .determinate, steps := 2, removalCap := some 1 }
    let b : Settings := { order := .determinate, steps := 3, illegalRemovals := true }
    let c : Candidate (Cursor Nat) Nat :=
      { Cursor.candidate with hasMore := fun s => (.value false, s) }
    let make : Factory Unit (Cursor Nat) := Factory.constant (.ofList [7])
    let hook : Hook Unit (Cursor Nat) Nat := Hook.ofView fun _ => .accept
    a.validate = .ok () ∧ b.validate = .ok () ∧ a.Within b ∧
      (∀ f, (make f).1 = .ok (.ofList [7])) ∧
      (∃ run report, (Tester.mk [7] a).testWith c make hook () () = .ok run ∧
        run.result = .error (.diverged report)) ∧
      ∃ run report, (Tester.mk [7] b).testWith c make hook () () = .ok run ∧
        run.result = .error (.diverged report) := by
  intro a b c make hook
  have hab : a.Within b :=
    ⟨rfl, rfl, by decide, fun _ h => h, fun _ => rfl, fun _ h => nomatch h⟩
  have hnarrow : (Tester.mk [7] a).explore c make hook ((Tester.mk [7] a).opening () ()) = _ :=
    explore_of_diverged rfl rfl
  have hmake : ∀ f, (make f).1 = .ok (.ofList [7]) := fun _ => rfl
  obtain ⟨run, run', hrun, hrun', hfound⟩ :=
    (detection_mono [7] rfl rfl hab c hmake (fun _ => .accept) () ()).2 (fun _ _ h => nomatch h)
  obtain rfl := Except.ok.inj (hrun.symm.trans hnarrow)
  obtain ⟨report, hreport⟩ := hfound ⟨_, rfl⟩
  exact ⟨rfl, rfl, hab, hmake, ⟨_, _, hnarrow, rfl⟩, run', report, hrun', hreport⟩

end Tester

end Lockstep
