import Lockstep.Candidate.Cursor
import Lockstep.Proofs.Coupling

/-!
# The texts of faults

A fault carries its kind, the name of a subordinate kind and a message.  The judge looks at the kind
alone; name and message are for the reader.  So two candidates that differ only in these texts cannot
be told apart by a test: not by its verdicts, nor by the warnings, the calls of the hook or the word
it stops at.

`Outcome.bare` takes the texts off an outcome.  The heart is that the judge says the same of bare
outcomes (`Judge.judge_bare`), where the outcome of the step before has to be taken bare too, since
a tolerated removal depends on it.

* **`Bench.inStep_of_texts`** — one step of two candidates.
* **`Candidate.alikeButTexts_reworded`** — a candidate, and the same one with other texts.
* **`Tester.texts_never_decide`** — replays and tests of two candidates.
-/

namespace Lockstep

universe u v w x y z

variable {φ : Type u} {φ' : Type v} {η : Type w} {α : Type x} {σ : Type y} {σ' : Type z}

/-! ## Outcomes without texts -/

/-- The fault without its texts. -/
def Fault.bare (f : Fault) : Fault := { kind := f.kind, message := "" }

/-- The outcome without the texts of its fault. -/
def Outcome.bare : Outcome α → Outcome α
  | failed f => failed f.bare
  | o => o

/-- Two outcomes are the same but for the texts of their faults. -/
def Outcome.SameButTexts (o o' : Outcome α) : Prop := o'.bare = o.bare

theorem Outcome.element?_bare (o : Outcome α) : o.bare.element? = o.element? := by
  cases o <;> rfl

theorem Judge.isLegacyRemoval_bare (j : Judge) (raised : FaultKind)
    (previous : Option (Outcome α)) :
    j.isLegacyRemoval raised (previous.map Outcome.bare) = j.isLegacyRemoval raised previous := by
  rcases previous with - | o
  · rfl
  · cases o <;> rfl

/-- **The judge reads no texts**, neither of the outcome nor of the one before it. -/
theorem Judge.judge_bare [BEq α] (j : Judge) (expected : Expectation α) (actual : Outcome α)
    (previous : Option (Outcome α)) :
    j.judge expected actual.bare (previous.map Outcome.bare) = j.judge expected actual previous := by
  cases actual with
  | failed f =>
      cases expected with
      | removed =>
          show (if j.isLegacyRemoval f.kind (previous.map Outcome.bare) then _ else _) = _
          rw [isLegacyRemoval_bare]
          rfl
      | hasMore more => rfl
      | element x => rfl
      | anyOf xs => rfl
      | fault kind => rfl
  | hasMore more => cases expected <;> rfl
  | produced x => cases expected <;> rfl
  | removed => cases expected <;> rfl

namespace Outcome.SameButTexts

variable {o o' : Outcome α}

theorem judge [BEq α] (h : o.SameButTexts o') {previous previous' : Option (Outcome α)}
    (hprevious : previous'.map bare = previous.map bare) (j : Judge) (expected : Expectation α) :
    j.judge expected o' previous' = j.judge expected o previous := by
  rw [← j.judge_bare expected o', ← j.judge_bare expected o, hprevious, h]

/-- A reference moves on by the element observed, and a fault has none. -/
theorem settle [BEq α] (h : o.SameButTexts o') (r : Reference α) (op : Operation) (v : Verdict) :
    r.settle op o' v = r.settle op o v := by
  have helement : o'.element? = o.element? := by
    rw [← element?_bare o', ← element?_bare o, h]
  rw [Reference.settle.eq_def, Reference.settle.eq_def, helement]

end Outcome.SameButTexts

/-! ## Two candidates -/

/-- Two candidates are **alike but for texts** from two states on: the calls of any word have the
    same outcomes but for the texts of faults, and the hooks answer the same on what these calls
    leave behind.  A hook that looks at the view alone does that anyway; one that looks at the
    candidate could read a text there. -/
structure Candidate.AlikeButTexts (c : Candidate σ α) (hook : Hook η σ α) (c' : Candidate σ' α)
    (hook' : Hook η σ' α) (s : σ) (s' : σ') : Prop where
  outcomes : ∀ w, List.Forall₂ Outcome.SameButTexts (c.outcomes s w) (c'.outcomes s' w)
  answers : ∀ w h view, hook' h view (c'.stateAfter s' w) = hook h view (c.stateAfter s w)

namespace Candidate.AlikeButTexts

variable {c : Candidate σ α} {hook : Hook η σ α} {c' : Candidate σ' α} {hook' : Hook η σ' α} {s : σ}
  {s' : σ'}

theorem outcome (h : c.AlikeButTexts hook c' hook' s s') (op : Operation) :
    (c.perform op s).1.SameButTexts (c'.perform op s').1 :=
  (List.forall₂_cons.mp (h.outcomes [op])).1

/-- One call leaves them alike. -/
theorem perform (h : c.AlikeButTexts hook c' hook' s s') (op : Operation) :
    c.AlikeButTexts hook c' hook' (c.perform op s).2 (c'.perform op s').2 where
  outcomes w := (List.forall₂_cons.mp (h.outcomes (op :: w))).2
  answers w := h.answers (op :: w)

end Candidate.AlikeButTexts

/-! ## Other words for the same faults -/

/-- A reply with its fault in other words.  A panic keeps its message. -/
def Reply.reworded {β : Type w} (f : Fault → Fault) : Reply β → Reply β
  | fault e => fault (f e)
  | reply => reply

/-- The candidate with its faults in other words. -/
def Candidate.reworded (c : Candidate σ α) (f : Fault → Fault) : Candidate σ α where
  hasMore s := ((c.hasMore s).1.reworded f, (c.hasMore s).2)
  produceNext s := ((c.produceNext s).1.reworded f, (c.produceNext s).2)
  removeLast s := ((c.removeLast s).1.reworded f, (c.removeLast s).2)

section Reworded

variable {f : Fault → Fault}

/-- A rewording moves on as the candidate does. -/
theorem Candidate.perform_reworded (c : Candidate σ α) (op : Operation) (s : σ) :
    ((c.reworded f).perform op s).2 = (c.perform op s).2 := by
  cases op <;> rfl

theorem Candidate.stateAfter_reworded (c : Candidate σ α) (s : σ) (w : Word) :
    (c.reworded f).stateAfter s w = c.stateAfter s w := by
  induction w generalizing s with
  | nil => rfl
  | cons op w ih => rw [stateAfter_cons, stateAfter_cons, perform_reworded, ih]

variable (hf : ∀ e, (f e).kind = e.kind)

include hf

theorem Reply.sameButTexts_reworded {β : Type w} (reply : Reply β) (g : β → Outcome α) :
    (reply.toOutcome g).SameButTexts ((reply.reworded f).toOutcome g) := by
  cases reply with
  | value b => rfl
  | panic p => rfl
  | fault e =>
      show Outcome.failed (f e).bare = Outcome.failed e.bare
      rw [Fault.bare, Fault.bare, hf]

theorem Candidate.outcomes_reworded (c : Candidate σ α) (s : σ) (w : Word) :
    List.Forall₂ Outcome.SameButTexts (c.outcomes s w) ((c.reworded f).outcomes s w) := by
  induction w generalizing s with
  | nil => exact .nil
  | cons op w ih =>
      rw [outcomes_cons, outcomes_cons, perform_reworded]
      refine .cons ?_ (ih _)
      cases op with
      | hasMore => exact Reply.sameButTexts_reworded hf _ _
      | produceNext => exact Reply.sameButTexts_reworded hf _ _
      | removeLast => exact Reply.sameButTexts_reworded hf _ _

/-- **Other words for the same kinds.**  A candidate and its rewording differ in texts only, also
    for hooks that look at the candidate. -/
theorem Candidate.alikeButTexts_reworded (c : Candidate σ α) (hook : Hook η σ α) (s : σ) :
    c.AlikeButTexts hook (c.reworded f) hook s s where
  outcomes := c.outcomes_reworded hf s
  answers w h view := by rw [stateAfter_reworded]

end Reworded

/-! ## One step -/

/-- Two checkpoints differ only in texts: that of the outcome before, and those still to come. -/
structure Bench.AlikeButTexts (b : Bench σ α η) (b' : Bench σ' α η) (k : Checkpoint σ α η)
    (k' : Checkpoint σ' α η) : Prop where
  index : k'.index = k.index
  reference : k'.reference = k.reference
  previous : k'.previous.map Outcome.bare = k.previous.map Outcome.bare
  candidate : b.candidate.AlikeButTexts b.hook b'.candidate b'.hook k.candidate k'.candidate
  hook : k'.hook = k.hook

variable [BEq α]

/-- **One step of two candidates** that are alike but for texts. -/
theorem Bench.inStep_of_texts {b : Bench σ α η} {b' : Bench σ' α η} {k : Checkpoint σ α η}
    {k' : Checkpoint σ' α η} (hk : b.AlikeButTexts b' k k') (hjudge : b'.judge = b.judge)
    (op : Operation) :
    InStep Eq Outcome.SameButTexts Eq b b' k k' op ∧
      b.AlikeButTexts b' (b.behind k op) (b'.behind k' op) := by
  have houtcome : (b.outcome k op).SameButTexts (b'.outcome k' op) := hk.candidate.outcome op
  have hrest := hk.candidate.perform op
  have hverdict : b'.verdict k' op = b.verdict k op := by
    rw [verdict, verdict, hjudge, hk.reference]
    exact houtcome.judge hk.previous _ _
  have hsettled : b'.settled k' op = b.settled k op := by
    rw [settled, settled, hk.reference, hverdict]
    exact houtcome.settle _ _ _
  have hcalled : b'.called k' op = b.called k op := by
    rw [called, called, hk.hook, hsettled]
    exact hrest.answers [] _ _
  constructor
  · refine ⟨hk.index, hk.hook, ?_, houtcome, hverdict, ?_, fun _ => hcalled⟩
    · rw [hk.reference]
    · intro _
      rw [hsettled]
  · exact ⟨congrArg (· + 1) hk.index, hsettled, congrArg some houtcome, hrest,
      congrArg Prod.snd hcalled⟩

variable {c : Candidate σ α} {hook : Hook η σ α} {c' : Candidate σ' α} {hook' : Hook η σ' α}

/-- **One word** on two candidates that are alike but for texts. -/
theorem Runner.replay_alike_of_texts {s : σ} {s' : σ'} (hs : c.AlikeButTexts hook c' hook' s s')
    (runner : Runner α) (h : η) (w : Word) :
    (runner.replay c hook s h w).Alike Eq Outcome.SameButTexts Eq
      (runner.replay c' hook' s' h w) := by
  rw [Runner.replay_eq_run, Runner.replay_eq_run]
  refine Bench.run_alike (R := Bench.AlikeButTexts ⟨runner.judge, c, hook⟩ ⟨runner.judge, c', hook'⟩) ?_ ?_ w
  · intro k k' op hk
    obtain ⟨hin, hbehind⟩ := Bench.inStep_of_texts hk rfl op
    exact ⟨hin, fun _ => hbehind⟩
  · exact ⟨rfl, rfl, rfl, hs, rfl⟩

/-- **Texts never decide.**  On two candidates that are alike but for texts, two replays of one word
    make the same steps with the same expectations and verdicts, call the hook with the same views,
    and observe outcomes that are the same but for texts.  If two factories make such candidates,
    two tests come to the same summary, or diverge at the same word in the same step with the same
    violation. -/
theorem Tester.texts_never_decide (c : Candidate σ α) (hook : Hook η σ α) (c' : Candidate σ' α)
    (hook' : Hook η σ' α) :
    (∀ (runner : Runner α) s s' h w, c.AlikeButTexts hook c' hook' s s' →
      (runner.replay c hook s h w).Alike Eq Outcome.SameButTexts Eq
        (runner.replay c' hook' s' h w)) ∧
    ∀ (t : Tester α) (F : φ → φ' → Prop) make make' f f' h,
      Factory.Alike F (c.AlikeButTexts hook c' hook') make make' → F f f' →
        EndAlike Eq (TestRun.Alike F Eq Outcome.SameButTexts Eq) (t.testWith c make hook f h)
          (t.testWith c' make' hook' f' h) := by
  constructor
  · intro runner s s' h w hs
    exact Runner.replay_alike_of_texts hs runner h w
  · intro t F make make' f f' h hmake hf
    refine testWith_alike rfl hmake ?_ rfl hf h
    intro s s' h w hs
    exact Runner.replay_alike_of_texts hs t.runner h w

/-- A cursor that lacks an element, and the same cursor with subordinate faults that say nothing:
    both tests diverge in one step, at faults with different texts. -/
theorem Tester.texts_never_decide_exhausted :
    let t : Tester Nat := ⟨[1, 2], { order := .determinate, steps := 2 }⟩
    let make := Factory.constant (Cursor.ofList [1])
    let c := Cursor.candidate (α := Nat)
    let drained (e : Fault) : Fault := { e with specialization := some "drained", message := "" }
    let c' := c.reworded drained
    Factory.Alike Eq (c.AlikeButTexts Hook.accepting c' Hook.accepting) make make ∧
      ∃ report report' session session',
        t.test c make () = .ok ⟨.error (.diverged report), session⟩ ∧
        t.test c' make () = .ok ⟨.error (.diverged report'), session'⟩ ∧
        report.record.failedStep?.map Step.actual = some (.failed .exhausted) ∧
        report'.record.failedStep?.map Step.actual =
          some (.failed ⟨.exhausted, some "drained", ""⟩) ∧
        report.Alike Eq Outcome.SameButTexts report' := by
  intro t make c drained c'
  have hkind (e : Fault) : (drained e).kind = e.kind := rfl
  have hmake : Factory.Alike Eq (c.AlikeButTexts Hook.accepting c' Hook.accepting) make make :=
    .constant (c.alikeButTexts_reworded hkind _ _)
  obtain ⟨report, session, hfold, hactual⟩ : ∃ report session,
      t.space.words.foldlM (t.visit c make Hook.accepting) ({}, t.opening () ()) =
          .error (.diverged report session) ∧
        report.record.failedStep?.map Step.actual = some (.failed .exhausted) := ⟨_, _, rfl, rfl⟩
  obtain ⟨report', session', hfold', hactual'⟩ : ∃ report session,
      t.space.words.foldlM (t.visit c' make Hook.accepting) ({}, t.opening () ()) =
          .error (.diverged report session) ∧
        report.record.failedStep?.map Step.actual =
          some (.failed ⟨.exhausted, some "drained", ""⟩) := ⟨_, _, rfl, rfl⟩
  have hrun : t.test c make () = .ok ⟨.error (.diverged report), session⟩ :=
    Tester.explore_of_diverged rfl hfold
  have hrun' : t.test c' make () = .ok ⟨.error (.diverged report'), session'⟩ :=
    Tester.explore_of_diverged rfl hfold'
  refine ⟨hmake, report, report', session, session', hrun, hrun', hactual, hactual', ?_⟩
  have halike : EndAlike Eq (TestRun.Alike Eq Eq Outcome.SameButTexts Eq) (t.test c make ())
      (t.test c' make ()) :=
    (Tester.texts_never_decide c Hook.accepting c' Hook.accepting).2 t Eq make make () () () hmake
      rfl
  rw [hrun, hrun'] at halike
  cases halike with
  | ok hruns =>
      cases hruns.result with
      | error herror =>
          cases herror with
          | diverged h => exact h

end Lockstep
