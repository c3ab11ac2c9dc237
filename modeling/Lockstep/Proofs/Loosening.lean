import Lockstep.Proofs.Coupling
import Lockstep.Proofs.Order

/-!
# The looser contract

A candidate that keeps to the order of the expected elements also passes when the order is given
up, whatever equality of elements is.  The two replays of a word run through one and the same
checkpoints but for the order that the reference holds (`Checkpoint.Loosens`), as long as the judge
accepts.

The heart is that an element that is accepted in order equals the first pending one.  The search in
any order then takes this one too, and no duplicate further back; with any other choice the views
would drift apart from here on (`Reference.settle_inAnyOrder`).

* **`Bench.inStep_of_loosens`** — one accepted step, in order and in any order.
* **`Tester.passes_inAnyOrder`** — replays and tests that pass in order pass in any order.
-/

namespace Lockstep

universe u v w x

variable {φ : Type u} {η : Type v} {α : Type w} {σ : Type x}

/-- The checkpoint with the order of its reference given up. -/
def Checkpoint.inAnyOrder (k : Checkpoint σ α η) : Checkpoint σ α η :=
  { k with reference := k.reference.inAnyOrder }

/-- Two checkpoints are the same, but for the order that the second one gives up. -/
structure Checkpoint.Loosens (k k' : Checkpoint σ α η) : Prop where
  order : k.reference.order = .determinate
  same : k' = k.inAnyOrder

/-- The test of the same words, with the order given up. -/
def Tester.inAnyOrder (t : Tester α) : Tester α :=
  { t with settings := { t.settings with order := .indeterminate } }

variable [BEq α]

/-! ## One step -/

namespace Bench

variable {b : Bench σ α η} {k k' : Checkpoint σ α η} {op : Operation}

/-- **An accepted step in order** is the same step in any order, and leads to the same checkpoint
    but for the order. -/
theorem inStep_of_loosens (hk : k.Loosens k') (hv : (b.verdict k op).isAcceptable = true) :
    InStep Expectation.Loosens Eq Eq b b k k' op ∧ (b.behind k op).Loosens (b.behind k' op) := by
  obtain ⟨horder, rfl⟩ := hk
  have hexpected := Reference.predict_inAnyOrder horder op
  have hverdict : b.verdict k.inAnyOrder op = b.verdict k op :=
    Judge.judge_of_loosens hexpected hv
  have hsettled : b.settled k.inAnyOrder op = (b.settled k op).inAnyOrder := by
    show k.reference.inAnyOrder.settle op (b.outcome k op) (b.verdict k.inAnyOrder op) = _
    rw [hverdict]
    exact Reference.settle_inAnyOrder horder hv _
  have hview : (b.settled k op).view = (b.settled k.inAnyOrder op).view := by
    rw [hsettled]
    rfl
  have hcalled : b.called k.inAnyOrder op = b.called k op := by
    show b.hook k.hook (b.settled k.inAnyOrder op).view _ = b.hook k.hook (b.settled k op).view _
    rw [hview]
    rfl
  constructor
  · exact ⟨rfl, rfl, hexpected, rfl, hverdict, fun _ => hview, fun _ => hcalled⟩
  · refine ⟨(Reference.order_settle _ _).trans horder, ?_⟩
    rw [behind, hsettled, hcalled]
    rfl

end Bench

/-! ## One word -/

namespace Tester

variable {t : Tester α} {c : Candidate σ α} {make : Factory φ σ} {hook : Hook η σ α}
  {state state' state₁ : Tally × Session φ η α}

/-- **What passes in order** leaves the same behind in any order, but for the expectations. -/
theorem replay_inAnyOrder (horder : t.settings.order = .determinate) {s : σ} {h : η} {w : Word}
    (hpasses : (t.runner.replay c hook s h w).Passes w) :
    (t.runner.replay c hook s h w).Alike Expectation.Loosens Eq Eq
      (t.inAnyOrder.runner.replay c hook s h w) := by
  rw [Runner.replay_eq_run] at hpasses
  rw [Runner.replay_eq_run, Runner.replay_eq_run]
  refine Bench.run_alike_of_passes (R := Checkpoint.Loosens) ?_ ?_ ⟨horder, rfl⟩ hpasses
  · rintro k _ ⟨-, rfl⟩
    rfl
  · intro k k' op hk hv
    exact Bench.inStep_of_loosens hk hv

/-! ## All words -/

/-- A word that is entered into the account of the test in order is entered alike in any order. -/
theorem visit_inAnyOrder (horder : t.settings.order = .determinate)
    (hstate : AccountAlike Eq Eq state state₁) {word : Word}
    (h : t.visit c make hook state word = .ok state') :
    ∃ state₁', t.inAnyOrder.visit c make hook state₁ word = .ok state₁' ∧
      AccountAlike Eq Eq state' state₁' := by
  obtain ⟨record, hreplay, hsuccess, -⟩ := visit_eq_ok h
  obtain ⟨s, f, hmake, -, hpasses⟩ := Session.passes_of_isSuccess hreplay hsuccess
  have halike : EndAlike Eq (Session.ReplayedAlike Eq Expectation.Loosens Eq Eq)
      (state.2.replay t.runner c make hook word)
      (state₁.2.replay t.inAnyOrder.runner c make hook word) := by
    refine Session.replay_alike (Factory.Alike.refl make) hstate.session ?_
    rintro s₁ _ hmade rfl
    -- the candidate made is the one that the word passed on
    rw [hmake] at hmade
    obtain rfl := Except.ok.inj hmade
    exact replay_inAnyOrder horder hpasses
  exact (visit_alike hstate halike).exists_of_ok h

theorem foldlM_visit_inAnyOrder (horder : t.settings.order = .determinate) (ws : List Word)
    (hstate : AccountAlike Eq Eq state state₁)
    (h : ws.foldlM (t.visit c make hook) state = .ok state') :
    ∃ state₁', ws.foldlM (t.inAnyOrder.visit c make hook) state₁ = .ok state₁' ∧
      AccountAlike Eq Eq state' state₁' := by
  induction ws generalizing state state₁ with
  | nil =>
      obtain rfl := Except.ok.inj h
      exact ⟨state₁, rfl, hstate⟩
  | cons word ws ih =>
      rw [List.foldlM_cons] at h ⊢
      cases hvisit : t.visit c make hook state word with
      | error stop =>
          rw [hvisit] at h
          exact nomatch h
      | ok middle =>
          rw [hvisit] at h
          obtain ⟨middle₁, hvisit₁, hmiddle⟩ := visit_inAnyOrder horder hstate hvisit
          rw [hvisit₁]
          exact ih hmiddle h

/-- **Acceptance in order is acceptance in any order.**  A replay that passes in order passes in any
    order as well, with the same operations, outcomes, verdicts and views, and where one element
    was expected this is now the first of those that may come.  So a test that comes to a summary
    comes to the same one. -/
theorem passes_inAnyOrder (horder : t.settings.order = .determinate) (c : Candidate σ α)
    (hook : Hook η σ α) :
    (∀ s h w, (t.runner.replay c hook s h w).Passes w →
      (t.inAnyOrder.runner.replay c hook s h w).Passes w ∧
        (t.runner.replay c hook s h w).Alike Expectation.Loosens Eq Eq
          (t.inAnyOrder.runner.replay c hook s h w)) ∧
    ∀ (make : Factory φ σ) f h run summary, t.testWith c make hook f h = .ok run →
      run.result = .ok summary →
      ∃ run', t.inAnyOrder.testWith c make hook f h = .ok run' ∧ run'.result = .ok summary ∧
        run.session.Alike Eq Eq run'.session := by
  constructor
  · intro s h w hpasses
    have halike := replay_inAnyOrder horder hpasses
    exact ⟨halike.passes hpasses, halike⟩
  · intro make f h run summary hrun hsummary
    obtain ⟨hvalid, tally, last, hfold, rfl, hsession⟩ := exists_foldlM_of_summary hrun hsummary
    have hopening : AccountAlike Eq Eq (({} : Tally), t.opening f h)
        ({}, t.inAnyOrder.opening f h) := ⟨rfl, ⟨rfl, rfl, rfl, .nil⟩⟩
    obtain ⟨state, hfold', htally, halike⟩ :=
      foldlM_visit_inAnyOrder horder t.space.words hopening hfold
    have hvalid' : t.inAnyOrder.settings.validate = .ok () := hvalid
    rw [testWith_of_valid hvalid', explore_of_ok hvalid' hfold']
    refine ⟨_, rfl, congrArg (Except.ok ∘ Tally.summary) htally, ?_⟩
    rw [hsession]
    exact halike.report _ _

/-- The cursor over a list with a duplicate, and a hook that counts its calls. -/
theorem passes_inAnyOrder_duplicate :
    let t : Tester Nat := ⟨[7, 7], { order := .determinate, steps := 3 }⟩
    let hook : Hook Nat (Cursor Nat) Nat := fun h _ _ => (.accept, h + 1)
    let make := Factory.constant (Cursor.ofList [7, 7])
    let w : Word := [.produceNext, .removeLast, .produceNext]
    t.settings.order = .determinate ∧
      (t.runner.replay Cursor.candidate hook (.ofList [7, 7]) 0 w).Passes w ∧
      (t.inAnyOrder.runner.replay Cursor.candidate hook (.ofList [7, 7]) 0 w).Passes w ∧
      ∃ run summary, t.testWith Cursor.candidate make hook () 0 = .ok run ∧
        run.result = .ok summary ∧
        ∃ run', t.inAnyOrder.testWith Cursor.candidate make hook () 0 = .ok run' ∧
          run'.result = .ok summary := by
  intro t hook make w
  obtain ⟨hreplays, htests⟩ := passes_inAnyOrder (t := t) (φ := Unit) rfl Cursor.candidate hook
  have hpasses : (t.runner.replay Cursor.candidate hook (.ofList [7, 7]) 0 w).Passes w := ⟨rfl, rfl⟩
  refine ⟨rfl, hpasses, (hreplays _ _ _ hpasses).1, ?_⟩
  obtain ⟨state, hfold⟩ : ∃ state, t.space.words.foldlM (t.visit Cursor.candidate make hook)
      ({}, t.opening () 0) = .ok state := ⟨_, rfl⟩
  have hrun := (testWith_of_valid (t := t) rfl Cursor.candidate make hook () 0).trans
    (explore_of_ok rfl hfold)
  obtain ⟨run', hrun', hsummary', -⟩ := htests make () 0 _ _ hrun rfl
  exact ⟨_, _, hrun, rfl, run', hrun', hsummary'⟩

end Tester

end Lockstep
