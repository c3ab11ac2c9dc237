import Lockstep.Candidate.Cursor
import Lockstep.Candidate.LegacyRemoval
import Lockstep.Proofs.Fits
import Lockstep.Proofs.Replay.Course
import Lockstep.Proofs.Space.Pass

/-!
# What is predicted depends on the word

The reference of a replay is driven by what the candidate produced, by exhausted productions that
leave the marker alone, and by tolerated steps that clear it although nothing was removed.  The
pruning of a space is driven by counts.  This file shows that the two see the same: a step is only
made behind accepted ones, and whatever was accepted, the reference goes on fitting the shape of
the word.

* **`Bench.fits_of_reach`** — the invariant, from one accepted step (`Bench.fits_settled`).
* **`Bench.forecast_predict`** — the prediction at a checkpoint, from the word alone.
* **`Runner.expected_forecast`** — every step on record was predicted as the word says, and no
  step of an emitted word was predicted to be an illegal removal.
-/

namespace Lockstep

universe u v w

variable {σ : Type u} {α : Type v} {η : Type w}

/-- What the reference over `expected` predicts of an operation at place `i` of a word, as far as
    the word decides.  Which elements are pending when any of them may come is the candidate's
    choice; how many there are is not. -/
inductive Word.Forecast (expected : List α) (order : Order) (w : Word) (i : Nat) :
    Operation → Expectation α → Prop where
  /-- There is more while fewer productions stand in front than there are elements. -/
  | hasMore :
      Forecast expected order w i .hasMore
        (.hasMore (decide ((w.take i).count .produceNext < expected.length)))
  /-- All elements were met by productions in front. -/
  | exhausted (h : expected.length ≤ (w.take i).count .produceNext) :
      Forecast expected order w i .produceNext (.fault .exhausted)
  /-- The next element in order. -/
  | element {x : α} (horder : order = .determinate)
      (h : expected[(w.take i).count .produceNext]? = some x) :
      Forecast expected order w i .produceNext (.element x)
  /-- One of the elements that no production in front took. -/
  | anyOf {xs : List α} (horder : order = .indeterminate)
      (h : (w.take i).count .produceNext < expected.length)
      (hlen : xs.length = expected.length - (w.take i).count .produceNext) :
      Forecast expected order w i .produceNext (.anyOf xs)
  /-- A removal that is due. -/
  | removed (h : Word.Due expected.length w i) : Forecast expected order w i .removeLast .removed
  /-- A removal that is not due. -/
  | illegalRemoval (h : ¬ Word.Due expected.length w i) :
      Forecast expected order w i .removeLast (.fault .illegalRemoval)

namespace Bench

variable [BEq α] {b : Bench σ α η} {k k' : Checkpoint σ α η} {op : Operation} {u w : Word}

/-! ## One accepted step -/

/-- **What an accepted step does**: it is the call that was predicted, or a removal that the
    reference forfeits, since nothing else is ever tolerated. -/
theorem settled_of_acceptable (hv : (b.verdict k op).isAcceptable = true) :
    b.settled k op = k.reference.advance op (b.outcome k op).element? ∨
      op = .removeLast ∧ b.settled k op = k.reference.forfeit := by
  rw [settled]
  cases hverdict : b.verdict k op with
  | agree => exact Or.inl rfl
  | tolerated =>
      obtain ⟨f, hexp, -, -⟩ := Judge.judge_eq_tolerated.mp hverdict
      exact Or.inr ⟨(Reference.predict_eq_removed.mp hexp).1, rfl⟩
  | diverge violation => rw [hverdict] at hv; exact nomatch hv

/-- **An accepted step keeps the fit.**  A forfeited removal clears the marker like one that took
    its element. -/
theorem fits_settled {s : Shape} (h : k.reference.Fits s)
    (hv : (b.verdict k op).isAcceptable = true) : (b.settled k op).Fits (s.after op) := by
  rcases settled_of_acceptable hv with hsettled | ⟨rfl, hsettled⟩
  · rw [hsettled]
    exact h.advance op _
  · rw [hsettled]
    exact h.forfeit

/-- With a determinate order an accepted production takes the first pending element, and a
    forfeited removal takes none. -/
theorem pending_settled (horder : k.reference.order = .determinate)
    (hv : (b.verdict k op).isAcceptable = true) :
    (b.settled k op).pending =
      k.reference.pending.drop (if op = .produceNext then 1 else 0) := by
  rcases settled_of_acceptable hv with hsettled | ⟨rfl, hsettled⟩
  · rw [hsettled]
    exact Reference.pending_advance_of_determinate horder op _
  · rw [hsettled]
    rfl

/-! ## All accepted steps -/

/-- **The reference fits the shape of the word**, for every candidate and every interleaving.
    Induction on the word, one accepted step at a time. -/
theorem fits_of_reach {s : Shape} (h : k.reference.Fits s) (hreach : b.reach k u = some k') :
    k'.reference.Fits (s.afterAll u) := by
  induction u generalizing k s with
  | nil =>
      rw [← Option.some.inj hreach]
      exact h
  | cons op u ih =>
      obtain ⟨k₁, hnext, hrest⟩ := Option.bind_eq_some_iff.mp hreach
      obtain ⟨hv, -, rfl⟩ := next?_eq_some.mp hnext
      exact ih (k := b.behind k op) (fits_settled h hv) hrest

theorem order_of_reach (hreach : b.reach k u = some k') :
    k'.reference.order = k.reference.order := by
  induction u generalizing k with
  | nil => rw [← Option.some.inj hreach]
  | cons op u ih =>
      obtain ⟨k₁, hnext, hrest⟩ := Option.bind_eq_some_iff.mp hreach
      obtain ⟨-, -, rfl⟩ := next?_eq_some.mp hnext
      rw [ih hrest]
      exact Reference.order_settle _ _

/-- With a determinate order the pending elements are those behind as many as there were
    productions. -/
theorem pending_of_reach (horder : k.reference.order = .determinate)
    (hreach : b.reach k u = some k') :
    k'.reference.pending = k.reference.pending.drop (u.count .produceNext) := by
  induction u generalizing k with
  | nil =>
      rw [← Option.some.inj hreach]
      rfl
  | cons op u ih =>
      obtain ⟨k₁, hnext, hrest⟩ := Option.bind_eq_some_iff.mp hreach
      obtain ⟨hv, -, rfl⟩ := next?_eq_some.mp hnext
      have horder' : (b.behind k op).reference.order = .determinate :=
        (Reference.order_settle _ _).trans horder
      have hpending : (b.behind k op).reference.pending =
          k.reference.pending.drop (if op = .produceNext then 1 else 0) := pending_settled horder hv
      rw [ih horder' hrest, hpending, List.drop_drop, List.count_cons, Nat.add_comm]
      cases op <;> rfl

/-! ## Predictions -/

variable {expected : List α} {order : Order} {s : σ} {h : η} {i : Nat}

/-- The reference in front of place `i` fits the shape of the word in front of it. -/
theorem fits_take_of_reach
    (hreach : b.reach (.start (.initial expected order) s h) (w.take i) = some k) :
    k.reference.Fits ((Shape.initial expected.length).afterAll (w.take i)) :=
  fits_of_reach (Reference.fits_initial expected order) hreach

/-- As many elements are pending as no production in front took. -/
theorem length_pending_of_reach
    (hreach : b.reach (.start (.initial expected order) s h) (w.take i) = some k) :
    k.reference.pending.length = expected.length - (w.take i).count .produceNext := by
  rw [(fits_take_of_reach hreach).pending, Shape.pending_afterAll]

/-- The marker is set exactly while a removal is due. -/
theorem canRemove_iff_due_of_reach (hi : i ≤ w.length)
    (hreach : b.reach (.start (.initial expected order) s h) (w.take i) = some k) :
    k.reference.canRemove = true ↔ Word.Due expected.length w i := by
  rw [(fits_take_of_reach hreach).canRemove]
  exact Shape.canRemove_take_iff_due hi

/-- **Predictions from the word.**  At a checkpoint that the operations in front of place `i`
    reached, every operation is predicted as the word says. -/
theorem forecast_predict (hi : i ≤ w.length)
    (hreach : b.reach (.start (.initial expected order) s h) (w.take i) = some k)
    (op : Operation) : Word.Forecast expected order w i op (k.reference.predict op) := by
  have hlen := length_pending_of_reach hreach
  have horder : k.reference.order = order := order_of_reach hreach
  cases op with
  | hasMore =>
      have hmore : 0 < k.reference.pending.length ↔
          (w.take i).count .produceNext < expected.length := by omega
      rw [Reference.predict_hasMore, decide_eq_decide.mpr hmore]
      exact .hasMore
  | produceNext =>
      by_cases hcount : (w.take i).count .produceNext < expected.length
      · cases order with
        | determinate =>
            have hpending : k.reference.pending =
                expected.drop ((w.take i).count .produceNext) := pending_of_reach rfl hreach
            rw [List.drop_eq_getElem_cons hcount] at hpending
            rw [Reference.predict_produceNext_of_determinate horder hpending]
            exact .element rfl (List.getElem?_eq_getElem hcount)
        | indeterminate =>
            rw [Reference.predict_produceNext_of_indeterminate horder (by omega)]
            exact .anyOf rfl hcount hlen
      · have hnil : k.reference.pending = [] := List.length_eq_zero_iff.mp (by omega)
        rw [Reference.predict_eq_exhausted.mpr ⟨rfl, hnil⟩]
        exact .exhausted (Nat.le_of_not_lt hcount)
  | removeLast =>
      have hdue := canRemove_iff_due_of_reach hi hreach
      cases hmark : k.reference.canRemove with
      | true =>
          rw [Reference.predict_eq_removed.mpr ⟨rfl, hmark⟩]
          exact .removed (hdue.mp hmark)
      | false =>
          rw [Reference.predict_eq_illegalRemoval.mpr ⟨rfl, hmark⟩]
          refine .illegalRemoval fun h => ?_
          rw [hdue.mpr h] at hmark
          exact nomatch hmark

/-- Every step on record was made at its place of the word, and was predicted as the word says. -/
theorem forecast_of_steps {step : Step α}
    (hstep : (b.run (.start (.initial expected order) s h) w).steps[i]? = some step) :
    w[i]? = some step.operation ∧
      Word.Forecast expected order w i step.operation step.expected := by
  obtain ⟨k, op, hreach, hop, hmade⟩ := exists_of_steps_getElem? hstep
  have hi : i ≤ w.length := Nat.le_of_lt (List.getElem?_eq_some_iff.mp hop).1
  rw [(step?_eq_some hmade).1]
  exact ⟨hop, forecast_predict hi hreach op⟩

end Bench

/-- **What is predicted depends on the word alone.**  Every step on record stands for the
    operation at its place and was predicted as the word says there.  So no step of a word that a
    pass hands out, over as many elements and without illegal removals, was predicted to be one,
    neither in front of a tolerated step nor behind it. -/
theorem Runner.expected_forecast [BEq α] (runner : Runner α) (c : Candidate σ α)
    (hook : Hook η σ α) (s : σ) (h : η) (w : Word) :
    let r := runner.replay c hook s h w
    (∀ i step, r.steps[i]? = some step →
        w[i]? = some step.operation ∧
          Word.Forecast runner.expected runner.order w i step.operation step.expected) ∧
      ∀ (space : Space) (t : Traversal) (n : Nat),
        space.elements = runner.expected.length → space.illegalRemovals = false →
          space.pass = .ok t → Traversal.answer space n t = .ok (some w) →
            ∀ step ∈ r.steps, step.expected ≠ .fault .illegalRemoval := by
  intro r
  have hforecast : ∀ i step, r.steps[i]? = some step →
      w[i]? = some step.operation ∧
        Word.Forecast runner.expected runner.order w i step.operation step.expected := by
    intro i step hstep
    exact Bench.forecast_of_steps (b := ⟨runner.judge, c, hook⟩) hstep
  refine ⟨hforecast, ?_⟩
  intro space t n helements hpruned hpass hanswer step hmem hexp
  -- a word that a pass hands out is legal, so each of its removals is due
  obtain ⟨-, rfl⟩ := Space.pass_eq_ok.mp hpass
  have hleft := Traversal.eq_of_answer hanswer
  rw [Traversal.left_start] at hleft
  have hlegal : space.Legal w := Space.mem_words.mp (List.mem_of_getElem? hleft.symm)
  obtain ⟨i, hi⟩ := List.mem_iff_getElem?.mp hmem
  obtain ⟨hop, hword⟩ := hforecast i step hi
  rw [hexp] at hword
  generalize step.operation = op at hop hword
  cases hword with
  | illegalRemoval hnot => exact hnot (helements ▸ hlegal.due hpruned i hop)

/-- The predictions around a tolerated step, for a candidate with the defect. -/
example :
    ((Runner.mk [7] .indeterminate ⟨true⟩).replay (LegacyRemoval.candidate Cursor.candidate)
      Hook.accepting (.ofInner (.ofList [7])) ()
      [.hasMore, .produceNext, .produceNext, .removeLast, .hasMore, .removeLast]).steps.map
        (·.expected) =
      [.hasMore true, .anyOf [7], .fault .exhausted, .removed, .hasMore false,
        .fault .illegalRemoval] := by
  decide

end Lockstep
