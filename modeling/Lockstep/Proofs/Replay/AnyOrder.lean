import Lockstep.Proofs.Replay.Agreement
import Lockstep.Proofs.Replay.Extent
import Lockstep.Proofs.Replay.Forecast
import Mathlib.Data.List.Perm.Basic

/-!
# Replays in any order

When the order is not part of the contract, the reference decides element by element: what is
produced is taken from the pending elements, the first one equal to it.  This file shows that the
steps together come to one condition on the whole word.  The kinds of the answers follow from the
word alone, and the elements that were returned are among the expected ones, each as often as it
is expected.

The invariant is a count.  Every element is as often pending or returned as it is expected
(`Bench.count_of_reach`), removals and failed productions notwithstanding; so an element still to
be returned is one that is still pending.

* **`Reference.judge_eq_agree_iff`** — what the judge agrees with, at a reference that the word
  has led to.
* **`Runner.isSuccess_iff_answersInAnyOrder`** — the acceptance condition of a whole replay.
-/

namespace Lockstep

universe u v w

variable {σ : Type u} {α : Type v} {η : Type w}

/-- The elements that some calls returned.  One that was removed later is among them. -/
def Outcome.elements (os : List (Outcome α)) : List α := os.filterMap element?

theorem Outcome.elements_cons (o : Outcome α) (os : List (Outcome α)) :
    elements (o :: os) = o.element?.toList ++ elements os := by
  cases ho : o.element? <;> simp [elements, ho]

theorem Outcome.elements_append (os os' : List (Outcome α)) :
    elements (os ++ os') = elements os ++ elements os' := List.filterMap_append

/-- The kinds of answer that a call at place `i` of a word may come to over `n` elements, whatever
    their order.  All but the element itself follows from the word. -/
inductive Word.AnswerAt (n : Nat) (w : Word) (i : Nat) : Operation → Outcome α → Prop where
  /-- There is more while fewer productions stand in front than there are elements. -/
  | hasMore : AnswerAt n w i .hasMore (.hasMore (decide ((w.take i).count .produceNext < n)))
  /-- Some element, while fewer productions stand in front than there are elements. -/
  | produced {x : α} (h : (w.take i).count .produceNext < n) :
      AnswerAt n w i .produceNext (.produced x)
  /-- Exhaustion, once the productions in front met all elements. -/
  | exhausted {f : Fault} (h : n ≤ (w.take i).count .produceNext) (hkind : f.kind = .exhausted) :
      AnswerAt n w i .produceNext (.failed f)
  /-- Removal, when it is due. -/
  | removed (h : Due n w i) : AnswerAt n w i .removeLast .removed
  /-- Refusal, when no removal is due. -/
  | refused {f : Fault} (h : ¬ Due n w i) (hkind : f.kind = .illegalRemoval) :
      AnswerAt n w i .removeLast (.failed f)

/-- The outcomes of a word **answer in any order** for the expected elements: each is of the kind
    that the word asks for at its place, and no element is returned more often than expected. -/
structure Word.AnswersInAnyOrder [BEq α] (expected : List α) (w : Word)
    (os : List (Outcome α)) : Prop where
  each : ∀ i op o, w[i]? = some op → os[i]? = some o → AnswerAt expected.length w i op o
  contained : ∀ v, (Outcome.elements os).count v ≤ expected.count v

namespace Reference

variable [BEq α] {r : Reference α}

/-- **One answer.**  The judge agrees with an outcome if it is of the kind that the word asks for,
    and an element that it carries is pending. -/
theorem judge_eq_agree_iff {j : Judge} {previous : Option (Outcome α)} {n i : Nat} {w : Word}
    (horder : r.order = .indeterminate)
    (hlen : r.pending.length = n - (w.take i).count .produceNext)
    (hdue : r.canRemove = true ↔ Word.Due n w i) (op : Operation) (o : Outcome α) :
    j.judge (r.predict op) o previous = .agree ↔
      Word.AnswerAt n w i op o ∧ ∀ x, o = .produced x → r.pending.any (· == x) = true := by
  cases op with
  | hasMore =>
      have hmore : 0 < r.pending.length ↔ (w.take i).count .produceNext < n := by omega
      rw [predict_hasMore, decide_eq_decide.mpr hmore, Judge.hasMore_eq_agree]
      constructor
      · intro ho
        rw [ho]
        exact ⟨.hasMore, fun x hx => nomatch hx⟩
      · rintro ⟨hanswer, -⟩
        cases hanswer with
        | hasMore => rfl
  | produceNext =>
      by_cases hcount : (w.take i).count .produceNext < n
      · rw [predict_produceNext_of_indeterminate horder (by omega), Judge.anyOf_eq_agree]
        constructor
        · rintro ⟨x, rfl, hx⟩
          refine ⟨.produced hcount, fun y hy => ?_⟩
          rwa [← Outcome.produced.inj hy]
        · rintro ⟨hanswer, hpending⟩
          cases hanswer with
          | produced h => exact ⟨_, rfl, hpending _ rfl⟩
          | exhausted h hkind => omega
      · have hnil : r.pending = [] := List.length_eq_zero_iff.mp (by omega)
        rw [predict_eq_exhausted.mpr ⟨rfl, hnil⟩, Judge.fault_eq_agree]
        constructor
        · rintro ⟨f, rfl, hkind⟩
          exact ⟨.exhausted (Nat.le_of_not_lt hcount) hkind, fun x hx => nomatch hx⟩
        · rintro ⟨hanswer, -⟩
          cases hanswer with
          | produced h => exact absurd h hcount
          | exhausted h hkind => exact ⟨_, rfl, hkind⟩
  | removeLast =>
      cases hmark : r.canRemove with
      | true =>
          rw [predict_eq_removed.mpr ⟨rfl, hmark⟩, Judge.removed_eq_agree]
          constructor
          · rintro rfl
            exact ⟨.removed (hdue.mp hmark), fun x hx => nomatch hx⟩
          · rintro ⟨hanswer, -⟩
            cases hanswer with
            | removed h => rfl
            | refused h hkind => exact absurd (hdue.mp hmark) h
      | false =>
          have hnot : ¬ Word.Due n w i := by
            rw [← hdue, hmark]
            exact Bool.false_ne_true
          rw [predict_eq_illegalRemoval.mpr ⟨rfl, hmark⟩, Judge.fault_eq_agree]
          constructor
          · rintro ⟨f, rfl, hkind⟩
            exact ⟨.refused hnot hkind, fun x hx => nomatch hx⟩
          · rintro ⟨hanswer, -⟩
            cases hanswer with
            | removed h => exact absurd h hnot
            | refused h hkind => exact ⟨_, rfl, hkind⟩

/-! ## Counting elements -/

/-- A production takes one element equal to the observed one from the pending ones. -/
theorem count_pending_advance [EquivBEq α] {x : α} (horder : r.order = .indeterminate)
    (hx : r.pending.any (· == x) = true) (v : α) :
    (r.advance .produceNext (some x)).pending.count v + [x].count v = r.pending.count v := by
  obtain ⟨hlt, hequal⟩ := exists_position horder hx
  have htaken : (r.advance .produceNext (some x)).pending =
      r.pending.eraseIdx (r.position (some x)) := by
    rw [advance, produceAt_of_lt hlt]
  have hperm := (List.getElem_cons_eraseIdx_perm hlt).countP_eq (· == v)
  rw [htaken, List.count_singleton, ← BEq.congr_left hequal]
  rw [List.countP_cons] at hperm
  exact hperm

/-- An accepted step moves at most one element from the pending ones to those returned. -/
theorem count_pending_settle [EquivBEq α] {j : Judge} {previous : Option (Outcome α)}
    {op : Operation} {o : Outcome α} (horder : r.order = .indeterminate)
    (hagree : j.judge (r.predict op) o previous = .agree) (v : α) :
    (r.settle op o .agree).pending.count v + o.element?.toList.count v = r.pending.count v := by
  show (r.advance op o.element?).pending.count v + _ = _
  cases op with
  | hasMore =>
      rw [predict_hasMore, Judge.hasMore_eq_agree] at hagree
      rw [hagree]
      rfl
  | produceNext =>
      by_cases hpos : 0 < r.pending.length
      · rw [predict_produceNext_of_indeterminate horder hpos, Judge.anyOf_eq_agree] at hagree
        obtain ⟨x, rfl, hx⟩ := hagree
        exact count_pending_advance horder hx v
      · have hnil : r.pending = [] := List.length_eq_zero_iff.mp (by omega)
        rw [predict_eq_exhausted.mpr ⟨rfl, hnil⟩, Judge.fault_eq_agree] at hagree
        obtain ⟨f, rfl, -⟩ := hagree
        rw [advance_produceNext_of_pending_nil hnil]
        rfl
  | removeLast =>
      have helement : o.element? = none := by
        cases hmark : r.canRemove with
        | true =>
            rw [predict_eq_removed.mpr ⟨rfl, hmark⟩, Judge.removed_eq_agree] at hagree
            rw [hagree]
            rfl
        | false =>
            rw [predict_eq_illegalRemoval.mpr ⟨rfl, hmark⟩, Judge.fault_eq_agree] at hagree
            obtain ⟨f, rfl, -⟩ := hagree
            rfl
      rw [helement, advance, dropProduced]
      cases r.canRemove <;> rfl

end Reference

namespace Bench

variable [BEq α] {c : Candidate σ α} {k k' : Checkpoint σ α Unit} {op : Operation} {u w : Word}

/-- The strict bench goes on exactly behind the outcomes that the judge agrees with. -/
theorem next?_plain_eq_some :
    (plain c).next? k op = some k' ↔
      (plain c).verdict k op = .agree ∧ k' = (plain c).behind k op := by
  rw [next?_eq_some]
  constructor
  · rintro ⟨hv, -, rfl⟩
    refine ⟨?_, rfl⟩
    by_contra hno
    rw [isAcceptable_plain hno] at hv
    exact nomatch hv
  · rintro ⟨hv, rfl⟩
    refine ⟨?_, rfl, rfl⟩
    rw [hv]
    rfl

variable {b : Bench σ α η} {l l' : Checkpoint σ α η}

/-- An accepted step moves at most one element; a forfeited removal moves none. -/
theorem count_settled [EquivBEq α] (horder : l.reference.order = .indeterminate)
    (hv : (b.verdict l op).isAcceptable = true) (v : α) :
    (b.settled l op).pending.count v + (b.outcome l op).element?.toList.count v =
      l.reference.pending.count v := by
  rw [settled]
  cases hverdict : b.verdict l op with
  | agree => exact Reference.count_pending_settle horder hverdict v
  | tolerated =>
      obtain ⟨f, -, hfail, -⟩ := Judge.judge_eq_tolerated.mp hverdict
      rw [hfail]
      rfl
  | diverge violation =>
      rw [hverdict] at hv
      exact absurd hv Bool.false_ne_true

/-- **The count.**  What is pending and what was returned are, together, what was pending at
    first. -/
theorem count_of_reach [EquivBEq α] (horder : l.reference.order = .indeterminate)
    (hreach : b.reach l u = some l') (v : α) :
    l'.reference.pending.count v +
        (Outcome.elements (b.candidate.outcomes l.candidate u)).count v =
      l.reference.pending.count v := by
  induction u generalizing l with
  | nil =>
      rw [← Option.some.inj hreach]
      rfl
  | cons op u ih =>
      obtain ⟨l₁, hnext, hrest⟩ := Option.bind_eq_some_iff.mp hreach
      obtain ⟨hv, -, rfl⟩ := next?_eq_some.mp hnext
      have horder' : (b.behind l op).reference.order = .indeterminate :=
        (Reference.order_settle _ _).trans horder
      have hstep : (b.behind l op).reference.pending.count v +
          (b.candidate.perform op l.candidate).1.element?.toList.count v =
            l.reference.pending.count v := count_settled horder hv v
      -- the element of this step is counted among those returned from here on
      have hih := ih horder' hrest
      rw [Candidate.outcomes_cons, Outcome.elements_cons, List.count_append]
      rw [show (b.behind l op).candidate = (b.candidate.perform op l.candidate).2 from rfl] at hih
      omega

variable {expected : List α} {s : σ}

/-- **Necessity.**  Each accepted step shows the kind of its answer, and the count at the end
    leaves no room for an element too many. -/
theorem answersInAnyOrder_of_reach [EquivBEq α]
    (hreach : (plain c).reach (.start (.initial expected .indeterminate) s ()) w = some k) :
    w.AnswersInAnyOrder expected (c.outcomes s w) := by
  constructor
  · intro i op o hop ho
    obtain ⟨k₂, hreach₂⟩ := exists_reach_of_isPrefix (List.take_prefix (i + 1) w) hreach
    obtain ⟨k₁, hreach₁, hnext⟩ := exists_of_reach_take_succ hop hreach₂
    obtain ⟨hagree, -⟩ := next?_plain_eq_some.mp hnext
    have hi : i ≤ w.length := Nat.le_of_lt (List.getElem?_eq_some_iff.mp hop).1
    have hanswer := (Reference.judge_eq_agree_iff (order_of_reach hreach₁)
      (length_pending_of_reach hreach₁) (canRemove_iff_due_of_reach hi hreach₁) op _).mp hagree
    obtain rfl : (plain c).outcome k₁ op = o :=
      Option.some.inj ((getElem?_outcomes_of_reach hreach₁ hop).symm.trans ho)
    exact hanswer.1
  · intro v
    have hcount : k.reference.pending.count v +
        (Outcome.elements (c.outcomes s w)).count v = expected.count v :=
      count_of_reach (b := plain c) rfl hreach v
    exact Nat.le_trans (Nat.le_add_left _ _) (Nat.le_of_eq hcount)

/-- An element that is returned next, and by that not too often, is still pending. -/
theorem any_pending_of_contained [EquivBEq α] {i : Nat} {x : α}
    (hreach : (plain c).reach (.start (.initial expected .indeterminate) s ()) (w.take i) =
      some k)
    (hop : w[i]? = some op) (hx : (plain c).outcome k op = .produced x)
    (hcontained : (Outcome.elements (c.outcomes s w)).count x ≤ expected.count x) :
    k.reference.pending.any (· == x) = true := by
  have hcount : k.reference.pending.count x +
      (Outcome.elements (c.outcomes s (w.take i))).count x = expected.count x :=
    count_of_reach (b := plain c) rfl hreach x
  have hsplit : c.outcomes s w = c.outcomes s (w.take i) ++ .produced x :: _ :=
    hx ▸ outcomes_of_reach hreach hop
  have hone : (Outcome.produced x).element?.toList.count x = 1 := by
    rw [Outcome.element?, Option.toList_some, List.count_singleton, if_pos BEq.rfl]
  rw [hsplit, Outcome.elements_append, Outcome.elements_cons, List.count_append,
    List.count_append, hone] at hcontained
  -- at most as many as expected, this one with them, so the balance is not used up yet
  have hpos : 0 < k.reference.pending.count x := by omega
  obtain ⟨y, hmem, hequal⟩ := List.countP_pos_iff.mp hpos
  exact List.any_eq_true.mpr ⟨y, hmem, hequal⟩

/-- **Sufficiency.**  At every place that is reached the kind of the next answer is right, and an
    element that it carries is still pending. -/
theorem reach_of_answersInAnyOrder [EquivBEq α]
    (h : w.AnswersInAnyOrder expected (c.outcomes s w)) :
    ∃ k, (plain c).reach (.start (.initial expected .indeterminate) s ()) w = some k := by
  refine exists_reach_of_next ?_
  intro i op k hop hreach
  have hi : i ≤ w.length := Nat.le_of_lt (List.getElem?_eq_some_iff.mp hop).1
  have hanswer := h.each i op _ hop (getElem?_outcomes_of_reach hreach hop)
  have hagree : (plain c).verdict k op = .agree :=
    (Reference.judge_eq_agree_iff (order_of_reach hreach) (length_pending_of_reach hreach)
      (canRemove_iff_due_of_reach hi hreach) op _).mpr
      ⟨hanswer, fun x hx => any_pending_of_contained hreach hop hx (h.contained x)⟩
  exact ⟨_, next?_plain_eq_some.mpr ⟨hagree, rfl⟩⟩

end Bench

namespace Runner

/-- **Acceptance in any order.**  A strict replay whose order is not part of the contract comes to
    a result.  It succeeds exactly if the outcomes of the word, all of them, are of the kinds that
    the word asks for, and return no element more often than it is expected. -/
theorem isSuccess_iff_answersInAnyOrder [BEq α] [EquivBEq α] (expected : List α)
    (c : Candidate σ α) (s : σ) (w : Word) :
    let r := (Runner.mk expected .indeterminate ⟨false⟩).replay c Hook.accepting s () w
    r.panic = none ∧
      ((r.record w).isSuccess = true ↔ w.AnswersInAnyOrder expected (c.outcomes s w)) := by
  intro r
  have hr : r = (Bench.plain c).run (.start (.initial expected .indeterminate) s ()) w := rfl
  have hpanic : r.panic = none :=
    Bench.panic_plain (c := c) (.start (.initial expected .indeterminate) s ()) w
  have hpasses : (r.record w).isSuccess = true ↔ r.Passes w := ⟨fun h => ⟨hpanic, h⟩, (·.success)⟩
  refine ⟨hpanic, ?_⟩
  rw [hpasses, hr, Bench.passes_iff_reach]
  constructor
  · rintro ⟨k, hreach⟩
    exact Bench.answersInAnyOrder_of_reach hreach
  · exact Bench.reach_of_answersInAnyOrder

/-- A cursor over the expected elements in another order, with a duplicate, a removal in between,
    a refused one and an exhausted production. -/
theorem isSuccess_iff_answersInAnyOrder_shuffled :
    let w : Word := [.produceNext, .removeLast, .removeLast, .produceNext, .hasMore,
      .produceNext, .hasMore, .produceNext]
    let os := Cursor.candidate.outcomes (Cursor.ofList [2, 1, 2]) w
    let r := (Runner.mk [1, 2, 2] .indeterminate ⟨false⟩).replay Cursor.candidate
      Hook.accepting (Cursor.ofList [2, 1, 2]) () w
    EquivBEq Nat ∧ r.panic = none ∧ (r.record w).isSuccess = true ∧
      w.AnswersInAnyOrder [1, 2, 2] os := by
  intro w os r
  have h := isSuccess_iff_answersInAnyOrder [1, 2, 2] Cursor.candidate (Cursor.ofList [2, 1, 2]) w
  have hsuccess : (r.record w).isSuccess = true := by decide
  exact ⟨inferInstance, h.1, hsuccess, h.2.mp hsuccess⟩

end Runner

end Lockstep
