import Lockstep.Proofs.Replay.AnyOrder
import Lockstep.Proofs.Serving

/-!
# Replays of candidates that serve a list

A candidate that serves `items` is held to a reference over `expected`.  As long as the elements
it returned are **accepted**, its replay can be read off two lengths and one number: how many
productions stand in front of a call.  Both lists have a next element, or only one of them, or
neither, and the verdict follows.

The invariant says what is pending.  In order it is the rest of the expected elements; in any
order it is what the returned ones leave of them (`Bench.perm_of_serves`).

* **`Reference.judge_produced`** — an element is judged by what the reference admits.
* **`Bench.admits_iff_accepts`** — and the reference admits what keeps the returned ones accepted.
* **`Bench.verdict_of_served`** — every call answered as the contract asks agrees, up to the first
  element that is not accepted.
-/

namespace Lockstep

universe u v w

variable {σ : Type u} {α : Type v} {η : Type w} [BEq α]

/-- The elements `xs`, produced one after the other, are **accepted**: in order they are the first
    of the expected ones, place by place; in any order they are some of them. -/
def Order.Accepts (order : Order) (expected xs : List α) : Prop :=
  match order with
  | .determinate =>
    ∀ (i : Nat) (y : α), xs[i]? = some y → ∃ x, expected[i]? = some x ∧ (x == y) = true
  | .indeterminate => xs.Subperm expected

namespace Order.Accepts

variable {order : Order} {expected xs : List α}

theorem length_le (h : order.Accepts expected xs) : xs.length ≤ expected.length := by
  cases order with
  | determinate =>
      by_contra hlt
      obtain ⟨x, hx, -⟩ := h _ _ (List.getElem?_eq_getElem (Nat.lt_of_not_le hlt))
      rw [List.getElem?_eq_none (Nat.le_refl _)] at hx
      exact nomatch hx
  | indeterminate => exact List.Subperm.length_le h

theorem nil (order : Order) (expected : List α) : order.Accepts expected [] := by
  cases order with
  | determinate =>
      intro i y hy
      exact nomatch hy
  | indeterminate => exact List.nil_subperm

/-- Initial segments of what is accepted are accepted. -/
theorem of_isPrefix {ys : List α} (h : order.Accepts expected xs) (hinitial : ys <+: xs) :
    order.Accepts expected ys := by
  cases order with
  | determinate =>
      obtain ⟨zs, rfl⟩ := hinitial
      intro i y hy
      refine h i y ?_
      rw [List.getElem?_append_left (List.getElem?_eq_some_iff.mp hy).1]
      exact hy
  | indeterminate => exact hinitial.sublist.subperm.trans h

theorem refl [LawfulBEq α] (order : Order) (xs : List α) : order.Accepts xs xs := by
  cases order with
  | determinate =>
      intro i y hy
      exact ⟨y, hy, BEq.rfl⟩
  | indeterminate => exact List.Subperm.refl xs

end Order.Accepts

/-- In order, one more element is accepted if it equals the one expected at its place. -/
theorem Order.accepts_determinate_concat {expected xs : List α} {y : α} :
    Order.determinate.Accepts expected (xs ++ [y]) ↔
      Order.determinate.Accepts expected xs ∧ expected[xs.length]?.any (· == y) = true := by
  constructor
  · intro h
    obtain ⟨x, hx, hequal⟩ := h xs.length y List.getElem?_concat_length
    refine ⟨h.of_isPrefix (List.prefix_append xs [y]), ?_⟩
    rw [hx]
    exact hequal
  · rintro ⟨h, hlast⟩ i z hz
    rcases Nat.lt_trichotomy i xs.length with hlt | rfl | hgt
    · rw [List.getElem?_append_left hlt] at hz
      exact h i z hz
    · rw [List.getElem?_concat_length] at hz
      obtain rfl := Option.some.inj hz
      exact (Option.any_eq_true _ _).mp hlast
    · rw [List.getElem?_eq_none (by rw [List.length_append]; exact hgt)] at hz
      exact nomatch hz

/-! ## Elements returned and elements pending -/

omit [BEq α] in
/-- A removal returns no element. -/
theorem Candidate.element?_perform_removeLast (c : Candidate σ α) (s : σ) :
    (c.perform .removeLast s).1.element? = none := by
  show ((c.removeLast s).1.toOutcome fun _ => .removed).element? = none
  cases (c.removeLast s).1 <;> rfl

omit [BEq α] in
/-- A candidate that serves a list returns its elements from the front, one for each production. -/
theorem Candidate.Serves.elements_outcomes {c : Candidate σ α} {s : σ} {items : List α}
    (h : c.Serves s items) (u : Word) :
    Outcome.elements (c.outcomes s u) = items.take (u.count .produceNext) := by
  induction u using List.reverseRecOn with
  | nil => rfl
  | append_singleton u op ih =>
      rw [Candidate.outcomes_append, Outcome.elements_append, ih, Word.count_snoc,
        Candidate.outcomes_cons, Outcome.elements_cons]
      cases op with
      | hasMore =>
          rw [h u .hasMore Operation.noConfusion]
          exact List.append_nil _
      | produceNext =>
          rw [h u .produceNext Operation.noConfusion, if_pos rfl, List.take_add_one, Word.served]
          cases items[u.count .produceNext]? <;> rfl
      | removeLast =>
          rw [element?_perform_removeLast]
          exact List.append_nil _

/-- **An element is judged** by what the reference admits. -/
theorem Reference.judge_produced {r : Reference α} {j : Judge} {previous : Option (Outcome α)}
    (hpending : 0 < r.pending.length) (y : α) :
    j.judge (r.predict .produceNext) (.produced y) previous =
      if r.admits y then .agree else .diverge .valueMismatch := by
  cases horder : r.order with
  | determinate =>
      obtain ⟨x, xs, hxs⟩ := List.exists_cons_of_length_pos hpending
      rw [predict_produceNext_of_determinate horder hxs, admits, horder, hxs]
      rfl
  | indeterminate =>
      rw [predict_produceNext_of_indeterminate horder hpending, admits, horder]
      rfl

namespace Bench

variable {b : Bench σ α η} {k : Checkpoint σ α η} {u : Word} {s : σ} {h : η}
  {expected items : List α} {order : Order}

/-- What a checkpoint behind `u` has pending. -/
theorem length_pending (hreach : b.reach (.start (.initial expected order) s h) u = some k) :
    k.reference.pending.length = expected.length - u.count .produceNext :=
  (fits_of_reach (Reference.fits_initial expected order) hreach).pending.trans
    (Shape.pending_afterAll _ _)

section

variable (hserves : b.candidate.Serves s items)
  (hreach : b.reach (.start (.initial expected order) s h) u = some k)

include hserves hreach

theorem outcome_of_serves {op : Operation} (hop : op ≠ .removeLast) :
    b.outcome k op = u.served items op := by
  rw [outcome, candidate_of_reach hreach]
  exact hserves u op hop

/-- **In any order** the pending elements are what the returned ones leave of the expected ones. -/
theorem perm_of_serves [LawfulBEq α] (horder : order = .indeterminate) :
    (items.take (u.count .produceNext) ++ k.reference.pending).Perm expected := by
  refine List.perm_iff_count.mpr fun v => ?_
  have hcount : k.reference.pending.count v +
      (Outcome.elements (b.candidate.outcomes s u)).count v = expected.count v :=
    count_of_reach horder hreach v
  rw [hserves.elements_outcomes] at hcount
  rw [List.count_append, Nat.add_comm]
  exact hcount

/-- **The next element** is admitted exactly if the returned ones are accepted together with it. -/
theorem admits_iff_accepts (hlaw : order = .indeterminate → LawfulBEq α)
    (hnext : u.count .produceNext < items.length)
    (haccepts : order.Accepts expected (items.take (u.count .produceNext))) :
    k.reference.admits items[u.count .produceNext] = true ↔
      order.Accepts expected (items.take (u.count .produceNext + 1)) := by
  have horder : k.reference.order = order := order_of_reach hreach
  rw [List.take_add_one, List.getElem?_eq_getElem hnext, Option.toList_some, Reference.admits,
    horder]
  cases order with
  | determinate =>
      have hpending : k.reference.pending = expected.drop (u.count .produceNext) :=
        pending_of_reach rfl hreach
      have hlen : (items.take (u.count .produceNext)).length = u.count .produceNext := by
        rw [List.length_take]
        exact Nat.min_eq_left (Nat.le_of_lt hnext)
      rw [Order.accepts_determinate_concat, hlen, hpending, List.head?_drop]
      exact (and_iff_right haccepts).symm
  | indeterminate =>
      have _ := hlaw rfl
      have hperm := perm_of_serves hserves hreach rfl
      show k.reference.pending.any (· == _) = true ↔ List.Subperm _ expected
      -- what was returned before stands on both sides
      rw [← hperm.subperm_left, List.subperm_append_left, List.singleton_subperm_iff]
      simp

/-! ## Verdicts -/

/-- Both lists have an element left. -/
theorem verdict_of_lt (hleft : u.count .produceNext < expected.length)
    (hnext : u.count .produceNext < items.length) :
    b.verdict k .produceNext =
      if k.reference.admits items[u.count .produceNext] then .agree
      else .diverge .valueMismatch := by
  have hlen := length_pending hreach
  rw [verdict, outcome_of_serves hserves hreach Operation.noConfusion,
    Word.served_produceNext_of_lt hnext]
  exact Reference.judge_produced (by omega) _

/-- The candidate goes on behind the last expected element. -/
theorem verdict_of_more (hleft : expected.length ≤ u.count .produceNext)
    (hnext : u.count .produceNext < items.length) :
    b.verdict k .produceNext = .diverge (.missingFault .exhausted) := by
  have hlen := length_pending hreach
  have hnil : k.reference.pending = [] := List.length_eq_zero_iff.mp (by omega)
  rw [verdict, outcome_of_serves hserves hreach Operation.noConfusion,
    Word.served_produceNext_of_lt hnext, Reference.predict_eq_exhausted.mpr ⟨rfl, hnil⟩]
  rfl

/-- The candidate ends in front of an expected element. -/
theorem verdict_of_fewer (hleft : u.count .produceNext < expected.length)
    (hnext : items.length ≤ u.count .produceNext) :
    b.verdict k .produceNext = .diverge (.unexpectedFault .exhausted) := by
  have hlen := length_pending hreach
  have horder : k.reference.order = order := order_of_reach hreach
  obtain ⟨x, xs, hxs⟩ := List.exists_cons_of_length_pos (l := k.reference.pending) (by omega)
  rw [verdict, outcome_of_serves hserves hreach Operation.noConfusion,
    Word.served_produceNext_of_le hnext]
  cases order with
  | determinate =>
      rw [Reference.predict_produceNext_of_determinate horder hxs]
      rfl
  | indeterminate =>
      rw [Reference.predict_produceNext_of_indeterminate horder (by omega)]
      rfl

/-- Both end. -/
theorem verdict_of_neither (hleft : expected.length ≤ u.count .produceNext)
    (hnext : items.length ≤ u.count .produceNext) : b.verdict k .produceNext = .agree := by
  have hlen := length_pending hreach
  have hnil : k.reference.pending = [] := List.length_eq_zero_iff.mp (by omega)
  rw [verdict, outcome_of_serves hserves hreach Operation.noConfusion,
    Word.served_produceNext_of_le hnext, Reference.predict_eq_exhausted.mpr ⟨rfl, hnil⟩]
  rfl

theorem verdict_hasMore (h : u.count .produceNext < expected.length ↔
    u.count .produceNext < items.length) : b.verdict k .hasMore = .agree := by
  have hlen := length_pending hreach
  have hmore : 0 < k.reference.pending.length ↔ u.count .produceNext < items.length := by omega
  rw [verdict, outcome_of_serves hserves hreach Operation.noConfusion, Word.served,
    Reference.predict_hasMore, decide_eq_decide.mpr hmore]
  exact if_pos rfl

end

/-- A removal is predicted where it is due. -/
theorem predict_removeLast (hreach : b.reach (.start (.initial expected order) s h) u = some k) :
    k.reference.predict .removeLast =
      if ((Shape.initial expected.length).afterAll u).canRemove then .removed
      else .fault .illegalRemoval := by
  rw [Reference.predict, (fits_of_reach (Reference.fits_initial expected order) hreach).canRemove]

/-- A removal agrees where both sides say alike whether it is due. -/
theorem verdict_removeLast (hreach : b.reach (.start (.initial expected order) s h) u = some k)
    (hmark : ((Shape.initial expected.length).afterAll u).canRemove =
      ((Shape.initial items.length).afterAll u).canRemove)
    (hout : b.outcome k .removeLast = u.served items .removeLast) :
    b.verdict k .removeLast = .agree := by
  rw [verdict, hout, Word.served, predict_removeLast hreach, hmark]
  cases ((Shape.initial items.length).afterAll u).canRemove <;> rfl

end Bench

/-- **Agreement.**  A call that is answered as the contract asks agrees, as long as the elements
    in front of it are accepted, and for ever if all elements are. -/
theorem Bench.verdict_of_served {b : Bench σ α η} {k : Checkpoint σ α η} {u : Word} {s : σ} {h : η}
    {expected items : List α} {order : Order} {l : Nat} {op : Operation}
    (hserves : b.candidate.Serves s items)
    (hreach : b.reach (.start (.initial expected order) s h) u = some k)
    (hlaw : order = .indeterminate → LawfulBEq α) (hl : l ≤ items.length)
    (haccepts : order.Accepts expected (items.take l))
    (hcount : u.count .produceNext < l ∨ l = expected.length ∧ l = items.length)
    (hout : b.outcome k op = u.served items op) : b.verdict k op = .agree := by
  have hlen := haccepts.length_le
  rw [List.length_take, Nat.min_eq_left hl] at hlen
  cases op with
  | hasMore => exact verdict_hasMore hserves hreach (by omega)
  | produceNext =>
      rcases Nat.lt_or_ge (u.count .produceNext) l with hlt | hge
      · have hshort : order.Accepts expected (items.take (u.count .produceNext)) :=
          haccepts.of_isPrefix (List.take_prefix_take_left (Nat.le_of_lt hlt))
        have hlong : order.Accepts expected (items.take (u.count .produceNext + 1)) :=
          haccepts.of_isPrefix (List.take_prefix_take_left hlt)
        rw [verdict_of_lt hserves hreach (by omega) (by omega)]
        exact if_pos ((admits_iff_accepts hserves hreach hlaw (by omega) hshort).mpr hlong)
      · -- all elements of both lists were accepted
        exact verdict_of_neither hserves hreach (by omega) (by omega)
  | removeLast =>
      refine verdict_removeLast hreach ?_ hout
      rcases hcount with hlt | ⟨hn, hm⟩
      · exact Shape.canRemove_eq_of_count_le (by omega) (by omega)
      · rw [← hn, ← hm]

end Lockstep
