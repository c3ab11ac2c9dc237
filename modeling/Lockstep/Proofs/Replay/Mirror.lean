import Lockstep.Proofs.Cursor
import Lockstep.Proofs.Order
import Lockstep.Proofs.Replay.Extent

/-!
# Replays of the cursor

The cursor over the expected elements never diverges, and what the hook is shown is what really
stands behind the cursor.  In order the two states are the same (`Cursor.Tracks`).  In any order the
cursor may hold the elements in another order than the reference does, and then the reference in the
middle tells the two apart: the cursor tracks it, and the one that the replay keeps rearranges it.

* **`Cursor.Mirrors`** — the relation between cursor and reference, for both orders.
* **`Cursor.Mirrors.judge_eq_agree`**, **`Cursor.Mirrors.settle`** — one call: it agrees, and the
  relation carries on.
* **`Runner.cursor_agrees`** — whole replays: no false alarm, and the view is the real contents.
-/

namespace Lockstep

universe u v

variable {α : Type u} {η : Type v}

/-! ## What is shown -/

/-- Whether two lists hold the same elements, as far as the order contract tells. -/
def Order.SameElements : Order → List α → List α → Prop
  | .determinate, xs, ys => xs = ys
  | .indeterminate, xs, ys => xs.Perm ys

/-- A view **shows** the real contents behind a cursor: what was produced is what stands in front of
    the cursor, and all that is retained is the contents. -/
structure View.Shows (v : View α) (order : Order) (c : Cursor α) : Prop where
  produced : v.produced = c.contents.take c.next
  retained : order.SameElements v.retained c.contents

namespace Cursor

/-- A cursor **mirrors** a reference: it tracks it, or it tracks one that differs only in the order
    of the pending elements. -/
inductive Mirrors (c : Cursor α) (r : Reference α) : Prop where
  | inOrder (h : c.Tracks r)
  | inAnyOrder {r₀ : Reference α} (h : c.Tracks r₀) (hr : r₀.inAnyOrder.Rearranges r)

theorem mirrors_ofList {items expected : List α} {order : Order}
    (h : order.SameElements items expected) : (ofList items).Mirrors (.initial expected order) := by
  cases order with
  | determinate =>
      obtain rfl : items = expected := h
      exact .inOrder (tracks_ofList items)
  | indeterminate => exact .inAnyOrder (tracks_ofList items) (Reference.rearranges_initial h)

variable {c : Cursor α} {r : Reference α}

/-- What a tracked reference has produced stands in front of the cursor. -/
theorem produced_of_tracks (h : c.Tracks r) : r.produced = c.contents.take c.next := by
  rw [contents, h.items, h.next, List.take_left]

theorem Mirrors.shows (h : c.Mirrors r) : r.view.Shows r.order c := by
  cases h with
  | inOrder h =>
      refine ⟨produced_of_tracks h, ?_⟩
      rw [h.order]
      exact h.items.symm
  | @inAnyOrder r₀ h hr =>
      have hproduced : r.produced = r₀.produced := hr.view.produced
      refine ⟨hproduced.trans (produced_of_tracks h), ?_⟩
      rw [hr.order']
      show r.view.retained.Perm c.items
      rw [h.items]
      exact hr.view.retained.symm

/-! ## One call -/

/-- With lawful equality an outcome agrees with itself. -/
theorem agrees_self [BEq α] [LawfulBEq α] (o : Outcome α) : o.Agrees o := by
  cases o with
  | hasMore more => exact .hasMore more
  | produced x => exact .produced (beq_self_eq_true x)
  | removed => exact .removed
  | failed f => exact .failed rfl

variable [BEq α] [LawfulBEq α] {j : Judge} {op : Operation} {previous : Option (Outcome α)}

theorem judge_of_tracks (h : c.Tracks r) :
    j.judge (r.predict op) (candidate.perform op c).1 previous = .agree := by
  rw [← demand_of_tracks h op]
  exact Judge.demand_eq_agree.mpr (agrees_self _)

namespace Mirrors

/-- **No false alarm.**  The judge agrees with every call on the cursor. -/
theorem judge_eq_agree (h : c.Mirrors r) :
    j.judge (r.predict op) (candidate.perform op c).1 previous = .agree := by
  cases h with
  | inOrder h => exact judge_of_tracks h
  | @inAnyOrder r₀ h hr =>
      have hagree : j.judge (r₀.predict op) (candidate.perform op c).1 previous = .agree :=
        judge_of_tracks h
      rw [Judge.judge_of_rearranges (hr.predict op),
        Judge.judge_of_loosens (Reference.predict_inAnyOrder h.order op) (by rw [hagree]; rfl),
        hagree]

/-- **The mirror carries on** behind every call. -/
theorem settle (h : c.Mirrors r) :
    (candidate.perform op c).2.Mirrors (r.settle op (candidate.perform op c).1 .agree) := by
  cases h with
  | inOrder h => exact .inOrder (tracks_perform h op _)
  | @inAnyOrder r₀ h hr =>
      have hagree : (Judge.mk false).judge (r₀.predict op) (candidate.perform op c).1 none =
          .agree := judge_of_tracks h
      have hv : ((Judge.mk false).judge (r₀.predict op) (candidate.perform op c).1
          none).isAcceptable = true := by rw [hagree]; rfl
      have hloose := Judge.judge_of_loosens (Reference.predict_inAnyOrder h.order op) hv
      -- first the order is given up, then the pending elements are rearranged
      have hsettled := hr.settle (hloose ▸ hv)
      rw [hloose, hagree, Reference.settle_inAnyOrder h.order hv] at hsettled
      exact .inAnyOrder (tracks_perform h op _) hsettled

end Mirrors

end Cursor

/-! ## Whole replays -/

namespace Bench

/-- The bench with the cursor on it. -/
def ofCursor (j : Judge) (hook : Hook η (Cursor α) α) : Bench (Cursor α) α η :=
  ⟨j, Cursor.candidate, hook⟩

variable [BEq α] [LawfulBEq α] {j : Judge} {hook : Hook η (Cursor α) α}
  {k k' : Checkpoint (Cursor α) α η} {op : Operation}

theorem verdict_of_mirrors (h : k.candidate.Mirrors k.reference) :
    (ofCursor j hook).verdict k op = .agree := h.judge_eq_agree

theorem mirrors_behind (h : k.candidate.Mirrors k.reference) :
    ((ofCursor j hook).behind k op).candidate.Mirrors
      ((ofCursor j hook).settled k op) := by
  show (Cursor.candidate.perform op k.candidate).2.Mirrors
    (k.reference.settle op _ ((ofCursor j hook).verdict k op))
  rw [verdict_of_mirrors h]
  exact h.settle

/-- What the hook is shown behind a call is what stands behind the cursor. -/
theorem shows_behind (h : k.candidate.Mirrors k.reference) :
    ((ofCursor j hook).settled k op).view.Shows k.reference.order
      ((ofCursor j hook).behind k op).candidate := by
  have horder : ((ofCursor j hook).settled k op).order = k.reference.order :=
    Reference.order_settle _ _
  rw [← horder]
  exact (mirrors_behind h).shows

variable {order : Order} (hhook : ∀ h v c, v.Shows order c → (hook h v c).1 = .accept)

include hhook

theorem next?_of_mirrors (h : k.candidate.Mirrors k.reference) (horder : k.reference.order = order)
    (op : Operation) :
    (ofCursor j hook).next? k op = some ((ofCursor j hook).behind k op) := by
  refine next?_eq_some.mpr ⟨?_, ?_, rfl⟩
  · rw [verdict_of_mirrors h]
    rfl
  · exact hhook _ _ _ (horder ▸ shows_behind h)

/-- **Every word is got through**, and the mirror stands behind it. -/
theorem exists_reach_of_mirrors (h : k.candidate.Mirrors k.reference)
    (horder : k.reference.order = order) (w : Word) :
    ∃ k', (ofCursor j hook).reach k w = some k' ∧ k'.candidate.Mirrors k'.reference ∧
      k'.reference.order = order := by
  induction w generalizing k with
  | nil => exact ⟨k, rfl, h, horder⟩
  | cons op w ih =>
      rw [reach, next?_of_mirrors hhook h horder op]
      exact ih (mirrors_behind h) ((Reference.order_settle _ _).trans horder)

/-- **One place of a replay**: the call agrees, and the hook is shown what the cursor holds once it
    has made the calls up to this one. -/
theorem place_of_mirrors (h : k.candidate.Mirrors k.reference) (horder : k.reference.order = order)
    {w : Word} {i : Nat} (hop : w[i]? = some op) :
    ∃ step view, ((ofCursor j hook).run k w).steps[i]? = some step ∧
      step.index = k.index + i ∧ step.operation = op ∧ step.verdict = .agree ∧
      ((ofCursor j hook).run k w).views[i]? = some view ∧
      view.Shows order (Cursor.candidate.stateAfter k.candidate (w.take (i + 1))) := by
  obtain ⟨k', hreach, hmirrors, horder'⟩ :=
    exists_reach_of_mirrors (j := j) hhook h horder (w.take i)
  have hnext := next?_of_mirrors (j := j) hhook hmirrors horder' op
  have hindex : k'.index = k.index + i := by
    rw [index_of_reach hreach, List.length_take,
      Nat.min_eq_left (Nat.le_of_lt (List.getElem?_eq_some_iff.mp hop).1)]
  have hbehind : ((ofCursor j hook).behind k' op).candidate =
      Cursor.candidate.stateAfter k.candidate (w.take (i + 1)) :=
    candidate_behind_of_reach hreach hop
  refine ⟨_, _, (steps_getElem?_of_reach hreach hop).trans (step?_of_next hnext), hindex, rfl,
    verdict_of_mirrors hmirrors, (views_getElem?_of_reach hreach hop).trans (view?_of_next hnext),
    ?_⟩
  rw [← hbehind, ← horder']
  exact shows_behind hmirrors

end Bench

/-- **The cursor never diverges, and the view is the real contents.**  A replay of the cursor over
    the expected elements, in any order if the contract leaves it open, makes every call of its word
    in agreement with the reference, illegal removals and productions past the end included.  Behind
    each call the hook is shown the contents of the cursor at that point. -/
theorem Runner.cursor_agrees [BEq α] [LawfulBEq α] (runner : Runner α) {items : List α}
    (hitems : runner.order.SameElements items runner.expected) {hook : Hook η (Cursor α) α}
    (hhook : ∀ h v c, v.Shows runner.order c → (hook h v c).1 = .accept) (h : η) (w : Word) :
    let r := runner.replay Cursor.candidate hook (.ofList items) h w
    r.Passes w ∧ r.steps.length = w.length ∧ r.views.length = w.length ∧
      ∀ i op, w[i]? = some op → ∃ (step : Step α) (view : View α), r.steps[i]? = some step ∧
        step.index = i ∧ step.operation = op ∧ step.verdict = .agree ∧ r.views[i]? = some view ∧
        view.Shows runner.order (Cursor.candidate.stateAfter (.ofList items) (w.take (i + 1))) := by
  intro r
  let k : Checkpoint (Cursor α) α η :=
    .start (.initial runner.expected runner.order) (.ofList items) h
  have hrun : r = (Bench.ofCursor runner.judge hook).run k w := rfl
  have hk : k.candidate.Mirrors k.reference := Cursor.mirrors_ofList hitems
  obtain ⟨last, hreach, -⟩ :=
    Bench.exists_reach_of_mirrors (j := runner.judge) hhook hk rfl w
  obtain ⟨hsteps, hviews⟩ := Bench.length_of_reach hreach
  rw [hrun]
  refine ⟨(Bench.passes_iff_reach w).mpr ⟨last, hreach⟩, hsteps, hviews, ?_⟩
  intro i op hop
  obtain ⟨step, view, hstep, hindex, hplace⟩ :=
    Bench.place_of_mirrors (j := runner.judge) hhook hk rfl hop
  exact ⟨step, view, hstep, hindex.trans (Nat.zero_add i), hplace⟩

/-- The cursor over another listing with a duplicate, with a hook that looks at the produced
    elements and counts its calls, through two illegal removals and a production past the end. -/
theorem Runner.cursor_agrees_shuffled :
    let runner : Runner Nat := ⟨[5, 7, 5], .indeterminate, ⟨true⟩⟩
    let hook : Hook Nat (Cursor Nat) Nat := fun h v c =>
      if v.produced = c.contents.take c.next then (.accept, h + 1)
      else (.reject "produced", h)
    let w : Word := [.removeLast, .produceNext, .removeLast, .removeLast, .produceNext,
      .produceNext, .produceNext, .hasMore]
    let r := runner.replay Cursor.candidate hook (.ofList [7, 5, 5]) 0 w
    runner.order.SameElements [7, 5, 5] runner.expected ∧
      (∀ h v c, v.Shows runner.order c → (hook h v c).1 = .accept) ∧
      r.Passes w ∧ r.views.length = 8 ∧
      ∃ view, r.views[7]? = some view ∧ view.produced = [5, 5] := by
  intro runner hook w r
  have hitems : runner.order.SameElements [7, 5, 5] runner.expected :=
    show [7, 5, 5].Perm [5, 7, 5] by decide
  have hhook : ∀ h v c, v.Shows runner.order c → (hook h v c).1 = .accept := by
    intro h v c hshows
    show (if v.produced = c.contents.take c.next then _ else _ : HookAnswer × Nat).1 = _
    rw [if_pos hshows.produced]
  obtain ⟨hpasses, -, hviews, hplaces⟩ := runner.cursor_agrees hitems hhook 0 w
  obtain ⟨step, view, -, -, -, -, hview, hshows⟩ := hplaces 7 .hasMore rfl
  exact ⟨hitems, hhook, hpasses, hviews, view, hview, hshows.produced⟩

end Lockstep
