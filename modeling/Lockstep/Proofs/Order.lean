import Lockstep.Proofs.Fits

/-!
# What the order contract changes

With a determinate order the reference takes the first pending element and looks at none that a
candidate produced.  In any order it takes the first pending element that is equal to the one
produced.  This file compares two references for which that comes to the same.

* **`Reference.settle_inAnyOrder`** — a reference that gives its order up moves on as before, while
  the judge accepts by the order that was given up: the first element that is equal stands at the
  head.  Nothing is assumed of equality.
* **`Reference.Rearranges.settle`** — two references in any order that hold the same pending
  elements, each in an order of its own, move on alike.  Here equality has to be lawful, so that
  both give away one and the same element.
-/

namespace Lockstep

universe u

variable {α : Type u}

/-! ## Giving the order up -/

/-- What becomes of an expectation when the order is given up: a single element becomes the head of
    all that are pending, and nothing else changes. -/
inductive Expectation.Loosens : Expectation α → Expectation α → Prop where
  | element (x : α) (xs : List α) : Loosens (.element x) (.anyOf (x :: xs))
  | hasMore (more : Bool) : Loosens (.hasMore more) (.hasMore more)
  | removed : Loosens .removed .removed
  | fault (kind : FaultKind) : Loosens (.fault kind) (.fault kind)

namespace Judge

variable [BEq α] {j : Judge} {expected expected' : Expectation α} {actual : Outcome α}
  {previous : Option (Outcome α)}

theorem isAcceptable_element {x : α} :
    (j.judge (.element x) actual previous).isAcceptable = true ↔
      ∃ y, actual = .produced y ∧ (x == y) = true := by
  cases actual with
  | hasMore got => simp [judge, Verdict.isAcceptable]
  | produced y =>
      cases hxy : x == y <;> simp [judge, hxy, Verdict.isAcceptable]
  | removed => simp [judge, Verdict.isAcceptable]
  | failed f => simp [judge, Verdict.isAcceptable]

/-- **What is accepted in order is accepted in any order**, with the same verdict. -/
theorem judge_of_loosens (h : expected.Loosens expected')
    (hv : (j.judge expected actual previous).isAcceptable = true) :
    j.judge expected' actual previous = j.judge expected actual previous := by
  cases h with
  | element x xs =>
      obtain ⟨y, rfl, hxy⟩ := isAcceptable_element.mp hv
      have hany : (x :: xs).any (· == y) = true := by
        rw [List.any_cons, hxy, Bool.true_or]
      rw [anyOf_eq_agree.mpr ⟨y, rfl, hany⟩]
      exact (if_pos hxy).symm
  | hasMore more => rfl
  | removed => rfl
  | fault kind => rfl

end Judge

namespace Reference

/-- The reference with its order given up. -/
def inAnyOrder (r : Reference α) : Reference α := { r with order := .indeterminate }

variable {r r' : Reference α} {op : Operation}

theorem predict_inAnyOrder (horder : r.order = .determinate) (op : Operation) :
    (r.predict op).Loosens (r.inAnyOrder.predict op) := by
  cases op with
  | hasMore => exact .hasMore _
  | produceNext =>
      cases hpending : r.pending with
      | nil =>
          rw [predict_eq_exhausted.mpr ⟨rfl, hpending⟩,
            (predict_eq_exhausted (r := r.inAnyOrder)).mpr ⟨rfl, hpending⟩]
          exact .fault .exhausted
      | cons x xs =>
          have hpos : 0 < r.inAnyOrder.pending.length := by
            show 0 < r.pending.length
            rw [hpending]
            exact Nat.succ_pos _
          rw [predict_produceNext_of_determinate horder hpending,
            predict_produceNext_of_indeterminate rfl hpos]
          show Expectation.Loosens _ (.anyOf r.pending)
          rw [hpending]
          exact .element x xs
  | removeLast =>
      show (if r.canRemove then _ else _ : Expectation α).Loosens (if r.canRemove then _ else _)
      cases r.canRemove with
      | true => exact .removed
      | false => exact .fault .illegalRemoval

/-- An element equal to the first pending one takes that one, whatever the order. -/
theorem position_of_head [BEq α] {x y : α} {xs : List α} (hpending : r.pending = x :: xs)
    (hxy : (x == y) = true) : r.position (some y) = 0 := by
  cases horder : r.order with
  | determinate => simp [position, horder]
  | indeterminate => simp [position, horder, hpending, List.findIdx?_cons, hxy]

theorem produceAt_inAnyOrder (r : Reference α) (i : Nat) :
    r.inAnyOrder.produceAt i = (r.produceAt i).inAnyOrder := by
  have hpending : r.inAnyOrder.pending = r.pending := rfl
  rw [produceAt, produceAt, hpending]
  cases r.pending[i]? <;> rfl

/-- **Giving the order up** changes nothing about how a reference moves on, while the judge accepts
    by its order. -/
theorem settle_inAnyOrder [BEq α] {j : Judge} {actual : Outcome α}
    {previous : Option (Outcome α)} (horder : r.order = .determinate)
    (hv : (j.judge (r.predict op) actual previous).isAcceptable = true) (v : Verdict) :
    r.inAnyOrder.settle op actual v = (r.settle op actual v).inAnyOrder := by
  cases v with
  | agree =>
      cases op with
      | hasMore => rfl
      | produceNext =>
          show r.inAnyOrder.advance .produceNext actual.element? =
            (r.advance .produceNext actual.element?).inAnyOrder
          cases hpending : r.pending with
          | nil =>
              rw [advance_produceNext_of_pending_nil hpending,
                advance_produceNext_of_pending_nil (r := r.inAnyOrder) hpending]
          | cons x xs =>
              rw [predict_produceNext_of_determinate horder hpending] at hv
              obtain ⟨y, rfl, hxy⟩ := Judge.isAcceptable_element.mp hv
              show r.inAnyOrder.produceAt (r.inAnyOrder.position (some y)) =
                (r.produceAt (r.position (some y))).inAnyOrder
              rw [position_of_head (r := r.inAnyOrder) hpending hxy, position_of_head hpending hxy,
                produceAt_inAnyOrder]
      | removeLast =>
          show r.inAnyOrder.dropProduced = r.dropProduced.inAnyOrder
          rw [dropProduced, dropProduced]
          cases hmark : r.canRemove <;> simp [inAnyOrder, hmark]
  | tolerated => rfl
  | diverge violation => rfl

end Reference

/-! ## Rearranging the pending elements -/

/-- Two expectations are the same, up to the order of the elements that may come. -/
inductive Expectation.Rearranges : Expectation α → Expectation α → Prop where
  | anyOf {xs ys : List α} (h : xs.Perm ys) : Rearranges (.anyOf xs) (.anyOf ys)
  | refl (e : Expectation α) : Rearranges e e

/-- Two views show the same produced elements in the same order, and the same pending ones in any
    order. -/
structure View.Rearranges (v v' : View α) : Prop where
  produced : v'.produced = v.produced
  pending : v.pending.Perm v'.pending

theorem View.Rearranges.retained {v v' : View α} (h : v.Rearranges v') :
    v.retained.Perm v'.retained := by
  rw [View.retained, View.retained, h.produced]
  exact h.pending.append_left _

/-- The judge looks for an element among those that may come, wherever it stands. -/
theorem Judge.judge_of_rearranges [BEq α] {expected expected' : Expectation α}
    (h : expected.Rearranges expected') (j : Judge) (actual : Outcome α)
    (previous : Option (Outcome α)) :
    j.judge expected' actual previous = j.judge expected actual previous := by
  cases h with
  | anyOf hperm =>
      cases actual with
      | produced x => rw [judge, judge, hperm.any_eq]
      | hasMore more => rfl
      | removed => rfl
      | failed f => rfl
  | refl => rfl

namespace Reference

/-- Two references in any order differ only in the order of their pending elements. -/
structure Rearranges (r r' : Reference α) : Prop where
  order : r.order = .indeterminate
  order' : r'.order = .indeterminate
  view : r.view.Rearranges r'.view
  canRemove : r'.canRemove = r.canRemove

theorem rearranges_initial {xs ys : List α} (h : xs.Perm ys) :
    (initial xs .indeterminate).Rearranges (initial ys .indeterminate) :=
  ⟨rfl, rfl, ⟨rfl, h⟩, rfl⟩

/-- A production of a pending element, in any order and with lawful equality, takes that element. -/
theorem advance_of_mem [BEq α] [LawfulBEq α] {r : Reference α} {x : α}
    (horder : r.order = .indeterminate) (hx : x ∈ r.pending) :
    r.advance .produceNext (some x) =
      { r with
        produced := r.produced ++ [x]
        pending := r.pending.erase x
        canRemove := true } := by
  have hany : r.pending.any (· == x) = true := List.any_eq_true.mpr ⟨x, hx, beq_self_eq_true x⟩
  obtain ⟨hlt, hequal⟩ := exists_position horder hany
  have herase : r.pending.eraseIdx (r.position (some x)) = r.pending.erase x := by
    obtain ⟨i, hi⟩ := Option.isSome_iff_exists.mp ((List.findIdx?_isSome).trans hany)
    rw [List.erase_eq_eraseP', List.eraseP_eq_eraseIdx, hi]
    simp [position, horder, hi]
  show r.produceAt (r.position (some x)) = _
  rw [produceAt_of_lt hlt, eq_of_beq hequal, herase]

namespace Rearranges

variable {r r' : Reference α}

theorem predict (h : r.Rearranges r') (op : Operation) :
    (r.predict op).Rearranges (r'.predict op) := by
  have hlen : r'.pending.length = r.pending.length := h.view.pending.length_eq.symm
  cases op with
  | hasMore =>
      rw [predict_hasMore, predict_hasMore, hlen]
      exact .refl _
  | produceNext =>
      rcases Nat.eq_zero_or_pos r.pending.length with hzero | hpos
      · have hnil : r.pending = [] := List.length_eq_zero_iff.mp hzero
        have hnil' : r'.pending = [] := List.length_eq_zero_iff.mp (hlen.trans hzero)
        rw [predict_eq_exhausted.mpr ⟨rfl, hnil⟩, predict_eq_exhausted.mpr ⟨rfl, hnil'⟩]
        exact .refl _
      · rw [predict_produceNext_of_indeterminate h.order hpos,
          predict_produceNext_of_indeterminate h.order' (hlen.symm ▸ hpos)]
        exact .anyOf h.view.pending
  | removeLast =>
      rw [Reference.predict, Reference.predict, h.canRemove]
      exact .refl _

/-- Both give the same element away. -/
theorem advance_produceNext [BEq α] [LawfulBEq α] (h : r.Rearranges r') {x : α}
    (hx : x ∈ r.pending) :
    (r.advance .produceNext (some x)).Rearranges (r'.advance .produceNext (some x)) := by
  have hx' : x ∈ r'.pending := h.view.pending.mem_iff.mp hx
  rw [advance_of_mem h.order hx, advance_of_mem h.order' hx']
  refine ⟨h.order, h.order', ⟨?_, h.view.pending.erase x⟩, rfl⟩
  exact congrArg (· ++ [x]) h.view.produced

theorem dropProduced (h : r.Rearranges r') : r.dropProduced.Rearranges r'.dropProduced := by
  have hproduced : r'.produced = r.produced := h.view.produced
  rw [Reference.dropProduced, Reference.dropProduced, h.canRemove]
  cases r.canRemove with
  | true => exact ⟨h.order, h.order', ⟨congrArg List.dropLast hproduced, h.view.pending⟩, rfl⟩
  | false => exact h

/-- **References that differ in the order of their pending elements** go on doing so, whatever the
    judge accepts. -/
theorem settle [BEq α] [LawfulBEq α] {j : Judge} {op : Operation} {actual : Outcome α}
    {previous : Option (Outcome α)} (h : r.Rearranges r')
    (hv : (j.judge (r.predict op) actual previous).isAcceptable = true) :
    (r.settle op actual (j.judge (r.predict op) actual previous)).Rearranges
      (r'.settle op actual (j.judge (r.predict op) actual previous)) := by
  cases hverdict : j.judge (r.predict op) actual previous with
  | agree =>
      cases op with
      | hasMore => exact h
      | produceNext =>
          show (r.advance .produceNext actual.element?).Rearranges
            (r'.advance .produceNext actual.element?)
          rcases Nat.eq_zero_or_pos r.pending.length with hzero | hpos
          · -- nothing is pending on either side, so nothing moves
            have hnil : r.pending = [] := List.length_eq_zero_iff.mp hzero
            have hnil' : r'.pending = [] :=
              List.length_eq_zero_iff.mp (h.view.pending.length_eq.symm.trans hzero)
            rw [advance_produceNext_of_pending_nil hnil, advance_produceNext_of_pending_nil hnil']
            exact h
          · rw [predict_produceNext_of_indeterminate h.order hpos] at hverdict
            obtain ⟨x, rfl, hx⟩ := Judge.anyOf_eq_agree.mp hverdict
            obtain ⟨y, hmem, hequal⟩ := List.any_eq_true.mp hx
            rw [eq_of_beq hequal] at hmem
            exact h.advance_produceNext hmem
      | removeLast => exact h.dropProduced
  | tolerated => exact ⟨h.order, h.order', h.view, rfl⟩
  | diverge violation =>
      rw [hverdict] at hv
      exact absurd hv Bool.false_ne_true

end Rearranges

end Reference

end Lockstep
