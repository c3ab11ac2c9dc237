import Lockstep.Proofs.Prediction
import Lockstep.Replay

/-!
# References and shapes

What a call should come to depends on a reference in two places only: how many elements are
pending, and whether the marker is set.  A reference **fits** a shape that agrees with it there.
The produced elements may differ in number, because a forfeited removal keeps its element, and a
shape knows nothing of that.

* **`Reference.Fits.advance`**, **`Reference.Fits.forfeit`** — a reference and its shape move on
  together, whatever was observed and whether a removal took its element or not.
* **`Reference.findIdx?_of_admits`** — where the element stands that a production takes.
* **`Reference.pending_advance_of_determinate`** — with a determinate order, productions eat the
  pending elements from the front.
-/

namespace Lockstep

universe u

variable {α : Type u}

namespace Reference

/-- A reference **fits** a shape: as many elements are pending, and the marker is the same. -/
structure Fits (r : Reference α) (s : Shape) : Prop where
  pending : r.pending.length = s.pending
  canRemove : r.canRemove = s.canRemove

theorem fits_initial (elements : List α) (order : Order) :
    (initial elements order).Fits (.initial elements.length) := ⟨rfl, rfl⟩

variable {r : Reference α} {s : Shape} {op : Operation}

/-! ## Moving on -/

/-- A production takes a pending element, if there is one. -/
theorem position_lt [BEq α] (observed : Option α) (h : 0 < r.pending.length) :
    r.position observed < r.pending.length := by
  cases horder : r.order with
  | determinate => simpa [position, horder] using h
  | indeterminate =>
      cases observed with
      | none => simpa [position, horder] using h
      | some x =>
          simp only [position, horder]
          cases hfound : r.pending.findIdx? (· == x) with
          | none => exact h
          | some i => exact (List.findIdx?_eq_some_iff_getElem.mp hfound).1

/-- **An admitted element is found**: the position is that of the first pending element equal to
    it, in order as in any order. -/
theorem findIdx?_of_admits [BEq α] {y : α} (h : r.admits y = true) :
    r.pending.findIdx? (· == y) = some (r.position (some y)) := by
  cases horder : r.order with
  | determinate =>
      simp only [admits, horder] at h
      obtain ⟨x, hx, hequal⟩ := (Option.any_eq_true _ _).mp h
      obtain ⟨xs, hpending⟩ := List.head?_eq_some_iff.mp hx
      simp [position, horder, hpending, List.findIdx?_cons, hequal]
  | indeterminate =>
      simp only [admits, horder] at h
      rw [← List.findIdx?_isSome] at h
      obtain ⟨i, hi⟩ := Option.isSome_iff_exists.mp h
      simp [position, horder, hi]

/-- In any order a production takes an element equal to the one observed, if one is pending. -/
theorem exists_position [BEq α] {x : α} (horder : r.order = .indeterminate)
    (hx : r.pending.any (· == x) = true) :
    ∃ h : r.position (some x) < r.pending.length, (r.pending[r.position (some x)] == x) = true := by
  have hadmits : r.admits x = true := by simpa only [admits, horder] using hx
  obtain ⟨hlt, hequal, -⟩ := List.findIdx?_eq_some_iff_getElem.mp (findIdx?_of_admits hadmits)
  exact ⟨hlt, hequal⟩

/-- The order stays what it is. -/
theorem order_settle [BEq α] (actual : Outcome α) (v : Verdict) :
    (r.settle op actual v).order = r.order := by
  cases v with
  | agree =>
      cases op with
      | hasMore => rfl
      | produceNext =>
          show (r.produceAt _).order = _
          unfold produceAt
          split <;> rfl
      | removeLast =>
          show r.dropProduced.order = _
          unfold dropProduced
          split <;> rfl
  | tolerated => rfl
  | diverge violation => rfl

/-- **A call that came to what was predicted** keeps the fit, whatever was observed. -/
theorem Fits.advance [BEq α] (h : r.Fits s) (op : Operation) (observed : Option α) :
    (r.advance op observed).Fits (s.after op) := by
  cases op with
  | hasMore => exact h
  | produceNext =>
      show (r.produceAt (r.position observed)).Fits _
      by_cases hpos : 0 < s.pending
      · have hlt : r.position observed < r.pending.length :=
          position_lt observed (by rw [h.pending]; exact hpos)
        rw [produceAt_of_lt hlt, Shape.after, if_pos hpos]
        refine ⟨?_, rfl⟩
        show (r.pending.eraseIdx _).length = s.pending - 1
        rw [List.length_eraseIdx_of_lt hlt, h.pending]
      · -- an exhausted production leaves the marker, on both sides
        have hzero : r.pending.length = 0 := by rw [h.pending]; omega
        rw [produceAt_of_length_le (by rw [hzero]; exact Nat.zero_le _), Shape.after, if_neg hpos]
        exact h
  | removeLast =>
      show r.dropProduced.Fits _
      rw [dropProduced, Shape.after, h.canRemove]
      cases hmark : s.canRemove with
      | true => exact ⟨h.pending, rfl⟩
      | false => exact h

/-- **A forfeited removal** keeps the fit with the shape behind a removal: the element stays, but
    the marker is gone as if it had been taken. -/
theorem Fits.forfeit (h : r.Fits s) : r.forfeit.Fits (s.after .removeLast) := by
  rw [Shape.after]
  cases hmark : s.canRemove with
  | true => exact ⟨h.pending, rfl⟩
  | false => exact ⟨h.pending, hmark.symm⟩

/-- With a determinate order a production takes the first pending element, and nothing else takes
    any. -/
theorem pending_advance_of_determinate [BEq α] (horder : r.order = .determinate)
    (op : Operation) (observed : Option α) :
    (r.advance op observed).pending = r.pending.drop (if op = .produceNext then 1 else 0) := by
  cases op with
  | hasMore => rfl
  | produceNext =>
      have hposition : r.position observed = 0 := by simp [position, horder]
      rw [Reference.advance, hposition]
      cases hpending : r.pending with
      | nil =>
          rw [produceAt_of_length_le (by rw [hpending]; exact Nat.le_refl 0), hpending]
          rfl
      | cons x xs =>
          have hzero : 0 < r.pending.length := by rw [hpending]; exact Nat.succ_pos _
          rw [produceAt_of_lt hzero]
          simp [hpending]
  | removeLast =>
      rw [Reference.advance, dropProduced]
      cases r.canRemove <;> rfl

/-! ## Predictions -/

theorem predict_hasMore (r : Reference α) :
    r.predict .hasMore = .hasMore (decide (0 < r.pending.length)) := by
  cases hxs : r.pending <;> simp [predict, hxs]

theorem predict_produceNext_of_determinate {x : α} {xs : List α} (horder : r.order = .determinate)
    (hpending : r.pending = x :: xs) : r.predict .produceNext = .element x := by
  simp [predict, horder, hpending]

theorem predict_produceNext_of_indeterminate (horder : r.order = .indeterminate)
    (hpending : 0 < r.pending.length) : r.predict .produceNext = .anyOf r.pending := by
  cases hxs : r.pending with
  | nil => rw [hxs] at hpending; exact absurd hpending (Nat.lt_irrefl 0)
  | cons x xs => simp [predict, horder, hxs]

end Reference

end Lockstep
