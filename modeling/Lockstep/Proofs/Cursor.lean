import Lockstep.Candidate.Cursor
import Lockstep.Proofs.Prediction

/-!
# The cursor and the reference

`Cursor` keeps one list and two indices; `Reference` keeps two lists and a flag.  They are the
same machine when the order is part of the contract: the list is what was produced and what is
pending, put together, and the indices stand at the seam.

* **`Cursor.Tracks`** — the relation between the two states.
* **`Cursor.demand_of_tracks`** — a call on the cursor comes to what the reference predicts.
* **`Cursor.tracks_perform`** — and both move on alike.
-/

namespace Lockstep

universe u

variable {α : Type u}

namespace Cursor

/-- A cursor **tracks** a reference: its list is what was produced followed by what is pending, it
    stands between the two, and it remembers the last produced element while the marker is
    set. -/
structure Tracks (c : Cursor α) (r : Reference α) : Prop where
  order : r.order = .determinate
  items : c.items = r.produced ++ r.pending
  next : c.next = r.produced.length
  last : c.last = if r.canRemove then some (r.produced.length - 1) else none
  marked : r.canRemove = true → 0 < r.produced.length

theorem tracks_ofList (xs : List α) : Tracks (ofList xs) (.initial xs .determinate) :=
  ⟨rfl, rfl, rfl, rfl, Bool.noConfusion⟩

variable {c : Cursor α} {r : Reference α}

/-- The element at the cursor is the first one pending. -/
theorem getElem?_next (h : Tracks c r) : c.items[c.next]? = r.pending.head? := by
  rw [h.items, h.next, List.getElem?_append_right (Nat.le_refl _), Nat.sub_self,
    List.head?_eq_getElem?]

/-- The index that a marked cursor remembers is an index of its list. -/
theorem last_lt (h : Tracks c r) (hmark : r.canRemove = true) :
    r.produced.length - 1 < c.items.length := by
  have hpos := h.marked hmark
  rw [h.items, List.length_append]
  omega

/-- **Predictions.**  A call on the cursor comes to what the reference predicts of it. -/
theorem demand_of_tracks (h : Tracks c r) (op : Operation) :
    (candidate.perform op c).1.demand = r.predict op := by
  cases op with
  | hasMore =>
      show Expectation.hasMore (decide (c.next < c.items.length)) = .hasMore !r.pending.isEmpty
      rw [h.items, h.next, List.length_append]
      cases r.pending <;> simp
  | produceNext =>
      have hnext := getElem?_next h
      cases hpending : r.pending with
      | nil =>
          rw [hpending] at hnext
          simp [Candidate.perform, candidate, produceNext, hnext, Reply.toOutcome,
            Outcome.demand, Reference.predict, hpending, Fault.exhausted]
      | cons x xs =>
          rw [hpending] at hnext
          simp [Candidate.perform, candidate, produceNext, hnext, Reply.toOutcome,
            Outcome.demand, Reference.predict, hpending, h.order]
  | removeLast =>
      have hlast := h.last
      cases hmark : r.canRemove with
      | false =>
          rw [hmark] at hlast
          simp [Candidate.perform, candidate, removeLast, hlast, Reply.toOutcome,
            Outcome.demand, Reference.predict, hmark, Fault.illegalRemoval]
      | true =>
          rw [hmark, if_pos rfl] at hlast
          simp [Candidate.perform, candidate, removeLast, hlast, last_lt h hmark,
            Reply.toOutcome, Outcome.demand, Reference.predict, hmark]

/-! ## Moving on -/

theorem tracks_produceNext [BEq α] (h : Tracks c r) (observed : Option α) :
    Tracks c.produceNext.2 (r.advance .produceNext observed) := by
  have hnext := getElem?_next h
  have hposition : r.position observed = 0 := by simp [Reference.position, h.order]
  rw [Reference.advance, hposition]
  cases hpending : r.pending with
  | nil =>
      rw [hpending] at hnext
      rw [Reference.produceAt_of_length_le (by rw [hpending]; exact Nat.le_refl 0)]
      simpa [produceNext, hnext] using h
  | cons x xs =>
      rw [hpending] at hnext
      have hzero : 0 < r.pending.length := by rw [hpending]; exact Nat.succ_pos _
      rw [Reference.produceAt_of_lt hzero]
      have hcursor : c.produceNext.2 = ⟨c.items, c.next + 1, some c.next⟩ := by
        simp [produceNext, hnext]
      rw [hcursor]
      refine ⟨h.order, ?_, ?_, ?_, ?_⟩
      · simp [h.items, hpending]
      · simp [h.next]
      · simp [h.next]
      · intro _
        simp

theorem tracks_removeLast [BEq α] (h : Tracks c r) (observed : Option α) :
    Tracks c.removeLast.2 (r.advance .removeLast observed) := by
  have hlast := h.last
  cases hmark : r.canRemove with
  | false =>
      rw [hmark] at hlast
      rw [Reference.advance_removeLast_of_unmarked hmark]
      simpa [removeLast, hlast] using h
  | true =>
      rw [hmark, if_pos rfl] at hlast
      have hpos := h.marked hmark
      -- the gap closes inside the produced part, just before the seam
      have herase : c.items.eraseIdx (r.produced.length - 1) =
          r.produced.dropLast ++ r.pending := by
        rw [h.items, List.eraseIdx_append_of_lt_length (by omega), List.eraseIdx_length_sub_one]
      have hdrop : r.advance .removeLast observed =
          { r with produced := r.produced.dropLast, canRemove := false } := by
        simp [Reference.advance, Reference.dropProduced, hmark]
      have hcursor : c.removeLast.2 =
          ⟨r.produced.dropLast ++ r.pending, r.produced.length - 1, none⟩ := by
        simp [removeLast, hlast, last_lt h hmark, herase]
      rw [hdrop, hcursor]
      exact ⟨h.order, rfl, List.length_dropLast.symm, rfl, Bool.noConfusion⟩

/-- **Transitions.**  The cursor goes on tracking the reference, whatever the candidate under test
    produced: with a determinate order the reference does not look at it. -/
theorem tracks_perform [BEq α] (h : Tracks c r) (op : Operation) (observed : Option α) :
    Tracks (candidate.perform op c).2 (r.advance op observed) := by
  cases op with
  | hasMore => exact h
  | produceNext => exact tracks_produceNext h observed
  | removeLast => exact tracks_removeLast h observed

end Cursor

end Lockstep
