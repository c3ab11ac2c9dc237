import Lockstep.Proofs.Reference.Actions
import Lockstep.Space
import Mathlib.Data.List.Induction

/-!
# References by their counts

The words worth replaying are found on shapes, which know neither elements nor forfeited removals.
A reference moves on with both.  This file drives a shape beside a reference, by the operation of
each action, and says how far the two agree.

A call that came to what was predicted changes the counts of a reference as `Shape.after` changes
them (`Reference.shape_advance`).  A forfeited removal is the one place where the two part: the
shape takes the element away, the reference keeps it.  So what they differ by is the number of
elements kept in this way (`Shape.keeping`), and no operation on a shape can tell how many those
are, as long as the shape has produced what it can remove (`Shape.Sound`).

* **`Reference.Follows.act`** — one action, on both sides.
* **`Reference.shape_simulates`** — any list of actions.
-/

namespace Lockstep

universe u

namespace Shape

/-- A shape is **sound** if it has produced the element that it can remove. -/
def Sound (s : Shape) : Prop := s.canRemove = true → 0 < s.produced

/-- The shape with `n` more produced elements, all of them out of reach of a removal. -/
def keeping (s : Shape) (n : Nat) : Shape := { s with produced := s.produced + n }

variable {s : Shape}

theorem sound_initial (n : Nat) : (initial n).Sound := nofun

/-- Every operation keeps a shape sound. -/
theorem Sound.after (h : s.Sound) (op : Operation) : (s.after op).Sound := by
  cases op with
  | hasMore => exact h
  | produceNext =>
      rw [Shape.after]
      split
      · exact fun _ => Nat.succ_pos _
      · exact h
  | removeLast =>
      rw [Shape.after]
      split
      · exact Bool.noConfusion
      · exact h

/-- **Kept elements change nothing** about an operation. -/
theorem after_keeping (h : s.Sound) (op : Operation) (n : Nat) :
    (s.keeping n).after op = (s.after op).keeping n := by
  cases op with
  | hasMore => rfl
  | produceNext =>
      by_cases hpos : 0 < s.pending
      · simp [Shape.after, keeping, hpos, Nat.add_right_comm]
      · simp [Shape.after, keeping, hpos]
  | removeLast =>
      cases hmark : s.canRemove with
      | true =>
          have hpos : 0 < s.produced := h hmark
          have hcount : s.produced + n - 1 = s.produced - 1 + n := by omega
          simp [Shape.after, keeping, hmark, hcount]
      | false => simp [Shape.after, keeping, hmark]

end Shape

/-- Of a shape, a space looks at the marker alone. -/
theorem Space.permits_eq_of_canRemove {s s' : Shape} (h : s.canRemove = s'.canRemove)
    (space : Space) (op : Operation) (removals : Nat) :
    space.permits s op removals = space.permits s' op removals := by
  rw [permits, permits, h]

namespace Reference

variable {α : Type u} {r : Reference α} {s : Shape} {n : Nat}

theorem shape_forfeit (r : Reference α) : r.forfeit.shape = { r.shape with canRemove := false } :=
  rfl

variable [BEq α] {actions : List (Action α)}

/-- **A call that came to what was predicted** changes the counts of a reference as it changes a
    shape, whatever was observed. -/
theorem shape_advance (r : Reference α) (op : Operation) (observed : Option α) :
    (r.advance op observed).shape = r.shape.after op := by
  cases op with
  | hasMore => rfl
  | produceNext =>
      show (r.produceAt (r.position observed)).shape = r.shape.after .produceNext
      rcases Nat.eq_zero_or_pos r.pending.length with hzero | hpos
      · have hnothing : r.pending.length ≤ r.position observed := by omega
        rw [produceAt_of_length_le hnothing]
        simp [Shape.after, shape, hzero]
      · have hlt : r.position observed < r.pending.length := position_lt observed hpos
        rw [produceAt_of_lt hlt]
        simp [Shape.after, shape, hpos, List.length_eraseIdx_of_lt hlt]
  | removeLast =>
      show r.dropProduced.shape = r.shape.after .removeLast
      cases hmark : r.canRemove <;> simp [dropProduced, Shape.after, shape, hmark]

/-! ## Side by side -/

omit [BEq α] in
/-- A reference **follows** a shape if its counts are those of the shape, with `n` kept elements on
    top. -/
structure Follows (r : Reference α) (s : Shape) (n : Nat) : Prop where
  shape : r.shape = s.keeping n
  sound : s.Sound

/-- **One action**, which drives the shape by its operation.  The reference keeps one element more
    if the action gives a due removal up. -/
theorem Follows.act (h : r.Follows s n) (a : Action α) :
    (r.act a).Follows (s.after a.operation) (n + if r.forfeits a then 1 else 0) := by
  refine ⟨?_, h.sound.after _⟩
  cases a with
  | advance op observed =>
      show (r.advance op observed).shape = (s.after op).keeping n
      rw [shape_advance, h.shape, Shape.after_keeping h.sound]
  | forfeit =>
      have hmark : r.canRemove = s.canRemove := congrArg Shape.canRemove h.shape
      show r.forfeit.shape = (s.after .removeLast).keeping (n + if r.canRemove then 1 else 0)
      rw [shape_forfeit, h.shape, hmark, Shape.after]
      cases hs : s.canRemove with
      | true =>
          -- the shape takes one element away, and the reference counts it as kept
          have hpos : 0 < s.produced := h.sound hs
          have hcount : s.produced + n = s.produced - 1 + (n + 1) := by omega
          simp [Shape.keeping, hcount]
      | false => simp [Shape.keeping, hs]

/-- **Any list of actions** keeps a reference behind the shape that the operations drive. -/
theorem follows_acts (elements : List α) (order : Order) (actions : List (Action α)) :
    ((initial elements order).acts actions).Follows
      ((Shape.initial elements.length).afterAll (actions.map Action.operation))
      ((initial elements order).forfeited actions) := by
  induction actions using List.reverseRecOn with
  | nil => exact ⟨rfl, Shape.sound_initial _⟩
  | append_singleton actions a ih =>
      rw [acts_concat, forfeited_concat, List.map_append, Shape.afterAll_append]
      exact ih.act a

theorem forfeited_eq_zero (h : .forfeit ∉ actions) (r : Reference α) : r.forfeited actions = 0 := by
  induction actions using List.reverseRecOn with
  | nil => rfl
  | append_singleton actions a ih =>
      rw [List.mem_append, not_or, List.mem_singleton] at h
      rw [forfeited_concat, ih h.1]
      cases a with
      | advance op observed => rfl
      | forfeit => exact absurd rfl h.2

/-- **The counts simulate the reference.**  After any list of actions, a shape driven by their
    operations has as many pending elements as the reference and the same marker, and fewer produced
    ones by the number of due removals that were given up.  So every space permits the same on both,
    and without a forfeited removal they are the same shape. -/
theorem shape_simulates (elements : List α) (order : Order) (actions : List (Action α)) :
    let start := initial elements order
    let r := start.acts actions
    let s := (Shape.initial elements.length).afterAll (actions.map Action.operation)
    r.shape.pending = s.pending ∧ r.shape.canRemove = s.canRemove ∧
      r.shape.produced = s.produced + start.forfeited actions ∧
      (∀ (space : Space) op removals,
        space.permits r.shape op removals = space.permits s op removals) ∧
      (.forfeit ∉ actions → r.shape = s) := by
  intro start r s
  have hshape : r.shape = s.keeping (start.forfeited actions) :=
    (follows_acts elements order actions).shape
  have hmark : r.shape.canRemove = s.canRemove := by
    rw [hshape]
    rfl
  refine ⟨by rw [hshape]; rfl, hmark, by rw [hshape]; rfl, ?_, ?_⟩
  · intro space op removals
    exact Space.permits_eq_of_canRemove hmark space op removals
  · intro hnone
    rw [hshape, forfeited_eq_zero hnone start]
    rfl

/-- One removal given up, and one made: the reference has kept the first element. -/
example :
    let actions : List (Action Nat) :=
      [.advance .produceNext none, .forfeit, .advance .produceNext none, .advance .removeLast none]
    ((initial [1, 2] .determinate).acts actions).shape = ⟨0, 1, false⟩ ∧
      (Shape.initial 2).afterAll (actions.map Action.operation) = ⟨0, 0, false⟩ := by decide

end Reference

end Lockstep
