import Lockstep.Expectation
import Lockstep.Shape

/-!
# The reference

The correct behaviour that a candidate is held to, as a pure state machine. A state holds the
elements produced so far and not removed, the elements pending, and the removal marker, which
says that the element produced last can still be removed:

* `hasMore` is true exactly when an element is pending;
* `produceNext` yields the next element, or any pending one when the order is not part of the
  contract, and is exhausted when none is pending;
* `removeLast` succeeds once for each produced element, and is illegal otherwise.

`predict` says what a call should come to, `advance` moves on after a call that came to it, and
`forfeit` moves on after a removal that was due and removed nothing. Equality of elements is
whatever the element type says it is; it need not be reflexive.
-/

namespace Lockstep

universe u

/-- The expected contents at one point of a replay, as they are shown to an invariant hook. -/
structure View (α : Type u) where
  /-- Elements produced and not removed, in the order of production. -/
  produced : List α
  /-- Elements not produced yet. -/
  pending : List α
  deriving DecidableEq

/-- Everything that the collection behind the candidate must still hold. -/
def View.retained {α : Type u} (v : View α) : List α := v.produced ++ v.pending

/-- A state of the reference. -/
structure Reference (α : Type u) where
  order : Order
  /-- Elements produced and not removed, in the order of production. -/
  produced : List α
  /-- Elements not produced yet; in the order of production if that is part of the contract. -/
  pending : List α
  /-- The removal marker: whether the element produced last can still be removed. -/
  canRemove : Bool
  deriving BEq

namespace Reference

variable {α : Type u}

/-- The state before any call. -/
def initial (elements : List α) (order : Order) : Reference α := ⟨order, [], elements, false⟩

/-- What a call on a correct candidate comes to. -/
def predict (r : Reference α) : Operation → Expectation α
  | .hasMore => .hasMore !r.pending.isEmpty
  | .produceNext =>
    match r.order, r.pending with
    | _, [] => .fault .exhausted
    | .determinate, x :: _ => .element x
    | .indeterminate, xs => .anyOf xs
  | .removeLast => if r.canRemove then .removed else .fault .illegalRemoval

/-- The position of the pending element that a production takes. When any pending element may
come, it is the first one equal to the element observed; without such an element, or when the
order is part of the contract, it is the first of all. -/
def position [BEq α] (r : Reference α) (observed : Option α) : Nat :=
  match r.order, observed with
  | .indeterminate, some x => (r.pending.findIdx? (· == x)).getD 0
  | _, _ => 0

/-- The state after the pending element at position `i` was produced. -/
def produceAt (r : Reference α) (i : Nat) : Reference α :=
  match r.pending[i]? with
  | none => r
  | some x =>
    { r with produced := r.produced ++ [x], pending := r.pending.eraseIdx i, canRemove := true }

/-- The state after a removal: the element produced last goes if it is still eligible. -/
def dropProduced (r : Reference α) : Reference α :=
  if r.canRemove then { r with produced := r.produced.dropLast, canRemove := false } else r

/-- The state after a call that came to what was predicted; `observed` is the element that the
candidate produced. -/
def advance [BEq α] (r : Reference α) (op : Operation) (observed : Option α) : Reference α :=
  match op with
  | .hasMore => r
  | .produceNext => r.produceAt (r.position observed)
  | .removeLast => r.dropProduced

/-- The state after a removal that was due and removed nothing: the element stays, and can no
longer be removed. -/
def forfeit (r : Reference α) : Reference α := { r with canRemove := false }

/-- Whether an element may be the next one produced. -/
def admits [BEq α] (r : Reference α) (x : α) : Bool :=
  match r.order with
  | .determinate => r.pending.head?.any (· == x)
  | .indeterminate => r.pending.any (· == x)

/-- The counts of the state. -/
def shape (r : Reference α) : Shape := ⟨r.pending.length, r.produced.length, r.canRemove⟩

/-- The contents that an invariant hook is shown. -/
def view (r : Reference α) : View α := ⟨r.produced, r.pending⟩

@[simp] theorem shape_initial (elements : List α) (order : Order) :
    (initial elements order).shape = Shape.initial elements.length := rfl

@[simp] theorem view_forfeit (r : Reference α) : r.forfeit.view = r.view := rfl

/-- A production takes nothing exactly when nothing stands at the position. -/
theorem produceAt_of_length_le {r : Reference α} {i : Nat} (h : r.pending.length ≤ i) :
    r.produceAt i = r := by
  simp [produceAt, List.getElem?_eq_none h]

theorem produceAt_of_lt {r : Reference α} {i : Nat} (h : i < r.pending.length) :
    r.produceAt i =
      { r with
        produced := r.produced ++ [r.pending[i]]
        pending := r.pending.eraseIdx i
        canRemove := true } := by
  simp [produceAt, List.getElem?_eq_getElem h]

end Reference

end Lockstep
