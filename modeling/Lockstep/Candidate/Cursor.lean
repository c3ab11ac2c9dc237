import Lockstep.Candidate

/-!
# The cursor over a list

A removable cursor: the list, the index of the element to produce next, and the index of the
element produced last while it can still be removed. A removal closes the gap, so the next
element then stands where the removed one stood.
-/

namespace Lockstep

universe u

/-- A cursor over a list of its own. -/
structure Cursor (α : Type u) where
  items : List α
  /-- The index of the element to produce next. -/
  next : Nat
  /-- The index of the element produced last, while it can be removed. -/
  last : Option Nat
  deriving DecidableEq

namespace Cursor

variable {α : Type u}

/-- The cursor before the first element. -/
def ofList (items : List α) : Cursor α := ⟨items, 0, none⟩

/-- The current list behind the cursor. -/
def contents (c : Cursor α) : List α := c.items

/-- Whether an element stands at the cursor. -/
def hasMore (c : Cursor α) : Reply Bool × Cursor α := (.value (c.next < c.items.length), c)

/-- Produces the element at the cursor and moves behind it. At the end nothing changes. -/
def produceNext (c : Cursor α) : Reply α × Cursor α :=
  match c.items[c.next]? with
  | some x => (.value x, { c with next := c.next + 1, last := some c.next })
  | none => (.fault .exhausted, c)

/-- Removes the element produced last. An index outside the list would be a panic. -/
def removeLast (c : Cursor α) : Reply Unit × Cursor α :=
  match c.last with
  | none => (.fault .illegalRemoval, c)
  | some i =>
    if i < c.items.length then (.value (), ⟨c.items.eraseIdx i, i, none⟩)
    else (.panic ⟨some "removal index out of bounds"⟩, { c with last := none })

/-- The cursor as a candidate. -/
def candidate : Candidate (Cursor α) α where
  hasMore := hasMore
  produceNext := produceNext
  removeLast := removeLast

/-- A removal that reports success and clears the marker, but leaves the list and the place of
the cursor as they are. -/
def pretendRemoval (c : Cursor α) : Reply Unit × Cursor α :=
  match c.last with
  | none => (.fault .illegalRemoval, c)
  | some _ => (.value (), { c with last := none })

/-- The cursor whose removals are lost. -/
def lossy : Candidate (Cursor α) α := { candidate (α := α) with removeLast := pretendRemoval }

end Cursor

end Lockstep
