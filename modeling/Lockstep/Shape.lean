import Lockstep.Operation

/-!
# Shapes

Which calls make sense depends only on how many elements are pending and on whether the element
produced last can still be removed, never on the elements themselves. A `Shape` keeps those
counts, so that the words worth replaying can be enumerated before any candidate is seen.

`Shape.after` is the transition of the reference on counts. A production with nothing pending
changes nothing; in particular the element produced before it stays removable.
-/

namespace Lockstep

/-- The counts of a reference state. -/
structure Shape where
  /-- Elements not produced yet. -/
  pending : Nat
  /-- Elements produced and not removed. -/
  produced : Nat
  /-- Whether the element produced last can still be removed. -/
  canRemove : Bool
  deriving DecidableEq, Repr

namespace Shape

/-- The shape before any call, for `n` elements. -/
def initial (n : Nat) : Shape := ⟨n, 0, false⟩

/-- The shape after a call that the reference answers. -/
def after (s : Shape) : Operation → Shape
  | .hasMore => s
  | .produceNext => if 0 < s.pending then ⟨s.pending - 1, s.produced + 1, true⟩ else s
  | .removeLast =>
    if s.canRemove then { s with produced := s.produced - 1, canRemove := false } else s

/-- The shape after every call of a word. -/
def afterAll (s : Shape) (w : List Operation) : Shape := w.foldl after s

@[simp] theorem afterAll_nil (s : Shape) : s.afterAll [] = s := rfl

@[simp] theorem afterAll_cons (s : Shape) (op : Operation) (w : List Operation) :
    s.afterAll (op :: w) = (s.after op).afterAll w := rfl

theorem afterAll_append (s : Shape) (u v : List Operation) :
    s.afterAll (u ++ v) = (s.afterAll u).afterAll v := List.foldl_append

end Shape

end Lockstep
