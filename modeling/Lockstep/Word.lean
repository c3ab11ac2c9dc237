import Lockstep.Operation

/-!
# Words of operations

A `Word` is a finite sequence of operations, the first call first. Its initial segments are
`List.take`, and words of one length are compared lexicographically through `Operation.code`.
-/

namespace Lockstep

/-- A sequence of calls, the first call first. -/
abbrev Word := List Operation

namespace Word

/-- The number of removals in a word. -/
def removals (w : Word) : Nat := w.count .removeLast

/-- One byte for each operation: its code. -/
def encode (w : Word) : List UInt8 := w.map fun op => UInt8.ofNat op.code

/-- The operations by name, between brackets. -/
def text (w : Word) : String :=
  "[" ++ ", ".intercalate (w.map Operation.name) ++ "]"

@[simp] theorem removals_nil : removals [] = 0 := rfl

theorem removals_cons (op : Operation) (w : Word) :
    removals (op :: w) = removals w + if op = .removeLast then 1 else 0 := by
  cases op <;> simp [removals]

theorem removals_append (u v : Word) : removals (u ++ v) = removals u + removals v := by
  simp [removals]

@[simp] theorem removals_reverse (w : Word) : removals w.reverse = removals w := by
  simp [removals]

@[simp] theorem length_encode (w : Word) : (encode w).length = w.length := by simp [encode]

end Word

end Lockstep
