import Lockstep.Shape
import Lockstep.Word

/-!
# Spaces of words

A `Space` describes every word of a fixed number of operations that is worth replaying against
a number of elements. Shorter words need no replay of their own: each is an initial segment of a
longer one, and is checked step by step when that one runs.

A removal is left out where the reference would refuse it, before the first production and
directly after another removal, unless such removals are asked for; it is left out altogether
for a read-only candidate, and once a word has as many removals as the cap allows.

`Space.words` lists the space by recursion on the number of operations, in lexicographic order.
The lazy pass over the same list is `Traversal`.
-/

namespace Lockstep

/-- The description of a bounded space of words. -/
structure Space where
  /-- The number of operations in each word. -/
  steps : Nat
  /-- The features that the candidate is expected to offer. -/
  features : FeatureSet
  /-- The number of expected elements. -/
  elements : Nat
  /-- Whether removals that the reference refuses are explored too. -/
  illegalRemovals : Bool := false
  /-- The largest number of removals in a word, if there is one. -/
  removalCap : Option Nat := none
  deriving DecidableEq, Repr

namespace Space

/-- Whether `op` may extend a word that reached the shape `s` with the given number of
removals. -/
def permits (space : Space) (s : Shape) (op : Operation) (removals : Nat) : Bool :=
  space.features.permits op &&
    (op != .removeLast ||
      (space.removalCap.all (removals < ·) && (s.canRemove || space.illegalRemovals)))

/-- The operations that may extend a word, in exploration order. -/
def choices (space : Space) (s : Shape) (removals : Nat) : List Operation :=
  Operation.all.filter (space.permits s · removals)

/-- The words of `n` operations that may follow a word that reached the shape `s` with the given
number of removals. -/
def extensions (space : Space) : (n : Nat) → (s : Shape) → (removals : Nat) → List Word
  | 0, _, _ => [[]]
  | n + 1, s, removals =>
    (space.choices s removals).flatMap fun op =>
      (space.extensions n (s.after op) (removals + Word.removals [op])).map (op :: ·)

/-- Every word of the space, in lexicographic order. -/
def words (space : Space) : List Word :=
  space.extensions space.steps (.initial space.elements) 0

theorem permits_of_ne_removeLast {op : Operation} (h : op ≠ .removeLast) (space : Space)
    (s : Shape) (removals : Nat) : space.permits s op removals = true := by
  simp [permits, FeatureSet.permits_of_ne_removeLast h, h]

theorem permits_removeLast (space : Space) (s : Shape) (removals : Nat) :
    space.permits s .removeLast removals =
      (space.features.contains .modifiable &&
        (space.removalCap.all (removals < ·) && (s.canRemove || space.illegalRemovals))) := by
  simp [permits, FeatureSet.permits_removeLast]

end Space

end Lockstep
