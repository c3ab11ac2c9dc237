/-!
# Operations and feature sets

A candidate is driven by three calls: ask whether another element is available, produce the
next element, remove the element produced last. Removal is optional, and a `FeatureSet` says
whether a candidate is expected to offer it.

The order of the constructors is the order of exploration: `Operation.all` lists the operations
by increasing `code`, and words of operations are compared through that code.
-/

namespace Lockstep

/-- A call that can be made on a candidate. -/
inductive Operation where
  /-- Produce the next element. -/
  | produceNext
  /-- Ask whether another element is available. -/
  | hasMore
  /-- Remove the element produced last. -/
  | removeLast
  deriving DecidableEq, Repr

/-- A part of the iteration contract that a candidate may lack. -/
inductive Feature where
  /-- Elements can be removed. -/
  | modifiable
  deriving DecidableEq, Repr

namespace Operation

/-- Every operation, in exploration order. -/
def all : List Operation := [produceNext, hasMore, removeLast]

/-- The position of an operation in exploration order. -/
def code : Operation → Nat
  | produceNext => 0
  | hasMore => 1
  | removeLast => 2

/-- The stable name used in reports. -/
def name : Operation → String
  | produceNext => "produce_next"
  | hasMore => "has_more"
  | removeLast => "remove_last"

/-- The feature without which the operation is not explored. -/
def required : Operation → Option Feature
  | removeLast => some .modifiable
  | _ => none

instance : LT Operation := ⟨fun a b => a.code < b.code⟩

instance (a b : Operation) : Decidable (a < b) := inferInstanceAs (Decidable (a.code < b.code))

instance : Ord Operation := ⟨fun a b => compare a.code b.code⟩

theorem lt_iff {a b : Operation} : a < b ↔ a.code < b.code := Iff.rfl

theorem code_inj {a b : Operation} : a.code = b.code ↔ a = b := by
  cases a <;> cases b <;> decide

theorem code_lt (a : Operation) : a.code < 3 := by cases a <;> decide

theorem mem_all (a : Operation) : a ∈ all := by cases a <;> decide

/-- Dropping the first `n` operations leaves those of code at least `n`. -/
theorem mem_all_drop {n : Nat} {a : Operation} : a ∈ all.drop n ↔ n ≤ a.code := by
  match n with
  | 0 => simp [mem_all]
  | 1 | 2 => cases a <;> decide
  | n + 3 =>
    have ha := code_lt a
    simp [all]
    omega

end Operation

/-- The optional features that a candidate is expected to offer. -/
structure FeatureSet where
  /-- Whether `Feature.modifiable` belongs to the set. -/
  removal : Bool
  deriving DecidableEq, Repr

namespace FeatureSet

/-- The set of a read-only candidate. -/
def readOnly : FeatureSet := ⟨false⟩

/-- The set of a candidate that supports removal. -/
def modifiable : FeatureSet := ⟨true⟩

/-- The set with no feature. -/
def empty : FeatureSet := readOnly

/-- A candidate supports no removal unless it is said to. -/
instance : Inhabited FeatureSet := ⟨empty⟩

/-- Membership of a feature. -/
def contains (s : FeatureSet) : Feature → Bool
  | .modifiable => s.removal

/-- The set with one feature added. -/
def insert (s : FeatureSet) : Feature → FeatureSet
  | .modifiable => { s with removal := true }

/-- The set with one feature dropped. -/
def erase (s : FeatureSet) : Feature → FeatureSet
  | .modifiable => { s with removal := false }

/-- One bit for each feature of the set. -/
def bits (s : FeatureSet) : Nat :=
  if s.contains .modifiable then 1 else 0

/-- Whether an operation belongs to the alphabet that the features give. -/
def permits (s : FeatureSet) (op : Operation) : Bool :=
  op.required.all s.contains

/-- The alphabet that the features give, in exploration order. -/
def operations (s : FeatureSet) : List Operation :=
  Operation.all.filter s.permits

@[simp] theorem contains_insert (s : FeatureSet) (f : Feature) :
    (s.insert f).contains f = true := by cases f; rfl

@[simp] theorem contains_erase (s : FeatureSet) (f : Feature) :
    (s.erase f).contains f = false := by cases f; rfl

theorem permits_removeLast (s : FeatureSet) :
    s.permits .removeLast = s.contains .modifiable := by
  cases s; rfl

theorem permits_of_ne_removeLast {s : FeatureSet} {op : Operation} (h : op ≠ .removeLast) :
    s.permits op = true := by
  cases op <;> first | rfl | exact absurd rfl h

end FeatureSet

end Lockstep
