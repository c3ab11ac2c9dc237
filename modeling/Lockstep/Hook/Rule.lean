import Lockstep.Candidate.Blueprint
import Lockstep.Hook

/-!
# Hook rules

Hooks that can be described rather than programmed: limits on the expected contents, failures at
a chosen call, and the comparison of the expected contents with the list behind the candidate.
-/

namespace Lockstep

universe u

/-- A check of the expected contents, or a failure at a chosen call. -/
inductive HookRule where
  | pass
  /-- Fails at the call of this number, counted from zero. -/
  | failCall (n : Nat)
  /-- Panics at the call of this number, counted from zero. -/
  | panicCall (n : Nat)
  /-- Fails if more elements than these were produced and not removed. -/
  | producedOver (n : Nat)
  /-- Fails if fewer elements than these are pending. -/
  | pendingUnder (n : Nat)
  /-- Fails if fewer elements than these are retained. -/
  | retainedUnder (n : Nat)
  /-- Fails unless the list behind the candidate, where it may be looked at, holds exactly the
  elements retained. -/
  | contents
  deriving DecidableEq

namespace HookRule

variable {α : Type u}

/-- What the rule says at the call of number `n`; `message` is said about a failure. -/
def answer [BEq α] [Literal α] (rule : HookRule) (message : String) (n : Nat) (v : View α)
    (backing : Option (List α)) : HookAnswer :=
  let failIf (b : Bool) : HookAnswer := if b then .reject message else .accept
  match rule with
  | pass => .accept
  | failCall k => failIf (n = k)
  | panicCall k => if n = k then .panic ⟨some message⟩ else .accept
  | producedOver k => failIf (k < v.produced.length)
  | pendingUnder k => failIf (v.pending.length < k)
  | retainedUnder k => failIf (v.retained.length < k)
  | contents =>
    match backing with
    | none => .accept
    | some items =>
      if items == v.retained then .accept
      else .reject ("expected " ++ literal v.retained ++ ", backing list holds " ++ literal items)

/-- The rule as a hook that counts its calls. -/
def hook [BEq α] [Literal α] (rule : HookRule) (message : String) : Hook Nat (Running α) α :=
  fun n v r => (rule.answer message n v r.backingList, n + 1)

end HookRule

end Lockstep
