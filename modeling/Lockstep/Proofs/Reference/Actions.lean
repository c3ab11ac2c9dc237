import Lockstep.Proofs.Fits

/-!
# Actions on a reference

A reference moves on in two ways: by a call that came to what was predicted, with the element that
was observed if there was one, and by a removal that was due and removed nothing.  An `Action` is
one such move, whatever a judge would say of it.  So a statement over all lists of actions covers
every replay, and observations that no judge would accept.

`Reference.trace` keeps each action beside the reference that it met.  What was produced, removed
and forfeited so far is read off the trace.

* **`Reference.effect_act`** — the four things that an action can come to.
* **`Reference.acts_invariant`** — what all of them keep, any list of actions keeps.
-/

namespace Lockstep

universe u

namespace Reference

variable {α : Type u}

/-- One way to move a reference on. -/
inductive Action (α : Type u) where
  /-- A call came to what was predicted. -/
  | advance (op : Operation) (observed : Option α)
  /-- A removal removed nothing. -/
  | forfeit

/-- The operation that a replay makes when its reference moves on like this. -/
def Action.operation : Action α → Operation
  | advance op _ => op
  | forfeit => .removeLast

variable [BEq α]

/-- The reference behind an action. -/
def act (r : Reference α) : Action α → Reference α
  | .advance op observed => r.advance op observed
  | .forfeit => r.forfeit

/-- The reference behind all of some actions. -/
def acts (r : Reference α) (actions : List (Action α)) : Reference α := actions.foldl act r

/-- The element that an action appends to the produced ones.  A production with nothing pending
    appends none. -/
def produces? (r : Reference α) : Action α → Option α
  | .advance .produceNext observed => r.pending[r.position observed]?
  | _ => none

omit [BEq α] in
/-- The element that an action takes away from the produced ones: the last one, if the marker
    says that it is due. -/
def removes? (r : Reference α) : Action α → Option α
  | .advance .removeLast _ => if r.canRemove then r.produced.getLast? else none
  | _ => none

omit [BEq α] in
/-- Whether an action gives up a removal that was due. -/
def forfeits (r : Reference α) : Action α → Bool
  | .forfeit => r.canRemove
  | _ => false

/-- Each of some actions, beside the reference that it met. -/
def trace (r : Reference α) : List (Action α) → List (Reference α × Action α)
  | [] => []
  | a :: actions => (r, a) :: (r.act a).trace actions

/-- The elements that some actions produced, in order. -/
def everProduced (r : Reference α) (actions : List (Action α)) : List α :=
  (r.trace actions).filterMap fun met => met.1.produces? met.2

/-- The elements that some actions removed, in order. -/
def everRemoved (r : Reference α) (actions : List (Action α)) : List α :=
  (r.trace actions).filterMap fun met => met.1.removes? met.2

/-- The number of due removals that some actions gave up. -/
def forfeited (r : Reference α) (actions : List (Action α)) : Nat :=
  (r.trace actions).countP fun met => met.1.forfeits met.2

/-! ## One more action -/

variable {r : Reference α} {actions later : List (Action α)} {a : Action α}

theorem acts_append : r.acts (actions ++ later) = (r.acts actions).acts later :=
  List.foldl_append

theorem acts_concat : r.acts (actions ++ [a]) = (r.acts actions).act a := acts_append

theorem trace_concat : r.trace (actions ++ [a]) = r.trace actions ++ [(r.acts actions, a)] := by
  induction actions generalizing r with
  | nil => rfl
  | cons b actions ih => exact congrArg ((r, b) :: ·) ih

theorem everProduced_concat :
    r.everProduced (actions ++ [a]) =
      r.everProduced actions ++ ((r.acts actions).produces? a).toList := by
  rw [everProduced, trace_concat, List.filterMap_append]
  cases h : (r.acts actions).produces? a <;> simp [everProduced, h]

theorem everRemoved_concat :
    r.everRemoved (actions ++ [a]) =
      r.everRemoved actions ++ ((r.acts actions).removes? a).toList := by
  rw [everRemoved, trace_concat, List.filterMap_append]
  cases h : (r.acts actions).removes? a <;> simp [everRemoved, h]

theorem forfeited_concat :
    r.forfeited (actions ++ [a]) =
      r.forfeited actions + if (r.acts actions).forfeits a then 1 else 0 := by
  rw [forfeited, trace_concat, List.countP_append, List.countP_singleton, forfeited]

/-! ## What one action can do -/

omit [BEq α] in
/-- **What an action can come to**: nothing, a production, a removal, or a removal given up.  The
    indices say what it produces and removes, whether it gives a removal up, and what is behind
    it. -/
inductive Effect (r : Reference α) :
    (produced removed : Option α) → (forfeits : Bool) → Reference α → Prop where
  | nothing : Effect r none none false r
  | production {i : Nat} (h : i < r.pending.length) (hfirst : r.order = .determinate → i = 0) :
      Effect r (some r.pending[i]) none false
        { r with
          produced := r.produced ++ [r.pending[i]]
          pending := r.pending.eraseIdx i
          canRemove := true }
  | removal (h : r.canRemove = true) :
      Effect r none r.produced.getLast? false
        { r with produced := r.produced.dropLast, canRemove := false }
  | waiver (h : r.canRemove = true) : Effect r none none true r.forfeit

/-- **Every action** comes to one of these. -/
theorem effect_act (r : Reference α) (a : Action α) :
    r.Effect (r.produces? a) (r.removes? a) (r.forfeits a) (r.act a) := by
  cases a with
  | forfeit =>
      show r.Effect none none r.canRemove { r with canRemove := false }
      cases hmark : r.canRemove with
      | true => exact .waiver hmark
      | false =>
          have hsame : r.forfeit = r := by rw [forfeit, ← hmark]
          exact hsame.symm ▸ .nothing
  | advance op observed =>
      cases op with
      | hasMore => exact .nothing
      | produceNext =>
          show r.Effect r.pending[r.position observed]? none false
            (r.produceAt (r.position observed))
          rcases Nat.eq_zero_or_pos r.pending.length with hzero | hpos
          · have hnothing : r.pending.length ≤ r.position observed := by omega
            rw [List.getElem?_eq_none hnothing, produceAt_of_length_le hnothing]
            exact .nothing
          · have hlt : r.position observed < r.pending.length := position_lt observed hpos
            rw [List.getElem?_eq_getElem hlt, produceAt_of_lt hlt]
            refine .production hlt ?_
            intro horder
            simp [position, horder]
      | removeLast =>
          show r.Effect none (if r.canRemove then _ else none) false r.dropProduced
          rw [dropProduced]
          cases hmark : r.canRemove with
          | true => exact .removal hmark
          | false => exact .nothing

/-- **Invariants of whole runs**: what none of the four can break holds after any list of actions,
    if it held before. -/
theorem acts_invariant {I : Reference α → Prop}
    (hstep : ∀ ⦃r r' produced removed forfeits⦄, r.Effect produced removed forfeits r' → I r → I r')
    (h : I r) (actions : List (Action α)) : I (r.acts actions) := by
  induction actions generalizing r with
  | nil => exact h
  | cons a actions ih => exact ih (hstep (r.effect_act a) h)

end Reference

end Lockstep
