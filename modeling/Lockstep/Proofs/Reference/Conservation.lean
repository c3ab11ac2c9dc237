import Lockstep.Proofs.Reference.Actions
import Mathlib.Data.List.Induction
import Mathlib.Data.List.Perm.Basic

/-!
# What the reference conserves

Elements enter a reference only at its start.  From there they go from the pending ones to the
produced ones, and leave those only by a removal.  This file keeps the account over all lists of
actions, with any observations in them, for either order contract and any equality of elements.

The marker is what makes the account exact.  While it is set, the produced elements end with the
one that was produced last (`Reference.Conserves.last`), so that a removal takes this one.  Once it
is given up, a removal can only take what is produced later, and whatever was produced before stays
where it is (`Reference.isPrefix_produced_acts`).

* **`Reference.Conserves.effect`** — one action keeps the account.
* **`Reference.conserves_elements`** — the account after any list of actions.
-/

namespace Lockstep

universe u

namespace Reference

variable {α : Type u} {elements front produced removed : List α} {r : Reference α}

/-! ## The account -/

/-- **The account** of a reference that began with `elements`, where `produced` and `removed` are
    all elements that were produced and removed so far. -/
structure Conserves (elements : List α) (r : Reference α) (produced removed : List α) : Prop where
  balance : (r.produced ++ r.pending ++ removed).Perm elements
  pending : r.pending.Sublist elements
  suffix : r.order = .determinate → r.pending <:+ elements
  retained : r.order = .determinate → r.view.retained.Sublist elements
  last : r.canRemove = true →
    ∃ front x, r.produced = front ++ [x] ∧ produced.getLast? = some x

theorem conserves_initial (elements : List α) (order : Order) :
    (initial elements order).Conserves elements [] [] where
  balance := .of_eq (by simp [initial])
  pending := .refl _
  suffix _ := List.suffix_rfl
  retained _ := .refl _
  last := nofun

/-- A production moves an element from the pending to the produced ones. -/
theorem Conserves.production (h : r.Conserves elements produced removed) {i : Nat}
    (hi : i < r.pending.length) (hfirst : r.order = .determinate → i = 0) :
    Conserves elements
      { r with
        produced := r.produced ++ [r.pending[i]]
        pending := r.pending.eraseIdx i
        canRemove := true }
      (produced ++ [r.pending[i]]) removed where
  balance := by
    have hmoved : (r.pending[i] :: r.pending.eraseIdx i).Perm r.pending :=
      List.getElem_cons_eraseIdx_perm hi
    calc r.produced ++ [r.pending[i]] ++ r.pending.eraseIdx i ++ removed
        = r.produced ++ (r.pending[i] :: r.pending.eraseIdx i) ++ removed := by
          rw [List.append_assoc r.produced, List.singleton_append]
      _ |>.Perm (r.produced ++ r.pending ++ removed) :=
          (hmoved.append_left _).append_right _
      _ |>.Perm elements := h.balance
  pending := (List.eraseIdx_sublist _ _).trans h.pending
  suffix horder := by
    obtain rfl := hfirst horder
    show r.pending.eraseIdx 0 <:+ elements
    rw [List.eraseIdx_zero]
    exact (List.tail_suffix _).trans (h.suffix horder)
  retained horder := by
    obtain rfl := hfirst horder
    -- what is retained is the same list, split one place further on
    have hsame : r.produced ++ [r.pending[0]] ++ r.pending.eraseIdx 0 = r.produced ++ r.pending := by
      rw [List.append_assoc, List.singleton_append, List.eraseIdx_zero, List.getElem_zero_eq_head,
        List.cons_head_tail]
    show (r.produced ++ [r.pending[0]] ++ r.pending.eraseIdx 0).Sublist elements
    rw [hsame]
    exact h.retained horder
  last _ := ⟨_, _, rfl, List.getLast?_concat⟩

/-- A due removal takes the element that was produced last. -/
theorem Conserves.removal (h : r.Conserves elements produced removed) (hmark : r.canRemove = true) :
    Conserves elements { r with produced := r.produced.dropLast, canRemove := false } produced
      (removed ++ r.produced.getLast?.toList) where
  balance := by
    obtain ⟨front, x, hfront, -⟩ := h.last hmark
    show (r.produced.dropLast ++ r.pending ++ (removed ++ r.produced.getLast?.toList)).Perm elements
    rw [hfront, List.dropLast_concat, List.getLast?_concat, Option.toList_some]
    calc front ++ r.pending ++ (removed ++ [x])
        = front ++ (r.pending ++ removed ++ [x]) := by simp only [List.append_assoc]
      _ |>.Perm (front ++ ([x] ++ (r.pending ++ removed))) := List.perm_append_comm.append_left _
      _ = r.produced ++ r.pending ++ removed := by rw [hfront]; simp only [List.append_assoc]
      _ |>.Perm elements := h.balance
  pending := h.pending
  suffix := h.suffix
  retained horder := ((List.dropLast_sublist _).append_right _).trans (h.retained horder)
  last := nofun

/-- A removal that is given up leaves everything where it is. -/
theorem Conserves.waiver (h : r.Conserves elements produced removed) :
    r.forfeit.Conserves elements produced removed where
  balance := h.balance
  pending := h.pending
  suffix := h.suffix
  retained := h.retained
  last := nofun

/-- **One action keeps the account**, whatever it comes to. -/
theorem Conserves.effect {r' : Reference α} {x y : Option α} {forfeits : Bool}
    (h : r.Conserves elements produced removed) (heffect : r.Effect x y forfeits r') :
    r'.Conserves elements (produced ++ x.toList) (removed ++ y.toList) := by
  cases heffect with
  | nothing => simpa using h
  | production hi hfirst => simpa using h.production hi hfirst
  | removal hmark => simpa using h.removal hmark
  | waiver _ => simpa using h.waiver

/-! ## What stays -/

/-- A reference **holds** the elements `front` if the produced ones begin with them, and with more
    than them while one of the produced can be removed. -/
structure Holds (front : List α) (r : Reference α) : Prop where
  isPrefix : front <+: r.produced
  marked : r.canRemove = true → front.length < r.produced.length

theorem Holds.effect {r' : Reference α} {x y : Option α} {forfeits : Bool} (h : r.Holds front)
    (heffect : r.Effect x y forfeits r') : r'.Holds front := by
  cases heffect with
  | nothing => exact h
  | production hi _ =>
      have hlen := h.isPrefix.length_le
      refine ⟨h.isPrefix.trans (List.prefix_append _ _), ?_⟩
      intro _
      show front.length < (r.produced ++ [_]).length
      rw [List.length_append, List.length_singleton]
      omega
  | removal hmark =>
      have hlen := h.marked hmark
      refine ⟨?_, nofun⟩
      show front <+: r.produced.dropLast
      rw [List.dropLast_eq_take]
      exact List.prefix_take_iff.mpr ⟨h.isPrefix, by omega⟩
  | waiver hmark => exact ⟨h.isPrefix, nofun⟩

/-! ## Any list of actions -/

variable [BEq α]

/-- **Any list of actions keeps the account.** -/
theorem conserves_acts (elements : List α) (order : Order) (actions : List (Action α)) :
    ((initial elements order).acts actions).Conserves elements
      ((initial elements order).everProduced actions)
      ((initial elements order).everRemoved actions) := by
  induction actions using List.reverseRecOn with
  | nil => exact conserves_initial elements order
  | append_singleton actions a ih =>
      rw [acts_concat, everProduced_concat, everRemoved_concat]
      exact ih.effect (effect_act _ a)

theorem order_acts (r : Reference α) (actions : List (Action α)) :
    (r.acts actions).order = r.order := by
  refine acts_invariant (I := fun r' => r'.order = r.order) ?_ rfl actions
  intro r₁ r₂ _ _ _ heffect (horder : r₁.order = r.order)
  rw [← horder]
  cases heffect <;> rfl

/-- **Without the marker** whatever was produced and not removed stays for ever. -/
theorem isPrefix_produced_acts (h : r.canRemove = false) (later : List (Action α)) :
    r.produced <+: (r.acts later).produced := by
  have hnow : r.Holds r.produced := ⟨List.prefix_rfl, fun hmark => nomatch h.symm.trans hmark⟩
  have hlater : (r.acts later).Holds r.produced :=
    acts_invariant (fun _ _ _ _ _ heffect hr => hr.effect heffect) hnow later
  exact hlater.isPrefix

/-- **The reference conserves its elements.**  After any list of actions, what is produced, pending
    and removed makes up the initial elements.  What is pending is a part of them in their order,
    and with a determinate order it is an end of them and what is retained is a part of them.  While
    the marker is set, the produced elements end with the one produced last: a removal takes this one
    and nothing else, and if it is given up, this one and all before it stay for ever.  Without the
    marker a removal changes nothing. -/
theorem conserves_elements (elements : List α) (order : Order) (actions : List (Action α)) :
    let start := initial elements order
    let r := start.acts actions
    (r.produced ++ r.pending ++ start.everRemoved actions).Perm elements ∧
      r.pending.Sublist elements ∧
      (order = .determinate → r.pending <:+ elements ∧ r.view.retained.Sublist elements) ∧
      (r.canRemove = true →
        ∃ front x, (start.everProduced actions).getLast? = some x ∧ r.produced = front ++ [x] ∧
          (∀ observed, r.act (.advance .removeLast observed) =
            { r with produced := front, canRemove := false }) ∧
          ∀ later, front ++ [x] <+: (start.acts (actions ++ .forfeit :: later)).produced) ∧
      (r.canRemove = false → ∀ observed, r.act (.advance .removeLast observed) = r) := by
  intro start r
  have haccount : r.Conserves elements (start.everProduced actions) (start.everRemoved actions) :=
    conserves_acts elements order actions
  have horder : r.order = order := order_acts start actions
  refine ⟨haccount.balance, haccount.pending, ?_, ?_, ?_⟩
  · intro hdeterminate
    have hr : r.order = .determinate := horder.trans hdeterminate
    exact ⟨haccount.suffix hr, haccount.retained hr⟩
  · intro hmark
    obtain ⟨front, x, hproduced, hlast⟩ := haccount.last hmark
    refine ⟨front, x, hlast, hproduced, ?_, ?_⟩
    · intro observed
      show r.dropProduced = _
      rw [dropProduced, if_pos hmark, hproduced, List.dropLast_concat]
    · intro later
      rw [acts_append, ← hproduced]
      exact isPrefix_produced_acts (r := r.forfeit) rfl later
  · intro hmark observed
    exact advance_removeLast_of_unmarked hmark observed

end Reference

end Lockstep
