import Lockstep.Candidate.Cursor
import Lockstep.Proofs.Replay.Serving

/-!
# Which element was produced

Whether a value may come next, and which pending element it then was, is decided in three places.
The judge looks the value up in what was predicted.  `Reference.admits` looks it up among the
pending elements.  And `Reference.advance` searches for its position; where the search fails it
takes the first element, whatever that is.

All three come to the same, for any equality of elements, reflexive or not.  So the search fails
only where the judge has already stopped the replay.

* **`Reference.judge_produced_eq_agree`** — agreement is admission.
* **`Reference.produces_advance`** — what is admitted is found, and what is found moves.
* **`Bench.produces_of_view?`** — one step of a replay.
* **`Runner.produces_first_match`** — for all references, and for all replays.
-/

namespace Lockstep

universe u v w

variable {σ : Type u} {α : Type v} {η : Type w} [BEq α]

/-- A production of `y` moves the first pending element that equals `y` behind the elements produced
    before, and leaves everything else where it is. -/
inductive View.Produces (y : α) : View α → View α → Prop where
  | first {produced front back : List α} {x : α} (hfront : ∀ z ∈ front, (z == y) = false)
      (hequal : (x == y) = true) :
      Produces y ⟨produced, front ++ x :: back⟩ ⟨produced ++ [x], front ++ back⟩

namespace Reference

variable {r : Reference α} {y : α}

/-- With nothing pending nothing is admitted. -/
theorem admits_of_pending_nil (h : r.pending = []) (y : α) : r.admits y = false := by
  rw [admits, h]
  cases r.order <;> rfl

/-- **Agreement is admission.** -/
theorem judge_produced_eq_agree {j : Judge} {previous : Option (Outcome α)} :
    j.judge (r.predict .produceNext) (.produced y) previous = .agree ↔ r.admits y = true := by
  cases hpending : r.pending with
  | nil =>
      rw [predict_eq_exhausted.mpr ⟨rfl, hpending⟩, admits_of_pending_nil hpending]
      exact ⟨nofun, nofun⟩
  | cons x xs =>
      rw [judge_produced (by rw [hpending]; exact Nat.succ_pos _)]
      cases r.admits y <;> simp

/-- **What is found moves**, and nothing else does. -/
theorem produces_advance (h : r.admits y = true) :
    r.view.Produces y (r.advance .produceNext (some y)).view := by
  obtain ⟨hlt, hequal, hbefore⟩ := List.findIdx?_eq_some_iff_getElem.mp (findIdx?_of_admits h)
  rw [advance, produceAt_of_lt hlt]
  generalize r.position (some y) = i at hlt hequal hbefore ⊢
  have hfront : ∀ z ∈ r.pending.take i, (z == y) = false := by
    intro z hz
    obtain ⟨l, hl, rfl⟩ := List.mem_take_iff_getElem.mp hz
    exact Bool.eq_false_iff.mpr (hbefore l (Nat.lt_of_lt_of_le hl (Nat.min_le_left _ _)))
  have hsplit : r.view =
      ⟨r.produced, r.pending.take i ++ r.pending[i] :: r.pending.drop (i + 1)⟩ := by
    rw [← List.drop_eq_getElem_cons hlt, List.take_append_drop]
    rfl
  rw [hsplit, view, List.eraseIdx_eq_take_drop_succ]
  exact .first hfront hequal

end Reference

omit [BEq α] in
/-- Elements are observed of productions only. -/
theorem Candidate.eq_produceNext_of_produced {c : Candidate σ α} {op : Operation} {s : σ} {y : α}
    (h : (c.perform op s).1 = .produced y) : op = .produceNext := by
  cases op with
  | produceNext => rfl
  | hasMore =>
      have hreply : (c.hasMore s).1.toOutcome .hasMore = .produced y := h
      cases hask : (c.hasMore s).1 <;> rw [hask] at hreply <;> exact nomatch hreply
  | removeLast =>
      have hnone := c.element?_perform_removeLast s
      rw [h] at hnone
      exact nomatch hnone

namespace Bench

variable {b : Bench σ α η} {k k' : Checkpoint σ α η} {op : Operation} {w : Word} {i : Nat} {y : α}

/-- What the hook was shown last, in front of a checkpoint, are the contents there. -/
theorem getElem?_views_of_reach (hreach : b.reach k (w.take i) = some k') (hi : i ≤ w.length) :
    (k.reference.view :: (b.run k w).views)[i]? = some k'.reference.view := by
  cases i with
  | zero => rw [← Option.some.inj hreach]; rfl
  | succ i =>
      have hop : w[i]? = some w[i] := List.getElem?_eq_getElem hi
      obtain ⟨k₁, hreach₁, hnext⟩ := exists_of_reach_take_succ hop hreach
      rw [List.getElem?_cons_succ, views_getElem?_of_reach hreach₁ hop, view?_of_next hnext]
      obtain ⟨-, -, rfl⟩ := next?_eq_some.mp hnext
      rfl

/-- **A value that the judge accepts** was admitted. -/
theorem admits_of_isAcceptable (hout : b.outcome k op = .produced y)
    (hv : (b.verdict k op).isAcceptable = true) :
    op = .produceNext ∧ b.verdict k op = .agree ∧ k.reference.admits y = true := by
  obtain rfl : op = .produceNext := Candidate.eq_produceNext_of_produced hout
  have hagree : b.verdict k .produceNext = .agree := by
    cases hverdict : b.verdict k .produceNext with
    | agree => rfl
    | tolerated =>
        obtain ⟨f, -, hfailed, -⟩ := Judge.judge_eq_tolerated.mp hverdict
        rw [hout] at hfailed
        exact nomatch hfailed
    | diverge violation =>
        rw [hverdict] at hv
        exact nomatch hv
  refine ⟨rfl, hagree, ?_⟩
  rw [verdict, hout] at hagree
  exact Reference.judge_produced_eq_agree.mp hagree

/-- **One step**: if a value is observed and the hook is called, the hook is shown the contents with
    the first match produced. -/
theorem produces_of_view? {v : View α} (hout : b.outcome k op = .produced y)
    (hview : b.view? k op = some v) : k.reference.view.Produces y v := by
  rw [view?] at hview
  cases hv : (b.verdict k op).isAcceptable with
  | false => simp [hv] at hview
  | true =>
      rw [if_pos hv] at hview
      obtain ⟨rfl, hagree, hadmits⟩ := admits_of_isAcceptable hout hv
      rw [← Option.some.inj hview, settled, hagree, hout]
      exact Reference.produces_advance hadmits

/-- **All steps**: this is so at every place of a replay. -/
theorem produces_of_views {v v' : View α}
    (hout : (b.candidate.outcomes k.candidate w)[i]? = some (.produced y))
    (hv : (k.reference.view :: (b.run k w).views)[i]? = some v)
    (hv' : (b.run k w).views[i]? = some v') : v.Produces y v' := by
  rw [views_getElem?] at hv'
  obtain ⟨k', hreach, hbind⟩ := Option.bind_eq_some_iff.mp hv'
  obtain ⟨op, hop, hview⟩ := Option.bind_eq_some_iff.mp hbind
  have hi : i ≤ w.length := Nat.le_of_lt (List.getElem?_eq_some_iff.mp hop).1
  rw [getElem?_outcomes_of_reach hreach hop] at hout
  rw [getElem?_views_of_reach hreach hi] at hv
  rw [← Option.some.inj hv]
  exact produces_of_view? (Option.some.inj hout) hview

end Bench

/-- **The first match is produced**, for any equality of elements.  A production that comes to `y`
    agrees exactly if `y` is admitted; otherwise it is a missing exhaustion, or a mismatch.  If `y`
    is admitted, the search finds it, and the first pending element that equals it moves behind
    those produced before.

    So in a replay every accepted production of `y` moves such an element: what the hook is shown
    differs from what it was shown before (at first, from the expected elements) in this one
    element.  The first position is never taken for a value that does not match there. -/
theorem Runner.produces_first_match :
    (∀ (r : Reference α) (j : Judge) (previous : Option (Outcome α)) (y : α),
      let v := j.judge (r.predict .produceNext) (.produced y) previous
      (v = .agree ↔ r.admits y = true) ∧
        (r.pending = [] → v = .diverge (.missingFault .exhausted)) ∧
        (r.pending ≠ [] → r.admits y = false → v = .diverge .valueMismatch)) ∧
      (∀ (r : Reference α) (y : α), r.admits y = true →
        let next := r.advance .produceNext (some y)
        r.pending.findIdx? (· == y) = some (r.position (some y)) ∧
          r.view.Produces y next.view ∧ next.canRemove = true ∧ next.order = r.order) ∧
      ∀ (runner : Runner α) (c : Candidate σ α) (hook : Hook η σ α) (s : σ) (h : η) (w : Word)
        (i : Nat) (y : α) (v v' : View α),
        let r := runner.replay c hook s h w
        (c.outcomes s w)[i]? = some (.produced y) →
          (⟨[], runner.expected⟩ :: r.views)[i]? = some v → r.views[i]? = some v' →
            v.Produces y v' := by
  refine ⟨?_, ?_, ?_⟩
  · intro r j previous y v
    refine ⟨Reference.judge_produced_eq_agree, ?_, ?_⟩
    · intro hnil
      show j.judge _ _ _ = _
      rw [Reference.predict_eq_exhausted.mpr ⟨rfl, hnil⟩]
      rfl
    · intro hpending hadmits
      show j.judge _ _ _ = _
      rw [Reference.judge_produced (List.length_pos_iff.mpr hpending), hadmits]
      rfl
  · intro r y hadmits next
    have hfound := Reference.findIdx?_of_admits hadmits
    have hlt := (List.findIdx?_eq_some_iff_getElem.mp hfound).1
    have hnext : next = _ := Reference.produceAt_of_lt hlt
    exact ⟨hfound, Reference.produces_advance hadmits, by rw [hnext], by rw [hnext]⟩
  · intro runner c hook s h w i y v v' r hout hv hv'
    let b : Bench σ α η := ⟨runner.judge, c, hook⟩
    exact Bench.produces_of_views (b := b) (k := .start (.initial runner.expected runner.order) s h)
      hout hv hv'

/-- A cursor over one element, held to four in any order: the first of two matches moves. -/
theorem Runner.produces_first_match_duplicate :
    View.Produces 2 ⟨[], [1, 2, 2, 3]⟩ ⟨[2], [1, 2, 3]⟩ :=
  (produces_first_match (σ := Cursor Nat) (η := Unit)).2.2
    ⟨[1, 2, 2, 3], .indeterminate, {}⟩ Cursor.candidate Hook.accepting (.ofList [2]) ()
    [.produceNext] 0 2 _ _ rfl rfl rfl

end Lockstep
