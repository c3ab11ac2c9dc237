import Lockstep.Proofs.Serving

/-!
# The legacy defect is a projection

The wrapper changes nothing until a production fails.  From there on it drops the removals of its
word, and forwards everything else.  So what it answers can be read off the candidate inside, run
on the calls that are forwarded: the candidate inside never learns of the others.

The projection is the same for every wrapped candidate, another wrapper among them.  Both wrappers
note the same failure, so the outer one has nothing left to drop (`outcomes_twice`).

* **`LegacyRemoval.perform_fresh`**, **`LegacyRemoval.perform_spent`** — one call, before the first
  failure and behind it.
* **`LegacyRemoval.projects`** — every word of calls.
-/

namespace Lockstep

universe u v

variable {σ : Type u} {α : Type v}

/-- The place of the first production of a word that fails. -/
def Candidate.firstFailure? (c : Candidate σ α) (s : σ) (w : Word) : Option Nat :=
  (w.zip (c.outcomes s w)).findIdx? fun call => call.1 = .produceNext && call.2.fault?.isSome

/-- The calls of a word that are no removals. -/
def Word.withoutRemovals (w : Word) : Word := w.filter (· ≠ .removeLast)

/-- The calls of a word that are forwarded if removals are dropped behind a place: those up to this
    place, and those behind it that are no removals. -/
def Word.forwarded (w : Word) : Option Nat → Word
  | none => w
  | some f => w.take (f + 1) ++ Word.withoutRemovals (w.drop (f + 1))

/-! ## The first failure -/

theorem Candidate.firstFailure?_cons (c : Candidate σ α) (s : σ) (op : Operation) (w : Word) :
    c.firstFailure? s (op :: w) =
      if op = .produceNext ∧ (c.perform op s).1.fault?.isSome then some 0
      else (c.firstFailure? (c.perform op s).2 w).map (· + 1) := by
  rw [firstFailure?, outcomes_cons, List.zip_cons_cons, List.findIdx?_cons]
  simp only [Bool.and_eq_true, decide_eq_true_eq]
  rfl

namespace Word

theorem withoutRemovals_cons_of_ne {op : Operation} (h : op ≠ .removeLast) (w : Word) :
    withoutRemovals (op :: w) = op :: w.withoutRemovals :=
  List.filter_cons_of_pos (decide_eq_true h)

theorem forwarded_nil (f : Option Nat) : forwarded [] f = [] := by
  cases f with
  | none => rfl
  | some f => rw [forwarded, List.take_nil, List.drop_nil, withoutRemovals, List.filter_nil,
      List.append_nil]

theorem forwarded_cons_zero (op : Operation) (w : Word) :
    forwarded (op :: w) (some 0) = op :: w.withoutRemovals := rfl

theorem forwarded_cons_map (op : Operation) (w : Word) (f : Option Nat) :
    forwarded (op :: w) (f.map (· + 1)) = op :: w.forwarded f := by
  cases f <;> rfl

end Word

private theorem any_lt_map_succ (f : Option Nat) (i : Nat) :
    (f.map (· + 1)).any (· < i + 1) = f.any (· < i) := by
  cases f <;> simp

namespace LegacyRemoval

variable {c : Candidate σ α} {s : σ}

/-! ## One call -/

/-- **Before the first failure** every call is forwarded, and the failure of a production is
    noted. -/
theorem perform_fresh (hcalm : ∀ s p, (c.produceNext s).1 ≠ .panic p) (op : Operation) (s : σ) :
    (candidate c).perform op ⟨s, false⟩ =
      ((c.perform op s).1,
        ⟨(c.perform op s).2, op = .produceNext ∧ (c.perform op s).1.fault?.isSome⟩) := by
  cases op with
  | hasMore => rfl
  | removeLast => rfl
  | produceNext =>
      have hreply := hcalm s
      show ((produceNext c ⟨s, false⟩).1.toOutcome .produced, (produceNext c ⟨s, false⟩).2) =
        ((c.produceNext s).1.toOutcome .produced, _)
      rw [Candidate.perform, produceNext]
      generalize c.produceNext s = replied at hreply ⊢
      obtain ⟨reply, inner⟩ := replied
      cases reply with
      | value x => rfl
      | fault f => rfl
      | panic p => exact absurd rfl (hreply p)

/-- **Behind it** removals are dropped, and all other calls are forwarded. -/
theorem perform_spent (c : Candidate σ α) (op : Operation) (s : σ) :
    (candidate c).perform op ⟨s, true⟩ =
      if op = .removeLast then (.failed .illegalRemoval, ⟨s, true⟩)
      else ((c.perform op s).1, ⟨(c.perform op s).2, true⟩) := by
  cases op with
  | hasMore => rfl
  | removeLast => rfl
  | produceNext =>
      show ((produceNext c ⟨s, true⟩).1.toOutcome .produced, (produceNext c ⟨s, true⟩).2) =
        ((c.produceNext s).1.toOutcome .produced, _)
      rw [Candidate.perform, produceNext]
      generalize c.produceNext s = replied
      obtain ⟨reply, inner⟩ := replied
      cases reply <;> rfl

/-- **A second wrapper** has noted what the first one has, and keeps doing so. -/
theorem perform_twice (c : Candidate σ α) (op : Operation) (t : LegacyRemoval σ) :
    (candidate (candidate c)).perform op ⟨t, t.nextFailed⟩ =
      (((candidate c).perform op t).1,
        ⟨((candidate c).perform op t).2, ((candidate c).perform op t).2.nextFailed⟩) := by
  obtain ⟨s, failed⟩ := t
  cases op with
  | hasMore => rfl
  | removeLast => cases failed <;> rfl
  | produceNext =>
      simp only [Candidate.perform, candidate, produceNext]
      generalize c.produceNext s = replied
      obtain ⟨reply, inner⟩ := replied
      cases reply <;> rfl

/-! ## All calls -/

/-- Behind the first failure the candidate inside makes the calls that are no removals. -/
theorem inner_spent (c : Candidate σ α) (s : σ) (w : Word) :
    ((candidate c).stateAfter ⟨s, true⟩ w).inner = c.stateAfter s w.withoutRemovals := by
  induction w generalizing s with
  | nil => rfl
  | cons op w ih =>
      rw [Candidate.stateAfter_cons, perform_spent]
      by_cases hop : op = .removeLast
      · subst hop
        exact ih s
      · rw [if_neg hop, Word.withoutRemovals_cons_of_ne hop]
        exact ih _

/-- Behind the first failure every removal is refused, and every other call comes to what it comes
    to inside without the removals. -/
theorem outcomes_spent (c : Candidate σ α) (s : σ) {w : Word} {i : Nat} {op : Operation}
    (hop : w[i]? = some op) :
    ((candidate c).outcomes ⟨s, true⟩ w)[i]? =
      if op = .removeLast then some (.failed .illegalRemoval)
      else (c.outcomes s w.withoutRemovals)[(Word.withoutRemovals (w.take i)).length]? := by
  induction w generalizing s i with
  | nil => exact nomatch hop
  | cons first w ih =>
      rw [Candidate.outcomes_cons, perform_spent]
      by_cases hfirst : first = .removeLast
      · -- a removal that is dropped leaves no trace in the word that is forwarded
        subst hfirst
        cases i with
        | zero =>
            obtain rfl := Option.some.inj hop
            rfl
        | succ i => exact ih s hop
      · rw [if_neg hfirst, Word.withoutRemovals_cons_of_ne hfirst]
        cases i with
        | zero =>
            obtain rfl := Option.some.inj hop
            rw [if_neg hfirst]
            rfl
        | succ i =>
            rw [List.take_succ_cons, Word.withoutRemovals_cons_of_ne hfirst]
            exact ih _ hop

section

variable (hcalm : ∀ s p, (c.produceNext s).1 ≠ .panic p)

include hcalm

/-- The candidate inside makes the calls that are forwarded, and no others. -/
theorem inner_fresh (s : σ) (w : Word) :
    ((candidate c).stateAfter (ofInner s) w).inner =
      c.stateAfter s (w.forwarded ((candidate c).firstFailure? (ofInner s) w)) := by
  induction w generalizing s with
  | nil => rfl
  | cons op w ih =>
      rw [Candidate.stateAfter_cons, Candidate.firstFailure?_cons, ofInner, perform_fresh hcalm]
      by_cases hfails : op = .produceNext ∧ (c.perform op s).1.fault?.isSome
      · rw [if_pos hfails, decide_eq_true hfails, Word.forwarded_cons_zero]
        exact inner_spent c _ w
      · rw [if_neg hfails, decide_eq_false hfails, Word.forwarded_cons_map]
        exact ih _

/-- **Place by place**, the wrapper refuses what it drops, and answers everything else as the
    candidate inside answers the forwarded calls. -/
theorem outcomes_fresh (s : σ) {w : Word} {i : Nat} {op : Operation} (hop : w[i]? = some op) :
    ((candidate c).outcomes (ofInner s) w)[i]? =
      if op = .removeLast ∧ ((candidate c).firstFailure? (ofInner s) w).any (· < i) then
        some (.failed .illegalRemoval)
      else
        (c.outcomes s (w.forwarded ((candidate c).firstFailure? (ofInner s) w)))[
          (Word.forwarded (w.take i) ((candidate c).firstFailure? (ofInner s) w)).length]? := by
  -- induction on the word, up to the first failure; what is behind it is `outcomes_spent`
  induction w generalizing s i with
  | nil => exact nomatch hop
  | cons first w ih =>
      rw [Candidate.outcomes_cons, Candidate.firstFailure?_cons, ofInner, perform_fresh hcalm]
      by_cases hfails : first = .produceNext ∧ (c.perform first s).1.fault?.isSome
      · rw [if_pos hfails, decide_eq_true hfails, Word.forwarded_cons_zero]
        cases i with
        | zero => simp [Word.forwarded_nil]
        | succ i =>
            have hrest : w[i]? = some op := hop
            rw [List.take_succ_cons, Word.forwarded_cons_zero]
            simpa using outcomes_spent c (c.perform first s).2 hrest
      · rw [if_neg hfails, decide_eq_false hfails, Word.forwarded_cons_map]
        cases i with
        | zero => simp [Word.forwarded_nil]
        | succ i =>
            rw [List.take_succ_cons, Word.forwarded_cons_map, any_lt_map_succ]
            exact ih _ hop

end

/-- **A second wrapper** shows nothing more, whatever the first one has noted. -/
theorem outcomes_twice (c : Candidate σ α) (t : LegacyRemoval σ) (w : Word) :
    (candidate (candidate c)).outcomes ⟨t, t.nextFailed⟩ w = (candidate c).outcomes t w := by
  induction w generalizing t with
  | nil => rfl
  | cons op w ih =>
      rw [Candidate.outcomes_cons, Candidate.outcomes_cons, perform_twice]
      exact congrArg _ (ih _)

/-! ## The projection -/

/-- **The legacy defect is a projection**, for every candidate whose productions do not panic.  Let
    `f` be the place of the first production that fails.  Removals behind it are refused, and every
    other call comes to what it comes to inside, on the word without these removals; it stands
    there behind as many calls as are forwarded in front of it.  Without such a place nothing
    changes.  The candidate inside makes the forwarded calls and no others.  So a second wrapper
    around the first shows nothing more. -/
theorem projects (hcalm : ∀ s p, (c.produceNext s).1 ≠ .panic p) (s : σ) (w : Word) :
    let os := (candidate c).outcomes (ofInner s) w
    let f := (candidate c).firstFailure? (ofInner s) w
    (∀ i op, w[i]? = some op →
        os[i]? =
          if op = .removeLast ∧ f.any (· < i) then some (.failed .illegalRemoval)
          else (c.outcomes s (w.forwarded f))[(Word.forwarded (w.take i) f).length]?) ∧
      (f = none → os = c.outcomes s w) ∧
      ((candidate c).stateAfter (ofInner s) w).inner = c.stateAfter s (w.forwarded f) ∧
      (candidate (candidate c)).outcomes (ofInner (ofInner s)) w = os := by
  intro os f
  have hplaces : ∀ i op, w[i]? = some op →
      os[i]? =
        if op = .removeLast ∧ f.any (· < i) then some (.failed .illegalRemoval)
        else (c.outcomes s (w.forwarded f))[(Word.forwarded (w.take i) f).length]? := by
    intro i op hop
    exact outcomes_fresh hcalm s hop
  refine ⟨hplaces, ?_, inner_fresh hcalm s w, outcomes_twice c (ofInner s) w⟩
  intro hf
  apply List.ext_getElem?
  intro i
  cases hop : w[i]? with
  | none =>
      have hlen : w.length ≤ i := List.getElem?_eq_none_iff.mp hop
      rw [List.getElem?_eq_none (by rw [Candidate.length_outcomes]; exact hlen),
        List.getElem?_eq_none (by rw [Candidate.length_outcomes]; exact hlen)]
  | some op =>
      have hlen : (w.take i).length = i :=
        List.length_take_of_le (Nat.le_of_lt (List.getElem?_eq_some_iff.mp hop).1)
      rw [hplaces i op hop, hf, if_neg (fun h => Bool.noConfusion h.2), Word.forwarded,
        Word.forwarded, hlen]

/-- A cursor over one element, with a removal that is dropped: the query behind it comes to what it
    comes to as the third call inside. -/
theorem projects_dropped_removal :
    let w : Word := [.produceNext, .produceNext, .removeLast, .hasMore, .produceNext]
    (∀ (s : Cursor Nat) p, (Cursor.candidate.produceNext s).1 ≠ .panic p) ∧
      (candidate Cursor.candidate).firstFailure? (ofInner (.ofList [7])) w = some 1 ∧
      ((candidate Cursor.candidate).outcomes (ofInner (.ofList [7])) w)[2]? =
        some (.failed .illegalRemoval) ∧
      ((candidate Cursor.candidate).outcomes (ofInner (.ofList [7])) w)[3]? =
        (Cursor.candidate.outcomes (.ofList [7])
          [.produceNext, .produceNext, .hasMore, .produceNext])[2]? := by
  intro w
  have hcalm : ∀ (s : Cursor Nat) p, (Cursor.candidate.produceNext s).1 ≠ .panic p := by
    intro s p
    by_cases hnext : s.next < s.items.length
    · rw [show Cursor.candidate.produceNext s = _ from Cursor.produceNext_of_lt hnext]
      exact nofun
    · rw [show Cursor.candidate.produceNext s = _ from Cursor.produceNext_of_not_lt hnext]
      exact nofun
  obtain ⟨hplaces, -⟩ := projects hcalm (.ofList [7]) w
  exact ⟨hcalm, by decide, hplaces 2 .removeLast rfl, hplaces 3 .hasMore rfl⟩

end LegacyRemoval

end Lockstep
