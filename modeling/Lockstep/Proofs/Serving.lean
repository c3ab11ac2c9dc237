import Lockstep.Candidate.LegacyRemoval
import Lockstep.Candidate.Peeking
import Lockstep.Proofs.Cursor
import Lockstep.Proofs.Due
import Lockstep.Proofs.Fits

/-!
# What the built-in candidates answer

A candidate over a list is told by the word of calls behind it: how many productions it holds, and
whether a removal is due at its end.  `Word.served` is the answer that the contract asks for there.
The cursor gives exactly this answer.  The other two candidates give it to every call but a
removal, and differ from each other in how they refuse one.

* **`Cursor.perform_stateAfter`** — the cursor answers as the contract asks.
* **`Peeking.perform_stateAfter`** — a stream asked ahead of time answers as if it were not.
* **`LegacyRemoval.perform_stateAfter`** — the defect shows in removals behind more productions than
  there are elements, and nowhere else.
-/

namespace Lockstep

universe u v

variable {σ : Type u} {α : Type v}

/-- What the contract asks of a candidate over `xs`, for a call behind the calls of `u`. -/
def Word.served (xs : List α) (u : Word) : Operation → Outcome α
  | .hasMore => .hasMore (decide (u.count .produceNext < xs.length))
  | .produceNext => (xs[u.count .produceNext]?).elim (.failed .exhausted) .produced
  | .removeLast =>
    if ((Shape.initial xs.length).afterAll u).canRemove then .removed else .failed .illegalRemoval

theorem Word.served_produceNext_of_lt {xs : List α} {u : Word}
    (h : u.count .produceNext < xs.length) :
    u.served xs .produceNext = .produced xs[u.count .produceNext] := by
  rw [served, List.getElem?_eq_getElem h]
  rfl

theorem Word.served_produceNext_of_le {xs : List α} {u : Word}
    (h : xs.length ≤ u.count .produceNext) : u.served xs .produceNext = .failed .exhausted := by
  rw [served, List.getElem?_eq_none h]
  rfl

/-- A candidate **serves** a list if it answers every call but a removal as the contract asks, from
    the state `s` on. -/
def Candidate.Serves (c : Candidate σ α) (s : σ) (xs : List α) : Prop :=
  ∀ (u : Word) (op : Operation), op ≠ .removeLast →
    (c.perform op (c.stateAfter s u)).1 = u.served xs op

theorem Candidate.stateAfter_snoc (c : Candidate σ α) (s : σ) (u : Word) (op : Operation) :
    c.stateAfter s (u ++ [op]) = (c.perform op (c.stateAfter s u)).2 := by
  rw [stateAfter, List.foldl_append]
  rfl

theorem Word.count_snoc (u : Word) (op : Operation) :
    (u ++ [op]).count .produceNext = u.count .produceNext + if op = .produceNext then 1 else 0 := by
  rw [List.count_append, List.count_singleton]
  cases op <;> rfl

/-! ## The cursor -/

namespace Cursor

/-- Behind any word the cursor tracks a reference over its own list. -/
theorem exists_tracks (xs : List α) (u : Word) :
    ∃ r : Reference α, Tracks (candidate.stateAfter (ofList xs) u) r ∧
      r.Fits ((Shape.initial xs.length).afterAll u) ∧
      r.pending = xs.drop (u.count .produceNext) := by
  -- with a determinate order no elements are compared, so any equality will do
  let _ : BEq α := ⟨fun _ _ => true⟩
  induction u using List.reverseRecOn with
  | nil => exact ⟨.initial xs .determinate, tracks_ofList xs, Reference.fits_initial xs _, rfl⟩
  | append_singleton u op ih =>
      obtain ⟨r, htracks, hfits, hpending⟩ := ih
      refine ⟨r.advance op none, ?_, ?_, ?_⟩
      · rw [Candidate.stateAfter_snoc]
        exact tracks_perform htracks op none
      · rw [Shape.afterAll_append]
        exact hfits.advance op none
      · rw [Reference.pending_advance_of_determinate htracks.order, hpending, List.drop_drop,
          Word.count_snoc]

/-- A cursor stands in front of an element while it was asked for fewer than there are. -/
theorem next_lt_iff (xs : List α) (u : Word) :
    (candidate.stateAfter (ofList xs) u).next < (candidate.stateAfter (ofList xs) u).items.length ↔
      u.count .produceNext < xs.length := by
  obtain ⟨r, htracks, -, hpending⟩ := exists_tracks xs u
  rw [htracks.items, htracks.next, List.length_append, hpending, List.length_drop]
  omega

theorem produceNext_of_lt {c : Cursor α} (h : c.next < c.items.length) :
    c.produceNext =
      (.value c.items[c.next], { c with next := c.next + 1, last := some c.next }) := by
  rw [produceNext, List.getElem?_eq_getElem h]

theorem produceNext_of_not_lt {c : Cursor α} (h : ¬ c.next < c.items.length) :
    c.produceNext = (.fault .exhausted, c) := by
  rw [produceNext, List.getElem?_eq_none (Nat.le_of_not_lt h)]

/-- **The cursor** answers as the contract asks. -/
theorem perform_stateAfter (xs : List α) (u : Word) (op : Operation) :
    (candidate.perform op (candidate.stateAfter (ofList xs) u)).1 = u.served xs op := by
  obtain ⟨r, htracks, hfits, hpending⟩ := exists_tracks xs u
  cases op with
  | hasMore =>
      show Outcome.hasMore (decide _) = .hasMore (decide _)
      rw [decide_eq_decide.mpr (next_lt_iff xs u)]
  | produceNext =>
      have hnext := getElem?_next htracks
      rw [hpending, List.head?_drop] at hnext
      show (produceNext _).1.toOutcome _ = _
      rw [produceNext, hnext, Word.served]
      cases xs[u.count .produceNext]? <;> rfl
  | removeLast =>
      have hlast := htracks.last
      show (removeLast _).1.toOutcome _ = _
      rw [removeLast, hlast, Word.served, ← hfits.canRemove]
      cases hmark : r.canRemove with
      | false => rfl
      | true =>
          have hlt := last_lt htracks hmark
          simp [hlt, Reply.toOutcome]

theorem serves (xs : List α) : candidate.Serves (ofList xs) xs :=
  fun u op _ => perform_stateAfter xs u op

end Cursor

/-! ## Streams -/

namespace Peeking

variable {ι : Type u}

/-- The stream once `k` results were taken from it. -/
def streamAfter (next : ι → Option α × ι) (stream : ι) : Nat → ι
  | 0 => stream
  | k + 1 => (next (streamAfter next stream k)).2

/-- The result of number `k` of a stream, counted from zero. -/
def result (next : ι → Option α × ι) (stream : ι) (k : Nat) : Option α :=
  (next (streamAfter next stream k)).1

variable {next : ι → Option α × ι}

/-- **The result that comes next** is that of the first production still to be made, whether it was
    asked for ahead of time or not. -/
theorem peek_stateAfter (next : ι → Option α × ι) (stream : ι) (u : Word) :
    ((candidate next).stateAfter (ofStream stream) u).peek next =
      (result next stream (u.count .produceNext),
        streamAfter next stream (u.count .produceNext + 1)) := by
  induction u using List.reverseRecOn with
  | nil => rfl
  | append_singleton u op ih =>
      rw [Candidate.stateAfter_snoc, Word.count_snoc]
      generalize (candidate next).stateAfter (ofStream stream) u = p at ih ⊢
      cases op with
      | hasMore =>
          show (hasMore next p).2.peek next = _
          rw [hasMore, ih]
          rfl
      | produceNext =>
          show (produceNext next p).2.peek next = _
          rw [produceNext, ih]
          rfl
      | removeLast => exact ih

/-- **A stream** answers with its results in turn; that it is asked ahead of time does not show. -/
theorem perform_stateAfter (next : ι → Option α × ι) (stream : ι) (u : Word) (op : Operation) :
    ((candidate next).perform op ((candidate next).stateAfter (ofStream stream) u)).1 =
      match op with
      | .hasMore => .hasMore (result next stream (u.count .produceNext)).isSome
      | .produceNext =>
        (result next stream (u.count .produceNext)).elim (.failed .exhausted) .produced
      | .removeLast => .failed .unsupported := by
  have hpeek := peek_stateAfter next stream u
  generalize (candidate next).stateAfter (ofStream stream) u = p at hpeek ⊢
  cases op with
  | hasMore =>
      show (hasMore next p).1.toOutcome _ = _
      rw [hasMore, hpeek]
      rfl
  | produceNext =>
      show (produceNext next p).1.toOutcome _ = _
      rw [produceNext, hpeek]
      cases result next stream (u.count .produceNext) <;> rfl
  | removeLast => rfl

/-- A stream **lists** `xs` if its results are the elements in turn, and nothing for ever behind
    them. -/
def Lists (next : ι → Option α × ι) (stream : ι) (xs : List α) : Prop :=
  ∀ k, result next stream k = xs[k]?

theorem serves {stream : ι} {xs : List α} (h : Lists next stream xs) :
    (candidate next).Serves (ofStream stream) xs := by
  intro u op hop
  have hperform := perform_stateAfter next stream u op
  rw [h] at hperform
  cases op with
  | hasMore =>
      refine hperform.trans ?_
      show Outcome.hasMore _ = .hasMore (decide _)
      rcases Nat.lt_or_ge (u.count .produceNext) xs.length with hlt | hge
      · rw [List.getElem?_eq_getElem hlt, decide_eq_true hlt]
        rfl
      · rw [List.getElem?_eq_none hge, decide_eq_false (Nat.not_lt.mpr hge)]
        rfl
  | produceNext => exact hperform
  | removeLast => exact absurd rfl hop

theorem streamAfter_nextOfList (results : List (Option α)) (k : Nat) :
    streamAfter nextOfList results k = results.drop k := by
  induction k with
  | zero => rfl
  | succ k ih =>
      rw [streamAfter, ih, ← List.tail_drop]
      cases results.drop k <;> rfl

/-- The stream of the elements of a list lists them. -/
theorem lists_nextOfList (xs : List α) : Lists nextOfList (xs.map some) xs := by
  intro k
  rw [result, streamAfter_nextOfList, ← List.map_drop, ← List.head?_drop]
  cases xs.drop k <;> rfl

/-- Removals are not offered. -/
theorem perform_removeLast (p : Peeking ι α) :
    ((candidate next).perform .removeLast p).1 = .failed .unsupported := rfl

end Peeking

/-! ## The legacy defect -/

namespace LegacyRemoval

/-- What the wrapper over a cursor is like behind a word.  While no production failed, the cursor
    inside is where one by itself would be; afterwards it stands at its end, wherever that is. -/
inductive Shadows (xs : List α) (u : Word) : LegacyRemoval (Cursor α) → Prop where
  | faithful (h : u.count .produceNext ≤ xs.length) :
      Shadows xs u ⟨Cursor.candidate.stateAfter (.ofList xs) u, false⟩
  | spent {inner : Cursor α} (h : xs.length < u.count .produceNext)
      (hend : ¬ inner.next < inner.items.length) : Shadows xs u ⟨inner, true⟩

variable {xs : List α} {u : Word} {s : LegacyRemoval (Cursor α)}

/-- **One more call.**  The wrapper begins to show with the production that finds the cursor at its
    end for the first time. -/
theorem Shadows.snoc (h : Shadows xs u s) (op : Operation) :
    Shadows xs (u ++ [op]) ((candidate Cursor.candidate).perform op s).2 := by
  have hcount := u.count_snoc op
  cases h with
  | faithful hle =>
      have hnext := Cursor.next_lt_iff xs u
      have hsnoc := Candidate.stateAfter_snoc Cursor.candidate (.ofList xs) u op
      generalize Cursor.candidate.stateAfter (.ofList xs) u = inner at hnext hsnoc
      cases op with
      | hasMore =>
          show Shadows _ _ ⟨(Cursor.candidate.perform .hasMore inner).2, false⟩
          rw [← hsnoc]
          exact .faithful (by rw [hcount]; exact hle)
      | produceNext =>
          show Shadows _ _ (produceNext Cursor.candidate _).2
          rcases Nat.lt_or_eq_of_le hle with hlt | heq
          · have hreply : Cursor.candidate.produceNext inner = _ :=
              Cursor.produceNext_of_lt (hnext.mpr hlt)
            have hstate : (Cursor.candidate.perform .produceNext inner).2 =
                { inner with next := inner.next + 1, last := some inner.next } := by
              rw [Candidate.perform, hreply]
            simp only [produceNext, hreply]
            rw [← hstate, ← hsnoc]
            exact .faithful (by rw [hcount]; exact hlt)
          · have hend : ¬ inner.next < inner.items.length := by
              rw [hnext, heq]
              exact Nat.lt_irrefl _
            have hreply : Cursor.candidate.produceNext inner = _ :=
              Cursor.produceNext_of_not_lt hend
            simp only [produceNext, hreply]
            exact .spent (by rw [hcount, heq]; exact Nat.lt_succ_self _) hend
      | removeLast =>
          show Shadows _ _ ⟨(Cursor.candidate.perform .removeLast inner).2, false⟩
          rw [← hsnoc]
          exact .faithful (by rw [hcount]; exact hle)
  | @spent inner hlt hend =>
      have hmore : xs.length < (u ++ [op]).count .produceNext := by
        rw [hcount]
        exact Nat.lt_add_right _ hlt
      cases op with
      | hasMore => exact .spent hmore hend
      | produceNext =>
          have hreply : Cursor.candidate.produceNext inner = _ := Cursor.produceNext_of_not_lt hend
          show Shadows _ _ (produceNext Cursor.candidate _).2
          simp only [produceNext, hreply]
          exact .spent hmore hend
      | removeLast => exact .spent hmore hend

theorem shadows_stateAfter (xs : List α) (u : Word) :
    Shadows xs u ((candidate Cursor.candidate).stateAfter (.ofInner (.ofList xs)) u) := by
  induction u using List.reverseRecOn with
  | nil => exact .faithful (Nat.zero_le _)
  | append_singleton u op ih =>
      rw [Candidate.stateAfter_snoc]
      exact ih.snoc op

/-- A production replies as the candidate inside does. -/
theorem produceNext_fst (c : Candidate σ α) (s : LegacyRemoval σ) :
    (produceNext c s).1 = (c.produceNext s.inner).1 := by
  rw [produceNext]
  split
  · rename_i f inner hreply
    rw [hreply]
  · rename_i reply inner _ hreply
    rw [hreply]

/-- **The defect** shows in removals behind more productions than there are elements; every other
    call is answered as the contract asks. -/
theorem perform_stateAfter (xs : List α) (u : Word) (op : Operation) :
    ((candidate Cursor.candidate).perform op
        ((candidate Cursor.candidate).stateAfter (.ofInner (.ofList xs)) u)).1 =
      if op = .removeLast ∧ xs.length < u.count .produceNext then .failed .illegalRemoval
      else u.served xs op := by
  have h := shadows_stateAfter xs u
  generalize (candidate Cursor.candidate).stateAfter (.ofInner (.ofList xs)) u = s at h ⊢
  cases h with
  | faithful hle =>
      have hserved := Cursor.perform_stateAfter xs u op
      rw [if_neg fun h => Nat.not_lt.mpr hle h.2, ← hserved]
      cases op with
      | hasMore => rfl
      | produceNext =>
          show (produceNext Cursor.candidate _).1.toOutcome _ = _
          rw [produceNext_fst]
          rfl
      | removeLast => rfl
  | @spent inner hlt hend =>
      cases op with
      | hasMore =>
          have hnone : ¬ u.count .produceNext < xs.length := Nat.lt_asymm hlt
          show Outcome.hasMore (decide _) = .hasMore (decide _)
          rw [decide_eq_false hend, decide_eq_false hnone]
      | produceNext =>
          have hreply : Cursor.candidate.produceNext inner = _ := Cursor.produceNext_of_not_lt hend
          show (produceNext Cursor.candidate _).1.toOutcome _ = _
          rw [produceNext_fst, hreply, if_neg fun h => nomatch h.1]
          exact (Word.served_produceNext_of_le (Nat.le_of_lt hlt)).symm
      | removeLast => exact (if_pos ⟨rfl, hlt⟩).symm

theorem serves (xs : List α) : (candidate Cursor.candidate).Serves (.ofInner (.ofList xs)) xs := by
  intro u op hop
  rw [perform_stateAfter, if_neg fun h => hop h.1]

end LegacyRemoval

end Lockstep
