import Lockstep.Proofs.Cursor
import Lockstep.Proofs.Replay.Course
import Mathlib.Data.List.Forall2

/-!
# Replays and the cursor

A replay holds a candidate to a reference that nobody can run.  This file replaces the reference
by a candidate: a strict replay with a determinate order succeeds exactly if the outcomes agree,
call by call, with those of the cursor over the expected elements.

* **`Bench.isSuccess_iff_agrees`** — the invariant: some cursor tracks the reference of the
  checkpoint.
* **`Runner.isSuccess_iff_agrees`** — whole replays.
-/

namespace Lockstep

universe u v

variable {σ : Type u} {α : Type v}

namespace Bench

/-- The bench with a strict judge and a hook that accepts everything. -/
def plain (c : Candidate σ α) : Bench σ α Unit := ⟨⟨false⟩, c, Hook.accepting⟩

variable [BEq α] {c : Candidate σ α} {k : Checkpoint σ α Unit} {op : Operation} {cursor : Cursor α}

/-- **One step.**  A strict judge accepts an outcome exactly if it agrees with that of a cursor
    which tracks the reference. -/
theorem verdict_plain (h : cursor.Tracks k.reference) :
    (plain c).verdict k op = .agree ↔
      (Cursor.candidate.perform op cursor).1.Agrees (c.perform op k.candidate).1 := by
  rw [verdict, ← Cursor.demand_of_tracks h op]
  exact Judge.demand_eq_agree

/-- What a strict judge does not agree with, it does not accept. -/
theorem isAcceptable_plain (h : (plain c).verdict k op ≠ .agree) :
    ((plain c).verdict k op).isAcceptable = false := by
  cases hv : (plain c).verdict k op with
  | agree => exact absurd hv h
  | tolerated => exact absurd hv Judge.strict_ne_tolerated
  | diverge v => rfl

/-- **All steps.**  Induction on the word: an agreeing call moves cursor and reference on
    together, and the first one that does not agree ends the replay. -/
theorem isSuccess_iff_agrees (h : cursor.Tracks k.reference) (w : Word) :
    (((plain c).run k w).record w).isSuccess = true ↔
      List.Forall₂ Outcome.Agrees (Cursor.candidate.outcomes cursor w)
        (c.outcomes k.candidate w) := by
  induction w generalizing k cursor with
  | nil => exact iff_of_true rfl List.Forall₂.nil
  | cons op w ih =>
      rw [Candidate.outcomes_cons, Candidate.outcomes_cons, List.forall₂_cons, ← verdict_plain h]
      by_cases hv : (plain c).verdict k op = .agree
      · -- the call agrees: cursor and reference go on from states that match again
        have hacceptable : ((plain c).verdict k op).isAcceptable = true := by rw [hv]; rfl
        have hsettled : (plain c).settled k op =
            k.reference.advance op ((plain c).outcome k op).element? := by
          rw [settled, hv]
          rfl
        have htracks : (Cursor.candidate.perform op cursor).2.Tracks
            ((plain c).behind k op).reference := by
          show Cursor.Tracks _ ((plain c).settled k op)
          rw [hsettled]
          exact Cursor.tracks_perform h op _
        rw [run_cons_of_accept hacceptable rfl, isSuccess_after _ _ _ w hacceptable, ih htracks]
        exact (and_iff_right hv).symm
      · -- the call does not agree: the replay ends, and has failed
        rw [isSuccess_of_diverge (isAcceptable_plain hv)]
        exact iff_of_false Bool.false_ne_true fun hboth => hv hboth.1

/-- A hook that accepts everything breaks nothing off. -/
theorem panic_plain (k : Checkpoint σ α Unit) (w : Word) :
    ((plain c).run k w).panic = none := by
  induction w generalizing k with
  | nil => rfl
  | cons op w ih =>
      cases hv : ((plain c).verdict k op).isAcceptable with
      | false => rw [run_cons_of_diverge hv]
      | true =>
          rw [run_cons_of_accept hv rfl]
          exact ih _

end Bench

namespace Runner

variable [BEq α] (expected : List α) (c : Candidate σ α) (s : σ) (w : Word)

/-- **Replays and the cursor.**  A strict replay with a determinate order succeeds exactly if the
    candidate answers every call as the cursor over the expected elements does. -/
theorem isSuccess_iff_agrees :
    (((Runner.mk expected .determinate ⟨false⟩).replay c Hook.accepting s () w).record
        w).isSuccess = true ↔
      List.Forall₂ Outcome.Agrees (Cursor.candidate.outcomes (Cursor.ofList expected) w)
        (c.outcomes s w) := by
  rw [replay_eq_run]
  exact Bench.isSuccess_iff_agrees (k := .start (.initial expected .determinate) s ())
    (Cursor.tracks_ofList expected) w

theorem panic_replay_accepting :
    ((Runner.mk expected .determinate ⟨false⟩).replay c Hook.accepting s () w).panic = none :=
  Bench.panic_plain (.start (.initial expected .determinate) s ()) w

end Runner

end Lockstep
