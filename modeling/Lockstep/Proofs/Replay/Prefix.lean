import Lockstep.Candidate.Cursor
import Lockstep.Proofs.Replay.Extent

/-!
# Replays of initial segments

A step depends on the steps in front of it and on nothing else.  So the replay of an initial
segment of a word is an initial segment of the replay of the word, wherever the cut is.

Where the replay does not get through the segment, more is true: it never learns of what would
have come behind, and the two replays are the same in everything they leave behind
(`Bench.run_append_of_stop`).  The executed prefix of a failed record is such a segment, which is
why a report can be reproduced from it alone.

* **`Bench.steps_take`**, **`Bench.panic_take`** — a cut at any place.
* **`Runner.replay_initial_segments`** — whole replays, and the replay of an executed prefix.
-/

namespace Lockstep

universe u v w

variable {σ : Type u} {α : Type v} {η : Type w}

namespace Bench

variable [BEq α] {b : Bench σ α η} {k : Checkpoint σ α η} {op : Operation} {u w : Word}

/-! ## Where a replay stops -/

/-- A replay that stops at its first operation does not depend on the others. -/
theorem run_cons_congr_of_stop (h : b.next? k op = none) (w w' : Word) :
    b.run k (op :: w) = b.run k (op :: w') := by
  cases hv : (b.verdict k op).isAcceptable with
  | false => rw [run_cons_of_diverge hv, run_cons_of_diverge hv]
  | true =>
      cases ha : (b.called k op).1 with
      | accept =>
          rw [next?_eq_some.mpr ⟨hv, ha, rfl⟩] at h
          exact nomatch h
      | reject message => rw [run_cons_of_reject hv ha, run_cons_of_reject hv ha]
      | panic p => rw [run_cons_of_panic hv ha, run_cons_of_panic hv ha]

/-- **A replay that does not get through** an initial segment is the replay of this segment. -/
theorem run_append_of_stop (h : b.reach k u = none) (v : Word) :
    b.run k (u ++ v) = b.run k u := by
  induction u generalizing k with
  | nil => exact nomatch h
  | cons op u ih =>
      rw [List.cons_append]
      cases hnext : b.next? k op with
      | none => exact run_cons_congr_of_stop hnext _ _
      | some k' =>
          rw [reach, hnext] at h
          rw [run_cons_of_next hnext, run_cons_of_next hnext, ih h]

/-! ## A cut at any place -/

/-- **The steps of an initial segment** are the first ones of the word. -/
theorem steps_take (b : Bench σ α η) (k : Checkpoint σ α η) (w : Word) (m : Nat) :
    (b.run k (w.take m)).steps = (b.run k w).steps.take m := by
  apply List.ext_getElem?
  intro i
  rw [steps_getElem?, List.getElem?_take, List.getElem?_take]
  by_cases hlt : i < m
  · rw [if_pos hlt, if_pos hlt, steps_getElem?, List.take_take, Nat.min_eq_left (Nat.le_of_lt hlt)]
  · rw [if_neg hlt, if_neg hlt]
    cases b.reach k ((w.take m).take i) <;> rfl

/-- An initial segment is cut short by no panic that does not cut the word short. -/
theorem panic_take (h : (b.run k w).panic = none) (m : Nat) :
    (b.run k (w.take m)).panic = none := by
  cases hreach : b.reach k (w.take m) with
  | some k' => exact ((passes_iff_reach w).mpr ⟨k', hreach⟩).unbroken
  | none =>
      rw [← run_append_of_stop hreach (w.drop m), List.take_append_drop]
      exact h

/-- **The executed prefix** of a failed replay leaves the same behind as the whole word. -/
theorem run_executed (h : ((b.run k w).record w).isSuccess = false) :
    b.run k ((b.run k w).record w).executed = b.run k w := by
  obtain ⟨i, k', op, hlen, hreach, hop, hnext⟩ := exists_stop h
  have hexecuted : ((b.run k w).record w).executed = w.take (i + 1) := congrArg w.take hlen
  have hstop : b.reach k (w.take (i + 1)) = none := by
    rw [reach_take_succ hop, hreach]
    exact hnext
  rw [hexecuted, ← run_append_of_stop hstop (w.drop (i + 1)), List.take_append_drop]

end Bench

/-- **Replays are stable under cuts.**  The steps on record for the first `m` operations of a word
    are the first `m` steps on record for the word, or all of them if the replay stopped earlier;
    and no panic of the hook keeps them off the record that does not do so for the word.  In
    particular the executed prefix of a record that failed reproduces it: on a fresh candidate it
    leaves everything behind that the word did, so the steps, the failed step and the violation are
    the same. -/
theorem Runner.replay_initial_segments [BEq α] (runner : Runner α) (c : Candidate σ α)
    (hook : Hook η σ α) (s : σ) (h : η) (w : Word) :
    let r := runner.replay c hook s h w
    let record := r.record w
    let again := runner.replay c hook s h record.executed
    (∀ m, (runner.replay c hook s h (w.take m)).steps = r.steps.take m ∧
        (r.panic = none → (runner.replay c hook s h (w.take m)).panic = none)) ∧
      (record.isSuccess = false →
        again = r ∧ (again.record record.executed).isSuccess = false ∧
          (again.record record.executed).steps = record.steps ∧
          (again.record record.executed).failedStep? = record.failedStep? ∧
          (again.record record.executed).violation? = record.violation?) := by
  intro r record again
  let b : Bench σ α η := ⟨runner.judge, c, hook⟩
  let k : Checkpoint σ α η := .start (.initial runner.expected runner.order) s h
  constructor
  · intro m
    refine ⟨b.steps_take k w m, ?_⟩
    intro hpanic
    exact Bench.panic_take (b := b) (k := k) hpanic m
  · intro hfailed
    have hsame : again = r := Bench.run_executed (b := b) (k := k) hfailed
    rw [hsame]
    -- the two records differ in their words, and none of what is compared looks at the word
    exact ⟨rfl, hfailed, rfl, rfl, rfl⟩

/-- A cursor whose second element is not the one expected: the four operations stop at the third,
    and the three that were executed do so again. -/
theorem Runner.replay_initial_segments_diverged :
    let runner : Runner Nat := ⟨[7, 8], .determinate, {}⟩
    let replay := runner.replay Cursor.candidate Hook.accepting (.ofList [7, 9]) ()
    let w : Word := [.produceNext, .hasMore, .produceNext, .removeLast]
    let record := (replay w).record w
    record.isSuccess = false ∧ record.executed = [.produceNext, .hasMore, .produceNext] ∧
      (replay (w.take 2)).steps = (replay w).steps.take 2 ∧
      ((replay record.executed).record record.executed).violation? = record.violation? := by
  intro runner replay w record
  have hfailed : record.isSuccess = false := by decide
  obtain ⟨hcut, hagain⟩ :=
    runner.replay_initial_segments Cursor.candidate Hook.accepting (.ofList [7, 9]) () w
  obtain ⟨-, -, -, -, hviolation⟩ := hagain hfailed
  exact ⟨hfailed, by decide, (hcut 2).1, hviolation⟩

end Lockstep
