import Lockstep.Replay

/-!
# The course of a replay

`Runner.replayFrom` builds a whole replay by recursion on its word.  This file opens it into
steps.  A `Checkpoint` is what the steps so far left behind, a `Bench` is what stays the same, and
`Bench.next?` is the one step from checkpoint to checkpoint that an accepted operation makes.

* **`Bench.steps_getElem?`**, **`Bench.views_getElem?`** — place `i` of a replay is what one
  operation comes to at the checkpoint that the operations before it reached.
* **`Bench.run_append`** — a replay in two parts.
* **`Bench.isSuccess_after`** — an accepted step in front changes nothing about the success.
-/

namespace Lockstep

universe u v w x

variable {σ : Type u} {α : Type v} {η : Type w}

/-- What the steps of a replay left behind at one point. -/
structure Checkpoint (σ : Type u) (α : Type v) (η : Type w) where
  index : Nat
  reference : Reference α
  previous : Option (Outcome α)
  candidate : σ
  hook : η

/-- What stays the same throughout a replay. -/
structure Bench (σ : Type u) (α : Type v) (η : Type w) where
  judge : Judge
  candidate : Candidate σ α
  hook : Hook η σ α

/-- Before the first step. -/
def Checkpoint.start (r : Reference α) (s : σ) (h : η) : Checkpoint σ α η :=
  ⟨0, r, none, s, h⟩

/-- Two replays, the one behind the other. -/
def Replay.andThen (r r' : Replay η α) : Replay η α :=
  ⟨r.steps ++ r'.steps, r.views ++ r'.views, r.warnings ++ r'.warnings, r'.hook, r'.panic⟩

/-- What stands on record for a step with the given verdict, once the hook has answered.  Nothing
    does if it panics. -/
def HookAnswer.record? (verdict : Verdict) : HookAnswer → Option Verdict
  | .accept => some verdict
  | .reject message => some (.diverge (.invariantFailed message))
  | .panic _ => none

namespace Bench

variable [BEq α] (b : Bench σ α η) (k : Checkpoint σ α η) (op : Operation)

/-! ## One step -/

/-- What is observed of an operation. -/
def outcome : Outcome α := (b.candidate.perform op k.candidate).1

/-- What the judge says about it. -/
def verdict : Verdict :=
  b.judge.judge (k.reference.predict op) (b.outcome k op) k.previous

/-- The reference behind an acceptable step. -/
def settled : Reference α := k.reference.settle op (b.outcome k op) (b.verdict k op)

/-- The call of the hook behind an acceptable step. -/
def called : HookAnswer × η :=
  b.hook k.hook (b.settled k op).view (b.candidate.perform op k.candidate).2

/-- The step with the given verdict. -/
def stepWith (v : Verdict) : Step α :=
  ⟨k.index, op, k.reference.predict op, b.outcome k op, v⟩

/-- The step on record, unless the hook panicked. -/
def step? : Option (Step α) :=
  if (b.verdict k op).isAcceptable then
    ((b.called k op).1.record? (b.verdict k op)).map (b.stepWith k op)
  else some (b.stepWith k op (b.verdict k op))

/-- What the hook is shown, if it is called. -/
def view? : Option (View α) :=
  if (b.verdict k op).isAcceptable then some (b.settled k op).view else none

/-- The checkpoint behind an accepted step. -/
def behind : Checkpoint σ α η :=
  ⟨k.index + 1, b.settled k op, some (b.outcome k op),
    (b.candidate.perform op k.candidate).2, (b.called k op).2⟩

/-- The next checkpoint, if judge and hook accept the step. -/
def next? : Option (Checkpoint σ α η) :=
  if (b.verdict k op).isAcceptable = true ∧ (b.called k op).1 = .accept then
    some (b.behind k op)
  else none

/-- The checkpoint behind all operations of a word, if every step is accepted. -/
def reach : Checkpoint σ α η → Word → Option (Checkpoint σ α η)
  | k, [] => some k
  | k, op :: w => (b.next? k op).bind fun k' => reach k' w

/-- The replay of a word from a checkpoint on. -/
def run (w : Word) : Replay η α :=
  Runner.replayFrom b.judge b.candidate b.hook k.index k.reference k.previous k.candidate
    k.hook w

end Bench

theorem Runner.replay_eq_run [BEq α] (runner : Runner α) (c : Candidate σ α) (hook : Hook η σ α)
    (s : σ) (h : η) (w : Word) :
    runner.replay c hook s h w =
      (Bench.mk runner.judge c hook).run
        (.start (.initial runner.expected runner.order) s h) w := rfl

namespace Bench

variable [BEq α] {b : Bench σ α η} {k k' : Checkpoint σ α η} {op : Operation} {w : Word}

theorem next?_eq_some :
    b.next? k op = some k' ↔
      (b.verdict k op).isAcceptable = true ∧ (b.called k op).1 = .accept ∧
        k' = b.behind k op := by
  rw [next?]
  by_cases h : (b.verdict k op).isAcceptable = true ∧ (b.called k op).1 = .accept
  · rw [if_pos h]
    constructor
    · intro hk
      exact ⟨h.1, h.2, (Option.some.inj hk).symm⟩
    · rintro ⟨-, -, rfl⟩
      rfl
  · rw [if_neg h]
    constructor
    · intro hk
      exact nomatch hk
    · rintro ⟨hv, ha, -⟩
      exact absurd ⟨hv, ha⟩ h

/-! ## Four ways through one step -/

/-- The positions of the warnings that one operation leads to. -/
def warnings (b : Bench σ α η) (k : Checkpoint σ α η) (op : Operation) : List Nat :=
  if b.verdict k op = .tolerated then [k.index] else []

/-- The judge finds a divergence. -/
theorem run_cons_of_diverge (hv : (b.verdict k op).isAcceptable = false) :
    b.run k (op :: w) = ⟨[b.stepWith k op (b.verdict k op)], [], [], k.hook, none⟩ := by
  have h : ¬ (b.verdict k op).isAcceptable = true := by rw [hv]; exact Bool.false_ne_true
  rw [run, Runner.replayFrom]
  exact if_neg h

/-- Judge and hook accept, and the replay goes on. -/
theorem run_cons_of_accept (hv : (b.verdict k op).isAcceptable = true)
    (ha : (b.called k op).1 = .accept) :
    b.run k (op :: w) =
      (b.run (b.behind k op) w).after (b.stepWith k op (b.verdict k op)) (b.settled k op).view
        (b.warnings k op) := by
  rw [run, Runner.replayFrom]
  refine (if_pos hv).trans ?_
  -- name the answer that the replay matches on
  change (match (b.called k op).1 with | .accept => _ | .reject _ => _ | .panic _ => _) = _
  rw [ha]
  rfl

/-- The hook rejects what the judge accepts. -/
theorem run_cons_of_reject {message : String} (hv : (b.verdict k op).isAcceptable = true)
    (ha : (b.called k op).1 = .reject message) :
    b.run k (op :: w) =
      ⟨[b.stepWith k op (.diverge (.invariantFailed message))], [(b.settled k op).view],
        b.warnings k op, (b.called k op).2, none⟩ := by
  rw [run, Runner.replayFrom]
  refine (if_pos hv).trans ?_
  change (match (b.called k op).1 with | .accept => _ | .reject _ => _ | .panic _ => _) = _
  rw [ha]
  rfl

/-- The hook panics. -/
theorem run_cons_of_panic {p : Panic} (hv : (b.verdict k op).isAcceptable = true)
    (ha : (b.called k op).1 = .panic p) :
    b.run k (op :: w) =
      ⟨[], [(b.settled k op).view], b.warnings k op, (b.called k op).2, some p⟩ := by
  rw [run, Runner.replayFrom]
  refine (if_pos hv).trans ?_
  change (match (b.called k op).1 with | .accept => _ | .reject _ => _ | .panic _ => _) = _
  rw [ha]
  rfl

/-! ## Place by place -/

/-- Judge and hook accept a step exactly if there is a next checkpoint. -/
theorem run_cons_of_next (h : b.next? k op = some k') :
    b.run k (op :: w) =
      (b.run k' w).after (b.stepWith k op (b.verdict k op)) (b.settled k op).view
        (b.warnings k op) := by
  obtain ⟨hv, ha, rfl⟩ := next?_eq_some.mp h
  exact run_cons_of_accept hv ha

theorem step?_of_next (h : b.next? k op = some k') :
    b.step? k op = some (b.stepWith k op (b.verdict k op)) := by
  obtain ⟨hv, ha, -⟩ := next?_eq_some.mp h
  rw [step?, if_pos hv, ha]
  rfl

theorem view?_of_next (h : b.next? k op = some k') :
    b.view? k op = some (b.settled k op).view :=
  if_pos (next?_eq_some.mp h).1

/-- Without a next checkpoint the replay ends with what this one operation comes to. -/
theorem run_cons_of_stop (h : b.next? k op = none) :
    (b.run k (op :: w)).steps = (b.step? k op).toList ∧
      (b.run k (op :: w)).views = (b.view? k op).toList := by
  cases hv : (b.verdict k op).isAcceptable with
  | false =>
      rw [run_cons_of_diverge hv]
      simp [step?, view?, hv]
  | true =>
      cases ha : (b.called k op).1 with
      | accept =>
          rw [next?_eq_some.mpr ⟨hv, ha, rfl⟩] at h
          exact nomatch h
      | reject message =>
          rw [run_cons_of_reject hv ha]
          simp [step?, view?, hv, ha, HookAnswer.record?]
      | panic p =>
          rw [run_cons_of_panic hv ha]
          simp [step?, view?, hv, ha, HookAnswer.record?]

theorem reach_append (u v : Word) :
    b.reach k (u ++ v) = (b.reach k u).bind fun k' => b.reach k' v := by
  induction u generalizing k with
  | nil => rfl
  | cons op u ih =>
      rw [List.cons_append, reach, reach]
      cases b.next? k op with
      | none => rfl
      | some k' => exact ih

/-- One more accepted step, at the end of what was reached. -/
theorem reach_take_succ {i : Nat} (hop : w[i]? = some op) :
    b.reach k (w.take (i + 1)) = (b.reach k (w.take i)).bind fun k' => b.next? k' op := by
  rw [List.take_add_one, hop, Option.toList_some, reach_append]
  congr 1
  funext k'
  rw [reach]
  cases b.next? k' op <;> rfl

/-- Whatever is reached behind one more operation was reached by an accepted step. -/
theorem exists_of_reach_take_succ {i : Nat} (hop : w[i]? = some op)
    (h : b.reach k (w.take (i + 1)) = some k') :
    ∃ k₁, b.reach k (w.take i) = some k₁ ∧ b.next? k₁ op = some k' := by
  rw [reach_take_succ hop] at h
  exact Option.bind_eq_some_iff.mp h

theorem reach_concat_eq_some {u : Word} :
    b.reach k (u ++ [op]) = some k' ↔ ∃ k₁, b.reach k u = some k₁ ∧ b.next? k₁ op = some k' := by
  rw [reach_append, Option.bind_eq_some_iff]
  refine exists_congr fun k₁ => and_congr_right fun _ => ?_
  rw [reach]
  cases b.next? k₁ op <;> rfl

/-- A list that grows by one entry with each accepted step, and by at most one with the last,
    has at place `i` what the operation there adds at the checkpoint reached. -/
theorem getElem?_of_growth {β : Type x} {f : Checkpoint σ α η → Word → List β}
    {g : Checkpoint σ α η → Operation → Option β} (hnil : ∀ k, f k [] = [])
    (hgo : ∀ k op w k', b.next? k op = some k' → ∃ y, g k op = some y ∧ f k (op :: w) = y :: f k' w)
    (hstop : ∀ k op w, b.next? k op = none → f k (op :: w) = (g k op).toList) :
    ∀ (w : Word) (k : Checkpoint σ α η) (i : Nat),
      (f k w)[i]? = (b.reach k (w.take i)).bind fun k' => w[i]?.bind (g k') := by
  -- induction on the word: place `i + 1` here is place `i` from the next checkpoint
  intro w
  induction w with
  | nil =>
      intro k i
      simp [hnil, reach]
  | cons op w ih =>
      intro k i
      cases hnext : b.next? k op with
      | some k' =>
          obtain ⟨y, hy, hf⟩ := hgo k op w k' hnext
          rw [hf]
          cases i with
          | zero => simp [reach, hy]
          | succ i =>
              rw [List.take_succ_cons, reach, hnext]
              exact ih k' i
      | none =>
          rw [hstop k op w hnext]
          cases i with
          | zero => cases hy : g k op <;> simp [reach, hy]
          | succ i =>
              rw [List.take_succ_cons, reach, hnext]
              cases g k op <;> rfl

/-- **The step at place `i`** is what its operation comes to at the checkpoint reached there. -/
theorem steps_getElem? (k : Checkpoint σ α η) (w : Word) (i : Nat) :
    (b.run k w).steps[i]? =
      (b.reach k (w.take i)).bind fun k' => w[i]?.bind (b.step? k') := by
  refine getElem?_of_growth (f := fun k w => (b.run k w).steps) (fun _ => rfl) ?_ ?_ w k i
  · intro k op w k' h
    exact ⟨_, step?_of_next h, by rw [run_cons_of_next h]; rfl⟩
  · intro k op w h
    exact (run_cons_of_stop h).1

/-- **The view at place `i`** is what the hook is shown at the checkpoint reached there. -/
theorem views_getElem? (k : Checkpoint σ α η) (w : Word) (i : Nat) :
    (b.run k w).views[i]? =
      (b.reach k (w.take i)).bind fun k' => w[i]?.bind (b.view? k') := by
  refine getElem?_of_growth (f := fun k w => (b.run k w).views) (fun _ => rfl) ?_ ?_ w k i
  · intro k op w k' h
    exact ⟨_, view?_of_next h, by rw [run_cons_of_next h]; rfl⟩
  · intro k op w h
    exact (run_cons_of_stop h).2

/-- A step on record was made at a checkpoint that the operations before it reached. -/
theorem exists_of_steps_getElem? {i : Nat} {step : Step α}
    (h : (b.run k w).steps[i]? = some step) :
    ∃ k' op, b.reach k (w.take i) = some k' ∧ w[i]? = some op ∧ b.step? k' op = some step := by
  rw [steps_getElem?] at h
  obtain ⟨k', hreach, hbind⟩ := Option.bind_eq_some_iff.mp h
  obtain ⟨op, hop, hstep⟩ := Option.bind_eq_some_iff.mp hbind
  exact ⟨k', op, hreach, hop, hstep⟩

theorem steps_getElem?_of_reach {i : Nat} (hreach : b.reach k (w.take i) = some k')
    (hop : w[i]? = some op) : (b.run k w).steps[i]? = b.step? k' op := by
  rw [steps_getElem?, hreach, hop]
  rfl

theorem views_getElem?_of_reach {i : Nat} (hreach : b.reach k (w.take i) = some k')
    (hop : w[i]? = some op) : (b.run k w).views[i]? = b.view? k' op := by
  rw [views_getElem?, hreach, hop]
  rfl

/-- The verdict on record is the judge's, or the rejection by the hook of what the judge
    accepted. -/
theorem step?_eq_some {step : Step α} (h : b.step? k op = some step) :
    step = b.stepWith k op step.verdict ∧
      (step.verdict = b.verdict k op ∨
        ∃ message, (b.verdict k op).isAcceptable = true ∧
          (b.called k op).1 = .reject message ∧
          step.verdict = .diverge (.invariantFailed message)) := by
  rw [step?] at h
  cases hv : (b.verdict k op).isAcceptable with
  | false =>
      rw [hv, if_neg Bool.false_ne_true] at h
      rw [← Option.some.inj h]
      exact ⟨rfl, Or.inl rfl⟩
  | true =>
      rw [hv, if_pos rfl] at h
      cases ha : (b.called k op).1 with
      | accept =>
          rw [ha] at h
          rw [← Option.some.inj h]
          exact ⟨rfl, Or.inl rfl⟩
      | reject message =>
          rw [ha] at h
          rw [← Option.some.inj h]
          exact ⟨rfl, Or.inr ⟨message, rfl, rfl, rfl⟩⟩
      | panic p =>
          rw [ha] at h
          exact nomatch h

/-- Whatever is reached was reached through every place before it. -/
theorem exists_reach_take {m n : Nat} (hmn : m ≤ n) (h : b.reach k (w.take n) = some k') :
    ∃ k₁, b.reach k (w.take m) = some k₁ ∧ b.reach k₁ ((w.take n).drop m) = some k' := by
  have hsplit := List.take_append_drop m (w.take n)
  rw [List.take_take, Nat.min_eq_left hmn] at hsplit
  rw [← hsplit, reach_append] at h
  exact Option.bind_eq_some_iff.mp h

/-- The candidate at a checkpoint has made the calls that led there. -/
theorem candidate_of_reach {u : Word} (h : b.reach k u = some k') :
    k'.candidate = b.candidate.stateAfter k.candidate u := by
  induction u generalizing k with
  | nil => rw [← Option.some.inj h, Candidate.stateAfter_nil]
  | cons op u ih =>
      obtain ⟨k₁, hnext, hrest⟩ := Option.bind_eq_some_iff.mp h
      obtain ⟨-, -, rfl⟩ := next?_eq_some.mp hnext
      exact ih hrest

/-- Behind one more operation it has made the calls up to that one. -/
theorem candidate_behind_of_reach {i : Nat} (hreach : b.reach k (w.take i) = some k')
    (hop : w[i]? = some op) :
    (b.behind k' op).candidate = b.candidate.stateAfter k.candidate (w.take (i + 1)) := by
  rw [List.take_add_one, hop, Option.toList_some, Candidate.stateAfter, List.foldl_append]
  show (b.candidate.perform op k'.candidate).2 = _
  rw [candidate_of_reach hreach]
  rfl

/-- The outcomes of a word, split at the operation behind what was reached. -/
theorem outcomes_of_reach {i : Nat} (hreach : b.reach k (w.take i) = some k')
    (hop : w[i]? = some op) :
    b.candidate.outcomes k.candidate w =
      b.candidate.outcomes k.candidate (w.take i) ++ b.outcome k' op ::
        b.candidate.outcomes (b.candidate.perform op k'.candidate).2 (w.drop (i + 1)) := by
  obtain ⟨hlt, hget⟩ := List.getElem?_eq_some_iff.mp hop
  have hsplit : w = w.take i ++ op :: w.drop (i + 1) := by
    rw [← hget, ← List.drop_eq_getElem_cons hlt, List.take_append_drop]
  calc b.candidate.outcomes k.candidate w
      = b.candidate.outcomes k.candidate (w.take i ++ op :: w.drop (i + 1)) :=
        congrArg (b.candidate.outcomes k.candidate) hsplit
    _ = _ := by
        rw [Candidate.outcomes_append, Candidate.outcomes_cons, ← candidate_of_reach hreach]
        rfl

/-- The operation behind what was reached comes to the outcome that the candidate has there. -/
theorem getElem?_outcomes_of_reach {i : Nat} (hreach : b.reach k (w.take i) = some k')
    (hop : w[i]? = some op) : (b.candidate.outcomes k.candidate w)[i]? = some (b.outcome k' op) := by
  have hlen : (b.candidate.outcomes k.candidate (w.take i)).length = i := by
    rw [Candidate.length_outcomes, List.length_take]
    exact Nat.min_eq_left (Nat.le_of_lt (List.getElem?_eq_some_iff.mp hop).1)
  rw [outcomes_of_reach hreach hop, List.getElem?_append_right (Nat.le_of_eq hlen), hlen,
    Nat.sub_self]
  rfl

/-- **Two parts.**  Behind what was reached, a replay goes on as one from there would. -/
theorem run_append {u : Word} (h : b.reach k u = some k') (v : Word) :
    b.run k (u ++ v) = (b.run k u).andThen (b.run k' v) := by
  induction u generalizing k with
  | nil =>
      rw [← Option.some.inj h]
      rfl
  | cons op u ih =>
      obtain ⟨k₁, hnext, hrest⟩ := Option.bind_eq_some_iff.mp h
      rw [List.cons_append, run_cons_of_next hnext, run_cons_of_next hnext, ih hrest]
      simp [Replay.after, Replay.andThen]

/-! ## Success -/

omit [BEq α] in
/-- An accepted step in front changes nothing about the step that diverged. -/
theorem failedStep?_after {r : Replay η α} {step : Step α} (view : View α) (ws : List Nat)
    (u v : Word) (h : step.verdict.isAcceptable = true) :
    ((r.after step view ws).record u).failedStep? = (r.record v).failedStep? := by
  cases hlast : r.steps.getLast? with
  | none =>
      have hnil : r.steps = [] := List.getLast?_eq_none_iff.mp hlast
      simp [Record.failedStep?, Replay.record, Replay.after, hnil, h]
  | some last =>
      simp [Record.failedStep?, Replay.record, Replay.after, List.getLast?_cons, hlast]

omit [BEq α] in
/-- An accepted step in front changes nothing about the success of a replay. -/
theorem isSuccess_after {r : Replay η α} {step : Step α} (view : View α) (ws : List Nat)
    (u v : Word) (h : step.verdict.isAcceptable = true) :
    ((r.after step view ws).record u).isSuccess = (r.record v).isSuccess := by
  rw [Record.isSuccess, failedStep?_after view ws u v h, Record.isSuccess]

/-- A single step that is not acceptable fails a replay. -/
theorem isSuccess_of_diverge (hv : (b.verdict k op).isAcceptable = false) :
    ((b.run k (op :: w)).record (op :: w)).isSuccess = false := by
  rw [run_cons_of_diverge hv]
  simp [Record.isSuccess, Record.failedStep?, Replay.record, stepWith, hv]

end Bench

end Lockstep
