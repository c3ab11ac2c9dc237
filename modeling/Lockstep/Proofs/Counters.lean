import Lockstep.Proofs.Accounts
import Lockstep.Proofs.Replay.Defect
import Lockstep.Proofs.Space.Size

/-!
# Counters in range

A test counts words, steps and tolerated steps as it goes, and it counts the word that diverges with
the others.  None of these counts can leave the range of a small machine word, because accepted
settings keep the words short: there are at most `3 ^ 16` of them, each has at most as many steps on
record as it has operations, and at most one of these is tolerated.

The heart is `Tally.Counts`, what a tally can be after a number of words.  One record keeps it
(`Tally.Counts.add`), so it holds in front of every word of the space and behind it, whatever
candidate, factory and hook do.

* **`Bench.toleratedSteps_le_one`** — what one replay leaves to count.
* **`Tester.inRange_of_foldlM`** — the counters at every point of an exploration.
* **`Tester.sizes_and_counters`** — the size of any space, and the counters of any test.
-/

namespace Lockstep

universe u v w x

/-! ## One record -/

/-- What passes a test at one place only is counted at most once. -/
private theorem countP_le_one {β : Type u} {p : β → Bool} {xs : List β}
    (h : ∀ (i j : Nat) (x y : β), xs[i]? = some x → p x = true → xs[j]? = some y → p y = true →
      i = j) :
    xs.countP p ≤ 1 := by
  induction xs with
  | nil => exact Nat.zero_le 1
  | cons x xs ih =>
      rw [List.countP_cons]
      cases hx : p x with
      | false =>
          have hrest := ih fun i j x y hi hpx hj hpy =>
            Nat.succ.inj (h (i + 1) (j + 1) x y hi hpx hj hpy)
          simpa using hrest
      | true =>
          -- the head is the place, so nothing behind it passes
          have hnone : xs.countP p = 0 := by
            rw [List.countP_eq_zero]
            intro y hy hpy
            obtain ⟨j, hj⟩ := List.mem_iff_getElem?.mp hy
            exact nomatch h 0 (j + 1) x y rfl hx hj hpy
          rw [hnone, if_pos rfl]

/-- **At most one tolerated step** stands on record. -/
theorem Bench.toleratedSteps_le_one {σ : Type u} {α : Type v} {η : Type w} [BEq α]
    (b : Bench σ α η) (first : Reference α) (s : σ) (h : η) (word : Word) :
    ((b.run (.start first s h) word).record word).toleratedSteps ≤ 1 := by
  refine countP_le_one fun i j step other hstep htol hother htol' => ?_
  obtain ⟨k, op, hreach, hop, hmade⟩ := exists_of_steps_getElem? hstep
  obtain ⟨k', op', hreach', hop', hmade'⟩ := exists_of_steps_getElem? hother
  exact eq_of_tolerated hreach' hop' (verdict_of_step? hmade' (of_decide_eq_true htol'))
    hreach hop (verdict_of_step? hmade (of_decide_eq_true htol))

variable {φ : Type u} {η : Type v} {α : Type w} {σ : Type x}

/-! ## Tallies -/

/-- **What a tally can be** after `n` words of `steps` operations. -/
structure Tally.Counts (steps n : Nat) (t : Tally) : Prop where
  words : t.words = n
  steps : t.steps ≤ n * steps
  tolerated : t.tolerated ≤ n

theorem Tally.counts_zero (steps : Nat) : Counts steps 0 {} :=
  ⟨rfl, Nat.zero_le _, Nat.le_refl 0⟩

/-- One more record. -/
theorem Tally.Counts.add {steps n : Nat} {t : Tally} {record : Record α}
    (h : t.Counts steps n) (hsteps : record.steps.length ≤ steps)
    (htolerated : record.toleratedSteps ≤ 1) : (t.add record).Counts steps (n + 1) where
  words := congrArg (· + 1) h.words
  steps := by
    rw [Nat.succ_mul]
    exact Nat.add_le_add h.steps hsteps
  tolerated := Nat.add_le_add h.tolerated htolerated

/-- The counters of a tally are in the range that accepted settings leave them. -/
structure Tally.InRange (t : Tally) : Prop where
  words : t.words ≤ 3 ^ 16
  steps : t.steps ≤ 16 * 3 ^ 16
  tolerated : t.tolerated ≤ 3 ^ 16

theorem Tally.Counts.inRange {steps n : Nat} {t : Tally} (h : t.Counts steps n)
    (hsteps : steps ≤ 16) (hn : n ≤ 3 ^ 16) : t.InRange where
  words := h.words ▸ hn
  steps := by
    rw [Nat.mul_comm 16]
    exact Nat.le_trans h.steps (Nat.mul_le_mul hn hsteps)
  tolerated := Nat.le_trans h.tolerated hn

namespace Tester

variable [BEq α] {t : Tester α} {c : Candidate σ α} {make : Factory φ σ} {hook : Hook η σ α}
  {session session' : Session φ η α} {tally tally' : Tally} {word : Word} {ws : List Word}

/-- **One word**, whether it passes or not. -/
theorem counts_of_replay {n : Nat} {record : Record α} (h : tally.Counts word.length n)
    (hreplay : session.replay t.runner c make hook word = .ok (record, session')) :
    (tally.add record).Counts word.length (n + 1) := by
  obtain ⟨s, f, -, -, rfl, -⟩ := Session.replay_eq_ok hreplay
  rw [t.runner.replay_eq_run]
  exact h.add (Bench.length_steps_le _ _ word) (Bench.toleratedSteps_le_one _ _ _ _ word)

/-- A row of words that pass. -/
theorem counts_of_foldlM {steps n : Nat} (hlen : ∀ word ∈ ws, word.length = steps)
    (h : tally.Counts steps n)
    (hfold : ws.foldlM (t.visit c make hook) (tally, session) = .ok (tally', session')) :
    tally'.Counts steps (n + ws.length) := by
  induction ws generalizing tally session n with
  | nil =>
      obtain ⟨rfl, -⟩ := Prod.mk.inj (Except.ok.inj hfold)
      exact h
  | cons word ws ih =>
      obtain ⟨rfl, hrest⟩ := List.forall_mem_cons.mp hlen
      rw [List.foldlM_cons] at hfold
      cases hvisit : t.visit c make hook (tally, session) word with
      | error stop =>
          rw [hvisit] at hfold
          exact nomatch hfold
      | ok state =>
          rw [hvisit] at hfold
          obtain ⟨tally₁, session₁⟩ := state
          obtain ⟨record, hreplay, -, rfl⟩ := visit_eq_ok hvisit
          rw [List.length_cons, Nat.add_comm ws.length, ← Nat.add_assoc]
          exact ih hrest (counts_of_replay h hreplay) hfold

/-- **The counters of an exploration** are in range in front of each word and behind it, whether it
    passes or diverges. -/
theorem inRange_of_foldlM (hsteps : t.settings.steps ≤ Settings.maxSteps) {rest : List Word}
    (hwords : t.space.words = ws ++ rest) {f : φ} {h : η}
    (hfold : ws.foldlM (t.visit c make hook) ({}, t.opening f h) = .ok (tally, session)) :
    tally.InRange ∧
      ∀ word record session', rest.head? = some word →
        session.replay t.runner c make hook word = .ok (record, session') →
        (tally.add record).InRange := by
  have hlen : ∀ word ∈ t.space.words, word.length = t.settings.steps :=
    fun word hmem => (Space.mem_words.mp hmem).length
  have hbound := length_words_le hsteps
  rw [hwords, List.length_append] at hbound
  have hcounts := counts_of_foldlM
    (fun word hmem => hlen word (hwords ▸ List.mem_append_left rest hmem))
    (Tally.counts_zero t.settings.steps) hfold
  rw [Nat.zero_add] at hcounts
  refine ⟨hcounts.inRange hsteps (by omega), ?_⟩
  intro word record session' hhead hreplay
  obtain ⟨others, rfl⟩ := List.head?_eq_some_iff.mp hhead
  have hword : word.length = t.settings.steps := hlen word (by rw [hwords]; simp)
  rw [← hword] at hcounts
  rw [List.length_cons] at hbound
  exact (counts_of_replay hcounts hreplay).inRange (by rw [hword]; exact hsteps) (by omega)

/-- **The size of any space, and the counters of any test.**  The size is a power of two where no
    removal can stand, a sum of binomial coefficients where removals wait for nothing, and a
    Fibonacci number where they wait for productions that cannot fail; always it lies between the
    powers of two and of three.  A counter of 64 bits comes to it whenever it has room.  With
    accepted settings the counters of a test stay far below what 32 bits hold, in front of each word
    and behind it, and so do those that it reports. -/
theorem sizes_and_counters (space : Space) (t : Tester α) (c : Candidate σ α)
    (make : Factory φ σ) (hook : Hook η σ α) (f : φ) (h : η) :
    ((space.features.contains .modifiable = false → space.words.length = 2 ^ space.steps) ∧
      (space.illegalRemovals = false → space.elements = 0 →
        space.words.length = 2 ^ space.steps) ∧
      (space.features.contains .modifiable = true → space.illegalRemovals = true →
        (∀ cap, space.removalCap = some cap →
          space.words.length =
            ∑ k ∈ Finset.range (min cap space.steps + 1),
              space.steps.choose k * 2 ^ (space.steps - k)) ∧
        (space.removalCap = none → space.words.length = 3 ^ space.steps)) ∧
      (space.features.contains .modifiable = true → space.illegalRemovals = false →
        space.removalCap = none → 1 ≤ space.elements → space.steps ≤ space.elements + 2 →
        space.words.length = Nat.fib (2 * space.steps + 1)) ∧
      2 ^ space.steps ≤ space.words.length ∧ space.words.length ≤ 3 ^ space.steps ∧
      ∀ n, space.count = .ok n ↔ space.words.length = n ∧ n < 2 ^ 64) ∧
    (t.settings.validate = .ok () →
      (∀ ws rest tally session, t.space.words = ws ++ rest →
        ws.foldlM (t.visit c make hook) ({}, t.opening f h) = .ok (tally, session) →
        tally.InRange ∧
          ∀ word record session', rest.head? = some word →
            session.replay t.runner c make hook word = .ok (record, session') →
            (tally.add record).InRange) ∧
      (∀ run, t.testWith c make hook f h = .ok run →
        (∀ summary, run.result = .ok summary →
          summary.words ≤ 3 ^ 16 ∧ summary.steps ≤ 16 * 3 ^ 16 ∧ summary.tolerated ≤ 3 ^ 16) ∧
        ∀ report, run.result = .error (.diverged report) → report.index < 3 ^ 16) ∧
      16 * 3 ^ 16 < 2 ^ 32) := by
  constructor
  · refine ⟨Space.length_words_of_readOnly, Space.length_words_of_no_elements, ?_,
      Space.length_words_eq_fib, space.two_pow_le_length_words, space.length_words_le_three_pow,
      fun n => Space.count_eq_ok⟩
    intro hmodifiable hillegal
    exact ⟨fun cap => Space.length_words_eq_sum_choose hmodifiable hillegal,
      Space.length_words_eq_three_pow hmodifiable hillegal⟩
  · intro hvalid
    have hsteps : t.settings.steps ≤ Settings.maxSteps := (Settings.validate_eq_ok.mp hvalid).1
    refine ⟨?_, ?_, by decide⟩
    · intro ws rest tally session hwords hfold
      exact inRange_of_foldlM hsteps hwords hfold
    · intro run hrun
      constructor
      · intro summary hsummary
        obtain ⟨-, tally, last, hfold, rfl, -⟩ := exists_foldlM_of_summary hrun hsummary
        have hrange := (inRange_of_foldlM hsteps (List.append_nil _).symm hfold).1
        exact ⟨hrange.words, hrange.steps, hrange.tolerated⟩
      · intro report hreport
        have hword := (divergedWith_of_testWith hrun hreport).word
        exact Nat.lt_of_lt_of_le (List.getElem?_eq_some_iff.mp hword).1 (length_words_le hsteps)

end Tester

/-- No machine counts words of `2 ^ 63` operations, although there are as many as the power of two
    says: no pass over them begins. -/
theorem Space.no_count_at_memoryLimit :
    let space : Space := { steps := 9223372036854775808, features := .readOnly, elements := 1 }
    space.features.contains .modifiable = false ∧ ∀ n, space.count ≠ .ok n := by
  refine ⟨rfl, ?_⟩
  intro n h
  have hpanic : (⟨9223372036854775808, .readOnly, 1, false, none⟩ : Space).count =
      .error .capacityOverflow := foldUntil_overflow (by decide) id tick 0
  exact nomatch hpanic.symm.trans h

end Lockstep
