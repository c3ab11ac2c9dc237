import Lockstep.Proofs.Replay.Serving
import Lockstep.Proofs.Space.Front
import Lockstep.Proofs.Trial
import Mathlib.Data.Nat.Find
import Mathlib.Order.Bounds.Basic

/-!
# When wrong contents are found

A cursor over other elements than the expected ones is right about everything until it has
returned all that is **acceptable** of its list, the longest prefix that the order contract lets
pass.  So the threshold is the length `k` of that prefix.  A word of at most `k` operations never
asks for more.  A word of more than `k` operations may, and the first word of every space does: it
is all productions, and those behind the first `k` ask for what is not acceptable.

* **`Tester.exists_run_of_le`** — up to the threshold a test passes, and behind it if the lists end
  there together.
* **`Tester.exists_run_of_lt`** — behind the threshold the first word is reported.
* **`Tester.detects_contents`** — the exact threshold, with the violation that the two lengths tell.
-/

namespace Lockstep

universe u v

/-- What is wrong behind the first `k` elements, if these are all that is acceptable: `n` were
    expected, and `m` are there. -/
inductive Violation.EndsAt (n m k : Nat) : Violation → Prop where
  /-- Another element was expected. -/
  | valueMismatch (hn : k < n) (hm : k < m) : EndsAt n m k .valueMismatch
  /-- Nothing was expected any more. -/
  | missingFault (hn : k = n) (hm : k < m) : EndsAt n m k (.missingFault .exhausted)
  /-- Nothing is there any more. -/
  | unexpectedFault (hn : k < n) (hm : k = m) : EndsAt n m k (.unexpectedFault .exhausted)

/-- Of the initial segments that are accepted one is the longest. -/
theorem Order.exists_isGreatest_accepts {α : Type u} [BEq α] (order : Order)
    (expected items : List α) :
    ∃ k, IsGreatest {k | k ≤ items.length ∧ order.Accepts expected (items.take k)} k := by
  classical
  let P := fun k => order.Accepts expected (items.take k)
  have hzero : P 0 := .nil order expected
  refine ⟨Nat.findGreatest P items.length, ?_, ?_⟩
  · exact ⟨Nat.findGreatest_le _, Nat.findGreatest_spec (Nat.zero_le _) hzero⟩
  · rintro k ⟨hk, haccepts⟩
    exact Nat.le_findGreatest hk haccepts

namespace Tester

variable {φ : Type u} {α : Type v} [BEq α] {t : Tester α} {items : List α} {k : Nat}
  {make : Factory φ (Cursor α)}

section

variable (hlaw : t.settings.order = .indeterminate → LawfulBEq α) (hk : k ≤ items.length)
  (haccepts : t.settings.order.Accepts t.expected (items.take k))

include hlaw hk haccepts

/-- **Up to the threshold** a word is got through, and any word is if the lists end there
    together. -/
theorem exists_reach_cursor {word : Word}
    (hword : word.length ≤ k ∨ k = t.expected.length ∧ k = items.length) :
    ∃ point, (t.bench Cursor.candidate).reach (t.origin (.ofList items)) word = some point := by
  refine exists_reach_of_acceptable ?_
  intro i op point hop hreach
  have hi : i < word.length := (List.getElem?_eq_some_iff.mp hop).1
  -- in front of place `i` stand at most `i` productions
  have hcount : (word.take i).count .produceNext ≤ i :=
    Nat.le_trans List.count_le_length (List.length_take_le _ _)
  have hagree : (t.bench Cursor.candidate).verdict point op = .agree := by
    refine Bench.verdict_of_served (Cursor.serves items) hreach hlaw hk haccepts ?_ ?_
    · exact hword.imp_left fun hle => by omega
    · rw [Bench.outcome, Bench.candidate_of_reach hreach]
      exact Cursor.perform_stateAfter items _ op
  rw [hagree]
  rfl

/-- **At the threshold** the next production is rejected, unless the lists end there together. -/
theorem exists_rejects_cursor
    (hlonger : t.settings.order.Accepts t.expected (items.take (k + 1)) → items.length ≤ k)
    (hends : ¬ (k = t.expected.length ∧ k = items.length)) :
    ∃ violation, Violation.EndsAt t.expected.length items.length k violation ∧
      t.Rejects Cursor.candidate (.ofList items) (Word.productions k) .produceNext violation := by
  have hserves := Cursor.serves items
  have hcount := Word.count_productions k
  obtain ⟨point, hreach⟩ := exists_reach_cursor hlaw hk haccepts
    (Or.inl (Nat.le_of_eq (Word.length_productions k)))
  have hlen := haccepts.length_le
  rw [List.length_take, Nat.min_eq_left hk] at hlen
  rcases Nat.lt_or_eq_of_le hlen with hn | hn
  · rcases Nat.lt_or_eq_of_le hk with hm | hm
    · refine ⟨_, .valueMismatch hn hm, point, hreach, ?_⟩
      have hadmits := Bench.admits_iff_accepts hserves hreach hlaw (by omega)
        (by rw [hcount]; exact haccepts)
      rw [Bench.verdict_of_lt hserves hreach (by omega) (by omega), if_neg]
      rw [hadmits, hcount]
      intro h
      exact Nat.not_le.mpr hm (hlonger h)
    · refine ⟨_, .unexpectedFault hn hm, point, hreach, ?_⟩
      exact Bench.verdict_of_fewer hserves hreach (by omega) (by omega)
  · have hm : k < items.length := by omega
    refine ⟨_, .missingFault hn hm, point, hreach, ?_⟩
    exact Bench.verdict_of_more hserves hreach (by omega) (by omega)

theorem exists_run_of_le (hvalid : t.settings.validate = .ok ())
    (hmake : ∀ f, (make f).1 = .ok (.ofList items))
    (hsteps : t.settings.steps ≤ k ∨ k = t.expected.length ∧ k = items.length) (f : φ) :
    ∃ run, t.test Cursor.candidate make f = .ok run ∧ run.Passed := by
  refine (passes_iff_trials hvalid hmake f).mpr ?_
  intro word hlegal
  have hlen : word.length = t.settings.steps := hlegal.length
  obtain ⟨point, hreach⟩ := exists_reach_cursor hlaw hk haccepts (hlen ▸ hsteps)
  exact passes_of_reach hreach

end

/-- **Behind the threshold** the first word of the space is reported. -/
theorem exists_run_of_lt (hvalid : t.settings.validate = .ok ())
    (hmake : ∀ f, (make f).1 = .ok (.ofList items)) {violation : Violation}
    (hsteps : k < t.settings.steps)
    (hrejects : t.Rejects Cursor.candidate (.ofList items) (Word.productions k) .produceNext
      violation) (f : φ) :
    ∃ run, t.test Cursor.candidate make f = .ok run ∧
      run.Reports 0 (Word.productions t.settings.steps) k .produceNext violation := by
  obtain ⟨rest, hrest⟩ := t.space.exists_words_eq_productions
  have hwords : t.space.words =
      [] ++ (Word.productions k ++ .produceNext :: Word.productions (t.settings.steps - k - 1)) ::
        rest := by
    rw [← Word.productions_eq_of_lt hsteps]
    exact hrest
  obtain ⟨run, hrun, hreports⟩ := exists_reports_of_rejects hvalid hmake hwords
    (List.forall_mem_nil _) hrejects f
  rw [← Word.productions_eq_of_lt hsteps, Word.length_productions] at hreports
  exact ⟨run, hrun, hreports⟩

/-- **The threshold for wrong contents.**  Let `k` be the length of the longest prefix of `items`
    that is acceptable.  A test of the cursor over `items` passes if no word has more than `k`
    operations, or if nothing is left of either list behind that prefix.  Otherwise the first word
    of the space is reported, at production `k`, with the violation that the lengths tell. -/
theorem detects_contents (t : Tester α) (items : List α) (hvalid : t.settings.validate = .ok ())
    (hlaw : t.settings.order = .indeterminate → LawfulBEq α)
    (hmake : ∀ f, (make f).1 = .ok (.ofList items)) (f : φ) :
    ∃ k run,
      IsGreatest {k | k ≤ items.length ∧ t.settings.order.Accepts t.expected (items.take k)} k ∧
      t.test Cursor.candidate make f = .ok run ∧
      (run.Passed ↔ t.settings.steps ≤ k ∨ k = t.expected.length ∧ k = items.length) ∧
      (¬ run.Passed → ∃ violation,
        Violation.EndsAt t.expected.length items.length k violation ∧
          run.Reports 0 (Word.productions t.settings.steps) k .produceNext violation) := by
  obtain ⟨k, hgreatest⟩ := t.settings.order.exists_isGreatest_accepts t.expected items
  have ⟨⟨hk, haccepts⟩, hbound⟩ := hgreatest
  by_cases hpass : t.settings.steps ≤ k ∨ k = t.expected.length ∧ k = items.length
  · obtain ⟨run, hrun, hpassed⟩ := exists_run_of_le hlaw hk haccepts hvalid hmake hpass f
    exact ⟨k, run, hgreatest, hrun, iff_of_true hpassed hpass, fun h => absurd hpassed h⟩
  · have hlonger : t.settings.order.Accepts t.expected (items.take (k + 1)) →
        items.length ≤ k := by
      intro h
      by_contra hlt
      exact Nat.not_succ_le_self k (hbound ⟨Nat.lt_of_not_le hlt, h⟩)
    obtain ⟨violation, hends, hrejects⟩ :=
      exists_rejects_cursor hlaw hk haccepts hlonger fun h => hpass (Or.inr h)
    have hsteps : k < t.settings.steps := Nat.lt_of_not_le fun h => hpass (Or.inl h)
    obtain ⟨run, hrun, hreports⟩ := exists_run_of_lt hvalid hmake hsteps hrejects f
    exact ⟨k, run, hgreatest, hrun, iff_of_false hreports.not_passed hpass,
      fun _ => ⟨violation, hends, hreports⟩⟩

/-- Two of three elements are as expected in any order; a word of three operations asks for the
    third one. -/
theorem detects_contents_duplicate :
    let t : Tester Nat := ⟨[1, 2, 2], { order := .indeterminate }⟩
    let make : Factory Unit (Cursor Nat) := Factory.constant (.ofList [2, 1, 1])
    t.settings.validate = .ok () ∧ (t.settings.order = .indeterminate → LawfulBEq Nat) ∧
      (∀ f, (make f).1 = .ok (.ofList [2, 1, 1])) ∧
      ∃ run, t.test Cursor.candidate make () = .ok run ∧
        run.Reports 0 [.produceNext, .produceNext, .produceNext] 2 .produceNext .valueMismatch := by
  intro t make
  have hmake : ∀ f, (make f).1 = .ok (.ofList [2, 1, 1]) := fun _ => rfl
  refine ⟨rfl, fun _ => inferInstance, hmake, ?_⟩
  obtain ⟨k, run, hgreatest, hrun, hpassed, hreports⟩ :=
    detects_contents t [2, 1, 1] rfl (fun _ => inferInstance) hmake ()
  have htwo : IsGreatest
      {k | k ≤ 3 ∧ t.settings.order.Accepts t.expected (List.take k [2, 1, 1])} 2 := by
    have haccepts : List.Subperm [2, 1] [1, 2, 2] := by decide
    have hrejects : ¬ List.Subperm [2, 1, 1] [1, 2, 2] := by decide
    refine ⟨⟨by decide, haccepts⟩, ?_⟩
    rintro j ⟨hj, h⟩
    rcases Nat.lt_or_eq_of_le hj with hlt | rfl
    · exact Nat.le_of_lt_succ hlt
    · exact absurd h hrejects
  obtain rfl : k = 2 := IsGreatest.unique hgreatest htwo
  obtain ⟨violation, hends, hreport⟩ := hreports (by rw [hpassed]; decide)
  cases hends with
  | valueMismatch hn hm => exact ⟨run, hrun, hreport⟩
  | missingFault hn hm => exact nomatch hn
  | unexpectedFault hn hm => exact nomatch hm

end Tester

end Lockstep
