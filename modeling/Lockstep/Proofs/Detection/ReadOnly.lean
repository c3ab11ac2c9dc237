import Lockstep.Proofs.Detection.Removals

/-!
# When a read-only candidate is found

A candidate over a stream refuses every removal as unsupported, and no removal is ever meant to
end like that: one that is due is completed, and any other one is illegal.  So such a candidate
passes a word exactly if the word has no removal, and a test exactly if the space has none.  If
there are removals at all, then there is one at the end of the third word.

* **`Space.pruned_iff`** — the spaces without removals, told by their settings.
* **`Tester.detects_readOnly`** — the exact condition, and the removal reported.
-/

namespace Lockstep

universe u v w

/-! ## Spaces without removals -/

namespace Space

/-- The settings leave no place for a removal: none is asked for, words are too short, or it could
    only be illegal and those are left out. -/
def Pruned (space : Space) : Prop :=
  space.features.contains .modifiable = false ∨ space.removalCap = some 0 ∨ space.steps = 0 ∨
    space.illegalRemovals = false ∧ (space.elements = 0 ∨ space.steps = 1)

instance (space : Space) : Decidable space.Pruned :=
  inferInstanceAs (Decidable (_ ∨ _ ∨ _ ∨ _ ∧ _))

variable {space : Space} {word : Word}

theorem Legal.removeLast_notMem_of_pruned (h : space.Legal word) (hpruned : space.Pruned) :
    .removeLast ∉ word := by
  intro hmem
  obtain ⟨i, hi⟩ := List.mem_iff_getElem?.mp hmem
  have hlt : i < space.steps := by
    rw [← h.length]
    exact (List.getElem?_eq_some_iff.mp hi).1
  rcases hpruned with hread | hcap | hzero | ⟨hlegal, hshort⟩
  · exact h.removeLast_notMem (Or.inl hread) hmem
  · exact h.removeLast_notMem (Or.inr hcap) hmem
  · omega
  · have hdue := h.due hlegal i hi
    rcases hshort with helements | hone
    · obtain ⟨j, -, -, hcount, -⟩ := hdue
      omega
    · have hfirst : i = 0 := by omega
      rw [hfirst] at hdue
      exact Word.not_due_zero word hdue

/-- Where the settings leave room for removals, one may come last behind productions. -/
theorem permits_removal_of_not_pruned (h : ¬ space.Pruned) :
    space.steps = space.steps - 1 + 1 ∧
      space.permits ((Shape.initial space.elements).afterAll (Word.productions (space.steps - 1)))
        .removeLast 0 = true := by
  simp only [Pruned, not_or] at h
  obtain ⟨hmod, hcap, hsteps, hillegal⟩ := h
  refine ⟨by omega, permits_first_removal (not_or.mpr ⟨hmod, hcap⟩) ?_⟩
  intro hlegal
  have hshort : ¬ (space.elements = 0 ∨ space.steps = 1) := fun hshort => hillegal ⟨hlegal, hshort⟩
  exact Shape.canRemove_productions.mpr (by omega)

/-- **Spaces without removals** are the pruned ones. -/
theorem pruned_iff : space.Pruned ↔ ∀ word, space.Legal word → .removeLast ∉ word := by
  constructor
  · intro hpruned word hlegal
    exact hlegal.removeLast_notMem_of_pruned hpruned
  · intro h
    by_contra hpruned
    obtain ⟨hsteps, hpermits⟩ := permits_removal_of_not_pruned hpruned
    have hlegal := mem_words.mp (mem_words_removal hsteps hpermits)
    exact h _ hlegal (List.mem_append_right _ List.mem_cons_self)

end Space

/-! ## The verdict on a removal -/

namespace Tester

variable {φ : Type u} {α : Type v} {ι : Type w} [BEq α] [LawfulBEq α] {t : Tester α}
  {next : ι → Option α × ι} {stream : ι} {make : Factory φ (Peeking ι α)} {u : Word}
  {k : Checkpoint (Peeking ι α) α Unit}

omit [LawfulBEq α] in
/-- **No removal is accepted**, whether it is due or not. -/
theorem verdict_unsupported
    (hreach : (t.bench (Peeking.candidate next)).reach (t.origin (.ofStream stream)) u = some k) :
    (t.bench (Peeking.candidate next)).verdict k .removeLast =
      .diverge
        (if ((Shape.initial t.expected.length).afterAll u).canRemove then
          .unexpectedFault .unsupported
        else .mismatchedKind .illegalRemoval .unsupported) := by
  have hout : (t.bench (Peeking.candidate next)).outcome k .removeLast = .failed .unsupported :=
    Peeking.perform_removeLast k.candidate
  rw [Bench.verdict, hout, Bench.predict_removeLast hreach]
  cases ((Shape.initial t.expected.length).afterAll u).canRemove with
  | false => rfl
  | true =>
      -- the tolerance asks for a removal refused as illegal
      have hkind : t.runner.judge.isLegacyRemoval Fault.unsupported.kind k.previous = false := by
        refine Bool.eq_false_iff.mpr fun hlegacy => ?_
        exact FaultKind.noConfusion (Judge.isLegacyRemoval_iff.mp hlegacy).2.1
      show (if t.runner.judge.isLegacyRemoval _ k.previous then _ else _) = _
      rw [hkind]
      rfl

/-- **When a read-only candidate is found.**  A candidate over a stream that lists the expected
    elements passes if and only if the space has no removal.  Otherwise the third word is
    reported, with the removal at its end. -/
theorem detects_readOnly (t : Tester α) (hvalid : t.settings.validate = .ok ())
    (hstream : Peeking.Lists next stream t.expected)
    (hmake : ∀ f, (make f).1 = .ok (.ofStream stream)) (f : φ) :
    let steps := t.settings.steps
    ∃ run, t.test (Peeking.candidate next) make f = .ok run ∧
      (run.Passed ↔ ∀ word, t.space.Legal word → .removeLast ∉ word) ∧
      (run.Passed ↔ t.space.Pruned) ∧
      (¬ run.Passed →
        run.Reports 2 (Word.productions (steps - 1) ++ [.removeLast]) (steps - 1) .removeLast
          (if t.expected ≠ [] ∧ 2 ≤ steps then .unexpectedFault .unsupported
          else .mismatchedKind .illegalRemoval .unsupported)) := by
  intro steps
  have hserves := Peeking.serves hstream
  by_cases hpruned : t.space.Pruned
  · have hnone := Space.pruned_iff.mp hpruned
    obtain ⟨run, hrun, hpassed⟩ := (passes_iff_trials hvalid hmake f).mpr fun word hlegal =>
      passes_of_notMem hserves (hnone word hlegal)
    exact ⟨run, hrun, iff_of_true hpassed hnone, iff_of_true hpassed hpruned,
      fun h => absurd hpassed h⟩
  · obtain ⟨hsteps, hpermits⟩ := Space.permits_removal_of_not_pruned hpruned
    have hdue : ((Shape.initial t.expected.length).afterAll
        (Word.productions (steps - 1))).canRemove = true ↔ t.expected ≠ [] ∧ 2 ≤ steps := by
      rw [Shape.canRemove_productions, List.length_pos_iff]
      exact and_congr_right fun _ => by omega
    obtain ⟨k, hreach⟩ := exists_reach_of_notMem hserves
      (Word.removeLast_notMem_productions (steps - 1))
    obtain ⟨run, hrun, hreports⟩ := exists_run_of_removal hserves hvalid hmake hsteps hpermits
      ⟨k, hreach, verdict_unsupported hreach⟩ f
    refine ⟨run, hrun, iff_of_false hreports.not_passed (mt Space.pruned_iff.mpr hpruned),
      iff_of_false hreports.not_passed hpruned, fun _ => ?_⟩
    simp only [← hdue]
    exact hreports

/-- The stream of a list of one element, with the tolerance on. -/
theorem detects_readOnly_singleton :
    let t : Tester Nat :=
      ⟨[7], { order := .determinate, steps := 2, toleratesLegacyRemoval := true }⟩
    let make : Factory Unit (Peeking (List (Option Nat)) Nat) := Factory.constant (.ofList [7])
    LawfulBEq Nat ∧ t.settings.validate = .ok () ∧
      Peeking.Lists Peeking.nextOfList [some 7] t.expected ∧
      (∀ f, (make f).1 = .ok (.ofStream [some 7])) ∧
      ∃ run, t.test (Peeking.candidate Peeking.nextOfList) make () = .ok run ∧
        run.Reports 2 [.produceNext, .removeLast] 1 .removeLast
          (.unexpectedFault .unsupported) := by
  intro t make
  have hstream : Peeking.Lists Peeking.nextOfList [some 7] t.expected :=
    Peeking.lists_nextOfList [7]
  have hmake : ∀ f, (make f).1 = .ok (.ofStream [some 7]) := fun _ => rfl
  refine ⟨inferInstance, rfl, hstream, hmake, ?_⟩
  obtain ⟨run, hrun, -, hpassed, hreports⟩ := detects_readOnly t rfl hstream hmake ()
  have hpruned : ¬ t.space.Pruned := by decide
  exact ⟨run, hrun, hreports (by rwa [hpassed])⟩

end Tester

end Lockstep
