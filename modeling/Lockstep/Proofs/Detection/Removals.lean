import Lockstep.Proofs.Replay.Serving
import Lockstep.Proofs.Space.Front
import Lockstep.Proofs.Trial

/-!
# Tests that only removals can fail

A candidate that serves the expected list itself can be found out by its removals only.  So a word
without removals is always got through, and where a space has removals at all the third word is
the first one to watch: it is all productions but for the removal at its end.

* **`Tester.exists_reach_of_notMem`** — a word without removals is got through.
* **`Tester.exists_run_of_removal`** — a removal that fails behind productions is reported from the
  third word of the space.
-/

namespace Lockstep

universe u v w

/-! ## Removals in a space -/

namespace Space

variable {space : Space} {word : Word} {n : Nat}

/-- A read-only candidate is asked for no removal, and neither is any under a cap of none. -/
theorem Legal.removeLast_notMem (h : space.Legal word)
    (hnone : space.features.contains .modifiable = false ∨ space.removalCap = some 0) :
    .removeLast ∉ word := by
  rcases hnone with hread | hcap
  · exact h.readOnly hread
  · exact List.count_eq_zero.mp (Nat.le_zero.mp (h.capped 0 hcap))

/-- A first removal is permitted where it is due, or if illegal removals are. -/
theorem permits_first_removal
    (hsome : ¬ (space.features.contains .modifiable = false ∨ space.removalCap = some 0))
    {s : Shape} (hdue : space.illegalRemovals = false → s.canRemove = true) :
    space.permits s .removeLast 0 = true := by
  obtain ⟨hmod, hcap⟩ := not_or.mp hsome
  refine (permits_removeLast_iff space s 0).mpr ⟨(Bool.not_eq_false _).mp hmod, ?_, hdue⟩
  intro cap heq
  refine Nat.pos_of_ne_zero fun hzero => hcap ?_
  rw [heq, hzero]

/-- **The third word**: a removal behind nothing but productions, if it is permitted there. -/
theorem exists_words_eq_removal (hsteps : space.steps = n + 1)
    (hpermits : space.permits ((Shape.initial space.elements).afterAll (Word.productions n))
      .removeLast 0 = true) :
    ∃ rest, space.words =
      [Word.productions n ++ [.produceNext], Word.productions n ++ [.hasMore]] ++
        (Word.productions n ++ [.removeLast]) :: rest := by
  have hends := (extensions_one hpermits).trans (List.append_nil _).symm
  obtain ⟨rest, hrest⟩ := space.exists_words_eq hsteps hends
  exact ⟨rest, hrest⟩

theorem mem_words_removal (hsteps : space.steps = n + 1)
    (hpermits : space.permits ((Shape.initial space.elements).afterAll (Word.productions n))
      .removeLast 0 = true) : Word.productions n ++ [.removeLast] ∈ space.words := by
  obtain ⟨rest, hwords⟩ := exists_words_eq_removal hsteps hpermits
  rw [hwords]
  exact List.mem_append_right _ List.mem_cons_self

end Space

theorem Word.removeLast_notMem_productions (n : Nat) : .removeLast ∉ productions n :=
  fun h => nomatch eq_of_mem_productions h

/-! ## Words without removals, and the third word -/

namespace Tester

variable {φ : Type u} {α : Type v} {σ : Type w} [BEq α] [LawfulBEq α] {t : Tester α}
  {c : Candidate σ α} {s : σ} {make : Factory φ σ} {word u : Word}
  {k : Checkpoint σ α Unit}

section

variable (hserves : c.Serves s t.expected)

include hserves

/-- Whatever is answered as the contract asks agrees. -/
theorem verdict_of_served (hreach : (t.bench c).reach (t.origin s) u = some k) {op : Operation}
    (hout : (t.bench c).outcome k op = u.served t.expected op) :
    (t.bench c).verdict k op = .agree := by
  refine Bench.verdict_of_served (l := t.expected.length) hserves hreach (fun _ => inferInstance)
    (Nat.le_refl _) ?_ (Or.inr ⟨rfl, rfl⟩) hout
  rw [List.take_length]
  exact .refl _ _

/-- **A word without removals** is got through. -/
theorem exists_reach_of_notMem (hword : .removeLast ∉ word) :
    ∃ k, (t.bench c).reach (t.origin s) word = some k := by
  refine exists_reach_of_acceptable ?_
  intro i op k hop hreach
  have hne : op ≠ .removeLast := by
    rintro rfl
    exact hword (List.mem_of_getElem? hop)
  rw [verdict_of_served hserves hreach (Bench.outcome_of_serves hserves hreach hne)]
  rfl

theorem passes_of_notMem (hword : .removeLast ∉ word) :
    (t.trial c s (fun _ => .accept) word).Passes word := by
  obtain ⟨k, hreach⟩ := exists_reach_of_notMem hserves hword
  exact passes_of_reach hreach

/-- **The removal reported** is that of the third word, if it fails there. -/
theorem exists_run_of_removal (hvalid : t.settings.validate = .ok ())
    (hmake : ∀ f, (make f).1 = .ok s) {n : Nat} (hsteps : t.settings.steps = n + 1)
    (hpermits : t.space.permits
      ((Shape.initial t.expected.length).afterAll (Word.productions n)) .removeLast 0 = true)
    {violation : Violation}
    (hrejects : t.Rejects c s (Word.productions n) .removeLast violation) (f : φ) :
    ∃ run, t.test c make f = .ok run ∧
      run.Reports 2 (Word.productions n ++ [.removeLast]) n .removeLast violation := by
  have hnone := Word.removeLast_notMem_productions n
  obtain ⟨rest, hwords⟩ := t.space.exists_words_eq_removal hsteps hpermits
  have hbefore : ∀ word ∈ [Word.productions n ++ [.produceNext], Word.productions n ++ [.hasMore]],
      (t.trial c s (fun _ => .accept) word).Passes word := by
    intro word hmem
    refine passes_of_notMem hserves ?_
    rcases List.mem_pair.mp hmem with rfl | rfl <;> simp [hnone]
  have hreports := exists_reports_of_rejects hvalid hmake hwords hbefore hrejects f
  rwa [Word.length_productions] at hreports

end

end Tester

end Lockstep
