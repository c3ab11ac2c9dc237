import Lockstep.Proofs.Detection.Removals
import Lockstep.Proofs.Replay.Defect
import Mathlib.Algebra.BigOperators.Group.List.Basic
import Mathlib.Data.List.Nodup

/-!
# When the legacy defect is found

Over `n` elements the defect shows in one kind of call only: a removal that is due, behind more
than `n` productions.  Such a call is **spoiled**.  It takes a word of `n + 2` operations to come to
one, and among the words of that length there is a single one that does, productions followed by a
removal.  There the call before is a production that found nothing, which is what the tolerance
asks for; with one operation more a question can stand in between, and no tolerance helps.

* **`Word.Spoiled.length_lt`**, **`Word.Spoiled.eq_productions`** — the least place for a spoiled
  call.
* **`Tester.verdict_of_spoiled`** — what is tolerated about a spoiled call.
* **`Tester.detects_legacyRemoval`** — the exact threshold, with and without the tolerance.
-/

namespace Lockstep

universe u v w

/-! ## Spoiled calls -/

/-- A call behind `u` is **spoiled** by the defect over `n` elements: it is a removal that is due,
    and a production found nothing before. -/
structure Word.Spoiled (n : Nat) (u : Word) (op : Operation) : Prop where
  removal : op = .removeLast
  late : n < u.count .produceNext
  due : ((Shape.initial n).afterAll u).canRemove = true

/-- No call of the word is spoiled. -/
def Word.Unspoiled (n : Nat) (word : Word) : Prop :=
  ∀ i op, word[i]? = some op → ¬ Spoiled n (word.take i) op

namespace Word

variable {n : Nat} {u word : Word} {op : Operation}

theorem Spoiled.length_lt (h : Spoiled n u op) : n < u.length :=
  Nat.lt_of_lt_of_le h.late List.count_le_length

/-- At the least place there is room for nothing but productions. -/
theorem Spoiled.eq_productions (h : Spoiled n u op) (hlen : u.length = n + 1) :
    u = productions (n + 1) := by
  have hall : u.count .produceNext = u.length :=
    Nat.le_antisymm List.count_le_length (hlen ▸ h.late)
  rw [← hlen]
  exact List.eq_replicate_iff.mpr ⟨rfl, fun op hop => (List.count_eq_length.mp hall op hop).symm⟩

theorem spoiled_productions {m : Nat} (hn : 0 < n) (hm : n < m) :
    Spoiled n (productions m) .removeLast := by
  refine ⟨rfl, ?_, Shape.canRemove_productions.mpr ⟨hn, by omega⟩⟩
  rw [count_productions]
  exact hm

/-- A question changes nothing about it. -/
theorem Spoiled.hasMore (h : Spoiled n u op) : Spoiled n (u ++ [.hasMore]) op := by
  refine ⟨h.removal, ?_, ?_⟩
  · rw [count_snoc]
    exact h.late
  · rw [Shape.afterAll_append]
    exact h.due

/-- The call in front of a spoiled one is no removal. -/
theorem Spoiled.not_behind_removal (h : Spoiled n (u ++ [.removeLast]) op) : False := by
  have hdue := h.due
  rw [Shape.afterAll_append, Shape.afterAll_cons, Shape.afterAll_nil, Shape.canRemove_after] at hdue
  rcases hdue with ⟨hop, -⟩ | ⟨hop, -⟩
  · exact nomatch hop
  · exact hop rfl

/-! ### Unspoiled words -/

theorem unspoiled_of_length_le (h : word.length ≤ n + 1) : word.Unspoiled n := by
  intro i op hop hspoiled
  have hi := (List.getElem?_eq_some_iff.mp hop).1
  have hlt := hspoiled.length_lt
  rw [List.length_take] at hlt
  omega

theorem unspoiled_of_notMem (h : .removeLast ∉ word) : word.Unspoiled n := by
  intro i op hop hspoiled
  rw [hspoiled.removal] at hop
  exact h (List.mem_of_getElem? hop)

theorem unspoiled_zero (word : Word) : word.Unspoiled 0 := by
  intro i op _ hspoiled
  obtain ⟨j, -, -, hcount, -⟩ := (Shape.canRemove_iff_due _ _).mp hspoiled.due
  exact Nat.not_lt_zero _ hcount

/-- **One word of the least length** has a spoiled call: productions with a removal behind them. -/
theorem unspoiled_of_ne (hlen : word.length = n + 2)
    (hne : word ≠ productions (n + 1) ++ [.removeLast]) : word.Unspoiled n := by
  intro i op hop hspoiled
  have hi := (List.getElem?_eq_some_iff.mp hop).1
  have hlt := hspoiled.length_lt
  rw [List.length_take] at hlt
  -- more than `n` operations stand in front of the spoiled one, so it is the last
  have hlast : i = n + 1 := by omega
  subst hlast
  have hfront := hspoiled.eq_productions (by rw [List.length_take]; omega)
  refine hne ?_
  calc word
      = word.take (n + 1 + 1) := (List.take_of_length_le (by omega)).symm
    _ = word.take (n + 1) ++ [op] := by rw [List.take_add_one, hop]; rfl
    _ = productions (n + 1) ++ [.removeLast] := by rw [hfront, hspoiled.removal]

end Word

/-! ## Calls on the defect -/

namespace LegacyRemoval

variable {α : Type v} {u : Word} {op : Operation}

/-- The cursor with the defect. -/
abbrev cursor (α : Type v) : Candidate (LegacyRemoval (Cursor α)) α := candidate Cursor.candidate

/-- It begins like the cursor over a list. -/
abbrev ofList (xs : List α) : LegacyRemoval (Cursor α) := ofInner (.ofList xs)

theorem perform_of_spoiled (xs : List α) (h : Word.Spoiled xs.length u op) :
    ((cursor α).perform op ((cursor α).stateAfter (ofList xs) u)).1 = .failed .illegalRemoval := by
  rw [perform_stateAfter]
  exact if_pos ⟨h.removal, h.late⟩

/-- A removal that is not due is refused by the defect as it should be. -/
theorem perform_of_not_spoiled (xs : List α) (h : ¬ Word.Spoiled xs.length u op) :
    ((cursor α).perform op ((cursor α).stateAfter (ofList xs) u)).1 = u.served xs op := by
  rw [perform_stateAfter]
  by_cases hlate : op = .removeLast ∧ xs.length < u.count .produceNext
  · rw [if_pos hlate]
    obtain ⟨rfl, hcount⟩ := hlate
    exact (if_neg fun hdue => h ⟨rfl, hcount, hdue⟩).symm
  · exact if_neg hlate

end LegacyRemoval

/-! ## The sixth word -/

/-- What follows the productions in the first five words of a space, if removals are permitted. -/
def Word.firstEnds : List Word :=
  [[.produceNext, .produceNext], [.produceNext, .hasMore], [.produceNext, .removeLast],
    [.hasMore, .produceNext], [.hasMore, .hasMore]]

theorem Word.removeLast_notMem_firstEnds {tail : Word} (h : tail ∈ firstEnds) :
    tail = [.produceNext, .removeLast] ∨ .removeLast ∉ tail :=
  (by decide : ∀ tail ∈ firstEnds, tail = [.produceNext, .removeLast] ∨ .removeLast ∉ tail) tail h

/-- **The sixth word**: a question stands between the productions and the removal. -/
theorem Space.exists_words_eq_asked {space : Space} {m : Nat} (hsteps : space.steps = m + 2)
    (hmore : space.permits
      ((Shape.initial space.elements).afterAll (Word.productions (m + 1))) .removeLast 0 = true)
    (hpermits : space.permits
      ((Shape.initial space.elements).afterAll (Word.productions m)) .removeLast 0 = true) :
    ∃ rest, space.words = Word.firstEnds.map (Word.productions m ++ ·) ++
      (Word.productions m ++ [.hasMore] ++ [.removeLast]) :: rest := by
  rw [Word.productions_succ, Shape.afterAll_append] at hmore
  obtain ⟨others, hends⟩ := extensions_two hmore hpermits
  obtain ⟨rest, hrest⟩ := space.exists_words_eq hsteps hends
  refine ⟨rest, ?_⟩
  rw [hrest, List.append_assoc]
  rfl

/-! ## Tolerated steps, counted -/

/-- A count to which one word of the space contributes is that of the word. -/
theorem Space.sum_map_words {space : Space} {f : Word → Nat} {word : Word}
    (hmem : word ∈ space.words) (h : ∀ other ∈ space.words, other ≠ word → f other = 0) :
    (space.words.map f).sum = f word := by
  have hperm := List.perm_cons_erase hmem
  rw [(hperm.map f).sum_eq, List.map_cons, List.sum_cons, List.sum_eq_zero, Nat.add_zero]
  intro x hx
  obtain ⟨other, hother, rfl⟩ := List.mem_map.mp hx
  refine h other (List.mem_of_mem_erase hother) ?_
  rintro rfl
  exact space.nodup_words.not_mem_erase hother

namespace Bench

variable {σ : Type u} {α : Type v} {η : Type w} [BEq α] {b : Bench σ α η}
  {k k₁ k₂ : Checkpoint σ α η} {u word : Word} {op : Operation}

/-- A replay in which the judge tolerates nothing has no tolerated step on record. -/
theorem toleratedSteps_eq_zero
    (h : ∀ i op k', u[i]? = some op → b.reach k (u.take i) = some k' →
      b.verdict k' op ≠ .tolerated) (word : Word) :
    ((b.run k u).record word).toleratedSteps = 0 := by
  refine List.countP_eq_zero.mpr ?_
  intro step hmem htol
  obtain ⟨i, hi⟩ := List.mem_iff_getElem?.mp hmem
  obtain ⟨k', op, hreach, hop, hstep⟩ := exists_of_steps_getElem? hi
  exact h i op k' hop hreach (verdict_of_step? hstep (of_decide_eq_true htol))

/-- A tolerated step at the end counts once. -/
theorem toleratedSteps_concat (hreach : b.reach k u = some k₁) (hnext : b.next? k₁ op = some k₂)
    (htol : b.verdict k₁ op = .tolerated) (word : Word) :
    ((b.run k (u ++ [op])).record word).toleratedSteps =
      ((b.run k u).record word).toleratedSteps + 1 := by
  rw [run_append hreach, run_cons_of_next hnext]
  show List.countP _ ((b.run k u).steps ++ [b.stepWith k₁ op _]) = _
  rw [List.countP_append, List.countP_singleton]
  exact congrArg (_ + ·) (if_pos (decide_eq_true htol))

end Bench

/-! ## Settings that hide the defect -/

namespace Tester

variable {α : Type v} {t : Tester α} {word : Word}

/-- The defect does not show: no removal is asked for, or there is no element to remove. -/
def HidesDefect (t : Tester α) : Prop :=
  t.settings.features.contains .modifiable = false ∨ t.settings.removalCap = some 0 ∨
    t.expected = []

theorem unspoiled_of_hidden (h : t.HidesDefect) (hlegal : t.space.Legal word) :
    word.Unspoiled t.expected.length := by
  rcases h with hread | hcap | hnil
  · exact Word.unspoiled_of_notMem (hlegal.removeLast_notMem (Or.inl hread))
  · exact Word.unspoiled_of_notMem (hlegal.removeLast_notMem (Or.inr hcap))
  · rw [hnil]
    exact Word.unspoiled_zero word

theorem length_expected_pos (h : ¬ t.HidesDefect) : 0 < t.expected.length :=
  List.length_pos_iff.mpr fun hnil => h (Or.inr (Or.inr hnil))

/-- If the defect shows, a first removal is permitted behind productions. -/
theorem permits_behind_productions (h : ¬ t.HidesDefect) {m : Nat} (hm : 0 < m) :
    t.space.permits ((Shape.initial t.expected.length).afterAll (Word.productions m))
      .removeLast 0 = true := by
  refine Space.permits_first_removal (fun hnone => h ?_) fun _ => ?_
  · exact hnone.imp_right Or.inl
  · exact Shape.canRemove_productions.mpr ⟨length_expected_pos h, hm⟩

/-! ## Trials of the defect -/

variable {φ : Type u} [BEq α] {make : Factory φ (LegacyRemoval (Cursor α))} {u : Word}
  {op : Operation}
  {k : Checkpoint (LegacyRemoval (Cursor α)) α Unit}

section

variable
  (hreach : (t.bench (LegacyRemoval.cursor α)).reach (t.origin (.ofList t.expected)) u = some k)

include hreach

/-- In front of a spoiled call a production is one that found nothing. -/
theorem previous_exhausted_iff (h : u.Spoiled t.expected.length op) :
    (∃ g : Fault, k.previous = some (.failed g) ∧ g.kind = .exhausted) ↔
      u.getLast? = some .produceNext := by
  have hserves := LegacyRemoval.serves t.expected
  cases u using List.reverseRecOn with
  | nil => exact absurd h.late (Nat.not_lt_zero _)
  | append_singleton u last =>
      obtain ⟨k₁, hreach₁, hnext⟩ := Bench.reach_concat_eq_some.mp hreach
      obtain ⟨-, -, rfl⟩ := Bench.next?_eq_some.mp hnext
      show (∃ g : Fault, some ((t.bench _).outcome k₁ last) = some (.failed g) ∧ _) ↔ _
      rw [List.getLast?_concat]
      cases last with
      | produceNext =>
          -- more than `n` productions with this one, so it had met all elements
          have hlate := h.late
          rw [Word.count_snoc] at hlate
          rw [Bench.outcome_of_serves hserves hreach₁ Operation.noConfusion,
            Word.served_produceNext_of_le (Nat.le_of_lt_succ hlate)]
          exact iff_of_true ⟨_, rfl, rfl⟩ rfl
      | hasMore =>
          rw [Bench.outcome_of_serves hserves hreach₁ Operation.noConfusion, Word.served]
          refine iff_of_false ?_ fun h => Operation.noConfusion (Option.some.inj h)
          rintro ⟨g, hg, -⟩
          cases hg
      | removeLast => exact h.not_behind_removal.elim

/-- **A spoiled call** is tolerated directly behind a production, if at all. -/
theorem verdict_of_spoiled (h : u.Spoiled t.expected.length op) :
    (t.bench (LegacyRemoval.cursor α)).verdict k op =
      if t.settings.toleratesLegacyRemoval = true ∧ u.getLast? = some .produceNext then .tolerated
      else .diverge (.unexpectedFault .illegalRemoval) := by
  have hout : (t.bench (LegacyRemoval.cursor α)).outcome k op = .failed .illegalRemoval := by
    rw [Bench.outcome, Bench.candidate_of_reach hreach]
    exact LegacyRemoval.perform_of_spoiled t.expected h
  obtain rfl := h.removal
  have hdue : k.reference.predict .removeLast = .removed := by
    rw [Bench.predict_removeLast hreach]
    exact if_pos h.due
  have hlegacy : t.runner.judge.isLegacyRemoval .illegalRemoval k.previous = true ↔
      t.settings.toleratesLegacyRemoval = true ∧ u.getLast? = some .produceNext := by
    rw [Judge.isLegacyRemoval_iff, previous_exhausted_iff hreach h]
    exact and_congr_right fun _ => and_iff_right rfl
  rw [Bench.verdict, hout, hdue]
  show (if t.runner.judge.isLegacyRemoval .illegalRemoval k.previous = true then _ else _) = _
  simp only [hlegacy]
  rfl

variable [LawfulBEq α]

theorem verdict_of_not_spoiled (h : ¬ u.Spoiled t.expected.length op) :
    (t.bench (LegacyRemoval.cursor α)).verdict k op = .agree := by
  refine verdict_of_served (LegacyRemoval.serves t.expected) hreach ?_
  rw [Bench.outcome, Bench.candidate_of_reach hreach]
  exact LegacyRemoval.perform_of_not_spoiled t.expected h

end

variable [LawfulBEq α]

theorem trial_of_unspoiled (h : word.Unspoiled t.expected.length) :
    let trial := t.trial (LegacyRemoval.cursor α) (.ofList t.expected) (fun _ => .accept) word
    trial.Passes word ∧ (trial.record word).toleratedSteps = 0 := by
  have hagree : ∀ i op k, word[i]? = some op →
      (t.bench (LegacyRemoval.cursor α)).reach (t.origin (.ofList t.expected)) (word.take i) =
          some k →
        (t.bench (LegacyRemoval.cursor α)).verdict k op = .agree :=
    fun i op k hop hreach => verdict_of_not_spoiled hreach (h i op hop)
  constructor
  · have hthrough : ∃ k, (t.bench (LegacyRemoval.cursor α)).reach (t.origin (.ofList t.expected))
        word = some k := by
      refine exists_reach_of_acceptable ?_
      intro i op k hop hreach
      rw [hagree i op k hop hreach]
      rfl
    obtain ⟨k, hreach⟩ := hthrough
    exact passes_of_reach hreach
  · rw [trial_eq_run]
    refine Bench.toleratedSteps_eq_zero ?_ word
    intro i op k hop hreach htol
    exact nomatch (hagree i op k hop hreach).symm.trans htol

/-- **The tolerance** lets a removal pass behind any number of productions, and it counts once. -/
theorem trial_of_tolerated {m : Nat} (hflag : t.settings.toleratesLegacyRemoval = true)
    (hn : 0 < t.expected.length) (hm : t.expected.length < m) :
    let word := Word.productions m ++ [.removeLast]
    let trial := t.trial (LegacyRemoval.cursor α) (.ofList t.expected) (fun _ => .accept) word
    trial.Passes word ∧ (trial.record word).toleratedSteps = 1 := by
  intro word trial
  have hnone := Word.removeLast_notMem_productions m
  obtain ⟨k, hreach⟩ : ∃ k, (t.bench (LegacyRemoval.cursor α)).reach
      (t.origin (.ofList t.expected)) (Word.productions m) = some k :=
    exists_reach_of_notMem (LegacyRemoval.serves t.expected) hnone
  have hv : (t.bench (LegacyRemoval.cursor α)).verdict k .removeLast = .tolerated := by
    rw [verdict_of_spoiled hreach (Word.spoiled_productions hn hm)]
    exact if_pos ⟨hflag, Word.getLast?_productions (by omega)⟩
  have hnext : (t.bench (LegacyRemoval.cursor α)).next? k .removeLast = some _ :=
    Bench.next?_eq_some.mpr ⟨by rw [hv]; rfl, rfl, rfl⟩
  refine ⟨passes_of_reach (Bench.reach_concat_eq_some.mpr ⟨k, hreach, hnext⟩), ?_⟩
  refine (Bench.toleratedSteps_concat hreach hnext hv word).trans ?_
  exact congrArg (· + 1) (trial_of_unspoiled (Word.unspoiled_of_notMem hnone)).2

/-- **A spoiled removal** is rejected unless it is tolerated. -/
theorem rejects_of_spoiled (hnone : .removeLast ∉ u)
    (h : u.Spoiled t.expected.length .removeLast)
    (hno : ¬ (t.settings.toleratesLegacyRemoval = true ∧ u.getLast? = some .produceNext)) :
    t.Rejects (LegacyRemoval.cursor α) (.ofList t.expected) u .removeLast
      (.unexpectedFault .illegalRemoval) := by
  obtain ⟨k, hreach⟩ := exists_reach_of_notMem (LegacyRemoval.serves t.expected) hnone
  refine ⟨k, hreach, ?_⟩
  rw [verdict_of_spoiled hreach h]
  exact if_neg hno

/-- With the tolerance on, the first five words pass. -/
theorem passes_of_mem_firstEnds {m : Nat} (hflag : t.settings.toleratesLegacyRemoval = true)
    (hn : 0 < t.expected.length) (hm : t.expected.length < m) :
    ∀ word ∈ Word.firstEnds.map (Word.productions m ++ ·),
      (t.trial (LegacyRemoval.cursor α) (.ofList t.expected) (fun _ => .accept) word).Passes
        word := by
  intro word hmem
  obtain ⟨tail, htail, rfl⟩ := List.mem_map.mp hmem
  rcases Word.removeLast_notMem_firstEnds htail with rfl | hnone
  · -- one more production, and a removal directly behind it
    have hmore : Word.productions m ++ [.produceNext, .removeLast] =
        Word.productions (m + 1) ++ [.removeLast] := by
      rw [Word.productions_succ, List.append_assoc]
      rfl
    rw [hmore]
    exact (trial_of_tolerated hflag hn (by omega)).1
  · refine passes_of_notMem (LegacyRemoval.serves t.expected) fun hmem => ?_
    exact (List.mem_append.mp hmem).elim (Word.removeLast_notMem_productions m) hnone

/-! ## Whole tests of the defect -/

section

variable (hvalid : t.settings.validate = .ok ())
  (hmake : ∀ f, (make f).1 = .ok (.ofList t.expected))

include hvalid hmake

theorem exists_run_of_unspoiled
    (h : ∀ word, t.space.Legal word → word.Unspoiled t.expected.length) (f : φ) :
    ∃ run, t.test (LegacyRemoval.cursor α) make f = .ok run ∧ run.PassedWith 0 := by
  obtain ⟨run, summary, hrun, hresult, htolerated⟩ := exists_summary_of_passes hvalid hmake
    (fun word hlegal => (trial_of_unspoiled (h word hlegal)).1) f
  refine ⟨run, hrun, summary, hresult, htolerated.trans (List.sum_eq_zero ?_)⟩
  intro count hcount
  obtain ⟨word, hword, rfl⟩ := List.mem_map.mp hcount
  exact (trial_of_unspoiled (h word (Space.mem_words.mp hword))).2

/-- **One operation more** than all elements take, and a strict judge finds the defect. -/
theorem exists_run_of_strict (hflag : t.settings.toleratesLegacyRemoval = false)
    (hshown : ¬ t.HidesDefect) (hsteps : t.expected.length + 2 ≤ t.settings.steps) (f : φ) :
    ∃ run, t.test (LegacyRemoval.cursor α) make f = .ok run ∧
      run.Reports 2 (Word.productions (t.settings.steps - 1) ++ [.removeLast])
        (t.settings.steps - 1) .removeLast (.unexpectedFault .illegalRemoval) := by
  have hspoiled : Word.Spoiled t.expected.length (Word.productions (t.settings.steps - 1))
      .removeLast := Word.spoiled_productions (length_expected_pos hshown) (by omega)
  refine exists_run_of_removal (LegacyRemoval.serves t.expected) hvalid hmake (by omega)
    (permits_behind_productions hshown (by omega)) ?_ f
  refine rejects_of_spoiled (Word.removeLast_notMem_productions _) hspoiled ?_
  rw [hflag]
  exact fun h => nomatch h.1

/-- **At the least length** the tolerance helps, and in one word. -/
theorem exists_run_of_tolerated (hflag : t.settings.toleratesLegacyRemoval = true)
    (hshown : ¬ t.HidesDefect) (hsteps : t.settings.steps = t.expected.length + 2) (f : φ) :
    ∃ run, t.test (LegacyRemoval.cursor α) make f = .ok run ∧ run.PassedWith 1 := by
  let spoiled : Word := Word.productions (t.expected.length + 1) ++ [.removeLast]
  obtain ⟨hpasses, honce⟩ := trial_of_tolerated (m := t.expected.length + 1) hflag
    (length_expected_pos hshown) (Nat.lt_succ_self _)
  have hothers : ∀ word, t.space.Legal word → word ≠ spoiled →
      word.Unspoiled t.expected.length :=
    fun word hlegal hne => Word.unspoiled_of_ne (hlegal.length.trans hsteps) hne
  have hall : ∀ word, t.space.Legal word →
      (t.trial (LegacyRemoval.cursor α) (.ofList t.expected) (fun _ => .accept) word).Passes
        word := by
    intro word hlegal
    by_cases heq : word = spoiled
    · rw [heq]
      exact hpasses
    · exact (trial_of_unspoiled (hothers word hlegal heq)).1
  obtain ⟨run, summary, hrun, hresult, htolerated⟩ := exists_summary_of_passes hvalid hmake hall f
  refine ⟨run, hrun, summary, hresult, htolerated.trans ?_⟩
  have hmem : spoiled ∈ t.space.words :=
    Space.mem_words_removal hsteps (permits_behind_productions hshown (Nat.succ_pos _))
  refine (Space.sum_map_words hmem ?_).trans honce
  intro word hword hne
  exact (trial_of_unspoiled (hothers word (Space.mem_words.mp hword) hne)).2

/-- **One operation more**, and the tolerance does not help: a question stands in between. -/
theorem exists_run_of_asked (hflag : t.settings.toleratesLegacyRemoval = true)
    (hshown : ¬ t.HidesDefect) {m : Nat} (hm : t.expected.length < m)
    (hsteps : t.settings.steps = m + 2) (f : φ) :
    ∃ run, t.test (LegacyRemoval.cursor α) make f = .ok run ∧
      run.Reports 5 (Word.productions m ++ [.hasMore, .removeLast]) (m + 1) .removeLast
        (.unexpectedFault .illegalRemoval) := by
  have hn := length_expected_pos hshown
  obtain ⟨rest, hwords⟩ := Space.exists_words_eq_asked hsteps
    (permits_behind_productions hshown (Nat.succ_pos m))
    (permits_behind_productions hshown (by omega))
  have hrejects : t.Rejects (LegacyRemoval.cursor α) (.ofList t.expected)
      (Word.productions m ++ [.hasMore]) .removeLast (.unexpectedFault .illegalRemoval) := by
    refine rejects_of_spoiled ?_ (Word.spoiled_productions hn hm).hasMore ?_
    · simp [Word.removeLast_notMem_productions m]
    · rw [List.getLast?_concat]
      exact fun h => nomatch h.2
  have hreports := exists_reports_of_rejects hvalid hmake hwords
    (passes_of_mem_firstEnds hflag hn hm) hrejects f
  rw [List.append_assoc, List.length_append, Word.length_productions] at hreports
  exact hreports

end

/-- **When the legacy defect is found.**  Unless the settings hide it, a strict test finds the
    defect from `n + 2` operations on, in the third word.  A tolerant one passes with that many
    operations, and counts one tolerated step; it finds the defect from `n + 3` operations on, in
    the sixth word.  With fewer operations nothing shows. -/
theorem detects_legacyRemoval (t : Tester α) (hvalid : t.settings.validate = .ok ())
    (hmake : ∀ f, (make f).1 = .ok (.ofInner (.ofList t.expected))) (f : φ) :
    let n := t.expected.length
    let steps := t.settings.steps
    let tolerates := t.settings.toleratesLegacyRemoval
    ∃ run, t.test (LegacyRemoval.candidate Cursor.candidate) make f = .ok run ∧
      (run.Passed ↔ t.HidesDefect ∨ steps ≤ n + if tolerates then 2 else 1) ∧
      (t.HidesDefect ∨ steps ≤ n + 1 → run.PassedWith 0) ∧
      (¬ t.HidesDefect → tolerates = false → n + 2 ≤ steps →
        run.Reports 2 (Word.productions (steps - 1) ++ [.removeLast]) (steps - 1) .removeLast
          (.unexpectedFault .illegalRemoval)) ∧
      (¬ t.HidesDefect → tolerates = true → steps = n + 2 → run.PassedWith 1) ∧
      (¬ t.HidesDefect → tolerates = true → n + 3 ≤ steps →
        run.Reports 5 (Word.productions (steps - 2) ++ [.hasMore, .removeLast]) (steps - 1)
          .removeLast (.unexpectedFault .illegalRemoval)) := by
  intro n steps tolerates
  by_cases hquiet : t.HidesDefect ∨ steps ≤ n + 1
  · have hunspoiled : ∀ word, t.space.Legal word → word.Unspoiled n := by
      intro word hlegal
      rcases hquiet with hhidden | hshort
      · exact unspoiled_of_hidden hhidden hlegal
      · exact Word.unspoiled_of_length_le (hlegal.length.trans_le hshort)
    obtain ⟨run, hrun, hpassed⟩ := exists_run_of_unspoiled hvalid hmake hunspoiled f
    have hbound : t.HidesDefect ∨ steps ≤ n + if tolerates then 2 else 1 := by
      refine hquiet.imp_right fun hshort => ?_
      split <;> omega
    have hshort : ¬ t.HidesDefect → steps ≤ n + 1 := hquiet.resolve_left
    refine ⟨run, hrun, iff_of_true hpassed.passed hbound, fun _ => hpassed, ?_, ?_, ?_⟩
    all_goals
      intro hshown _ hlong
      have := hshort hshown
      omega
  · obtain ⟨hshown, hlong⟩ := not_or.mp hquiet
    cases htolerates : tolerates with
    | false =>
        obtain ⟨run, hrun, hreports⟩ :=
          exists_run_of_strict hvalid hmake htolerates hshown (Nat.lt_of_not_le hlong) f
        refine ⟨run, hrun, iff_of_false hreports.not_passed hquiet, ?_, ?_, ?_, ?_⟩
        · exact fun h => absurd h hquiet
        · exact fun _ _ _ => hreports
        · exact fun _ h => nomatch h
        · exact fun _ h => nomatch h
    | true =>
        rcases Nat.lt_or_eq_of_le (Nat.lt_of_not_le hlong) with hlt | heq
        · obtain ⟨m, hm⟩ : ∃ m, steps = m + 2 := ⟨steps - 2, by omega⟩
          obtain ⟨run, hrun, hreports⟩ :=
            exists_run_of_asked hvalid hmake htolerates hshown (m := m) (by omega) hm f
          have hover : ¬ (t.HidesDefect ∨ steps ≤ n + 2) := by
            refine not_or.mpr ⟨hshown, ?_⟩
            omega
          refine ⟨run, hrun, iff_of_false hreports.not_passed hover, ?_, ?_, ?_, ?_⟩
          · exact fun h => absurd h hquiet
          · exact fun _ h => nomatch h
          · exact fun _ _ heq => absurd heq (Nat.ne_of_gt hlt)
          · intro _ _ _
            rw [hm]
            exact hreports
        · obtain ⟨run, hrun, hpassed⟩ :=
            exists_run_of_tolerated hvalid hmake htolerates hshown heq.symm f
          have hwithin : t.HidesDefect ∨ steps ≤ n + 2 := Or.inr (Nat.le_of_eq heq.symm)
          refine ⟨run, hrun, iff_of_true hpassed.passed hwithin, ?_, ?_, ?_, ?_⟩
          · exact fun h => absurd h hquiet
          · exact fun _ h => nomatch h
          · exact fun _ _ _ => hpassed
          · exact fun _ _ hmore => absurd heq (Nat.ne_of_lt hmore)

/-- Over one element, a tolerant test with four operations. -/
theorem detects_legacyRemoval_asked :
    let t : Tester Nat :=
      ⟨[7], { order := .determinate, steps := 4, toleratesLegacyRemoval := true }⟩
    let make : Factory Unit (LegacyRemoval (Cursor Nat)) :=
      Factory.constant (.ofInner (.ofList [7]))
    LawfulBEq Nat ∧ t.settings.validate = .ok () ∧
      (∀ f, (make f).1 = .ok (.ofInner (.ofList [7]))) ∧
      ∃ run, t.test (LegacyRemoval.candidate Cursor.candidate) make () = .ok run ∧
        run.Reports 5 [.produceNext, .produceNext, .hasMore, .removeLast] 3 .removeLast
          (.unexpectedFault .illegalRemoval) := by
  intro t make
  have hmake : ∀ f, (make f).1 = .ok (.ofInner (.ofList [7])) := fun _ => rfl
  refine ⟨inferInstance, rfl, hmake, ?_⟩
  obtain ⟨run, hrun, -, -, -, -, hreports⟩ := detects_legacyRemoval t rfl hmake ()
  have hshown : ¬ t.HidesDefect := by
    rintro (h | h | h) <;> exact nomatch h
  exact ⟨run, hrun, hreports hshown rfl (by decide)⟩

end Tester

end Lockstep
