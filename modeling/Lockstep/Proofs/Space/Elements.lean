import Lockstep.Proofs.Space.Front
import Lockstep.Proofs.Space.Prefixes
import Mathlib.Data.List.Sort

/-!
# How many elements a space can tell apart

The number of expected elements enters a space only through the removals that are due.  More
elements make more productions count, so that more removals are due and no word is lost.  But words
of a fixed length cannot look far behind the last element: a production that finds nothing keeps
what is due, and so it takes a removal, one more production and a second removal to notice that an
element is missing.

The heart is `Word.Due.of_le_succ`: over `e` elements nothing is missed in front of position
`e + 2`.  Beyond it the word `Word.secondRemoval` tells `e` elements from more of them, so the bound
is exact.

* **`Space.words_sublist_withElements`** — more elements, more words.
* **`Space.words_withElements_of_steps_le`** — from `steps - 2` elements on there are no more.
* **`Space.emits_moreElements`** — two passes, over fewer and over more elements.
-/

namespace Lockstep

namespace Word

variable {n m : Nat}

/-- What is due for some elements is due for more of them. -/
theorem Due.mono {w : Word} {i : Nat} (h : Due n w i) (hle : n ≤ m) : Due m w i := by
  obtain ⟨j, hj, hprod, hcount, hbetween⟩ := h
  exact ⟨j, hj, hprod, Nat.lt_of_lt_of_le hcount hle, hbetween⟩

/-- A word that is no longer than its productions holds nothing else. -/
theorem eq_productions {w : Word} (h : w.length ≤ w.count .produceNext) :
    w = productions w.length := by
  have hcount : w.count .produceNext = w.length := Nat.le_antisymm List.count_le_length h
  rw [List.count_eq_length] at hcount
  exact List.eq_replicate_iff.mpr ⟨rfl, fun op hop => (hcount op hop).symm⟩

/-- **Saturation.**  In front of position `n + 2` more than `n` elements make nothing else due.  The
    only production that could count there for more of them stands at position `n`, behind
    productions alone, and the one just in front of it counts for `n` already. -/
theorem Due.of_le_succ {w : Word} {i : Nat} (h : Due m w i) (hpos : 0 < n) (hi : i ≤ n + 1) :
    Due n w i := by
  obtain ⟨j, hj, hprod, hcount, hbetween⟩ := h
  rcases Nat.lt_or_ge ((w.take j).count .produceNext) n with hlt | hge
  · exact ⟨j, hj, hprod, hlt, hbetween⟩
  · have hlen : (w.take j).length = j := by
      rw [List.length_take]
      exact Nat.min_eq_left (Nat.le_of_lt (List.getElem?_eq_some_iff.mp hprod).1)
    have hle : (w.take j).count .produceNext ≤ (w.take j).length := List.count_le_length
    obtain rfl : j = n := by omega
    have hall : w.take j = productions j := by
      have h := eq_productions (w := w.take j) (by omega)
      rwa [hlen] at h
    refine ⟨j - 1, by omega, ?_, ?_, ?_⟩
    · rw [← List.getElem?_take_of_lt (Nat.sub_lt hpos Nat.one_pos), hall]
      exact List.getElem?_replicate_of_lt (Nat.sub_lt hpos Nat.one_pos)
    · have hshort : (w.take (j - 1)).count .produceNext ≤ (w.take (j - 1)).length :=
        List.count_le_length
      rw [List.length_take] at hshort
      omega
    · intro k hk hki
      obtain rfl : k = j := by omega
      rw [hprod]
      exact fun h => nomatch h

/-- As many productions as there are elements, and two removals with one more production between
    them. -/
def secondRemoval (e n : Nat) : Word :=
  productions e ++ .removeLast :: .produceNext :: .removeLast :: productions n

@[simp] theorem length_secondRemoval (e n : Nat) : (secondRemoval e n).length = e + 3 + n := by
  simp [secondRemoval]
  omega

/-- The places of its removals. -/
theorem secondRemoval_removes {e n i : Nat} :
    (secondRemoval e n)[i]? = some .removeLast ↔ i = e ∨ i = e + 2 := by
  have hproductions : ∀ k m : Nat, (productions m)[k]? ≠ some .removeLast :=
    fun k m h => nomatch eq_of_mem_productions (List.mem_of_getElem? h)
  rcases Nat.lt_or_ge i e with hlt | hge
  · rw [secondRemoval, List.getElem?_append_left (by rwa [length_productions])]
    exact iff_of_false (hproductions i e) (by omega)
  · obtain ⟨k, rfl⟩ := Nat.exists_eq_add_of_le hge
    rw [secondRemoval, List.getElem?_append_right (by rwa [length_productions]),
      length_productions, Nat.add_sub_cancel_left]
    match k with
    | 0 | 2 => simp
    | 1 => simp
    | k + 3 => exact iff_of_false (hproductions k n) (by omega)

theorem due_first (e n : Nat) : Due m (secondRemoval e n) e ↔ 0 < m ∧ 0 < e := by
  rw [secondRemoval, due_append _ (by rw [length_productions]), due_productions]

/-- **The second removal** is due exactly if the production in front of it meets an element. -/
theorem due_second (e n : Nat) : Due m (secondRemoval e n) (e + 2) ↔ e < m := by
  let u : Word := productions e ++ [.removeLast]
  have hlen : u.length = e + 1 := by simp [u]
  have hcount : u.count .produceNext = e := by simp [u]
  have hremoved : ¬ Due m u u.length := by
    rw [hlen]
    have hsnoc := due_snoc (n := m) (productions e) .removeLast
    rw [length_productions] at hsnoc
    rw [hsnoc]
    rintro (⟨h, -⟩ | ⟨h, -⟩)
    · exact nomatch h
    · exact h rfl
  have hsplit : secondRemoval e n = (u ++ [.produceNext]) ++ .removeLast :: productions n := by
    simp [secondRemoval, u]
  have hsnoc := due_snoc (n := m) u .produceNext
  rw [hcount, hlen] at hsnoc
  rw [hsplit, due_append _ (by rw [List.length_append, hlen]; exact Nat.le_refl _), hsnoc, ← hlen]
  constructor
  · rintro (⟨-, hlt⟩ | ⟨-, hdue⟩)
    · exact hlt
    · exact absurd hdue hremoved
  · intro hlt
    exact Or.inl ⟨rfl, hlt⟩

end Word

namespace Space

variable {space : Space} {n : Nat}

/-- The space over another number of elements. -/
def withElements (space : Space) (n : Nat) : Space := { space with elements := n }

/-- If what is due for some elements is due for others, then so is what is legal. -/
theorem Legal.withElements {w : Word} (h : space.Legal w)
    (hdue : ∀ i, i < space.steps → Word.Due space.elements w i → Word.Due n w i) :
    (space.withElements n).Legal w := by
  refine ⟨h.length, h.readOnly, h.capped, ?_⟩
  intro hlegal i hi
  have hlt : i < space.steps := h.length ▸ (List.getElem?_eq_some_iff.mp hi).1
  exact hdue i hlt (h.due hlegal i hi)

/-- **More elements, more words.** -/
theorem words_subset_withElements (hle : space.elements ≤ n) :
    space.words ⊆ (space.withElements n).words := by
  intro w hw
  exact mem_words.mpr ((mem_words.mp hw).withElements fun i _ hdue => hdue.mono hle)

/-- **No more words** from `steps - 2` elements on. -/
theorem withElements_words_subset (hpos : 0 < space.elements)
    (hsteps : space.steps ≤ space.elements + 2) :
    (space.withElements n).words ⊆ space.words := by
  intro w hw
  have hlegal : ((space.withElements n).withElements space.elements).Legal w :=
    (mem_words.mp hw).withElements fun i hi hdue => by
      have hi : i < space.steps := hi
      exact hdue.of_le_succ hpos (by omega)
  exact mem_words.mpr hlegal

instance : Std.Antisymm (fun u v : Word => u < v) :=
  ⟨fun _ _ huv hvu => absurd hvu (List.lt_asymm huv)⟩

/-- Of two spaces the words ascend alike, so that the order of the common ones is the same. -/
theorem words_sublist_of_subset {a b : Space} (h : a.words ⊆ b.words) :
    a.words.Sublist b.words :=
  List.sublist_of_subperm_of_pairwise (List.subperm_of_subset (nodup_words a) h)
    (words_pairwise_lt a) (words_pairwise_lt b)

theorem words_sublist_withElements (hle : space.elements ≤ n) :
    space.words.Sublist (space.withElements n).words :=
  words_sublist_of_subset (words_subset_withElements hle)

theorem words_withElements_of_steps_le (hle : space.elements ≤ n) (hpos : 0 < space.elements)
    (hsteps : space.steps ≤ space.elements + 2) :
    (space.withElements n).words = space.words :=
  (words_sublist_of_subset (withElements_words_subset hpos hsteps)).antisymm
    (words_sublist_withElements hle)

/-! ## The bound is exact -/

theorem secondRemoval_mem_words (hmodifiable : space.features.contains .modifiable = true)
    (huncapped : space.removalCap = none) (hpos : 0 < space.elements)
    {e : Nat} (he : 0 < e) (hlt : e < space.elements) (hsteps : e + 3 ≤ space.steps) :
    Word.secondRemoval e (space.steps - e - 3) ∈ space.words := by
  refine mem_words.mpr ⟨?_, ?_, ?_, ?_⟩
  · rw [Word.length_secondRemoval]
    omega
  · rw [hmodifiable]
    exact fun h => nomatch h
  · intro cap hcap
    rw [huncapped] at hcap
    exact nomatch hcap
  · intro _ i hi
    rcases Word.secondRemoval_removes.mp hi with rfl | rfl
    · exact (Word.due_first _ _).mpr ⟨hpos, he⟩
    · exact (Word.due_second _ _).mpr hlt

theorem secondRemoval_notMem_words (hpruned : space.illegalRemovals = false) (k : Nat) :
    Word.secondRemoval space.elements k ∉ space.words := by
  intro hmem
  have hdue := (mem_words.mp hmem).due hpruned (space.elements + 2)
    (Word.secondRemoval_removes.mpr (Or.inr rfl))
  exact Nat.lt_irrefl _ ((Word.due_second _ _).mp hdue)

/-- **What more elements do to a space.**  Both passes begin.  What the one over fewer elements
    hands out is part of what the other one hands out, in the same order, and all of it while the
    words have at most two operations more than there are elements.  One operation more is enough to
    tell them apart, if removals are pruned and not capped. -/
theorem emits_moreElements (hle : space.elements ≤ n) (h : space.steps ≤ frameLimit) :
    ∃ ws ws', space.Emits ws ∧ (space.withElements n).Emits ws' ∧ ws.Sublist ws' ∧
      (1 ≤ space.elements → space.steps ≤ space.elements + 2 → ws = ws') ∧
      (space.features.contains .modifiable = true → space.illegalRemovals = false →
        space.removalCap = none → 1 ≤ space.elements → space.elements < n →
        space.elements + 3 ≤ space.steps →
          ws ≠ ws' ∧
            Word.secondRemoval space.elements (space.steps - space.elements - 3) ∈ ws' ∧
            Word.secondRemoval space.elements (space.steps - space.elements - 3) ∉ ws) := by
  refine ⟨space.words, (space.withElements n).words, emits_words h, emits_words h,
    words_sublist_withElements hle, ?_, ?_⟩
  · intro hpos hsteps
    exact (words_withElements_of_steps_le hle hpos hsteps).symm
  · intro hmodifiable hpruned huncapped hpos hlt hsteps
    have hmem : Word.secondRemoval space.elements (space.steps - space.elements - 3) ∈
        (space.withElements n).words :=
      @secondRemoval_mem_words (space.withElements n) hmodifiable huncapped
        (Nat.lt_of_lt_of_le hpos hle) _ hpos hlt hsteps
    have hnotMem := secondRemoval_notMem_words hpruned (space.steps - space.elements - 3)
    refine ⟨?_, hmem, hnotMem⟩
    intro heq
    exact hnotMem (heq ▸ hmem)

/-- Words of four operations over one element and over two: exactly one of them, with a second
    removal at its end, needs the second element. -/
theorem emits_moreElements_one_two :
    let space : Space := { steps := 4, features := .modifiable, elements := 1 }
    space.elements ≤ 2 ∧ space.steps ≤ frameLimit ∧ space.words.length = 33 ∧
      (space.withElements 2).words.length = 34 ∧
      ∃ ws ws', space.Emits ws ∧ (space.withElements 2).Emits ws' ∧ ws.Sublist ws' ∧
        ws ≠ ws' ∧ [.produceNext, .removeLast, .produceNext, .removeLast] ∈ ws' ∧
        [.produceNext, .removeLast, .produceNext, .removeLast] ∉ ws := by
  intro space
  obtain ⟨ws, ws', hws, hws', hsublist, -, hapart⟩ :=
    @emits_moreElements space 2 (by decide) (by decide)
  exact ⟨by decide, by decide, by decide, by decide, ws, ws', hws, hws', hsublist,
    hapart rfl rfl rfl (by decide) (by decide) (by decide)⟩

/-- The bound is needed: over words of `2 ^ 57 + 1` or of `2 ^ 63` operations nothing is handed out
    for two elements that could tell them from one. -/
theorem no_moreElements_behind_frameLimit :
    let space : Space := { steps := 144115188075855873, features := .modifiable, elements := 1 }
    let longer : Space := { steps := 9223372036854775808, features := .modifiable, elements := 1 }
    (1 ≤ space.elements ∧ space.elements < 2 ∧ space.elements + 3 ≤ space.steps ∧
      space.features.contains .modifiable = true ∧ space.illegalRemovals = false ∧
      space.removalCap = none ∧ ∀ ws', ¬ (space.withElements 2).Emits ws') ∧
    1 ≤ longer.elements ∧ longer.elements < 2 ∧ longer.elements + 3 ≤ longer.steps ∧
      longer.features.contains .modifiable = true ∧ longer.illegalRemovals = false ∧
      longer.removalCap = none ∧ ∀ ws', ¬ (longer.withElements 2).Emits ws' := by
  refine ⟨⟨by decide, by decide, by decide, rfl, rfl, rfl, ?_⟩, by decide, by decide, by decide,
    rfl, rfl, rfl, ?_⟩
  · intro ws' hemits
    exact absurd (emits_iff.mp hemits).1 (by decide)
  · intro ws' hemits
    exact absurd (emits_iff.mp hemits).1 (by decide)

end Space

end Lockstep
