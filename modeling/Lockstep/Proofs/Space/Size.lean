import Lockstep.Proofs.Space.Elements
import Mathlib.Algebra.BigOperators.Intervals
import Mathlib.Algebra.BigOperators.Ring.Finset
import Mathlib.Data.Nat.Choose.Basic
import Mathlib.Data.Nat.Fib.Basic

/-!
# The size of a space

How many words a space has is decided at each place by one question: may a removal stand there?  A
production and the question for more always may, so one place multiplies the number of words by two
or by three, and the size lies between the powers of these.

In between it depends on what a removal is made to wait for.  Where it waits for nothing, the words
are counted by how many removals they have, and the cap ends the sum.  Where it waits for a
production, two numbers grow together, the words behind a state with the marker set and those behind
one without, and they are neighbours in the Fibonacci sequence, as long as no production can fail.
It is `Space.words_withElements_of_steps_le` that carries this to words longer than the list.

* **`Space.length_extensions_succ`** — the recurrence that all of this comes from.
* **`Space.length_words_eq_sum_choose`**, **`Space.length_words_eq_fib`** — the two closed forms.
* **`Space.count_eq_ok`** — what a counter of 64 bits makes of the size.
-/

namespace Lockstep

namespace Space

variable {space : Space}

/-! ## One place -/

/-- **The recurrence.**  Behind a place stand the words behind a production, those behind a query,
    and where a removal is permitted also those behind a removal. -/
theorem length_extensions_succ (space : Space) (n : Nat) (s : Shape) (r : Nat) :
    (space.extensions (n + 1) s r).length =
      (space.extensions n (s.after .produceNext) r).length + (space.extensions n s r).length +
        if space.permits s .removeLast r then
          (space.extensions n (s.after .removeLast) (r + 1)).length
        else 0 := by
  rw [extensions, choices_eq]
  cases space.permits s .removeLast r <;>
    simp [Word.removals_cons, Shape.after, Nat.add_assoc]

theorem two_pow_le_length_extensions (space : Space) (n : Nat) (s : Shape) (r : Nat) :
    2 ^ n ≤ (space.extensions n s r).length := by
  induction n generalizing s r with
  | zero => exact Nat.le_refl 1
  | succ n ih =>
      have hproduced := ih (s.after .produceNext) r
      have hasked := ih s r
      rw [length_extensions_succ, Nat.pow_succ]
      omega

theorem length_extensions_le_three_pow (space : Space) (n : Nat) (s : Shape) (r : Nat) :
    (space.extensions n s r).length ≤ 3 ^ n := by
  induction n generalizing s r with
  | zero => exact Nat.le_refl 1
  | succ n ih =>
      have hproduced := ih (s.after .produceNext) r
      have hasked := ih s r
      have hremoved := ih (s.after .removeLast) (r + 1)
      rw [length_extensions_succ, Nat.pow_succ]
      split <;> omega

/-- **No removal anywhere**: each place has two choices. -/
theorem length_extensions_of_no_removal {s : Shape} (n r : Nat)
    (h : ∀ (u : Word) (r : Nat), space.permits (s.afterAll u) .removeLast r = false) :
    (space.extensions n s r).length = 2 ^ n := by
  induction n generalizing s r with
  | zero => rfl
  | succ n ih =>
      have hhere : space.permits s .removeLast r = false := h [] r
      rw [length_extensions_succ, hhere, ih r fun u => h (.produceNext :: u), ih r h,
        Nat.pow_succ]
      simp
      omega

/-! ## Removals that wait for nothing -/

/-- How many words of `n` operations have at most `m` removals, counted by their removals. -/
def sizeWithin (m n : Nat) : Nat := ∑ k ∈ Finset.range (min m n + 1), n.choose k * 2 ^ (n - k)

/-- No word has more removals than operations. -/
theorem sizeWithin_eq (m n : Nat) :
    sizeWithin m n = ∑ k ∈ Finset.range (m + 1), n.choose k * 2 ^ (n - k) := by
  refine Finset.sum_subset (Finset.range_subset_range.mpr (by omega)) ?_
  intro k hk hnot
  rw [Finset.mem_range] at hk hnot
  rw [Nat.choose_eq_zero_of_lt (by omega), Nat.zero_mul]

theorem sizeWithin_zero_right (m : Nat) : sizeWithin m 0 = 1 := by simp [sizeWithin]

theorem sizeWithin_zero_left (n : Nat) : sizeWithin 0 n = 2 ^ n := by simp [sizeWithin]

/-- One more place for `k + 1` removals: the first operation is one of them, or one of the two
    others. -/
theorem choose_mul_two_pow_succ (n k : Nat) :
    (n + 1).choose (k + 1) * 2 ^ (n + 1 - (k + 1)) =
      n.choose k * 2 ^ (n - k) + 2 * (n.choose (k + 1) * 2 ^ (n - (k + 1))) := by
  rw [Nat.choose_succ_succ, Nat.add_sub_add_right, Nat.add_mul]
  congr 1
  rcases Nat.lt_or_ge n (k + 1) with hlt | hge
  · rw [Nat.choose_eq_zero_of_lt hlt, Nat.zero_mul, Nat.zero_mul]
  · have hexp : n - k = n - (k + 1) + 1 := by omega
    rw [hexp, Nat.pow_succ, Nat.mul_left_comm 2, Nat.mul_comm 2]

/-- **Pascal's rule**, summed up to the cap. -/
theorem sizeWithin_succ (m n : Nat) :
    sizeWithin (m + 1) (n + 1) = 2 * sizeWithin (m + 1) n + sizeWithin m n := by
  have hfirst : (n + 1).choose 0 * 2 ^ (n + 1 - 0) = 2 * (n.choose 0 * 2 ^ (n - 0)) := by
    simp [Nat.pow_succ, Nat.mul_comm]
  rw [sizeWithin_eq, sizeWithin_eq, sizeWithin_eq, Finset.sum_range_succ',
    Finset.sum_range_succ' _ (m + 1), hfirst]
  simp only [choose_mul_two_pow_succ, Finset.sum_add_distrib, Nat.mul_add, Finset.mul_sum]
  omega

/-- Removals that wait for nothing are permitted up to the cap. -/
theorem permits_removeLast_of_illegal (hmodifiable : space.features.contains .modifiable = true)
    (hillegal : space.illegalRemovals = true) (s : Shape) (r : Nat) :
    space.permits s .removeLast r = space.removalCap.all (r < ·) := by
  rw [permits_removeLast, hmodifiable, hillegal, Bool.or_true, Bool.and_true, Bool.true_and]

theorem length_extensions_of_capped (hmodifiable : space.features.contains .modifiable = true)
    (hillegal : space.illegalRemovals = true) {cap : Nat} (hcap : space.removalCap = some cap)
    (n m : Nat) (s : Shape) (r : Nat) (hr : r + m = cap) :
    (space.extensions n s r).length = sizeWithin m n := by
  induction n generalizing s r m with
  | zero => exact (sizeWithin_zero_right m).symm
  | succ n ih =>
      rw [length_extensions_succ, permits_removeLast_of_illegal hmodifiable hillegal, hcap,
        ih m _ r hr, ih m s r hr]
      cases m with
      | zero =>
          -- the cap is reached
          have hnot : ¬ r < cap := by omega
          simp only [Option.all_some, hnot, decide_false, Bool.false_eq_true, ↓reduceIte,
            sizeWithin_zero_left, Nat.pow_succ]
          omega
      | succ m =>
          have hlt : r < cap := by omega
          simp only [Option.all_some, hlt, decide_true, ↓reduceIte, sizeWithin_succ,
            ih m _ (r + 1) (by omega)]
          omega

theorem length_extensions_of_uncapped (hmodifiable : space.features.contains .modifiable = true)
    (hillegal : space.illegalRemovals = true) (huncapped : space.removalCap = none)
    (n : Nat) (s : Shape) (r : Nat) : (space.extensions n s r).length = 3 ^ n := by
  induction n generalizing s r with
  | zero => rfl
  | succ n ih =>
      rw [length_extensions_succ, permits_removeLast_of_illegal hmodifiable hillegal, huncapped,
        ih, ih, ih, Option.all_none, if_pos rfl, Nat.pow_succ]
      omega

/-! ## Removals that wait for a production -/

/-- **Neighbours in the Fibonacci sequence.**  While no production can fail, the words behind a
    state without the marker and behind one with it follow each other there: a production sets the
    marker, a removal clears it, and a question leaves it. -/
theorem length_extensions_eq_fib (hmodifiable : space.features.contains .modifiable = true)
    (hpruned : space.illegalRemovals = false) (huncapped : space.removalCap = none)
    (n : Nat) (s : Shape) (r : Nat) (hpending : n ≤ s.pending) :
    (space.extensions n s r).length = Nat.fib (2 * n + 1 + if s.canRemove then 1 else 0) := by
  have hpermits : ∀ (s : Shape) (r : Nat), space.permits s .removeLast r = s.canRemove := by
    intro s r
    rw [permits_removeLast, hmodifiable, hpruned, huncapped]
    simp
  induction n generalizing s r with
  | zero => cases h : s.canRemove <;> rfl
  | succ n ih =>
      have hpos : 0 < s.pending := by omega
      have hproduced := ih (s.after .produceNext) r (by simp [Shape.after, hpos]; omega)
      have hasked := ih s r (by omega)
      have hnext : Nat.fib (2 * n + 3) = Nat.fib (2 * n + 1) + Nat.fib (2 * n + 2) :=
        Nat.fib_add_two
      have hmarked : (s.after .produceNext).canRemove = true := by simp [Shape.after, hpos]
      rw [hmarked, if_pos rfl] at hproduced
      rw [length_extensions_succ, hpermits, hproduced, hasked]
      cases hmark : s.canRemove with
      | false =>
          show Nat.fib (2 * n + 2) + Nat.fib (2 * n + 1) + 0 = Nat.fib (2 * n + 3)
          omega
      | true =>
          have hremoved := ih (s.after .removeLast) (r + 1) (by simp [Shape.after, hmark]; omega)
          have hcleared : (s.after .removeLast).canRemove = false := by simp [Shape.after, hmark]
          rw [hcleared] at hremoved
          have hlast : Nat.fib (2 * n + 4) = Nat.fib (2 * n + 2) + Nat.fib (2 * n + 3) :=
            Nat.fib_add_two
          rw [if_pos rfl, hremoved]
          show Nat.fib (2 * n + 2) + Nat.fib (2 * n + 2) + Nat.fib (2 * n + 1) =
            Nat.fib (2 * n + 4)
          omega

/-! ## The whole space -/

theorem two_pow_le_length_words (space : Space) : 2 ^ space.steps ≤ space.words.length :=
  two_pow_le_length_extensions space _ _ _

theorem length_words_le_three_pow (space : Space) : space.words.length ≤ 3 ^ space.steps :=
  length_extensions_le_three_pow space _ _ _

theorem length_words_of_readOnly (hread : space.features.contains .modifiable = false) :
    space.words.length = 2 ^ space.steps := by
  refine length_extensions_of_no_removal _ _ fun u r => ?_
  rw [permits_removeLast, hread, Bool.false_and]

/-- Over no elements nothing is ever due. -/
theorem length_words_of_no_elements (hpruned : space.illegalRemovals = false)
    (hempty : space.elements = 0) : space.words.length = 2 ^ space.steps := by
  refine length_extensions_of_no_removal _ _ fun u r => ?_
  have hmark : ((Shape.initial space.elements).afterAll u).canRemove = false := by
    rw [hempty, Bool.eq_false_iff, ne_eq, Shape.canRemove_iff_due]
    rintro ⟨j, -, -, hcount, -⟩
    exact Nat.not_lt_zero _ hcount
  rw [permits_removeLast, hmark, hpruned]
  simp

theorem length_words_eq_sum_choose (hmodifiable : space.features.contains .modifiable = true)
    (hillegal : space.illegalRemovals = true) {cap : Nat} (hcap : space.removalCap = some cap) :
    space.words.length =
      ∑ k ∈ Finset.range (min cap space.steps + 1),
        space.steps.choose k * 2 ^ (space.steps - k) :=
  length_extensions_of_capped hmodifiable hillegal hcap _ cap _ 0 (Nat.zero_add cap)

theorem length_words_eq_three_pow (hmodifiable : space.features.contains .modifiable = true)
    (hillegal : space.illegalRemovals = true) (huncapped : space.removalCap = none) :
    space.words.length = 3 ^ space.steps :=
  length_extensions_of_uncapped hmodifiable hillegal huncapped _ _ _

/-- **The Fibonacci number.**  Over more elements there would be no more words, and over many more
    of them no production fails. -/
theorem length_words_eq_fib (hmodifiable : space.features.contains .modifiable = true)
    (hpruned : space.illegalRemovals = false) (huncapped : space.removalCap = none)
    (hpos : 0 < space.elements) (hsteps : space.steps ≤ space.elements + 2) :
    space.words.length = Nat.fib (2 * space.steps + 1) := by
  have hmany : space.steps ≤ (Shape.initial (space.elements + space.steps)).pending :=
    Nat.le_add_left _ _
  rw [← words_withElements_of_steps_le (Nat.le_add_right _ space.steps) hpos hsteps]
  exact @length_extensions_eq_fib (space.withElements (space.elements + space.steps)) hmodifiable
    hpruned huncapped space.steps _ 0 hmany

/-! ## Counting with 64 bits -/

theorem foldlM_tick {ws : List Word} {m n : Nat} (hm : m < counterLimit) :
    ws.foldlM tick m = .ok n ↔ m + ws.length = n ∧ n < counterLimit := by
  induction ws generalizing m with
  | nil =>
      rw [List.length_nil, Nat.add_zero]
      constructor
      · intro h
        obtain rfl := Except.ok.inj h
        exact ⟨rfl, hm⟩
      · rintro ⟨rfl, -⟩
        rfl
  | cons w ws ih =>
      rw [List.foldlM_cons, tick, List.length_cons]
      by_cases hroom : m + 1 < counterLimit
      · rw [if_pos hroom, ← Nat.add_assoc, Nat.add_right_comm, ← ih hroom]
        rfl
      · rw [if_neg hroom]
        refine iff_of_false (fun h => nomatch h) ?_
        rintro ⟨rfl, hlt⟩
        omega

/-- **The count of a space** is the number of its words, if there are fewer than `2 ^ 64`.  Such
    words are short, so that there is room for all frames. -/
theorem count_eq_ok {n : Nat} :
    space.count = .ok n ↔ space.words.length = n ∧ n < counterLimit := by
  rw [count]
  by_cases hroom : space.steps ≤ frameLimit
  · rw [foldUntil_eq_foldlM hroom, foldlM_tick (by decide), Nat.zero_add]
  · rw [foldUntil_overflow (Nat.lt_of_not_le hroom)]
    refine iff_of_false (fun h => nomatch h) ?_
    rintro ⟨rfl, hlt⟩
    have hlower := two_pow_le_length_words space
    have hsteps : 2 ^ space.steps < 2 ^ 64 := Nat.lt_of_le_of_lt hlower hlt
    have hshort : space.steps < 64 := (Nat.pow_lt_pow_iff_right (by decide)).mp hsteps
    exact hroom (Nat.le_trans (Nat.le_of_lt hshort) (by decide))

end Space

end Lockstep
