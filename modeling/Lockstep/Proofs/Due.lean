import Lockstep.Shape
import Lockstep.Word
import Mathlib.Data.List.Induction

/-!
# Removals that are due

Whether a removal makes sense is a fact about the word before it: some production met a pending
element, and no removal stands between the two.  `Word.Due` says so without a state; this file
shows that the marker and the pending count of a `Shape` record exactly that.

* **`Word.due_snoc`** — what one more operation does to a removal that is due.
* **`Shape.canRemove_iff_due`** — the removal marker after a word is `Word.Due` at its end.
-/

namespace Lockstep

/-- A removal at position `i` of a word is **due** for `n` elements: a production before it met
    one of them, and no removal stands in between. -/
def Word.Due (n : Nat) (w : Word) (i : Nat) : Prop :=
  ∃ j, j < i ∧ w[j]? = some .produceNext ∧ (w.take j).count .produceNext < n ∧
    ∀ k, j < k → k < i → w[k]? ≠ some .removeLast

namespace Word

variable {n : Nat}

/-- Nothing is due before the first operation. -/
theorem not_due_zero (w : Word) : ¬ Due n w 0 := by
  rintro ⟨j, hj, -⟩
  exact Nat.not_lt_zero j hj

/-- Only the operations in front of a position decide what is due there. -/
theorem due_append {u : Word} {i : Nat} (v : Word) (hi : i ≤ u.length) :
    Due n (u ++ v) i ↔ Due n u i := by
  have hget : ∀ k, k < i → (u ++ v)[k]? = u[k]? := by
    intro k hk
    exact List.getElem?_append_left (by omega)
  have htake : ∀ j, j < i → (u ++ v).take j = u.take j := by
    intro j hj
    exact List.take_append_of_le_length (by omega)
  constructor
  · rintro ⟨j, hj, hprod, hcount, hbetween⟩
    refine ⟨j, hj, (hget j hj) ▸ hprod, (htake j hj) ▸ hcount, ?_⟩
    intro k hjk hk
    rw [← hget k hk]
    exact hbetween k hjk hk
  · rintro ⟨j, hj, hprod, hcount, hbetween⟩
    refine ⟨j, hj, (hget j hj).trans hprod, (htake j hj).symm ▸ hcount, ?_⟩
    intro k hjk hk
    rw [hget k hk]
    exact hbetween k hjk hk

theorem due_take {w : Word} {i : Nat} (hi : i ≤ w.length) :
    Due n (w.take i) i ↔ Due n w i := by
  have hlen : i ≤ (w.take i).length := by rw [List.length_take]; omega
  have h := due_append (n := n) (w.drop i) hlen
  rw [List.take_append_drop] at h
  exact h.symm

/-- **One more operation.**  A production that meets an element makes a removal due, and whatever
    is due stays due until a removal. -/
theorem due_snoc (u : Word) (op : Operation) :
    Due n (u ++ [op]) (u.length + 1) ↔
      (op = .produceNext ∧ u.count .produceNext < n) ∨
        (op ≠ .removeLast ∧ Due n u u.length) := by
  have hlast : (u ++ [op])[u.length]? = some op := List.getElem?_concat_length
  constructor
  · rintro ⟨j, hj, hprod, hcount, hbetween⟩
    by_cases hju : j = u.length
    · -- the production that counts is the new operation itself
      subst hju
      rw [hlast] at hprod
      rw [List.take_left] at hcount
      exact Or.inl ⟨Option.some.inj hprod, hcount⟩
    · have hlt : j < u.length := by omega
      refine Or.inr ⟨?_, (due_append [op] (Nat.le_refl _)).mp ⟨j, hlt, hprod, hcount, ?_⟩⟩
      · intro hop
        exact hbetween u.length hlt (Nat.lt_succ_self _) (by rw [hlast, hop])
      · intro k hjk hk
        exact hbetween k hjk (by omega)
  · rintro (⟨rfl, hcount⟩ | ⟨hop, hdue⟩)
    · refine ⟨u.length, Nat.lt_succ_self _, hlast, by rwa [List.take_left], ?_⟩
      intro k hk hk'
      omega
    · obtain ⟨j, hj, hprod, hcount, hbetween⟩ := (due_append [op] (Nat.le_refl _)).mpr hdue
      refine ⟨j, by omega, hprod, hcount, ?_⟩
      intro k hjk hk
      by_cases hku : k = u.length
      · rw [hku, hlast]
        exact fun h => hop (Option.some.inj h)
      · exact hbetween k hjk (by omega)

/-- What is due stays due over a list that no production in front lies behind. -/
theorem Due.of_count_le {m : Nat} {u : Word} (h : Due n u u.length)
    (hm : u.count .produceNext ≤ m) : Due m u u.length := by
  obtain ⟨j, hj, hprod, -, hbetween⟩ := h
  refine ⟨j, hj, hprod, ?_, hbetween⟩
  -- the production that makes it due is counted as well
  have hone : (u.take (j + 1)).count .produceNext = (u.take j).count .produceNext + 1 := by
    rw [List.take_add_one, hprod, List.count_append]
    rfl
  have hall : (u.take (j + 1)).count .produceNext ≤ u.count .produceNext :=
    (List.take_sublist _ _).count_le _
  omega

end Word

namespace Shape

/-- A production takes one pending element, if there is one. -/
theorem pending_after (s : Shape) (op : Operation) :
    (s.after op).pending = s.pending - if op = .produceNext then 1 else 0 := by
  cases op with
  | hasMore => rfl
  | produceNext =>
      by_cases hpos : 0 < s.pending
      · simp [after, hpos]
      · have hzero : s.pending = 0 := by omega
        simp [after, hzero]
  | removeLast => cases hmark : s.canRemove <;> simp [after, hmark]

/-- The marker is set by a production that takes an element, and cleared by every removal. -/
theorem canRemove_after (s : Shape) (op : Operation) :
    (s.after op).canRemove = true ↔
      (op = .produceNext ∧ 0 < s.pending) ∨ (op ≠ .removeLast ∧ s.canRemove = true) := by
  cases op with
  | hasMore => simp [after]
  | produceNext => by_cases hpos : 0 < s.pending <;> simp [after, hpos]
  | removeLast => cases hmark : s.canRemove <;> simp [after, hmark]

theorem pending_afterAll (n : Nat) (u : Word) :
    ((initial n).afterAll u).pending = n - u.count .produceNext := by
  induction u using List.reverseRecOn with
  | nil => rfl
  | append_singleton u op ih =>
      rw [afterAll_append, afterAll_cons, afterAll_nil, pending_after, ih, List.count_append,
        List.count_singleton]
      cases op <;> simp
      omega

/-- **The marker is what is due.**  Induction on the word from its end: both sides change alike
    with one more operation. -/
theorem canRemove_iff_due (n : Nat) (u : Word) :
    ((initial n).afterAll u).canRemove = true ↔ Word.Due n u u.length := by
  induction u using List.reverseRecOn with
  | nil => exact iff_of_false (by simp [initial]) (Word.not_due_zero [])
  | append_singleton u op ih =>
      rw [afterAll_append, afterAll_cons, afterAll_nil, canRemove_after, ih, pending_afterAll,
        List.length_append, List.length_singleton, Word.due_snoc]
      have hpos : 0 < n - u.count .produceNext ↔ u.count .produceNext < n := by omega
      rw [hpos]

/-- With no production behind the last of either list, both make the same removals due. -/
theorem canRemove_eq_of_count_le {n m : Nat} {u : Word} (hn : u.count .produceNext ≤ n)
    (hm : u.count .produceNext ≤ m) :
    ((initial n).afterAll u).canRemove = ((initial m).afterAll u).canRemove := by
  rw [Bool.eq_iff_iff, canRemove_iff_due, canRemove_iff_due]
  exact ⟨fun h => h.of_count_le hm, fun h => h.of_count_le hn⟩

/-- In front of any position the marker says what is due there. -/
theorem canRemove_take_iff_due {n : Nat} {w : Word} {i : Nat} (hi : i ≤ w.length) :
    ((initial n).afterAll (w.take i)).canRemove = true ↔ Word.Due n w i := by
  rw [canRemove_iff_due, List.length_take, Nat.min_eq_left hi, Word.due_take hi]

end Shape

end Lockstep
