import Lockstep.Proofs.Serving
import Mathlib.Data.List.DropRight

/-!
# Peeking is transparent

Asking a stream ahead of time moves it, so the calls made of the stream are not those made of the
candidate: a query asks it once, further queries ask it no more, and the production behind them
asks it no more either.  What a caller sees does not depend on any of this, whatever the stream;
an element may follow after nothing came.

The invariant says where the stream stands.  It was asked once for every production, and once more
while a query was made behind the last production; the result of that one call is remembered.

* **`Word.asksAhead_snoc`** — when a result is asked for ahead of time.
* **`Peeking.stateAfter_eq`** — the state behind any word, told by the word.
* **`Peeking.transparent`** — what every call answers, and how often the stream was asked.
-/

namespace Lockstep

universe u v

/-! ## Queries ahead of time -/

namespace Word

/-- A word **asks ahead** if a query was made since its last production, or since the start if it
    has none. -/
def AsksAhead (u : Word) : Prop := .hasMore ∈ u.rtakeWhile (· ≠ .produceNext)

instance decidableAsksAhead (u : Word) : Decidable u.AsksAhead :=
  inferInstanceAs (Decidable (_ ∈ _))

/-- How many results the calls of a word ask for: one for each production, and one more if the word
    asks ahead. -/
def asked (u : Word) : Nat := u.count .produceNext + if u.AsksAhead then 1 else 0

/-- **One more call.**  A query asks ahead, and a production uses up what was asked for. -/
theorem asksAhead_snoc (u : Word) (op : Operation) :
    AsksAhead (u ++ [op]) ↔ op = .hasMore ∨ (op ≠ .produceNext ∧ u.AsksAhead) := by
  rw [AsksAhead, AsksAhead, List.rtakeWhile_concat]
  cases op <;> simp

theorem asked_of_asksAhead {u : Word} (h : u.AsksAhead) :
    u.asked = u.count .produceNext + 1 := by rw [asked, if_pos h]

theorem asked_of_not_asksAhead {u : Word} (h : ¬ u.AsksAhead) :
    u.asked = u.count .produceNext := by rw [asked, if_neg h, Nat.add_zero]

/-- Calls that produce nothing do not change what the next production returns. -/
theorem count_append_of_notMem {v : Word} (u : Word) (hv : .produceNext ∉ v) :
    (u ++ v).count .produceNext = u.count .produceNext := by
  rw [List.count_append, List.count_eq_zero.mpr hv, Nat.add_zero]

end Word

namespace Peeking

variable {ι : Type u} {α : Type v} {next : ι → Option α × ι}

/-! ## The state behind a word -/

/-- **The state.**  The stream stands behind the results that were asked for, and the last of them
    is remembered while no production used it up. -/
theorem stateAfter_eq (next : ι → Option α × ι) (stream : ι) (u : Word) :
    (candidate next).stateAfter (ofStream stream) u =
      ⟨streamAfter next stream u.asked,
        if u.AsksAhead then some (result next stream (u.count .produceNext)) else none⟩ := by
  induction u using List.reverseRecOn with
  | nil => rfl
  | append_singleton u op ih =>
      have hpeek := peek_stateAfter next stream u
      have hcount := Word.count_snoc u op
      have hahead := Word.asksAhead_snoc u op
      rw [Candidate.stateAfter_snoc]
      generalize (candidate next).stateAfter (ofStream stream) u = p at ih hpeek ⊢
      cases op with
      | hasMore =>
          have hnow : Word.AsksAhead (u ++ [.hasMore]) := hahead.mpr (.inl rfl)
          show (hasMore next p).2 = _
          rw [hasMore, hpeek, Word.asked_of_asksAhead hnow, if_pos hnow, hcount]
          rfl
      | produceNext =>
          have hnot : ¬ Word.AsksAhead (u ++ [.produceNext]) := by simp [hahead]
          show (produceNext next p).2 = _
          rw [produceNext, hpeek, Word.asked_of_not_asksAhead hnot, if_neg hnot, hcount]
          rfl
      | removeLast =>
          have hsame : Word.AsksAhead (u ++ [.removeLast]) ↔ Word.AsksAhead u := by simp [hahead]
          have hasked : Word.asked (u ++ [.removeLast]) = Word.asked u :=
            congrArg₂ (· + ·) hcount (if_congr hsame rfl rfl)
          show p = _
          rw [ih, hasked, if_congr hsame rfl rfl, hcount]
          rfl

/-! ## Counting the calls of a stream -/

/-- A stream together with the number of times it was asked. -/
def counting (next : ι → Option α × ι) (s : ι × Nat) : Option α × (ι × Nat) :=
  ((next s.1).1, (next s.1).2, s.2 + 1)

theorem streamAfter_counting (next : ι → Option α × ι) (stream : ι) (k : Nat) :
    streamAfter (counting next) (stream, 0) k = (streamAfter next stream k, k) := by
  induction k with
  | zero => rfl
  | succ k ih =>
      rw [streamAfter, ih]
      rfl

/-! ## Transparency -/

/-- **Peeking is transparent.**  Behind any word the next production returns the result that comes
    next in the stream itself; a query answers whether the production that comes next will succeed,
    whatever is called in between; a removal is refused and changes nothing; and the stream was
    asked once for each production, and once more if the word asks ahead. -/
theorem transparent (next : ι → Option α × ι) (stream : ι) (u : Word) :
    let p := (candidate next).stateAfter (ofStream stream) u
    ((candidate next).perform .produceNext p).1 =
      (result next stream (u.count .produceNext)).elim (.failed .exhausted) .produced ∧
    (∀ v : Word, .produceNext ∉ v →
      ((candidate next).perform .hasMore p).1 =
        .hasMore ((candidate next).perform .produceNext
          ((candidate next).stateAfter (ofStream stream) (u ++ .hasMore :: v))).1.element?.isSome) ∧
    (candidate next).perform .removeLast p = (.failed .unsupported, p) ∧
    p.stream = streamAfter next stream u.asked ∧
    ((candidate (counting next)).stateAfter (ofStream (stream, 0)) u).stream =
      (streamAfter next stream u.asked, u.asked) := by
  refine ⟨perform_stateAfter next stream u .produceNext, ?_, rfl, ?_, ?_⟩
  · intro v hv
    have hcount : (u ++ .hasMore :: v).count .produceNext = u.count .produceNext :=
      Word.count_append_of_notMem u (by simpa using hv)
    rw [perform_stateAfter, perform_stateAfter, hcount]
    cases result next stream (u.count .produceNext) <;> rfl
  · rw [stateAfter_eq]
  · rw [stateAfter_eq, streamAfter_counting]

/-- A stream that goes on behind a gap: at the gap the query tells what the production behind it
    will come to. -/
theorem transparent_gap :
    ((candidate nextOfList).perform .hasMore
        ((candidate nextOfList).stateAfter (ofStream [some 1, none, some 2]) [.produceNext])).1 =
      .hasMore ((candidate nextOfList).perform .produceNext
        ((candidate nextOfList).stateAfter (ofStream [some 1, none, some 2])
          [.produceNext, .hasMore, .removeLast, .hasMore])).1.element?.isSome :=
  (transparent nextOfList [some 1, none, some 2] [.produceNext]).2.1 [.removeLast, .hasMore]
    (by decide)

end Peeking

end Lockstep
