import Lockstep.Proofs.Space.Words

/-!
# The front of a space

Productions are permitted everywhere and tried first, so the search goes straight down through
productions before it does anything else.  The words that a space lists first are those that begin
with as many productions as fit, and what follows there is listed like the words of a short space.

* **`Space.exists_extensions_eq`** — the front of an enumeration, with any number of productions.
* **`Space.exists_words_eq`** — the front of a space, from the ends of its first words.
-/

namespace Lockstep

/-- The word of `n` productions. -/
def Word.productions (n : Nat) : Word := List.replicate n .produceNext

namespace Word

@[simp] theorem length_productions (n : Nat) : (productions n).length = n := List.length_replicate

@[simp] theorem count_productions (n : Nat) : (productions n).count .produceNext = n :=
  List.count_replicate_self

theorem productions_succ (n : Nat) : productions (n + 1) = productions n ++ [.produceNext] :=
  List.replicate_succ'

theorem productions_eq_of_lt {i n : Nat} (h : i < n) :
    productions n = productions i ++ .produceNext :: productions (n - i - 1) := by
  have hsplit : n = i + (n - i - 1 + 1) := by omega
  calc productions n
      = productions (i + (n - i - 1 + 1)) := congrArg productions hsplit
    _ = productions i ++ productions (n - i - 1 + 1) := List.replicate_append_replicate.symm

theorem eq_of_mem_productions {n : Nat} {op : Operation} (h : op ∈ productions n) :
    op = .produceNext :=
  List.eq_of_mem_replicate h

theorem getLast?_productions {n : Nat} (h : 0 < n) :
    (productions n).getLast? = some .produceNext := by
  obtain ⟨m, rfl⟩ := Nat.exists_eq_succ_of_ne_zero (Nat.ne_of_gt h)
  rw [productions_succ, List.getLast?_concat]

/-- Behind productions a removal is due if at least one of them met an element. -/
theorem due_productions {e n : Nat} : Due e (productions n) n ↔ 0 < e ∧ 0 < n := by
  constructor
  · rintro ⟨j, hj, -, hcount, -⟩
    exact ⟨Nat.lt_of_le_of_lt (Nat.zero_le _) hcount, Nat.lt_of_le_of_lt (Nat.zero_le _) hj⟩
  · rintro ⟨he, hn⟩
    refine ⟨0, hn, List.getElem?_replicate_of_lt hn, ?_, ?_⟩
    · rw [List.take_zero]
      exact he
    · intro k _ _ hk
      exact nomatch eq_of_mem_productions (List.mem_of_getElem? hk)

end Word

theorem Shape.canRemove_productions {e n : Nat} :
    ((initial e).afterAll (Word.productions n)).canRemove = true ↔ 0 < e ∧ 0 < n := by
  rw [canRemove_iff_due, Word.length_productions, Word.due_productions]

namespace Space

variable {space : Space}

theorem choices_eq (space : Space) (s : Shape) (r : Nat) :
    space.choices s r =
      .produceNext :: .hasMore :: if space.permits s .removeLast r then [.removeLast] else [] := by
  have hproduce : space.permits s .produceNext r = true :=
    permits_of_ne_removeLast (by decide) space s r
  have hmore : space.permits s .hasMore r = true :=
    permits_of_ne_removeLast (by decide) space s r
  cases hremove : space.permits s .removeLast r <;>
    simp [choices, Operation.all, hproduce, hmore, hremove]

/-- Where a removal is permitted, all three operations complete a word. -/
theorem extensions_one {s : Shape} {r : Nat} (h : space.permits s .removeLast r = true) :
    space.extensions 1 s r = [[.produceNext], [.hasMore], [.removeLast]] := by
  simp [extensions, choices_eq, h]

/-- Where the shape permits removals, it permits them behind a question as well. -/
theorem extensions_two {s : Shape} {r : Nat}
    (hproduced : space.permits (s.after .produceNext) .removeLast r = true)
    (hasked : space.permits s .removeLast r = true) :
    ∃ others, space.extensions 2 s r =
      [[.produceNext, .produceNext], [.produceNext, .hasMore], [.produceNext, .removeLast],
        [.hasMore, .produceNext], [.hasMore, .hasMore], [.hasMore, .removeLast]] ++ others := by
  have hfirst : space.extensions 1 (s.after .produceNext) (r + Word.removals [.produceNext]) = _ :=
    extensions_one hproduced
  have hsecond : space.extensions 1 (s.after .hasMore) (r + Word.removals [.hasMore]) = _ :=
    extensions_one hasked
  rw [extensions, choices_eq, List.flatMap_cons, List.flatMap_cons, hfirst, hsecond,
    ← List.append_assoc]
  exact ⟨_, rfl⟩

/-- **The front of an enumeration.**  Induction on the number of productions: each is the first
    choice at its place. -/
theorem exists_extensions_eq (space : Space) (n m : Nat) (s : Shape) (r : Nat) :
    ∃ rest, space.extensions (n + m) s r =
      (space.extensions m (s.afterAll (Word.productions n)) r).map (Word.productions n ++ ·) ++
        rest := by
  induction n generalizing s with
  | zero => exact ⟨[], by simp [Word.productions]⟩
  | succ n ih =>
      obtain ⟨rest, hrest⟩ := ih (s.after .produceNext)
      -- a production adds no removal to the count
      have hfirst : space.extensions (n + m) (s.after .produceNext)
          (r + Word.removals [.produceNext]) = _ := hrest
      rw [Nat.add_right_comm, extensions, choices_eq, List.flatMap_cons, hfirst, List.map_append,
        List.map_map, List.append_assoc]
      exact ⟨_, rfl⟩

/-- **The front of a space**: behind as many productions as the ends of the first words leave room
    for, these ends come in order. -/
theorem exists_words_eq (space : Space) {n m : Nat} {ends others : List Word}
    (hsteps : space.steps = n + m)
    (hends : space.extensions m ((Shape.initial space.elements).afterAll (Word.productions n)) 0 =
      ends ++ others) :
    ∃ rest, space.words = ends.map (Word.productions n ++ ·) ++ rest := by
  obtain ⟨rest, hrest⟩ := exists_extensions_eq space n m (.initial space.elements) 0
  rw [words, hsteps, hrest, hends, List.map_append, List.append_assoc]
  exact ⟨_, rfl⟩

/-- Nothing but productions comes first. -/
theorem exists_words_eq_productions (space : Space) :
    ∃ rest, space.words = Word.productions space.steps :: rest := by
  have hends : space.extensions 0
      ((Shape.initial space.elements).afterAll (Word.productions space.steps)) 0 = [[]] ++ [] := rfl
  obtain ⟨rest, hrest⟩ := space.exists_words_eq (Nat.add_zero _).symm hends
  exact ⟨rest, by rw [hrest]; simp⟩

end Space

end Lockstep
