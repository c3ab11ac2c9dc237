import Lockstep.Proofs.Due
import Lockstep.Space

/-!
# The words of a space

`Space.words` lists a space by recursion, and prunes as it goes.  This file says which list that
is, without a recursion: its words ascend strictly, and they are the `Legal` ones.

The bridge is `Permitted`, the pruning predicate at every place of a word.  The recursion lists
exactly the permitted words of its length (`mem_extensions`); from the initial shape, permitted
at every place is legal as a whole (`permitted_initial_iff`), because the marker of a shape is
`Word.Due` and the running count of removals stays below the cap exactly if the total does.
-/

namespace Lockstep

instance : Std.Asymm (fun a b : Operation => a < b) := ⟨fun _ _ => Nat.lt_asymm⟩

namespace Operation

theorem all_pairwise_lt : all.Pairwise (· < ·) := by decide

end Operation

namespace Word

/-- Removals are counted operation by operation. -/
theorem removals_cons_add (op : Operation) (w : Word) :
    removals (op :: w) = removals [op] + removals w :=
  removals_append [op] w

/-- The cap seen from inside: a word has at most `cap` removals, on top of `r` earlier ones,
    exactly if each of them finds fewer than `cap` before it. -/
theorem removals_le_iff {cap : Nat} (w : Word) (r : Nat) (hr : r ≤ cap) :
    r + removals w ≤ cap ↔
      ∀ i : Nat, w[i]? = some .removeLast → r + removals (w.take i) < cap := by
  induction w generalizing r with
  | nil => simpa using hr
  | cons op w ih =>
      have hcons : ∀ i, r + removals ((op :: w).take (i + 1)) =
          r + removals [op] + removals (w.take i) := by
        intro i
        rw [List.take_succ_cons, removals_cons_add, Nat.add_assoc]
      rw [removals_cons_add, ← Nat.add_assoc]
      constructor
      · intro hle i hi
        cases i with
        | zero =>
            -- the first operation is itself a removal, so the total has room for it
            have hop : op = .removeLast := by simpa using hi
            rw [hop] at hle
            simp only [removals_cons, removals_nil, ↓reduceIte] at hle
            simp only [List.take_zero, removals_nil]
            omega
        | succ i =>
            rw [hcons]
            exact (ih _ (by omega)).mp hle i (by simpa using hi)
      · intro h
        have hfirst : r + removals [op] ≤ cap := by
          by_cases hop : op = .removeLast
          · have h0 := h 0 (by simp [hop])
            simp only [List.take_zero, removals_nil] at h0
            simp only [removals_cons, removals_nil, hop, ↓reduceIte]
            omega
          · simpa [removals_cons, hop] using hr
        refine (ih _ hfirst).mpr ?_
        intro i hi
        rw [← hcons]
        exact h (i + 1) (by simpa using hi)

end Word

namespace Space

variable {space : Space}

/-! ## The order of the words -/

/-- The operations that may extend a word are tried in ascending order. -/
theorem choices_pairwise_lt (space : Space) (s : Shape) (r : Nat) :
    (space.choices s r).Pairwise (· < ·) :=
  Operation.all_pairwise_lt.sublist List.filter_sublist

/-- Extensions ascend strictly in lexicographic order.  Induction on their length: words with
    different first operations compare by these, the others by what follows. -/
theorem extensions_pairwise_lt (space : Space) (n : Nat) (s : Shape) (r : Nat) :
    (space.extensions n s r).Pairwise (· < ·) := by
  induction n generalizing s r with
  | zero => exact List.pairwise_singleton _ _
  | succ n ih =>
      rw [extensions, List.pairwise_flatMap]
      refine ⟨?_, (choices_pairwise_lt space s r).imp ?_⟩
      · -- one first operation
        intro op _
        rw [List.pairwise_map]
        exact (ih _ _).imp fun huv => List.Lex.cons huv
      · -- two first operations
        intro a b hab u hu v hv
        obtain ⟨u', -, rfl⟩ := List.mem_map.mp hu
        obtain ⟨v', -, rfl⟩ := List.mem_map.mp hv
        exact List.Lex.rel hab

theorem words_pairwise_lt (space : Space) : space.words.Pairwise (· < ·) :=
  extensions_pairwise_lt space _ _ _

/-- No word is listed twice. -/
theorem nodup_words (space : Space) : space.words.Nodup := by
  refine (words_pairwise_lt space).imp ?_
  rintro u v hlt rfl
  exact List.lt_asymm hlt hlt

/-! ## Permitted at every place -/

/-- The space permits each operation of `w` at its place, behind a word that reached the shape `s`
    with `r` removals. -/
def Permitted (space : Space) (s : Shape) (r : Nat) (w : Word) : Prop :=
  ∀ (i : Nat) (op : Operation), w[i]? = some op →
    space.permits (s.afterAll (w.take i)) op (r + Word.removals (w.take i)) = true

theorem permitted_nil (space : Space) (s : Shape) (r : Nat) : space.Permitted s r [] := by
  intro i op h
  simp at h

theorem permitted_cons {s : Shape} {r : Nat} {op : Operation} {w : Word} :
    space.Permitted s r (op :: w) ↔
      space.permits s op r = true ∧ space.Permitted (s.after op) (r + Word.removals [op]) w := by
  have hcount : ∀ i, r + Word.removals ((op :: w).take (i + 1)) =
      r + Word.removals [op] + Word.removals (w.take i) := by
    intro i
    rw [List.take_succ_cons, Word.removals_cons_add, Nat.add_assoc]
  constructor
  · intro h
    refine ⟨h 0 op rfl, ?_⟩
    intro i op' hi
    rw [← hcount]
    exact h (i + 1) op' hi
  · rintro ⟨hop, hw⟩ i op' hi
    cases i with
    | zero =>
        obtain rfl : op = op' := Option.some.inj hi
        exact hop
    | succ i =>
        rw [hcount]
        exact hw i op' hi

theorem permitted_append {s : Shape} {r : Nat} {u v : Word} :
    space.Permitted s r (u ++ v) ↔
      space.Permitted s r u ∧ space.Permitted (s.afterAll u) (r + Word.removals u) v := by
  induction u generalizing s r with
  | nil => exact ⟨fun h => ⟨permitted_nil space s r, h⟩, And.right⟩
  | cons op u ih =>
      rw [List.cons_append, permitted_cons, ih, permitted_cons, and_assoc, Shape.afterAll_cons,
        Word.removals_cons_add op u, Nat.add_assoc]

/-- Productions are permitted anywhere. -/
theorem permitted_replicate_produceNext (space : Space) (s : Shape) (r n : Nat) :
    space.Permitted s r (List.replicate n .produceNext) := by
  intro i op hi
  obtain rfl := List.eq_of_mem_replicate (List.mem_of_getElem? hi)
  exact permits_of_ne_removeLast (by decide) space _ _

/-- The recursion lists the permitted words of its length. -/
theorem mem_extensions {n : Nat} {s : Shape} {r : Nat} {w : Word} :
    w ∈ space.extensions n s r ↔ w.length = n ∧ space.Permitted s r w := by
  induction n generalizing s r w with
  | zero =>
      rw [extensions, List.mem_singleton, List.length_eq_zero_iff]
      constructor
      · rintro rfl
        exact ⟨rfl, permitted_nil space s r⟩
      · exact And.left
  | succ n ih =>
      rw [extensions, List.mem_flatMap]
      constructor
      · rintro ⟨op, hop, hmem⟩
        obtain ⟨v, hv, rfl⟩ := List.mem_map.mp hmem
        obtain ⟨hlen, hperm⟩ := ih.mp hv
        exact ⟨by rw [List.length_cons, hlen],
          permitted_cons.mpr ⟨(List.mem_filter.mp hop).2, hperm⟩⟩
      · rintro ⟨hlen, hperm⟩
        cases w with
        | nil => exact nomatch hlen
        | cons op v =>
            obtain ⟨hop, hv⟩ := permitted_cons.mp hperm
            refine ⟨op, List.mem_filter.mpr ⟨Operation.mem_all op, hop⟩, ?_⟩
            exact List.mem_map.mpr ⟨v, ih.mpr ⟨Nat.succ.inj hlen, hv⟩, rfl⟩

/-! ## Legal as a whole -/

/-- **A legal word**: of the right length, with no removal for a read-only candidate, within the
    cap, and with every removal due unless illegal ones are explored. -/
structure Legal (space : Space) (w : Word) : Prop where
  length : w.length = space.steps
  readOnly : space.features.contains .modifiable = false → .removeLast ∉ w
  capped : ∀ cap, space.removalCap = some cap → w.removals ≤ cap
  due : space.illegalRemovals = false →
    ∀ i : Nat, w[i]? = some .removeLast → Word.Due space.elements w i

/-- A removal is permitted at a place if removals exist, the cap leaves room, and it is due. -/
theorem permits_removeLast_iff (space : Space) (s : Shape) (r : Nat) :
    space.permits s .removeLast r = true ↔
      space.features.contains .modifiable = true ∧
        (∀ cap, space.removalCap = some cap → r < cap) ∧
        (space.illegalRemovals = false → s.canRemove = true) := by
  rw [permits_removeLast]
  cases space.removalCap <;> cases space.illegalRemovals <;> simp

theorem legal_of_permitted {w : Word} (hlen : w.length = space.steps)
    (hperm : space.Permitted (.initial space.elements) 0 w) : space.Legal w := by
  -- only removals are ever left out, so only their places say anything
  have hremoval := fun (i : Nat) (hi : w[i]? = some .removeLast) =>
    (permits_removeLast_iff space _ _).mp (hperm i .removeLast hi)
  refine ⟨hlen, ?_, ?_, ?_⟩
  · intro hread hmem
    obtain ⟨i, hi⟩ := List.mem_iff_getElem?.mp hmem
    rw [hread] at hremoval
    exact Bool.noConfusion (hremoval i hi).1
  · intro cap hcap
    have h := (Word.removals_le_iff w 0 (Nat.zero_le cap)).mpr
      fun i hi => (hremoval i hi).2.1 cap hcap
    rwa [Nat.zero_add] at h
  · intro hlegal i hi
    have hle : i ≤ w.length := Nat.le_of_lt (List.getElem?_eq_some_iff.mp hi).1
    exact (Shape.canRemove_take_iff_due hle).mp ((hremoval i hi).2.2 hlegal)

theorem permitted_of_legal {w : Word} (h : space.Legal w) :
    space.Permitted (.initial space.elements) 0 w := by
  intro i op hi
  by_cases hop : op = .removeLast
  · subst hop
    have hle : i ≤ w.length := Nat.le_of_lt (List.getElem?_eq_some_iff.mp hi).1
    refine (permits_removeLast_iff space _ _).mpr ⟨?_, ?_, ?_⟩
    · cases hmod : space.features.contains .modifiable with
      | true => rfl
      | false => exact absurd (List.mem_of_getElem? hi) (h.readOnly hmod)
    · intro cap hcap
      refine (Word.removals_le_iff w 0 (Nat.zero_le cap)).mp ?_ i hi
      rw [Nat.zero_add]
      exact h.capped cap hcap
    · intro hlegal
      exact (Shape.canRemove_take_iff_due hle).mpr (h.due hlegal i hi)
  · exact permits_of_ne_removeLast hop space _ _

/-- **The pruning is exact.**  A word is permitted at every place from the initial shape on if
    and only if it is legal as a whole. -/
theorem permitted_initial_iff {w : Word} :
    w.length = space.steps ∧ space.Permitted (.initial space.elements) 0 w ↔
      space.Legal w := by
  constructor
  · rintro ⟨hlen, hperm⟩
    exact legal_of_permitted hlen hperm
  · intro h
    exact ⟨h.length, permitted_of_legal h⟩

/-- **The words of a space are the legal ones.** -/
theorem mem_words {w : Word} : w ∈ space.words ↔ space.Legal w :=
  mem_extensions.trans permitted_initial_iff

/-- Productions alone are always legal, so no space is empty. -/
theorem legal_produceNext (space : Space) :
    space.Legal (List.replicate space.steps .produceNext) :=
  permitted_initial_iff.mp
    ⟨List.length_replicate, permitted_replicate_produceNext space _ _ _⟩

end Space

end Lockstep
