import Lockstep.Proofs.Space.Pass
import Mathlib.Data.List.Destutter

/-!
# Longer and shorter words

A space lists words of one length only.  The shorter words need no space of their own: they are the
initial segments of the longer ones, in the same order.  One short word may begin many long ones,
but these stand next to each other, so that it is enough to drop repetitions.

The heart is that an enumeration may stop at any depth and go on from there
(`Space.extensions_add`).  So the words that begin with one short word are a block, and since
productions are permitted anywhere no block is empty.

* **`Word.destutter_blocks`** — dropping the repetitions from a list of blocks.
* **`Space.destutter_take_words`** — the initial segments of the words of a space.
* **`Space.emits_prefixes`** — two passes, over longer and over shorter words.
-/

namespace Lockstep

/-! ## Blocks of repetitions -/

namespace Word

theorem destutter'_replicate_append (w : Word) (n : Nat) (ws : List Word) :
    (List.replicate n w ++ ws).destutter' (· ≠ ·) w = ws.destutter' (· ≠ ·) w := by
  induction n with
  | zero => rfl
  | succ n ih =>
      rw [List.replicate_succ, List.cons_append, List.destutter'_cons_neg _ (not_not.mpr rfl), ih]

/-- Behind the word `w`, blocks of other words are left with one word each.  Induction on the
    blocks: the next one begins with a word that differs from `w`, and takes its place. -/
theorem destutter'_blocks {count : Word → Nat} {w : Word} {ws : List Word}
    (hcount : ∀ v ∈ ws, 0 < count v) (hchain : (w :: ws).IsChain (· ≠ ·)) :
    (ws.flatMap fun v => List.replicate (count v) v).destutter' (· ≠ ·) w = w :: ws := by
  induction ws generalizing w with
  | nil => rfl
  | cons v ws ih =>
      obtain ⟨hne, hrest⟩ := List.isChain_cons_cons.mp hchain
      obtain ⟨n, hn⟩ : ∃ n, count v = n + 1 :=
        Nat.exists_eq_succ_of_ne_zero (Nat.ne_of_gt (hcount v List.mem_cons_self))
      rw [List.flatMap_cons, hn, List.replicate_succ, List.cons_append,
        List.destutter'_cons_pos _ hne, destutter'_replicate_append]
      exact congrArg (w :: ·) (ih (fun u hu => hcount u (List.mem_cons_of_mem _ hu)) hrest)

/-- **Blocks of repetitions**, none of them empty and neighbours different, are left with one word
    each. -/
theorem destutter_blocks {count : Word → Nat} {ws : List Word} (hcount : ∀ v ∈ ws, 0 < count v)
    (hchain : ws.IsChain (· ≠ ·)) :
    (ws.flatMap fun v => List.replicate (count v) v).destutter (· ≠ ·) = ws := by
  cases ws with
  | nil => rfl
  | cons w ws =>
      obtain ⟨n, hn⟩ : ∃ n, count w = n + 1 :=
        Nat.exists_eq_succ_of_ne_zero (Nat.ne_of_gt (hcount w List.mem_cons_self))
      rw [List.flatMap_cons, hn, List.replicate_succ, List.cons_append, List.destutter_cons',
        destutter'_replicate_append]
      exact destutter'_blocks (fun u hu => hcount u (List.mem_cons_of_mem _ hu)) hchain

end Word

namespace Space

variable {space : Space}

/-- The space with words of another length. -/
def withSteps (space : Space) (n : Nat) : Space := { space with steps := n }

/-- A space **emits** words if a pass over it begins, and its calls hand these words out in order
    and nothing ever after. -/
def Emits (space : Space) (ws : List Word) : Prop :=
  ∃ t, space.pass = .ok t ∧ ∀ k, Traversal.answer space k t = .ok ws[k]?

/-- **What a space emits** are its words, and there is room for them or nothing is emitted. -/
theorem emits_iff {ws : List Word} :
    space.Emits ws ↔ space.steps ≤ frameLimit ∧ ws = space.words := by
  constructor
  · rintro ⟨t, hpass, hanswers⟩
    obtain ⟨-, rfl⟩ := pass_eq_ok.mp hpass
    have hroom : space.steps ≤ frameLimit := by
      by_contra hlong
      have hfirst := hanswers 0
      rw [Traversal.answer, Traversal.next_start_overflow (Nat.lt_of_not_le hlong)] at hfirst
      cases hfirst
    refine ⟨hroom, List.ext_getElem? fun k => ?_⟩
    rw [Traversal.eq_of_answer (hanswers k), Traversal.left_start]
  · rintro ⟨hroom, rfl⟩
    refine ⟨.start space, pass_of_steps_le hroom, ?_⟩
    intro k
    rw [Traversal.answer_eq hroom, Traversal.left_start]

theorem emits_words (h : space.steps ≤ frameLimit) : space.Emits space.words :=
  emits_iff.mpr ⟨h, rfl⟩

/-! ## Depth by depth -/

/-- The length of its words is all that a space does not look at when it extends a word. -/
theorem extensions_withSteps (space : Space) (m n : Nat) (s : Shape) (r : Nat) :
    (space.withSteps m).extensions n s r = space.extensions n s r := by
  induction n generalizing s r with
  | zero => rfl
  | succ n ih =>
      simp only [extensions, ih]
      rfl

/-- **An enumeration in two parts**: the first `m` operations, and behind each of their words the
    other `n`.  Induction on the first part, since operations are put in front. -/
theorem extensions_add (space : Space) (m n : Nat) (s : Shape) (r : Nat) :
    space.extensions (m + n) s r =
      (space.extensions m s r).flatMap fun u =>
        (space.extensions n (s.afterAll u) (r + Word.removals u)).map (u ++ ·) := by
  induction m generalizing s r with
  | zero => simp [extensions]
  | succ m ih =>
      rw [Nat.add_right_comm, extensions, extensions, List.flatMap_assoc]
      refine List.flatMap_congr fun op _ => ?_
      rw [ih, List.map_flatMap, List.flatMap_map]
      refine List.flatMap_congr fun u _ => ?_
      rw [List.map_map, Shape.afterAll_cons, Word.removals_cons_add op u, Nat.add_assoc]
      rfl

/-- Productions extend any word. -/
theorem extensions_ne_nil (space : Space) (n : Nat) (s : Shape) (r : Nat) :
    space.extensions n s r ≠ [] :=
  List.ne_nil_of_mem <| mem_extensions.mpr
    ⟨List.length_replicate, permitted_replicate_produceNext space s r n⟩

/-- **Initial segments** of the words of a space, without repetitions, are the words of the space
    with that length. -/
theorem destutter_take_words {m : Nat} (hm : m ≤ space.steps) :
    (space.words.map (·.take m)).destutter (· ≠ ·) = (space.withSteps m).words := by
  have hwords : space.words =
      (space.withSteps m).words.flatMap fun u =>
        (space.extensions (space.steps - m) ((Shape.initial space.elements).afterAll u)
          (0 + Word.removals u)).map (u ++ ·) := by
    rw [words, words, extensions_withSteps]
    show space.extensions space.steps (.initial space.elements) 0 =
      (space.extensions m (.initial space.elements) 0).flatMap _
    rw [← extensions_add, Nat.add_sub_cancel' hm]
  -- what begins with one short word is a block of it
  have hblocks : space.words.map (·.take m) =
      (space.withSteps m).words.flatMap fun u =>
        List.replicate (space.extensions (space.steps - m)
          ((Shape.initial space.elements).afterAll u) (0 + Word.removals u)).length u := by
    rw [hwords, List.map_flatMap]
    refine List.flatMap_congr fun u hu => ?_
    have hlen : u.length = m := (mem_words.mp hu).length
    rw [List.map_map, ← List.map_const']
    refine List.map_congr_left fun v _ => ?_
    exact List.take_left' hlen
  rw [hblocks]
  refine Word.destutter_blocks ?_ ?_
  · intro u _
    exact List.length_pos_iff.mpr (extensions_ne_nil space _ _ _)
  · exact (nodup_words _).isChain

/-! ## Legal words -/

/-- A legal word begins a word of the space, if it is not too long for it. -/
theorem exists_mem_words_of_legal {w : Word} (hw : (space.withSteps w.length).Legal w)
    (hlen : w.length ≤ space.steps) : ∃ v ∈ space.words, w <+: v := by
  have hperm : space.Permitted (.initial space.elements) 0 w :=
    (permitted_initial_iff.mpr hw).2
  refine ⟨w ++ List.replicate (space.steps - w.length) .produceNext, ?_, List.prefix_append _ _⟩
  refine mem_words.mpr (permitted_initial_iff.mp ⟨?_, permitted_append.mpr ⟨hperm, ?_⟩⟩)
  · rw [List.length_append, List.length_replicate, Nat.add_sub_cancel' hlen]
  · exact permitted_replicate_produceNext space _ _ _

/-- Whatever begins a word of the space is legal. -/
theorem legal_of_isPrefix {u v : Word} (hv : v ∈ space.words) (hinitial : u <+: v) :
    (space.withSteps u.length).Legal u := by
  obtain ⟨rest, rfl⟩ := hinitial
  obtain ⟨-, hperm⟩ := permitted_initial_iff.mpr (mem_words.mp hv)
  exact permitted_initial_iff.mp ⟨rfl, (permitted_append.mp hperm).1⟩

/-- **Shorter spaces are the initial segments of longer ones.**  Both passes begin.  The first `m`
    operations of the words that the longer one hands out, in order and without repetitions, are the
    words that the shorter one hands out.  So every legal word that is not too long begins a word
    handed out, and whatever begins one is legal. -/
theorem emits_prefixes {m : Nat} (hm : m ≤ space.steps) (h : space.steps ≤ frameLimit) :
    ∃ ws, space.Emits ws ∧
      (space.withSteps m).Emits ((ws.map (·.take m)).destutter (· ≠ ·)) ∧
      (∀ w : Word, w.length ≤ space.steps → (space.withSteps w.length).Legal w →
        ∃ v ∈ ws, w <+: v) ∧
      ∀ v ∈ ws, ∀ u, u <+: v → (space.withSteps u.length).Legal u := by
  refine ⟨space.words, emits_words h, ?_, ?_, ?_⟩
  · rw [destutter_take_words hm]
    exact emits_words (Nat.le_trans hm h)
  · intro w hlen hw
    exact exists_mem_words_of_legal hw hlen
  · intro v hv u hinitial
    exact legal_of_isPrefix hv hinitial

/-- The words of three operations for one element, with at most one removal, begin with the words of
    two. -/
theorem emits_prefixes_two_of_three :
    let space : Space :=
      { steps := 3, features := .modifiable, elements := 1, removalCap := some 1 }
    2 ≤ space.steps ∧ space.steps ≤ frameLimit ∧
      (space.words.map (·.take 2)).destutter (· ≠ ·) =
        [[.produceNext, .produceNext], [.produceNext, .hasMore], [.produceNext, .removeLast],
          [.hasMore, .produceNext], [.hasMore, .hasMore]] ∧
      ∃ ws, space.Emits ws ∧
        (space.withSteps 2).Emits ((ws.map (·.take 2)).destutter (· ≠ ·)) ∧
        (∀ w : Word, w.length ≤ space.steps → (space.withSteps w.length).Legal w →
          ∃ v ∈ ws, w <+: v) ∧
        ∀ v ∈ ws, ∀ u, u <+: v → (space.withSteps u.length).Legal u :=
  ⟨by decide, by decide, by decide, emits_prefixes (by decide) (by decide)⟩

/-- The bound is needed: the empty word is handed out by the pass over words without operations, and
    begins no word of `2 ^ 57 + 1` or of `2 ^ 63` operations that is handed out, since none is. -/
theorem no_prefixes_behind_frameLimit :
    let space : Space := { steps := 144115188075855873, features := .modifiable, elements := 1 }
    let longer : Space := { steps := 9223372036854775808, features := .modifiable, elements := 1 }
    (0 ≤ space.steps ∧ (space.withSteps 0).Emits [[]] ∧ ∀ ws, ¬ space.Emits ws) ∧
      0 ≤ longer.steps ∧ (longer.withSteps 0).Emits [[]] ∧ ∀ ws, ¬ longer.Emits ws := by
  refine ⟨⟨Nat.zero_le _, emits_words (by decide), ?_⟩, Nat.zero_le _, emits_words (by decide), ?_⟩
  · intro ws hemits
    exact absurd (emits_iff.mp hemits).1 (by decide)
  · intro ws hemits
    exact absurd (emits_iff.mp hemits).1 (by decide)

end Space

end Lockstep
