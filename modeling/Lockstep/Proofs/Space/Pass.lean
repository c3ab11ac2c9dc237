import Lockstep.Proofs.Space.Words
import Lockstep.Space.Traversal

/-!
# Passes over a space

A `Traversal` keeps a stack of frames and finds its words by descending and backtracking.  This
file shows that it hands out `Space.words`, one by one and in order.

The invariant is an account: `Traversal.left` reads off the stack the list of words still to
come.  One iteration of the search either moves the head of that list into the open or leaves the
list alone (`accounts_of_step`), so a call of `next` that returns answers with its head and keeps its
tail (`next_accounts`).  No fact about reachable stacks is needed: the account is exact for every
traversal, and a fresh one still has every word of the space.

Whether a call returns is a question of its own.  No path gets longer than a word, and no stack
higher than its path and one frame, so there is room for all of it while words are no longer than
`Space.frameLimit` (`exists_next_eq_ok`).  Over longer words the first call panics, for it goes
straight down (`next_start_overflow`).
-/

namespace Lockstep

universe u v

namespace Operation

/-- An operation stands in exploration order at its code. -/
theorem all_getElem? {i : Nat} {op : Operation} : all[i]? = some op ↔ i = op.code := by
  match i with
  | 0 | 1 | 2 => cases op <;> decide
  | i + 3 => exact iff_of_false (by simp [all]) (by have := op.code_lt; omega)

/-- The search for the next permitted operation splits what is left to try. -/
theorem filter_drop_of_find? {p : Operation → Bool} {k : Nat} {op : Operation}
    (h : (all.drop k).find? p = some op) :
    (all.drop k).filter p = op :: (all.drop (op.code + 1)).filter p := by
  obtain ⟨hp, as, bs, hsplit, has⟩ := List.find?_eq_some_iff_append.mp h
  -- what stands before `op` in the split is what the search passed over
  have hcode : k + as.length = op.code := by
    rw [← all_getElem?, ← List.getElem?_drop, hsplit]
    simp
  have hrest : all.drop (op.code + 1) = bs := by
    rw [← hcode, Nat.add_assoc, ← List.drop_drop, hsplit, List.drop_append]
    simp
  have hnone : as.filter p = [] := by
    rw [List.filter_eq_nil_iff]
    intro a ha
    simpa using has a ha
  rw [hrest, hsplit, List.filter_append, hnone, List.nil_append, List.filter_cons_of_pos hp]

end Operation

/-- The words behind a path that begin with one of the operations `ops`. -/
def Space.wordsBehind (space : Space) (path : List Operation) (s : Shape)
    (ops : List Operation) : List Word :=
  ops.flatMap fun op =>
    (space.extensions (space.steps - (path.length + 1)) (s.after op)
      (Word.removals path + Word.removals [op])).map fun w => path.reverse ++ op :: w

/-- A production is the first choice at a fresh frame. -/
theorem Frame.choice?_fresh (space : Space) (s : Shape) (removals : Nat) :
    (Frame.mk s 0).choice? space removals = some .produceNext := by
  have hpermitted : ∀ s r, space.permits s .produceNext r = true :=
    Space.permits_of_ne_removeLast (by decide) space
  simp [choice?, Operation.all, hpermitted]

/-- The words that the untried operations of a frame lead to. -/
def Frame.words (f : Frame) (space : Space) (path : List Operation) : List Word :=
  space.wordsBehind path f.shape
    ((Operation.all.drop f.nextChoice).filter (space.permits f.shape · (Word.removals path)))

namespace Frame

variable {space : Space} {f : Frame} {path : List Operation}

theorem words_of_choice?_eq_none (h : f.choice? space (Word.removals path) = none) :
    f.words space path = [] := by
  have hnil : (Operation.all.drop f.nextChoice).filter
      (space.permits f.shape · (Word.removals path)) = [] := by
    rw [List.filter_eq_nil_iff]
    exact List.find?_eq_none.mp h
  rw [words, hnil]
  rfl

/-- The chosen operation leads to the first words, and the tried frame to the others. -/
theorem words_of_choice?_eq_some {op : Operation}
    (h : f.choice? space (Word.removals path) = some op) :
    f.words space path =
      space.wordsBehind path f.shape [op] ++ (f.tried op).words space path := by
  rw [words, Operation.filter_drop_of_find? h]
  simp only [words, tried, Space.wordsBehind, List.flatMap_cons, List.flatMap_nil,
    List.append_nil]

end Frame

namespace Space

variable {space : Space}

/-- At the last place an operation completes exactly one word. -/
theorem wordsBehind_last {path : List Operation} {s : Shape} {op : Operation}
    (h : space.steps ≤ path.length + 1) :
    space.wordsBehind path s [op] = [(op :: path).reverse] := by
  have hzero : space.steps - (path.length + 1) = 0 := by omega
  simp [wordsBehind, hzero, extensions]

/-- Before the last place an operation leads to the words of the fresh frame behind it. -/
theorem wordsBehind_descend {path : List Operation} {s : Shape} {op : Operation}
    (h : ¬ space.steps ≤ path.length + 1) :
    space.wordsBehind path s [op] = (Frame.mk (s.after op) 0).words space (op :: path) := by
  have hsucc : space.steps - (path.length + 1) = space.steps - (path.length + 1 + 1) + 1 := by
    omega
  have hcount : Word.removals (op :: path) = Word.removals path + Word.removals [op] := by
    rw [Word.removals_cons_add, Nat.add_comm]
  simp only [wordsBehind, Frame.words, List.flatMap_cons, List.flatMap_nil, List.append_nil,
    hsucc, extensions, choices, hcount, List.map_flatMap, List.map_map, List.length_cons,
    List.drop_zero, List.reverse_cons, List.append_assoc, List.singleton_append]
  rfl

end Space

namespace Traversal

variable {space : Space}

/-! ## What is left -/

/-- The words that a stack of frames still leads to, the innermost frame first. -/
def stackWords (space : Space) : List Frame → List Operation → List Word
  | [], _ => []
  | f :: outer, path => f.words space path ++ stackWords space outer path.tail

/-- **The account of a pass**: the words that are still to come. -/
def left (space : Space) (t : Traversal) : List Word :=
  if t.done then []
  else if space.steps = 0 then [[]]
  else stackWords space t.frames t.path

/-- What a move says about the words that were to come in front of it. -/
def Move.Accounts (space : Space) (ws : List Word) : Move → Prop
  | .emit w t => ws = w :: stackWords space t.frames t.path
  | .descend t => ws = stackWords space t.frames t.path
  | .backtrack t => ws = stackWords space t.frames t.path
  | .finish => ws = []
  | .overflow => True

/-- **No word is lost or invented by one iteration of the search.** -/
theorem accounts_of_step {t : Traversal} {move : Move} (h : t.step space = move) :
    move.Accounts space (stackWords space t.frames t.path) := by
  cases takes_of_step h with
  | finish => rfl
  | backtrack hnone =>
      simp only [Move.Accounts, stackWords, Frame.words_of_choice?_eq_none hnone, List.nil_append]
  | emit hop hlast =>
      -- the operation completes a word
      simp only [Move.Accounts, stackWords, Frame.words_of_choice?_eq_some hop,
        Space.wordsBehind_last hlast, List.nil_append, List.cons_append]
  | descend hop hmore hroom =>
      -- it opens a frame for the words behind it
      simp only [Move.Accounts, stackWords, Frame.words_of_choice?_eq_some hop,
        Space.wordsBehind_descend (Nat.not_le.mpr hmore), List.tail_cons, List.append_assoc]
  | overflow hop hmore hfull => trivial

/-- A search answers with the first word that its stack leads to and keeps the others; without
    one it marks the end. -/
theorem search_accounts {t u : Traversal} {answer : Option Word}
    (h : t.search space = .ok (answer, u)) :
    answer = (stackWords space t.frames t.path).head? ∧
      stackWords space u.frames u.path = (stackWords space t.frames t.path).tail ∧
      (answer = none → u.done = true) := by
  fun_induction search space t with
  | case1 t w v hstep =>
      have haccounts : stackWords space t.frames t.path = w :: stackWords space v.frames v.path :=
        accounts_of_step hstep
      cases h
      rw [haccounts]
      refine ⟨rfl, rfl, ?_⟩
      intro hnone
      cases hnone
  | case2 t v hstep ih =>
      have haccounts : stackWords space t.frames t.path = stackWords space v.frames v.path :=
        accounts_of_step hstep
      rw [haccounts]
      exact ih h
  | case3 t v hstep ih =>
      have haccounts : stackWords space t.frames t.path = stackWords space v.frames v.path :=
        accounts_of_step hstep
      rw [haccounts]
      exact ih h
  | case4 t hstep =>
      have haccounts : stackWords space t.frames t.path = [] := accounts_of_step hstep
      cases h
      rw [haccounts]
      exact ⟨rfl, rfl, fun _ => rfl⟩
  | case5 t hstep => cases h

/-! ## One call -/

/-- **A call that returns** answers with the first word that is left, and keeps the others. -/
theorem next_accounts {t u : Traversal} {answer : Option Word}
    (h : t.next space = .ok (answer, u)) :
    answer = (t.left space).head? ∧ u.left space = (t.left space).tail := by
  rw [next] at h
  by_cases hdone : t.done = true
  · rw [if_pos hdone] at h
    cases h
    simp [left, hdone]
  · by_cases hzero : space.steps = 0
    · rw [if_neg hdone, if_pos hzero] at h
      cases h
      simp [left, hdone, hzero]
    · rw [if_neg hdone, if_neg hzero] at h
      obtain ⟨hhead, htail, hend⟩ := search_accounts h
      simp only [left, hdone, hzero, ↓reduceIte, Bool.false_eq_true]
      refine ⟨hhead, ?_⟩
      cases answer with
      | none =>
          -- the mark at the end agrees with the stack, which leads nowhere
          rw [if_pos (hend rfl), List.head?_eq_none_iff.mp hhead.symm]
          rfl
      | some w =>
          rw [(weight_search_lt h).2, if_neg hdone]
          exact htail

/-- A call that answers with a word splits it off. -/
theorem left_eq_cons {t u : Traversal} {w : Word} (h : t.next space = .ok (some w, u)) :
    t.left space = w :: u.left space := by
  obtain ⟨hhead, htail⟩ := next_accounts h
  obtain ⟨ws, hws⟩ := List.head?_eq_some_iff.mp hhead.symm
  rw [htail, hws]
  rfl

/-- A call that answers with nothing finds nothing left. -/
theorem left_eq_nil {t u : Traversal} (h : t.next space = .ok (none, u)) : t.left space = [] :=
  List.head?_eq_none_iff.mp (next_accounts h).1.symm

/-- A fresh pass has every word of the space before it. -/
theorem left_start (space : Space) : (start space).left space = space.words := by
  by_cases hzero : space.steps = 0
  · simp [left, start, hzero, Space.words, Space.extensions]
  · obtain ⟨n, hn⟩ : ∃ n, space.steps = n + 1 := ⟨space.steps - 1, by omega⟩
    simp [left, start, stackWords, Frame.words, Space.wordsBehind, Space.words, hn,
      Space.extensions, Space.choices]

/-! ## Room for the frames -/

/-- Before the last place of a word there is room for a frame. -/
theorem step_ne_overflow (h : space.steps ≤ Space.frameLimit) (t : Traversal) :
    t.step space ≠ .overflow := by
  intro hstep
  cases takes_of_step hstep with
  | @overflow f outer path done fits op hop hmore hfull =>
      rw [List.length_cons] at fits
      omega

theorem exists_search_eq_ok (h : space.steps ≤ Space.frameLimit) (t : Traversal) :
    ∃ answer u, t.search space = .ok (answer, u) := by
  fun_induction search space t with
  | case1 t w u hstep => exact ⟨some w, u, rfl⟩
  | case2 t u hstep ih => exact ih
  | case3 t u hstep ih => exact ih
  | case4 t hstep => exact ⟨none, _, rfl⟩
  | case5 t hstep => exact absurd hstep (step_ne_overflow h t)

/-- **Every call returns** while the stack can be as high as a word is long. -/
theorem exists_next_eq_ok (h : space.steps ≤ Space.frameLimit) (t : Traversal) :
    ∃ answer u, t.next space = .ok (answer, u) := by
  rw [next]
  split
  · exact ⟨none, t, rfl⟩
  · split
    · exact ⟨some [], _, rfl⟩
    · exact exists_search_eq_ok h t

/-- What a search from `t` comes to if its first iteration comes to a move. -/
def Move.answer (space : Space) (t : Traversal) : Move → Except Panic (Option Word × Traversal)
  | .emit w u => .ok (some w, u)
  | .descend u => u.search space
  | .backtrack u => u.search space
  | .finish => .ok (none, { t with done := true })
  | .overflow => .error .capacityOverflow

/-- **A search is its first iteration, and a search behind it.** -/
theorem search_of_step {t : Traversal} {move : Move} (h : t.step space = move) :
    t.search space = move.answer space t := by
  subst h
  rw [search]
  split <;> rename_i hstep <;> rw [hstep] <;> rfl

/-- Over longer words a search that stands at a fresh frame goes straight down until the stack is
    full.  Recursion on the room that is left. -/
theorem search_fresh_overflow (h : Space.frameLimit < space.steps) (s : Shape)
    {outer : List Frame} {path : List Operation} {done : Bool}
    (hfits : (Frame.mk s 0 :: outer).length ≤ path.length + 1)
    (hlen : outer.length = path.length) (hroom : outer.length < Space.frameLimit) :
    search space ⟨⟨s, 0⟩ :: outer, path, done, hfits⟩ = .error .capacityOverflow := by
  have hlast : ¬ space.steps ≤ path.length + 1 := by omega
  have hop := Frame.choice?_fresh space s (Word.removals path)
  by_cases hmore : outer.length + 1 < Space.frameLimit
  · have hstep : step space ⟨⟨s, 0⟩ :: outer, path, done, hfits⟩ =
        .descend ⟨⟨s.after .produceNext, 0⟩ :: (Frame.mk s 0).tried .produceNext :: outer,
          .produceNext :: path, done, Nat.succ_le_succ hfits⟩ := by
      simp only [step, hop, hlast, hmore, ↓reduceIte]
    rw [search_of_step hstep]
    exact search_fresh_overflow h _ _ (congrArg Nat.succ hlen) hmore
  · have hstep : step space ⟨⟨s, 0⟩ :: outer, path, done, hfits⟩ = .overflow := by
      simp only [step, hop, hlast, hmore, ↓reduceIte]
    rw [search_of_step hstep]
    rfl
termination_by Space.frameLimit - outer.length

/-- **The first call panics** over words that are longer than the stack can be high. -/
theorem next_start_overflow (h : Space.frameLimit < space.steps) :
    (start space).next space = .error .capacityOverflow := by
  have hzero : space.steps ≠ 0 := Nat.ne_of_gt (Nat.lt_of_le_of_lt (Nat.zero_le _) h)
  rw [next, if_neg (by simp [start]), if_neg hzero]
  exact search_fresh_overflow h _ _ rfl (by decide)

/-! ## All calls -/

/-- The answer of the call of number `k` from a point of a pass on, counted from zero, unless one of
    the calls up to it panics. -/
def answer (space : Space) : (k : Nat) → Traversal → Except Panic (Option Word)
  | 0, t => (t.next space).map Prod.fst
  | k + 1, t => (t.next space).bind fun (_, u) => answer space k u

/-- A call that returns hands out the word that is left at its number. -/
theorem eq_of_answer {k : Nat} {t : Traversal} {word? : Option Word}
    (h : answer space k t = .ok word?) : word? = (t.left space)[k]? := by
  induction k generalizing t with
  | zero =>
      cases hnext : t.next space with
      | error p =>
          rw [answer, hnext] at h
          exact nomatch h
      | ok result =>
          rw [answer, hnext] at h
          obtain rfl := Except.ok.inj h
          rw [(next_accounts hnext).1, List.head?_eq_getElem?]
  | succ k ih =>
      cases hnext : t.next space with
      | error p =>
          rw [answer, hnext] at h
          exact nomatch h
      | ok result =>
          rw [answer, hnext] at h
          rw [ih h, (next_accounts hnext).2, List.getElem?_tail]

/-- **The calls hand out what is left**, one word each, and nothing ever after. -/
theorem answer_eq (h : space.steps ≤ Space.frameLimit) (k : Nat) (t : Traversal) :
    answer space k t = .ok (t.left space)[k]? := by
  induction k generalizing t with
  | zero =>
      obtain ⟨word?, u, hnext⟩ := exists_next_eq_ok h t
      rw [answer, hnext, ← List.head?_eq_getElem?, ← (next_accounts hnext).1]
      rfl
  | succ k ih =>
      obtain ⟨word?, u, hnext⟩ := exists_next_eq_ok h t
      rw [answer, hnext, ← List.getElem?_tail, ← (next_accounts hnext).2]
      exact ih u

/-- Taking in what is left is a fold over its list that stops at the first error. -/
theorem foldUntil_eq_foldlM {ε : Type u} {β : Type v} (h : space.steps ≤ Space.frameLimit)
    (raise : Panic → ε) (f : β → Word → Except ε β) (b : β) (t : Traversal) :
    t.foldUntil space raise f b = (t.left space).foldlM f b := by
  fun_induction Traversal.foldUntil space raise f b t with
  | case1 b t p hnext =>
      obtain ⟨word?, u, hok⟩ := exists_next_eq_ok h t
      exact nomatch hnext.symm.trans hok
  | case2 b t u hnext =>
      rw [left_eq_nil hnext]
      rfl
  | case3 b t w u hnext b' hf ih =>
      rw [left_eq_cons hnext, List.foldlM_cons, hf]
      exact ih
  | case4 b t w u hnext e hf =>
      rw [left_eq_cons hnext, List.foldlM_cons, hf]
      rfl

/-- What is left behind words that are skipped. -/
theorem exists_skip_eq_ok (h : space.steps ≤ Space.frameLimit) (n : Nat) (t : Traversal) :
    ∃ u, t.skip space n = .ok u ∧ u.left space = (t.left space).drop n := by
  induction n generalizing t with
  | zero => exact ⟨t, rfl, rfl⟩
  | succ n ih =>
      obtain ⟨word?, u, hnext⟩ := exists_next_eq_ok h t
      rw [skip, hnext]
      cases word? with
      | none =>
          have hleft := (next_accounts hnext).2
          rw [left_eq_nil hnext] at hleft ⊢
          exact ⟨u, rfl, hleft⟩
      | some w =>
          rw [left_eq_cons hnext]
          exact ih u

theorem take_eq (h : space.steps ≤ Space.frameLimit) (n : Nat) (t : Traversal) :
    t.take space n = .ok ((t.left space).take n) := by
  induction n generalizing t with
  | zero => rfl
  | succ n ih =>
      obtain ⟨word?, u, hnext⟩ := exists_next_eq_ok h t
      rw [take, hnext]
      cases word? with
      | none =>
          rw [left_eq_nil hnext]
          rfl
      | some w =>
          rw [left_eq_cons hnext, List.take_succ_cons]
          show (u.take space n).map _ = _
          rw [ih u]
          rfl

/-- **A slice of a pass** is a slice of what is left. -/
theorem slice_eq (h : space.steps ≤ Space.frameLimit) (start limit : Nat) (t : Traversal) :
    t.slice space start limit = .ok (((t.left space).drop start).take limit) := by
  by_cases hzero : limit = 0
  · simp [slice, hzero]
  · obtain ⟨u, hskip, hleft⟩ := exists_skip_eq_ok h start t
    rw [slice, if_neg hzero, hskip, ← hleft]
    exact take_eq h limit u

end Traversal

namespace Space

theorem pass_of_steps_le {space : Space} (h : space.steps ≤ frameLimit) :
    space.pass = .ok (.start space) :=
  pass_eq_ok.mpr ⟨Nat.lt_of_le_of_lt h (by decide), rfl⟩

/-- Taking in a whole space is a fold over its words that stops at the first error. -/
theorem foldUntil_eq_foldlM {ε : Type u} {β : Type v} {space : Space}
    (h : space.steps ≤ frameLimit) (raise : Panic → ε) (f : β → Word → Except ε β) (b : β) :
    space.foldUntil raise f b = space.words.foldlM f b := by
  rw [foldUntil, pass_of_steps_le h]
  show (Traversal.start space).foldUntil space raise f b = _
  rw [Traversal.foldUntil_eq_foldlM h, Traversal.left_start]

/-- Over words that are longer than the stack can be high nothing is taken in. -/
theorem foldUntil_overflow {ε : Type u} {β : Type v} {space : Space}
    (h : frameLimit < space.steps) (raise : Panic → ε) (f : β → Word → Except ε β) (b : β) :
    space.foldUntil raise f b = .error (raise .capacityOverflow) := by
  rw [foldUntil]
  by_cases hroom : space.steps < memoryLimit
  · rw [pass_eq_ok.mpr ⟨hroom, rfl⟩]
    show (Traversal.start space).foldUntil space raise f b = _
    rw [Traversal.foldUntil, Traversal.next_start_overflow h]
  · rw [pass_eq_error hroom]

/-- Taking in a whole space without stopping is a fold over its words. -/
theorem fold_eq_foldl {β : Type u} {space : Space} (h : space.steps ≤ frameLimit)
    (f : β → Word → β) (b : β) : space.fold f b = .ok (space.words.foldl f b) := by
  rw [fold, foldUntil_eq_foldlM h]
  exact List.foldlM_pure

/-- **The enumeration.**  A pass over words that are no longer than the stack can be high begins,
    and its calls hand out the words of the space and nothing ever after.  These ascend strictly in
    lexicographic order, and they are the legal words. -/
theorem pass_enumerates {space : Space} (h : space.steps ≤ frameLimit) :
    ∃ t, space.pass = .ok t ∧ (∀ k, Traversal.answer space k t = .ok space.words[k]?) ∧
      space.words.Pairwise (· < ·) ∧ ∀ w, w ∈ space.words ↔ space.Legal w := by
  refine ⟨.start space, pass_of_steps_le h, ?_, words_pairwise_lt space, fun w => mem_words⟩
  intro k
  rw [Traversal.answer_eq h, Traversal.left_start]

/-- The enumeration over words of two operations for one element: a removal comes only behind
    the production. -/
theorem pass_enumerates_two_steps :
    let space : Space := { steps := 2, features := .modifiable, elements := 1 }
    space.steps ≤ frameLimit ∧
      space.words = [[.produceNext, .produceNext], [.produceNext, .hasMore],
        [.produceNext, .removeLast], [.hasMore, .produceNext], [.hasMore, .hasMore]] ∧
      ∃ t, space.pass = .ok t ∧ (∀ k, Traversal.answer space k t = .ok space.words[k]?) ∧
        space.words.Pairwise (· < ·) ∧ ∀ w, w ∈ space.words ↔ space.Legal w :=
  ⟨by decide, by decide, pass_enumerates (by decide)⟩

/-- The bound is needed.  There are legal words of `2 ^ 57 + 1` operations, but a pass over them
    panics at its first call, and no pass over words of `2 ^ 63` operations begins. -/
theorem no_words_behind_frameLimit :
    let space : Space := { steps := 144115188075855873, features := .modifiable, elements := 1 }
    let longer : Space := { steps := 9223372036854775808, features := .modifiable, elements := 1 }
    (∃ w, space.Legal w) ∧
      (∃ t, space.pass = .ok t ∧ t.next space = .error .capacityOverflow) ∧
      (∃ w, longer.Legal w) ∧ longer.pass = .error .capacityOverflow := by
  intro space longer
  have hpass : space.pass = .ok (.start space) := pass_eq_ok.mpr ⟨by decide, rfl⟩
  have hfirst : (Traversal.start space).next space = .error .capacityOverflow :=
    Traversal.next_start_overflow (by decide)
  exact ⟨⟨_, legal_produceNext _⟩, ⟨_, hpass, hfirst⟩, ⟨_, legal_produceNext _⟩,
    pass_eq_error (by decide)⟩

end Space

end Lockstep
