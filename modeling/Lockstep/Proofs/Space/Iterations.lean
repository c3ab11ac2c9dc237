import Lockstep.Proofs.Space.Stack

/-!
# The iterations of one call

A space may be huge, but no call lists more of it than it must.  The search behind a word goes back
over frames that have nothing left to try, and once it has found a choice it never goes back again,
since a production is permitted at every place that is new.  So the choice is followed by one place
deeper per iteration, until a word is complete.

There are at most as many frames as operations in a word.  A call goes back over some of them, and
then down over as many places as it went back, and one iteration more.  Where the stack cannot be as
high as a word is long, the way down ends in a panic instead, and no later.

* **`Traversal.moves`** — the iterations of a search.
* **`Traversal.drops_search`** — what follows a choice.
* **`Traversal.sweeps_search`** — all iterations of a search.
* **`Traversal.iterations_bounded`** — the iterations of any call of a pass.
-/

namespace Lockstep

namespace Traversal

variable {space : Space} {path : List Operation} {choice : Nat} {t : Traversal}

/-- What the iterations of a search come to, one after the other. -/
def moves (space : Space) (t : Traversal) : List Move :=
  match _h : t.step space with
  | .emit w u => [.emit w u]
  | .descend u => .descend u :: u.moves space
  | .backtrack u => .backtrack u :: u.moves space
  | .finish => [.finish]
  | .overflow => [.overflow]
termination_by t.weight space
decreasing_by
  · exact (weight_step_lt (congrArg Move.behind? _h)).1
  · exact (weight_step_lt (congrArg Move.behind? _h)).1

/-- What the iterations of a call come to.  A call behind the end makes none, and neither does one
    for words without operations. -/
def iterations (space : Space) (t : Traversal) : List Move :=
  if t.done then [] else if space.steps = 0 then [] else t.moves space

/-- The iterations that a search makes behind one that comes to a move. -/
def Move.rest (space : Space) : Move → List Move
  | .descend u => u.moves space
  | .backtrack u => u.moves space
  | .emit _ _ | .finish | .overflow => []

theorem moves_of_step {move : Move} (h : t.step space = move) :
    t.moves space = move :: move.rest space := by
  subst h
  rw [moves]
  split <;> rename_i hstep <;> rw [hstep] <;> rfl

variable {moves : List Move} {ending : Except Panic (Option Word × Traversal)}

/-! ## Down -/

/-- **A dive** from depth `d` to a word: every iteration puts the next operation of the word on the
    path, and one more would complete it. -/
structure Dives (space : Space) (d : Nat) (w : Word) (downs : List Move) : Prop where
  complete : w.length = space.steps
  length : d + downs.length + 1 = space.steps
  path : ∀ (i : Nat) move, downs[i]? = some move →
    ∃ u, move = .descend u ∧ u.path.reverse = w.take (d + i + 1)

/-- One place more above a dive. -/
theorem Dives.cons {d : Nat} {w : Word} {downs : List Move} {u : Traversal}
    (h : Dives space (d + 1) w downs) (hu : u.path.reverse = w.take (d + 1)) :
    Dives space d w (.descend u :: downs) where
  complete := h.complete
  length := by
    have hlen := h.length
    rw [List.length_cons]
    omega
  path i move hmove := by
    cases i with
    | zero => exact ⟨u, (Option.some.inj hmove).symm, hu⟩
    | succ i =>
        obtain ⟨v, hv, hpath⟩ := h.path i move hmove
        refine ⟨v, hv, ?_⟩
        rw [hpath]
        congr 1
        omega

/-- **A drop** from a path: a dive to a word that begins with it, or the same way down to the place
    where the stack is full. -/
inductive Drops (space : Space) (path : List Operation) :
    List Move → Except Panic (Option Word × Traversal) → Prop where
  | word {downs : List Move} {w : Word} {u : Traversal} (hdives : Dives space path.length w downs)
      (hfront : path.reverse <+: w) : Drops space path (downs ++ [.emit w u]) (.ok (some w, u))
  | full {downs : List Move} (hdowns : ∀ move ∈ downs, ∃ v, move = .descend v)
      (hshort : path.length + downs.length + 1 < space.steps)
      (hlong : Space.frameLimit < space.steps) :
      Drops space path (downs ++ [.overflow]) (.error .capacityOverflow)

/-- One place more above a drop. -/
theorem Drops.cons {op : Operation} (h : Drops space (op :: path) moves ending) :
    Drops space path (.descend (standing space (op :: path) 0) :: moves) ending := by
  cases h with
  | @word downs w u hdives hfront =>
      rw [← List.cons_append]
      -- the path is now one operation longer, and still begins the word
      have htake := List.prefix_iff_eq_take.mp hfront
      rw [List.length_reverse, List.length_cons] at htake
      rw [List.reverse_cons] at hfront
      exact .word (hdives.cons htake) ((List.prefix_append _ _).trans hfront)
  | @full downs hdowns hshort hlong =>
      rw [← List.cons_append]
      refine .full (List.forall_mem_cons.mpr ⟨⟨_, rfl⟩, hdowns⟩) ?_ hlong
      rw [List.length_cons] at hshort ⊢
      omega

/-- **Behind a choice** a search goes straight down.  Recursion on the path, which grows by one
    operation until the word is complete: the next place is new, so that there is a choice again. -/
theorem drops_search (path : List Operation) {choice : Nat} (hlen : path.length < space.steps)
    (hchoice : choiceAt? space path choice ≠ none) :
    Drops space path ((standing space path choice).moves space)
      ((standing space path choice).search space) := by
  have hcomes : Comes space path choice ((standing space path choice).step space) := comes_step hlen
  obtain ⟨move, hstep⟩ : ∃ move, (standing space path choice).step space = move := ⟨_, rfl⟩
  rw [hstep] at hcomes
  rw [moves_of_step hstep, search_of_step hstep]
  cases hcomes with
  | @emit op hop hlast =>
      rw [Move.rest, Move.answer, ← List.nil_append [_]]
      refine .word ⟨?_, hlast, ?_⟩ ?_
      · rw [List.length_reverse, List.length_cons, hlast]
      · intro i move hmove
        cases hmove
      · rw [List.reverse_cons]
        exact List.prefix_append _ _
  | @descend op hop hmore hroom =>
      have hfresh : choiceAt? space (op :: path) 0 ≠ none := by
        rw [choiceAt?, Frame.choice?_fresh]
        exact Option.some_ne_none _
      exact (drops_search (op :: path) hmore hfresh).cons
  | backtrack hnone => exact absurd hnone hchoice
  | overflow hop hmore hfull =>
      rw [Move.rest, Move.answer, ← List.nil_append [_]]
      exact .full (List.forall_mem_nil _) hmore (Nat.lt_of_le_of_lt hfull hmore)
termination_by space.steps - path.length

/-! ## Back, and then down -/

/-- **The iterations of a search** from depth `d`: it goes back over frames that have nothing left to
    try, and then it ends, behind the outermost of them, or goes straight down, to a word or to the
    place where the stack is full. -/
inductive Sweeps (space : Space) (d : Nat) :
    List Move → Except Panic (Option Word × Traversal) → Prop where
  | finished {backs : List Move} {u : Traversal} (hbacks : ∀ move ∈ backs, ∃ v, move = .backtrack v)
      (hlen : backs.length = d + 1) : Sweeps space d (backs ++ [.finish]) (.ok (none, u))
  | word {backs downs : List Move} {w : Word} {u : Traversal}
      (hbacks : ∀ move ∈ backs, ∃ v, move = .backtrack v) (hlen : backs.length ≤ d)
      (hdives : Dives space (d - backs.length) w downs) :
      Sweeps space d (backs ++ (downs ++ [.emit w u])) (.ok (some w, u))
  | full {backs downs : List Move} (hbacks : ∀ move ∈ backs, ∃ v, move = .backtrack v)
      (hlen : backs.length ≤ d) (hdowns : ∀ move ∈ downs, ∃ v, move = .descend v)
      (hshort : d - backs.length + downs.length + 1 < space.steps)
      (hlong : Space.frameLimit < space.steps) :
      Sweeps space d (backs ++ (downs ++ [.overflow])) (.error .capacityOverflow)

/-- One frame more to go back over. -/
theorem Sweeps.back {d : Nat} (h : Sweeps space d moves ending) (v : Traversal) :
    Sweeps space (d + 1) (.backtrack v :: moves) ending := by
  cases h with
  | @finished backs u hbacks hlen =>
      rw [← List.cons_append]
      refine .finished (List.forall_mem_cons.mpr ⟨⟨v, rfl⟩, hbacks⟩) ?_
      rw [List.length_cons, hlen]
  | @word backs downs w u hbacks hlen hdives =>
      rw [← List.cons_append]
      refine .word (List.forall_mem_cons.mpr ⟨⟨v, rfl⟩, hbacks⟩) (Nat.succ_le_succ hlen) ?_
      rw [List.length_cons, Nat.add_sub_add_right]
      exact hdives
  | @full backs downs hbacks hlen hdowns hshort hlong =>
      rw [← List.cons_append]
      refine .full (List.forall_mem_cons.mpr ⟨⟨v, rfl⟩, hbacks⟩) (Nat.succ_le_succ hlen) hdowns ?_
        hlong
      rw [List.length_cons, Nat.add_sub_add_right]
      exact hshort

/-- With a choice at hand nothing is gone back over. -/
theorem Drops.sweeps (h : Drops space path moves ending) :
    Sweeps space path.length moves ending := by
  cases h with
  | @word downs w u hdives hfront =>
      rw [← List.nil_append (downs ++ _)]
      exact .word (List.forall_mem_nil _) (Nat.zero_le _) hdives
  | @full downs hdowns hshort hlong =>
      rw [← List.nil_append (downs ++ _)]
      exact .full (List.forall_mem_nil _) (Nat.zero_le _) hdowns hshort hlong

theorem step_of_no_choice (hlen : path.length < space.steps)
    (hnone : choiceAt? space path choice = none) :
    (standing space path choice).step space = .backtrack (retreat space path) := by
  have hcomes : Comes space path choice ((standing space path choice).step space) := comes_step hlen
  generalize (standing space path choice).step space = move at hcomes
  cases hcomes with
  | emit hop hlast => exact nomatch hnone.symm.trans hop
  | descend hop hmore hroom => exact nomatch hnone.symm.trans hop
  | backtrack hnone => rfl
  | overflow hop hmore hfull => exact nomatch hnone.symm.trans hop

/-- **Every search** from a point of a search is of this kind.  Induction on the path, which gets
    shorter on the way back. -/
theorem sweeps_search (hlen : path.length < space.steps) :
    Sweeps space path.length ((standing space path choice).moves space)
      ((standing space path choice).search space) := by
  induction path generalizing choice with
  | nil =>
      by_cases hchoice : choiceAt? space [] choice = none
      · -- the outermost frame is taken off, and nothing is left
        have hback := step_of_no_choice hlen hchoice
        have hfinish : (retreat space []).step space = .finish := rfl
        rw [moves_of_step hback, search_of_step hback, Move.rest, Move.answer,
          moves_of_step hfinish, search_of_step hfinish, Move.rest, Move.answer,
          ← List.singleton_append]
        exact .finished (by simp) rfl
      · exact (drops_search [] hlen hchoice).sweeps
  | cons op path ih =>
      by_cases hchoice : choiceAt? space (op :: path) choice = none
      · have hback := step_of_no_choice hlen hchoice
        rw [moves_of_step hback, search_of_step hback]
        exact (ih (Nat.lt_of_succ_lt hlen)).back _
      · exact (drops_search (op :: path) hlen hchoice).sweeps

/-- **The bound**: a search goes back over the frames of a stack that is no higher than a word is
    long, and down over no more places than it has left. -/
theorem Sweeps.length_le {d : Nat} (h : Sweeps space d moves ending) (hd : d < space.steps) :
    moves.length ≤ 2 * space.steps := by
  cases h with
  | finished hbacks hlen =>
      rw [List.length_append, List.length_singleton]
      omega
  | word hbacks hlen hdives =>
      have hdown := hdives.length
      rw [List.length_append, List.length_append, List.length_singleton]
      omega
  | full hbacks hlen hdowns hshort hlong =>
      rw [List.length_append, List.length_append, List.length_singleton]
      omega

/-! ## Any call -/

/-- **The iterations of any call** of a pass are at most twice as many as the operations in a word,
    and with room for the frames the call returns.  The iterations go back over at most as many
    frames as operations.  Then the pass is over, or each of them puts one more operation of a word
    on the path, and the last one hands the word out.  A call that panics has gone down no less
    straight. -/
theorem iterations_bounded (hsteps : 0 < space.steps) (h : t.Reached space) :
    (t.iterations space).length ≤ 2 * space.steps ∧
      (space.steps ≤ Space.frameLimit → ∃ word? u, t.next space = .ok (word?, u)) ∧
      ∃ backs rest, t.iterations space = backs ++ rest ∧ backs.length ≤ space.steps ∧
        (∀ move ∈ backs, ∃ u, move = .backtrack u) ∧
        (∀ word? u, t.next space = .ok (word?, u) →
          t.done = true ∧ rest = [] ∧ word? = none ∨
            rest = [.finish] ∧ word? = none ∨
            ∃ downs w, rest = downs ++ [.emit w u] ∧ word? = some w ∧
              Dives space (t.path.length - backs.length) w downs) ∧
        ∀ p, t.next space = .error p →
          ∃ downs, rest = downs ++ [.overflow] ∧ ∀ move ∈ downs, ∃ u, move = .descend u := by
  cases h.resting hsteps with
  | finished =>
      refine ⟨Nat.zero_le _, fun _ => ⟨none, _, rfl⟩, [], [], rfl, Nat.zero_le _,
        List.forall_mem_nil _, ?_, ?_⟩
      · intro word? u hnext
        obtain ⟨rfl, -⟩ := Prod.mk.inj (Except.ok.inj hnext)
        exact .inl ⟨rfl, rfl, rfl⟩
      · intro p hpanic
        cases hpanic
  | ready path choice hlen =>
      have hiterations : (standing space path choice).iterations space =
          (standing space path choice).moves space := by
        simp [iterations, standing, Nat.ne_of_gt hsteps]
      have hsweeps : Sweeps space path.length ((standing space path choice).moves space)
          ((standing space path choice).search space) := sweeps_search hlen
      rw [hiterations]
      refine ⟨hsweeps.length_le hlen, fun hroom => exists_next_eq_ok hroom _, ?_⟩
      rw [next_standing hsteps path choice]
      generalize (standing space path choice).search space = ending at hsweeps ⊢
      generalize (standing space path choice).moves space = moves at hsweeps ⊢
      cases hsweeps with
      | finished hbacks hlast =>
          refine ⟨_, _, rfl, by omega, hbacks, ?_, ?_⟩
          · intro word? u hnext
            obtain ⟨rfl, -⟩ := Prod.mk.inj (Except.ok.inj hnext)
            exact .inr (.inl ⟨rfl, rfl⟩)
          · intro p hpanic
            cases hpanic
      | word hbacks hle hdives =>
          refine ⟨_, _, rfl, by omega, hbacks, ?_, ?_⟩
          · intro word? u hnext
            obtain ⟨rfl, rfl⟩ := Prod.mk.inj (Except.ok.inj hnext)
            exact .inr (.inr ⟨_, _, rfl, rfl, hdives⟩)
          · intro p hpanic
            cases hpanic
      | full hbacks hle hdowns hshort hlong =>
          refine ⟨_, _, rfl, by omega, hbacks, ?_, fun p hpanic => ⟨_, rfl, hdowns⟩⟩
          intro word? u hnext
          cases hnext

/-- Words of two operations for one element: the fourth call goes back over one frame, and then down
    to a word that begins with a question. -/
theorem iterations_bounded_behind_backtracking :
    let space : Space := { steps := 2, features := .modifiable, elements := 1 }
    let t : Traversal := standing space [.produceNext] 3
    0 < space.steps ∧ t.Reached space ∧ (t.iterations space).length = 3 ∧
      (t.iterations space).length ≤ 2 * space.steps ∧
      ∃ backs downs u,
        t.iterations space = backs ++ (downs ++ [.emit [.hasMore, .produceNext] u]) ∧
          t.next space = .ok (some [.hasMore, .produceNext], u) ∧
          backs.length ≤ space.steps ∧ (∀ move ∈ backs, ∃ v, move = .backtrack v) ∧
          Dives space (t.path.length - backs.length) [.hasMore, .produceNext] downs := by
  intro space t
  have hreached : t.Reached space := reached_behind_three_calls
  obtain ⟨hle, hreturns, backs, rest, hmoves, hback, hbacks, hrest, -⟩ :=
    iterations_bounded (by decide) hreached
  obtain ⟨word?, u, hnext⟩ := hreturns (by decide)
  have hword : word? = some [.hasMore, .produceNext] := by
    rw [(next_accounts hnext).1]
    decide
  subst hword
  refine ⟨by decide, hreached, by decide +kernel, hle, ?_⟩
  rcases hrest _ _ hnext with ⟨-, -, hnone⟩ | ⟨-, hnone⟩ | ⟨downs, w, hdown, hw, hdives⟩
  · cases hnone
  · cases hnone
  · obtain rfl : [.hasMore, .produceNext] = w := Option.some.inj hw
    exact ⟨backs, downs, u, hdown ▸ hmoves, hnext, hback, hbacks, hdives⟩

end Traversal

end Lockstep
