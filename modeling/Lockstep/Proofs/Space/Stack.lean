import Lockstep.Proofs.Space.Pass
import Mathlib.Data.List.Induction

/-!
# The stack between two calls

A pass keeps nothing but a stack of frames and a path, and goes on from there at its next call.  This
file says what stands on them: the word that was handed out last, and nothing else.  The path is that
word without its last operation, and every frame remembers one operation of it, by the shape in front
of the operation and the first choice behind it.

While a search runs, the innermost frame may have tried anything, and the frames behind it remember
the path.  `Traversal.standing` is such a point, and an iteration leads from one to another: one place
deeper, one place back, or to the same place with one more choice tried.  The frame that a word is
handed out from is never taken off, so that the stack is then one frame higher than the path.

* **`Traversal.comes_step`** — what one iteration comes to.
* **`Traversal.Reached.resting`** — the points between the calls of a pass.
* **`Traversal.next_encodes`** — the stack behind a call that returns.
-/

namespace Lockstep

namespace Space

variable {space : Space}

/-- The shape that a path reaches, its last operation first. -/
def shapeAt (space : Space) (path : List Operation) : Shape :=
  (Shape.initial space.elements).afterAll path.reverse

theorem shapeAt_cons (op : Operation) (path : List Operation) :
    space.shapeAt (op :: path) = (space.shapeAt path).after op := by
  rw [shapeAt, List.reverse_cons, Shape.afterAll_append]
  rfl

/-- The frames that remember a path: each has the shape in front of its operation, and that operation
    was the last one tried. -/
def framesBehind (space : Space) : (path : List Operation) → List Frame
  | [] => []
  | op :: path => ⟨space.shapeAt path, op.code + 1⟩ :: space.framesBehind path

@[simp] theorem length_framesBehind (path : List Operation) :
    (space.framesBehind path).length = path.length := by
  induction path with
  | nil => rfl
  | cons op path ih => rw [framesBehind, List.length_cons, ih, List.length_cons]

/-- **The frames that remember a word**, the outermost first, stand at its places.  Induction on the
    word from its end, since the last operation lies on top. -/
theorem framesBehind_getElem? {w : Word} {i : Nat} {op : Operation} (h : w[i]? = some op) :
    (space.framesBehind w.reverse).reverse[i]? =
      some ⟨(Shape.initial space.elements).afterAll (w.take i), op.code + 1⟩ := by
  induction w using List.reverseRecOn with
  | nil => exact nomatch h
  | append_singleton u last ih =>
      have hlen : (space.framesBehind u.reverse).reverse.length = u.length := by simp
      rw [List.reverse_concat, framesBehind, List.reverse_cons]
      rcases Nat.lt_or_ge i u.length with hlt | hge
      · rw [List.getElem?_append_left hlt] at h
        rw [List.getElem?_append_left (by omega), List.take_append_of_le_length (Nat.le_of_lt hlt)]
        exact ih h
      · -- only the last operation stands so far out
        have hi : i < (u ++ [last]).length := (List.getElem?_eq_some_iff.mp h).1
        obtain rfl : i = u.length := by
          rw [List.length_append, List.length_singleton] at hi
          omega
        obtain rfl : last = op := by simpa using h
        rw [← hlen, List.getElem?_concat_length, hlen, List.take_left, shapeAt, List.reverse_reverse]

end Space

namespace Traversal

variable {space : Space} {path : List Operation} {choice : Nat} {t : Traversal}

/-! ## One iteration -/

/-- **A point of a search**: the innermost frame stands at the end of the path, and the others
    remember it. -/
def standing (space : Space) (path : List Operation) (choice : Nat) : Traversal :=
  ⟨⟨space.shapeAt path, choice⟩ :: space.framesBehind path, path, false,
    Nat.succ_le_succ (Nat.le_of_eq (Space.length_framesBehind path))⟩

/-- The point behind the outermost frame, where nothing is left. -/
def emptied (done : Bool) : Traversal := ⟨[], [], done, Nat.zero_le _⟩

/-- The point one place back, where the last operation of the path was tried. -/
def retreat (space : Space) : (path : List Operation) → Traversal
  | [] => emptied false
  | op :: path => standing space path (op.code + 1)

/-- The operation that is tried next at a point of a search. -/
def choiceAt? (space : Space) (path : List Operation) (choice : Nat) : Option Operation :=
  (Frame.mk (space.shapeAt path) choice).choice? space (Word.removals path)

/-- **What an iteration comes to** at a point of a search: a choice at the last place completes a
    word and stays on the stack, one before it is put on the path, if there is room for one more
    frame, and without a choice the search goes back. -/
inductive Comes (space : Space) (path : List Operation) (choice : Nat) : Move → Prop where
  | emit {op : Operation} (hop : choiceAt? space path choice = some op)
      (hlast : path.length + 1 = space.steps) :
      Comes space path choice (.emit (op :: path).reverse (standing space path (op.code + 1)))
  | descend {op : Operation} (hop : choiceAt? space path choice = some op)
      (hmore : path.length + 1 < space.steps) (hroom : path.length + 1 < Space.frameLimit) :
      Comes space path choice (.descend (standing space (op :: path) 0))
  | backtrack (hnone : choiceAt? space path choice = none) :
      Comes space path choice (.backtrack (retreat space path))
  | overflow {op : Operation} (hop : choiceAt? space path choice = some op)
      (hmore : path.length + 1 < space.steps) (hfull : Space.frameLimit ≤ path.length + 1) :
      Comes space path choice .overflow

/-- **Every iteration** at a point of a search comes to one of these. -/
theorem comes_step (h : path.length < space.steps) :
    Comes space path choice ((standing space path choice).step space) := by
  have hheight : (space.framesBehind path).length = path.length := Space.length_framesBehind path
  have htakes : Takes space (standing space path choice) ((standing space path choice).step space) :=
    takes_step space _
  generalize (standing space path choice).step space = move at htakes ⊢
  rw [standing] at htakes
  cases htakes with
  | @backtrack _ _ _ _ fits hnone =>
      have hback : (⟨space.framesBehind path, path.tail, false, length_le_of_pop fits⟩ : Traversal) =
          retreat space path := by
        cases path <;> rfl
      rw [hback]
      exact .backtrack hnone
  | emit hop hlast => exact .emit hop (Nat.le_antisymm h hlast)
  | @descend _ _ _ _ fits op hop hmore hroom =>
      rw [hheight] at hroom
      have hdown : (⟨⟨(space.shapeAt path).after op, 0⟩ :: ⟨space.shapeAt path, op.code + 1⟩ ::
          space.framesBehind path, op :: path, false, Nat.succ_le_succ fits⟩ : Traversal) =
          standing space (op :: path) 0 := by
        simp only [standing, Space.shapeAt_cons]
        rfl
      exact hdown ▸ .descend hop hmore hroom
  | overflow hop hmore hfull =>
      rw [hheight] at hfull
      exact .overflow hop hmore hfull

/-! ## One call -/

/-- A point of a search, or what is left when the outermost frame is taken off. -/
inductive Stands (space : Space) : Traversal → Prop where
  | inside (path : List Operation) (choice : Nat) (h : path.length < space.steps) :
      Stands space (standing space path choice)
  | nowhere : Stands space (emptied false)

theorem stands_retreat (h : path.length < space.steps) : Stands space (retreat space path) := by
  cases path with
  | nil => exact .nowhere
  | cons op path => exact .inside path _ (Nat.lt_of_succ_lt h)

/-- **What a call comes to** if it returns: it hands out a word and rests where it completed it, or
    the pass is over. -/
inductive Answers (space : Space) : Option Word × Traversal → Prop where
  | word (op : Operation) (path : List Operation) (h : path.length + 1 = space.steps) :
      Answers space (some (op :: path).reverse, standing space path (op.code + 1))
  | finished : Answers space (none, emptied true)

/-- A move that leads to an answer, or to another point of the search, if it leads anywhere. -/
def Move.Leads (space : Space) : Move → Prop
  | .emit w u => Answers space (some w, u)
  | .descend u => u.Stands space
  | .backtrack u => u.Stands space
  | .finish => True
  | .overflow => True

theorem Stands.leads_of_step {move : Move} (h : t.Stands space) (hstep : t.step space = move) :
    move.Leads space := by
  subst hstep
  cases h with
  | nowhere => exact trivial
  | inside path choice hlen =>
      have hcomes : Comes space path choice ((standing space path choice).step space) :=
        comes_step hlen
      generalize (standing space path choice).step space = move at hcomes ⊢
      cases hcomes with
      | emit hop hlast => exact .word _ path hlast
      | descend hop hmore hroom => exact .inside _ 0 hmore
      | backtrack hnone => exact stands_retreat hlen
      | overflow hop hmore hfull => exact trivial

/-- A search ends nowhere but behind the outermost frame. -/
theorem Stands.eq_emptied (h : t.Stands space) (hstep : t.step space = .finish) :
    t = emptied false := by
  cases h with
  | nowhere => rfl
  | inside path choice hlen =>
      have hcomes : Comes space path choice ((standing space path choice).step space) :=
        comes_step hlen
      rw [hstep] at hcomes
      exact nomatch hcomes

/-- **A search** that returns has led from any of its points to an answer. -/
theorem Stands.answers {answer : Option Word × Traversal} (h : t.Stands space)
    (hsearch : t.search space = .ok answer) : Answers space answer := by
  fun_induction search space t with
  | case1 t w u hstep =>
      obtain rfl := Except.ok.inj hsearch
      exact h.leads_of_step hstep
  | case2 t u hstep ih => exact ih (h.leads_of_step hstep) hsearch
  | case3 t u hstep ih => exact ih (h.leads_of_step hstep) hsearch
  | case4 t hstep =>
      obtain rfl := Except.ok.inj hsearch
      rw [h.eq_emptied hstep]
      exact .finished
  | case5 t hstep => cases hsearch

/-! ## All calls -/

/-- **A point between two calls**: a search can go on from there, or the pass is over. -/
inductive Resting (space : Space) : Traversal → Prop where
  | ready (path : List Operation) (choice : Nat) (h : path.length < space.steps) :
      Resting space (standing space path choice)
  | finished : Resting space (emptied true)

theorem Answers.resting {answer : Option Word × Traversal} (h : Answers space answer) :
    answer.2.Resting space := by
  cases h with
  | word op path hlast => exact .ready path _ (by omega)
  | finished => exact .finished

/-- A call that is not behind the end is a search. -/
theorem next_standing (hsteps : 0 < space.steps) (path : List Operation) (choice : Nat) :
    (standing space path choice).next space = (standing space path choice).search space := by
  simp [next, standing, Nat.ne_of_gt hsteps]

/-- **A call** from a point between two calls has an answer, if it returns. -/
theorem Resting.answers {answer : Option Word × Traversal} (hsteps : 0 < space.steps)
    (h : t.Resting space) (hnext : t.next space = .ok answer) : Answers space answer := by
  cases h with
  | finished =>
      obtain rfl := Except.ok.inj hnext
      exact .finished
  | ready path choice hlen =>
      rw [next_standing hsteps] at hnext
      exact (Stands.inside path choice hlen).answers hnext

/-- **A point that a pass comes to**: the start, and the point behind each call that returns. -/
inductive Reached (space : Space) : Traversal → Prop where
  | start : Reached space (start space)
  | next {t u : Traversal} {word? : Option Word} (h : Reached space t)
      (hnext : t.next space = .ok (word?, u)) : Reached space u

/-- **Every point that a pass comes to** lies between two calls. -/
theorem Reached.resting (hsteps : 0 < space.steps) (h : t.Reached space) : t.Resting space := by
  induction h with
  | start => exact .ready [] 0 hsteps
  | next h hnext ih => exact (ih.answers hsteps hnext).resting

/-- **The stack remembers the word that was handed out last.**  Behind a call that hands out a word,
    the path is the word without its last operation, and the stack has one frame for each operation:
    the shape that the operations in front of it reach, and the choice behind it.  Behind a call that
    hands out nothing, nothing is left and the end is marked. -/
theorem next_encodes (hsteps : 0 < space.steps) (h : t.Reached space) {word? : Option Word}
    {u : Traversal} (hnext : t.next space = .ok (word?, u)) :
    (∀ w, word? = some w →
      u.path.reverse = w.dropLast ∧ u.frames.length = space.steps ∧
        ∀ (i : Nat) op, w[i]? = some op →
          u.frames.reverse[i]? =
            some ⟨(Shape.initial space.elements).afterAll (w.take i), op.code + 1⟩) ∧
      (word? = none → u.frames = [] ∧ u.path = [] ∧ u.done = true) := by
  cases (h.resting hsteps).answers hsteps hnext with
  | finished => exact ⟨nofun, fun _ => ⟨rfl, rfl, rfl⟩⟩
  | word op path hlast =>
      refine ⟨?_, nofun⟩
      intro w hw
      obtain rfl : (op :: path).reverse = w := Option.some.inj hw
      -- the frame that the word was completed at is still on the stack
      have hframes : (standing space path (op.code + 1)).frames =
          space.framesBehind (op :: path).reverse.reverse := by
        rw [List.reverse_reverse]
        rfl
      refine ⟨?_, ?_, ?_⟩
      · rw [List.reverse_cons, List.dropLast_concat]
        rfl
      · rw [hframes, Space.length_framesBehind, List.length_reverse, List.length_reverse,
          List.length_cons, hlast]
      · intro i op' hi
        rw [hframes]
        exact Space.framesBehind_getElem? hi

/-- The point behind three calls of a pass over words of two operations for one element. -/
theorem reached_behind_three_calls :
    let space : Space := { steps := 2, features := .modifiable, elements := 1 }
    (standing space [.produceNext] 3).Reached space := by
  intro space
  have hfirst : (start space).next space =
      .ok (some [.produceNext, .produceNext], standing space [.produceNext] 1) := by
    decide +kernel
  have hsecond : (standing space [.produceNext] 1).next space =
      .ok (some [.produceNext, .hasMore], standing space [.produceNext] 2) := by
    decide +kernel
  have hthird : (standing space [.produceNext] 2).next space =
      .ok (some [.produceNext, .removeLast], standing space [.produceNext] 3) := by
    decide +kernel
  exact .next (.next (.next .start hfirst) hsecond) hthird

/-- The fourth call there goes back behind the first operation, and its word begins with a
    question. -/
theorem next_encodes_behind_backtracking :
    let space : Space := { steps := 2, features := .modifiable, elements := 1 }
    let t : Traversal := standing space [.produceNext] 3
    ∃ u, 0 < space.steps ∧ t.Reached space ∧
      t.next space = .ok (some [.hasMore, .produceNext], u) ∧
      u.path.reverse = [.hasMore] ∧ u.frames.length = 2 ∧
      u.frames.reverse[0]? = some ⟨⟨1, 0, false⟩, 2⟩ ∧
      u.frames.reverse[1]? = some ⟨⟨1, 0, false⟩, 1⟩ := by
  intro space t
  have hnext : t.next space =
      .ok (some [.hasMore, .produceNext], standing space [.hasMore] 1) := by
    decide +kernel
  obtain ⟨hpath, hframes, hframe⟩ :=
    (next_encodes (by decide) reached_behind_three_calls hnext).1 _ rfl
  exact ⟨_, by decide, reached_behind_three_calls, hnext, hpath, hframes, hframe 0 _ rfl,
    hframe 1 _ rfl⟩

end Traversal

end Lockstep
