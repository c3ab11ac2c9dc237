import Lockstep.Panic
import Lockstep.Space

/-!
# Traversals

A `Traversal` is a lazy pass over a space, depth first. It keeps one frame for each place of the
current path: the shape reached there and the first operation that has not been tried yet. A
call of `Traversal.next` resumes exactly where the call before it stopped, so a huge space can
be entered without being listed.

One iteration of the search (`Traversal.step`) emits a word, goes one place deeper, backtracks,
or finds that no frame is left. Every iteration lowers `Traversal.weight`, which counts the
untried operations of a frame at depth `d` with weight `5 ^ (steps - d)`: going deeper spends one
untried operation and buys at most four units of the next smaller weight.

A pass over very long words meets the end of memory, and then it panics: when it begins, if
there is no room for the path, and else when it goes deeper, if there is none for one more frame.
-/

namespace Lockstep

namespace Space

/-- A number of bytes that no memory has room for. -/
def memoryLimit : Nat := Nat.pow 2 63

/-- The most frames that a pass can keep. A frame takes 32 bytes, and a stack that is full grows
to twice its size, so behind so many frames it would ask for all of `memoryLimit`. -/
def frameLimit : Nat := Nat.pow 2 57

example : 32 * frameLimit < memoryLimit ∧ 32 * (2 * frameLimit) = memoryLimit := by decide

end Space

/-- One place of the current path. -/
structure Frame where
  /-- The shape reached there. -/
  shape : Shape
  /-- The code of the first operation that has not been tried. -/
  nextChoice : Nat
  deriving DecidableEq, Repr

namespace Frame

/-- The first untried operation that the space permits. -/
def choice? (f : Frame) (space : Space) (removals : Nat) : Option Operation :=
  (Operation.all.drop f.nextChoice).find? (space.permits f.shape · removals)

/-- The frame once `op` was tried. -/
def tried (f : Frame) (op : Operation) : Frame := { f with nextChoice := op.code + 1 }

/-- The number of operations left to try, and one for the frame itself. -/
def weight (f : Frame) : Nat := 3 - f.nextChoice + 1

theorem weight_pos (f : Frame) : 0 < f.weight := Nat.succ_pos _

theorem le_code_of_choice? {f : Frame} {space : Space} {removals : Nat} {op : Operation}
    (h : f.choice? space removals = some op) : f.nextChoice ≤ op.code :=
  Operation.mem_all_drop.mp (List.mem_of_find?_eq_some h)

theorem weight_tried_lt {f : Frame} {space : Space} {removals : Nat} {op : Operation}
    (h : f.choice? space removals = some op) : (f.tried op).weight < f.weight := by
  have h₁ := le_code_of_choice? h
  have h₂ := op.code_lt
  simp only [weight, tried]
  omega

end Frame

/-- A pass over a space, at one point. -/
structure Traversal where
  /-- The frames of the current path, the innermost first. -/
  frames : List Frame
  /-- The operations of the current path, the last one first. -/
  path : List Operation
  /-- Whether the pass has ended. -/
  done : Bool
  /-- There are no frames but one at the start and one behind each operation of the path. -/
  fits : frames.length ≤ path.length + 1
  deriving DecidableEq, Repr

namespace Traversal

/-- A fresh pass. -/
def start (space : Space) : Traversal :=
  ⟨[⟨.initial space.elements, 0⟩], [], false, Nat.le_refl _⟩

/-- What one iteration of the search comes to. -/
inductive Move where
  /-- A word is complete. -/
  | emit (w : Word) (t : Traversal)
  /-- The path became longer. -/
  | descend (t : Traversal)
  /-- The innermost frame had nothing left to try. -/
  | backtrack (t : Traversal)
  /-- No frame is left. -/
  | finish
  /-- There is no room for one more frame. -/
  | overflow

/-- The point behind a move. -/
def Move.behind? : Move → Option Traversal
  | .emit _ t | .descend t | .backtrack t => some t
  | .finish | .overflow => none

/-- An operation is taken off the path together with the frame behind it. -/
theorem length_le_of_pop {f : Frame} {outer : List Frame} {path : List Operation}
    (h : (f :: outer).length ≤ path.length + 1) : outer.length ≤ path.tail.length + 1 := by
  rw [List.length_cons] at h
  rw [List.length_tail]
  omega

/-- One iteration of the search. An operation that completes a word is not put on the path, since
nothing is to be explored behind it. -/
def step (space : Space) : Traversal → Move
  | ⟨[], _, _, _⟩ => .finish
  | ⟨f :: outer, path, done, fits⟩ =>
    match f.choice? space (Word.removals path) with
    | none => .backtrack ⟨outer, path.tail, done, length_le_of_pop fits⟩
    | some op =>
      -- at every point that a pass comes to, the last place is met exactly (`comes_step`); stated
      -- as a bound, the test makes the search end from any other point, too
      if space.steps ≤ path.length + 1 then
        .emit (op :: path).reverse ⟨f.tried op :: outer, path, done, fits⟩
      else if outer.length + 1 < Space.frameLimit then
        .descend
          ⟨⟨f.shape.after op, 0⟩ :: f.tried op :: outer, op :: path, done, Nat.succ_le_succ fits⟩
      else .overflow

/-- **What an iteration comes to**, with all that was found out on the way. This is what other
lemmas know of `step`. -/
inductive Takes (space : Space) : Traversal → Move → Prop where
  | finish {path : List Operation} {done : Bool} {fits : 0 ≤ path.length + 1} :
      Takes space ⟨[], path, done, fits⟩ .finish
  | backtrack {f : Frame} {outer : List Frame} {path : List Operation} {done : Bool}
      {fits : (f :: outer).length ≤ path.length + 1}
      (hnone : f.choice? space (Word.removals path) = none) :
      Takes space ⟨f :: outer, path, done, fits⟩
        (.backtrack ⟨outer, path.tail, done, length_le_of_pop fits⟩)
  | emit {f : Frame} {outer : List Frame} {path : List Operation} {done : Bool}
      {fits : (f :: outer).length ≤ path.length + 1} {op : Operation}
      (hop : f.choice? space (Word.removals path) = some op)
      (hlast : space.steps ≤ path.length + 1) :
      Takes space ⟨f :: outer, path, done, fits⟩
        (.emit (op :: path).reverse ⟨f.tried op :: outer, path, done, fits⟩)
  | descend {f : Frame} {outer : List Frame} {path : List Operation} {done : Bool}
      {fits : (f :: outer).length ≤ path.length + 1} {op : Operation}
      (hop : f.choice? space (Word.removals path) = some op)
      (hmore : path.length + 1 < space.steps) (hroom : outer.length + 1 < Space.frameLimit) :
      Takes space ⟨f :: outer, path, done, fits⟩
        (.descend
          ⟨⟨f.shape.after op, 0⟩ :: f.tried op :: outer, op :: path, done, Nat.succ_le_succ fits⟩)
  | overflow {f : Frame} {outer : List Frame} {path : List Operation} {done : Bool}
      {fits : (f :: outer).length ≤ path.length + 1} {op : Operation}
      (hop : f.choice? space (Word.removals path) = some op)
      (hmore : path.length + 1 < space.steps) (hfull : Space.frameLimit ≤ outer.length + 1) :
      Takes space ⟨f :: outer, path, done, fits⟩ .overflow

/-- Every iteration comes to one of these. -/
theorem takes_step (space : Space) (t : Traversal) : Takes space t (t.step space) := by
  obtain ⟨frames, path, done, fits⟩ := t
  cases frames with
  | nil => exact .finish
  | cons f outer =>
    rw [step]
    cases hop : f.choice? space (Word.removals path) with
    | none => exact .backtrack hop
    | some op =>
      by_cases hlast : space.steps ≤ path.length + 1
      · simp only [hlast, ↓reduceIte]
        exact .emit hop hlast
      · by_cases hroom : outer.length + 1 < Space.frameLimit
        · simp only [hlast, hroom, ↓reduceIte]
          exact .descend hop (Nat.lt_of_not_le hlast) hroom
        · simp only [hlast, hroom, ↓reduceIte]
          exact .overflow hop (Nat.lt_of_not_le hlast) (Nat.le_of_not_lt hroom)

theorem takes_of_step {space : Space} {t : Traversal} {move : Move} (h : t.step space = move) :
    Takes space t move := h ▸ takes_step space t

/-! ## The search ends -/

/-- The weight of a stack of frames whose innermost one stands at depth `d`. -/
def stackWeight (steps : Nat) : (d : Nat) → List Frame → Nat
  | _, [] => 0
  | d, f :: outer => f.weight * Nat.pow 5 (steps - d) + stackWeight steps (d - 1) outer

/-- The weight of what is left to try. -/
def weight (space : Space) (t : Traversal) : Nat := stackWeight space.steps t.path.length t.frames

private theorem stackWeight_tried_lt {steps d : Nat} {f g : Frame} (outer : List Frame)
    (h : g.weight < f.weight) :
    stackWeight steps d (g :: outer) < stackWeight steps d (f :: outer) := by
  have : g.weight * Nat.pow 5 (steps - d) < f.weight * Nat.pow 5 (steps - d) :=
    Nat.mul_lt_mul_of_pos_right h (Nat.pow_pos (by decide))
  simp only [stackWeight]
  omega

private theorem stackWeight_pop_lt {steps d : Nat} (f : Frame) (outer : List Frame) :
    stackWeight steps (d - 1) outer < stackWeight steps d (f :: outer) := by
  have : 0 < f.weight * Nat.pow 5 (steps - d) :=
    Nat.mul_pos f.weight_pos (Nat.pow_pos (by decide))
  simp only [stackWeight]
  omega

/-- A new frame costs four units of the weight below the one that the choice frees. -/
private theorem stackWeight_push_lt {steps d : Nat} {f g : Frame} (s : Shape) (outer : List Frame)
    (h : g.weight < f.weight) (hshort : d + 1 < steps) :
    stackWeight steps (d + 1) (⟨s, 0⟩ :: g :: outer) < stackWeight steps d (f :: outer) := by
  have hdepth : steps - d = steps - (d + 1) + 1 := by omega
  have hpow : Nat.pow 5 (steps - d) = Nat.pow 5 (steps - (d + 1)) * 5 := by
    rw [hdepth]
    rfl
  have hpos : 0 < Nat.pow 5 (steps - (d + 1)) := Nat.pow_pos (by decide)
  have hmul : (g.weight + 1) * Nat.pow 5 (steps - d) ≤ f.weight * Nat.pow 5 (steps - d) :=
    Nat.mul_le_mul_right _ h
  simp only [stackWeight, Nat.add_sub_cancel]
  simp only [Frame.weight] at hmul ⊢
  rw [Nat.add_mul] at hmul
  omega

/-- **Every iteration** uses up some of the weight, and none of them marks the end. -/
theorem weight_step_lt {space : Space} {t u : Traversal} (h : (t.step space).behind? = some u) :
    u.weight space < t.weight space ∧ u.done = t.done := by
  have htakes := takes_step space t
  generalize t.step space = move at htakes h
  cases htakes with
  | finish => cases h
  | @backtrack f outer path done fits hnone =>
    cases h
    refine ⟨?_, rfl⟩
    simp only [weight, List.length_tail]
    exact stackWeight_pop_lt f outer
  | @emit f outer path done fits op hop hlast =>
    cases h
    exact ⟨stackWeight_tried_lt outer (Frame.weight_tried_lt hop), rfl⟩
  | @descend f outer path done fits op hop hmore hroom =>
    cases h
    exact ⟨stackWeight_push_lt _ outer (Frame.weight_tried_lt hop) hmore, rfl⟩
  | overflow hop hmore hfull => cases h

/-- The search for the next word: iterations until a word is complete, no frame is left, or there
is no room for one more. -/
def search (space : Space) (t : Traversal) : Except Panic (Option Word × Traversal) :=
  match _h : t.step space with
  | .emit w u => .ok (some w, u)
  | .descend u => u.search space
  | .backtrack u => u.search space
  | .finish => .ok (none, { t with done := true })
  | .overflow => .error .capacityOverflow
termination_by t.weight space
decreasing_by
  · exact (weight_step_lt (congrArg Move.behind? _h)).1
  · exact (weight_step_lt (congrArg Move.behind? _h)).1

/-- The next word of the pass, if there is one, and the pass behind it. The space of words
without operations holds the empty word alone. -/
def next (space : Space) (t : Traversal) : Except Panic (Option Word × Traversal) :=
  if t.done then .ok (none, t)
  else if space.steps = 0 then .ok (some [], { t with done := true })
  else t.search space

/-- The weight of what is left to emit. -/
def budget (space : Space) (t : Traversal) : Nat := if t.done then 0 else t.weight space + 1

theorem weight_search_lt {space : Space} {t u : Traversal} {w : Word}
    (h : t.search space = .ok (some w, u)) :
    u.weight space < t.weight space ∧ u.done = t.done := by
  fun_induction search space t with
  | case1 t v u' hstep =>
    cases h
    exact weight_step_lt (congrArg Move.behind? hstep)
  | case2 t u' hstep ih | case3 t u' hstep ih =>
    obtain ⟨hlt, hdone⟩ := ih h
    obtain ⟨hlt', hdone'⟩ := weight_step_lt (congrArg Move.behind? hstep)
    exact ⟨Nat.lt_trans hlt hlt', hdone.trans hdone'⟩
  | case4 t hstep => exact nomatch h
  | case5 t hstep => exact nomatch h

/-- Every word that is emitted uses up some of the budget. -/
theorem budget_next_lt {space : Space} {t u : Traversal} {w : Word}
    (h : t.next space = .ok (some w, u)) : u.budget space < t.budget space := by
  unfold next at h
  by_cases hdone : t.done = true
  · simp [hdone] at h
  · by_cases hsteps : space.steps = 0
    · simp only [hdone, hsteps, ↓reduceIte, Bool.false_eq_true, Except.ok.injEq, Prod.mk.injEq] at h
      rw [← h.2]
      simp [hdone, budget]
    · simp only [hdone, hsteps, ↓reduceIte, Bool.false_eq_true] at h
      obtain ⟨hlt, hd⟩ := weight_search_lt h
      simp only [budget, hd, hdone, ↓reduceIte, Bool.false_eq_true]
      omega

/-! ## Passes -/

universe u v

/-- Takes in the words that are left, one after the other, until there is none or `f` stops. A
panic of the pass stops with what `raise` makes of it. -/
def foldUntil {ε : Type u} {β : Type v} (space : Space) (raise : Panic → ε)
    (f : β → Word → Except ε β) (b : β) (t : Traversal) : Except ε β :=
  match _h : t.next space with
  | .error p => .error (raise p)
  | .ok (none, _) => .ok b
  | .ok (some w, u) =>
    match f b w with
    | .ok b => u.foldUntil space raise f b
    | .error e => .error e
termination_by t.budget space
decreasing_by exact budget_next_lt _h

/-- The pass after at most `n` further words. -/
def skip (space : Space) : Nat → Traversal → Except Panic Traversal
  | 0, t => .ok t
  | n + 1, t =>
    match t.next space with
    | .error p => .error p
    | .ok (none, u) => .ok u
    | .ok (some _, u) => u.skip space n

/-- At most `n` further words. -/
def take (space : Space) : Nat → Traversal → Except Panic (List Word)
  | 0, _ => .ok []
  | n + 1, t =>
    match t.next space with
    | .error p => .error p
    | .ok (none, _) => .ok []
    | .ok (some w, u) => (u.take space n).map (w :: ·)

/-- At most `limit` further words, the first `start` ones left out. Nothing is searched where no
word is asked for, however many are to be left out. -/
def slice (space : Space) (start limit : Nat) (t : Traversal) : Except Panic (List Word) :=
  if limit = 0 then .ok [] else (t.skip space start).bind (·.take space limit)

end Traversal

namespace Space

universe u v

/-- Begins a pass. Room for the path is set aside at once, a byte for each operation, so words
too long for any memory end in a panic before the first one is asked for. -/
def pass (space : Space) : Except Panic Traversal :=
  if space.steps < memoryLimit then .ok (.start space) else .error .capacityOverflow

theorem pass_eq_ok {space : Space} {t : Traversal} :
    space.pass = .ok t ↔ space.steps < memoryLimit ∧ t = .start space := by
  unfold pass
  split
  · rename_i h
    simp [h, eq_comm]
  · rename_i h
    simp [h]

theorem pass_eq_error {space : Space} (h : ¬ space.steps < memoryLimit) :
    space.pass = .error .capacityOverflow := if_neg h

/-- Takes in the words of the space in order until `f` stops. -/
def foldUntil {ε : Type u} {β : Type v} (space : Space) (raise : Panic → ε)
    (f : β → Word → Except ε β) (b : β) : Except ε β :=
  match space.pass with
  | .error p => .error (raise p)
  | .ok t => t.foldUntil space raise f b

/-- Takes in every word of the space in order. -/
def fold {β : Type u} (space : Space) (f : β → Word → β) (b : β) : Except Panic β :=
  space.foldUntil id (fun b w => .ok (f b w)) b

/-- A number that a counter of 64 bits cannot hold. -/
def counterLimit : Nat := Nat.pow 2 64

/-- One more word, unless the counter is full. -/
def tick (n : Nat) (_ : Word) : Except Panic Nat :=
  if n + 1 < counterLimit then .ok (n + 1) else .error ⟨some "attempt to add with overflow"⟩

/-- The number of words in the space. -/
def count (space : Space) : Except Panic Nat := space.foldUntil id tick 0

end Space

end Lockstep
