import Lockstep.Panic
import Lockstep.Proofs.Reference.Counts
import Mathlib.Algebra.Group.Nat.Defs

/-!
# Shapes in machine words

The counts of a shape are natural numbers, where a difference stops at zero and a sum has no end.  A
machine keeps them in words of 64 bits: it stops with a panic where a sum or a difference leaves
them, and where a removal finds nothing produced.  This file shows that none of this ever happens,
so that the two move alike.

Two facts about shapes carry it.  A shape has produced what it can remove (`Shape.Sound`), and no
operation loses an element: what is pending, what is produced and what removals took away always
make up the elements at the start (`Shape.balance`).  So no count is larger than the first one.

* **`Shape.balance`** — the account over any word.
* **`MachineShape.exists_after`** — one operation in machine words.
* **`MachineShape.never_panics`** — any word, from any number of elements that a word can hold.
-/

namespace Lockstep

/-! ## The account -/

namespace Shape

variable {s : Shape}

/-- Whether an operation takes an element away: a removal does, if the marker is set. -/
def takes (s : Shape) (op : Operation) : Bool := op == .removeLast && s.canRemove

/-- The number of elements that the operations of a word take away. -/
def taken (s : Shape) : List Operation → Nat
  | [] => 0
  | op :: w => (if s.takes op then 1 else 0) + (s.after op).taken w

/-- **One operation loses no element.** -/
theorem balance_after (h : s.Sound) (op : Operation) :
    (s.after op).pending + (s.after op).produced + (if s.takes op then 1 else 0) =
      s.pending + s.produced := by
  cases op with
  | hasMore => rfl
  | produceNext =>
      by_cases hpos : 0 < s.pending
      · simp [after, takes, hpos]
        omega
      · simp [after, takes, hpos]
  | removeLast =>
      cases hmark : s.canRemove with
      | true =>
          -- the marker says that there is an element to take
          have hpos : 0 < s.produced := h hmark
          simp [after, takes, hmark]
          omega
      | false => simp [after, takes, hmark]

/-- **A word loses no element.** -/
theorem balance (h : s.Sound) (w : List Operation) :
    (s.afterAll w).pending + (s.afterAll w).produced + s.taken w = s.pending + s.produced := by
  induction w generalizing s with
  | nil => rfl
  | cons op w ih =>
      have hfirst := balance_after h op
      have hrest := ih (h.after op)
      rw [afterAll_cons, taken]
      omega

end Shape

/-! ## Arithmetic that checks its range -/

/-- The sum of two machine words, if a machine word can hold it. -/
def checkedAdd (a b : UInt64) : Except Panic UInt64 :=
  if a.toNat + b.toNat < 2 ^ 64 then .ok (a + b)
  else .error ⟨some "attempt to add with overflow"⟩

/-- The difference of two machine words, if it is not negative. -/
def checkedSub (a b : UInt64) : Except Panic UInt64 :=
  if b.toNat ≤ a.toNat then .ok (a - b)
  else .error ⟨some "attempt to subtract with overflow"⟩

/-- The difference of two machine words, zero where it is negative. -/
def saturatingSub (a b : UInt64) : UInt64 := if b.toNat ≤ a.toNat then a - b else 0

theorem toNat_saturatingSub (a b : UInt64) : (saturatingSub a b).toNat = a.toNat - b.toNat := by
  rw [saturatingSub]
  split
  · rename_i hle
    exact UInt64.toNat_sub_of_le _ _ (UInt64.le_iff_toNat_le.mpr hle)
  · rename_i hlt
    rw [UInt64.toNat_zero]
    omega

/-- A shape with its counts in machine words. -/
structure MachineShape where
  /-- Elements not produced yet. -/
  pending : UInt64
  /-- Elements produced and not removed. -/
  produced : UInt64
  /-- Whether the element produced last can still be removed. -/
  canRemove : Bool

namespace MachineShape

/-- The shape before any call, for `n` elements. -/
def initial (n : UInt64) : MachineShape := ⟨n, 0, false⟩

/-- The shape after a call.  A removal asserts that there is an element to take, and then subtracts
    without going below zero. -/
def after (m : MachineShape) : Operation → Except Panic MachineShape
  | .hasMore => .ok m
  | .produceNext =>
    if 0 < m.pending then do
      let pending ← checkedSub m.pending 1
      let produced ← checkedAdd m.produced 1
      return ⟨pending, produced, true⟩
    else .ok m
  | .removeLast =>
    if m.canRemove then
      if 0 < m.produced then
        .ok { m with produced := saturatingSub m.produced 1, canRemove := false }
      else .error ⟨some "removable element must exist"⟩
    else .ok m

/-- The shape after every call of a word, unless one of them panics. -/
def afterAll (m : MachineShape) (w : List Operation) : Except Panic MachineShape := w.foldlM after m

/-- The counts as numbers. -/
def shape (m : MachineShape) : Shape := ⟨m.pending.toNat, m.produced.toNat, m.canRemove⟩

variable {m : MachineShape}

/-- **A machine shape in range**: it has produced what it can remove, and it holds no more elements
    than a machine word can count. -/
structure InRange (m : MachineShape) : Prop where
  sound : m.shape.Sound
  total : m.pending.toNat + m.produced.toNat < 2 ^ 64

theorem inRange_initial (n : UInt64) : (initial n).InRange where
  sound := Shape.sound_initial _
  total := by simpa [initial] using n.toNat_lt

/-! ## One operation -/

/-- A pending element can be counted down. -/
theorem checkedSub_pending (hpos : 0 < m.pending) :
    checkedSub m.pending 1 = .ok (m.pending - 1) := by
  have hle : (1 : UInt64).toNat ≤ m.pending.toNat := UInt64.lt_iff_toNat_lt.mp hpos
  rw [checkedSub, if_pos hle]

/-- While an element is pending, there is room for one more that is produced. -/
theorem InRange.checkedAdd_produced (h : m.InRange) (hpos : 0 < m.pending) :
    checkedAdd m.produced 1 = .ok (m.produced + 1) := by
  have hone : 0 < m.pending.toNat := UInt64.lt_iff_toNat_lt.mp hpos
  have htotal := h.total
  have hroom : m.produced.toNat + (1 : UInt64).toNat < 2 ^ 64 := by
    rw [UInt64.toNat_one]
    omega
  rw [checkedAdd, if_pos hroom]

/-- While the marker is set, there is an element to take. -/
theorem InRange.produced_pos (h : m.InRange) (hmark : m.canRemove = true) : 0 < m.produced :=
  UInt64.lt_iff_toNat_lt.mpr (h.sound hmark)

/-- While the marker is set, the difference that stops at zero does not have to stop. -/
theorem InRange.checkedSub_produced (h : m.InRange) (hmark : m.canRemove = true) :
    checkedSub m.produced 1 = .ok (saturatingSub m.produced 1) := by
  have hle : (1 : UInt64).toNat ≤ m.produced.toNat := h.sound hmark
  rw [checkedSub, saturatingSub, if_pos hle, if_pos hle]

/-- **One operation** of a shape in range does not panic, and changes the counts as it changes
    numbers. -/
theorem exists_after (h : m.InRange) (op : Operation) :
    ∃ m', m.after op = .ok m' ∧ m'.shape = m.shape.after op := by
  cases op with
  | hasMore => exact ⟨m, rfl, rfl⟩
  | produceNext =>
      by_cases hpos : 0 < m.pending
      · have hone : 0 < m.pending.toNat := UInt64.lt_iff_toNat_lt.mp hpos
        have htotal := h.total
        refine ⟨⟨m.pending - 1, m.produced + 1, true⟩, ?_, ?_⟩
        · rw [after, if_pos hpos, checkedSub_pending hpos, h.checkedAdd_produced hpos]
          rfl
        · have hpending : (m.pending - 1).toNat = m.pending.toNat - 1 :=
            UInt64.toNat_sub_of_le _ _ (UInt64.le_iff_toNat_le.mpr hone)
          have hproduced : (m.produced + 1).toNat = m.produced.toNat + 1 := by
            rw [UInt64.toNat_add, UInt64.toNat_one, Nat.mod_eq_of_lt (by omega)]
          simp [shape, Shape.after, hone, hpending, hproduced]
      · have hnone : ¬ 0 < m.pending.toNat := fun hone => hpos (UInt64.lt_iff_toNat_lt.mpr hone)
        exact ⟨m, if_neg hpos, (if_neg hnone).symm⟩
  | removeLast =>
      cases hmark : m.canRemove with
      | true =>
          refine ⟨{ m with produced := saturatingSub m.produced 1, canRemove := false }, ?_, ?_⟩
          · rw [after, if_pos hmark, if_pos (h.produced_pos hmark)]
          · have hproduced : (saturatingSub m.produced 1).toNat = m.produced.toNat - 1 :=
              toNat_saturatingSub _ _
            simp [shape, Shape.after, hmark, hproduced]
      | false =>
          refine ⟨m, ?_, ?_⟩
          · simp [after, hmark]
          · simp [shape, Shape.after, hmark]

/-- The shape behind an operation is in range again, since no element was added. -/
theorem InRange.of_shape_after {m' : MachineShape} {op : Operation} (h : m.InRange)
    (hm' : m'.shape = m.shape.after op) : m'.InRange where
  sound := hm' ▸ h.sound.after op
  total := by
    have hbalance := Shape.balance_after h.sound op
    rw [← hm'] at hbalance
    have htotal : m.shape.pending + m.shape.produced < 2 ^ 64 := h.total
    show m'.shape.pending + m'.shape.produced < 2 ^ 64
    omega

/-! ## Any word -/

/-- **Any word** leaves a shape in range in range, without a panic. -/
theorem exists_afterAll (h : m.InRange) (w : Word) :
    ∃ m', m.afterAll w = .ok m' ∧ m'.shape = m.shape.afterAll w ∧ m'.InRange := by
  induction w generalizing m with
  | nil => exact ⟨m, rfl, rfl, h⟩
  | cons op w ih =>
      obtain ⟨m₁, hafter, hshape⟩ := exists_after h op
      obtain ⟨m₂, hrun, hlast, hrange⟩ := ih (h.of_shape_after hshape)
      refine ⟨m₂, ?_, ?_, hrange⟩
      · rw [afterAll, List.foldlM_cons, hafter]
        exact hrun
      · rw [hlast, hshape]
        rfl

/-- **No arithmetic on shapes panics.**  From any number of elements that a machine word can hold,
    any word comes to the counts that it comes to on numbers.  What is pending and what is produced
    make up, with what removals took away, the elements at the start.  Where the marker is set there
    is a produced element, so that the assertion of a removal holds and its difference does not stop
    at zero; where an element is pending it can be counted down, and there is room for one more that
    is produced.  So the next operation does not panic either. -/
theorem never_panics (n : UInt64) (w : Word) :
    ∃ m, (initial n).afterAll w = .ok m ∧
      m.shape = (Shape.initial n.toNat).afterAll w ∧
      m.pending.toNat + m.produced.toNat + (Shape.initial n.toNat).taken w = n.toNat ∧
      (m.canRemove = true →
        0 < m.produced ∧ checkedSub m.produced 1 = .ok (saturatingSub m.produced 1)) ∧
      (0 < m.pending →
        checkedSub m.pending 1 = .ok (m.pending - 1) ∧
          checkedAdd m.produced 1 = .ok (m.produced + 1)) ∧
      ∀ op, ∃ m', m.after op = .ok m' ∧ m'.shape = m.shape.after op := by
  obtain ⟨m, hrun, hshape, hrange⟩ := exists_afterAll (inRange_initial n) w
  have hbalance : m.shape.pending + m.shape.produced + (Shape.initial n.toNat).taken w = n.toNat := by
    rw [hshape]
    exact Shape.balance (Shape.sound_initial n.toNat) w
  refine ⟨m, hrun, hshape, hbalance, ?_, ?_, exists_after hrange⟩
  · intro hmark
    exact ⟨hrange.produced_pos hmark, hrange.checkedSub_produced hmark⟩
  · intro hpos
    exact ⟨checkedSub_pending hpos, hrange.checkedAdd_produced hpos⟩

end MachineShape

end Lockstep
