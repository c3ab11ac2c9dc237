import Lockstep.Reference
import Lockstep.Verdict

/-!
# Predictions and verdicts

What the reference predicts, read backwards: each kind of prediction tells the operation and the
state it was made in.  And what the judge says, read backwards: which outcomes agree, which
expectations a fault can meet, and what the tolerance changes about a verdict.

* **`Judge.demand_eq_agree`** — agreement of two candidates is what the judge looks for.
* **`Judge.isAcceptable_failed`** — a fault is accepted in two cases only.
* **`Judge.strict_of_tolerated`** — the one verdict that the tolerance turns over.
-/

namespace Lockstep

universe u

variable {α : Type u}

namespace Reference

variable {r : Reference α} {op : Operation}

theorem predict_eq_removed :
    r.predict op = .removed ↔ op = .removeLast ∧ r.canRemove = true := by
  cases op with
  | hasMore => simp [predict]
  | produceNext =>
      cases horder : r.order <;> cases hpending : r.pending <;> simp [predict, horder, hpending]
  | removeLast => cases hmark : r.canRemove <;> simp [predict, hmark]

theorem predict_eq_exhausted :
    r.predict op = .fault .exhausted ↔ op = .produceNext ∧ r.pending = [] := by
  cases op with
  | hasMore => simp [predict]
  | produceNext =>
      cases horder : r.order <;> cases hpending : r.pending <;> simp [predict, horder, hpending]
  | removeLast => cases hmark : r.canRemove <;> simp [predict, hmark]

theorem predict_eq_illegalRemoval :
    r.predict op = .fault .illegalRemoval ↔ op = .removeLast ∧ r.canRemove = false := by
  cases op with
  | hasMore => simp [predict]
  | produceNext =>
      cases horder : r.order <;> cases hpending : r.pending <;> simp [predict, horder, hpending]
  | removeLast => cases hmark : r.canRemove <;> simp [predict, hmark]

/-- With nothing pending a production changes nothing. -/
theorem advance_produceNext_of_pending_nil [BEq α] (h : r.pending = []) (observed : Option α) :
    r.advance .produceNext observed = r :=
  produceAt_of_length_le (by rw [h]; exact Nat.zero_le _)

/-- Without the marker a removal changes nothing. -/
theorem advance_removeLast_of_unmarked [BEq α] (h : r.canRemove = false)
    (observed : Option α) : r.advance .removeLast observed = r := by
  simp [advance, dropProduced, h]

end Reference

/-! ## Agreement -/

/-- Two outcomes of one call agree: the answers are the same, the elements are equal, both
    removals completed, or both calls failed with faults of one kind. -/
inductive Outcome.Agrees [BEq α] : Outcome α → Outcome α → Prop where
  /-- Two answers. -/
  | hasMore (more : Bool) : Agrees (.hasMore more) (.hasMore more)
  /-- Two elements, compared as the element type says. -/
  | produced {x y : α} (h : (x == y) = true) : Agrees (.produced x) (.produced y)
  /-- Two removals. -/
  | removed : Agrees .removed .removed
  /-- Two faults, whatever their own names and messages. -/
  | failed {f g : Fault} (h : g.kind = f.kind) : Agrees (.failed f) (.failed g)

/-- What a candidate has to come to, if another one that came to this outcome is the measure. -/
def Outcome.demand : Outcome α → Expectation α
  | .hasMore more => .hasMore more
  | .produced x => .element x
  | .removed => .removed
  | .failed f => .fault f.kind

namespace Judge

variable [BEq α] {j : Judge} {expected : Expectation α} {actual : Outcome α}
  {previous : Option (Outcome α)} {f : Fault}

/-- A fault agrees with an expected fault of its kind and with nothing else. -/
theorem failed_eq_agree :
    j.judge expected (.failed f) previous = .agree ↔ expected = .fault f.kind := by
  cases expected with
  | fault kind =>
      by_cases hkind : f.kind = kind
      · simp [judge, Fault.standsFor_iff, hkind]
      · have hne : ¬ kind = f.kind := fun h => hkind h.symm
        simp [judge, Fault.standsFor_iff, hkind, hne]
  | removed => cases hlegacy : j.isLegacyRemoval f.kind previous <;> simp [judge, hlegacy]
  | hasMore more => simp [judge]
  | element x => simp [judge]
  | anyOf xs => simp [judge]

/-- **Agreement is what the judge looks for**, when the expectation is the demand of an
    outcome. -/
theorem demand_eq_agree {o : Outcome α} :
    j.judge o.demand actual previous = .agree ↔ o.Agrees actual := by
  cases actual with
  | failed g =>
      rw [failed_eq_agree]
      constructor
      · intro h
        cases o with
        | failed f => exact .failed (Expectation.fault.inj h).symm
        | hasMore more => cases h
        | produced x => cases h
        | removed => cases h
      · rintro ⟨⟩
        rename_i f hkind
        rw [hkind]
        rfl
  | hasMore more =>
      constructor
      · intro h
        cases o with
        | hasMore more' =>
            by_cases hmore : more' = more
            · rw [hmore]
              exact .hasMore more
            · rw [Outcome.demand, judge, if_neg hmore] at h
              cases h
        | produced x => cases h
        | removed => cases h
        | failed f => cases h
      · rintro ⟨⟩
        exact if_pos rfl
  | produced y =>
      constructor
      · intro h
        cases o with
        | produced x =>
            by_cases hxy : (x == y) = true
            · exact .produced hxy
            · rw [Outcome.demand, judge, if_neg hxy] at h
              cases h
        | hasMore more => cases h
        | removed => cases h
        | failed f => cases h
      · rintro ⟨⟩
        rename_i x hxy
        exact if_pos hxy
  | removed =>
      constructor
      · intro h
        cases o with
        | removed => exact .removed
        | hasMore more => cases h
        | produced x => cases h
        | failed f => cases h
      · rintro ⟨⟩
        rfl

/-! ### Agreement, expectation by expectation -/

theorem hasMore_eq_agree {more : Bool} :
    j.judge (.hasMore more) actual previous = .agree ↔ actual = .hasMore more := by
  cases actual with
  | hasMore got => simp [judge, eq_comm]
  | produced x => simp [judge]
  | removed => simp [judge]
  | failed f => simp [judge]

theorem anyOf_eq_agree {xs : List α} :
    j.judge (.anyOf xs) actual previous = .agree ↔
      ∃ x, actual = .produced x ∧ xs.any (· == x) = true := by
  cases actual with
  | hasMore got => simp [judge]
  | produced x => simp [judge]
  | removed => simp [judge]
  | failed f => simp [judge]

theorem removed_eq_agree :
    j.judge .removed actual previous = .agree ↔ actual = .removed := by
  cases actual with
  | hasMore got => simp [judge]
  | produced x => simp [judge]
  | removed => simp [judge]
  | failed f => cases hlegacy : j.isLegacyRemoval f.kind previous <;> simp [judge, hlegacy]

theorem fault_eq_agree {kind : FaultKind} :
    j.judge (.fault kind) actual previous = .agree ↔ ∃ f, actual = .failed f ∧ f.kind = kind := by
  cases actual with
  | hasMore got => simp [judge]
  | produced x => simp [judge]
  | removed => simp [judge]
  | failed f => simp [judge, Fault.standsFor_iff]

/-- **Accepted faults.**  A fault is accepted where its kind was predicted, or as the legacy
    defect. -/
theorem isAcceptable_failed :
    (j.judge expected (.failed f) previous).isAcceptable = true ↔
      expected = .fault f.kind ∨
        (expected = .removed ∧ j.isLegacyRemoval f.kind previous = true) := by
  rw [← show j.judge expected (.failed f) previous = .agree ↔ _ from failed_eq_agree]
  cases hv : j.judge expected (.failed f) previous with
  | agree => simp [Verdict.isAcceptable]
  | tolerated =>
      obtain ⟨g, hexp, hfail, hlegacy⟩ := judge_eq_tolerated.mp hv
      obtain rfl : f = g := Outcome.failed.inj hfail
      simp [Verdict.isAcceptable, hexp, hlegacy]
  | diverge v =>
      have hno : ¬ (expected = .removed ∧ j.isLegacyRemoval f.kind previous = true) := by
        rintro ⟨hexp, hlegacy⟩
        rw [judge_eq_tolerated.mpr ⟨f, hexp, rfl, hlegacy⟩] at hv
        exact nomatch hv
      simp [Verdict.isAcceptable, hno]

omit [BEq α] in
/-- The legacy defect, spelled out. -/
theorem isLegacyRemoval_iff {raised : FaultKind} :
    j.isLegacyRemoval raised previous = true ↔
      j.toleratesLegacyRemoval = true ∧ raised = .illegalRemoval ∧
        ∃ g : Fault, previous = some (.failed g) ∧ g.kind = .exhausted := by
  cases previous with
  | none => simp [isLegacyRemoval]
  | some o => cases o <;> simp [isLegacyRemoval, Outcome.fault?, Fault.standsFor_iff, and_assoc]

/-! ## The tolerance -/

/-- A strict judge tolerates nothing. -/
theorem strict_ne_tolerated :
    (Judge.mk false).judge expected actual previous ≠ .tolerated := by
  intro h
  obtain ⟨f, -, -, hlegacy⟩ := judge_eq_tolerated.mp h
  exact Bool.noConfusion (isLegacyRemoval_iff.mp hlegacy).1

/-- What a tolerant judge tolerates, a strict one takes for an unexpected fault. -/
theorem strict_of_tolerated
    (h : (Judge.mk true).judge expected actual previous = .tolerated) :
    (Judge.mk false).judge expected actual previous =
      .diverge (.unexpectedFault .illegalRemoval) := by
  obtain ⟨f, rfl, rfl, hlegacy⟩ := judge_eq_tolerated.mp h
  simp [judge, isLegacyRemoval, (isLegacyRemoval_iff.mp hlegacy).2.1]

/-- On everything else the two judges agree. -/
theorem strict_of_ne_tolerated
    (h : (Judge.mk true).judge expected actual previous ≠ .tolerated) :
    (Judge.mk false).judge expected actual previous =
      (Judge.mk true).judge expected actual previous := by
  cases expected with
  | removed =>
      cases actual with
      | failed f =>
          have hlegacy : (Judge.mk true).isLegacyRemoval f.kind previous = false := by
            cases hl : (Judge.mk true).isLegacyRemoval f.kind previous with
            | false => rfl
            | true => exact absurd (judge_eq_tolerated.mpr ⟨f, rfl, rfl, hl⟩) h
          have hstrict : (Judge.mk false).isLegacyRemoval f.kind previous = false := rfl
          simp only [judge, hlegacy, hstrict]
      | hasMore more => rfl
      | produced x => rfl
      | removed => rfl
  | hasMore more => cases actual <;> rfl
  | element x => cases actual <;> rfl
  | anyOf xs => cases actual <;> rfl
  | fault kind => cases actual <;> rfl

end Judge

end Lockstep
