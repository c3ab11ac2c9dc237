import Lockstep.Proofs.Replay.Serving

/-!
# The laws of the cursor

The indices of the cursor shift with every removal, so what it holds is told by the places of the
original list instead.  Productions go through the places one by one.  A removal takes out the
place of the latest production, and a place that was taken out is gone for good.

The invariant, `Cursor.Keeps`, cuts the original list at the place that comes next.  In front of
the cursor stand the places not taken out, behind it the rest of the list, and the index that a
removal would use is that of the place in front of the cut.

* **`Cursor.removable_iff_due`** — a removal is due exactly when a production succeeded behind the
  last call of one.
* **`Cursor.keeps_stateAfter`** — the invariant holds behind every word.
* **`Cursor.obeys_laws`** — what every call answers, what the contents are, and that nothing
  panics.
-/

namespace Lockstep

universe u v

variable {σ : Type v} {α : Type u}

/-! ## Places taken out -/

/-- The places of a list up to some place, and the element there. -/
theorem take_succ_zipIdx {xs : List α} {x : α} {p : Nat} (hx : xs[p]? = some x) :
    xs.zipIdx.take (p + 1) = xs.zipIdx.take p ++ [(x, p)] := by
  rw [List.take_add_one, List.getElem?_zipIdx, hx]
  simp

theorem lt_of_mem_take_zipIdx {xs : List α} {p : Nat} {e : α × Nat}
    (he : e ∈ xs.zipIdx.take p) : e.2 < p := by
  obtain ⟨i, hi, rfl⟩ := List.mem_take_iff_getElem.mp he
  rw [List.getElem_zipIdx, Nat.zero_add]
  exact (Nat.lt_min.mp hi).1

theorem le_of_mem_drop_zipIdx {xs : List α} {p : Nat} {e : α × Nat}
    (he : e ∈ xs.zipIdx.drop p) : p ≤ e.2 := by
  obtain ⟨i, hi, rfl⟩ := List.mem_drop_iff_getElem.mp he
  rw [List.getElem_zipIdx, Nat.zero_add]
  exact Nat.le_add_right p i

namespace Outcome

/-- Whether a call completed a removal. -/
def isRemoved : Outcome α → Bool
  | removed => true
  | _ => false

@[simp] theorem isRemoved_eq_true {o : Outcome α} : o.isRemoved = true ↔ o = .removed := by
  cases o <;> simp [isRemoved]

/-- The element at place `p` was **taken out**: a removal succeeded when exactly `p + 1`
    productions had, that is behind the production of number `p` and in front of the next one. -/
def TakenOut (os : List (Outcome α)) (p : Nat) : Prop :=
  ∃ k : Nat, os[k]? = some .removed ∧ (elements (os.take k)).length = p + 1

variable {os : List (Outcome α)} {o : Outcome α} {p : Nat}

/-- Only an element that was returned can be taken out. -/
theorem TakenOut.lt (h : TakenOut os p) : p < (elements os).length := by
  obtain ⟨k, -, hlen⟩ := h
  have hle : (elements (os.take k)).length ≤ (elements os).length :=
    ((List.take_sublist k os).filterMap element?).length_le
  omega

/-- **One more answer** takes out the place of the latest production, if it is a removal. -/
theorem takenOut_concat :
    TakenOut (os ++ [o]) p ↔
      TakenOut os p ∨ (o = .removed ∧ (elements os).length = p + 1) := by
  constructor
  · rintro ⟨k, hk, hlen⟩
    rcases Nat.lt_trichotomy k os.length with hlt | rfl | hgt
    · rw [List.getElem?_append_left hlt] at hk
      rw [List.take_append_of_le_length (Nat.le_of_lt hlt)] at hlen
      exact .inl ⟨k, hk, hlen⟩
    · rw [List.getElem?_concat_length] at hk
      rw [List.take_left] at hlen
      exact .inr ⟨Option.some.inj hk, hlen⟩
    · rw [List.getElem?_eq_none (by rw [List.length_append, List.length_singleton]; omega)] at hk
      exact nomatch hk
  · rintro (⟨k, hk, hlen⟩ | ⟨rfl, hlen⟩)
    · have hlt : k < os.length := (List.getElem?_eq_some_iff.mp hk).1
      refine ⟨k, ?_, ?_⟩
      · rwa [List.getElem?_append_left hlt]
      · rwa [List.take_append_of_le_length (Nat.le_of_lt hlt)]
    · exact ⟨os.length, List.getElem?_concat_length, by rwa [List.take_left]⟩

theorem takenOut_concat_removed :
    TakenOut (os ++ [.removed]) p ↔ TakenOut os p ∨ (elements os).length = p + 1 := by
  rw [takenOut_concat]
  exact or_congr_right (and_iff_right rfl)

theorem takenOut_concat_of_not_removed (ho : o.isRemoved = false) :
    TakenOut (os ++ [o]) p ↔ TakenOut os p := by
  rw [takenOut_concat]
  refine or_iff_left fun h => ?_
  rw [isRemoved_eq_true.mpr h.1] at ho
  exact Bool.noConfusion ho

instance decidableTakenOut (os : List (Outcome α)) (p : Nat) : Decidable (TakenOut os p) :=
  decidable_of_iff
    (∃ k : Fin os.length, os[k].isRemoved = true ∧ (elements (os.take k)).length = p + 1) <| by
    constructor
    · rintro ⟨k, hk, hlen⟩
      exact ⟨k, List.getElem?_eq_some_iff.mpr ⟨k.isLt, isRemoved_eq_true.mp hk⟩, hlen⟩
    · rintro ⟨k, hk, hlen⟩
      obtain ⟨hlt, hget⟩ := List.getElem?_eq_some_iff.mp hk
      exact ⟨⟨k, hlt⟩, isRemoved_eq_true.mpr hget, hlen⟩

/-- Those of some places, each with its element, that were not taken out. -/
def kept (os : List (Outcome α)) (places : List (α × Nat)) : List (α × Nat) :=
  places.filter fun e => ¬ TakenOut os e.2

theorem kept_append (os : List (Outcome α)) (places later : List (α × Nat)) :
    kept os (places ++ later) = kept os places ++ kept os later := List.filter_append ..

theorem kept_congr {os os' : List (Outcome α)} {places : List (α × Nat)}
    (h : ∀ e ∈ places, TakenOut os e.2 ↔ TakenOut os' e.2) : kept os places = kept os' places :=
  List.filter_congr fun e he => decide_eq_decide.mpr (not_congr (h e he))

theorem kept_eq_self {places : List (α × Nat)} (h : ∀ e ∈ places, ¬ TakenOut os e.2) :
    kept os places = places :=
  List.filter_eq_self.mpr fun e he => by simpa using h e he

theorem kept_singleton {e : α × Nat} (h : ¬ TakenOut os e.2) : kept os [e] = [e] :=
  kept_eq_self (by simpa using h)

theorem kept_singleton_of_takenOut {e : α × Nat} (h : TakenOut os e.2) : kept os [e] = [] := by
  simp [kept, h]

theorem kept_concat_of_not_removed (ho : o.isRemoved = false) (places : List (α × Nat)) :
    kept (os ++ [o]) places = kept os places :=
  kept_congr fun _ _ => takenOut_concat_of_not_removed ho

/-- A place that was passed and not taken out is the last one kept. -/
theorem kept_take_succ {xs : List α} {x : α} (hx : xs[p]? = some x) (hin : ¬ TakenOut os p) :
    kept os (xs.zipIdx.take (p + 1)) = kept os (xs.zipIdx.take p) ++ [(x, p)] := by
  rw [take_succ_zipIdx hx, kept_append, kept_singleton hin]

/-- A removal gives up the place passed last, and no other. -/
theorem kept_concat_removed {xs : List α} {x : α} (hx : xs[p]? = some x)
    (hlen : (elements os).length = p + 1) :
    kept (os ++ [.removed]) (xs.zipIdx.take (p + 1)) = kept os (xs.zipIdx.take p) := by
  rw [take_succ_zipIdx hx, kept_append,
    kept_singleton_of_takenOut (takenOut_concat_removed.mpr (.inr hlen)), List.append_nil]
  refine kept_congr fun e he => takenOut_concat_removed.trans (or_iff_left fun heq => ?_)
  have hlt := lt_of_mem_take_zipIdx he
  omega

example : kept [.produced 7, .removed, .produced 8, .failed .exhausted, .removed] [7, 8, 9].zipIdx =
    [(9, 2)] := by decide

end Outcome

/-! ## Removals that succeed -/

/-- An element is **removable** behind the calls of `u`, which came to `os`: a production succeeded
    and no removal was called behind it. -/
def Word.Removable (u : Word) (os : List (Outcome α)) : Prop :=
  ∃ (j : Nat) (x : α), os[j]? = some (.produced x) ∧ ∀ k, j < k → u[k]? ≠ some .removeLast

/-- Each call of a word comes to what it comes to behind the calls in front of it. -/
theorem Candidate.getElem?_outcomes (c : Candidate σ α) (s : σ) (w : Word) (i : Nat) :
    (c.outcomes s w)[i]? =
      w[i]?.map fun op => (c.perform op (c.stateAfter s (w.take i))).1 := by
  induction w generalizing s i with
  | nil => rfl
  | cons op w ih =>
      cases i with
      | zero => rfl
      | succ i => exact ih _ i

/-- A candidate none of whose calls panics answers every word. -/
theorem Candidate.callAll_eq_ok {c : Candidate σ α} {s : σ}
    (h : ∀ u op, c.call op (c.stateAfter s u) = .ok (c.perform op (c.stateAfter s u)))
    (w : Word) : c.callAll s w = .ok (c.outcomes s w) := by
  induction w generalizing s with
  | nil => rfl
  | cons op w ih =>
      have hcall : c.call op s = .ok (c.perform op s) := h [] op
      rw [callAll, hcall]
      show (c.callAll (c.perform op s).2 w).map _ = _
      rw [ih fun u => h (op :: u)]
      rfl

namespace Cursor

/-- The successful productions are those that met an element. -/
theorem getElem?_outcomes_eq_produced (xs : List α) (u : Word) (j : Nat) :
    (∃ x, (candidate.outcomes (ofList xs) u)[j]? = some (.produced x)) ↔
      u[j]? = some .produceNext ∧ (u.take j).count .produceNext < xs.length := by
  rw [Candidate.getElem?_outcomes]
  cases hop : u[j]? with
  | none => simp
  | some op =>
      rw [Option.map_some, perform_stateAfter]
      cases op with
      | hasMore => simp [Word.served]
      | produceNext =>
          rcases Nat.lt_or_ge ((u.take j).count .produceNext) xs.length with hlt | hge
          · rw [Word.served_produceNext_of_lt hlt]
            simpa using hlt
          · rw [Word.served_produceNext_of_le hge]
            simpa using hge
      | removeLast =>
          rw [Word.served]
          split <;> simp

/-- **Removals.**  One is due exactly if an element is removable. -/
theorem removable_iff_due (xs : List α) (u : Word) :
    u.Removable (candidate.outcomes (ofList xs) u) ↔ u.Due xs.length u.length := by
  constructor
  · rintro ⟨j, x, hproduced, hbetween⟩
    obtain ⟨hop, hcount⟩ := (getElem?_outcomes_eq_produced xs u j).mp ⟨x, hproduced⟩
    exact ⟨j, (List.getElem?_eq_some_iff.mp hop).1, hop, hcount, fun k hk _ => hbetween k hk⟩
  · rintro ⟨j, -, hop, hcount, hbetween⟩
    obtain ⟨x, hproduced⟩ := (getElem?_outcomes_eq_produced xs u j).mpr ⟨hop, hcount⟩
    refine ⟨j, x, hproduced, fun k hk hremoval => ?_⟩
    exact hbetween k hk (List.getElem?_eq_some_iff.mp hremoval).1 hremoval

/-! ## The invariant -/

/-- A cursor that came to `os` **keeps** a list: in front of it stand the places passed and not
    taken out, behind it the places still to come, and while a removal is possible, the place
    passed last is the one in front of it. -/
structure Keeps (xs : List α) (os : List (Outcome α)) (c : Cursor α) : Prop where
  passed : (Outcome.elements os).length ≤ xs.length
  items : c.items =
    (Outcome.kept os (xs.zipIdx.take (Outcome.elements os).length)).map Prod.fst ++
      xs.drop (Outcome.elements os).length
  next : c.next = (Outcome.kept os (xs.zipIdx.take (Outcome.elements os).length)).length
  last : ∀ i, c.last = some i →
    i + 1 = c.next ∧ ¬ Outcome.TakenOut os ((Outcome.elements os).length - 1)

theorem keeps_ofList (xs : List α) : Keeps xs [] (ofList xs) :=
  ⟨Nat.zero_le _, rfl, rfl, nofun⟩

variable {xs : List α} {os : List (Outcome α)} {c : Cursor α}

theorem removeLast_of_none (h : c.last = none) :
    c.removeLast = (.fault .illegalRemoval, c) := by rw [removeLast, h]

theorem removeLast_of_some {i : Nat} (h : c.last = some i) (hlt : i < c.items.length) :
    c.removeLast = (.value (), ⟨c.items.eraseIdx i, i, none⟩) := by
  rw [removeLast, h]
  exact if_pos hlt

/-- The element at the cursor is the one at the place that comes next. -/
theorem Keeps.getElem?_next (h : Keeps xs os c) :
    c.items[c.next]? = xs[(Outcome.elements os).length]? := by
  rw [h.items, h.next, List.getElem?_append_right (by simp), List.length_map, Nat.sub_self,
    List.getElem?_drop, Nat.add_zero]

/-- The index of the element produced last is an index of the list. -/
theorem Keeps.last_lt (h : Keeps xs os c) {i : Nat} (hlast : c.last = some i) :
    i < c.items.length := by
  obtain ⟨hnext, -⟩ := h.last i hlast
  rw [h.items, List.length_append, List.length_map, ← h.next]
  omega

/-- A call that neither produces nor removes leaves everything as it was. -/
theorem Keeps.idle {o : Outcome α} (h : Keeps xs os c) (hproduced : o.element? = none)
    (hremoved : o.isRemoved = false) : Keeps xs (os ++ [o]) c := by
  have helements : Outcome.elements (os ++ [o]) = Outcome.elements os := by
    rw [Outcome.elements_append, Outcome.elements_cons, hproduced]
    exact List.append_nil _
  constructor
  · rw [helements]
    exact h.passed
  · rw [helements, Outcome.kept_concat_of_not_removed hremoved]
    exact h.items
  · rw [helements, Outcome.kept_concat_of_not_removed hremoved]
    exact h.next
  · rw [helements, Outcome.takenOut_concat_of_not_removed hremoved]
    exact h.last

/-- A production passes one more place. -/
theorem Keeps.production {x : α} (h : Keeps xs os c)
    (hx : xs[(Outcome.elements os).length]? = some x) :
    Keeps xs (os ++ [.produced x]) { c with next := c.next + 1, last := some c.next } := by
  have hnew : ¬ Outcome.TakenOut os (Outcome.elements os).length :=
    fun hout => Nat.lt_irrefl _ hout.lt
  have hremoved : (Outcome.produced x).isRemoved = false := rfl
  have helements : (Outcome.elements (os ++ [.produced x])).length =
      (Outcome.elements os).length + 1 := by
    rw [Outcome.elements_append, List.length_append]
    rfl
  have hkept : Outcome.kept (os ++ [.produced x])
      (xs.zipIdx.take ((Outcome.elements os).length + 1)) =
        Outcome.kept os (xs.zipIdx.take (Outcome.elements os).length) ++
          [(x, (Outcome.elements os).length)] := by
    rw [Outcome.kept_concat_of_not_removed hremoved, Outcome.kept_take_succ hx hnew]
  obtain ⟨hlt, hget⟩ := List.getElem?_eq_some_iff.mp hx
  constructor
  · rw [helements]
    exact hlt
  · rw [helements, hkept]
    show c.items = _
    rw [h.items, List.drop_eq_getElem_cons hlt, hget]
    simp
  · rw [helements, hkept, List.length_append, ← h.next]
    rfl
  · intro i hi
    cases hi
    rw [helements, Nat.add_sub_cancel, Outcome.takenOut_concat_of_not_removed hremoved]
    exact ⟨rfl, hnew⟩

/-- A removal takes out the place passed last, and the gap closes just in front of the cursor. -/
theorem Keeps.removal {i : Nat} (h : Keeps xs os c) (hlast : c.last = some i) :
    Keeps xs (os ++ [.removed]) ⟨c.items.eraseIdx i, i, none⟩ := by
  obtain ⟨hi, hin⟩ := h.last i hlast
  have hitems := h.items
  have hnext := h.next
  have hpassed := h.passed
  have helements : Outcome.elements (os ++ [.removed]) = Outcome.elements os := by
    rw [Outcome.elements_append]
    exact List.append_nil _
  -- some place was passed, because the cursor does not stand at the front
  obtain ⟨q, hq⟩ : ∃ q, (Outcome.elements os).length = q + 1 := by
    refine Nat.exists_eq_succ_of_ne_zero fun hzero => ?_
    rw [hzero, List.take_zero] at hnext
    rw [hnext] at hi
    exact nomatch hi
  rw [hq] at hitems hnext hin hpassed
  have hx : xs[q]? = some xs[q] := List.getElem?_eq_getElem hpassed
  have hfront := Outcome.kept_take_succ hx hin
  have hkept := Outcome.kept_concat_removed hx hq
  have hlen : i = (Outcome.kept os (xs.zipIdx.take q)).length := by
    rw [hfront, List.length_append, List.length_singleton] at hnext
    omega
  constructor
  · rw [helements, hq]
    exact hpassed
  · rw [helements, hq, hkept]
    show c.items.eraseIdx i = _
    rw [hitems, hfront, List.map_append, List.append_assoc,
      List.eraseIdx_append_of_length_le (by simp [hlen]), List.length_map, hlen, Nat.sub_self]
    rfl
  · rw [helements, hq, hkept]
    exact hlen
  · exact nofun

/-- **The invariant** holds behind every word. -/
theorem keeps_stateAfter (xs : List α) (u : Word) :
    Keeps xs (candidate.outcomes (ofList xs) u) (candidate.stateAfter (ofList xs) u) := by
  induction u using List.reverseRecOn with
  | nil => exact keeps_ofList xs
  | append_singleton u op ih =>
      rw [Candidate.outcomes_append, Candidate.outcomes_cons, Candidate.outcomes_nil,
        Candidate.stateAfter_snoc]
      generalize candidate.outcomes (ofList xs) u = os at ih ⊢
      generalize candidate.stateAfter (ofList xs) u = c at ih ⊢
      cases op with
      | hasMore => exact ih.idle rfl rfl
      | produceNext =>
          show Keeps xs (os ++ [c.produceNext.1.toOutcome .produced]) c.produceNext.2
          rw [produceNext, ih.getElem?_next]
          cases hx : xs[(Outcome.elements os).length]? with
          | none => exact ih.idle rfl rfl
          | some x => exact ih.production hx
      | removeLast =>
          show Keeps xs (os ++ [c.removeLast.1.toOutcome fun _ => .removed]) c.removeLast.2
          cases hlast : c.last with
          | none =>
              rw [removeLast_of_none hlast]
              exact ih.idle rfl rfl
          | some i =>
              rw [removeLast_of_some hlast (ih.last_lt hlast)]
              exact ih.removal hlast

/-- **Contents.**  They are the list without the places that were taken out. -/
theorem Keeps.contents_eq (h : Keeps xs os c) :
    c.contents = (Outcome.kept os xs.zipIdx).map Prod.fst := by
  have hrest : Outcome.kept os (xs.zipIdx.drop (Outcome.elements os).length) =
      xs.zipIdx.drop (Outcome.elements os).length :=
    Outcome.kept_eq_self fun e he hout =>
      Nat.not_lt.mpr (le_of_mem_drop_zipIdx he) hout.lt
  rw [contents, h.items]
  conv_rhs => rw [← List.take_append_drop (Outcome.elements os).length xs.zipIdx]
  rw [Outcome.kept_append, hrest, List.map_append, List.map_drop, List.zipIdx_map_fst]

/-! ## The laws -/

/-- A cursor whose last index is in bounds does not panic. -/
theorem call_eq_ok (h : ∀ i, c.last = some i → i < c.items.length) (op : Operation) :
    candidate.call op c = .ok (candidate.perform op c) := by
  cases op with
  | hasMore => rfl
  | produceNext =>
      show (c.produceNext.1.outcome .produced).map (·, c.produceNext.2) =
        .ok (c.produceNext.1.toOutcome .produced, c.produceNext.2)
      rw [produceNext]
      cases c.items[c.next]? <;> rfl
  | removeLast =>
      show (c.removeLast.1.outcome fun _ => .removed).map (·, c.removeLast.2) =
        .ok (c.removeLast.1.toOutcome fun _ => .removed, c.removeLast.2)
      cases hlast : c.last with
      | none =>
          rw [removeLast_of_none hlast]
          rfl
      | some i =>
          rw [removeLast_of_some hlast (h i hlast)]
          rfl

/-- A call that fails leaves the cursor as it was. -/
theorem perform_failed (h : ∀ i, c.last = some i → i < c.items.length) {op : Operation}
    {f : Fault} (hfailed : (candidate.perform op c).1 = .failed f) :
    (candidate.perform op c).2 = c := by
  cases op with
  | hasMore => rfl
  | produceNext =>
      change c.produceNext.1.toOutcome .produced = _ at hfailed
      show c.produceNext.2 = c
      rw [produceNext] at hfailed ⊢
      cases hx : c.items[c.next]? with
      | none => rfl
      | some x =>
          rw [hx] at hfailed
          cases hfailed
  | removeLast =>
      cases hlast : c.last with
      | none =>
          show c.removeLast.2 = c
          rw [removeLast_of_none hlast]
      | some i =>
          change (c.removeLast.1.toOutcome fun _ => .removed) = _ at hfailed
          rw [removeLast_of_some hlast (h i hlast)] at hfailed
          cases hfailed

/-- A production returns the element at the place that comes next. -/
theorem Keeps.perform_produceNext (h : Keeps xs os c) :
    (candidate.perform .produceNext c).1 =
      (xs[(Outcome.elements os).length]?).elim (.failed .exhausted) .produced := by
  show c.produceNext.1.toOutcome _ = _
  rw [produceNext, h.getElem?_next]
  cases xs[(Outcome.elements os).length]? <;> rfl

/-- A production fails when all elements were returned, and at no other time. -/
theorem Keeps.perform_produceNext_eq_failed (h : Keeps xs os c)
    (hinitial : Outcome.elements os <+: xs) :
    (candidate.perform .produceNext c).1 = .failed .exhausted ↔ Outcome.elements os = xs := by
  rw [h.perform_produceNext]
  rcases Nat.lt_or_eq_of_le h.passed with hlt | heq
  · rw [List.getElem?_eq_getElem hlt]
    exact iff_of_false nofun fun hall => Nat.ne_of_lt hlt (congrArg List.length hall)
  · rw [List.getElem?_eq_none (Nat.le_of_eq heq.symm)]
    exact iff_of_true rfl (hinitial.eq_of_length heq)

/-- There is more while some place is still to come. -/
theorem Keeps.perform_hasMore (h : Keeps xs os c) :
    (candidate.perform .hasMore c).1 =
      .hasMore (decide ((Outcome.elements os).length < xs.length)) := by
  have hmore : c.next < c.items.length ↔ (Outcome.elements os).length < xs.length := by
    rw [h.items, List.length_append, List.length_map, ← h.next, List.length_drop]
    omega
  show Outcome.hasMore (decide _) = _
  rw [decide_eq_decide.mpr hmore]

/-- A removal succeeds when one is due. -/
theorem perform_removeLast (xs : List α) (u : Word) :
    (candidate.perform .removeLast (candidate.stateAfter (ofList xs) u)).1 =
      if ((Shape.initial xs.length).afterAll u).canRemove then .removed
      else .failed .illegalRemoval := perform_stateAfter xs u .removeLast

theorem canRemove_iff_removable (xs : List α) (u : Word) :
    ((Shape.initial xs.length).afterAll u).canRemove = true ↔
      u.Removable (candidate.outcomes (ofList xs) u) := by
  rw [Shape.canRemove_iff_due]
  exact (removable_iff_due xs u).symm

/-- The elements returned are the first ones of the list. -/
theorem elements_isPrefix (xs : List α) (u : Word) :
    Outcome.elements (candidate.outcomes (ofList xs) u) <+: xs := by
  rw [(serves xs).elements_outcomes u]
  exact List.take_prefix ..

/-- **The cursor obeys its laws** behind every word of calls. -/
theorem obeys_laws (xs : List α) (u : Word) :
    let os := candidate.outcomes (ofList xs) u
    let c := candidate.stateAfter (ofList xs) u
    -- the elements returned are those of the list, in order, and a production fails only when
    -- all of them were returned
    (Outcome.elements os <+: xs ∧
      (candidate.perform .produceNext c).1 =
        (xs[(Outcome.elements os).length]?).elim (.failed .exhausted) .produced ∧
      ((candidate.perform .produceNext c).1 = .failed .exhausted ↔ Outcome.elements os = xs)) ∧
    (candidate.perform .hasMore c).1 =
      .hasMore (decide ((Outcome.elements os).length < xs.length)) ∧
    ((candidate.perform .removeLast c).1 = .removed ↔ u.Removable os) ∧
    ((candidate.perform .removeLast c).1 = .failed .illegalRemoval ↔ ¬ u.Removable os) ∧
    c.contents = (Outcome.kept os xs.zipIdx).map Prod.fst ∧
    (∀ op f, (candidate.perform op c).1 = .failed f → (candidate.perform op c).2 = c) ∧
    (∀ i, c.last = some i → i < c.items.length) ∧
    candidate.callAll (ofList xs) u = .ok os := by
  intro os c
  have hkeeps : Keeps xs os c := keeps_stateAfter xs u
  have hbounds : ∀ i, c.last = some i → i < c.items.length := fun _ => hkeeps.last_lt
  have hinitial : Outcome.elements os <+: xs := elements_isPrefix xs u
  have hremove := perform_removeLast xs u
  have hmark := canRemove_iff_removable xs u
  refine ⟨⟨hinitial, hkeeps.perform_produceNext, hkeeps.perform_produceNext_eq_failed hinitial⟩,
    hkeeps.perform_hasMore, ?_, ?_, hkeeps.contents_eq, ?_, hbounds, ?_⟩
  · rw [hremove, ← hmark]
    cases ((Shape.initial xs.length).afterAll u).canRemove <;> simp
  · rw [hremove, ← hmark]
    cases ((Shape.initial xs.length).afterAll u).canRemove <;> simp
  · intro op f hfailed
    exact perform_failed hbounds hfailed
  · refine Candidate.callAll_eq_ok (fun w op => ?_) u
    exact call_eq_ok (fun _ => (keeps_stateAfter xs w).last_lt) op

end Cursor

end Lockstep
