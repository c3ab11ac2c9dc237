import Lockstep.Proofs.Space.Prefixes
import Lockstep.Space.Fingerprint
import Mathlib.Algebra.Group.Nat.Defs

/-!
# What a fingerprint identifies

A digest can tell two spaces apart only if the bytes that go into it do.  These are the packed words
of the space one behind the other, with nothing in between, and a code looks like a part of a length.
What keeps the words apart is that each begins with its length, in a fixed number of bytes.

So a stream can be read from its front: the first eight bytes say where the first word ends
(`Word.packed_append_isPrefix_iff`).  By induction, the streams of two lists of words are in the same
relation as the lists: one begins with the other if and only if its list begins with the other's.

* **`Word.stream_isPrefix_iff`** — initial segments of streams.
* **`Space.emits_iff_hashed`** — the bytes behind a fingerprint, and the words that a pass hands out.
* **`Space.hashed_identifies`** — what agrees if the bytes agree.
-/

namespace Lockstep

/-! ## Numbers in bytes -/

/-- The number that some bytes stand for, the low byte first. -/
def ofLowBytes : List UInt8 → Nat
  | [] => 0
  | b :: bytes => b.toNat + 256 * ofLowBytes bytes

theorem ofLowBytes_lowBytes {count n : Nat} (h : n < 256 ^ count) :
    ofLowBytes (lowBytes count n) = n := by
  induction count generalizing n with
  | zero =>
      have hzero : n = 0 := by simpa using h
      rw [hzero]
      rfl
  | succ count ih =>
      have hrest : n / 256 < 256 ^ count := by
        rw [Nat.div_lt_iff_lt_mul (by decide), ← Nat.pow_succ]
        exact h
      rw [lowBytes, ofLowBytes, ih hrest, UInt8.toNat_ofNat']
      exact Nat.mod_add_div n 256

/-- Bytes enough for two numbers tell them apart. -/
theorem lowBytes_inj {count m n : Nat} (hm : m < 256 ^ count) (hn : n < 256 ^ count) :
    lowBytes count m = lowBytes count n ↔ m = n := by
  constructor
  · intro h
    rw [← ofLowBytes_lowBytes hm, h, ofLowBytes_lowBytes hn]
  · rintro rfl
    rfl

/-! ## Words in bytes -/

namespace Word

variable {w v : Word} {ws vs : List Word}

/-- The codes of the operations fit into a byte. -/
theorem encode_inj : encode w = encode v ↔ w = v := by
  refine List.map_inj_right ?_
  intro a b h
  cases a <;> cases b <;> first | rfl | exact absurd h (by decide)

/-- **The front of a stream** is one word, and nothing else can be read there: the length comes in
    eight bytes, and then as many codes as it says. -/
theorem packed_append_isPrefix_iff {xs ys : List UInt8} (hw : w.length < 2 ^ 64)
    (hv : v.length < 2 ^ 64) :
    packed w ++ xs <+: packed v ++ ys ↔ w = v ∧ xs <+: ys := by
  constructor
  · rintro ⟨rest, h⟩
    simp only [packed, List.append_assoc] at h
    obtain ⟨hbytes, hcodes⟩ := List.append_inj h (by simp)
    have hlen : w.length = v.length := (lowBytes_inj hw hv).mp hbytes
    obtain ⟨hencode, hrest⟩ := List.append_inj hcodes (by simp [hlen])
    exact ⟨encode_inj.mp hencode, rest, hrest⟩
  · rintro ⟨rfl, h⟩
    exact (List.prefix_append_right_inj _).mpr h

/-- **Streams begin with each other as their lists do.**  Induction on the list in front, word by
    word. -/
theorem stream_isPrefix_iff (hws : ∀ w ∈ ws, w.length < 2 ^ 64) (hvs : ∀ v ∈ vs, v.length < 2 ^ 64) :
    stream ws <+: stream vs ↔ ws <+: vs := by
  induction ws generalizing vs with
  | nil => exact iff_of_true List.nil_prefix List.nil_prefix
  | cons w ws ih =>
      obtain ⟨hw, hws⟩ := List.forall_mem_cons.mp hws
      cases vs with
      | nil =>
          -- a packed word is not empty
          refine iff_of_false (fun h => ?_) (fun h => nomatch List.prefix_nil.mp h)
          have hlen := h.length_le
          simp only [stream, List.flatMap_cons, List.flatMap_nil, List.length_append, length_packed,
            List.length_nil] at hlen
          omega
      | cons v vs =>
          obtain ⟨hv, hvs⟩ := List.forall_mem_cons.mp hvs
          rw [List.cons_prefix_cons, ← ih hws hvs]
          exact packed_append_isPrefix_iff hw hv

theorem stream_inj (hws : ∀ w ∈ ws, w.length < 2 ^ 64) (hvs : ∀ v ∈ vs, v.length < 2 ^ 64) :
    stream ws = stream vs ↔ ws = vs := by
  constructor
  · intro h
    have hfront : ws <+: vs := (stream_isPrefix_iff hws hvs).mp (h ▸ List.prefix_rfl)
    have hback : vs <+: ws := (stream_isPrefix_iff hvs hws).mp (h ▸ List.prefix_rfl)
    exact hfront.eq_of_length_le hback.length_le
  · rintro rfl
    rfl

/-! ## Words absorbed -/

/-- The bytes that some words give to a digest, one word after the other. -/
def absorbAll (ws : List Word) : ByteArray := ws.foldl absorb .empty

theorem toList_foldl_push (bytes : List UInt8) (acc : ByteArray) :
    (bytes.foldl .push acc).data.toList = acc.data.toList ++ bytes := by
  induction bytes generalizing acc with
  | nil => simp
  | cons b bytes ih =>
      rw [List.foldl_cons, ih]
      simp

theorem toList_foldl_absorb (ws : List Word) (acc : ByteArray) :
    (ws.foldl absorb acc).data.toList = acc.data.toList ++ stream ws := by
  induction ws generalizing acc with
  | nil => simp [stream]
  | cons w ws ih =>
      rw [List.foldl_cons, ih, absorb, toList_foldl_push, List.append_assoc]
      rfl

theorem toList_absorbAll (ws : List Word) : (absorbAll ws).data.toList = stream ws :=
  toList_foldl_absorb ws .empty

theorem absorbAll_inj (hws : ∀ w ∈ ws, w.length < 2 ^ 64) (hvs : ∀ v ∈ vs, v.length < 2 ^ 64) :
    absorbAll ws = absorbAll vs ↔ ws = vs := by
  rw [← stream_inj hws hvs, ← toList_absorbAll, ← toList_absorbAll, Array.toList_inj,
    ByteArray.ext_iff]

end Word

namespace Space

variable {space : Space} {ws : List Word}

theorem hashed_eq_ok {bytes : ByteArray} :
    space.hashed = .ok bytes ↔
      space.steps ≤ frameLimit ∧ bytes = Word.absorbAll space.words := by
  rw [hashed]
  by_cases hroom : space.steps ≤ frameLimit
  · rw [fold_eq_foldl hroom, Except.ok.injEq, eq_comm, and_iff_right hroom]
    rfl
  · rw [fold, foldUntil_overflow (Nat.lt_of_not_le hroom)]
    refine iff_of_false ?_ (fun h => hroom h.1)
    intro h
    cases h

/-- Words that there is room for are short enough for their packed form. -/
theorem length_lt_of_mem_words (h : space.steps ≤ frameLimit) :
    ∀ w ∈ space.words, w.length < 2 ^ 64 := by
  intro w hw
  rw [(mem_words.mp hw).length]
  exact Nat.lt_of_le_of_lt h (by decide)

/-- **What is hashed is what is handed out**: the words that a pass hands out are those that give
    the bytes behind the fingerprint. -/
theorem emits_iff_hashed :
    space.Emits ws ↔ (∀ w ∈ ws, w.length < 2 ^ 64) ∧ space.hashed = .ok (Word.absorbAll ws) := by
  rw [emits_iff, hashed_eq_ok]
  constructor
  · rintro ⟨hroom, rfl⟩
    exact ⟨length_lt_of_mem_words hroom, hroom, rfl⟩
  · rintro ⟨hshort, hroom, hbytes⟩
    exact ⟨hroom, (Word.absorbAll_inj hshort (length_lt_of_mem_words hroom)).mp hbytes⟩

theorem hashed_eq_of_emits {a b : Space} (h : ∀ us, a.Emits us ↔ b.Emits us) :
    a.hashed = b.hashed := by
  by_cases ha : a.steps ≤ frameLimit
  · have hemits : a.Emits a.words := emits_words ha
    rw [(emits_iff_hashed.mp hemits).2, (emits_iff_hashed.mp ((h _).mp hemits)).2]
  · by_cases hb : b.steps ≤ frameLimit
    · exact absurd (emits_iff.mp ((h _).mpr (emits_words hb))).1 ha
    · -- neither pass hands anything out
      rw [hashed, hashed, fold, fold, foldUntil_overflow (Nat.lt_of_not_le ha),
        foldUntil_overflow (Nat.lt_of_not_le hb)]

/-- **The bytes behind a fingerprint identify the words and their order.**  The bytes that two lists
    of words give are equal if and only if the lists are, and one is a proper initial segment of the
    other only where the lists are so.  A fingerprint is the digest of the bytes of the words that a
    pass hands out, so these bytes agree for two spaces if and only if passes over them hand out the
    same words in the same order. -/
theorem hashed_identifies {ws vs : List Word} (hws : ∀ w ∈ ws, w.length < 2 ^ 64)
    (hvs : ∀ v ∈ vs, v.length < 2 ^ 64) (a b : Space) :
    let bytes (us : List Word) : List UInt8 := (Word.absorbAll us).data.toList
    (bytes ws = bytes vs ↔ ws = vs) ∧
      (bytes ws <+: bytes vs ∧ bytes ws ≠ bytes vs → ws <+: vs ∧ ws ≠ vs) ∧
      (bytes vs <+: bytes ws ∧ bytes vs ≠ bytes ws → vs <+: ws ∧ vs ≠ ws) ∧
      (∀ us, bytes us = us.flatMap fun w => lowBytes 8 w.length ++ Word.encode w) ∧
      (∀ us, a.Emits us →
        a.hashed = .ok (Word.absorbAll us) ∧
          a.fingerprint = .ok (Blake3.digest (Word.absorbAll us))) ∧
      (a.hashed = b.hashed ↔ ∀ us, a.Emits us ↔ b.Emits us) := by
  intro bytes
  have hbytes : ∀ us, bytes us = Word.stream us := Word.toList_absorbAll
  have hinj : bytes ws = bytes vs ↔ ws = vs := by
    rw [hbytes, hbytes]
    exact Word.stream_inj hws hvs
  refine ⟨hinj, ?_, ?_, hbytes, ?_, ?_⟩
  · rintro ⟨hfront, hne⟩
    rw [hbytes, hbytes, Word.stream_isPrefix_iff hws hvs] at hfront
    exact ⟨hfront, fun h => hne (hinj.mpr h)⟩
  · rintro ⟨hfront, hne⟩
    rw [hbytes, hbytes, Word.stream_isPrefix_iff hvs hws] at hfront
    exact ⟨hfront, fun h => hne (hinj.mpr h.symm).symm⟩
  · intro us hus
    have hhashed : a.hashed = .ok (Word.absorbAll us) := (emits_iff_hashed.mp hus).2
    refine ⟨hhashed, ?_⟩
    rw [fingerprint, hhashed]
    rfl
  · refine ⟨fun h us => ?_, hashed_eq_of_emits⟩
    rw [emits_iff_hashed, emits_iff_hashed, h]

/-- Codes that look like lengths: behind the bytes of one word those of an empty one are nothing but
    zeros, like the code of a production.  Over no elements nothing can be removed, so that the two
    spaces hand out the same words, and give the same bytes. -/
theorem hashed_identifies_empty_word :
    let ws : List Word := [[.produceNext]]
    let vs : List Word := [[.produceNext], []]
    let a : Space := { steps := 1, features := .modifiable, elements := 0 }
    let b : Space := { steps := 1, features := .readOnly, elements := 0 }
    let bytes (us : List Word) : List UInt8 := (Word.absorbAll us).data.toList
    (∀ w ∈ ws, w.length < 2 ^ 64) ∧ (∀ v ∈ vs, v.length < 2 ^ 64) ∧
      bytes ws = [1, 0, 0, 0, 0, 0, 0, 0, 0] ∧
      bytes vs = [1, 0, 0, 0, 0, 0, 0, 0, 0] ++ [0, 0, 0, 0, 0, 0, 0, 0] ∧
      (bytes ws <+: bytes vs ∧ bytes ws ≠ bytes vs → ws <+: vs ∧ ws ≠ vs) ∧
      a.words = b.words ∧ a.hashed = b.hashed := by
  intro ws vs a b bytes
  have hws : ∀ w ∈ ws, w.length < 2 ^ 64 := by decide
  have hvs : ∀ v ∈ vs, v.length < 2 ^ 64 := by decide
  have hwords : a.words = b.words := by decide
  obtain ⟨-, hproper, -, hformat, -, hspaces⟩ := hashed_identifies hws hvs a b
  refine ⟨hws, hvs, (hformat ws).trans (by decide), (hformat vs).trans (by decide), hproper, hwords,
    hspaces.mpr fun us => ?_⟩
  rw [emits_iff, emits_iff, hwords]

end Space

end Lockstep
