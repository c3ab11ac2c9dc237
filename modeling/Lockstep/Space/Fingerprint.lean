import Lockstep.Blake3
import Lockstep.Space.Traversal

/-!
# Fingerprints of spaces

The fingerprint of a space is the digest of its words in order. Each word enters in packed form:
its length in eight bytes, the low byte first, and one byte for each operation. The length in
front keeps the concatenation unambiguous.
-/

namespace Lockstep

/-- A number in a fixed number of bytes, the low byte first. -/
def lowBytes : (count : Nat) → (n : Nat) → List UInt8
  | 0, _ => []
  | count + 1, n => UInt8.ofNat n :: lowBytes count (n / 256)

/-- The bytes with which a word enters a fingerprint. -/
def Word.packed (w : Word) : List UInt8 := lowBytes 8 w.length ++ Word.encode w

/-- The bytes with which a list of words enters a fingerprint. -/
def Word.stream (ws : List Word) : List UInt8 := ws.flatMap Word.packed

/-- Appends the packed form of a word. -/
def Word.absorb (acc : ByteArray) (w : Word) : ByteArray := (Word.packed w).foldl .push acc

/-- The bytes that go into the fingerprint of a space: those of its words, in order. -/
def Space.hashed (space : Space) : Except Panic ByteArray := space.fold Word.absorb .empty

/-- The digest of the words of a space, in order. -/
def Space.fingerprint (space : Space) : Except Panic Digest := space.hashed.map Blake3.digest

@[simp] theorem length_lowBytes (count n : Nat) : (lowBytes count n).length = count := by
  induction count generalizing n with
  | zero => rfl
  | succ count ih => simp [lowBytes, ih]

theorem Word.length_packed (w : Word) : (Word.packed w).length = 8 + w.length := by
  simp [Word.packed]

end Lockstep
