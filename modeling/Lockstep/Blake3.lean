/-!
# The BLAKE3 digest

The unkeyed BLAKE3 hash with its default output of 32 bytes. The input is cut into chunks of
1024 bytes, each chunk into blocks of 64; a chunk is a chain of compressions, and the chunks are
the leaves of a binary tree whose left subtrees are complete and as large as they can be. Each
place of the tree is a `Node`, a compression that is still to be run: an inner place runs it for
a chaining value, the root runs it once more with the root flag for the digest.
-/

namespace Lockstep

namespace Blake3

/-- A chaining value. -/
abbrev Chaining := Vector UInt32 8

/-- A block of the message, or the working state of a compression. -/
abbrev Block := Vector UInt32 16

/-- The initial chaining value of every chunk. -/
def initial : Chaining :=
  #v[0x6a09e667, 0xbb67ae85, 0x3c6ef372, 0xa54ff53a, 0x510e527f, 0x9b05688c, 0x1f83d9ab, 0x5be0cd19]

/-- The place from which each word of the message comes in the next round. -/
def permutation : Vector (Fin 16) 16 := #v[2, 6, 3, 10, 7, 0, 4, 13, 1, 11, 12, 5, 9, 14, 15, 8]

/-! ## Compression -/

/-- Rotation towards the low end. -/
def rotateRight (x n : UInt32) : UInt32 := (x >>> n) ||| (x <<< (32 - n))

/-- Mixes two words of the message into four words of the state. -/
def mix (v : Block) (a b c d : Fin 16) (x y : UInt32) : Block :=
  let va := v[a] + v[b] + x
  let vd := rotateRight (v[d] ^^^ va) 16
  let vc := v[c] + vd
  let vb := rotateRight (v[b] ^^^ vc) 12
  let va := va + vb + y
  let vd := rotateRight (vd ^^^ va) 8
  let vc := vc + vd
  let vb := rotateRight (vb ^^^ vc) 7
  (((v.set a va).set b vb).set c vc).set d vd

/-- Mixes the whole message into the state, first by columns and then by diagonals. -/
def round (v m : Block) : Block :=
  let v := mix v 0 4 8 12 m[0] m[1]
  let v := mix v 1 5 9 13 m[2] m[3]
  let v := mix v 2 6 10 14 m[4] m[5]
  let v := mix v 3 7 11 15 m[6] m[7]
  let v := mix v 0 5 10 15 m[8] m[9]
  let v := mix v 1 6 11 12 m[10] m[11]
  let v := mix v 2 7 8 13 m[12] m[13]
  mix v 3 4 9 14 m[14] m[15]

/-- The message in the order of the next round. -/
def permute (m : Block) : Block := permutation.map fun i => m[i]

/-- `n` rounds, the message permuted between them. -/
def rounds : Nat → Block → Block → Block
  | 0, v, _ => v
  | n + 1, v, m => rounds n (round v m) (permute m)

/-! ## Nodes -/

/-- A compression that is still to be run. -/
structure Node where
  /-- The chaining value that goes in. -/
  chaining : Chaining
  /-- The message. -/
  block : Block
  /-- The number of the chunk, zero for an inner node. -/
  counter : UInt64
  /-- The number of bytes in the message. -/
  length : UInt32
  /-- The place of the node in the tree. -/
  flags : UInt32

/-- The flag of the first block of a chunk. -/
def chunkStart : UInt32 := 1

/-- The flag of the last block of a chunk. -/
def chunkEnd : UInt32 := 2

/-- The flag of an inner node. -/
def inner : UInt32 := 4

/-- The flag of the compression that gives the digest. -/
def rootFlag : UInt32 := 8

/-- Runs the compression, with one more flag. -/
def Node.run (n : Node) (flag : UInt32) : Chaining :=
  let start : Block :=
    n.chaining ++ initial.take 4 ++
      #v[n.counter.toUInt32, (n.counter >>> 32).toUInt32, n.length, n.flags ||| flag]
  let v := rounds 7 start n.block
  Vector.ofFn fun i : Fin 8 => v.get ⟨i.val, by omega⟩ ^^^ v.get ⟨i.val + 8, by omega⟩

/-- The node above two others: its message is their chaining values. -/
def Node.above (l r : Node) : Node :=
  { chaining := initial, block := l.run 0 ++ r.run 0, counter := 0, length := 64, flags := inner }

/-! ## Chunks and their tree -/

/-- Four bytes from position `i` on as a word, the low byte first; zero behind the end. -/
def wordAt (data : ByteArray) (i : Nat) : UInt32 :=
  let byte (k : Nat) : UInt32 := (data[i + k]?.getD 0).toUInt32
  byte 0 ||| byte 1 <<< 8 ||| byte 2 <<< 16 ||| byte 3 <<< 24

/-- The node that ends the chunk of number `index`. -/
def chunk (data : ByteArray) (index : Nat) : Node :=
  let start := 1024 * index
  let length := min 1024 (data.size - start)
  let last := (length - 1) / 64
  let node (cv : Chaining) (i : Nat) : Node :=
    { chaining := cv
      block := Vector.ofFn fun k : Fin 16 => wordAt data (start + 64 * i + 4 * k)
      counter := UInt64.ofNat index
      length := UInt32.ofNat (min 64 (length - 64 * i))
      flags := (if i = 0 then chunkStart else 0) ||| (if i = last then chunkEnd else 0) }
  node ((List.range last).foldl (fun cv i => (node cv i).run 0) initial) last

/-- The number of leaves in the left subtree of `n` leaves: the largest power of two below `n`. -/
def leftLeaves (n : Nat) : Nat := Nat.pow 2 (n - 1).log2

theorem leftLeaves_pos (n : Nat) : 0 < leftLeaves n := Nat.two_pow_pos _

theorem leftLeaves_lt {n : Nat} (h : 1 < n) : leftLeaves n < n := by
  have : Nat.pow 2 (n - 1).log2 ≤ n - 1 := Nat.log2_self_le (by omega)
  unfold leftLeaves
  omega

/-- The tree over `n` chunks from the chunk of number `first` on. -/
def tree (data : ByteArray) (first n : Nat) : Node :=
  if _h : 1 < n then
    (tree data first (leftLeaves n)).above
      (tree data (first + leftLeaves n) (n - leftLeaves n))
  else chunk data first
termination_by n
decreasing_by
  · exact leftLeaves_lt _h
  · exact Nat.sub_lt (Nat.lt_trans Nat.zero_lt_one _h) (leftLeaves_pos n)

end Blake3

/-- A digest of 32 bytes. -/
structure Digest where
  /-- The digest as eight words, the low byte of each first. -/
  words : Blake3.Chaining
  deriving DecidableEq

namespace Digest

/-- The two hexadecimal digits of a byte. -/
def hexByte (b : UInt8) : List Char :=
  [(b.toNat / 16).digitChar, (b.toNat % 16).digitChar]

/-- The bytes of a word, the low byte first. -/
def wordBytes (w : UInt32) : List UInt8 :=
  [w.toUInt8, (w >>> 8).toUInt8, (w >>> 16).toUInt8, (w >>> 24).toUInt8]

/-- The digest in lowercase hexadecimal. -/
def hex (d : Digest) : String :=
  String.ofList ((d.words.toList.flatMap wordBytes).flatMap hexByte)

end Digest

/-- The BLAKE3 digest of some bytes. -/
def Blake3.digest (data : ByteArray) : Digest :=
  ⟨(tree data 0 ((data.size + 1023) / 1024)).run rootFlag⟩

end Lockstep
