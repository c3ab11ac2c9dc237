/-!
# Numbers on the command line

Decimal numbers that must fit a range. The digits are read from the left, and the first thing
that goes wrong is the error: a character that is no digit, or a digit that leads out of the
range.
-/

namespace Lockstep.CommandLine

/-- Why a text is no number of the range. -/
inductive NumberError where
  | empty
  | invalidDigit
  | tooLarge
  | tooSmall
  deriving DecidableEq, Repr

/-- An error in words. -/
def NumberError.text : NumberError → String
  | empty => "cannot parse integer from empty string"
  | invalidDigit => "invalid digit found in string"
  | tooLarge => "number too large to fit in target type"
  | tooSmall => "number too small to fit in target type"

/-- Reads digits behind the number `n`; `beyond` is the error of a number above `limit`. -/
def readDigits (limit : Nat) (beyond : NumberError) : (n : Nat) → List Char → Except NumberError Nat
  | n, [] => .ok n
  | n, c :: cs =>
    if c.isDigit then
      let m := 10 * n + (c.toNat - '0'.toNat)
      if m ≤ limit then readDigits limit beyond m cs else .error beyond
    else .error .invalidDigit

/-- Reads a number from zero to `2 ^ 64 - 1`, with or without a plus sign. -/
def readCount (s : String) : Except NumberError Nat :=
  match s.toList with
  | [] => .error .empty
  | '+' :: c :: cs => readDigits (Nat.pow 2 64 - 1) .tooLarge 0 (c :: cs)
  | cs => readDigits (Nat.pow 2 64 - 1) .tooLarge 0 cs

/-- Reads a number from `-2 ^ 63` to `2 ^ 63 - 1`, with or without a sign. -/
def readInteger (s : String) : Except NumberError Int :=
  match s.toList with
  | [] => .error .empty
  | '-' :: c :: cs => (fun n : Nat => -(n : Int)) <$> readDigits (Nat.pow 2 63) .tooSmall 0 (c :: cs)
  | '+' :: c :: cs => (fun n : Nat => (n : Int)) <$> readDigits (Nat.pow 2 63 - 1) .tooLarge 0 (c :: cs)
  | cs => (fun n : Nat => (n : Int)) <$> readDigits (Nat.pow 2 63 - 1) .tooLarge 0 cs

/-- What is read stays within the limit. -/
theorem readDigits_le {limit : Nat} {beyond : NumberError} {n m : Nat} {cs : List Char}
    (h : readDigits limit beyond n cs = .ok m) (hn : n ≤ limit) : m ≤ limit := by
  induction cs generalizing n with
  | nil => cases h; exact hn
  | cons c cs ih =>
    simp only [readDigits] at h
    split at h
    · split at h
      · exact ih h ‹_›
      · exact nomatch h
    · exact nomatch h

end Lockstep.CommandLine
