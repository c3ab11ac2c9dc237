import Lockstep.Literal

/-!
# Floating-point elements

Elements whose equality is not reflexive: signed decimal numbers together with the infinities
and the value that is not a number. Equality is that of floating point: a value that is not a
number equals nothing, itself included, and the two zeros are equal. A number is held by its
decimal digits, so equality and text are exact.
-/

namespace Lockstep

/-- A floating-point value. -/
inductive Floating where
  | notANumber
  | infinite (negative : Bool)
  /-- A number by its sign, its whole part and the digits behind the point, of which the last is
  not zero. -/
  | finite (negative : Bool) (whole : Nat) (fraction : List Char)

namespace Floating

/-- Equality of floating-point values. Of numbers it is equality of the digits and, unless they
are zero, of the sign. -/
def equal : Floating → Floating → Bool
  | .infinite s, .infinite t => s == t
  | .finite s n f, .finite t m g => n == m && f == g && (s == t || (n == 0 && f.isEmpty))
  | _, _ => false

instance : BEq Floating := ⟨equal⟩

/-- A number shows its point and at least one digit behind it. -/
def text : Floating → String
  | .notANumber => "NaN"
  | .infinite negative => sign negative ++ "inf"
  | .finite negative whole fraction =>
    sign negative ++ whole.repr ++ "." ++
      String.ofList (if fraction.isEmpty then ['0'] else fraction)
where
  /-- The sign of a value that is not negative is not written. -/
  sign (negative : Bool) : String := if negative then "-" else ""

instance : Literal Floating := ⟨text⟩

/-- A value without its sign: `inf`, or digits with an optional point and further digits. -/
def ofMagnitude? (negative : Bool) (cs : List Char) : Option Floating :=
  if cs = ['i', 'n', 'f'] then some (.infinite negative)
  else
    let whole := cs.takeWhile Char.isDigit
    let fraction := match cs.dropWhile Char.isDigit with
      | [] => some []
      | '.' :: digits => if digits.all Char.isDigit then some digits else none
      | _ => none
    match (String.ofList whole).toNat?, fraction with
    | some n, some digits =>
      some (.finite negative n (digits.reverse.dropWhile (· = '0')).reverse)
    | _, _ => none

/-- The value that a text stands for. -/
def ofText? (s : String) : Option Floating :=
  match s.toList with
  | ['N', 'a', 'N'] => some .notANumber
  | '-' :: cs => ofMagnitude? true cs
  | cs => ofMagnitude? false cs

/-- A value that is not a number differs from itself, so equality is not reflexive. -/
theorem notANumber_beq (a : Floating) : (notANumber == a) = false := by
  cases a <;> rfl

/-- The sign of zero plays no part in equality. -/
theorem zero_beq_zero (s t : Bool) : (finite s 0 [] == finite t 0 []) = true := by
  cases s <;> cases t <;> rfl

end Floating

end Lockstep
