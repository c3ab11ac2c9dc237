import Lockstep.Literal.Unprintable

/-!
# Element literals

A report shows the elements that a candidate produced. `Literal` is the way an element is
written there: numbers in decimal, characters and text between quotes with the characters that
would not show written as escapes, options and lists by their parts.
-/

namespace Lockstep

universe u

/-- A type whose elements can be written inside a message. -/
class Literal (α : Type u) where
  literal : α → String

export Literal (literal)

namespace Literal

variable {α : Type u}

/-- An integer in decimal. -/
def ofInt : Int → String
  | .ofNat n => n.repr
  | .negSucc n => "-" ++ (n + 1).repr

instance : Literal Int := ⟨ofInt⟩

/-- A truth value. -/
def ofBool (b : Bool) : String := if b then "true" else "false"

instance : Literal Bool := ⟨ofBool⟩

/-- Elements in order, separated by commas, between brackets. -/
def ofList [Literal α] (xs : List α) : String :=
  "[" ++ ", ".intercalate (xs.map literal) ++ "]"

instance [Literal α] : Literal (List α) := ⟨ofList⟩

/-- The element inside, or a word for its absence. -/
def ofOption [Literal α] : Option α → String
  | none => "None"
  | some x => "Some(" ++ literal x ++ ")"

instance [Literal α] : Literal (Option α) := ⟨ofOption⟩

/-! ## Quoted text -/

/-- A character by its code point, in lowercase hexadecimal. -/
def codePoint (c : Char) : String :=
  "\\u\x7b" ++ String.ofList (Nat.toDigits 16 c.toNat) ++ "\x7d"

/-- A character as it stands between two `quote` characters. The other kind of quote needs no
escape. -/
def escape (quote c : Char) : String :=
  if c = '\x00' then "\\0"
  else if c = '\t' then "\\t"
  else if c = '\r' then "\\r"
  else if c = '\n' then "\\n"
  else if c = '\\' ∨ c = quote then String.ofList ['\\', c]
  else if isUnprintable c then codePoint c
  else c.toString

/-- A character between single quotes. -/
def ofChar (c : Char) : String := "'" ++ escape '\x27' c ++ "'"

instance : Literal Char := ⟨ofChar⟩

/-- Text between double quotes. -/
def ofString (s : String) : String :=
  "\"" ++ String.join (s.toList.map (escape '\x22')) ++ "\""

instance : Literal String := ⟨ofString⟩

end Literal

end Lockstep
