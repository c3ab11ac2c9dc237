/-!
# Panics

A call that panics comes to no result at all. The panic may carry a text; what happens to it is
the caller's matter: a replay holds the panics of a candidate back and judges them, while all
other panics end what was being done.
-/

namespace Lockstep

/-- A panic, with the text that it carries if it carries one. -/
structure Panic where
  text : Option String
  deriving DecidableEq

/-- The text of a panic, or a phrase in its place. -/
def Panic.message (p : Panic) : String := p.text.getD "candidate panicked"

/-- The panic of a list that cannot grow any further. -/
def Panic.capacityOverflow : Panic := ⟨some "capacity overflow"⟩

end Lockstep
