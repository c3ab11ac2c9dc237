/-!
# Control sequences

A message quotes what was typed, and what was typed may hold control sequences of a terminal,
which would act on the terminal instead of being read. `plain` is what is left of a text when
they are taken out, and with them every lone control character of ASCII that is not white space.

A sequence begins with the escape character, and the character behind that says how far the
sequence goes: a control sequence in the narrow sense up to its final character, an operating
system command up to the bell, the other strings up to a terminator. Another escape character
gives up the sequence for a new one. A white-space control inside a sequence is shown, and pauses
the sequence: text is shown again up to the next control character, where the sequence goes on.
-/

namespace Lockstep.CommandLine

/-- The controls that are shown: tab, line feed, form feed and carriage return. -/
def isBlankControl (c : Char) : Bool := c = '\t' || c = '\n' || c = '\x0c' || c = '\r'

/-- Whether a character is shown outside sequences. -/
def isShown (c : Char) : Bool := (' ' ≤ c && c ≠ '\x7f') || isBlankControl c

/-- Whether a character ends a string: its encoding holds the byte of the string terminator. -/
def isTerminator (c : Char) : Bool := (String.utf8EncodeChar c).contains 0x9c

/-- A place inside a sequence. -/
inductive SequencePart where
  /-- Behind the escape character. -/
  | escape
  /-- Behind an escape character and characters that announce the final one. -/
  | announced
  /-- Inside a control sequence in the narrow sense. -/
  | control
  /-- Inside an operating system command. -/
  | command
  /-- At the start of a device control string. -/
  | device
  /-- Among the parameters of a device control string. -/
  | deviceParameter
  /-- Behind the parameters of a device control string, where its kind is announced. -/
  | deviceAnnounced
  /-- Inside the body of a string, up to its terminator. -/
  | body
  deriving DecidableEq, Repr

namespace SequencePart

/-- Where a sequence stands behind one more character; nowhere if that character ends it. -/
def next (p : SequencePart) (c : Char) : Option SequencePart :=
  let between (first last : Char) : Bool := first ≤ c && c ≤ last
  if c = '\x1b' then some escape
  else if c = '\x18' ∨ c = '\x1a' then none
  else
    match p with
    | escape =>
      if c = '[' then some control
      else if c = ']' then some command
      else if c = 'P' then some device
      else if c = 'X' ∨ c = '^' ∨ c = '_' then some body
      else if between ' ' '/' then some announced
      else if between '0' '~' then none
      else some escape
    | announced => if between '0' '~' then none else some announced
    | control => if between '@' '~' then none else some control
    | command => if c = '\x07' then none else some command
    | device =>
      if between '@' '~' then some body
      else if between ' ' '/' then some deviceAnnounced
      else if between '0' '?' then some deviceParameter
      else some device
    | deviceParameter =>
      if between '<' '~' then some body
      else if between ' ' '/' then some deviceAnnounced
      else some deviceParameter
    | deviceAnnounced => if between '0' '~' then some body else some deviceAnnounced
    | body => if isTerminator c then none else some body

/-- Whether white-space controls inside the sequence are shown: not inside a string. -/
def showsBlank : SequencePart → Bool
  | escape | announced | control => true
  | _ => false

end SequencePart

/-- How far the reading of a text has come. -/
inductive Reading where
  | text
  | inside (p : SequencePart)
  /-- Outside, with a sequence that goes on at the next control character. -/
  | paused (p : SequencePart)
  deriving DecidableEq, Repr

namespace Reading

/-- Goes on with a sequence that a character belongs to. -/
def resume (p : SequencePart) (c : Char) : Reading :=
  match p.next c with
  | some q => inside q
  | none => text

/-- Whether a character is shown, and the reading behind it. A character beyond ASCII gives up a
paused sequence. -/
def step (r : Reading) (c : Char) : Bool × Reading :=
  match r with
  | text =>
    if isShown c then (true, text)
    else (false, if c = '\x1b' then inside .escape else text)
  | inside p =>
    if p.showsBlank && isBlankControl c then (true, paused p) else (false, resume p c)
  | paused p =>
    if isShown c then (true, if c ≤ '\x7f' then paused p else text) else (false, resume p c)

/-- The characters that are shown. -/
def shown (r : Reading) : List Char → List Char
  | [] => []
  | c :: cs =>
    let (visible, r) := r.step c
    if visible then c :: r.shown cs else r.shown cs

/-- Text without controls is shown as it is. -/
theorem shown_text {cs : List Char} (h : ∀ c ∈ cs, isShown c = true) : text.shown cs = cs := by
  induction cs with
  | nil => rfl
  | cons c cs ih =>
    have hc := h c List.mem_cons_self
    have hcs := ih fun d hd => h d (List.mem_cons_of_mem c hd)
    simp [shown, step, hc, hcs]

/-- Only characters that can be shown outside sequences are shown at all. -/
theorem isShown_of_step {r : Reading} {c : Char} (h : (r.step c).1 = true) : isShown c = true := by
  cases r with
  | text | paused p =>
    simp only [step] at h
    split at h
    · assumption
    · exact nomatch h
  | inside p =>
    simp only [step] at h
    split at h
    · rename_i hblank
      simp_all [isShown]
    · exact nomatch h

theorem isShown_of_mem_shown {r : Reading} {cs : List Char} {c : Char} (h : c ∈ r.shown cs) :
    isShown c = true := by
  induction cs generalizing r with
  | nil => exact nomatch h
  | cons d cs ih =>
    simp only [shown] at h
    split at h
    · rename_i hd
      rcases List.mem_cons.mp h with rfl | hmem
      · exact isShown_of_step hd
      · exact ih hmem
    · exact ih h

end Reading

/-- A text without its control sequences and control characters. -/
def plain (s : String) : String := String.ofList (Reading.text.shown s.toList)

end Lockstep.CommandLine
