/-!
Text under a cursor. The text is loaded in portions of whole characters, and a portion is refused as
it is loaded if a character in it may not occur in a document. So what stands behind the last
portion that anyone looked at is never judged.
-/
namespace Implicits

namespace Yaml

/-- Stands for the end of a text; no text contains it. -/
def nul : Char := '\x00'

/-- The mark that may open a text or a line of it. -/
def byteOrderMark : Char := Char.ofNat 0xFEFF

def isBlank (c : Char) : Bool := c == ' ' || c == '\t'

def isBreak (c : Char) : Bool :=
  c == '\r' || c == '\n' || c.toNat == 0x85 || c.toNat == 0x2028 || c.toNat == 0x2029

/-- A line break or the end of the text. -/
def endsLine (c : Char) : Bool := isBreak c || c == nul

/-- A blank, a line break or the end of the text. -/
def endsWord (c : Char) : Bool := isBlank c || endsLine c

/-- The characters of names. -/
def isNameChar (c : Char) : Bool := c.isAlphanum || c == '_' || c == '-'

/-- The characters a document may contain. -/
def isAdmissible (c : Char) : Bool :=
  c == '\t' || c == '\n' || c == '\r' || (' ' ≤ c && c ≤ '~') || c.toNat == 0x85 ||
    (0xA0 ≤ c.toNat && c.toNat ≤ 0xFFFD) || 0xFFFF < c.toNat

/-- A line break as it is kept in a scalar; all of them but two are kept as a newline. -/
def breakText (c : Char) : List Char :=
  if !isBreak c then []
  else if c.toNat == 0x2028 || c.toNat == 0x2029 then [c]
  else ['\n']

/-- The size of a portion in bytes. -/
def portionSize : Nat := 512

/-- Cuts a text into portions, when `room` bytes are left in the one begun with `begun`. -/
def portionsFrom (room : Nat) (begun : List Char) : List Char → List (List Char)
  | [] => [begun.reverse]
  | c :: cs =>
    if c.utf8Size ≤ room then portionsFrom (room - c.utf8Size) (c :: begun) cs
    else begun.reverse :: portionsFrom (portionSize - c.utf8Size) [c] cs

structure Source where
  /-- The loaded text from the cursor on. -/
  ahead : List Char
  /-- The portions that are not loaded yet. -/
  portions : List (List Char)
  /-- The character that was under the cursor when a portion was last loaded. -/
  loadedAt : Char
  index : Nat
  line : Nat
  column : Nat
  /-- The line breaks passed since the last character that is no blank. -/
  breaks : Nat
  /-- A bound on the steps that any loop over the text takes. -/
  bound : Nat

namespace Source

/-- The start of a text. A mark in front of it is dropped. -/
def ofString (text : String) : Source :=
  let cs := text.toList
  let portions :=
    match cs with
    | c :: rest =>
      if c == byteOrderMark then portionsFrom (portionSize - byteOrderMark.utf8Size) [] rest
      else portionsFrom portionSize [] cs
    | [] => []
  ⟨[], portions, nul, 0, 0, 0, 0, 2 * cs.length + 16⟩

/-- The character `i` places behind the cursor. -/
def char (s : Source) (i : Nat) : Char := s.ahead.getD i nul

/-- Passes a character that is not taken for a line break. -/
def advance (s : Source) : Source :=
  { s with
    ahead := s.ahead.tail
    index := s.index + 1
    column := s.column + 1
    breaks := if isBlank (s.char 0) then s.breaks else 0 }

/-- Passes a line break, if there is one under the cursor. -/
def advanceLine (s : Source) : Source :=
  if !isBreak (s.char 0) then s
  else
    let width := if s.char 0 == '\r' && s.char 1 == '\n' then 2 else 1
    { s with
      ahead := s.ahead.drop width
      index := s.index + width
      line := s.line + 1
      column := 0
      breaks := s.breaks + 1 }

/-- Whether a line that separates documents starts here. -/
def atMarker (s : Source) : Bool :=
  let mark := s.ahead.take 3
  s.column == 0 && (mark == ['-', '-', '-'] || mark == ['.', '.', '.']) && endsWord (s.char 3)

/-- Loads portions until `n` characters are ahead; at the end of the text its mark is added instead.
-/
def load? (n : Nat) (ahead : List Char) :
    List (List Char) → Option (List Char × List (List Char))
  | [] => some (if n ≤ ahead.length then ahead else ahead ++ [nul], [])
  | p :: ps =>
    if n ≤ ahead.length then some (ahead, p :: ps)
    else if p.all isAdmissible then load? n (ahead ++ p) ps
    else none

end Source

/-- Reads from a text, or fails. -/
abbrev Reading := StateT Source Option

namespace Reading

/-- Makes sure that `n` characters can be looked at. -/
def need (n : Nat) : Reading Unit := fun s =>
  if n ≤ s.ahead.length then some ((), s)
  else
    (Source.load? n s.ahead s.portions).map fun (ahead, portions) =>
      ((), { s with ahead, portions, loadedAt := ahead.headD nul })

/-- The character under the cursor. -/
def here : Reading Char := return (← get).char 0

def skip : Reading Unit := modify Source.advance

def skipLine : Reading Unit := modify Source.advanceLine

/-- Passes a line break and gives what it stands for in a scalar. -/
def takeBreak : Reading (List Char) := do
  let c ← here
  skipLine
  return breakText c

/-- Passes a line break, if there is one. -/
def endLine : Reading Unit := do
  if isBreak (← here) then
    need 2
    skipLine

def takeWhileN (p : Char → Bool) : Nat → Reading (List Char)
  | 0 => failure
  | n + 1 => do
    need 1
    let c ← here
    if p c then
      skip
      return c :: (← takeWhileN p n)
    else return []

/-- Takes characters for as long as they have a property, which the end of the text does not have.
-/
def takeWhile (p : Char → Bool) : Reading (List Char) := do takeWhileN p (← get).bound

def skipWhile (p : Char → Bool) : Reading Unit := do let _ ← takeWhile p

/-- Passes the rest of the line. -/
def skipRest : Reading Unit := skipWhile (!endsLine ·)

/-- Passes blanks and a comment, and demands that the line ends there. -/
def finishLine : Reading Unit := do
  skipWhile isBlank
  if (← here) == '#' then skipRest
  guard (endsLine (← here))
  endLine

end Reading

end Yaml

end Implicits
