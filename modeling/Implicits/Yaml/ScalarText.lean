import Implicits.Yaml.Number
import Implicits.Yaml.Source

/-!
The text of scalars: plain ones, quoted ones, and blocks of lines. A line break inside a plain or
quoted scalar reads as a space, and of several line breaks the first is dropped.
-/
namespace Implicits

namespace Yaml

open Reading

/-- White space inside a scalar, which is part of its text only if more text follows. -/
structure Gap where
  blanks : List Char := []
  /-- The first line break; an escaped one is empty. -/
  first : Option (List Char) := none
  /-- The further line breaks. -/
  more : List Char := []

namespace Gap

def hasBreak (g : Gap) : Bool := g.first.isSome

/-- What a gap is read as. -/
def text (g : Gap) : List Char :=
  match g.first with
  | none => g.blanks
  | some ['\n'] => if g.more.isEmpty then [' '] else g.more
  | some first => first ++ g.more

def addBreak (g : Gap) (text : List Char) : Gap :=
  if g.hasBreak then { g with more := g.more ++ text }
  else { g with blanks := [], first := some text }

end Gap

/-- Reads on through white space. On a new line no tab may stand left of column `indent`. -/
def gapN (indent : Int) : Nat → Gap → Reading Gap
  | 0, _ => failure
  | n + 1, g => do
    need 1
    let s ← get
    let c := s.char 0
    if isBlank c then
      if g.hasBreak then
        guard !(c == '\t' && (s.column : Int) < indent)
        skip
        gapN indent n g
      else
        skip
        gapN indent n { g with blanks := g.blanks ++ [c] }
    else if isBreak c then
      need 2
      gapN indent n (g.addBreak (← takeBreak))
    else return g

/-! Plain scalars -/

/-- Whether a plain scalar ends in front of a character. -/
def endsPlain (flow : Bool) (c next : Char) : Bool :=
  endsWord c || (c == ':' && endsWord next) ||
    (flow && [',', '?', '[', ']', '\x7b', '\x7d'].contains c)

def plainWordN (flow : Bool) : Nat → Reading (List Char)
  | 0 => failure
  | n + 1 => do
    let s ← get
    if endsPlain flow (s.char 0) (s.char 1) then return []
    skip
    need 2
    return s.char 0 :: (← plainWordN flow n)

/-- Reads a plain scalar on, behind a gap. The flag tells whether it ends with a line break. -/
def plainN (flow : Bool) (indent : Int) : Nat → Gap → Reading (List Char × Bool)
  | 0, _ => failure
  | n + 1, g => do
    need 4
    let s ← get
    if s.atMarker || s.char 0 == '#' then return ([], g.hasBreak)
    let word ← plainWordN flow s.bound
    let (text, g) := if word.isEmpty then ([], g) else (g.text ++ word, {})
    let c ← here
    if !isBlank c && !isBreak c then return (text, g.hasBreak)
    let g ← gapN indent s.bound g
    if !flow && ((← get).column : Int) < indent then return (text, g.hasBreak)
    let (rest, broken) ← plainN flow indent n g
    return (text ++ rest, broken)

/-- A plain scalar inside a collection with the given indentation. -/
def plainText (flow : Bool) (indent : Int) : Reading (String × Bool) := do
  let (text, broken) ← plainN flow (indent + 1) (← get).bound {}
  return (String.ofList text, broken)

/-! Quoted scalars -/

/-- The escapes of one letter. -/
def escapes : List (Char × Nat) :=
  [('0', 0), ('a', 7), ('b', 8), ('t', 9), ('\t', 9), ('n', 10), ('v', 11), ('f', 12), ('r', 13),
    ('e', 27), (' ', 32), ('"', 34), ('\'', 39), ('\\', 92), ('N', 0x85), ('_', 0xA0),
    ('L', 0x2028), ('P', 0x2029)]

/-- The escapes by number, with the count of their digits. -/
def numericEscapes : List (Char × Nat) := [('x', 2), ('u', 4), ('U', 8)]

/-- The character of an escape. -/
def escape : Reading Char := do
  skip
  let c ← here
  skip
  match escapes.lookup c, numericEscapes.lookup c with
  | some n, _ => return Char.ofNat n
  | none, some width =>
    need width
    let digits := (← get).ahead.take width
    match natural? 16 digits with
    | none => failure
    | some n =>
      guard (digits.length = width ∧ n.isValidChar)
      for _ in digits do skip
      return Char.ofNat n
  | none, none => failure

/-- Reads up to white space or the closing quote, or over an escaped line break, which the flag
tells of. -/
def quotedWordN (quote : Char) : Nat → Reading (List Char × Bool)
  | 0 => failure
  | n + 1 => do
    let s ← get
    let c := s.char 0
    let next := s.char 1
    let goOn (c : Char) : Reading (List Char × Bool) := do
      need 2
      let (word, joined) ← quotedWordN quote n
      return (c :: word, joined)
    if endsWord c then return ([], false)
    else if c == quote then
      if quote == '\'' && next == '\'' then
        skip
        skip
        goOn '\''
      else return ([], false)
    else if quote == '"' && c == '\\' then
      if isBreak next then
        need 3
        skip
        skipLine
        return ([], true)
      else goOn (← escape)
    else
      skip
      goOn c

def quotedN (quote : Char) : Nat → Reading (List Char)
  | 0 => failure
  | n + 1 => do
    need 4
    let s ← get
    if s.atMarker || s.char 0 == nul then failure
    let (word, joined) ← quotedWordN quote s.bound
    need 1
    if (← here) == quote then
      skip
      return word
    let g ← gapN 0 s.bound (if joined then { first := some [] } else {})
    return word ++ g.text ++ (← quotedN quote n)

/-- A scalar in quotes of either kind. -/
def quotedText : Reading String := do
  let quote ← here
  skip
  return String.ofList (← quotedN quote (← get).bound)

/-! Blocks of lines -/

/-- What becomes of the line breaks at the end of a block. -/
inductive Chomping where
  | strip
  | clip
  | keep

def chomping? : Char → Option Chomping
  | '+' => some .keep
  | '-' => some .strip
  | _ => none

/-- The sign and the digit behind the indicator of a block, in either order. The digit says how far
the block is indented; `0` stands for a missing one. -/
def blockHeader : Reading (Chomping × Nat) := do
  need 1
  let first ← chomping
  let width ← indentation
  match first with
  | some chomp => return (chomp, width)
  | none => return ((← if width = 0 then pure none else chomping).getD .clip, width)
where
  chomping : Reading (Option Chomping) := do
    need 1
    let found := chomping? (← here)
    if found.isSome then skip
    return found
  indentation : Reading Nat := do
    need 1
    match digit? 10 (← here) with
    | none => return 0
    | some width =>
      guard (width ≠ 0)
      skip
      return width

/-- Passes spaces up to column `indent`, or all of them if it is `0`. -/
def indentN (indent : Nat) : Nat → Reading Unit
  | 0 => failure
  | n + 1 => do
    need 1
    let s ← get
    if s.char 0 == ' ' && (indent == 0 || s.column < indent) then
      skip
      indentN indent n

/-- Passes indentation and empty lines. Gives the line breaks, and the deepest column that was
reached. -/
def emptyLinesN (indent : Nat) : Nat → Nat → List Char → Reading (List Char × Nat)
  | 0, _, _ => failure
  | n + 1, deepest, breaks => do
    indentN indent (← get).bound
    let s ← get
    let deepest := max deepest s.column
    guard !(s.char 0 == '\t' && (indent == 0 || s.column < indent))
    if isBreak (s.char 0) then
      need 2
      emptyLinesN indent n deepest (breaks ++ (← takeBreak))
    else return (breaks, deepest)

/-- What stands behind a line of a block. -/
structure LineEnd where
  /-- The line break of the line. -/
  last : List Char := []
  /-- The line breaks of the empty lines behind it. -/
  empty : List Char := []
  /-- Whether the line starts with a blank, so that it is not joined with another. -/
  blank : Bool := false

namespace LineEnd

/-- The end of a line as it is read in front of a further line. In a folded block the line break is
a space, or nothing if empty lines follow it. -/
def joint (e : LineEnd) (folded blank : Bool) : List Char :=
  if folded && !e.blank && !blank && e.last == ['\n'] then
    if e.empty.isEmpty then [' '] else e.empty
  else e.last ++ e.empty

/-- The end of the last line as it is read. -/
def chomp (e : LineEnd) : Chomping → List Char
  | .strip => []
  | .clip => e.last
  | .keep => e.last ++ e.empty

end LineEnd

/-- Reads the lines of a block that are indented to a column, behind the end of another line. -/
def blockLinesN (folded : Bool) (chomp : Chomping) (column : Nat) :
    Nat → LineEnd → Reading (List Char)
  | 0, _ => failure
  | n + 1, e => do
    need 1
    let s ← get
    if s.column != column || s.char 0 == nul then return e.chomp chomp
    let blank := isBlank (s.char 0)
    let line ← takeWhile (!endsLine ·)
    need 2
    let last ← takeBreak
    let (empty, _) ← emptyLinesN column s.bound 0 []
    return e.joint folded blank ++ line ++
      (← blockLinesN folded chomp column n ⟨last, empty, blank⟩)

/-- A block inside a collection with the given indentation. -/
def blockText (indent : Int) : Reading String := do
  let folded := (← here) == '>'
  skip
  let (chomp, width) ← blockHeader
  finishLine
  let bound := (← get).bound
  let given := if width = 0 then 0 else indent.toNat + width
  let (empty, deepest) ← emptyLinesN given bound 0 []
  let column := if given = 0 then max (max deepest (indent + 1).toNat) 1 else given
  return String.ofList (← blockLinesN folded chomp column bound { empty })

end Yaml

end Implicits
