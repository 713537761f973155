import Implicits.Yaml.Number
import Implicits.Yaml.Source

/-!
Tags, and the lines in front of a document that declare its version and handles of tags. A tag is
written out in full or behind a handle, which stands for the start of many tags.
-/
namespace Implicits

namespace Yaml

open Reading

/-- The name behind an indicator. -/
def nameText : Reading String := do
  let name ← takeWhile isNameChar
  guard !name.isEmpty
  return String.ofList name

/-- The characters of tags. -/
def isTagChar (c : Char) : Bool := isNameChar c || ";/?:@&=+$,.!~*'()[]".toList.contains c

/-- An escaped byte. -/
def escapedByte : Reading Nat := do
  need 3
  let s ← get
  guard (s.char 0 == '%')
  match natural? 16 [s.char 1, s.char 2] with
  | none => failure
  | some n =>
    skip
    skip
    skip
    return n

/-- The bytes that follow the first byte of a character. -/
def followers? (first : Nat) : Option Nat :=
  if first < 0x80 then some 0
  else if first < 0xC0 then none
  else if first < 0xE0 then some 1
  else if first < 0xF0 then some 2
  else if first < 0xF8 then some 3
  else none

/-- An escaped character, byte by byte. -/
def escapedBytes : Reading (List Char) := do
  let first ← escapedByte
  match followers? first with
  | none => failure
  | some count =>
    let rest ← (List.range count).mapM fun _ => do
      let n ← escapedByte
      guard (0x80 ≤ n ∧ n < 0xC0)
      return n
    return (first :: rest).map Char.ofNat

def tagTextN : Nat → Reading (List Char)
  | 0 => failure
  | n + 1 => do
    need 1
    let c ← here
    if c == '%' then
      let bytes ← escapedBytes
      return bytes ++ (← tagTextN n)
    else if isTagChar c then
      skip
      return c :: (← tagTextN n)
    else return []

/-- The characters of a tag. -/
def tagText : Reading String := do return String.ofList (← tagTextN (← get).bound)

/-- A tag that is not empty. -/
def someTagText : Reading String := do
  let text ← tagText
  guard (text ≠ "")
  return text

/-- What may be a handle: an exclamation mark and a name, with another one behind it. -/
def handleText : Reading String := do
  need 1
  guard ((← here) == '!')
  skip
  let name ← takeWhile isNameChar
  if (← here) == '!' then
    skip
    return "!" ++ String.ofList name ++ "!"
  else return "!" ++ String.ofList name

def isHandle (text : String) : Bool := 1 < text.length && text.endsWith "!"

/-- A tag behind a handle; without a handle it stands for itself. -/
structure Tag where
  handle : String
  suffix : String
deriving DecidableEq

namespace Tag

def read : Reading Tag := do
  need 2
  let tag ← if (← get).char 1 == '<' then verbatim else handled
  need 1
  guard (endsWord (← here))
  return tag
where
  verbatim : Reading Tag := do
    skip
    skip
    let suffix ← someTagText
    guard ((← here) == '>')
    skip
    return ⟨"", suffix⟩
  handled : Reading Tag := do
    let handle ← handleText
    if isHandle handle then return ⟨handle, ← someTagText⟩
    else
      let suffix := (handle.drop 1).toString ++ (← tagText)
      return if suffix = "" then ⟨"", "!"⟩ else ⟨"!", suffix⟩

/-- The handles that need no declaration. -/
def commonHandles : List (String × String) := [("!", "!"), ("!!", "tag:yaml.org,2002:")]

/-- The tag in full. -/
def expand? (t : Tag) (handles : List (String × String)) : Option String :=
  if t.handle = "" then some t.suffix
  else ((handles ++ commonHandles).lookup t.handle).map (· ++ t.suffix)

end Tag

/-- A line in front of a document. -/
inductive Preamble where
  | version (major minor : Nat)
  | handle (handle start : String)
deriving DecidableEq

namespace Preamble

/-- A version number of one or two digits. -/
def versionNumber : Reading Nat := do
  let digits ← takeWhile Char.isDigit
  match natural? 10 digits with
  | none => failure
  | some n =>
    guard (digits.length ≤ 2)
    return n

def read : Reading Preamble := do
  skip
  let name ← nameText
  guard (endsWord (← here))
  skipWhile isBlank
  let line ← if name = "YAML" then versionLine else if name = "TAG" then handleLine else failure
  finishLine
  return line
where
  versionLine : Reading Preamble := do
    let major ← versionNumber
    guard ((← here) == '.')
    skip
    return .version major (← versionNumber)
  handleLine : Reading Preamble := do
    let handle ← handleText
    guard (handle = "!" ∨ isHandle handle)
    need 1
    guard (isBlank (← here))
    skipWhile isBlank
    let start ← someTagText
    need 1
    guard (endsWord (← here))
    return .handle handle start

end Preamble

end Yaml

end Implicits
