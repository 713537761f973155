import Implicits.Yaml.ScalarText
import Implicits.Yaml.Tag

/-!
Documents as tokens. In a block collection the indentation opens and closes collections, and a key
is only recognised by the colon behind it. So the tokens wait in a queue, into which the start of a
key can still be inserted, and no token leaves it while it may turn out to start a key.
-/
namespace Implicits

namespace Yaml

open Reading (need here skip skipLine skipWhile skipRest endLine)

inductive Token where
  | streamEnd
  | preamble (line : Preamble)
  | documentStart
  | documentEnd
  | blockSeqStart
  | blockMapStart
  | blockEnd
  | flowSeqStart
  | flowSeqEnd
  | flowMapStart
  | flowMapEnd
  | blockEntry
  | flowEntry
  | key
  | value
  | reference (name : String)
  | anchor (name : String)
  | tag (tag : Tag)
  | scalar (text : String) (plain : Bool)
deriving DecidableEq

/-- A place where a key may start. -/
structure KeyStart where
  possible : Bool
  /-- In a block mapping, whatever stands at its indentation has to be a key. -/
  required : Bool
  /-- The number of the token that stands there. -/
  token : Nat
  index : Nat
  line : Nat
  column : Nat

/-- A text that is being cut into tokens. -/
structure Tokens where
  source : Source
  queue : List Token
  /-- The number of tokens that have left the queue. -/
  taken : Nat
  /-- The indentation of the innermost block collection, `-1` outside of all of them. -/
  indent : Int
  /-- The indentations around it, innermost first. -/
  indents : List Int
  /-- Where a key may start at the current level of flow collections. -/
  keyStart : KeyStart
  /-- The same for the levels around it, innermost first. -/
  keyStarts : List KeyStart
  /-- The levels at which tokens may start keys. -/
  keyLevels : List (Nat × Nat)
  /-- Whether a key may start at the next token. -/
  keyAllowed : Bool

/-- Takes tokens from a text, or fails. -/
abbrev Scan := StateT Tokens Option

namespace Tokens

def noKey (s : Source) (token : Nat) : KeyStart := ⟨false, false, token, s.index, s.line, s.column⟩

def ofString (text : String) : Tokens :=
  let s := Source.ofString text
  ⟨s, [], 0, -1, [], noKey s 0, [], [], true⟩

/-- The number of flow collections around the cursor. -/
def level (t : Tokens) : Nat := t.keyStarts.length

def inFlow (t : Tokens) : Bool := !t.keyStarts.isEmpty

/-- The number that the next token will have. -/
def nextNumber (t : Tokens) : Nat := t.taken + t.queue.length

def push (t : Tokens) (token : Token) : Tokens := { t with queue := t.queue ++ [token] }

/-- Puts a token in front of the one with the given number, or at the end if that one has left. -/
def insert (t : Tokens) (number : Nat) (token : Token) : Tokens :=
  if number < t.taken then t.push token
  else
    let i := number - t.taken
    { t with queue := t.queue.take i ++ token :: t.queue.drop i }

def forget (t : Tokens) (number : Nat) : Tokens :=
  { t with keyLevels := t.keyLevels.filter (·.1 != number) }

/-! Possible keys -/

/-- The longest simple key. -/
def maxKeyLength : Nat := 1024

/-- Checks a possible key against the cursor: a key ends on its line. A required one must not be
given up. -/
def recheck? (t : Tokens) (k : KeyStart) : Option KeyStart :=
  if k.possible && (k.line < t.source.line || k.index + maxKeyLength < t.source.index) then
    if k.required then none else some { k with possible := false }
  else some k

def keyStartAt? (t : Tokens) (level : Nat) : Option KeyStart :=
  if t.level < level then none else (t.keyStart :: t.keyStarts)[t.level - level]?

def setKeyStart (t : Tokens) (level : Nat) (k : KeyStart) : Tokens :=
  match t.level - level with
  | 0 => { t with keyStart := k }
  | i + 1 => { t with keyStarts := t.keyStarts.set i k }

/-- Gives up the possible key of this level. -/
def dropKey? (t : Tokens) : Option Tokens :=
  if !t.keyStart.possible then some t
  else if t.keyStart.required then none
  else some { t.forget t.keyStart.token with keyStart := { t.keyStart with possible := false } }

/-- Notes that a key may start at the cursor. -/
def saveKey? (t : Tokens) : Option Tokens :=
  if !t.keyAllowed then some t
  else
    let s := t.source
    let required := !t.inFlow && t.indent == (s.column : Int)
    t.dropKey?.map fun t =>
      { t with
        keyStart := ⟨true, required, t.nextNumber, s.index, s.line, s.column⟩
        keyLevels := (t.nextNumber, t.level) :: t.keyLevels }

/-- The deepest nesting of collections. -/
def maxDepth : Nat := 10000

def openFlow? (t : Tokens) : Option Tokens :=
  if t.level < maxDepth then
    some { t with
      keyStart := noKey t.source t.nextNumber
      keyStarts := t.keyStart :: t.keyStarts }
  else none

def closeFlow (t : Tokens) : Tokens :=
  match t.keyStarts with
  | [] => t
  | k :: ks => { t.forget t.keyStart.token with keyStart := k, keyStarts := ks }

/-! Indentation -/

/-- Opens a block collection at a column that is further in, in front of the token with the given
number. -/
def indentTo? (t : Tokens) (column : Nat) (number : Nat) (start : Token) : Option Tokens :=
  if t.inFlow || (column : Int) ≤ t.indent then some t
  else if maxDepth ≤ t.indents.length then none
  else some ({ t with indent := column, indents := t.indent :: t.indents }.insert number start)

/-- The indentations that are left at a column, and how many have ended. -/
def outdent (column indent : Int) : List Int → Int × List Int × Nat
  | [] => (indent, [], 0)
  | i :: is =>
    if indent ≤ column then (indent, i :: is, 0)
    else
      let (indent, indents, ended) := outdent column i is
      (indent, indents, ended + 1)

/-- Closes the block collections that are further in than a column. -/
def outdentTo (t : Tokens) (column : Int) : Tokens :=
  if t.inFlow then t
  else
    let (indent, indents, ended) := outdent column t.indent t.indents
    { t with indent, indents, queue := t.queue ++ List.replicate ended .blockEnd }

end Tokens

namespace Scan

def reading {α : Type} (r : Reading α) : Scan α := fun t =>
  (r t.source).map fun (a, source) => (a, { t with source })

/-- Changes the state, or fails. -/
def update (f : Tokens → Option Tokens) : Scan Unit := fun t => (f t).map fun t => ((), t)

def push (token : Token) : Scan Unit := modify (·.push token)

def allowKey (allowed : Bool) : Scan Unit := modify fun t => { t with keyAllowed := allowed }

/-! Comments and white space between tokens -/

/-- The furthest that is looked ahead for a comment. -/
def commentReach : Nat := 512

def skipToN (index : Nat) : Nat → Reading Unit
  | 0 => pure ()
  | n + 1 => do
    need 1
    let s ← get
    if s.index < index then
      if isBreak (s.char 0) then skipLine else skip
      skipToN index n

/-- Passes comments and the white space between them, from the place `i` behind the cursor on. -/
def commentsN : Nat → Nat → Reading Unit
  | 0, _ => failure
  | n + 1, i =>
    if commentReach ≤ i then pure ()
    else do
      need (i + 1)
      let s ← get
      let c := s.char i
      if isBlank c || c == '\r' || c == '\n' then commentsN n (i + 1)
      else if c == '#' then
        skipToN (s.index + i) s.bound
        skipRest
        commentsN n 1

/-- Passes a comment behind a token, looking `i` places behind the cursor. -/
def lineCommentN : Nat → Nat → Reading Unit
  | 0, _ => pure ()
  | n + 1, i => do
    need (i + 1)
    let c := (← get).char i
    if isBlank c then lineCommentN n (i + 1)
    else if c == '#' then skipRest

/-- Passes a comment on the line of the last token. -/
def lineComment : Reading Unit := do
  if (← get).breaks = 0 then lineCommentN commentReach 0

/-- Goes to the next token. In a block a key may start on each new line, and in front of it no tab
may stand. -/
def toTokenN : Nat → Scan Unit
  | 0 => failure
  | n + 1 => do
    reading (need 1)
    let t ← get
    if t.source.column = 0 ∧ t.source.loadedAt = byteOrderMark then reading skip
    reading (skipWhile fun c => c == ' ' || (c == '\t' && (t.inFlow || !t.keyAllowed)))
    if (← reading here) == '#' then reading (commentsN (t.source.bound * commentReach) 0)
    if isBreak (← reading here) then
      reading endLine
      if !t.inFlow then allowKey true
      toTokenN n

/-! Single tokens -/

def takeSkip (count : Nat) (token : Token) : Scan Unit := do
  for _ in List.range count do reading skip
  push token

/-- A line that stands between documents, or in front of one. -/
def outside : Scan Unit := do
  modify (·.outdentTo (-1))
  update Tokens.dropKey?
  allowKey false

def streamEnd : Scan Unit := do
  modify fun t =>
    if t.source.column = 0 then t
    else { t with source := { t.source with column := 0, line := t.source.line + 1 } }
  outside
  push .streamEnd

def flowStart (token : Token) : Scan Unit := do
  update Tokens.saveKey?
  update Tokens.openFlow?
  allowKey true
  takeSkip 1 token

def flowEnd (token : Token) : Scan Unit := do
  update Tokens.dropKey?
  modify Tokens.closeFlow
  allowKey false
  takeSkip 1 token

def flowEntry : Scan Unit := do
  update Tokens.dropKey?
  allowKey true
  takeSkip 1 .flowEntry

/-- Opens a block collection at the cursor, if there is none yet. -/
def startBlock (start : Token) : Scan Unit := do
  let t ← get
  if !t.inFlow then
    guard t.keyAllowed
    update (·.indentTo? t.source.column t.nextNumber start)

def blockEntry : Scan Unit := do
  startBlock .blockSeqStart
  update Tokens.dropKey?
  allowKey true
  takeSkip 1 .blockEntry

def explicitKey : Scan Unit := do
  startBlock .blockMapStart
  update Tokens.dropKey?
  allowKey !(← get).inFlow
  takeSkip 1 .key

/-- A colon: it ends a key that has started at a known place, or follows an explicit one. -/
def value : Scan Unit := do
  let t ← get
  match t.recheck? t.keyStart with
  | none => failure
  | some k =>
    if k.possible then
      modify (·.insert k.token .key)
      update (·.indentTo? k.column k.token .blockMapStart)
      modify fun t => { t.forget k.token with keyStart := { k with possible := false } }
      allowKey false
    else
      set { t with keyStart := k }
      startBlock .blockMapStart
      allowKey !t.inFlow
    takeSkip 1 .value

/-- A token that may be a key, or start one. -/
def content (read : Scan Token) : Scan Unit := do
  update Tokens.saveKey?
  allowKey false
  push (← read)

/-- The name of an anchor, which white space or an indicator has to follow. -/
def anchorName : Reading String := do
  skip
  let name ← nameText
  let c ← here
  guard (endsWord c || "?:,]\x7d%@\x60".toList.contains c)
  return name

def block : Scan Unit := do
  update Tokens.dropKey?
  allowKey true
  let text ← reading (blockText (← get).indent)
  push (.scalar text false)

def plain : Scan Unit := content do
  let t ← get
  let (text, broken) ← reading (plainText t.inFlow t.indent)
  if broken then allowKey true
  return .scalar text true

/-- Whether a plain scalar may start with a character. -/
def startsPlain (flow : Bool) (c next : Char) : Bool :=
  (!endsWord c && !"-?:,[]\x7b\x7d#&*!|>'\"%@\x60".toList.contains c) ||
    (c == '-' && !isBlank next) || (!flow && (c == '?' || c == ':') && !endsWord next)

/-- A token of a document. -/
def inside : Scan Unit := do
  let t ← get
  let c := t.source.char 0
  let next := t.source.char 1
  let apart := t.inFlow || endsWord next
  if c == '[' then flowStart .flowSeqStart
  else if c == '\x7b' then flowStart .flowMapStart
  else if c == ']' then flowEnd .flowSeqEnd
  else if c == '\x7d' then flowEnd .flowMapEnd
  else if c == ',' then flowEntry
  else if c == '-' && endsWord next then blockEntry
  else if c == '?' && apart then explicitKey
  else if c == ':' && apart then value
  else if c == '*' then content (.reference <$> reading anchorName)
  else if c == '&' then content (.anchor <$> reading anchorName)
  else if c == '!' then content (.tag <$> reading Tag.read)
  else if (c == '|' || c == '>') && !t.inFlow then block
  else if c == '\'' || c == '"' then content ((.scalar · false) <$> reading quotedText)
  else if startsPlain t.inFlow c next then plain
  else failure

/-- Adds at least one token to the queue. -/
def fetch : Scan Unit := do
  toTokenN (← get).source.bound
  modify fun t => t.outdentTo t.source.column
  reading (need 4)
  let s := (← get).source
  if s.char 0 == nul then streamEnd
  else if s.column == 0 && s.char 0 == '%' then
    outside
    push (.preamble (← reading Preamble.read))
  else if s.atMarker then
    outside
    takeSkip 3 (if s.char 0 == '-' then .documentStart else .documentEnd)
  else
    inside
    if (← get).queue.getLast? != some .blockEntry then reading lineComment

/-! The queue -/

/-- The number of tokens that are looked ahead. -/
def lookahead : Nat := 3

/-- Whether the first token of the queue may still turn out to start a key. -/
def headStartsKey : Scan Bool := do
  let t ← get
  match t.keyLevels.lookup t.taken with
  | none => return false
  | some level =>
    match t.keyStartAt? level with
    | none => return false
    | some k =>
      match t.recheck? k with
      | none => failure
      | some k =>
        set (t.setKeyStart level k)
        return k.possible

def fillN : Nat → Scan Unit
  | 0 => failure
  | n + 1 => do
    let wanted ← if (← get).queue.length < lookahead then pure true else headStartsKey
    if wanted then
      fetch
      fillN n

/-- The next token. -/
def peek : Scan Token := do
  fillN (← get).source.bound
  match (← get).queue with
  | token :: _ => return token
  | [] => failure

/-- Takes the next token. -/
def drop : Scan Unit := modify fun t =>
  { t.forget t.taken with queue := t.queue.tail, taken := t.taken + 1 }

end Scan

end Yaml

end Implicits
