import Implicits.Yaml.Node
import Implicits.Yaml.Token

/-!
The first document of a text as a tree. The rest of the text is only looked at as far as the tokens
that follow the document need it.
-/
namespace Implicits

namespace Yaml

/-- An anchor. Its node is known when it has been read to its end. -/
structure Anchor where
  name : String
  node : Option Node

/-- Builds nodes from tokens. The anchors seen so far come with it, in the order in which they
occur. -/
abbrev Build := StateT (Array Anchor) Scan

namespace Build

def peek : Build Token := liftM Scan.peek

def drop : Build Unit := liftM Scan.drop

/-- Takes the next token if it is the given one. -/
def took (token : Token) : Build Bool := do
  if (← peek) == token then
    drop
    return true
  else return false

/-- The node of the last anchor with a name. -/
def referenceTo (name : String) : Build Node := do
  match (← get).findRev? (·.name == name) with
  | none => failure
  | some a =>
    match a.node with
    | none => return .cycle name
    | some node => return .reference name node

/-- What may stand in front of a node. -/
structure Properties where
  anchor : Option String := none
  tag : Option Tag := none

def Properties.isEmpty (p : Properties) : Bool := p.anchor.isNone && p.tag.isNone

/-- Reads an anchor and a tag, in either order. -/
def properties : Build Properties := do
  match ← peek with
  | .anchor name =>
    drop
    match ← peek with
    | .tag tag =>
      drop
      return ⟨some name, some tag⟩
    | _ => return ⟨some name, none⟩
  | .tag tag =>
    drop
    match ← peek with
    | .anchor name =>
      drop
      return ⟨some name, some tag⟩
    | _ => return ⟨none, some tag⟩
  | _ => return {}

/-- The tag of a scalar. The tag that is a mere exclamation mark counts as none. -/
def scalarTag (tag : Option String) : Option String :=
  (tag.filter (· != "!")).map shortTag

mutual

/-- A node. Block collections are only read where they may stand. -/
def nodeN (handles : List (String × String)) : Nat → Bool → Bool → Build Node
  | 0, _, _ => failure
  | n + 1, block, indentless => do
    match ← peek with
    | .reference name =>
      drop
      referenceTo name
    | _ =>
      let p ← properties
      let tag ← match p.tag with
        | none => pure none
        | some tag =>
          match tag.expand? handles with
          | none => failure
          | some tag => pure (some tag)
      match p.anchor with
      | none => contentN handles n block indentless p.isEmpty tag
      | some name =>
        let i := (← get).size
        modify (·.push ⟨name, none⟩)
        let node ← contentN handles n block indentless false tag
        modify (·.modify i fun a => { a with node := some node })
        return node

/-- What follows the properties of a node. It may be missing if there are any. -/
def contentN (handles : List (String × String)) :
    Nat → Bool → Bool → Bool → Option String → Build Node
  | 0, _, _, _, _ => failure
  | n + 1, block, indentless, bare, tag => do
    let missing : Build Node := do
      guard !bare
      return .scalar ⟨"", true, scalarTag tag⟩
    match ← peek with
    | .blockEntry => if indentless then .seq <$> indentlessItemsN handles n else missing
    | .scalar text plain =>
      drop
      return .scalar ⟨text, plain, scalarTag tag⟩
    | .flowSeqStart =>
      drop
      .seq <$> flowItemsN handles n true
    | .flowMapStart =>
      drop
      .map <$> flowEntriesN handles n true
    | .blockSeqStart =>
      if block then
        drop
        .seq <$> blockItemsN handles n
      else missing
    | .blockMapStart =>
      if block then
        drop
        .map <$> blockEntriesN handles n
      else missing
    | _ => missing

/-- The items of a block sequence, up to its end. -/
def blockItemsN (handles : List (String × String)) : Nat → Build (List Node)
  | 0 => failure
  | n + 1 => do
    if ← took .blockEntry then
      let item ← optionalN handles n true false [.blockEntry, .blockEnd]
      return item :: (← blockItemsN handles n)
    else
      guard (← took .blockEnd)
      return []

/-- The items of a block sequence that is indented no further than the mapping around it. -/
def indentlessItemsN (handles : List (String × String)) : Nat → Build (List Node)
  | 0 => failure
  | n + 1 => do
    if ← took .blockEntry then
      let item ← optionalN handles n true false [.blockEntry, .key, .value, .blockEnd]
      return item :: (← indentlessItemsN handles n)
    else return []

/-- The entries of a block mapping, up to its end. -/
def blockEntriesN (handles : List (String × String)) : Nat → Build (List (Node × Node))
  | 0 => failure
  | n + 1 => do
    if ← took .key then
      let key ← optionalN handles n true true [.key, .value, .blockEnd]
      let value ←
        if ← took .value then optionalN handles n true true [.key, .value, .blockEnd]
        else pure .null
      return (key, value) :: (← blockEntriesN handles n)
    else
      guard (← took .blockEnd)
      return []

/-- The items of a flow sequence, up to its end. An item with a key is a mapping of one entry. -/
def flowItemsN (handles : List (String × String)) : Nat → Bool → Build (List Node)
  | 0, _ => failure
  | n + 1, first => do
    if ← took .flowSeqEnd then return []
    if !first then guard (← took .flowEntry)
    if ← took .flowSeqEnd then return []
    let item ←
      if ← took .key then do
        let key ←
          if [Token.value, .flowEntry, .flowSeqEnd].contains (← peek) then do
            drop
            pure .null
          else nodeN handles n false false
        let value ←
          if ← took .value then optionalN handles n false false [.flowEntry, .flowSeqEnd]
          else pure .null
        pure (.map [(key, value)])
      else nodeN handles n false false
    return item :: (← flowItemsN handles n false)

/-- The entries of a flow mapping, up to its end. -/
def flowEntriesN (handles : List (String × String)) : Nat → Bool → Build (List (Node × Node))
  | 0, _ => failure
  | n + 1, first => do
    if ← took .flowMapEnd then return []
    if !first then guard (← took .flowEntry)
    if ← took .flowMapEnd then return []
    let entry ←
      if ← took .key then do
        let key ← optionalN handles n false false [.value, .flowEntry, .flowMapEnd]
        let value ←
          if ← took .value then optionalN handles n false false [.flowEntry, .flowMapEnd]
          else pure .null
        pure (key, value)
      else do
        pure (← nodeN handles n false false, .null)
    return entry :: (← flowEntriesN handles n false)

/-- A node, or null in front of a token that shows that it is missing. -/
def optionalN (handles : List (String × String)) : Nat → Bool → Bool → List Token → Build Node
  | 0, _, _, _ => failure
  | n + 1, block, indentless, stops => do
    if stops.contains (← peek) then return .null
    nodeN handles n block indentless

end

/-- Reads the lines in front of a document: at most one version, which has to be 1.1, and handles,
each of them once. -/
def preambleN : Nat → Bool → List (String × String) → Build (List (String × String))
  | 0, _, _ => failure
  | n + 1, versioned, handles => do
    match ← peek with
    | .preamble (.version major minor) =>
      guard (!versioned && major == 1 && minor == 1)
      drop
      preambleN n true handles
    | .preamble (.handle handle start) =>
      guard (handles.lookup handle).isNone
      drop
      preambleN n versioned (handles ++ [(handle, start)])
    | _ => return handles

/-- Whether a token cannot belong to the content of a document. -/
def isOutside : Token → Bool
  | .streamEnd | .preamble _ | .documentStart | .documentEnd => true
  | _ => false

/-- The root of the first document, null if there is no document. -/
def document (fuel : Nat) : Build Node := do
  let first ← peek
  if first == .streamEnd then return .null
  let root ←
    if isOutside first && first != .documentEnd then do
      let handles ← preambleN fuel false []
      guard (← took .documentStart)
      if isOutside (← peek) then pure .null else nodeN handles fuel true false
    else nodeN [] fuel true false
  let _ ← peek
  return root

end Build

/-- Reads the first document of a text. -/
def Node.read? (text : String) : Option Node :=
  let fuel := 16 * text.length + 64
  (((Build.document fuel).run #[]).run (Tokens.ofString text)).map (·.1.1)

end Yaml

end Implicits
