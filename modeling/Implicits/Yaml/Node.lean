import Implicits.Yaml.Value

/-!
Documents as trees.
-/
namespace Implicits

namespace Yaml

inductive Node where
  | scalar (s : Scalar)
  | seq (items : List Node)
  | map (entries : List (Node × Node))
  /-- A further occurrence of an anchored node. -/
  | reference (name : String) (target : Node)
  /-- A reference to a node that it is a part of. Such a document has no value. -/
  | cycle (name : String)
deriving Inhabited

namespace Node

def null : Node := scalar ⟨"", true, none⟩

/-- The node behind a reference. -/
def target : Node → Node
  | reference _ node => node
  | node => node

/-- What two keys of a mapping must not share. -/
inductive KeyShape where
  | scalar (text : String)
  | seq
  | map
  | reference (name : String)
deriving DecidableEq

def keyShape : Node → KeyShape
  | scalar s => .scalar s.text
  | seq _ => .seq
  | map _ => .map
  | reference name _ => .reference name
  | cycle name => .reference name

def isMerge : Node → Bool
  | scalar s => s.isMerge
  | _ => false

mutual

/-- The entries of a mapping, and behind them those of the mappings that it takes over, in the order
in which they count. -/
def layers? : Node → Option (List (List (Node × Node)))
  | map entries => (mergedLayers? entries).map (entries :: ·)
  | reference _ node => node.layers?
  | _ => none

/-- The layers of the mappings that the entries of a mapping name. -/
def mergedLayers? : List (Node × Node) → Option (List (List (Node × Node)))
  | [] => some []
  | (key, value) :: entries =>
    if key.isMerge then
      match value with
      | seq items => listLayers? items
      | value => value.layers?
    else mergedLayers? entries

def listLayers? : List Node → Option (List (List (Node × Node)))
  | [] => some []
  | node :: nodes => do return (← node.layers?) ++ (← listLayers? nodes)

end

end Node

end Yaml

end Implicits
