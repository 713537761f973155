import Implicits.Level.Store
import Implicits.Graph.Components
import Implicits.Graph.Path

/-!
Consistency of level constraints. The levels of a constraint list span a graph with one edge per
ordered pair of levels. The constraints are refused when a strict edge lies on a cycle or when a
chain of edges pushes a concrete level above its own value; otherwise every component gets the least
level that its predecessors allow.
-/
namespace Implicits

/-- The constraints that cannot hold together: a cycle through a strict one, or a chain that forces
a concrete level above its value. -/
structure Inconsistency where
  chain : List Constraint
deriving DecidableEq

def Inconsistency.message (e : Inconsistency) : String :=
  "universe inconsistency: " ++ ", ".intercalate (e.chain.map Constraint.text)

/-- A level variable with its least value and the representative of the variables that are forced to
be equal to it. -/
structure Assignment.Entry where
  levelVar : LevelVar
  value : Int64
  representative : LevelVar
deriving DecidableEq

structure Assignment where
  entries : List Assignment.Entry
deriving DecidableEq

namespace Assignment

def size (a : Assignment) : Nat := a.entries.length

def find? (a : Assignment) (v : LevelVar) : Option Entry := a.entries.find? (·.levelVar == v)

def level? (a : Assignment) (v : LevelVar) : Option Int64 := (a.find? v).map (·.value)

def eval? (a : Assignment) : Level → Option Int64
  | .const k => some k
  | .var v => a.level? v

/-- The representative of a variable; a variable without constraints stands for itself. -/
def representative (a : Assignment) (v : LevelVar) : LevelVar :=
  ((a.find? v).map (·.representative)).getD v

end Assignment

structure LevelGraph.Edge where
  source : Nat
  target : Nat
  constraint : Constraint

/-- Levels in the order of their first appearance, and one edge per ordered pair of them. -/
structure LevelGraph where
  nodes : List Level
  edges : List LevelGraph.Edge

namespace LevelGraph

def Edge.sameEnds (e f : Edge) : Bool := e.source == f.source && e.target == f.target

/-- The first constraint between two levels stands for all of them, unless a later one is the first
strict one. -/
def insertEdge (edges : List Edge) (e : Edge) : List Edge :=
  if edges.any e.sameEnds then
    edges.map fun f =>
      if e.sameEnds f && e.constraint.strict && !f.constraint.strict then e else f
  else edges ++ [e]

/-- Puts a number in its place in an ascending list. -/
def insertConst (k : Int64) : List Int64 → List Int64
  | [] => [k]
  | j :: js => if k ≤ j then k :: j :: js else j :: insertConst k js

/-- The concrete levels among some levels, in their order. -/
def sortedConsts (nodes : List Level) : List Int64 :=
  (nodes.filterMap Level.const?).foldr insertConst []

/-- Concrete levels are ordered among themselves. -/
def levelOrder (nodes : List Level) : List Constraint :=
  let sorted := sortedConsts nodes
  (sorted.zip sorted.tail).map fun (a, b) => ⟨.const a, .const b, true, "level order"⟩

def ofConstraints (cs : List Constraint) : LevelGraph :=
  let nodes := (cs.flatMap Constraint.ends).eraseDups
  let edge (c : Constraint) : Edge := ⟨nodes.idxOf c.lo, nodes.idxOf c.hi, c⟩
  ⟨nodes, ((cs ++ levelOrder nodes).map edge).foldl insertEdge []⟩

def graph (lg : LevelGraph) : Graph :=
  Graph.ofEdges lg.nodes.length (lg.edges.map fun e => (e.source, e.target))

def constraint? (lg : LevelGraph) (v w : Nat) : Option Constraint :=
  (lg.edges.find? fun e => e.source == v && e.target == w).map (·.constraint)

/-- The constraints along a path. -/
def along (lg : LevelGraph) : List Nat → List Constraint
  | v :: w :: rest => (lg.constraint? v w).toList ++ lg.along (w :: rest)
  | _ => []

/-- A strict constraint inside a component, closed to a cycle by a shortest way back. -/
def cycleFrom? (lg : LevelGraph) (g : Graph) (comp : List Nat) (v w : Nat) :
    Option (List Constraint) := do
  let c ← lg.constraint? v w
  if comp.contains w && c.strict then
    let back := if v = w then [] else (g.path? w v comp.contains).getD []
    some (c :: lg.along back)
  else none

def strictCycle? (lg : LevelGraph) (g : Graph) (comps : List (List Nat)) :
    Option (List Constraint) :=
  comps.findSome? fun comp =>
    comp.findSome? fun v =>
      (g.successors v).findSome? fun w => lg.cycleFrom? g comp v w

/-- The value of a vertex and the constraints that force it, latest first. -/
structure Placement where
  value : Int64
  chain : List Constraint

/-- Raises a bound by an edge whose source already has a value. -/
def raise (placed : List (Nat × Placement)) (bound : Placement) (e : Edge) : Placement :=
  match placed.lookup e.source with
  | none => bound
  | some p =>
    let lower := if e.constraint.strict then p.value + 1 else p.value
    if bound.value < lower then ⟨lower, e.constraint :: p.chain⟩ else bound

/-- The concrete level in a component, if it has one that is not negative. -/
def fixedLevel? (lg : LevelGraph) (comp : List Nat) : Option Int64 :=
  let consts := comp.filterMap fun v => lg.nodes[v]?.bind Level.const?
  consts.getLast?.filter (fun k => decide (0 ≤ k))

/-- Gives a component the least value that the edges into it allow. -/
def place (lg : LevelGraph) (placed : List (Nat × Placement)) (comp : List Nat) :
    Except Inconsistency (List (Nat × Placement)) :=
  let incoming := comp.flatMap fun v => lg.edges.filter (·.target == v)
  let bound := incoming.foldl (raise placed) ⟨-1, []⟩
  let least := if 0 < bound.value then bound.value else 0
  match lg.fixedLevel? comp with
  | none => .ok (comp.map (·, ⟨least, bound.chain⟩) ++ placed)
  | some k =>
    if k < least then .error ⟨bound.chain.reverse⟩
    else .ok (comp.map (·, ⟨k, bound.chain⟩) ++ placed)

/-- The first member of a component stands for the variables in it, if it is a variable itself. -/
def representative (lg : LevelGraph) (comps : List (List Nat)) (i : Nat) (v : LevelVar) :
    LevelVar :=
  match (comps.find? (·.contains i)).bind List.head? with
  | none => v
  | some r =>
    match lg.nodes[r]? with
    | some (.var u) => u
    | _ => v

def assignment (lg : LevelGraph) (comps : List (List Nat)) (placed : List (Nat × Placement)) :
    Assignment :=
  ⟨lg.nodes.zipIdx.filterMap fun (l, i) =>
    match l with
    | .const _ => none
    | .var v => (placed.lookup i).map fun p => ⟨v, p.value, lg.representative comps i v⟩⟩

end LevelGraph

/-- The least assignment of the level variables, or constraints that exclude every assignment. -/
def checkLevels (cs : List Constraint) : Except Inconsistency Assignment :=
  let lg := LevelGraph.ofConstraints cs
  let g := lg.graph
  let comps := g.components
  match lg.strictCycle? g comps with
  | some chain => .error ⟨chain⟩
  | none => (comps.foldlM lg.place []).map (lg.assignment comps)

end Implicits
