/-!
Finite directed graphs on the vertices `0, …, size - 1`, with successors in the order in which the
edges were added.
-/
namespace Implicits

structure Graph where
  adjacency : Array (List Nat)
deriving Inhabited

namespace Graph

def empty (n : Nat) : Graph := ⟨Array.replicate n []⟩

def size (g : Graph) : Nat := g.adjacency.size

def vertices (g : Graph) : List Nat := List.range g.size

def successors (g : Graph) (v : Nat) : List Nat := g.adjacency.getD v []

def hasEdge (g : Graph) (v w : Nat) : Bool := (g.successors v).contains w

/-- Adds an edge unless it is there already. -/
def addEdge (g : Graph) (v w : Nat) : Graph :=
  if g.hasEdge v w then g
  else ⟨g.adjacency.modify v (· ++ [w])⟩

def ofEdges (n : Nat) (edges : List (Nat × Nat)) : Graph :=
  edges.foldl (fun g e => g.addEdge e.1 e.2) (empty n)

end Graph

end Implicits
