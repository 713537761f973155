import Implicits.Graph

/-!
Shortest paths by breadth-first search. Vertices wait in a queue in the order in which they are
reached, and each of them keeps the vertex that it was reached from. The path is read back from the
goal along these.
-/
namespace Implicits

namespace Graph

/-- The state of a breadth-first search. -/
structure Spread where
  /-- The vertex before each one that has been reached. The start stands before itself. -/
  previous : Array (Option Nat)
  /-- The vertices that are still to be left, in the order in which they were reached. -/
  queue : List Nat

namespace Spread

def start (n v : Nat) : Spread := ⟨(Array.replicate n none).setIfInBounds v (some v), [v]⟩

def previous? (s : Spread) (v : Nat) : Option Nat := s.previous.getD v none

/-- Reaches a vertex from another one, if it is allowed and has not been reached yet. -/
def reach (s : Spread) (within : Nat → Bool) (v w : Nat) : Spread :=
  if (s.previous? w).isSome || !within w then s
  else ⟨s.previous.setIfInBounds w (some v), s.queue ++ [w]⟩

/-- The vertices from a given one back to the start. The first argument bounds their number. -/
def wayBack (s : Spread) (start : Nat) : Nat → Nat → List Nat
  | 0, v => [v]
  | n + 1, v =>
    if v = start then [v]
    else
      match s.previous? v with
      | none => [v]
      | some u => v :: s.wayBack start n u

end Spread

/-- Leaves the vertices of the queue in turn, up to the goal. The first argument bounds their
number; each vertex enters the queue once, so the size of the graph is enough. -/
def spread (g : Graph) (goal : Nat) (within : Nat → Bool) : Nat → Spread → Spread
  | 0, s => s
  | n + 1, s =>
    match s.queue with
    | [] => s
    | v :: queue =>
      if v = goal then s
      else
        g.spread goal within n
          ((g.successors v).foldl (fun s w => s.reach within v w) { s with queue })

/-- A shortest path between two vertices, both included. All vertices after the first satisfy
`within`. -/
def path? (g : Graph) (start goal : Nat) (within : Nat → Bool) : Option (List Nat) :=
  let s := g.spread goal within g.size (.start g.size start)
  if (s.previous? goal).isSome then some (s.wayBack start g.size goal).reverse else none

end Graph

end Implicits
