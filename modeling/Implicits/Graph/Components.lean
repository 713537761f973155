import Implicits.Graph

/-!
Strongly connected components in topological order, by one depth-first search. Vertices are numbered
as they are discovered and wait on a stack until their component is complete. The low link of a
vertex is the least number of a waiting vertex that was met on the way from it. If it is the number
of the vertex itself, nothing that was discovered earlier is met, and the vertex makes up a
component with all that was put on the stack after it. A component is complete before those that
lead to it, so the latest one comes first.
-/
namespace Implicits

namespace Graph

/-- The state of the search for components. -/
structure Sweep where
  /-- How many vertices have been discovered. -/
  count : Nat := 0
  /-- The number of each vertex, zero until it is discovered. -/
  numbers : Array Nat
  lowLinks : Array Nat
  /-- Whether a vertex is on the stack. -/
  waiting : Array Bool
  /-- The vertices whose component is not complete, latest first. -/
  stack : List Nat := []
  /-- The complete components, latest first. -/
  components : List (List Nat) := []

namespace Sweep

def start (n : Nat) : Sweep :=
  { numbers := Array.replicate n 0, lowLinks := Array.replicate n 0,
    waiting := Array.replicate n false }

def number (s : Sweep) (v : Nat) : Nat := s.numbers.getD v 0

def lowLink (s : Sweep) (v : Nat) : Nat := s.lowLinks.getD v 0

def isWaiting (s : Sweep) (v : Nat) : Bool := s.waiting.getD v false

/-- Gives a vertex the next number, which is also its low link for now, and puts it on the stack. -/
def discover (s : Sweep) (v : Nat) : Sweep :=
  { s with
    count := s.count + 1
    numbers := s.numbers.setIfInBounds v (s.count + 1)
    lowLinks := s.lowLinks.setIfInBounds v (s.count + 1)
    waiting := s.waiting.setIfInBounds v true
    stack := v :: s.stack }

/-- Lowers the low link of a vertex to a number that was met. -/
def lower (s : Sweep) (v met : Nat) : Sweep :=
  { s with lowLinks := s.lowLinks.setIfInBounds v (min (s.lowLink v) met) }

/-- Takes vertices from a stack up to a given one. The second list is what stays. -/
def popTo (v : Nat) : List Nat → List Nat × List Nat
  | [] => ([], [])
  | w :: ws =>
    if w = v then ([w], ws)
    else
      let (popped, rest) := popTo v ws
      (w :: popped, rest)

/-- Completes the component of a vertex. -/
def close (s : Sweep) (v : Nat) : Sweep :=
  let (component, rest) := popTo v s.stack
  { s with
    waiting := component.foldl (fun waiting w => waiting.setIfInBounds w false) s.waiting
    stack := rest
    components := component :: s.components }

end Sweep

/-- Searches from a vertex that has not been discovered. The first argument bounds the depth; the
size of the graph is enough, since every level of the search discovers a vertex. -/
def sweep (g : Graph) : Nat → Nat → Sweep → Sweep
  | 0, _, s => s
  | n + 1, v, s =>
    let s := (g.successors v).foldl (fun s w =>
      if s.number w = 0 then
        let s := g.sweep n w s
        s.lower v (s.lowLink w)
      else if s.isWaiting w then s.lower v (s.number w)
      else s) (s.discover v)
    if s.lowLink v = s.number v then s.close v else s

def components (g : Graph) : List (List Nat) :=
  (g.vertices.foldl (fun s v => if s.number v = 0 then g.sweep g.size v s else s)
    (.start g.size)).components

end Graph

end Implicits
