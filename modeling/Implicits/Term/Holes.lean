import Implicits.Term

/-!
Holes and their solutions. A solution may itself contain holes, so a term is read through the table:
`follow` at its head, `expand` at every place that is compared, printed or searched, and `deref`
also inside the types of literals.
-/
namespace Implicits

namespace Term

mutual

/-- Replaces the holes of a term. The types of literals are left alone unless `deep`; tactics of
parameters always are. -/
def fill (deep : Bool) (f : HoleId → Term) : Term → Term
  | missing => missing
  | const name => const name
  | lit text type => lit text (if deep then type.fill deep f else type)
  | bound name => bound name
  | hole id => f id
  | app fn args => app (fn.fill deep f) (fillArgs deep f args)
  | pi params result => pi (fillParams deep f params) (result.fill deep f)
  | sort u => sort u
  | eq lhs rhs => eq (lhs.fill deep f) (rhs.fill deep f)
  | refl value => refl (value.fill deep f)

def fillArgs (deep : Bool) (f : HoleId → Term) : List Term → List Term
  | [] => []
  | t :: ts => t.fill deep f :: fillArgs deep f ts

def fillParams (deep : Bool) (f : HoleId → Term) : List (Param Term) → List (Param Term)
  | [] => []
  | ⟨name, type, plicity, fallback⟩ :: ps =>
    ⟨name, type.fill deep f, plicity, fallback⟩ :: fillParams deep f ps

end

mutual

/-- Whether some hole outside the types of literals satisfies a test. -/
def anyHole (p : HoleId → Bool) : Term → Bool
  | missing | const _ | lit _ _ | bound _ | sort _ => false
  | hole id => p id
  | app fn args => fn.anyHole p || anyHoleArgs p args
  | pi params result => anyHoleParams p params || result.anyHole p
  | eq lhs rhs => lhs.anyHole p || rhs.anyHole p
  | refl value => value.anyHole p

def anyHoleArgs (p : HoleId → Bool) : List Term → Bool
  | [] => false
  | t :: ts => t.anyHole p || anyHoleArgs p ts

def anyHoleParams (p : HoleId → Bool) : List (Param Term) → Bool
  | [] => false
  | ⟨_, type, _, _⟩ :: ps => type.anyHole p || anyHoleParams p ps

end

end Term

/-- A hole stands for an argument of a named parameter. Its number is shown when it is printed. -/
structure Hole where
  name : String
  number : Int32
  type : Term
  solution : Option Term := none
deriving Inhabited

structure Holes where
  table : Array Hole := #[]
deriving Inhabited

namespace Holes

def size (h : Holes) : Nat := h.table.size

/-- Adds an open hole, numbered modulo the range of 32-bit numbers. -/
def add (h : Holes) (name : String) (number : Int) (type : Term) : Holes :=
  ⟨h.table.push { name, number := Int32.ofInt number, type }⟩

def solution? (h : Holes) (id : HoleId) : Option Term := h.table[id]?.bind (·.solution)

def name (h : Holes) (id : HoleId) : String := (h.table[id]?.map (·.name)).getD ""

def type (h : Holes) (id : HoleId) : Term := (h.table[id]?.map (·.type)).getD .missing

def isOpen (h : Holes) (id : HoleId) : Bool := (h.solution? id).isNone

def setSolution (h : Holes) (id : HoleId) (solution : Option Term) : Holes :=
  ⟨h.table.modify id fun hole => { hole with solution }⟩

/-- Solves a hole. An empty solution leaves it open. -/
def solve (h : Holes) (id : HoleId) (t : Term) : Holes := h.setSolution id t.toOption

def followN (h : Holes) : Nat → Term → Term
  | n + 1, .hole id =>
    match h.solution? id with
    | some t => h.followN n t
    | none => .hole id
  | _, t => t

/-- The term at the end of a chain of solved holes. A chain passes each hole at most once. -/
def follow (h : Holes) (t : Term) : Term := h.followN h.size t

def instantiateN (h : Holes) (deep : Bool) : Nat → Term → Term
  | 0, t => t
  | n + 1, t => t.fill deep fun id =>
    match h.solution? id with
    | some u => h.instantiateN deep n u
    | none => .hole id

/-- Replaces every solved hole outside the types of literals by its solution. No path through the
result passes a hole twice, so the number of holes bounds the nesting. -/
def expand (h : Holes) (t : Term) : Term := h.instantiateN false h.size t

/-- Replaces every solved hole by its solution, also inside the types of literals. -/
def deref (h : Holes) (t : Term) : Term := h.instantiateN true h.size t

/-- Whether an open hole is left in a term. -/
def hasOpen (h : Holes) (t : Term) : Bool := (h.expand t).anyHole fun _ => true

/-- Whether a hole occurs in a term. -/
def occurs (h : Holes) (id : HoleId) (t : Term) : Bool := (h.expand t).anyHole (· == id)

end Holes

end Implicits
