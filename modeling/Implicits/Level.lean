/-!
Universe levels and the order constraints between them. A level is a concrete 64-bit number or a
variable named by the declaration or unit that introduced it.
-/
namespace Implicits

/-- A level variable. Variables of a unit and of a declaration stay apart even when the two share
a name. -/
structure LevelVar where
  owner : String
  id : Int
  ofDecl : Bool := false
deriving DecidableEq, Inhabited

inductive Level where
  | const (value : Int64)
  | var (v : LevelVar)
deriving DecidableEq, Inhabited

/-- `lo < hi` when strict, otherwise `lo ≤ hi`. The origin says which construct asked for it. -/
structure Constraint where
  lo : Level
  hi : Level
  strict : Bool
  origin : String
deriving DecidableEq, Inhabited

def LevelVar.text (v : LevelVar) : String :=
  let name := "u" ++ toString v.id
  if v.owner = "" then name
  else if v.ofDecl then v.owner ++ "." ++ name
  else v.owner ++ "/" ++ name

def Level.text : Level → String
  | .const value => toString value.toInt
  | .var v => v.text

def Level.const? : Level → Option Int64
  | .const value => some value
  | .var _ => none

def Constraint.text (c : Constraint) : String :=
  let order := if c.strict then " < " else " <= "
  let base := c.lo.text ++ order ++ c.hi.text
  if c.origin = "" then base else base ++ " (" ++ c.origin ++ ")"

/-- The levels of a constraint, lower one first. -/
def Constraint.ends (c : Constraint) : List Level := [c.lo, c.hi]

/-- A constraint that every valuation satisfies. -/
def Constraint.isTrivial (c : Constraint) : Bool := !c.strict && c.lo == c.hi

end Implicits
