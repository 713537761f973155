import Implicits.Term.Print

/-!
Expressions handed to the checker: calls may omit arguments and may name them.
-/
namespace Implicits

/-- An argument of a call; one without a name is supplied by position. -/
structure Arg (ε : Type) where
  name : String := ""
  value : ε

inductive Expr where
  | missing
  | lit (text : String) (type : Term)
  /-- A bound variable, a hypothesis or a declared name. -/
  | var (name : String)
  | call (fn : Expr) (args : List (Arg Expr))
  /-- A universe, at a concrete level if one is given. -/
  | type (level : Option Int64)
  /-- A term that is elaborated already. -/
  | term (value : Term)
deriving Inhabited

namespace Expr

def isMissing : Expr → Bool
  | missing => true
  | _ => false

/-- The name of the form of an expression; a literal goes by its own text. -/
def formName? : Expr → Option String
  | missing => none
  | lit text _ => some text
  | var _ => some "Var"
  | call _ _ => some "Call"
  | type _ => some "Sort"
  | term _ => some "Term"

/-- The operator of a call that is written between its two arguments. -/
def operator? : Expr → List (Arg Expr) → Option String
  | var name, [⟨"", _⟩, ⟨"", _⟩] => if isOperator name then some name else none
  | _, _ => none

mutual

/-- The text of an expression, given the text of its terms. -/
def render (termText : Term → String) (tight : Bool) : Expr → String
  | missing => "<nil>"
  | lit text _ => text
  | var name => name
  | call fn args =>
    match operator? fn args with
    | some op =>
      parenthesize tight ((" " ++ op ++ " ").intercalate (renderArgs termText true args))
    | none =>
      fn.render termText true ++ "(" ++ ", ".intercalate (renderArgs termText false args) ++ ")"
  | type none => "Type"
  | type (some level) => "Type " ++ toString level.toInt
  | term value => termText value

def renderArgs (termText : Term → String) (tight : Bool) : List (Arg Expr) → List String
  | [] => []
  | ⟨name, value⟩ :: args =>
    let shown := value.render termText tight
    (if name = "" then shown else "\x7b" ++ name ++ " = " ++ shown ++ "\x7d") ::
      renderArgs termText tight args

end

end Expr

/-- The text of an expression, its terms read through their solved holes. -/
def Holes.exprText (h : Holes) (e : Expr) : String := e.render h.text false

end Implicits
