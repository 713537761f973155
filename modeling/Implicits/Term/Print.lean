import Implicits.Term.Holes

/-!
The text of terms. Constants made of operator characters are written between two arguments; function
types, equations and operators get parentheses inside arguments of operators and in function
position.
-/
namespace Implicits

def operatorChars : List Char := "!#$%&*+-./:<=>?@\\^|~".toList

/-- Whether a constant is written between its two arguments. -/
def isOperator (name : String) : Bool :=
  name != "" && name.toList.all operatorChars.contains

def parenthesize (wanted : Bool) (s : String) : String := if wanted then "(" ++ s ++ ")" else s

def Plicity.text : Plicity → String
  | explicit => "explicit"
  | implicit => "implicit"
  | auto => "auto"
  | default => "default"
  | unknown => "invalid"

def Universe.text : Universe → String
  | unassigned _ => "Type"
  | level l => "Type " ++ l.text

/-- The text of a parameter whose type is already written. -/
def Param.text {τ : Type} (p : Param τ) (type : String) : String :=
  let keyword :=
    match p.plicity with
    | .auto => "auto "
    | .default => "default "
    | .explicit | .implicit | .unknown => ""
  let body := keyword ++ p.name ++ " : " ++ type
  if p.isImplicit then "\x7b" ++ body ++ "\x7d" else "(" ++ body ++ ")"

namespace Term

/-- The name of the form of a term; nothing for an empty place. -/
def formName? : Term → Option String
  | missing => none
  | const _ => some "Const"
  | lit _ _ => some "Lit"
  | bound _ => some "Local"
  | hole _ => some "Var"
  | app _ _ => some "App"
  | pi _ _ => some "Pi"
  | sort _ => some "Sort"
  | eq _ _ => some "Eq"
  | refl _ => some "Refl"

def operator? : Term → Option String
  | const name => if isOperator name then some name else none
  | _ => none

mutual

/-- The text of a term, given the text of its holes; `tight` where a compound term needs
parentheses. -/
def render (label : HoleId → String) (tight : Bool) : Term → String
  | missing => "<invalid>"
  | const name => name
  | lit text _ => text
  | bound name => name
  | hole id => label id
  | app fn args =>
    match fn.operator?, args.length with
    | some op, 2 => parenthesize tight ((" " ++ op ++ " ").intercalate (renderArgs label true args))
    | _, _ =>
      fn.render label true ++ "(" ++ ", ".intercalate (renderArgs label false args) ++ ")"
  | pi params result => parenthesize tight (renderParams label params ++ result.render label false)
  | sort u => u.text
  | eq lhs rhs => parenthesize tight (lhs.render label true ++ " = " ++ rhs.render label true)
  | refl value => "Refl(" ++ value.render label false ++ ")"

def renderArgs (label : HoleId → String) (tight : Bool) : List Term → List String
  | [] => []
  | t :: ts => t.render label tight :: renderArgs label tight ts

def renderParams (label : HoleId → String) : List (Param Term) → String
  | [] => ""
  | ⟨name, type, plicity, fallback⟩ :: ps =>
    let p : Param Term := ⟨name, type, plicity, fallback⟩
    p.text (type.render label false) ++ " -> " ++ renderParams label ps

end

end Term

namespace Holes

/-- The text of an open hole: the name of its parameter and its number. -/
def label (h : Holes) (id : HoleId) : String :=
  match h.table[id]? with
  | none => "?_"
  | some hole =>
    let name := if hole.name == "" then "_" else hole.name
    "?" ++ name ++ toString hole.number.toInt

/-- The text of a term, read through its solved holes. -/
def text (h : Holes) : Term → String
  | .missing => "<nil>"
  | t => (h.expand t).render h.label false

end Holes

end Implicits
