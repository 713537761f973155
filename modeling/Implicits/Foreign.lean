import Implicits.Signature

/-!
Foreign functions over a closed set of primitive types, each with one host representation.
-/
namespace Implicits

inductive Prim where
  | int
  | float
  | char
  | string
  | ptr
  | unit
  /-- A type that only code knows. -/
  | other (code : Int)
deriving DecidableEq, Inhabited

namespace Prim

def all : List Prim := [int, float, char, string, ptr, unit]

def ofCode : Int → Prim
  | 0 => int
  | 1 => float
  | 2 => char
  | 3 => string
  | 4 => ptr
  | 5 => unit
  | code => other code

def code : Prim → Int
  | int => 0
  | float => 1
  | char => 2
  | string => 3
  | ptr => 4
  | unit => 5
  | other code => code

def name : Prim → String
  | int => "Int"
  | float => "Float"
  | char => "Char"
  | string => "String"
  | ptr => "Ptr"
  | unit => "Unit"
  | other code => "Prim(" ++ toString code ++ ")"

/-- The representation in the host language. -/
def hostType : Prim → String
  | int => "int"
  | float => "double"
  | char => "char"
  | string => "char*"
  | ptr => "void*"
  | unit => "void"
  | other _ => ""

def term (p : Prim) : Term := .const p.name

/-- A primitive type is declared in the lowest universe. -/
def signature (p : Prim) : Signature :=
  { name := p.name, result := .sort (.level (.const 0)) }

def ofName? (name : String) : Option Prim := all.find? (·.name == name)

end Prim

def unknownPrimMessage (name : String) : String := "Unknown foreign primitive type " ++ name

structure Foreign where
  name : String
  args : List Prim := []
  ret : Prim
deriving DecidableEq, Inhabited

namespace Foreign

/-- All parameters are explicit and numbered. -/
def signature (f : Foreign) : Signature where
  name := f.name
  params := f.args.zipIdx.map fun (p, i) => { name := "x" ++ toString i, type := p.term }
  result := f.ret.term

def hostArgs (f : Foreign) : List String := f.args.map Prim.hostType

def hostRet (f : Foreign) : String := f.ret.hostType

end Foreign

end Implicits
