import Implicits.Reduction
import Implicits.Signature
import Implicits.Term.Print

/-!
Declarations that terms can refer to: signatures, reductions and implicit conversions.
-/
namespace Implicits

/-- A declared function that may be inserted around an argument of type `source` where `target` is
required. -/
structure Conversion where
  name : String
  source : Term
  target : Term

/-- Signatures and reductions are listed latest first, conversions in the order of their
declaration. A conversion is filed under the text of its types. -/
structure Declarations where
  signatures : List Signature := []
  reductions : List (String × Reduction) := []
  conversions : List (String × Conversion) := []

namespace Declarations

def signature? (d : Declarations) (name : String) : Option Signature :=
  d.signatures.find? (·.name == name)

def reduction? (d : Declarations) (name : String) : Option Reduction := d.reductions.lookup name

def conversionsAt (d : Declarations) (key : String) : List Conversion :=
  (d.conversions.filter (·.1 == key)).map (·.2)

/-- One step of the reduction of a constant, if it has one for this number of arguments. -/
def reduce? (d : Declarations) (name : String) (args : List Term) : Option Term :=
  (d.reduction? name).bind fun r => if r.arity = args.length then r.reduce args else none

/-- Inner declarations before outer ones. -/
def append (inner outer : Declarations) : Declarations where
  signatures := inner.signatures ++ outer.signatures
  reductions := inner.reductions ++ outer.reductions
  conversions := inner.conversions ++ outer.conversions

end Declarations

end Implicits
