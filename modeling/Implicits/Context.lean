import Implicits.Term

/-!
Local contexts: named hypotheses, of which the innermost of a name counts.
-/
namespace Implicits

structure Hypothesis where
  name : String
  type : Term

/-- Hypotheses, innermost first. -/
structure Context where
  hypotheses : List Hypothesis := []

namespace Context

/-- The context of hypotheses given outermost first. -/
def ofList (hyps : List Hypothesis) : Context := ⟨hyps.reverse⟩

/-- The hypotheses, outermost first. -/
def toList (c : Context) : List Hypothesis := c.hypotheses.reverse

def size (c : Context) : Nat := c.hypotheses.length

/-- The hypothesis at an index, counted from the outermost. -/
def get? (c : Context) (i : Nat) : Option Hypothesis := c.toList[i]?

def extend (c : Context) (name : String) (type : Term) : Context := ⟨⟨name, type⟩ :: c.hypotheses⟩

/-- The type of the innermost hypothesis of a name. One without a type hides the outer ones. -/
def lookup? (c : Context) (name : String) : Option Term :=
  (c.hypotheses.find? (·.name == name)).bind (·.type.toOption)

end Context

end Implicits
