import Implicits.Checker.Elaborate

/-!
Implicit conversions: declared functions of one explicit parameter whose result type does not depend
on it. They are filed under the normal forms of their types at the time of the declaration. Types
are read through a table of holes, which is empty where signatures have none.
-/
namespace Implicits

namespace Term

mutual

/-- Whether a bound name occurs free. -/
def mentions (name : String) : Term → Bool
  | missing | const _ | lit _ _ | hole _ | sort _ => false
  | bound n => n == name
  | app fn args => fn.mentions name || mentionsArgs name args
  | pi params result => mentionsParams name (result.mentions name) params
  | eq lhs rhs => lhs.mentions name || rhs.mentions name
  | refl value => value.mentions name

def mentionsArgs (name : String) : List Term → Bool
  | [] => false
  | t :: ts => t.mentions name || mentionsArgs name ts

/-- A parameter of the name hides it in what follows. -/
def mentionsParams (name : String) (result : Bool) : List (Param Term) → Bool
  | [] => result
  | ⟨n, type, _, _⟩ :: ps =>
    type.mentions name || (n != name && mentionsParams name result ps)

end

end Term

namespace Declarations

/-- The conversion that a declared function makes, with its key. -/
def conversion (env : Declarations) (name : String) (h : Holes := {}) :
    Except ConversionFault (String × Conversion) :=
  match env.signature? name with
  | none => .error (.undeclared name)
  | some sig =>
    match sig.params with
    | [p] =>
      if p.plicity ≠ .explicit then .error (.wrongParameters name)
      else if (h.expand sig.result).mentions p.name then .error (.dependent name)
      else
        let source := h.normalize env p.type
        let target := h.normalize env sig.result
        let key := Check.conversionKey h source target
        if (env.conversionsAt key).any (·.name == name) then .error (.repeated name)
        else .ok (key, ⟨name, source, target⟩)
    | _ => .error (.wrongParameters name)

/-- The conversions in the order of their keys. -/
def sortedConversions (d : Declarations) : List Conversion :=
  (d.conversions.mergeSort fun a b => decide (a.1 ≤ b.1)).map (·.2)

def addSignature (d : Declarations) (sig : Signature) : Declarations :=
  { d with signatures := sig :: d.signatures }

def addReduction (d : Declarations) (name : String) (r : Reduction) : Declarations :=
  { d with reductions := (name, r) :: d.reductions }

def addConversion (d : Declarations) (entry : String × Conversion) : Declarations :=
  { d with conversions := d.conversions ++ [entry] }

end Declarations

end Implicits
