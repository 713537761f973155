import Implicits.Expr
import Implicits.Signature

/-!
Arguments of a call and the parameters that they supply. Named arguments supply the parameter of
that name; the others fill the explicit parameters that are left, in order. A value may be absent,
and then supplies nothing.
-/
namespace Implicits

inductive ArgumentFault where
  | unknownParam (function name : String)
  | repeated (name function : String)
  | tooMany (function : String)
  | missing (param function : String)
deriving DecidableEq

def ArgumentFault.message : ArgumentFault → String
  | unknownParam function name => function ++ " has no parameter named " ++ name
  | repeated name function =>
    "Argument " ++ name ++ " of " ++ function ++ " is supplied more than once"
  | tooMany function => "Too many arguments for " ++ function
  | missing param function => "Missing argument " ++ param ++ " of " ++ function

namespace Signature

variable {α : Type}

/-- Places the named arguments. -/
def placeNamed (sig : Signature) :
    List (Arg (Option α)) → List (Option α) → Except ArgumentFault (List (Option α))
  | [], slots => .ok slots
  | ⟨name, value⟩ :: args, slots =>
    if name = "" then sig.placeNamed args slots
    else
      match sig.paramIndex? name with
      | none => .error (.unknownParam sig.name name)
      | some i =>
        if (slots[i]?.join).isSome then .error (.repeated name sig.name)
        else sig.placeNamed args (slots.set i value)

/-- Gives the explicit parameters that are still free the next value each; the values that are left
over come second. -/
def placePositional : List (Param Term) → List (Option α) → List (Option α) →
    List (Option α) × List (Option α)
  | p :: ps, slot :: slots, value :: values =>
    if p.isImplicit || slot.isSome then
      let (slots, left) := placePositional ps slots (value :: values)
      (slot :: slots, left)
    else
      let (slots, left) := placePositional ps slots values
      (value :: slots, left)
  | _, slots, values => (slots, values)

/-- The first explicit parameter without a value. -/
def firstMissing? (params : List (Param Term)) (slots : List (Option α)) : Option (Param Term) :=
  ((params.zip slots).find? fun (p, slot) => !p.isImplicit && slot.isNone).map (·.1)

/-- The values of the parameters, one place per parameter. -/
def matchArguments (sig : Signature) (args : List (Arg (Option α))) :
    Except ArgumentFault (List (Option α)) := do
  let named ← sig.placeNamed args (List.replicate sig.params.length none)
  let values := (args.filter (·.name == "")).map (·.value)
  let (slots, left) := placePositional sig.params named values
  if !left.isEmpty then throw (.tooMany sig.name)
  match firstMissing? sig.params slots with
  | some p => throw (.missing p.name sig.name)
  | none => return slots

end Signature

end Implicits
