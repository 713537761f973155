import Implicits.Term

/-!
Signatures of declarations: a name, a sequence of parameters, each visible in what follows, a result
type, and the level constraints that come with a use of the declaration.
-/
namespace Implicits

structure Signature where
  name : String
  params : List (Param Term) := []
  result : Term
  constraints : List Constraint := []
deriving Inhabited

/-- Why a signature is refused before its types are looked at. -/
inductive SignatureFault where
  | unnamed
  | noResult (name : String)
  | noType (param name : String)
  | noTactic (param name : String)
  | duplicate (param name : String)
deriving DecidableEq

def SignatureFault.message : SignatureFault → String
  | unnamed => "Signature must be named"
  | noResult name => "Signature " ++ name ++ " has no result type"
  | noType param name => "Parameter " ++ param ++ " of " ++ name ++ " has no type"
  | noTactic param name => "Default parameter " ++ param ++ " of " ++ name ++ " has no tactic"
  | duplicate param name => "Duplicate parameter " ++ param ++ " in " ++ name

namespace Signature

/-- The signature as a function type. -/
def pi (s : Signature) : Term := .pi s.params s.result

/-- The type of the declared name. -/
def type (s : Signature) : Term := if s.params.isEmpty then s.result else s.pi

def paramIndex? (s : Signature) (name : String) : Option Nat :=
  s.params.findIdx? (·.name == name)

def explicitCount (s : Signature) : Nat := s.params.countP (!·.isImplicit)

/-- Checks parameters in order, given the names of the earlier ones. -/
def validateParams (name : String) : List String → List (Param Term) → Except SignatureFault Unit
  | _, [] => .ok ()
  | earlier, p :: ps =>
    if p.type.isMissing then .error (.noType p.name name)
    else if p.plicity == .default && p.fallback.isNone then .error (.noTactic p.name name)
    else if !p.isAnonymous && earlier.contains p.name then .error (.duplicate p.name name)
    else validateParams name (p.name :: earlier) ps

def validate (s : Signature) : Except SignatureFault Unit :=
  if s.name == "" then .error .unnamed
  else if s.result.isMissing then .error (.noResult s.name)
  else validateParams s.name [] s.params

end Signature

end Implicits
