import Implicits.Checker.Signature
import Implicits.Conversion
import Implicits.Directive

/-!
Units: groups of declarations that are checked together in a scope of their own, each visible to
those after it, with one system of level constraints.
-/
namespace Implicits

/-- A signature with an optional body, which is checked against the result type. -/
structure Declaration where
  signature : Option Signature
  body : Expr := .missing
  /-- Whether the declaration is an implicit conversion too. -/
  implicit : Bool := false

structure SourceUnit where
  name : String
  declarations : List Declaration := []
  directives : List Directive := []

/-- A unit that passed. Its terms are read through the holes of the checker. -/
structure CheckedUnit where
  name : String
  signatures : List Signature
  bodies : List (String × Term)
  conversions : List String
  directives : List Directive
  obligations : List Obligation
  openObligations : List Obligation
  levels : Assignment

/-- A declaration that passed. -/
structure CheckedDeclaration where
  signature : Signature
  body : Option Term
  implicit : Bool

namespace Check

/-- The declarations visible in the current unit, given those around it. -/
def visible (outer : Declarations) : Check Declarations := return (← get).own.append outer

/-- Declares a checked signature in the scope of the unit. -/
def declareOwn (outer : Declarations) (sig : Signature) : Check Unit := do
  if ((← visible outer).signature? sig.name).isSome then fail .missing (.alreadyDeclared sig.name)
  modify fun c => { c with own := c.own.addSignature sig }

/-- Declares a conversion in the scope of the unit. -/
def declareOwnConversion (outer : Declarations) (name : String) : Check Unit := do
  match (← visible outer).conversion name (← holes) with
  | .error fault => fail .missing (.conversion fault)
  | .ok entry => modify fun c => { c with own := c.own.addConversion entry }

/-- Checks a body in the context of the parameters. -/
def checkBody (outer : Declarations) (sig : Signature) (body : Expr) : Check (Option Term) := do
  if body.isMissing then return none
  let hyps := sig.params.foldl (fun (hyps : Context) p => hyps.extend p.name p.type) {}
  let env ← visible outer
  let (term, _) ←
    tryCatch (elaborateTop env body hyps sig.result) fun e => throw (.inBody sig.name e)
  return some term

def checkDeclaration (outer : Declarations) (d : Declaration) : Check CheckedDeclaration := do
  match d.signature with
  | none => throw .noSignature
  | some sig =>
    let sig ← checkSignature (← visible outer) sig
    declareOwn outer sig
    if d.implicit then declareOwnConversion outer sig.name
    let body ← checkBody outer sig d.body
    return ⟨sig, body, d.implicit⟩

/-- Checks the declarations in order and then the constraints, which all signatures get. -/
def checkDeclarations (outer : Declarations) (unit : SourceUnit) : Check CheckedUnit := do
  let checked ← unit.declarations.mapM (checkDeclaration outer)
  let levels ← checkUniverses
  let constraints := (← get).constraints
  modify fun c =>
    { c with own := { c.own with signatures := c.own.signatures.map ({ · with constraints }) } }
  let c ← get
  return {
    name := unit.name
    signatures := checked.map fun d => { d.signature with constraints }
    bodies := checked.filterMap fun d => d.body.map (d.signature.name, ·)
    conversions := (checked.filter (·.implicit)).map (·.signature.name)
    directives := unit.directives
    obligations := c.obligations
    openObligations := c.openObligations
    levels }

/-- Checks a unit. A failure discards its constraints. -/
def checkUnit (outer : Declarations) (unit : SourceUnit) : Check CheckedUnit := do
  let checked ← tryCatch (checkDeclarations outer unit) fun e => do
    modify fun c =>
      { c with
        failure := c.failure.or (some e)
        solver := { c.solver with levels := c.solver.levels.reset } }
    throw (.inUnit unit.name e)
  note (.unitChecked unit.name checked.signatures.length (← get).solver.levels.size
    checked.obligations.length checked.openObligations.length)
  return checked

end Check

end Implicits
