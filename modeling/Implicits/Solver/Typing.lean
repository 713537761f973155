import Implicits.Context
import Implicits.Solver.Normalize
import Implicits.Solver.State

/-!
Types of elaborated terms. The type of a universe or of a function type is a universe at a new
level, and the constraints that tie this level to its parts go to the store.
-/
namespace Implicits

namespace Solve

/-- Reads the type of a term as a universe. -/
def asUniverse (env : Declarations) (t type : Term) : Solve Level := do
  match (← holes).normalize env type with
  | .sort (.level l) => return l
  | .hole _ => throw (.unknownUniverse (← text t))
  | _ => throw (.notAType (← text t))

/-- The type of an application, given the type of the function. -/
def applyType (env : Declarations) (fn fnType : Term) (args : List Term) : Solve Term := do
  let h ← holes
  let refuse : Solve Term := do
    throw (.notApplicable (← text fn) (← text fnType) (← text (.app fn args)))
  match h.normalize env fnType with
  | .pi params result =>
    if params.length < args.length then refuse
    else
      let sub : Substitution := ((params.map (·.name)).zip args).reverse
      let rest := params.drop args.length
      return h.subst sub (if rest.isEmpty then result else .pi rest result)
  | _ => refuse

mutual

/-- The type of a term without solved holes. `levelOfType` finds the level of the type of an
equation's left side, the only type that is not a part of the term. -/
def infer (env : Declarations) (levelOfType : Context → Term → Solve Level) (hyps : Context) :
    Term → Solve Term
  | .missing => do throw (.untypable (← text .missing))
  | .const name => do
    match ← lookupSignature? env name with
    | none => throw (.unknownConstant name)
    | some sig => return sig.type
  | .lit s type =>
    match type with
    | .missing => throw (.untypedLiteral s)
    | type => return type
  | .bound name =>
    match hyps.lookup? name with
    | none => throw (.unknownVariable name)
    | some type => return type
  | .hole id => do
    let h ← holes
    match h.type id with
    | .missing => throw (.untypedHole (h.name id))
    | type => return type
  | .app fn args => do
    let fnType ← infer env levelOfType hyps fn
    applyType env fn fnType args
  | .pi params result => do
    let level ← freshLevel
    let inner ← inferParams env levelOfType level hyps params
    let type ← infer env levelOfType inner result
    let lo ← asUniverse env result type
    let shown ← text result
    modifyLevels (·.le lo level ("result " ++ shown))
    return .sort (.level level)
  | .sort (.unassigned _) => throw .unassignedUniverse
  | .sort (.level l) => do
    match l with
    | .const k => if k < 0 then throw (.negativeUniverse l.text)
    | .var _ => pure ()
    let above ← freshLevel
    modifyLevels (·.lt l above ("type of Type " ++ l.text))
    return .sort (.level above)
  | .eq lhs _ => do
    let type ← infer env levelOfType hyps lhs
    let l ← levelOfType hyps type
    return .sort (.level l)
  | .refl value => return .eq value value

/-- Bounds the levels of parameter types by a level and extends the context by the parameters. -/
def inferParams (env : Declarations) (levelOfType : Context → Term → Solve Level) (level : Level) :
    Context → List (Param Term) → Solve Context
  | hyps, [] => return hyps
  | hyps, ⟨name, paramType, _, _⟩ :: ps => do
    let type ← infer env levelOfType hyps paramType
    let lo ← asUniverse env paramType type
    let shown ← text paramType
    modifyLevels (·.le lo level ("parameter " ++ name ++ " : " ++ shown))
    inferParams env levelOfType level (hyps.extend name paramType) ps

end

/-- The type of a term. The first argument bounds how often the search for a level passes from a
term to its type. -/
def typeOfN (env : Declarations) : Nat → Context → Term → Solve Term
  | 0, _, _ => throw .tooDeep
  | n + 1, hyps, t => do
    let levelOfType (hyps : Context) (u : Term) : Solve Level := do
      let type ← typeOfN env n hyps u
      asUniverse env u type
    infer env levelOfType hyps ((← holes).expand t)

/-- Steps from a term to its type that are allowed beyond the size of the term: hypotheses and
declarations may prolong a chain of equations, and circular ones would never end it. -/
def typeSteps : Nat := 4096

def typeOf (env : Declarations) (hyps : Context) (t : Term) : Solve Term := do
  typeOfN env (typeSteps + ((← holes).expand t).size) hyps t

/-- The level of the universe that a type lives in. -/
def levelOf (env : Declarations) (hyps : Context) (t : Term) : Solve Level := do
  let type ← typeOf env hyps t
  asUniverse env t type

end Solve

end Implicits
