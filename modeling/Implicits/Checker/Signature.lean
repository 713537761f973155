import Implicits.Checker.State
import Implicits.Solver.Unify

/-!
Checking of signatures: every parameter type and the result must be types, and given values must
have the type of their parameter. Universes without a level get new level variables of the
declaration.
-/
namespace Implicits

namespace Term

mutual

/-- Gives each universe without a level a new level variable of a declaration. -/
def assignLevels (decl : String) : Term → StateM LevelStore Term
  | missing => return missing
  | const name => return const name
  | lit text type => return lit text type
  | bound name => return bound name
  | hole id => return hole id
  | app fn args => do
    let args ← assignLevelsArgs decl args
    return app (← fn.assignLevels decl) args
  | pi params result => do
    let params ← assignLevelsParams decl params
    return pi params (← result.assignLevels decl)
  | sort (.unassigned _) => do
    let v ← modifyGet (·.freshFor decl)
    return sort (.level (.var v))
  | sort (.level l) => return sort (.level l)
  | eq lhs rhs => do
    let lhs ← lhs.assignLevels decl
    return eq lhs (← rhs.assignLevels decl)
  | refl value => return refl (← value.assignLevels decl)

def assignLevelsArgs (decl : String) : List Term → StateM LevelStore (List Term)
  | [] => return []
  | t :: ts => do
    let t ← t.assignLevels decl
    return t :: (← assignLevelsArgs decl ts)

def assignLevelsParams (decl : String) :
    List (Param Term) → StateM LevelStore (List (Param Term))
  | [] => return []
  | ⟨name, type, plicity, fallback⟩ :: ps => do
    let type ← type.assignLevels decl
    return ⟨name, type, plicity, fallback⟩ :: (← assignLevelsParams decl ps)

end

end Term

namespace Check

def assignLevels (decl : String) (t : Term) : Check Term :=
  modifyGet fun c =>
    let (t, levels) := (t.assignLevels decl).run c.solver.levels
    (t, { c with solver := { c.solver with levels } })

/-- Checks the value that a parameter is given when its argument is omitted. -/
def checkFallback (env : Declarations) (function : String) (hyps : Context) (p : Param Term) :
    Check (Option (Tactic Term)) := do
  match p.fallback with
  | some (.exact value) =>
    let value ← assignLevels function value
    orFail .missing (.badDefault p.name function) do
      let type ← Solve.typeOf env hyps value
      Solve.subsume env hyps type p.type
    return some (.exact value)
  | fallback => return fallback

/-- Checks parameters in order, each in the context of the earlier ones. -/
def checkParams (env : Declarations) (function : String) :
    Context → List (Param Term) → Check (List (Param Term) × Context)
  | hyps, [] => return ([], hyps)
  | hyps, p :: ps => do
    let type ← assignLevels function p.type
    let p := { p with type }
    let _ ← orFail .missing (.badParam p.name function) (Solve.levelOf env hyps type)
    let fallback ← checkFallback env function hyps p
    let (rest, inner) ← checkParams env function (hyps.extend p.name type) ps
    return ({ p with fallback } :: rest, inner)

/-- The checked copy of a signature. -/
def checkSignature (env : Declarations) (sig : Signature) : Check Signature := do
  requireActive
  match sig.validate with
  | .error fault => fail .missing (.signature fault)
  | .ok () =>
    let (params, hyps) ← checkParams env sig.name {} sig.params
    let result ← assignLevels sig.name sig.result
    let _ ← orFail .missing (.badResult sig.name) (Solve.levelOf env hyps result)
    return { name := sig.name, params, result }

/-- The checked copy of a signature with all constraints of the current unit, which must be
consistent. -/
def checkDeclared (env : Declarations) (sig : Signature) : Check Signature := do
  let checked ← checkSignature env sig
  let _ ← checkUniverses
  return { checked with constraints := (← get).constraints }

end Check

end Implicits
