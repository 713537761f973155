import Implicits.Checker.State
import Implicits.Solver.Unify

/-!
Search for the value of an omitted argument. It never searches for the parts of a value, so it
always ends: hypotheses are tried from the innermost out, then an equation is closed by reflexivity;
a parameter with a given value uses that value.
-/
namespace Implicits

namespace Search

/-- Tries the hypotheses in order. A hidden hypothesis is not tried. -/
def scan (env : Declarations) (hyps : Context) (goal : Term) :
    List String → List Hypothesis → Check (Option Term × List Attempt)
  | _, [] => return (none, [])
  | seen, hyp :: rest => do
    if seen.contains hyp.name then scan env hyps goal seen rest
    else
      let type := (← Check.holes).normalize env hyp.type
      match ← Check.solve (Solve.tryUnify env hyps type goal) with
      | .ok () =>
        return (some (.bound hyp.name),
          [{ strategy := .contextScan, candidate := hyp.name, ok := true }])
      | .error fault =>
        let (found, trace) ← scan env hyps goal (hyp.name :: seen) rest
        let attempt : Attempt :=
          { strategy := .contextScan, candidate := hyp.name, detail := fault.message }
        return (found, attempt :: trace)

def contextScan (env : Declarations) (goal : Term) (hyps : Context) :
    Check (Option Term × List Attempt) := do
  if hyps.hypotheses.isEmpty then
    return (none, [{ strategy := .contextScan, detail := "no hypotheses" }])
  else scan env hyps ((← Check.holes).normalize env goal) [] hyps.hypotheses

/-- Closes an equation between two sides that unify. -/
def reflexivity (env : Declarations) (goal : Term) (hyps : Context) :
    Check (Option Term × List Attempt) := do
  match (← Check.holes).normalize env goal with
  | .eq lhs rhs =>
    match ← Check.solve (Solve.tryUnify env hyps lhs rhs) with
    | .ok () =>
      let candidate ← Check.text (.eq lhs rhs)
      let value := Term.refl ((← Check.holes).deref lhs)
      return (some value, [{ strategy := .reflexivity, candidate, ok := true }])
    | .error fault =>
      let candidate ← Check.text (.eq lhs rhs)
      return (none, [{ strategy := .reflexivity, candidate, detail := fault.message }])
  | _ => return (none, [{ strategy := .reflexivity, detail := "goal is not an equality" }])

/-- Uses a given value, with the arguments of the call for its parameters. -/
def givenValue (env : Declarations) (value goal : Term) (hyps : Context) (sub : Substitution) :
    Check (Option Term × List Attempt) := do
  let value := (← Check.holes).subst sub value
  let candidate ← Check.text value
  let fits : Solve Unit := do
    let type ← Solve.typeOf env hyps value
    Solve.trySubsume env hyps type goal
  match ← Check.solve fits with
  | .ok () => return (some value, [{ strategy := .userTactic, candidate, ok := true }])
  | .error fault =>
    return (none, [{ strategy := .userTactic, candidate, detail := fault.message }])

/-- The value that a tactic finds for a goal, the strategy that found it, and what was tried. -/
def run (env : Declarations) (tactic : Tactic Term) (goal : Term) (hyps : Context)
    (sub : Substitution) : Check (Option (Term × Strategy) × List Attempt) := do
  match tactic with
  | .exact value =>
    let (found, trace) ← givenValue env value goal hyps sub
    return (found.map (·, .userTactic), trace)
  | .trivial =>
    let (found, trace) ← contextScan env goal hyps
    match found with
    | some value => return (some (value, .contextScan), trace)
    | none =>
      let (found, more) ← reflexivity env goal hyps
      return (found.map (·, .reflexivity), trace ++ more)

end Search

end Implicits
