import Implicits.Solver.Typing

/-!
The typing of universes and of function types by steps. The type of a universe is the universe at a
new level above it. A function type is typed by bounding the level of each of its parts by a new
level, in order, so that what holds of typing a part and bounding its level holds of typing the
function type.
-/
namespace Implicits

def Level.Nonneg : Level → Prop
  | .const k => 0 ≤ k.toInt
  | .var _ => True

instance : DecidablePred Level.Nonneg
  | .const k => inferInstanceAs (Decidable (0 ≤ k.toInt))
  | .var _ => inferInstanceAs (Decidable True)

namespace Solve

variable {env : Declarations} {levelOfType : Context → Term → Solve Level} {hyps : Context}

def universeAbove (l : Level) : Solve Term := do
  let above ← freshLevel
  modifyLevels (·.lt l above ("type of Type " ++ l.text))
  return .sort (.level above)

theorem infer_universe (l : Level) :
    infer env levelOfType hyps (.sort (.level l)) =
      if l.Nonneg then universeAbove l else throw (.negativeUniverse l.text) := by
  cases l with
  | var x => rfl
  | const k =>
    by_cases hk : k < 0
    · have hneg : ¬ (Level.const k).Nonneg := Int.not_le.mpr (Int64.lt_iff_toInt_lt.mp hk)
      rw [infer, if_pos hk, if_neg hneg]
      rfl
    · have hnonneg : (Level.const k).Nonneg := Int64.le_iff_toInt_le.mp (Int64.not_lt.mp hk)
      rw [infer, if_neg hk, if_pos hnonneg]
      rfl

def inferBelow (env : Declarations) (levelOfType : Context → Term → Solve Level) (level : Level)
    (hyps : Context) (t : Term) (origin : String → String) : Solve Unit := do
  let type ← infer env levelOfType hyps t
  let lo ← asUniverse env t type
  let shown ← text t
  modifyLevels (·.le lo level (origin shown))

def inferParts (env : Declarations) (levelOfType : Context → Term → Solve Level) (level : Level)
    (result : Term) : Context → List (Param Term) → Solve Unit
  | hyps, [] => inferBelow env levelOfType level hyps result ("result " ++ ·)
  | hyps, p :: ps => do
    inferBelow env levelOfType level hyps p.type ("parameter " ++ p.name ++ " : " ++ ·)
    inferParts env levelOfType level result (hyps.extend p.name p.type) ps

theorem infer_pi (params : List (Param Term)) (result : Term) :
    infer env levelOfType hyps (.pi params result) = do
      let level ← freshLevel
      inferParts env levelOfType level result hyps params
      return .sort (.level level) := by
  rw [infer]
  refine congrArg (freshLevel >>= ·) (funext fun level => ?_)
  induction params generalizing hyps with
  | nil => simp only [inferParams, inferParts, inferBelow, pure_bind, bind_assoc]
  | cons p params ih =>
    simp only [inferParams, inferParts, inferBelow, bind_assoc, ← ih]

end Solve

end Implicits
