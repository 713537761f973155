import Implicits.Declarations

/-!
Normal forms under the reductions of the declarations. Reductions need not end, so one normalization
fires a bounded number of them; arguments are normalized before a constant is reduced, and open
holes block reduction.
-/
namespace Implicits

/-- Reductions fired by one normalization at most. -/
def maxReductions : Nat := 4096

namespace Term

mutual

/-- One pass over a term. `fire` reduces a constant on normalized arguments and gives the normal
form of the outcome; the number of reductions that are left is passed along. -/
def normalizeWith (fire : String → List Term → Nat → Option (Term × Nat)) :
    Term → Nat → Term × Nat
  | missing, left => (missing, left)
  | const name, left => (fire name [] left).getD (const name, left)
  | lit text type, left => (lit text type, left)
  | bound name, left => (bound name, left)
  | hole id, left => (hole id, left)
  | app fn args, left =>
    let (fn, left) := fn.normalizeWith fire left
    let (args, left) := normalizeArgs fire args left
    match fn with
    | const name => (fire name args left).getD (app fn args, left)
    | _ => (app fn args, left)
  | pi params result, left =>
    let (params, left) := normalizeParams fire params left
    let (result, left) := result.normalizeWith fire left
    (pi params result, left)
  | sort u, left => (sort u, left)
  | eq lhs rhs, left =>
    let (lhs, left) := lhs.normalizeWith fire left
    let (rhs, left) := rhs.normalizeWith fire left
    (eq lhs rhs, left)
  | refl value, left =>
    let (value, left) := value.normalizeWith fire left
    (refl value, left)

def normalizeArgs (fire : String → List Term → Nat → Option (Term × Nat)) :
    List Term → Nat → List Term × Nat
  | [], left => ([], left)
  | t :: ts, left =>
    let (t, left) := t.normalizeWith fire left
    let (ts, left) := normalizeArgs fire ts left
    (t :: ts, left)

def normalizeParams (fire : String → List Term → Nat → Option (Term × Nat)) :
    List (Param Term) → Nat → List (Param Term) × Nat
  | [], left => ([], left)
  | ⟨name, type, plicity, fallback⟩ :: ps, left =>
    let (type, left) := type.normalizeWith fire left
    let (ps, left) := normalizeParams fire ps left
    (⟨name, type, plicity, fallback⟩ :: ps, left)

end

end Term

namespace Holes

/-- Normalizes a term with a number of reductions left. The first argument bounds how deeply
outcomes of reductions are normalized inside each other; each level costs a reduction, so one more
than the reductions left is enough. -/
def normalizeN (h : Holes) (env : Declarations) : Nat → Term → Nat → Term × Nat
  | 0, t, left => (t, left)
  | n + 1, t, left =>
    (h.expand t).normalizeWith (fun name args left =>
      match left with
      | 0 => none
      | left + 1 => (env.reduce? name args).map fun out => h.normalizeN env n out left) left

/-- The normal form of a term and the number of reductions that are left. -/
def normalizeCount (h : Holes) (env : Declarations) (t : Term) : Term × Nat :=
  h.normalizeN env (maxReductions + 1) t maxReductions

def normalize (h : Holes) (env : Declarations) (t : Term) : Term := (h.normalizeCount env t).1

end Holes

end Implicits
