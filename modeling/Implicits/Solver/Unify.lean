import Implicits.Solver.Typing

/-!
Unification up to reduction. Terms are first compared as they are; if that fails, what it did is
undone and their normal forms are compared. Universes are equated through level constraints, and a
hole that ranges over types bounds the level of its solution.
-/
namespace Implicits

namespace Solve

def mismatch {α : Type} (a b : Term) : Solve α := do
  throw (.mismatch (← text a) (← text b))

/-- Solves a hole by a term. -/
def bind (env : Declarations) (hyps : Context) (id : HoleId) (t : Term) : Solve Unit := do
  let h ← holes
  if h.occurs id t then
    throw (.circular (h.name id) (← text t))
  match (h.normalize env (h.type id)).universeLevel? with
  | none => pure ()
  | some l =>
    let level ← tryCatch (levelOf env hyps t) fun e => do
      throw (.badSolution (h.name id) (← text t) e)
    modifyLevels (·.le level l ("solution of ?" ++ h.name id ++ " : Type " ++ l.text))
  modify (·.solve id t)

/-- Compares universes. Unassigned ones are equal only to themselves. -/
def unifyUniverses : Universe → Universe → Solve Unit
  | .level (.const j), .level (.const k) =>
    if j = k then return
    else mismatch (.sort (.level (.const j))) (.sort (.level (.const k)))
  | .level l, .level m =>
    modifyLevels (·.equate l m ("unify Type " ++ l.text ++ " with Type " ++ m.text))
  | u, v => if u = v then return else throw .unassignedUniverses

def unifyArgs (recur : Term → Term → Solve Unit) : List Term → List Term → Solve Unit
  | a :: as, b :: bs => do
    recur a b
    unifyArgs recur as bs
  | _, _ => return

/-- Compares parameters in order, the second list renamed to the first, and gives the context and
the renaming behind them. -/
def unifyParams (recur : Context → Term → Term → Solve Unit) (whole : Solve Unit) :
    Context → Substitution → List (Param Term) → List (Param Term) → Solve (Context × Substitution)
  | hyps, names, p :: ps, q :: qs => do
    if p.plicity ≠ q.plicity then whole
    recur hyps p.type ((← holes).subst names q.type)
    unifyParams recur whole (hyps.extend p.name p.type) ((q.name, .bound p.name) :: names) ps qs
  | hyps, names, _, _ => return (hyps, names)

/-- Compares two terms by their form; `recur` compares their parts. -/
def unifyForms (recur : Context → Term → Term → Solve Unit) (hyps : Context) (a b : Term) :
    Solve Unit := do
  match a, b with
  | .missing, .missing => return
  | .const m, .const n => if m = n then return else mismatch a b
  | .lit s _, .lit t _ => if s = t then return else mismatch a b
  | .bound m, .bound n => if m = n then return else mismatch a b
  | .app f xs, .app g ys =>
    if xs.length = ys.length then
      recur hyps f g
      unifyArgs (recur hyps) xs ys
    else mismatch a b
  | .pi ps r, .pi qs s =>
    if ps.length = qs.length then
      let (inner, names) ← unifyParams recur (mismatch a b) hyps [] ps qs
      recur inner r ((← holes).subst names s)
    else mismatch a b
  | .sort u, .sort v => unifyUniverses u v
  | .eq l r, .eq l' r' =>
    recur hyps l l'
    recur hyps r r'
  | .refl x, .refl y => recur hyps x y
  | _, _ => mismatch a b

/-- Follows solved holes, solves open ones, and leaves other terms to `compare`. -/
def unifyHeads (env : Declarations) (compare : Term → Term → Solve Unit) (hyps : Context)
    (a b : Term) : Solve Unit := do
  let h ← holes
  match h.follow a, h.follow b with
  | .hole v, .hole w => if v = w then return else bind env hyps v (.hole w)
  | .hole v, b => bind env hyps v b
  | a, .hole w => bind env hyps w a
  | a, b => compare a b

/-- Unification without reduction, to a given depth. -/
def unifyNormalN (env : Declarations) : Nat → Context → Term → Term → Solve Unit
  | 0, _, _, _ => throw .tooDeep
  | n + 1, hyps, a, b =>
    unifyHeads env (unifyForms (unifyNormalN env n) hyps) hyps a b

/-- Room for solutions that grow by reduction. -/
def spareDepth : Nat := 65536

/-- A bound for the depth of two terms while their holes are being solved: a path passes each open
hole at most once, and between two holes it stays inside one of the terms as they are read now. -/
def depthBound (h : Holes) (a b : Term) : Nat :=
  let size := (h.expand a).size + (h.expand b).size
  spareDepth + (size + 1) * (size + 1)

/-- Unification of normal forms. -/
def unifyNormal (env : Declarations) (hyps : Context) (a b : Term) : Solve Unit := do
  unifyNormalN env (depthBound (← holes) a b) hyps a b

/-- Unification up to reduction, to a given depth. -/
def unifyN (env : Declarations) : Nat → Context → Term → Term → Solve Unit
  | 0, _, _, _ => throw .tooDeep
  | n + 1, hyps, a, b =>
    unifyHeads env (fun a b =>
      tryCatch (attempt (unifyForms (unifyN env n) hyps a b)) fun _ => do
        let h ← holes
        unifyNormal env hyps (h.normalize env a) (h.normalize env b)) hyps a b

def unify (env : Declarations) (hyps : Context) (a b : Term) : Solve Unit := do
  unifyN env (depthBound (← holes) a b) hyps a b

/-- Checks that a term of type `actual` may be used where `expected` is required: a universe may
stand for a larger one, other types must unify. -/
def subsume (env : Declarations) (hyps : Context) (actual expected : Term) : Solve Unit := do
  let h ← holes
  match (h.normalize env actual).universeLevel?, (h.normalize env expected).universeLevel? with
  | some l, some m =>
    modifyLevels (·.le l m ("cumulativity: Type " ++ l.text ++ " used as Type " ++ m.text))
  | _, _ => unify env hyps actual expected

def tryUnify (env : Declarations) (hyps : Context) (a b : Term) : Solve Unit :=
  attempt (unify env hyps a b)

def trySubsume (env : Declarations) (hyps : Context) (actual expected : Term) : Solve Unit :=
  attempt (subsume env hyps actual expected)

end Solve

end Implicits
