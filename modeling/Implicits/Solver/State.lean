import Implicits.Declarations
import Implicits.Level.Store

/-!
The state of solving within one checking unit: holes, level constraints, the signatures whose
constraints were imported, and what is needed to undo a speculative step. A step that fails keeps
its changes unless it is undone through a mark.
-/
namespace Implicits

/-- The solution that a hole had before it was solved speculatively. -/
structure SavedSolution where
  hole : HoleId
  before : Option Term

structure Solver where
  holes : Holes := {}
  levels : LevelStore := { owner := "" }
  /-- Latest first. -/
  stash : List SavedSolution := []
  speculative : Bool := false
  /-- Signatures that are not to be imported again, latest first. -/
  imported : List String := []
  /-- Signatures whose constraints were imported, in the order of their import. -/
  importLog : List String := []
deriving Inhabited

/-- Why terms do not fit. The texts of terms are those at the time of the fault, since solutions may
be undone later. -/
inductive Fault where
  | mismatch (left right : String)
  | circular (hole solution : String)
  | badSolution (hole solution : String) (cause : Fault)
  | unassignedUniverses
  | unknownConstant (name : String)
  | untypedLiteral (text : String)
  | unknownVariable (name : String)
  | untypedHole (name : String)
  | notApplicable (fn type term : String)
  | unassignedUniverse
  | negativeUniverse (level : String)
  | untypable (term : String)
  | unknownUniverse (type : String)
  | notAType (term : String)
  | tooDeep
deriving DecidableEq, Inhabited

def Fault.message : Fault → String
  | mismatch left right => "Failed to unify " ++ left ++ " with " ++ right
  | circular hole solution =>
    "Cannot solve ?" ++ hole ++ " with " ++ solution ++ ": the solution would contain itself"
  | badSolution hole solution cause =>
    "Cannot solve ?" ++ hole ++ " with " ++ solution ++ ": " ++ cause.message
  | unassignedUniverses => "Cannot unify universes without assigned levels"
  | unknownConstant name => "Constant " ++ name ++ " not found"
  | untypedLiteral text => "Literal " ++ text ++ " has no type"
  | unknownVariable name => "Variable " ++ name ++ " not found"
  | untypedHole name => "Metavariable ?" ++ name ++ " has no type"
  | notApplicable fn type term => "Cannot apply " ++ fn ++ " of type " ++ type ++ " to " ++ term
  | unassignedUniverse => "Universe has no assigned level"
  | negativeUniverse level => "Universe level " ++ level ++ " is negative"
  | untypable term => "Cannot compute the type of " ++ term
  | unknownUniverse type => "Cannot determine the universe of " ++ type
  | notAType term => term ++ " is not a type"
  | tooDeep => "Terms are nested too deeply"

/-- Steps of solving. State changes before a fault persist. -/
abbrev Solve := ExceptT Fault (StateM Solver)

namespace Solver

/-- The point to which a speculative step returns. -/
structure Mark where
  speculative : Bool
  stashed : Nat
  constraints : Nat
  imports : Nat
deriving DecidableEq

def mark (s : Solver) : Mark :=
  ⟨s.speculative, s.stash.length, s.levels.size, s.importLog.length⟩

/-- Starts a speculative step. -/
def speculate (s : Solver) : Solver := { s with speculative := true }

def restore (h : Holes) (saved : SavedSolution) : Holes := h.setSolution saved.hole saved.before

/-- Undoes the solutions, constraints and imports since a mark. -/
def rollback (s : Solver) (m : Mark) : Solver :=
  let count := s.stash.length - m.stashed
  { holes := (s.stash.take count).foldl restore s.holes
    levels := s.levels.truncate m.constraints
    stash := s.stash.drop count
    speculative := m.speculative
    imported := (s.importLog.drop m.imports).foldl List.erase s.imported
    importLog := s.importLog.take m.imports }

/-- Keeps what was done since a mark. Inside an outer speculative step it can still be undone. -/
def commit (s : Solver) (m : Mark) : Solver :=
  { s with
    speculative := m.speculative
    stash := if m.speculative then s.stash else s.stash.drop (s.stash.length - m.stashed) }

/-- Forgets constraints, imports and speculation. Holes keep their solutions and numbers. -/
def reset (s : Solver) : Solver :=
  { s with
    levels := s.levels.reset, stash := [], speculative := false, imported := [], importLog := [] }

/-- A new unit with its own level store. -/
def start (s : Solver) (levels : LevelStore) : Solver :=
  { s with levels, stash := [], speculative := false, imported := [], importLog := [] }

/-- Adds an open hole for a parameter. -/
def addHole (s : Solver) (name : String) (type : Term) : HoleId × Solver :=
  (s.holes.size, { s with holes := s.holes.add name s.holes.size type })

/-- Solves a hole, so that a speculative step can undo it. -/
def solve (s : Solver) (id : HoleId) (t : Term) : Solver :=
  { s with
    holes := s.holes.solve id t
    stash := if s.speculative then ⟨id, s.holes.solution? id⟩ :: s.stash else s.stash }

/-- Takes over the constraints of a signature, once. -/
def importSignature (s : Solver) (sig : Signature) : Solver :=
  if sig.constraints.isEmpty || s.imported.contains sig.name then s
  else
    { s with
      imported := sig.name :: s.imported
      importLog := s.importLog ++ [sig.name]
      levels := s.levels.importAll sig.constraints }

def text (s : Solver) (t : Term) : String := s.holes.text t

end Solver

namespace Solve

def holes : Solve Holes := return (← get).holes

def text (t : Term) : Solve String := return (← get).text t

def modifyLevels (f : LevelStore → LevelStore) : Solve Unit :=
  modify fun s => { s with levels := f s.levels }

def freshLevel : Solve Level := do
  let s ← get
  let (v, levels) := s.levels.fresh
  set { s with levels }
  return .var v

def freshHole (name : String) (type : Term) : Solve HoleId :=
  modifyGet (·.addHole name type)

/-- Finds a signature and takes over its constraints. -/
def lookupSignature? (env : Declarations) (name : String) : Solve (Option Signature) := do
  match env.signature? name with
  | none => return none
  | some sig =>
    modify (·.importSignature sig)
    return some sig

/-- Runs a step and undoes it if it fails. -/
def attempt {α : Type} (x : Solve α) : Solve α := do
  let m := (← get).mark
  modify Solver.speculate
  try
    let a ← x
    modify (·.commit m)
    return a
  catch e =>
    modify (·.rollback m)
    throw e

end Solve

end Implicits
