import Implicits.Session
import Implicits.Proofs.Graph.Components
import Implicits.Proofs.Level.Graph
import Implicits.Proofs.Level.Placement
import Implicits.Proofs.Level.Consistency
import Implicits.Proofs.Graph.Path
import Implicits.Proofs.Level.Cycles
import Implicits.Proofs.Term.Holes
import Implicits.Proofs.Term.Scope
import Implicits.Proofs.Solver.State
import Implicits.Proofs.Solver.Soundness
import Implicits.Proofs.Outcome
import Implicits.Proofs.Solver.Typing
import Implicits.Proofs.Solver.Unify
import Implicits.Proofs.Checker.State
import Implicits.Proofs.Checker.Search
import Implicits.Proofs.Checker.Elaborate
import Implicits.Proofs.HoleFree
import Implicits.Proofs.Checker.Signature
import Implicits.Proofs.Checker.Obligations
import Implicits.Proofs.Term.ReadBack
import Implicits.Proofs.Solver.SameForm
import Implicits.Proofs.Checker.Conversions
import Implicits.Proofs.Solver.Lives
import Implicits.Proofs.Solver.Universes
import Implicits.Proofs.Checker.ArgumentLevels
import Implicits.Proofs.Solver.Rollback
import Implicits.Proofs.Term.Unifier
import Implicits.Proofs.Solver.MostGeneral
import Implicits.Proofs.Session.Imports
import Implicits.Proofs.Session.Unit
import Implicits.Proofs.Session.Run
import Implicits.Proofs.Term.Subst
import Implicits.Proofs.Session.Calls
import Implicits.Proofs.Solver.Normalize
import Implicits.Proofs.Checker.ResultType
import Implicits.Proofs.Term.Alpha
import Implicits.Proofs.Solver.FunctionTypes
import Implicits.Proofs.Level.Overflow
import Implicits.Proofs.Level.Origins
import Implicits.Proofs.Level.Classes
import Implicits.Proofs.Level.Violations
import Implicits.Proofs.Simulation
import Implicits.Proofs.Checker.Shift
import Implicits.Proofs.Session.Shift
import Implicits.Proofs.Session.Reuse
import Implicits.Proofs.Checker.Advance
import Implicits.Proofs.Session.Commit
import Implicits.Proofs.Session.Supply
import Implicits.Proofs.Solver.Circles
import Implicits.Proofs.Term.Deref
import Implicits.Proofs.Solver.Endings
import Implicits.Proofs.Term.Pairing
import Implicits.Proofs.Term.Written
import Implicits.Proofs.Solver.Pairing
import Implicits.Proofs.Checker.Pairing
import Implicits.Proofs.Solver.Renumber
import Implicits.Proofs.Checker.Waiting
import Implicits.Proofs.Session.Failure
import Implicits.Proofs.Solver.Confined
import Implicits.Proofs.Session.Findable
import Implicits.Proofs.Text.Bytes
import Implicits.Proofs.Text.Quoted
import Implicits.Proofs.Directive
import Implicits.Proofs.Solver.NormalForms
import Implicits.Proofs.Solver.TypeLevels
import Implicits.Proofs.Solver.LevelBlind
import Implicits.Proofs.Checker.Scan
import Implicits.Proofs.Checker.Matching
import Implicits.Proofs.Term.FreeNames
import Implicits.Proofs.Solver.Additions
import Implicits.Proofs.Level.Store
import Implicits.Proofs.Session.Configured
import Implicits.Proofs.Session.Naming
