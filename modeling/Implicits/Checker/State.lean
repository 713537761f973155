import Implicits.Checker.Error
import Implicits.Context

/-!
The state of a checker within one unit: the solver, omitted arguments that are still waiting for
their value, the obligations met so far, and the first failure.
-/
namespace Implicits

abbrev SessionId := Nat

structure CheckOptions where
  /-- Report omitted arguments without a value as open obligations instead of failing. -/
  deferUnresolved : Bool := false
  /-- Keep a record of what is decided on the way. -/
  log : Bool := false

/-- A goal that arose from an omitted argument, with the value found for it. An open obligation has
an open hole for its value. -/
structure Obligation where
  function : String
  param : String
  goal : Term
  context : Context
  value : Term
  strategy : Strategy := .contextScan
  trace : List Attempt := []

/-- An omitted argument of a nested call, which an enclosing call may still determine. -/
structure Pending where
  site : Expr
  function : String
  param : String
  hole : HoleId
  context : Context

/-- What is recorded on the way. -/
inductive Event where
  | hintNotApplied (function expected error : String)
  | resolved (function param : String) (strategy : Strategy) (value : String)
  | searchFailed (function param goal : String) (attempts : Nat)
  | deferred (function param goal : String)
  | converted (conversion source target expr : String)
  | unitChecked (unit : String) (declarations constraints obligations openObligations : Nat)
deriving DecidableEq

/-- The record of an event: a message, followed by keys and values. -/
def Event.record : Event → List String
  | hintNotApplied function expected error =>
    ["result type hint not applied", "function", function, "expected", expected, "error", error]
  | resolved function param strategy value =>
    ["resolved implicit argument", "function", function, "param", param, "strategy", strategy.text,
      "value", value]
  | searchFailed function param goal attempts =>
    ["proof search failed", "function", function, "param", param, "goal", goal, "attempts",
      toString attempts]
  | deferred function param goal =>
    ["deferred unresolved implicit argument", "function", function, "param", param, "goal", goal]
  | converted conversion source target expr =>
    ["inserted implicit conversion", "conversion", conversion, "from", source, "to", target, "expr",
      expr]
  | unitChecked unit declarations constraints obligations openObligations =>
    ["checked unit", "unit", unit, "declarations", toString declarations, "constraints",
      toString constraints, "obligations", toString obligations, "open", toString openObligations]

structure Checker where
  options : CheckOptions := {}
  solver : Solver := {}
  /-- The session that the current unit is checked in. -/
  session : Option SessionId := none
  /-- What the current unit has declared so far. -/
  own : Declarations := {}
  pending : List Pending := []
  obligations : List Obligation := []
  openObligations : List Obligation := []
  failure : Option CheckError := none
  /-- The expression at which checking failed first. -/
  invalid : Expr := .missing
  events : List Event := []
deriving Inhabited

/-- Steps of checking. State changes before an error persist. -/
abbrev Check := ExceptT CheckError (StateM Checker)

namespace Checker

/-- Ends the current unit. Holes keep their numbers. -/
def reset (c : Checker) : Checker :=
  { options := c.options, solver := c.solver.reset, events := c.events }

/-- Starts a unit in a session with its own level store. -/
def start (c : Checker) (session : SessionId) (levels : LevelStore) : Checker :=
  { c.reset with session := some session, solver := c.solver.start levels }

def isActive (c : Checker) : Bool := c.session.isSome

/-- The constraints collected in the current unit. -/
def constraints (c : Checker) : List Constraint :=
  if c.isActive then c.solver.levels.constraints else []

def text (c : Checker) (t : Term) : String := c.solver.text t

end Checker

namespace Check

/-- Runs a step of the solver and hands on its outcome. -/
def solve {α : Type} (x : Solve α) : Check (Except Fault α) := do
  let c ← get
  let (outcome, solver) := x.run c.solver
  set { c with solver }
  return outcome

def holes : Check Holes := return (← get).solver.holes

def text (t : Term) : Check String := return (← get).text t

def exprText (e : Expr) : Check String := return (← holes).exprText e

def note (e : Event) : Check Unit :=
  modify fun c => if c.options.log then { c with events := c.events ++ [e] } else c

/-- Fails at an expression. The first failure of a unit is kept. -/
def fail {α : Type} (site : Expr) (e : CheckError) : Check α := do
  modify fun c => if c.failure.isNone then { c with failure := some e, invalid := site } else c
  throw e

def orFail {α : Type} (site : Expr) (wrap : Fault → CheckError) (x : Solve α) : Check α := do
  match ← solve x with
  | .ok a => return a
  | .error fault => fail site (wrap fault)

def requireActive : Check Unit := do
  if !(← get).isActive then throw .inactive

/-- Finds a signature and takes over its constraints. -/
def lookupSignature? (env : Declarations) (name : String) : Check (Option Signature) := do
  match env.signature? name with
  | none => return none
  | some sig =>
    modify fun c => { c with solver := c.solver.importSignature sig }
    return some sig

/-- Solves the level constraints collected so far. -/
def checkUniverses : Check Assignment := do
  let c ← get
  if !c.isActive then throw .noUnit
  match checkLevels c.constraints with
  | .ok a => return a
  | .error e =>
    set { c with failure := some (.inconsistent e) }
    throw (.inconsistent e)

end Check

end Implicits
