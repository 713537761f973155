import Implicits.Checker.Arguments
import Implicits.Level.Check
import Implicits.Solver.State

/-!
Why checking fails. Errors about terms keep the terms, which are written out when the error is
shown.
-/
namespace Implicits

/-- How a value for an omitted argument was sought. -/
inductive Strategy where
  | contextScan
  | reflexivity
  | userTactic
deriving DecidableEq, Inhabited

def Strategy.text : Strategy → String
  | contextScan => "context scan"
  | reflexivity => "reflexivity"
  | userTactic => "user tactic"

/-- One step of a search: what was tried, and why it failed unless it succeeded. -/
structure Attempt where
  strategy : Strategy
  candidate : String := ""
  detail : String := ""
  ok : Bool := false
deriving DecidableEq, Inhabited

def Attempt.text (a : Attempt) : String :=
  let tried := if a.candidate = "" then "" else " " ++ a.candidate
  let outcome :=
    if a.ok then ": ok"
    else if a.detail = "" then "" else ": " ++ a.detail
  a.strategy.text ++ tried ++ outcome

inductive ConversionFault where
  | undeclared (name : String)
  | wrongParameters (name : String)
  | dependent (name : String)
  | repeated (name : String)
deriving DecidableEq

def ConversionFault.message : ConversionFault → String
  | undeclared name => "Cannot declare undeclared " ++ name ++ " as an implicit conversion"
  | wrongParameters name =>
    "Implicit conversion " ++ name ++ " must have exactly one explicit parameter"
  | dependent name => "Result type of implicit conversion " ++ name ++ " depends on its parameter"
  | repeated name => name ++ " is already an implicit conversion"

inductive CheckError where
  | inactive
  | noUnit
  | emptyExpression
  | unhandledExpression
  | untypedLiteral (text : String)
  | unknownIdentifier (name : String)
  | notAFunctionName (fn : Expr)
  | localFunction (name : String)
  | unknownFunction (name : String)
  | negativeLevel (level : Int64)
  | typing (fault : Fault)
  | arguments (fault : ArgumentFault)
  /-- An argument that does not fit and that no conversion mends. -/
  | mismatch (site : Expr) (param : String) (expected actual : Term) (cause : Fault)
  | ambiguous (site : Expr) (source target : Term) (candidates : List String)
  /-- An omitted argument that neither unification nor search determines. -/
  | unresolved (site : Expr) (function param : String) (expected : Term) (trace : List Attempt)
  | undeclaredConversion (name : String)
  | signature (fault : SignatureFault)
  | badParam (param function : String) (fault : Fault)
  | badDefault (param function : String) (fault : Fault)
  | badResult (function : String) (fault : Fault)
  | inconsistent (e : Inconsistency)
  | alreadyDeclared (name : String)
  | undeclaredPrim (prim function : String)
  | undeclaredReduction (name : String)
  | conversion (fault : ConversionFault)
  | unnamedUnit
  | alreadyCommitted (unit : String)
  | noSignature
  | inBody (name : String) (e : CheckError)
  | inUnit (unit : String) (e : CheckError)
deriving Inhabited

namespace CheckError

/-- The error inside the places where it was met. -/
def root : CheckError → CheckError
  | inBody _ e => e.root
  | inUnit _ e => e.root
  | e => e

def traceText (trace : List Attempt) : String :=
  if trace.isEmpty then "" else " (tried " ++ "; ".intercalate (trace.map Attempt.text) ++ ")"

def message (h : Holes) : CheckError → String
  | inactive => "Checker has no active unit; call Begin first"
  | noUnit => "Checker has no active unit"
  | emptyExpression => "Empty expression"
  | unhandledExpression => "Unhandled expression type"
  | untypedLiteral text => "Literal " ++ text ++ " has no type"
  | unknownIdentifier name => "Unknown identifier " ++ name
  | notAFunctionName fn => "Call of " ++ h.exprText fn ++ " must name a declared function"
  | localFunction name => "Cannot call local " ++ name ++ " with implicit arguments"
  | unknownFunction name => "Unknown function " ++ name
  | negativeLevel level => "Universe level " ++ toString level.toInt ++ " is negative"
  | typing fault => fault.message
  | arguments fault => fault.message
  | mismatch site param expected actual cause =>
    let place := if param = "" then "" else " (parameter " ++ param ++ ")"
    "Type mismatch for " ++ h.exprText site ++ place ++ ": expected " ++ h.text expected ++
      ", found " ++ h.text actual ++ ": " ++ cause.message
  | ambiguous site source target candidates =>
    "Ambiguous implicit conversion from " ++ h.text source ++ " to " ++ h.text target ++ " for " ++
      h.exprText site ++ ": " ++ ", ".intercalate candidates
  | unresolved site function param expected trace =>
    "Cannot resolve implicit argument " ++ param ++ " : " ++ h.text expected ++
      " of " ++ function ++
      " in " ++ h.exprText site ++ traceText trace
  | undeclaredConversion name => "Implicit conversion " ++ name ++ " is not declared"
  | signature fault => fault.message
  | badParam param function fault =>
    "parameter " ++ param ++ " of " ++ function ++ ": " ++ fault.message
  | badDefault param function fault =>
    "default value of " ++ param ++ " in " ++ function ++ ": " ++ fault.message
  | badResult function fault => "result of " ++ function ++ ": " ++ fault.message
  | inconsistent e => e.message
  | alreadyDeclared name => name ++ " is already declared"
  | undeclaredPrim prim function =>
    "Primitive type " ++ prim ++ " of " ++ function ++ " is not declared"
  | undeclaredReduction name => "Cannot define a reduction for undeclared " ++ name
  | conversion fault => fault.message
  | unnamedUnit => "Unit must be named"
  | alreadyCommitted unit => "Unit " ++ unit ++ " is already committed"
  | noSignature => "Declaration without a signature"
  | inBody name e => "body of " ++ name ++ ": " ++ e.message h
  | inUnit unit e => "unit " ++ unit ++ ": " ++ e.message h

end CheckError

end Implicits
