import Implicits.Level

/-!
Terms of the core language. Types and values share one form; holes stand for omitted arguments and
are solved later. Any place of a term may be left empty (`missing`).
-/
namespace Implicits

/-- How an argument for a parameter is supplied. -/
inductive Plicity where
  /-- By position at the call. -/
  | explicit
  /-- Omitted, found by unification. -/
  | implicit
  /-- Omitted, found by unification or else by searching the context. -/
  | auto
  /-- Omitted, found by unification or else by the tactic of the parameter. -/
  | default
  /-- A marking without a meaning of its own: omitted, found by unification. -/
  | unknown
deriving DecidableEq, Inhabited

/-- How to find a value for an omitted argument that unification leaves open. -/
inductive Tactic (τ : Type) where
  /-- Look for a hypothesis, then try reflexivity. -/
  | trivial
  /-- Use a value, which may refer to earlier parameters by name. -/
  | exact (value : τ)
deriving Inhabited

/-- A parameter of a function type. The tactic counts only for `default` parameters. -/
structure Param (τ : Type) where
  name : String
  type : τ
  plicity : Plicity := .explicit
  fallback : Option (Tactic τ) := none
deriving Inhabited

namespace Param

variable {τ : Type}

def isImplicit (p : Param τ) : Bool := p.plicity != .explicit

/-- The tactic for a value that unification leaves open. -/
def tactic? (p : Param τ) : Option (Tactic τ) :=
  match p.plicity with
  | .auto => some .trivial
  | .default => p.fallback
  | .explicit | .implicit | .unknown => none

/-- An unnamed parameter cannot be referred to. -/
def isAnonymous (p : Param τ) : Bool := p.name == "" || p.name == "_"

end Param

/-- A universe with a level, or one whose level has not been assigned yet. The number of an
unassigned universe tells its occurrences apart. -/
inductive Universe where
  | unassigned (occurrence : Nat)
  | level (l : Level)
deriving DecidableEq, Inhabited

def Universe.level? : Universe → Option Level
  | .unassigned _ => none
  | .level l => some l

abbrev HoleId := Nat

inductive Term where
  /-- A place that was left empty. -/
  | missing
  /-- A declared name. -/
  | const (name : String)
  /-- A literal and its type. -/
  | lit (text : String) (type : Term)
  /-- A parameter or a hypothesis. -/
  | bound (name : String)
  | hole (id : HoleId)
  | app (fn : Term) (args : List Term)
  | pi (params : List (Param Term)) (result : Term)
  | sort (u : Universe)
  | eq (lhs rhs : Term)
  /-- The proof that a value equals itself. -/
  | refl (value : Term)
deriving Inhabited

namespace Term

def isMissing : Term → Bool
  | missing => true
  | _ => false

/-- `none` for a place that was left empty. -/
def toOption : Term → Option Term
  | missing => none
  | t => some t

/-- The level of a universe that has one. -/
def universeLevel? : Term → Option Level
  | sort u => u.level?
  | _ => none

mutual

/-- The number of nodes. -/
def size : Term → Nat
  | missing | const _ | bound _ | hole _ | sort _ => 1
  | lit _ type => type.size + 1
  | app fn args => fn.size + sizeArgs args + 1
  | pi params result => sizeParams params + result.size + 1
  | eq lhs rhs => lhs.size + rhs.size + 1
  | refl value => value.size + 1

def sizeArgs : List Term → Nat
  | [] => 0
  | t :: ts => t.size + sizeArgs ts

def sizeParams : List (Param Term) → Nat
  | [] => 0
  | ⟨_, type, _, _⟩ :: ps => type.size + sizeParams ps

end

end Term

end Implicits
