import Implicits.Term.Subst

/-!
Computation rules for constants. A reduction acts on exactly `arity` normalized arguments; one given
by rules tries them in order and fires the first whose patterns all match.
-/
namespace Implicits

structure Reduction where
  arity : Int
  reduce : List Term → Option Term

inductive Pattern where
  | any
  /-- Anything, remembered under a name. -/
  | named (name : String)
  | const (name : String)
  | lit (text : String)
  /-- A constant applied to any arguments. -/
  | head (name : String)
  /-- A constant applied to arguments that match. -/
  | app (name : String) (args : List Pattern)
deriving Inhabited

namespace Pattern

mutual

/-- Extends the bindings by those of a pattern; a later binding of a name counts. -/
def match? : Pattern → Term → Substitution → Option Substitution
  | any, _, sub => some sub
  | named name, t, sub => some ((name, t) :: sub)
  | const name, t, sub =>
    match t with
    | .const c => if c = name then some sub else none
    | _ => none
  | lit text, t, sub =>
    match t with
    | .lit s _ => if s = text then some sub else none
    | _ => none
  | head name, t, sub =>
    match t with
    | .app (.const c) _ => if c = name then some sub else none
    | _ => none
  | app name pats, t, sub =>
    match t with
    | .app (.const c) args => if c = name then matchAll? pats args sub else none
    | _ => none

/-- Matches a list of patterns against a list of terms of the same length. -/
def matchAll? : List Pattern → List Term → Substitution → Option Substitution
  | [], [], sub => some sub
  | p :: ps, t :: ts, sub => (p.match? t sub).bind (matchAll? ps ts)
  | _, _, _ => none

end

end Pattern

structure Rule where
  patterns : List Pattern
  rhs : Term

/-- The right side with the bindings of the patterns. Arguments beyond the patterns may be anything.
-/
def Rule.fire? (r : Rule) (args : List Term) : Option Term :=
  (Pattern.matchAll? r.patterns (args.take r.patterns.length) []).map fun sub => r.rhs.subst sub

def Reduction.ofRules (arity : Int) (rules : List Rule) : Reduction :=
  ⟨arity, fun args => rules.findSome? (·.fire? args)⟩

end Implicits
