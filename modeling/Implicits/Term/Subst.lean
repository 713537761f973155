import Implicits.Term.Holes

/-!
Substitution of terms for bound names. Parameters of a nested function type hide the names that they
bind from there on.
-/
namespace Implicits

/-- Terms for names; the first entry of a name counts. -/
abbrev Substitution := List (String × Term)

namespace Substitution

def without (sub : Substitution) (name : String) : Substitution := sub.filter (·.1 != name)

/-- What is left of a substitution behind parameters. -/
def behind (sub : Substitution) (params : List (Param Term)) : Substitution :=
  params.foldl (fun sub p => sub.without p.name) sub

end Substitution

namespace Term

mutual

def subst (sub : Substitution) : Term → Term
  | missing => missing
  | const name => const name
  | lit text type => lit text type
  | bound name => (sub.lookup name).getD (bound name)
  | hole id => hole id
  | app fn args => app (fn.subst sub) (substArgs sub args)
  | pi params result => pi (substParams sub params) (result.subst (sub.behind params))
  | sort u => sort u
  | eq lhs rhs => eq (lhs.subst sub) (rhs.subst sub)
  | refl value => refl (value.subst sub)

def substArgs (sub : Substitution) : List Term → List Term
  | [] => []
  | t :: ts => t.subst sub :: substArgs sub ts

def substParams (sub : Substitution) : List (Param Term) → List (Param Term)
  | [] => []
  | ⟨name, type, plicity, fallback⟩ :: ps =>
    ⟨name, type.subst sub, plicity, fallback⟩ :: substParams (sub.without name) ps

end

end Term

/-- Substitution through solved holes. -/
def Holes.subst (h : Holes) (sub : Substitution) (t : Term) : Term :=
  if sub.isEmpty then t else (h.expand t).subst sub

end Implicits
