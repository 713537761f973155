import Implicits.Level

/-!
The constraint store of one checking unit: constraints in the order they were added, each once, what
has been seen of them, and a supply of level variables that never repeats.
-/
namespace Implicits

structure LevelStore where
  owner : String
  ofDecl : Bool := false
  /-- The variables handed out so far, latest first. -/
  issued : List LevelVar := []
  constraints : List Constraint := []
  /-- The constraints that are not to be added again, latest first. -/
  seen : List Constraint := []
deriving DecidableEq, Inhabited

namespace LevelStore

/-- The store of a single declaration checked outside of a unit. -/
def forDecl (name : String) : LevelStore := { owner := name, ofDecl := true }

def size (s : LevelStore) : Nat := s.constraints.length

/-- The number of the next variable. -/
def nextId (s : LevelStore) : Nat := s.issued.length

/-- Hands out the next variable under a name. -/
def issue (s : LevelStore) (owner : String) (ofDecl : Bool) : LevelVar × LevelStore :=
  let v : LevelVar := ⟨owner, s.nextId, ofDecl⟩
  (v, { s with issued := v :: s.issued })

/-- A variable owned by the store. -/
def fresh (s : LevelStore) : LevelVar × LevelStore := s.issue s.owner s.ofDecl

/-- A variable owned by the declaration whose signature asked for it. -/
def freshFor (s : LevelStore) (decl : String) : LevelVar × LevelStore := s.issue decl true

/-- Adds a constraint unless it is trivial or has been seen. -/
def add (s : LevelStore) (c : Constraint) : LevelStore :=
  if c.isTrivial || s.seen.contains c then s
  else { s with constraints := s.constraints ++ [c], seen := c :: s.seen }

def lt (s : LevelStore) (lo hi : Level) (origin : String) : LevelStore :=
  s.add ⟨lo, hi, true, origin⟩

def le (s : LevelStore) (lo hi : Level) (origin : String) : LevelStore :=
  s.add ⟨lo, hi, false, origin⟩

/-- Both directions of `≤`; nothing for a level and itself. -/
def equate (s : LevelStore) (a b : Level) (origin : String) : LevelStore :=
  (s.le a b origin).le b a origin

def importAll (s : LevelStore) (cs : List Constraint) : LevelStore :=
  cs.foldl add s

/-- Drops every constraint added after the store held `n` of them, so that it can be added again. -/
def truncate (s : LevelStore) (n : Nat) : LevelStore :=
  { s with
    constraints := s.constraints.take n
    seen := (s.constraints.drop n).foldl List.erase s.seen }

/-- Forgets the constraints. Variables handed out before stay distinct from later ones. -/
def reset (s : LevelStore) : LevelStore := { s with constraints := [], seen := [] }

end LevelStore

end Implicits
