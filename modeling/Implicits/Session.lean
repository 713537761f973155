import Implicits.Config
import Implicits.Unit

/-!
Sessions: declarations that outlive a unit. A session sees what its ancestors declare, also what
they declare later. Units are checked against a session and become visible in it when they are
committed. Signatures with holes are read through the table of holes that goes with them.
-/
namespace Implicits

structure Session where
  own : Declarations := {}
  directives : List Directive := []
  /-- Names of committed units. -/
  units : List String := []
  /-- Nearest first. -/
  ancestors : List SessionId := []

structure Sessions where
  table : Array Session := #[]

namespace Sessions

def get (t : Sessions) (id : SessionId) : Session := t.table.getD id {}

def update (t : Sessions) (id : SessionId) (f : Session → Session) : Sessions :=
  ⟨t.table.modify id f⟩

/-- A session and its ancestors, nearest first. -/
def lineage (t : Sessions) (id : SessionId) : List SessionId := id :: (t.get id).ancestors

/-- Adds a session. One without a parent declares the primitive types. -/
def create (t : Sessions) (parent : Option SessionId) : SessionId × Sessions :=
  let session : Session :=
    match parent with
    | some p => { ancestors := t.lineage p }
    | none => { own := { signatures := Prim.all.map Prim.signature } }
  (t.table.size, ⟨t.table.push session⟩)

/-- The declarations visible in a session, those of nearer sessions first. -/
def visible (t : Sessions) (id : SessionId) : Declarations :=
  (t.lineage id).foldr (fun i d => (t.get i).own.append d) {}

def hasUnit (t : Sessions) (id : SessionId) (unit : String) : Bool :=
  (t.lineage id).any fun i => (t.get i).units.contains unit

/-- The directives of a session after those of its ancestors. -/
def allDirectives (t : Sessions) (id : SessionId) : List Directive :=
  (t.lineage id).reverse.flatMap fun i => (t.get i).directives

def addDirective (t : Sessions) (id : SessionId) (d : Directive) : Sessions :=
  t.update id fun s => { s with directives := s.directives ++ [d] }

/-- Checks a signature on its own. The table of holes goes on in the checker. -/
def checkDeclared (t : Sessions) (id : SessionId) (sig : Signature) (h : Holes := {}) :
    Except CheckError Signature × Checker :=
  (Check.checkDeclared (t.visible id) sig).run
    (Checker.start { solver := { holes := h } } id (.forDecl sig.name))

/-- Checks a signature on its own and declares it. -/
def declare (t : Sessions) (id : SessionId) (sig : Signature) (h : Holes := {}) :
    Except CheckError (Signature × Sessions) := do
  let checked ← (t.checkDeclared id sig h).1
  if ((t.visible id).signature? checked.name).isSome then throw (.alreadyDeclared checked.name)
  return (checked, t.update id fun s => { s with own := s.own.addSignature checked })

/-- Declares a foreign function, whose primitive types must be declared. -/
def declareForeign (t : Sessions) (id : SessionId) (f : Foreign) (h : Holes := {}) :
    Except CheckError (Signature × Sessions) := do
  match (f.args ++ [f.ret]).find? fun p => ((t.visible id).signature? p.name).isNone with
  | some p => throw (.undeclaredPrim p.name f.name)
  | none => t.declare id f.signature h

/-- Defines how a declared constant reduces, in place of an earlier rule. -/
def defineReduction (t : Sessions) (id : SessionId) (name : String) (r : Reduction) :
    Except CheckError Sessions :=
  if ((t.visible id).signature? name).isNone then .error (.undeclaredReduction name)
  else .ok (t.update id fun s => { s with own := s.own.addReduction name r })

/-- Makes a declared function an implicit conversion. -/
def declareConversion (t : Sessions) (id : SessionId) (name : String) (h : Holes := {}) :
    Except CheckError (Conversion × Sessions) :=
  match (t.visible id).conversion name h with
  | .error fault => .error (.conversion fault)
  | .ok entry =>
    .ok (entry.2, t.update id fun s => { s with own := s.own.addConversion entry })

/-- The conversions between two types, those of nearer sessions first. -/
def conversions (t : Sessions) (id : SessionId) (source target : Term) (h : Holes := {}) :
    List Conversion :=
  (t.visible id).conversionsAt (Check.conversionKey h source target)

/-- Declares conversions one by one, up to the first that fails. -/
def declareConversions (t : Sessions) (id : SessionId) (h : Holes) :
    List String → Except CheckError Unit × Sessions
  | [] => (.ok (), t)
  | name :: names =>
    match t.declareConversion id name h with
    | .error e => (.error e, t)
    | .ok (_, t) => t.declareConversions id h names

/-- Makes a checked unit visible. -/
def commit (t : Sessions) (id : SessionId) (unit : CheckedUnit) (h : Holes := {}) :
    Except CheckError Unit × Sessions :=
  let env := t.visible id
  if t.hasUnit id unit.name then (.error (.alreadyCommitted unit.name), t)
  else
    match unit.signatures.find? fun sig => (env.signature? sig.name).isSome with
    | some sig => (.error (.alreadyDeclared sig.name), t)
    | none =>
      let t := t.update id fun s => { s with own := unit.signatures.foldl .addSignature s.own }
      match t.declareConversions id h unit.conversions with
      | (.error e, t) => (.error e, t)
      | (.ok (), t) =>
        (.ok (), t.update id fun s =>
          { s with directives := s.directives ++ unit.directives, units := unit.name :: s.units })

/-- The declarations that a checker sees. -/
def environment (t : Sessions) (c : Checker) : Declarations :=
  match c.session with
  | none => {}
  | some id => c.own.append (t.visible id)

/-- Checks a unit against a session, which stays as it is. -/
def checkUnit (t : Sessions) (id : SessionId) (c : Checker) (unit : SourceUnit) :
    Except CheckError CheckedUnit × Checker :=
  if unit.name = "" then (.error .unnamedUnit, c)
  else if t.hasUnit id unit.name then (.error (.alreadyCommitted unit.name), c)
  else (Check.checkUnit (t.visible id) unit).run (c.start id { owner := unit.name })

/-- Checks units apart from each other, each with a checker of its own. -/
def checkUnits (t : Sessions) (id : SessionId) (options : CheckOptions) (units : List SourceUnit) :
    List (Except CheckError CheckedUnit × Checker) :=
  units.map (t.checkUnit id { options })

/-- Why a session cannot be made from a configuration. -/
inductive SetupFault where
  | config (fault : ConfigFault)
  | declaration (e : CheckError)

/-- Adds a root session with the directives and foreign functions of a configuration. -/
def ofConfig (t : Sessions) (config : Config) : Except SetupFault (SessionId × Sessions) := do
  let (id, t) := t.create none
  let directives ← config.parsedDirectives.mapError .config
  let t := directives.foldl (fun t d => t.addDirective id d) t
  let functions ← config.foreignFunctions.mapError .config
  let t ← functions.foldlM (fun t f => do
    let (_, t) ← (t.declareForeign id f).mapError .declaration
    return t) t
  return (id, t)

end Sessions

end Implicits
