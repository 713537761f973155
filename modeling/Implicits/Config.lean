import Implicits.Directive
import Implicits.Foreign
import Implicits.Yaml.Document

/-!
Configuration of a checking session: how many units are checked at once, whether unresolved
arguments are deferred, directives, and foreign functions. It is read from a YAML mapping with
exactly these fields.
-/
namespace Implicits

structure ForeignDecl where
  name : String := ""
  args : List String := []
  ret : String := ""
deriving DecidableEq

structure Config where
  /-- `0` means no limit. -/
  parallelism : Int := 0
  deferUnresolved : Bool := false
  directives : List String := []
  foreign : List ForeignDecl := []
deriving DecidableEq

inductive ConfigFault where
  | undecodable
  | negativeParallelism
  | directive (fault : DirectiveFault)
  | unnamedForeign
  | unknownPrim (foreign name : String)
  | unreadable (file : String)
  | inFile (file : String) (fault : ConfigFault)
deriving DecidableEq

def ConfigFault.message : ConfigFault → String
  | undecodable => "decode config"
  | negativeParallelism => "parallelism must not be negative"
  | directive fault => fault.message.toString?.getD ""
  | unnamedForeign => "foreign declaration must be named"
  | unknownPrim foreign name => "foreign " ++ foreign ++ ": " ++ unknownPrimMessage name
  | unreadable file => "read config " ++ file
  | inFile file fault => file ++ ": " ++ fault.message

namespace Config

def parsedDirectives (c : Config) : Except ConfigFault (List Directive) :=
  c.directives.mapM fun line => (Directive.parse (Bytes.ofString line)).mapError .directive

def findPrim (foreign name : String) : Except ConfigFault Prim :=
  match Prim.ofName? name with
  | some p => .ok p
  | none => .error (.unknownPrim foreign name)

/-- A foreign function; one without a result type returns `Unit`. -/
def foreignOf (d : ForeignDecl) : Except ConfigFault Foreign := do
  if d.name = "" then throw .unnamedForeign
  let args ← d.args.mapM (findPrim d.name)
  let ret ← findPrim d.name (if d.ret = "" then Prim.unit.name else d.ret)
  return ⟨d.name, args, ret⟩

def foreignFunctions (c : Config) : Except ConfigFault (List Foreign) := c.foreign.mapM foreignOf

def validate (c : Config) : Except ConfigFault Unit := do
  if c.parallelism < 0 then throw .negativeParallelism
  let _ ← c.parsedDirectives
  let _ ← c.foreignFunctions

/-! Decoding. Null leaves a field as it is, and is left out of a list. -/

open Yaml (Node Value)

/-- The node to decode, or nothing in place of null. -/
def given? (n : Node) : Option (Option Node) :=
  match n.target with
  | .scalar s => s.value?.map fun v => if v = .null then none else some (.scalar s)
  | .cycle _ => none
  | n => some (some n)

/-- Decodes a value of a scalar. -/
def scalar? {α : Type} (read? : Yaml.Scalar → Value → Option α) : Node → Option α
  | .scalar s => s.value?.bind (read? s)
  | _ => none

/-- Decodes text. What means something else is taken as it is written. -/
def text? : Node → Option String :=
  scalar? fun s v =>
    match v with
    | .text text => some text
    | _ => some s.text

/-- Decodes a list of items. -/
def items? {α : Type} (item? : Node → Option α) : Node → Option (List α)
  | .seq items => do
    let items ← items.mapM given?
    items.reduceOption.mapM item?
  | _ => none

/-- Decoders of fields by their names. -/
abbrev Fields (α : Type) := String → Option (Node → α → Option α)

/-- What has been decoded of a mapping, and the names of the fields that are settled. -/
structure Partly (α : Type) where
  value : α
  names : List String

/-- Decodes a field. In the mapping itself a field may occur once; one that is taken over from
another mapping gives way to those that are settled. -/
def entry? {α : Type} (fields : Fields α) (own : Bool) (p : Partly α) (key value : Node) :
    Option (Partly α) := do
  if key.isMerge then return p
  match ← given? key with
  | none => return p
  | some key =>
    let name ← text? key
    if p.names.contains name then
      if own then none else return p
    else
      let set ← fields name
      match ← given? value with
      | none => return { p with names := name :: p.names }
      | some value => return ⟨← set value p.value, name :: p.names⟩

/-- Decodes a mapping field by field. -/
def fields? {α : Type} (fields : Fields α) (start : α) (n : Node) : Option α := do
  let layers ← n.layers?
  guard (layers.all fun layer => (layer.map (·.1.keyShape)).eraseDups.length = layer.length)
  match layers with
  | [] => none
  | own :: others =>
    let p ← own.foldlM (fun p (key, value) => entry? fields true p key value) ⟨start, []⟩
    let p ← others.flatten.foldlM (fun p (key, value) => entry? fields false p key value) p
    return p.value

def foreignField? : Fields ForeignDecl
  | "name" => some fun n d => (text? n).map fun name => { d with name }
  | "args" => some fun n d => (items? text? n).map fun args => { d with args }
  | "ret" => some fun n d => (text? n).map fun ret => { d with ret }
  | _ => none

def field? : Fields Config
  | "parallelism" => some fun n c =>
    (scalar? (fun _ v => v.word?) n).map fun parallelism => { c with parallelism }
  | "defer_unresolved" => some fun n c =>
    (scalar? (fun _ v => v.bool?) n).map fun deferUnresolved => { c with deferUnresolved }
  | "directives" => some fun n c => (items? text? n).map fun directives => { c with directives }
  | "foreign" => some fun n c =>
    (items? (fields? foreignField? {}) n).map fun foreign => { c with foreign }
  | _ => none

def decode? (n : Node) : Option Config := do
  match ← given? n with
  | none => return {}
  | some n => fields? field? {} n

/-- Reads and validates a configuration. -/
def load (source : String) : Except ConfigFault Config :=
  match (Node.read? source).bind decode? with
  | none => .error .undecodable
  | some c => c.validate.map fun _ => c

/-- Reads a configuration from a file, whose content is missing if it cannot be read. -/
def loadFile (file : String) (content : Option String) : Except ConfigFault Config :=
  match content with
  | none => .error (.unreadable file)
  | some source => (load source).mapError (.inFile file)

end Config

end Implicits
