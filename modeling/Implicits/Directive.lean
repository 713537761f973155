import Implicits.Text.Blank
import Implicits.Text.Quoted

/-!
Directives for a code generator or linker: a kind, a backend and a payload that is passed on
untouched. Their text is `%kind target "payload"`, without a target where it is empty.
-/
namespace Implicits

inductive DirectiveKind where
  | library
  | header
  | object
  | dynamic
  /-- A kind that only code knows. -/
  | other (code : Int)
deriving DecidableEq, Inhabited

namespace DirectiveKind

def ofCode : Int → DirectiveKind
  | 0 => library
  | 1 => header
  | 2 => object
  | 3 => dynamic
  | code => other code

def text : DirectiveKind → String
  | library => "lib"
  | header => "include"
  | object => "link"
  | dynamic => "dynamic"
  | other code => "directive(" ++ toString code ++ ")"

/-- The kind that a line names. -/
def ofName? (name : Bytes) : Option DirectiveKind :=
  [library, header, object, dynamic].find? fun k => Bytes.ascii k.text == name

end DirectiveKind

structure Directive where
  kind : DirectiveKind
  target : Bytes := []
  payload : Bytes := []
deriving DecidableEq, Inhabited

inductive DirectiveFault where
  | noPercent (line : Bytes)
  | unknownKind (name : Bytes)
  | badPayload (name payload : Bytes)
deriving DecidableEq

def DirectiveFault.message : DirectiveFault → Bytes
  | noPercent line => Bytes.ascii "Directive must start with %: " ++ line
  | unknownKind name => Bytes.ascii "Unknown directive %" ++ name
  | badPayload name payload =>
    Bytes.ascii "Invalid payload for %" ++ name ++ Bytes.ascii ": " ++ payload

namespace Directive

open Bytes (char)

def text (d : Directive) : Bytes :=
  let target := if d.target.isEmpty then [] else char ' ' :: d.target
  Bytes.ascii ("%" ++ d.kind.text) ++ target ++ char ' ' :: Quoted.write d.payload

/-- Splits at the first space, which is dropped. -/
def cut (s : Bytes) : Bytes × Bytes :=
  (s.takeWhile (· != char ' '), (s.dropWhile (· != char ' ')).drop 1)

/-- Splits off a target. Dynamic directives have none, and a quote starts the payload. -/
def splitTarget (kind : DirectiveKind) (s : Bytes) : Bytes × Bytes :=
  if kind = .dynamic ∨ s.head? = some (char '"') then ([], s)
  else
    let (target, rest) := cut s
    (target, rest.trim)

def parse (line : Bytes) : Except DirectiveFault Directive :=
  match line.trim with
  | [] => .error (.noPercent [])
  | b :: s =>
    if b = char '%' then
      let (name, rest) := cut s
      match DirectiveKind.ofName? name with
      | none => .error (.unknownKind name)
      | some kind =>
        let (target, quoted) := splitTarget kind rest.trim
        match Quoted.read? quoted with
        | none => .error (.badPayload name quoted)
        | some payload => .ok ⟨kind, target, payload⟩
    else .error (.noPercent (b :: s))

end Directive

end Implicits
