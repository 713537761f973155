import Implicits.Text.Base64
import Implicits.Yaml.Number
import Implicits.Yaml.Timestamp

/-!
What scalars mean. A plain scalar without a tag may mean null, a truth value, a number or a time by
its looks; a quoted one is text. A tag asks for a meaning, and the looks have to agree with it.
-/
namespace Implicits

namespace Yaml

inductive Value where
  | null
  | bool (b : Bool)
  | int (n : Int)
  | real (x : Double)
  | time
  | text (s : String)
deriving DecidableEq

/-- The words that have a meaning of their own. -/
def words : List (String × Value) :=
  [("", .null), ("~", .null), ("null", .null), ("Null", .null), ("NULL", .null),
    ("true", .bool true), ("True", .bool true), ("TRUE", .bool true),
    ("false", .bool false), ("False", .bool false), ("FALSE", .bool false),
    (".nan", .real .nan), (".NaN", .real .nan), (".NAN", .real .nan),
    (".inf", .real (.infinite false)), (".Inf", .real (.infinite false)),
    (".INF", .real (.infinite false)), ("+.inf", .real (.infinite false)),
    ("+.Inf", .real (.infinite false)), ("+.INF", .real (.infinite false)),
    ("-.inf", .real (.infinite true)), ("-.Inf", .real (.infinite true)),
    ("-.INF", .real (.infinite true))]

/-- A number by its looks. Underscores are ignored; behind a leading point they have to separate
digits. -/
def number? (cs : List Char) : Option Value :=
  match cs with
  | [] => none
  | c :: _ =>
    let digits := cs.filter (· != '_')
    if c = '.' then
      if separatesDigits false cs then (decimal? digits).map .real else none
    else if c.isDigit || c == '-' || c == '+' then
      ((integer? digits).map .int).or (((decimal? digits).map .real).or ((marked? digits).map .int))
    else none

/-- The meaning of a plain scalar by its looks. -/
def Value.ofLooks (text : String) : Value :=
  match words.lookup text with
  | some v => v
  | none => if isTimestamp text then .time else (number? text.toList).getD (.text text)

/-- A scalar as it is written. -/
structure Scalar where
  text : String
  plain : Bool
  tag : Option String
deriving DecidableEq

/-- The tags of the language's own types are shortened. -/
def shortTag (tag : String) : String :=
  let own := "tag:yaml.org,2002:"
  if tag.startsWith own then "!!" ++ (tag.drop own.length).toString else tag

/-- The meaning of a scalar, if its tag can be met. -/
def Scalar.value? (s : Scalar) : Option Value :=
  match s.tag with
  | none => some (if s.plain then .ofLooks s.text else .text s.text)
  | some "!!binary" => (Bytes.ofBase64? s.text).map fun bytes => .text bytes.repair
  | some "!!null" => asked fun | .null => true | _ => false
  | some "!!bool" => asked fun | .bool _ => true | _ => false
  | some "!!int" => asked fun | .int _ => true | _ => false
  | some "!!timestamp" => asked fun | .time => true | _ => false
  | some "!!float" =>
    match Value.ofLooks s.text with
    | .real x => some (.real x)
    | .int n => if isWord n then (Double.nearest? (n < 0) n.natAbs 0).map .real else none
    | _ => none
  | some _ => some (.text s.text)
where
  asked (p : Value → Bool) : Option Value :=
    let v := Value.ofLooks s.text
    if p v then some v else none

/-- Whether the scalar is the key under which a mapping takes over the entries of others. -/
def Scalar.isMerge (s : Scalar) : Bool :=
  s.text == "<<" && ((s.tag.isNone && s.plain) || s.tag == some "!!merge")

namespace Value

/-- The 64-bit number in a place that holds one. -/
def word? : Value → Option Int
  | int n => if n < twoPow 63 then some n else none
  | real x => x.word?
  | _ => none

/-- The truth value in a place that holds one. There the short words count too. -/
def bool? : Value → Option Bool
  | bool b => some b
  | text s =>
    if ["y", "Y", "yes", "Yes", "YES", "on", "On", "ON"].contains s then some true
    else if ["n", "N", "no", "No", "NO", "off", "Off", "OFF"].contains s then some false
    else none
  | _ => none

end Value

end Yaml

end Implicits
