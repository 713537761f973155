/-!
Numbers and their spellings: whole numbers in several bases, and decimals, which stand for the
double nearest to them.
-/
namespace Implicits

namespace Yaml

/-- A digit of a base up to sixteen. -/
def digit? (base : Nat) (c : Char) : Option Nat :=
  let value :=
    if '0' ≤ c ∧ c ≤ '9' then some (c.toNat - '0'.toNat)
    else if 'a' ≤ c ∧ c ≤ 'f' then some (c.toNat - 'a'.toNat + 10)
    else if 'A' ≤ c ∧ c ≤ 'F' then some (c.toNat - 'A'.toNat + 10)
    else none
  value.filter (· < base)

/-- The number written by at least one digit and nothing else. -/
def natural? (base : Nat) (cs : List Char) : Option Nat :=
  if cs.isEmpty then none
  else cs.foldl (fun n c => do return (← n) * base + (← digit? base c)) (some 0)

/-- Splits off a sign. -/
def sign : List Char → Bool × List Char
  | '-' :: cs => (true, cs)
  | '+' :: cs => (false, cs)
  | cs => (false, cs)

/-- A number with the given sign. -/
def signed (negative : Bool) (n : Nat) : Int := if negative then -n else n

/-- A power of two. -/
def twoPow (n : Nat) : Nat := 1 <<< n

/-- The range of signed 64-bit numbers. -/
def isWord (n : Int) : Bool := -twoPow 63 ≤ n && n < twoPow 63

/-- The number written without a sign. The base shows in the first characters; a leading zero means
octal. -/
def magnitude? : List Char → Option Nat
  | '0' :: 'x' :: d :: ds | '0' :: 'X' :: d :: ds => natural? 16 (d :: ds)
  | '0' :: 'o' :: d :: ds | '0' :: 'O' :: d :: ds => natural? 8 (d :: ds)
  | '0' :: 'b' :: d :: ds | '0' :: 'B' :: d :: ds => natural? 2 (d :: ds)
  | '0' :: d :: ds => natural? 8 (d :: ds)
  | ds => natural? 10 ds

/-- A whole number of 64 bits, unsigned if it has no sign. -/
def integer? (cs : List Char) : Option Int := do
  let (negative, body) := sign cs
  let m ← magnitude? body
  let n := signed negative m
  if isWord n || (body == cs && m < twoPow 64) then some n else none

/-- A whole number whose sign stands behind the mark of its base. -/
def marked? : List Char → Option Int
  | '0' :: 'b' :: cs => digits 2 cs
  | '0' :: 'o' :: cs => digits 8 cs
  | _ => none
where
  digits (base : Nat) (cs : List Char) : Option Int := do
    let (negative, body) := sign cs
    let m ← natural? base body
    let n := signed negative m
    if isWord n then some n else none

/-- A double: no number, an infinity, or a whole number times a power of two. -/
inductive Double where
  | nan
  | infinite (negative : Bool)
  | finite (mantissa exponent : Int)
deriving DecidableEq

namespace Double

/-- The whole number nearest to a quotient; of two, the even one. -/
def roundDiv (num den : Nat) : Nat :=
  let q := num / den
  let twice := 2 * (num % den)
  if den < twice || (twice == den && q % 2 == 1) then q + 1 else q

/-- The double nearest to a positive quotient, as a mantissa of at most 53 bits and an exponent;
nothing beyond the largest double. -/
def nearestQuotient? (num den : Nat) : Option (Nat × Int) :=
  let scaled (e : Int) : Nat × Nat := (num * twoPow (-e).toNat, den * twoPow e.toNat)
  let coarse : Int := num.log2 - den.log2 - 53
  let (n, d) := scaled coarse
  let e := max (if n / d < twoPow 53 then coarse else coarse + 1) (-1074)
  let (n, d) := scaled e
  let m := roundDiv n d
  if m * twoPow e.toNat < twoPow 1024 then some (m, e) else none

/-- The double nearest to `digits` times a power of ten. -/
def nearest? (negative : Bool) (digits : Nat) (scale : Int) : Option Double :=
  let places : Int := (Nat.toDigits 10 digits).length + scale
  if digits = 0 || places < -400 then some (finite 0 0)
  else if 400 < places then none
  else
    (nearestQuotient? (digits * Nat.pow 10 scale.toNat) (Nat.pow 10 (-scale).toNat)).map
      fun (m, e) =>
      finite (signed negative m) e

/-- The part in front of the point. -/
def whole (mantissa exponent : Int) : Int :=
  (mantissa * twoPow exponent.toNat).tdiv (twoPow (-exponent).toNat)

/-- The 64-bit number that is left when the part behind the point is dropped. What is too small
gives the smallest one; what is larger than all of them gives nothing. -/
def word? : Double → Option Int
  | nan => none
  | infinite negative => if negative then some (-twoPow 63) else none
  | finite mantissa exponent =>
    let n := whole mantissa exponent
    if isWord n then some n else if n ≤ twoPow 63 then some (-twoPow 63) else none

end Double

/-- The exponent behind a decimal, `0` if there is none. -/
def exponent? : List Char → Option Int
  | [] => some 0
  | 'e' :: cs | 'E' :: cs =>
    let (negative, body) := sign cs
    (natural? 10 body).map (signed negative)
  | _ => none

/-- A decimal: digits with at most one point among or around them, and an exponent. -/
def decimal? (cs : List Char) : Option Double := do
  let (negative, body) := sign cs
  let whole := body.takeWhile Char.isDigit
  let (fraction, rest) :=
    match body.dropWhile Char.isDigit with
    | '.' :: more => (more.takeWhile Char.isDigit, more.dropWhile Char.isDigit)
    | rest => ([], rest)
  let digits ← natural? 10 (whole ++ fraction)
  let power ← exponent? rest
  Double.nearest? negative digits (power - fraction.length)

/-- Whether each underscore stands between two digits, given whether a digit stands in front. -/
def separatesDigits : Bool → List Char → Bool
  | _, [] => true
  | afterDigit, '_' :: cs => afterDigit && cs.head?.any Char.isDigit && separatesDigits false cs
  | _, c :: cs => separatesDigits c.isDigit cs

end Yaml

end Implicits
