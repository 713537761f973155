/-!
Points in time: a date, alone or with a time of day.
-/
namespace Implicits

namespace Yaml

/-- A number of one or two digits. -/
def shortNumber? : List Char → Option (Nat × List Char)
  | c :: d :: cs =>
    if !c.isDigit then none
    else if d.isDigit then some ((c.toNat - 48) * 10 + (d.toNat - 48), cs)
    else some (c.toNat - 48, d :: cs)
  | [c] => if c.isDigit then some (c.toNat - 48, []) else none
  | [] => none

/-- The number of days of a month. -/
def daysIn (year month : Nat) : Nat :=
  if month = 2 then
    if year % 4 = 0 ∧ (year % 100 ≠ 0 ∨ year % 400 = 0) then 29 else 28
  else if [4, 6, 9, 11].contains month then 30
  else 31

/-- What follows a given character. -/
def after? (c : Char) : List Char → Option (List Char)
  | d :: cs => if c = d then some cs else none
  | [] => none

/-- What follows a date. -/
def afterDate? (cs : List Char) : Option (List Char) := do
  let digits := cs.takeWhile Char.isDigit
  guard (digits.length = 4)
  let year := digits.foldl (fun n c => n * 10 + (c.toNat - 48)) 0
  let rest ← after? '-' (cs.drop 4)
  let (month, rest) ← shortNumber? rest
  guard (1 ≤ month ∧ month ≤ 12)
  let rest ← after? '-' rest
  let (day, rest) ← shortNumber? rest
  guard (1 ≤ day ∧ day ≤ daysIn year month)
  return rest

/-- What follows a time of day, which may have a fraction of a second. -/
def afterClock? (cs : List Char) : Option (List Char) := do
  let (hour, rest) ← shortNumber? cs
  guard (hour < 24)
  let rest ← after? ':' rest
  let (minute, rest) ← shortNumber? rest
  guard (minute < 60)
  let rest ← after? ':' rest
  let (second, rest) ← shortNumber? rest
  guard (second < 60)
  match rest with
  | point :: d :: more =>
    if (point = '.' ∨ point = ',') ∧ d.isDigit then return more.dropWhile Char.isDigit
    else return rest
  | _ => return rest

/-- A zone: a letter, or an offset in hours and minutes. -/
def isZone : List Char → Bool
  | ['Z'] => true
  | [s, h, g, ':', m, n] =>
    (s == '+' || s == '-') && [h, g, m, n].all Char.isDigit &&
      (h.toNat - 48) * 10 + (g.toNat - 48) ≤ 24 && (m.toNat - 48) * 10 + (n.toNat - 48) ≤ 60
  | _ => false

/-- A time behind its date: with a zone behind the letter T, without one behind spaces. -/
def isTimeOfDay : List Char → Bool
  | [] => true
  | c :: cs =>
    if c = 'T' ∨ c = 't' then (afterClock? cs).any isZone
    else c == ' ' && (afterClock? (cs.dropWhile (· == ' '))).any List.isEmpty

def isTimestamp (text : String) : Bool := (afterDate? text.toList).any isTimeOfDay

end Yaml

end Implicits
