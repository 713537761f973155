/-!
Byte strings and their UTF-8 reading. A byte string need not be valid UTF-8.
-/
namespace Implicits

abbrev Bytes := List UInt8

namespace Bytes

/-- The byte of an ASCII character. -/
def char (c : Char) : UInt8 := c.toUInt8

/-- The bytes of an ASCII text. -/
def ascii (s : String) : Bytes := s.toList.map char

/-- The UTF-8 encoding of a text. -/
def ofString (s : String) : Bytes := s.toUTF8.toList

/-- The code points that UTF-8 can encode. -/
def isScalar (n : Nat) : Bool := n < 0xD800 || (0xDFFF < n && n < 0x110000)

/-- The encoding of a code point. -/
def encode (n : Nat) : Bytes :=
  if n < 0x80 then [n.toUInt8]
  else if n < 0x800 then [(0xC0 + n / 64).toUInt8, (0x80 + n % 64).toUInt8]
  else if n < 0x10000 then
    [(0xE0 + n / 4096).toUInt8, (0x80 + n / 64 % 64).toUInt8, (0x80 + n % 64).toUInt8]
  else
    [(0xF0 + n / 262144).toUInt8, (0x80 + n / 4096 % 64).toUInt8, (0x80 + n / 64 % 64).toUInt8,
      (0x80 + n % 64).toUInt8]

/-- The six bits of a continuation byte. -/
def continuation? (b : UInt8) : Option Nat :=
  if 0x80 ≤ b ∧ b < 0xC0 then some (b.toNat - 0x80) else none

/-- Accepts a code point that needs the encoding it was read from. -/
def scalarFrom? (least code : Nat) (rest : Bytes) : Option (Nat × Bytes) :=
  if least ≤ code && isScalar code then some (code, rest) else none

/-- The first code point and what follows it; nothing when no valid encoding starts here. -/
def decode? : Bytes → Option (Nat × Bytes)
  | [] => none
  | a :: s =>
    if a < 0x80 then some (a.toNat, s)
    else if a < 0xC0 then none
    else if a < 0xE0 then
      match s with
      | b :: s => do
        let x ← continuation? b
        scalarFrom? 0x80 ((a.toNat - 0xC0) * 64 + x) s
      | _ => none
    else if a < 0xF0 then
      match s with
      | b :: c :: s => do
        let x ← continuation? b
        let y ← continuation? c
        scalarFrom? 0x800 ((a.toNat - 0xE0) * 4096 + x * 64 + y) s
      | _ => none
    else if a < 0xF8 then
      match s with
      | b :: c :: d :: s => do
        let x ← continuation? b
        let y ← continuation? c
        let z ← continuation? d
        scalarFrom? 0x10000 ((a.toNat - 0xF0) * 262144 + x * 4096 + y * 64 + z) s
      | _ => none
    else none

def decodeAllN : Nat → Bytes → Option (List Nat)
  | _, [] => some []
  | 0, _ => none
  | n + 1, s =>
    match decode? s with
    | none => none
    | some (c, rest) => (decodeAllN n rest).map (c :: ·)

/-- The code points of a valid encoding. -/
def decodeAll? (s : Bytes) : Option (List Nat) := decodeAllN s.length s

/-- The text of a valid encoding. -/
def toString? (s : Bytes) : Option String :=
  (decodeAll? s).map fun codes => String.ofList (codes.map Char.ofNat)

def repairN : Nat → Bytes → List Char
  | _, [] => []
  | 0, _ => []
  | n + 1, b :: s =>
    match decode? (b :: s) with
    | some (c, rest) => Char.ofNat c :: repairN n rest
    | none => Char.ofNat 0xFFFD :: repairN n s

/-- The text of an encoding, with a replacement character for each byte that is no part of one. -/
def repair (s : Bytes) : String := String.ofList (repairN s.length s)

end Bytes

end Implicits
