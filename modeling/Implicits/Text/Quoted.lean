import Implicits.Text.Bytes
import Implicits.Text.Printable

/-!
Quoted byte strings. Writing puts a byte string between double quotes and escapes what is not
printable; reading accepts double-quoted literals with escapes, raw literals between back quotes and
single characters between single quotes.
-/
namespace Implicits

namespace Quoted

open Bytes (char)

/-- Control characters with an escape of one letter. -/
def letterEscapes : List (UInt8 × UInt8) :=
  [(char 'a', 7), (char 'b', 8), (char 'f', 12), (char 'n', 10), (char 'r', 13), (char 't', 9),
    (char 'v', 11)]

def hexDigit (n : Nat) : UInt8 := if n < 10 then (0x30 + n).toUInt8 else (0x57 + n).toUInt8

def hexDigit? (b : UInt8) : Option Nat :=
  if 0x30 ≤ b ∧ b ≤ 0x39 then some (b.toNat - 0x30)
  else if 0x61 ≤ b ∧ b ≤ 0x66 then some (b.toNat - 0x57)
  else if 0x41 ≤ b ∧ b ≤ 0x46 then some (b.toNat - 0x37)
  else none

def octalDigit? (b : UInt8) : Option Nat :=
  if 0x30 ≤ b ∧ b ≤ 0x37 then some (b.toNat - 0x30) else none

/-- The last `width` hexadecimal digits of a number. -/
def hex : Nat → Nat → Bytes
  | 0, _ => []
  | width + 1, n => hex width (n / 16) ++ [hexDigit (n % 16)]

def escape (letter : Char) (rest : Bytes) : Bytes := char '\\' :: char letter :: rest

/-- The text of one code point inside double quotes. -/
def writeCode (n : Nat) : Bytes :=
  if n = 0x22 ∨ n = 0x5C then char '\\' :: Bytes.encode n
  else if isPrintable n then Bytes.encode n
  else
    match letterEscapes.find? (·.2.toNat == n) with
    | some (letter, _) => [char '\\', letter]
    | none =>
      if n < 0x20 ∨ n = 0x7F then escape 'x' (hex 2 n)
      else if n < 0x10000 then escape 'u' (hex 4 n)
      else escape 'U' (hex 8 n)

def writeN : Nat → Bytes → Bytes
  | _, [] => []
  | 0, _ => []
  | n + 1, b :: s =>
    match Bytes.decode? (b :: s) with
    | some (code, rest) => writeCode code ++ writeN n rest
    | none => escape 'x' (hex 2 b.toNat) ++ writeN n s

/-- The literal of a byte string. Bytes that encode no character are escaped one by one. -/
def write (s : Bytes) : Bytes := char '"' :: (writeN s.length s ++ [char '"'])

/-- Reads a number of digits. -/
def digits? (digit? : UInt8 → Option Nat) (base : Nat) : Nat → Nat → Bytes → Option (Nat × Bytes)
  | 0, value, s => some (value, s)
  | _ + 1, _, [] => none
  | n + 1, value, b :: s => (digit? b).bind fun d => digits? digit? base n (value * base + d) s

/-- Reads a code point of `width` hexadecimal digits. -/
def codePoint? (width : Nat) (s : Bytes) : Option (Bytes × Bytes) := do
  let (code, rest) ← digits? hexDigit? 16 width 0 s
  if Bytes.isScalar code then some (Bytes.encode code, rest) else none

/-- Reads an escape behind its backslash: the bytes that it stands for and what follows. -/
def escape? (quote : UInt8) : Bytes → Option (Bytes × Bytes)
  | [] => none
  | c :: s =>
    match letterEscapes.lookup c with
    | some b => some ([b], s)
    | none =>
      if c = char '\\' ∨ c = quote then some ([c], s)
      else if c = char 'x' then (digits? hexDigit? 16 2 0 s).map
        fun (n, rest) => ([n.toUInt8], rest)
      else if c = char 'u' then codePoint? 4 s
      else if c = char 'U' then codePoint? 8 s
      else do
        let (n, rest) ← digits? octalDigit? 8 3 0 (c :: s)
        if n < 256 then some ([n.toUInt8], rest) else none

/-- The replacement character, read for a byte that encodes no character. -/
def replacement : Nat := 0xFFFD

/-- Reads one character or escape. A line break must be escaped. -/
def readChar? (quote : UInt8) : Bytes → Option (Bytes × Bytes)
  | [] => none
  | b :: s =>
    if b = char '\n' then none
    else if b = char '\\' then escape? quote s
    else
      match Bytes.decode? (b :: s) with
      | some (code, rest) => some (Bytes.encode code, rest)
      | none => some (Bytes.encode replacement, s)

/-- Reads characters up to the closing double quote, which must end the literal. -/
def readBodyN : Nat → Bytes → Option Bytes
  | 0, _ => none
  | n + 1, s =>
    match s with
    | [] => none
    | b :: rest =>
      if b = char '"' then if rest.isEmpty then some [] else none
      else do
        let (out, rest) ← readChar? (char '"') (b :: rest)
        let more ← readBodyN n rest
        some (out ++ more)

/-- Reads at most one character and the closing single quote. -/
def readSingle? (s : Bytes) : Option Bytes :=
  if s = [char '\''] then some []
  else if s.head? = some (char '\'') then none
  else do
    let (out, rest) ← readChar? (char '\'') s
    if rest = [char '\''] then some out else none

/-- Reads up to the closing back quote. Carriage returns are dropped. -/
def readRaw? (s : Bytes) : Option Bytes :=
  let mark := char '\x60'
  if s.dropWhile (· != mark) = [mark] then
    some ((s.takeWhile (· != mark)).filter (· != char '\r'))
  else none

/-- The byte string of a literal. -/
def read? : Bytes → Option Bytes
  | [] => none
  | q :: s =>
    if q = char '"' then readBodyN s.length s
    else if q = char '\'' then readSingle? s
    else if q = char '\x60' then readRaw? s
    else none

end Quoted

end Implicits
