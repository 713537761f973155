import Implicits.Text.Bytes

/-!
White space and its removal from the ends of a byte string.
-/
namespace Implicits

/-- The code points with the White_Space property. -/
def blankCodes : List Nat :=
  [0x09, 0x0A, 0x0B, 0x0C, 0x0D, 0x20, 0x85, 0xA0, 0x1680, 0x2000, 0x2001, 0x2002, 0x2003, 0x2004,
    0x2005, 0x2006, 0x2007, 0x2008, 0x2009, 0x200A, 0x2028, 0x2029, 0x202F, 0x205F, 0x3000]

namespace Bytes

/-- Removes the first of the given words that a byte string starts with. -/
def dropWord? (words : List Bytes) (s : Bytes) : Option Bytes :=
  (words.find? (·.isPrefixOf s)).map fun w => s.drop w.length

def dropWordsN (words : List Bytes) : Nat → Bytes → Bytes
  | 0, s => s
  | n + 1, s =>
    match dropWord? words s with
    | none => s
    | some rest => dropWordsN words n rest

/-- Removes words from the start for as long as there is one. -/
def dropWords (words : List Bytes) (s : Bytes) : Bytes := dropWordsN words s.length s

/-- Removes white space at both ends. -/
def trim (s : Bytes) : Bytes :=
  let blanks := blankCodes.map encode
  (dropWords (blanks.map List.reverse) (dropWords blanks s).reverse).reverse

end Bytes

end Implicits
