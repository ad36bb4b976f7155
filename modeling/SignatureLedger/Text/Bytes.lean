/-!
# Byte strings

Sources, ledgers, configuration files and messages are all plain byte strings. This module holds
the type, the named ASCII bytes, the ASCII classes, and the few list operations the rest of the
library is written with.
-/

namespace SignatureLedger

/-- A string of bytes; nothing is assumed about its encoding. -/
abbrev Bytes := List UInt8

/-- The UTF-8 bytes of a literal text. -/
def bytes (s : String) : Bytes := s.toByteArray.data.toList

/-! ## Named bytes -/

namespace Byte

abbrev tab : UInt8 := 0x09
abbrev lineFeed : UInt8 := 0x0A
abbrev carriageReturn : UInt8 := 0x0D
abbrev space : UInt8 := 0x20
abbrev bang : UInt8 := 0x21
abbrev doubleQuote : UInt8 := 0x22
abbrev hash : UInt8 := 0x23
abbrev dollar : UInt8 := 0x24
abbrev singleQuote : UInt8 := 0x27
abbrev openParen : UInt8 := 0x28
abbrev closeParen : UInt8 := 0x29
abbrev star : UInt8 := 0x2A
abbrev plus : UInt8 := 0x2B
abbrev comma : UInt8 := 0x2C
abbrev minus : UInt8 := 0x2D
abbrev dot : UInt8 := 0x2E
abbrev slash : UInt8 := 0x2F
abbrev zero : UInt8 := 0x30
abbrev colon : UInt8 := 0x3A
abbrev semicolon : UInt8 := 0x3B
abbrev less : UInt8 := 0x3C
abbrev equals : UInt8 := 0x3D
abbrev greater : UInt8 := 0x3E
abbrev openBracket : UInt8 := 0x5B
abbrev backslash : UInt8 := 0x5C
abbrev closeBracket : UInt8 := 0x5D
abbrev underscore : UInt8 := 0x5F
abbrev backquote : UInt8 := 0x60
abbrev openBrace : UInt8 := 0x7B
abbrev bar : UInt8 := 0x7C
abbrev closeBrace : UInt8 := 0x7D

/-- One of the six ASCII blanks: space, tab, line feed, vertical tab, form feed, return. -/
def isSpace (b : UInt8) : Bool := b == 0x20 || (0x09 ≤ b && b ≤ 0x0D)

/-- An ASCII digit. -/
def isDigit (b : UInt8) : Bool := 0x30 ≤ b && b ≤ 0x39

/-- An ASCII capital. -/
def isUpper (b : UInt8) : Bool := 0x41 ≤ b && b ≤ 0x5A

/-- An ASCII small letter. -/
def isLower (b : UInt8) : Bool := 0x61 ≤ b && b ≤ 0x7A

/-- An ASCII letter. -/
def isAlpha (b : UInt8) : Bool := isUpper b || isLower b

/-- An ASCII letter or digit. -/
def isAlphanumeric (b : UInt8) : Bool := isAlpha b || isDigit b

/-- A hexadecimal digit of either case. -/
def isHexDigit (b : UInt8) : Bool := isDigit b || (0x41 ≤ b && b ≤ 0x46) || (0x61 ≤ b && b ≤ 0x66)

/-- Lower case for an ASCII capital; any other byte is kept. -/
def toLower (b : UInt8) : UInt8 := if isUpper b then b + 0x20 else b

/-- The value of a decimal digit. -/
def digitValue (b : UInt8) : Nat := b.toNat - 0x30

/-- The lower-case hexadecimal digit of a number below 16. -/
def hexDigit (n : UInt8) : UInt8 := if n < 10 then 0x30 + n else 0x57 + n

/-- A byte that belongs to a multi-byte UTF-8 character. -/
def isHigh (b : UInt8) : Bool := 0x80 ≤ b

end Byte

namespace Bytes

/-- The number of leading bytes that satisfy `p`. -/
def run (p : UInt8 → Bool) (s : Bytes) : Nat := (s.takeWhile p).length

/-- The number of bytes before the first occurrence of `needle`. -/
def indexOf? (needle : Bytes) : Bytes → Option Nat
  | [] => if needle.isEmpty then some 0 else none
  | b :: s =>
    if needle.isPrefixOf (b :: s) then some 0 else (indexOf? needle s).map (· + 1)

/-- Drops ASCII blanks from both ends. -/
def trim (s : Bytes) : Bytes :=
  ((s.dropWhile Byte.isSpace).reverse.dropWhile Byte.isSpace).reverse

/-- The bytes at offsets `lo` up to but not including `hi`; empty when the range is not in `s`. -/
def slice (s : Bytes) (lo hi : Nat) : Bytes :=
  if lo ≤ hi ∧ hi ≤ s.length then (s.drop lo).take (hi - lo) else []

/-- Splits at every `sep`; `n` separators give `n + 1` parts. -/
def splitOn (sep : UInt8) : Bytes → List Bytes
  | [] => [[]]
  | b :: s =>
    if b = sep then [] :: splitOn sep s
    else match splitOn sep s with
      | [] => [[b]]
      | part :: parts => (b :: part) :: parts

/-- The text before and after the last `b`. -/
def splitLast? (b : UInt8) (s : Bytes) : Option (Bytes × Bytes) :=
  let after := s.reverse.takeWhile (· != b)
  if after.length = s.length then none
  else some (s.take (s.length - after.length - 1), after.reverse)

/-- Joins the parts with a separator between neighbours. -/
def join (sep : Bytes) : List Bytes → Bytes
  | [] => []
  | [part] => part
  | part :: parts => part ++ sep ++ join sep parts

/-- Every occurrence of `needle`, found left to right without overlap, becomes `value`. The text
put in is not searched again. An empty `needle` changes nothing. -/
def replaceAll (needle value : Bytes) (s : Bytes) : Bytes :=
  match s with
  | [] => []
  | b :: rest =>
    if !needle.isEmpty && needle.isPrefixOf (b :: rest) then
      value ++ replaceAll needle value (rest.drop (needle.length - 1))
    else b :: replaceAll needle value rest
termination_by s.length
decreasing_by all_goals simp; try omega

/-- Lower case for the ASCII capitals. -/
def toLower (s : Bytes) : Bytes := s.map Byte.toLower

/-- The number that a row of decimal digits stands for. -/
def digitsValue (s : Bytes) : Nat := s.foldl (fun n b => 10 * n + Byte.digitValue b) 0

end Bytes

/-! ## Numbers as text -/

/-- The decimal digits of a natural number. -/
def decimal (n : Nat) : Bytes := (Nat.toDigits 10 n).map (fun c => c.toNat.toUInt8)

/-- The decimal text of an integer, with a sign only below zero. -/
def signedDecimal (n : Int) : Bytes :=
  if n < 0 then Byte.minus :: decimal n.natAbs else decimal n.natAbs

/-- The place of a line of a text, as remarks on the line begin. -/
def linePlace (source : Bytes) (line : Nat) : Bytes :=
  source ++ Byte.colon :: decimal line ++ bytes ": "

end SignatureLedger
