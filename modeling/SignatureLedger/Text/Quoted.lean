import SignatureLedger.Text.Bytes

/-!
# Text between double quotes

Reports and rendered configurations write text between double quotes. A quote or a backslash gets a
backslash before it, and a control byte is written by its name or its number, so that what is
between the quotes has neither a bare quote nor a control byte.
-/

namespace SignatureLedger

open Byte

/-- How a byte is written between quotes. -/
def escapeByte (b : UInt8) : Bytes :=
  if b = doubleQuote ∨ b = backslash then [backslash, b]
  else if b = lineFeed then bytes "\\n"
  else if b = carriageReturn then bytes "\\r"
  else if b = tab then bytes "\\t"
  else if b < space then bytes "\\u00" ++ [hexDigit (b / 16), hexDigit (b % 16)]
  else [b]

/-- How a text is written between quotes. -/
def escape (s : Bytes) : Bytes := s.flatMap escapeByte

/-- The text between quotes. -/
def quote (s : Bytes) : Bytes := doubleQuote :: escape s ++ [doubleQuote]

end SignatureLedger
