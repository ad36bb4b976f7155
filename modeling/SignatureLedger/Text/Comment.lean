import SignatureLedger.Text.Bytes

/-!
# Ends of comments
-/

namespace SignatureLedger

open Byte

/-- The bytes up to and including the first end of a block comment. -/
def commentWidth? (s : Bytes) : Option Nat := (Bytes.indexOf? [star, slash] s).map (· + 2)

/-- What is left of a text from its first line feed on. -/
def fromLineEnd (s : Bytes) : Bytes := s.dropWhile (· != lineFeed)

end SignatureLedger
