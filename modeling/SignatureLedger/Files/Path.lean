import SignatureLedger.Text.Bytes

/-!
# Paths

Paths are names with slashes between them. These functions look at the text of a path only and not
at what is there.
-/

namespace SignatureLedger.Path

/-- The path does not depend on where it is read from. -/
def isAbsolute (p : Bytes) : Bool := p.head? = some Byte.slash

/-- What follows the last slash. -/
def fileName (p : Bytes) : Bytes := (p.reverse.takeWhile (· != Byte.slash)).reverse

/-- The path `q` as seen from `p`. -/
def append (p q : Bytes) : Bytes :=
  if isAbsolute q then q
  else if (fileName p).isEmpty then p ++ q
  else p ++ Byte.slash :: q

/-- The path without its last name and the slashes before it. The root is its own parent, and a
single name has none. -/
def parent (p : Bytes) : Bytes :=
  if p.all (· == Byte.slash) then p
  else
    let front := p.reverse.dropWhile (· != Byte.slash)
    let rest := (front.dropWhile (· == Byte.slash)).reverse
    if rest.isEmpty ∧ ¬front.isEmpty then [Byte.slash] else rest

/-- The name stands for a directory itself or for the one above it. -/
def isDots (name : Bytes) : Bool := name = [Byte.dot] || name = [Byte.dot, Byte.dot]

end SignatureLedger.Path
