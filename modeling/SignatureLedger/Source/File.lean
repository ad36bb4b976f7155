import SignatureLedger.Text.Bytes

/-!
# Source files

How the bytes of a file become a source, and how its path is shown.
-/

namespace SignatureLedger.SourceFile

/-- The text without a byte order mark at its start. -/
def dropMark (s : Bytes) : Bytes :=
  if [0xEF, 0xBB, 0xBF].isPrefixOf s then s.drop 3 else s

/-- The source in the bytes of a file: no byte order mark and no carriage returns. -/
def decode (s : Bytes) : Bytes := (dropMark s).filter (· != Byte.carriageReturn)

/-- Drops leading `./` components, but never the whole path. -/
def dropHere (path : Bytes) : Bytes :=
  match path with
  | a :: b :: c :: rest =>
    if a = Byte.dot ∧ b = Byte.slash then dropHere (c :: rest) else path
  | _ => path

/-- The path as it is shown and recorded: forward slashes, and no `./` at the front. -/
def displayPath (path : Bytes) : Bytes :=
  dropHere (path.map fun b => if b = Byte.backslash then Byte.slash else b)

end SignatureLedger.SourceFile
