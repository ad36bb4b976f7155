import SignatureLedger.ByteMap
import SignatureLedger.Text.Quoted

/-!
# Configuration values

A configuration is a map from keys to values, and a value is a text or a number. A key has dots in
it; what is before the last one is its section. Two forms are written: one with a heading for every
section, and one JSON object.
-/

namespace SignatureLedger.Config

/-- A value of a configuration: a text or an integer. -/
inductive Value where
  | text (s : Bytes)
  | number (n : Int64)
deriving DecidableEq, Repr

/-- The values by their full keys. -/
abbrev Values := ByteMap Value

/-- A value is written the same in both forms. -/
def Value.render : Value → Bytes
  | text s => quote s
  | number n => signedDecimal n.toInt

/-! ## With headings -/

/-- The section of a key and its name within the section. -/
def splitKey (key : Bytes) : Bytes × Bytes := (key.splitLast? Byte.dot).getD ([], key)

/-- Puts a value into its section. -/
def addToSection (sections : ByteMap Values) (key : Bytes) (v : Value) : ByteMap Values :=
  let (heading, name) := splitKey key
  sections.insert heading (((sections.find? heading).getD ByteMap.empty).insert name v)

/-- The values by section and by name. -/
def bySection (values : Values) : ByteMap Values :=
  values.toList.foldl (fun sections (key, v) => addToSection sections key v) ByteMap.empty

/-- The lines of a section. The one without a name has no heading. -/
def renderSection (heading : Bytes) (values : Values) : Bytes :=
  (if heading.isEmpty then []
    else Byte.openBracket :: heading ++ [Byte.closeBracket, Byte.lineFeed])
    ++ values.toList.flatMap fun (name, v) => name ++ bytes " = " ++ v.render ++ bytes "\n"

/-- The form with headings; an empty line stands between two sections. -/
def renderSections (values : Values) : Bytes :=
  Bytes.join (bytes "\n") ((bySection values).toList.map fun (heading, vs) =>
    renderSection heading vs)

/-! ## As an object -/

/-- The form of one JSON object. -/
def renderObject (values : Values) : Bytes :=
  Byte.openBrace
    :: Bytes.join (bytes ",") (values.toList.map fun (key, v) =>
      quote key ++ bytes ":" ++ v.render)
    ++ [Byte.closeBrace]

end SignatureLedger.Config
