import SignatureLedger.Diagnostic
import SignatureLedger.Sha256

/-!
# Signatures

The signature of a symbol is its name, its kind and the text that declares it. `Signature.serialize`
writes it down in one fixed form, and the digest of that form is what the ledger compares.
-/

namespace SignatureLedger

/-- The kinds of exported symbols. A constant is told apart from other variables. -/
inductive SymbolKind where
  | function
  | classKind
  | interfaceKind
  | typeAlias
  | enumKind
  | variableKind
  | const
deriving DecidableEq, Repr

namespace SymbolKind

/-- The word that is hashed and shown for the kind. -/
def name : SymbolKind → String
  | function => "Function"
  | classKind => "Class"
  | interfaceKind => "Interface"
  | typeAlias => "TypeAlias"
  | enumKind => "Enum"
  | variableKind => "Variable"
  | const => "Const"

/-- All kinds. -/
def all : List SymbolKind :=
  [function, classKind, interfaceKind, typeAlias, enumKind, variableKind, const]

/-- The kind with this name. -/
def ofName? (s : Bytes) : Option SymbolKind := all.find? (fun k => bytes k.name = s)

end SymbolKind

/-- What is hashed of a symbol: its name, kind and text, and whether it is exported. -/
structure Signature where
  name : Bytes
  kind : SymbolKind := .function
  text : Bytes
  exported : Bool := true
deriving DecidableEq, Repr

namespace Signature

/-- The fixed form of a signature. -/
def serialize (s : Signature) : Bytes :=
  bytes "name:" ++ s.name ++ bytes "|type:" ++ bytes s.kind.name
    ++ bytes "|exported:" ++ bytes (if s.exported then "true" else "false")
    ++ bytes "|signature:" ++ s.text

/-- The 64 hexadecimal digits by which a signature is known. -/
def digest (s : Signature) : Bytes := Sha256.hex s.serialize

end Signature

/-- A signature and the place of its declaration. -/
structure Symbol where
  signature : Signature
  span : Span
deriving DecidableEq, Repr

/-- The name of the symbol, with the namespaces around it. -/
def Symbol.name (s : Symbol) : Bytes := s.signature.name

end SignatureLedger
