import SignatureLedger.Declaration.Module
import SignatureLedger.Signature.Extract
import SignatureLedger.Signature.Normal
import SignatureLedger.Token.Lexer

/-!
# Analysis of one source

From a path and the text of a source to its signatures in normal form. The path decides the dialect
and nothing else.
-/

namespace SignatureLedger

/-- How a source is analyzed: which variables count, and how many errors the parser tolerates. -/
structure AnalysisOptions where
  policy : VariablePolicy := .exportOnly
  /-- The number of errors after which the parse stops. -/
  maxErrors : UInt32 := 64
deriving DecidableEq, Repr

/-- The outcome of an analysis. -/
structure Analysis where
  path : Bytes
  dialect : Dialect
  /-- The exported symbols, their texts in normal form. -/
  symbols : List Symbol := []
  /-- The findings of the lexer, the parser and the extraction, in this order. -/
  found : List Diagnostic := []
deriving DecidableEq, Repr

/-- The symbol with its text in normal form. -/
def Symbol.normalized (s : Symbol) : Symbol :=
  { s with signature := { s.signature with text := normalize s.signature.text } }

namespace Analysis

/-- What the ledger and the reports see of the exported symbols. -/
def signatures (a : Analysis) : List Signature := a.symbols.map (·.signature)

end Analysis

/-- Lexes, parses and extracts a source; its path decides the dialect. The findings stand in the
order of the three phases. -/
def analyze (options : AnalysisOptions) (path source : Bytes) : Analysis :=
  let dialect := Dialect.ofPath path
  let lexed := lex dialect source
  let parsed := parseModule source (some options.maxErrors.toNat) lexed.found lexed.tokens
  let extracted := extract source options.policy parsed.decls
  { path
    dialect
    symbols := extracted.symbols.map Symbol.normalized
    found := lexed.found ++ parsed.found ++ extracted.found }

end SignatureLedger
