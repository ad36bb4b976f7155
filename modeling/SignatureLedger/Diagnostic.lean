import SignatureLedger.Text.Bytes

/-!
# Diagnostics

What can be wrong with a source: a code, a severity, the bytes it is about, and the words that fill
the message. The wording itself is in `Diagnostic.Message`.
-/

namespace SignatureLedger

/-- A range of byte offsets, `hi` excluded. The offsets are counted without a bound. Where they are
kept in words of 32 bits, the words hold these numbers only for a source of fewer than `2 ^ 32`
bytes; in a longer one they would wrap, so what is said about spans is said for shorter ones. -/
structure Span where
  lo : Nat
  hi : Nat
deriving DecidableEq, Repr, Inhabited

/-- The smallest span that covers both. -/
def Span.join (a b : Span) : Span := ⟨min a.lo b.lo, max a.hi b.hi⟩

namespace Diagnostic

/-- How grave a finding is. -/
inductive Severity where
  | error
  | warning
  | fatal
deriving DecidableEq, Repr

namespace Severity

/-- The word that is shown. -/
def name : Severity → String
  | error => "error"
  | warning => "warning"
  | fatal => "fatal"

/-- All severities. -/
def all : List Severity := [error, warning, fatal]

/-- The place of the severity in `all`. -/
def index : Severity → Nat
  | error => 0
  | warning => 1
  | fatal => 2

end Severity

/-- What is found. The first five codes are of the lexer, the last one is of the extraction, and
those between are of the parser. -/
inductive Code where
  | invalidUtf8
  | unterminatedString
  | unterminatedTemplate
  | unterminatedComment
  | unterminatedRegex
  | expectedToken
  | unexpectedToken
  | unexpectedEof
  | unbalancedDelimiter
  | declNameExpected
  | tooManyErrors
  | duplicateSymbol
deriving DecidableEq, Repr

namespace Code

/-- The name that is shown with the severity. -/
def name : Code → String
  | invalidUtf8 => "InvalidUtf8"
  | unterminatedString => "UnterminatedString"
  | unterminatedTemplate => "UnterminatedTemplate"
  | unterminatedComment => "UnterminatedComment"
  | unterminatedRegex => "UnterminatedRegex"
  | expectedToken => "ExpectedToken"
  | unexpectedToken => "UnexpectedToken"
  | unexpectedEof => "UnexpectedEof"
  | unbalancedDelimiter => "UnbalancedDelimiter"
  | declNameExpected => "DeclNameExpected"
  | tooManyErrors => "TooManyErrors"
  | duplicateSymbol => "DuplicateSymbol"

/-- Every code, in the order of their numbers. -/
def all : List Code :=
  [invalidUtf8, unterminatedString, unterminatedTemplate, unterminatedComment, unterminatedRegex,
    expectedToken, unexpectedToken, unexpectedEof, unbalancedDelimiter, declNameExpected,
    tooManyErrors, duplicateSymbol]

/-- The place of the code in `all`. -/
def index : Code → Nat
  | invalidUtf8 => 0
  | unterminatedString => 1
  | unterminatedTemplate => 2
  | unterminatedComment => 3
  | unterminatedRegex => 4
  | expectedToken => 5
  | unexpectedToken => 6
  | unexpectedEof => 7
  | unbalancedDelimiter => 8
  | declNameExpected => 9
  | tooManyErrors => 10
  | duplicateSymbol => 11

/-- The index of a code is its place in the list of all codes. -/
theorem all_getElem_index (c : Code) : all[c.index]? = some c := by cases c <;> rfl

end Code

end Diagnostic

/-- One finding about a source file. -/
structure Diagnostic where
  severity : Diagnostic.Severity := .error
  code : Diagnostic.Code
  /-- The number of the file in the source map that renders the finding. -/
  file : Nat := 0
  span : Span
  args : List Bytes := []
deriving DecidableEq, Repr

namespace Diagnostic

/-- How many findings of one severity a list holds. -/
def count (s : Severity) (ds : List Diagnostic) : Nat := ds.countP (·.severity = s)

/-- There is a finding with the code. -/
def hasCode (c : Code) (ds : List Diagnostic) : Bool := ds.any (·.code = c)

/-- Errors and fatal errors together. -/
def issueCount (ds : List Diagnostic) : Nat := count .error ds + count .fatal ds

/-- There is an error, or a fatal finding. -/
def hasError (ds : List Diagnostic) : Bool := issueCount ds != 0

/-- There is a fatal finding. -/
def hasFatal (ds : List Diagnostic) : Bool := count .fatal ds != 0

end Diagnostic

end SignatureLedger
