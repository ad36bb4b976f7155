import SignatureLedger.Config.Value

/-!
# The text form of configurations

A line is a section heading in brackets or a key, an equals sign and a value; the key is taken
within the section of the last heading. A value is a decimal integer or a quoted text: between
double quotes backslashes escape, between single quotes nothing does. A hash mark outside quotes
starts a comment. The first line that makes no sense ends the reading.
-/

namespace SignatureLedger.Config

/-! ## Lines and comments -/

/-- Where in a line a reader is: outside quotes, between them, or between double quotes and right
behind a backslash. -/
inductive QuoteState where
  | outside
  | within (quote : UInt8)
  | escaped
deriving DecidableEq, Repr

/-- The state behind one more byte. -/
def QuoteState.next : QuoteState → UInt8 → QuoteState
  | outside, b => if b = Byte.doubleQuote ∨ b = Byte.singleQuote then within b else outside
  | within q, b =>
    if q = Byte.doubleQuote ∧ b = Byte.backslash then escaped
    else if b = q then outside
    else within q
  | escaped, _ => within Byte.doubleQuote

/-- The text up to the first hash mark outside quotes. -/
def dropComment (state : QuoteState) : Bytes → Bytes
  | [] => []
  | b :: s =>
    if state = .outside ∧ b = Byte.hash then [] else b :: dropComment (state.next b) s

/-- The blanks that may stand around the parts of a line. -/
def isBlank (b : UInt8) : Bool :=
  b = Byte.space || b = Byte.tab || b = Byte.lineFeed || b = Byte.carriageReturn

/-- Drops blanks from both ends. -/
def trimBlanks (s : Bytes) : Bytes := ((s.dropWhile isBlank).reverse.dropWhile isBlank).reverse

/-- What a line says: without its comment and the blanks around it. -/
def lineContent (line : Bytes) : Bytes := trimBlanks (dropComment .outside line)

/-! ## Values -/

/-- What is wrong with a value. -/
inductive ValueFault where
  | empty
  | unknownEscape (b : UInt8)
  | openEscape
  | unsupported
deriving DecidableEq, Repr

/-- The text of the fault, as the user reads it. -/
def ValueFault.message : ValueFault → Bytes
  | empty => bytes "empty value"
  | unknownEscape b => bytes "unknown escape sequence '\\" ++ b :: bytes "'"
  | openEscape => bytes "unterminated escape in string literal"
  | unsupported => bytes "unsupported TOML value"

/-- The largest number that a value can be. -/
def largest : UInt64 := 0x7FFFFFFFFFFFFFFF

/-- Reads on in a row of digits that has come to `v`. A single underscore may stand between two
digits. A digit that would carry the number beyond `largest` is refused before it is added, so the
word never wraps. -/
def magnitudeFrom (v : UInt64) (afterDigit : Bool) : Bytes → Option UInt64
  | [] => if afterDigit then some v else none
  | b :: s =>
    if b = Byte.underscore ∧ afterDigit then magnitudeFrom v false s
    else if !Byte.isDigit b then none
    else
      let d := (b - Byte.zero).toUInt64
      if (largest - d) / 10 < v then none else magnitudeFrom (10 * v + d) true s

/-- Reads an integer with an optional sign. -/
def integer? : Bytes → Option Int64
  | [] => none
  | b :: s =>
    if b = Byte.minus then (magnitudeFrom 0 false s).map fun v => -v.toInt64
    else (magnitudeFrom 0 false (if b = Byte.plus then s else b :: s)).map UInt64.toInt64

/-- The byte that a backslash and the given byte stand for. -/
def escaped? (b : UInt8) : Option UInt8 :=
  if b = 0x6E then some Byte.lineFeed
  else if b = 0x72 then some Byte.carriageReturn
  else if b = 0x74 then some Byte.tab
  else if b = Byte.doubleQuote ∨ b = Byte.backslash then some b
  else none

/-- The text that stands between double quotes. A backslash needs one of the known signs behind
it. -/
def unescape : Bytes → Except ValueFault Bytes
  | [] => .ok []
  | b :: s =>
    if b ≠ Byte.backslash then (unescape s).map (b :: ·)
    else match s with
      | [] => .error .openEscape
      | c :: s =>
        match escaped? c with
        | some e => (unescape s).map (e :: ·)
        | none => .error (.unknownEscape c)

/-- The quote that a text starts and ends with. -/
def quoteOf? (s : Bytes) : Option UInt8 :=
  match s with
  | q :: rest =>
    if (q = Byte.doubleQuote ∨ q = Byte.singleQuote) ∧ rest.getLast? = some q then some q else none
  | [] => none

/-- Reads a value that has no blanks around it. An integer is tried first, then a text in quotes,
and there is nothing else. -/
def readValue (s : Bytes) : Except ValueFault Value :=
  if s.isEmpty then .error .empty
  else match integer? s with
    | some n => .ok (.number n)
    | none =>
      let inner := s.tail.dropLast
      match quoteOf? s with
      | none => .error .unsupported
      | some q => if q = Byte.singleQuote then .ok (.text inner) else (unescape inner).map .text

/-! ## Statements -/

/-- Keys are made of letters, digits, underscores, dashes, and of dots within. -/
def isKey (s : Bytes) : Bool :=
  !s.isEmpty && s.head? != some Byte.dot && s.getLast? != some Byte.dot
    && s.all fun b =>
      Byte.isAlphanumeric b || b == Byte.underscore || b == Byte.minus || b == Byte.dot

/-- What is wrong with a line. -/
inductive LineFault where
  | heading
  | headingName
  | noEquals
  | key
  | value (fault : ValueFault)
deriving DecidableEq, Repr

/-- The text of the fault, as the user reads it. -/
def LineFault.message : LineFault → Bytes
  | heading => bytes "invalid section header"
  | headingName => bytes "invalid section name"
  | noEquals => bytes "expected '='"
  | key => bytes "invalid key"
  | value fault => fault.message

/-- What a line states. -/
inductive Statement where
  | heading (name : Bytes)
  | entry (name : Bytes) (v : Value)
deriving DecidableEq, Repr

/-- Reads the heading that is left of a line after its opening bracket. -/
def readHeading (s : Bytes) : Except LineFault Statement :=
  if s.getLast? ≠ some Byte.closeBracket then .error .heading
  else
    let name := trimBlanks s.dropLast
    if isKey name then .ok (.heading name) else .error .headingName

/-- Reads a key and its value. Of several faults the first one in the line counts. -/
def readEntry (s : Bytes) : Except LineFault Statement :=
  let before := s.takeWhile (· != Byte.equals)
  if before.length = s.length then .error .noEquals
  else
    let name := trimBlanks before
    if !isKey name then .error .key
    else match readValue (trimBlanks (s.drop (before.length + 1))) with
      | .ok v => .ok (.entry name v)
      | .error fault => .error (.value fault)

/-- Reads what a line says; an empty line says nothing. -/
def readLine (content : Bytes) : Except LineFault (Option Statement) :=
  match content with
  | [] => .ok none
  | b :: s => (if b = Byte.openBracket then readHeading s else readEntry (b :: s)).map some

/-! ## Texts -/

/-- A key that comes again. The later value stays. -/
structure Overridden where
  line : Nat
  key : Bytes
deriving DecidableEq, Repr

/-- The warning, with the place of the later line. -/
def Overridden.message (source : Bytes) (w : Overridden) : Bytes :=
  linePlace source w.line ++ bytes "duplicate key '" ++ w.key ++ bytes "', overriding"

/-- The line that ended the reading. -/
structure FormatError where
  line : Nat
  fault : LineFault
deriving DecidableEq, Repr

/-- The message, with the place of the line. -/
def FormatError.message (source : Bytes) (e : FormatError) : Bytes :=
  linePlace source e.line ++ e.fault.message

/-- What reading a text gives, also when an error stopped it half way. -/
structure Reading where
  /-- The section that the last heading started. -/
  heading : Bytes := []
  values : Values := ByteMap.empty
  warnings : List Overridden := []
  error? : Option FormatError := none

/-- The key of a name in a section. -/
def fullKey (heading name : Bytes) : Bytes :=
  if heading.isEmpty then name else heading ++ Byte.dot :: name

/-- Reads one line that has the given number. A fault ends the reading; a key that was there gets
the new value, with a warning. -/
def Reading.addLine (r : Reading) (number : Nat) (line : Bytes) : Reading :=
  match readLine (lineContent line) with
  | .error fault => { r with error? := some ⟨number, fault⟩ }
  | .ok none => r
  | .ok (some (.heading name)) => { r with heading := name }
  | .ok (some (.entry name v)) =>
    let key := fullKey r.heading name
    let warnings := if r.values.contains key then r.warnings ++ [⟨number, key⟩] else r.warnings
    { r with values := r.values.insert key v, warnings }

/-- Reads lines from number `number` on, up to the first error. -/
def Reading.addLines (r : Reading) (number : Nat) : List Bytes → Reading
  | [] => r
  | line :: lines =>
    let next := r.addLine number line
    if next.error?.isSome then next else next.addLines (number + 1) lines

/-- Reads a configuration. -/
def parse (text : Bytes) : Reading := ({} : Reading).addLines 1 (text.splitOn Byte.lineFeed)

end SignatureLedger.Config
