import SignatureLedger.Ledger

/-!
# The text form of ledgers

A header line, and then one line per entry: its key, its digest, its doc reference, its time and its
text, with tabs between them. Reading is lenient: what follows the digest may be missing, empty
lines and comments are passed over, and a line that makes no sense is skipped with a warning. Only a
header of another version stops it.
-/

namespace SignatureLedger.Ledger

/-! ## Numbers and doc references -/

/-- A decimal number of at most 19 digits. -/
def number? (s : Bytes) : Option Nat :=
  if s.isEmpty || 19 < s.length || !s.all Byte.isDigit then none
  else some s.digitsValue

/-- A pair of line numbers with a dash between them, or one number for both. -/
def lineRange? (s : Bytes) : Option (Nat × Nat) :=
  let first := s.takeWhile (· != Byte.minus)
  if first.length = s.length then (number? s).map fun n => (n, n)
  else do
    let lo ← number? first
    let hi ← number? (s.drop (first.length + 1))
    pure (lo, hi)

/-- Reads a doc reference. A colon that no range follows belongs to the path; a range has to rise
and to fit 32 bits. -/
def docRef? (s : Bytes) : Option DocRef :=
  match s.splitLast? Byte.colon with
  | none => some { path := s }
  | some (path, range) =>
    match lineRange? range with
    | none => some { path := s }
    | some (lo, hi) =>
      if lo = 0 ∨ hi < lo ∨ UInt32.size ≤ hi then none else some ⟨path, lo, hi⟩

/-- Writes a reference; its lines are left out where they say nothing. -/
def renderDocRef (d : DocRef) : Bytes :=
  if d.path.isEmpty then []
  else if d.first = 0 then d.path
  else
    d.path ++ Byte.colon :: decimal d.first
      ++ (if d.last = d.first then [] else Byte.minus :: decimal d.last)

/-! ## Lines -/

/-- Why a line is skipped. -/
inductive LineFault where
  | columns
  | key
  | digest
  | doc
  | updated
deriving DecidableEq, Repr

/-- The text of the fault, as the user reads it. -/
def LineFault.message : LineFault → String
  | columns => "expected 2 to 5 tab-separated columns"
  | key => "key must be <file_path>#<symbol>"
  | digest => "hash must be 64 lowercase hex digits"
  | doc => "invalid doc reference"
  | updated => "last_updated must be a non-negative integer"

/-- The file and the symbol of a key: what is before and after its last hash mark, neither empty. -/
def splitKey? (key : Bytes) : Option (Bytes × Bytes) :=
  match key.splitLast? Byte.hash with
  | some (file, symbol) => if file.isEmpty || symbol.isEmpty then none else some (file, symbol)
  | none => none

/-- The text of a digest: 64 lower-case hexadecimal digits. -/
def isDigest (s : Bytes) : Bool :=
  s.length == 64 && s.all fun b => Byte.isDigit b || (0x61 ≤ b && b ≤ 0x66)

/-- A doc reference in a column that may be empty. -/
def docColumn (s : Bytes) : Except LineFault DocRef :=
  if s.isEmpty then .ok {}
  else match docRef? s with
    | some d => .ok d
    | none => .error .doc

/-- A time in a column that may be empty. Times are 64-bit words. -/
def updatedColumn (s : Bytes) : Except LineFault Int64 :=
  if s.isEmpty then .ok 0
  else match number? s with
    | some n => .ok (Int64.ofNat n)
    | none => .error .updated

/-- Reads a line that is neither empty nor a comment. Of several faults the one in the first column
counts. -/
def entryOfLine (line : Bytes) : Except LineFault LedgerEntry :=
  match line.splitOn Byte.tab with
  | key :: digest :: more =>
    if 3 < more.length then .error .columns
    else match splitKey? key with
      | none => .error .key
      | some (file, symbol) =>
        if !isDigest digest then .error .digest
        else do
          let doc ← docColumn (more.getD 0 [])
          let updated ← updatedColumn (more.getD 1 [])
          pure { file, symbol, id := key, digest, text? := more[2]?, doc, updated }
  | _ => .error .columns

/-! ## Texts -/

/-- What is remarked on while a text is read. -/
inductive Warning where
  | skipped (line : Nat) (fault : LineFault)
  | overridden (line : Nat) (key : Bytes)
deriving DecidableEq, Repr

/-- The text of the warning, with the place of its line. -/
def Warning.message (source : Bytes) : Warning → Bytes
  | skipped line fault => linePlace source line ++ bytes fault.message ++ bytes ", line skipped"
  | overridden line key =>
    linePlace source line ++ bytes "duplicate key '" ++ key ++ bytes "', overriding"

/-- A header of a version that is not known. -/
structure FormatError where
  line : Nat
  header : Bytes
deriving DecidableEq, Repr

/-- The message, with the place of the header. -/
def FormatError.message (source : Bytes) (e : FormatError) : Bytes :=
  linePlace source e.line ++ bytes "unsupported ledger format '" ++ e.header ++ bytes "'"

/-- What reading a text gives, also when an error stopped it half way. -/
structure Reading where
  ledger : Ledger := ByteMap.empty
  warnings : List Warning := []
  error? : Option FormatError := none

/-- The beginning that every header has. -/
def headerStart : Bytes := bytes "# sigil ledger v"

/-- The first line of a ledger as it is written. -/
def header : Bytes := headerStart ++ bytes "1"

/-- The line without one carriage return at its end. -/
def dropReturn (line : Bytes) : Bytes :=
  if line.getLast? = some Byte.carriageReturn then line.dropLast else line

/-- Reads one line that has the given number. A header of another version ends the reading; a line
that is no entry is skipped with a warning. -/
def Reading.addLine (r : Reading) (number : Nat) (line : Bytes) : Reading :=
  if line.isEmpty then r
  else if line.head? = some Byte.hash then
    if headerStart.isPrefixOf line && line != header then
      { r with error? := some ⟨number, line⟩ }
    else r
  else match entryOfLine line with
    | .error fault => { r with warnings := r.warnings ++ [.skipped number fault] }
    | .ok e =>
      let warnings :=
        if r.ledger.contains e.id then r.warnings ++ [.overridden number e.id] else r.warnings
      { r with ledger := r.ledger.store e, warnings }

/-- Reads lines from number `number` on, up to the first error. -/
def Reading.addLines (r : Reading) (number : Nat) : List Bytes → Reading
  | [] => r
  | line :: lines =>
    let next := r.addLine number (dropReturn line)
    if next.error?.isSome then next else next.addLines (number + 1) lines

/-- Reads a ledger. -/
def parse (text : Bytes) : Reading := ({} : Reading).addLines 1 (text.splitOn Byte.lineFeed)

/-- The line of an entry. The key, the reference and the text are written as they are. -/
def renderEntry (key : Bytes) (e : LedgerEntry) : Bytes :=
  key ++ Byte.tab :: e.digest ++ Byte.tab :: renderDocRef e.doc
    ++ Byte.tab :: signedDecimal e.updated.toInt
    ++ (match e.text? with
      | some t => Byte.tab :: t
      | none => [])
    ++ [Byte.lineFeed]

/-- Writes a ledger. -/
def render (l : Ledger) : Bytes :=
  header ++ Byte.lineFeed :: l.toList.flatMap fun (key, e) => renderEntry key e

end SignatureLedger.Ledger
