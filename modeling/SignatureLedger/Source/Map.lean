import SignatureLedger.Diagnostic
import SignatureLedger.Text.Columns

/-!
# Source maps

A source map holds named texts and shows places in them: line and column, the line of a span with
the columns to underline, and the lines around it. Every offset is allowed: one behind the end
counts as the end.
-/

namespace SignatureLedger

/-- A source with its name. -/
structure SourceFile where
  name : Bytes
  content : Bytes
deriving DecidableEq, Repr

/-- A place for a reader: lines and columns count from one. -/
structure LineColumn where
  line : Nat := 1
  column : Nat := 1
deriving DecidableEq, Repr

/-- One line with a stretch of it underlined. -/
structure Snippet where
  text : Bytes := []
  line : Nat := 1
  column : Nat := 1
  /-- Columns before the underlined stretch. -/
  before : Nat := 0
  /-- Columns of the underlined stretch. -/
  width : Nat := 1
deriving DecidableEq, Repr

/-- Consecutive lines, one of them with an underlined stretch. -/
structure SnippetBlock where
  firstLine : Nat := 1
  lines : List Bytes := [[]]
  /-- The place of the underlined line among `lines`. -/
  caret : Nat := 0
  before : Nat := 0
  width : Nat := 1
  column : Nat := 1
deriving DecidableEq, Repr

namespace SourceFile

/-- The lines, without the line feeds between them. -/
def lines (f : SourceFile) : List Bytes := f.content.splitOn Byte.lineFeed

/-- The number of line feeds before an offset. -/
def lineIndex (f : SourceFile) (offset : Nat) : Nat := (f.content.take offset).count Byte.lineFeed

/-- The part of the line at an offset that is before it. -/
def lineBefore (f : SourceFile) (offset : Nat) : Bytes :=
  ((f.content.take offset).reverse.takeWhile (· != Byte.lineFeed)).reverse

/-- The line and the column of an offset, both from one on. -/
def lineColumn (f : SourceFile) (offset : Nat) : LineColumn :=
  let part := f.lineBefore offset
  ⟨f.lineIndex offset + 1, columns part.length part + 1⟩

/-- The line where a span starts; what is underlined ends with the line, and is one column at
least. -/
def snippet (f : SourceFile) (span : Span) : Snippet :=
  let lo := min span.lo f.content.length
  let hi := min (max span.hi lo) f.content.length
  let index := f.lineIndex lo
  let text := f.lines.getD index []
  let start := (f.lineBefore lo).length
  let stop := min (start + (hi - lo)) text.length
  { text
    line := index + 1
    column := (f.lineColumn lo).column
    before := columns start text
    width := max 1 (columns (stop - start) (text.drop start)) }

/-- The line where a span starts and up to `context` lines on both sides. Line numbers are 32-bit
words, also in the sum that gives the last line. -/
def block (f : SourceFile) (span : Span) (context : UInt32) : SnippetBlock :=
  let s := f.snippet span
  let caret := s.line - 1
  let lines := f.lines
  let first := caret - context.toNat
  let last := min (caret.toUInt32 + context).toNat (lines.length - 1)
  { firstLine := first + 1
    lines := (lines.take (last + 1)).drop first
    caret := caret - first
    before := s.before
    width := s.width
    column := s.column }

end SourceFile

/-- Files by their numbers. -/
abbrev SourceMap := List SourceFile

namespace SourceMap

/-- The name of a file; empty for an unknown one. -/
def name (m : SourceMap) (file : Nat) : Bytes :=
  match m[file]? with
  | some f => f.name
  | none => []

/-- The same in a file of the map; of one that is missing nothing is known. -/
def lineColumn (m : SourceMap) (file offset : Nat) : LineColumn :=
  match m[file]? with
  | some f => f.lineColumn offset
  | none => {}

/-- The line of a span in a file of the map. -/
def snippet (m : SourceMap) (file : Nat) (span : Span) : Snippet :=
  match m[file]? with
  | some f => f.snippet span
  | none => {}

/-- The lines around a span in a file of the map. -/
def block (m : SourceMap) (file : Nat) (span : Span) (context : UInt32) : SnippetBlock :=
  match m[file]? with
  | some f => f.block span context
  | none => {}

end SourceMap

end SignatureLedger
