import SignatureLedger.Diagnostic.Message
import SignatureLedger.Source.Map

/-!
# Diagnostics with their source lines

A finding is shown with its message, its place, and the source line with the stretch underlined;
`render` shows that line alone and `renderContext` the lines around it as well.
-/

namespace SignatureLedger.Diagnostic

/-- The two lines that both forms start with. -/
def headline (l : Language) (m : SourceMap) (d : Diagnostic) : Bytes :=
  let place := m.lineColumn d.file d.span.lo
  bytes d.severity.name ++ bytes "[" ++ bytes d.code.name ++ bytes "]: " ++ d.message l
    ++ bytes "\n --> " ++ m.name d.file ++ bytes ":" ++ decimal place.line ++ bytes ":"
    ++ decimal place.column ++ bytes "\n  |\n"

/-- Spaces and carets. -/
def underline (before width : Nat) : Bytes :=
  List.replicate before Byte.space ++ List.replicate width 0x5E

/-- The finding with its source line. -/
def render (l : Language) (m : SourceMap) (d : Diagnostic) : Bytes :=
  let s := m.snippet d.file d.span
  d.headline l m ++ decimal s.line ++ bytes " | " ++ s.text ++ bytes "\n  | "
    ++ underline s.before s.width

/-- The text set right in a field of `width` columns. -/
def padLeft (width : Nat) (s : Bytes) : Bytes := List.replicate (width - s.length) Byte.space ++ s

/-- The numbered lines of a block, with the underlining below the line that has it. -/
def blockLines (width : Nat) (b : SnippetBlock) : Bytes :=
  b.lines.zipIdx.flatMap fun (text, i) =>
    bytes "  " ++ padLeft width (decimal (b.firstLine + i)) ++ bytes " | " ++ text ++ bytes "\n"
      ++ (if i = b.caret then
          bytes "  " ++ List.replicate width Byte.space ++ bytes " | "
            ++ underline b.before b.width ++ bytes "\n"
        else [])

/-- The finding with the lines around its source line. -/
def renderContext (l : Language) (m : SourceMap) (context : UInt32) (d : Diagnostic) : Bytes :=
  let b := m.block d.file d.span context
  let width := (decimal (b.firstLine + b.lines.length - 1)).length
  d.headline l m ++ blockLines width b

end SignatureLedger.Diagnostic
