import SignatureLedger.Text.Bytes

/-!
# Source dialects

The dialect of a file follows from the extension of its name. It decides one thing for the lexer:
whether markup may stand where an expression starts.
-/

namespace SignatureLedger

/-- The dialects of the language, by the extensions of their files. -/
inductive Dialect where
  | javaScript
  | typeScript
  | tsx
  | jsx
  | mts
  | cts
deriving DecidableEq, Repr

namespace Dialect

/-- The name that is given on requests. -/
def name : Dialect → String
  | javaScript => "javascript"
  | typeScript => "typescript"
  | tsx => "tsx"
  | jsx => "jsx"
  | mts => "mts"
  | cts => "cts"

/-- All dialects. -/
def all : List Dialect := [javaScript, typeScript, tsx, jsx, mts, cts]

/-- The dialect with this name. -/
def ofName? (s : Bytes) : Option Dialect := all.find? (fun d => bytes d.name = s)

/-- Type annotations are part of the dialect. -/
def isTyped : Dialect → Bool
  | typeScript | tsx | mts | cts => true
  | javaScript | jsx => false

/-- Markup elements are part of the dialect. -/
def hasMarkup : Dialect → Bool
  | tsx | jsx => true
  | javaScript | typeScript | mts | cts => false

/-- The dialect of an extension, with or without its dot, in any case. An extension that no dialect
owns means plain JavaScript. -/
def ofExtension (ext : Bytes) : Dialect :=
  let bare := if ext.head? = some Byte.dot then ext.tail else ext
  let e := Bytes.toLower bare
  if e = bytes "ts" then typeScript
  else if e = bytes "tsx" then tsx
  else if e = bytes "jsx" then jsx
  else if e = bytes "mts" then mts
  else if e = bytes "cts" then cts
  else javaScript

/-- The last component of a path; both slashes separate components. -/
def fileName (path : Bytes) : Bytes :=
  (path.reverse.takeWhile (fun b => b != Byte.slash && b != Byte.backslash)).reverse

/-- The last extension of a file name, with its dot. A dot at the very front starts no extension. -/
def extension? (base : Bytes) : Option Bytes :=
  let after := base.reverse.takeWhile (· != Byte.dot)
  if after.length + 1 < base.length then some (Byte.dot :: after.reverse) else none

/-- The dialect of a file; one without an extension has the default dialect. -/
def ofPath (path : Bytes) : Dialect :=
  match extension? (fileName path) with
  | some ext => ofExtension ext
  | none => javaScript

end Dialect

end SignatureLedger
