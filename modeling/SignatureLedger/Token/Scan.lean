import SignatureLedger.Text.Comment
import SignatureLedger.Token

/-!
# Scanners for literals

How far a literal reaches. Each scanner looks at the bytes after the opening delimiter and says how
many of them belong to the literal. The main ones are

* `Quoted.scan`: strings,
* `Open.scan`: templates and the braced code inside them, with one stack for both,
* `Regex.scan`: regular expressions,
* `Markup.scan`: markup elements with attributes, children and braced code.
-/

namespace SignatureLedger

open Byte

namespace Token

/-- An ASCII letter, an underscore, a dollar sign, or any byte of a longer character. -/
def startsIdent (b : UInt8) : Bool := isHigh b || isAlpha b || b == underscore || b == dollar

/-- The byte can stand in a name behind its first byte. -/
def continuesIdent (b : UInt8) : Bool := startsIdent b || isDigit b

end Token

/-! ## Quoted strings -/

/-- What a scan past an opening quote has found: the bytes taken, and whether the closing quote is
the last of them. -/
structure Quoted where
  width : Nat
  closed : Bool
deriving DecidableEq, Repr

/-- Scans past an opening quote `q`; `n` bytes are taken already. A backslash takes the byte after
it along. With `oneLine` an unescaped line feed ends the scan before it. -/
def Quoted.scanFrom (oneLine : Bool) (q : UInt8) (n : Nat) (s : Bytes) : Quoted :=
  match s with
  | [] => ⟨n, false⟩
  | b :: rest =>
    if b = backslash then
      match rest with
      | [] => ⟨n + 1, false⟩
      | _ :: rest => scanFrom oneLine q (n + 2) rest
    else if b = q then ⟨n + 1, true⟩
    else if b = lineFeed ∧ oneLine then ⟨n, false⟩
    else scanFrom oneLine q (n + 1) rest
termination_by s.length

/-- The rest of a string behind its quote `q`. -/
def Quoted.scan (oneLine : Bool) (q : UInt8) (s : Bytes) : Quoted := scanFrom oneLine q 0 s

/-! ## Templates and braced code -/

/-- A construct that is still open: a template, or code between braces with the number of inner
braces that are open in it. -/
inductive Open where
  | template
  | code (inner : Nat)
deriving DecidableEq, Repr

/-- Closes every open construct of the stack, the top first; `n` bytes are taken already. The answer
is the number of bytes taken in all, and `none` if the text ends first. -/
def Open.scanFrom (n : Nat) (stack : List Open) (s : Bytes) : Option Nat :=
  match stack with
  | [] => some n
  | top :: below =>
    match s with
    | [] => none
    | b :: rest =>
      match top with
      | .template =>
        if b = backslash then scanFrom (n + 2) stack (rest.drop 1)
        else if b = backquote then scanFrom (n + 1) below rest
        else if b = dollar ∧ rest.head? = some openBrace then
          scanFrom (n + 2) (.code 0 :: stack) (rest.drop 1)
        else scanFrom (n + 1) stack rest
      | .code inner =>
        if b = singleQuote ∨ b = doubleQuote then
          let w := (Quoted.scan true b rest).width
          scanFrom (n + 1 + w) stack (rest.drop w)
        else if b = backquote then scanFrom (n + 1) (.template :: stack) rest
        else if b = slash ∧ rest.head? = some slash then
          let w := Bytes.run (· != lineFeed) rest
          scanFrom (n + 1 + w) stack (rest.drop w)
        else if b = slash ∧ rest.head? = some star then
          match commentWidth? (rest.drop 1) with
          | none => none
          | some w => scanFrom (n + 2 + w) stack (rest.drop (1 + w))
        else if b = openBrace then scanFrom (n + 1) (.code (inner + 1) :: below) rest
        else if b = closeBrace then
          match inner with
          | 0 => scanFrom (n + 1) below rest
          | inner + 1 => scanFrom (n + 1) (.code inner :: below) rest
        else scanFrom (n + 1) stack rest
termination_by s.length
decreasing_by all_goals simp only [List.length_drop, List.length_cons]; omega

/-- The bytes after the opening backquote of a template, its closing one included. -/
def templateWidth? (s : Bytes) : Option Nat := Open.scanFrom 0 [.template] s

/-- The bytes after the opening brace of a piece of code, its closing one included. -/
def bracedWidth? (s : Bytes) : Option Nat := Open.scanFrom 0 [.code 0] s

/-! ## Regular expressions -/

/-- Scans past the slash that opens a regular expression; `n` bytes are taken already and `inClass`
says that a bracketed class is open, where a slash is an ordinary character. An expression that the
line does not close takes the rest of the line. -/
def Regex.scanFrom (inClass : Bool) (n : Nat) (s : Bytes) : Quoted :=
  match s with
  | [] => ⟨n, false⟩
  | b :: rest =>
    if b = lineFeed then ⟨n, false⟩
    else if b = backslash then
      match rest with
      | [] => ⟨n + 1, false⟩
      | _ :: rest => scanFrom inClass (n + 2) rest
    else if b = openBracket then scanFrom true (n + 1) rest
    else if b = closeBracket then scanFrom false (n + 1) rest
    else if b = slash ∧ !inClass then ⟨n + 1 + Bytes.run Token.continuesIdent rest, true⟩
    else scanFrom inClass (n + 1) rest
termination_by s.length

/-- The rest of a regular expression behind its slash. -/
def Regex.scan (s : Bytes) : Quoted := scanFrom false 0 s

/-! ## Markup elements -/

/-- Where a markup scan is: between tags or inside an opening tag, with the number of elements that
are open around that place. -/
inductive Markup where
  | content (depth : Nat)
  | tag (depth : Nat)
deriving DecidableEq, Repr

/-- Scans on to the end of the outermost element; `n` bytes are taken already. -/
def Markup.scanFrom (n : Nat) (place : Markup) (s : Bytes) : Option Nat :=
  match s with
  | [] => none
  | b :: rest =>
    match place with
    | .content depth =>
      if b = less then
        if rest.head? = some slash then
          match Bytes.indexOf? [greater] (rest.drop 1), depth with
          | some w, 1 => some (n + 3 + w)
          | some w, depth + 1 => scanFrom (n + 3 + w) (.content depth) (rest.drop (2 + w))
          | _, _ => none
        else scanFrom (n + 1) (.tag depth) rest
      else if depth = 0 then none
      else if b = openBrace then
        match bracedWidth? rest with
        | none => none
        | some w => scanFrom (n + 1 + w) place (rest.drop w)
      else scanFrom (n + 1) place rest
    | .tag depth =>
      if b = slash ∧ rest.head? = some greater then
        if depth = 0 then some (n + 2) else scanFrom (n + 2) (.content depth) (rest.drop 1)
      else if b = greater then scanFrom (n + 1) (.content (depth + 1)) rest
      else if b = singleQuote ∨ b = doubleQuote then
        let q := Quoted.scan false b rest
        if q.closed then scanFrom (n + 1 + q.width) place (rest.drop q.width) else none
      else if b = openBrace then
        match bracedWidth? rest with
        | none => none
        | some w => scanFrom (n + 1 + w) place (rest.drop w)
      else scanFrom (n + 1) place rest
termination_by s.length
decreasing_by all_goals simp only [List.length_drop, List.length_cons]; omega

/-- What follows a less sign reads as type parameters: a name and then a comma or `extends`. -/
def Markup.looksGeneric (s : Bytes) : Bool :=
  let name := Bytes.run
    (fun b => Token.continuesIdent b || b == dot || b == colon || b == minus) s
  let after := (s.drop name).dropWhile isSpace
  after.head? = some comma ||
    ((bytes "extends").isPrefixOf after &&
      match (after.drop 7).head? with
      | some b => !Token.continuesIdent b
      | none => false)

/-- The width of the markup element that a text starts with. A less sign opens one only before a
name or as an empty tag, and not where it opens type parameters. -/
def Markup.width? (s : Bytes) : Option Nat :=
  match s with
  | [] => none
  | _ :: rest =>
    if rest.head? = some greater then scanFrom 0 (.content 0) s
    else match rest.head? with
      | none => none
      | some c =>
        if !Token.startsIdent c || looksGeneric rest then none else scanFrom 0 (.content 0) s

end SignatureLedger
