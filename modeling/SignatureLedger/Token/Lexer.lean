import SignatureLedger.Dialect
import SignatureLedger.Text.Utf8
import SignatureLedger.Token.Scan

/-!
# From bytes to tokens

A source is a sequence of gaps and tokens. `Gap.read` takes the blanks and comments before a token,
`Lexeme.read` the token itself, and `lex` alternates the two up to the end of the source. A source
that is not UTF-8 has no tokens at all, only the end marker and a fatal finding.
-/

namespace SignatureLedger

open Byte

/-! ## Gaps -/

/-- What lies before a token: its width, whether a line ended in it, and where in it a comment
starts that is never closed. -/
structure Gap where
  width : Nat := 0
  newline : Bool := false
  unclosed? : Option Nat := none
deriving DecidableEq, Repr

namespace Gap

/-- The blank that a byte starts: the number of bytes after its first one, and whether it ends a
line. Besides the ASCII blanks these are the no-break space, the byte order mark, and the line and
paragraph separators. -/
def blank? (b : UInt8) (rest : Bytes) : Option (Nat × Bool) :=
  if b = lineFeed then some (0, true)
  else if isSpace b then some (0, false)
  else if b = 0xC2 ∧ rest.take 1 = [0xA0] then some (1, false)
  else if b = 0xEF ∧ rest.take 2 = [0xBB, 0xBF] then some (2, false)
  else if b = 0xE2 ∧ (rest.take 2 = [0x80, 0xA8] ∨ rest.take 2 = [0x80, 0xA9]) then some (2, true)
  else none

/-- The bytes after the opening slash of a line comment, up to the line feed that ends it. -/
def lineCommentWidth (rest : Bytes) : Nat := Bytes.run (· != lineFeed) rest

/-- Reads on after `done`. A line feed inside a block comment counts as the end of a line. -/
def readFrom (done : Gap) (s : Bytes) : Gap :=
  match s with
  | [] => done
  | b :: rest =>
    match blank? b rest with
    | some (w, newline) =>
      readFrom { done with width := done.width + 1 + w, newline := done.newline || newline }
        (rest.drop w)
    | none =>
      if b = slash ∧ rest.head? = some slash then
        let w := lineCommentWidth rest
        readFrom { done with width := done.width + 1 + w } (rest.drop w)
      else if b = slash ∧ rest.head? = some star then
        let body := rest.drop 1
        match commentWidth? body with
        | some w =>
          readFrom { done with
            width := done.width + 2 + w
            newline := done.newline || (body.take w).contains lineFeed } (rest.drop (1 + w))
        | none =>
          { width := done.width + 2 + body.length
            newline := done.newline || body.contains lineFeed
            unclosed? := some done.width }
      else done
termination_by s.length
decreasing_by all_goals simp only [List.length_drop, List.length_cons]; omega

/-- The gap at the front of a text. -/
def read (s : Bytes) : Gap := readFrom {} s

/-- The gap at the front of a source, where a `#!` line is skipped first. -/
def readFirst (s : Bytes) : Gap :=
  if s.take 2 = [Byte.hash, bang] then
    let w := Bytes.run (· != lineFeed) s
    readFrom { width := w } (s.drop w)
  else read s

end Gap

/-! ## Lexemes -/

/-- One token at the front of a text: its kind, the number of bytes it takes after its first one,
and what is wrong with it together with the width of the complaint. -/
structure Lexeme where
  kind : TokenKind
  more : Nat
  problem? : Option (Diagnostic.Code × Nat) := none
deriving DecidableEq, Repr

/-! ### Numbers -/

namespace NumberLit

/-- A run of digits and separators. -/
def digitRun (s : Bytes) : Nat := Bytes.run (fun b => isDigit b || b == underscore) s

/-- A dot and the digits after it. -/
def fractionWidth (s : Bytes) : Nat :=
  if s.head? = some dot then 1 + digitRun s.tail else 0

/-- An exponent: its letter counts only before a digit or a sign and a digit. -/
def exponentWidth : Bytes → Nat
  | e :: rest =>
    if e = 0x65 ∨ e = 0x45 then
      match rest with
      | c :: tail =>
        if isDigit c then 1 + digitRun rest
        else if (c = plus ∨ c = minus) ∧ tail.head?.any isDigit then 2 + digitRun tail
        else 0
      | [] => 0
    else 0
  | [] => 0

/-- The letter that marks a big integer. -/
def suffixWidth (s : Bytes) : Nat := if s.head? = some 0x6E then 1 else 0

/-- The letters after a zero that name another base. -/
def isBaseLetter (b : UInt8) : Bool :=
  b == 0x78 || b == 0x58 || b == 0x6F || b == 0x4F || b == 0x62 || b == 0x42

/-- The bytes of a number after its first one, which is a digit or a dot. -/
def more (first : UInt8) (rest : Bytes) : Nat :=
  if first = zero ∧ rest.head?.any isBaseLetter then
    let digits := Bytes.run (fun b => isHexDigit b || b == underscore) rest.tail
    1 + digits + suffixWidth (rest.drop (1 + digits))
  else
    let whole := digitRun rest
    let fraction := if first = dot then 0 else fractionWidth (rest.drop whole)
    let mantissa := whole + fraction
    let exponent := exponentWidth (rest.drop mantissa)
    mantissa + exponent + suffixWidth (rest.drop (mantissa + exponent))

end NumberLit

namespace Lexeme

/-! ### The other classes -/

/-- A name or a reserved word. -/
def word (b : UInt8) (rest : Bytes) : Lexeme :=
  let n := Bytes.run Token.continuesIdent rest
  match Keyword.ofLexeme? (b :: rest.take n) with
  | some k => ⟨.keyword k, n, none⟩
  | none => ⟨.ident, n, none⟩

/-- A string behind its quote. -/
def quoted (q : UInt8) (rest : Bytes) : Lexeme :=
  let s := Quoted.scan true q rest
  ⟨.stringLit, s.width, if s.closed then none else some (.unterminatedString, 1 + s.width)⟩

/-- A template that is never closed takes the rest of the source. -/
def template (rest : Bytes) : Lexeme :=
  match templateWidth? rest with
  | some n => ⟨.templateLit, n, none⟩
  | none => ⟨.templateLit, rest.length, some (.unterminatedTemplate, 1)⟩

/-- A regular expression behind its slash. -/
def regex (rest : Bytes) : Lexeme :=
  let s := Regex.scan rest
  ⟨.regexLit, s.width, if s.closed then none else some (.unterminatedRegex, 1 + s.width)⟩

/-- A hash mark and the name after it, or the mark alone. -/
def privateName (rest : Bytes) : Lexeme :=
  if rest.head?.any Token.startsIdent then ⟨.privateName, Bytes.run Token.continuesIdent rest, none⟩
  else ⟨.unknownPunct, 0, none⟩

/-- The punctuator at the front of a text. The pair `?.` before a digit is a question mark and a
number. -/
def punct? (s : Bytes) : Option (Bytes × Punct) :=
  Punct.table.find? fun (text, p) =>
    text.isPrefixOf s && !(p = .questionDot && (s.drop 2).head?.any isDigit)

/-- A punctuator, the longest that fits; a byte that starts none is a token of its own. -/
def punct (b : UInt8) (rest : Bytes) : Lexeme :=
  if b = slash then
    if rest.head? = some equals then ⟨.punct .slashAssign, 1, none⟩ else ⟨.punct .slash, 0, none⟩
  else match punct? (b :: rest) with
    | some (text, p) => ⟨.punct p, text.length - 1, none⟩
    | none => ⟨.unknownPunct, 0, none⟩

/-- Markup, where the dialect has it and an operand may stand; otherwise a punctuator. -/
def less (dialect : Dialect) (operand : Bool) (rest : Bytes) : Lexeme :=
  match if dialect.hasMarkup && operand then Markup.width? (Byte.less :: rest) else none with
  | some n => ⟨.jsxElement, n - 1, none⟩
  | none => punct Byte.less rest

/-- The token at the front of `b :: rest`. `operand` says that an operand may stand here, so that a
slash opens a regular expression. -/
def read (dialect : Dialect) (operand : Bool) (b : UInt8) (rest : Bytes) : Lexeme :=
  if isDigit b || (b == dot && rest.head?.any isDigit) then
    ⟨.numberLit, NumberLit.more b rest, none⟩
  else if b = doubleQuote ∨ b = singleQuote then quoted b rest
  else if b = backquote then template rest
  else if b = Byte.hash then privateName rest
  else if Token.startsIdent b then word b rest
  else if b = slash ∧ operand then regex rest
  else if b = Byte.less then less dialect operand rest
  else punct b rest

end Lexeme

/-! ## Whole sources -/

/-- The tokens of a source, the end marker last, and the findings in source order. -/
structure Lexed where
  tokens : List Token
  found : List Diagnostic
deriving DecidableEq, Repr

namespace Lexed

/-- Puts a gap and a token in front. -/
def cons (gap : List Diagnostic) (t : Token) (problem : List Diagnostic) (l : Lexed) : Lexed :=
  ⟨t :: l.tokens, gap ++ problem ++ l.found⟩

end Lexed

/-- The finding about a comment that is opened at `lo` and never closed. -/
def Gap.findings (at_ : Nat) (g : Gap) : List Diagnostic :=
  match g.unclosed? with
  | some k => [{ code := .unterminatedComment, span := ⟨at_ + k, at_ + k + 2⟩ }]
  | none => []

/-- What is found in a token that starts at the offset `lo`. -/
def Lexeme.findings (lo : Nat) (l : Lexeme) : List Diagnostic :=
  match l.problem? with
  | some (code, width) => [{ code, span := ⟨lo, lo + width⟩ }]
  | none => []

/-- Behind a byte of a suffix less is left than of the whole. -/
theorem length_drop_lt_of_drop_eq_cons {s rest : Bytes} {b : UInt8} {n : Nat}
    (h : s.drop n = b :: rest) (k : Nat) : (rest.drop k).length < s.length := by
  have h := congrArg List.length h
  simp only [List.length_drop, List.length_cons] at h ⊢
  omega

/-- Reads tokens to the end of the text. The text starts at offset `pos` of a source of `size` bytes
with the gap `gap`; `operand` says that an operand may stand there. -/
def lexFrom (dialect : Dialect) (size : Nat) (operand : Bool) (pos : Nat) (gap : Gap) (s : Bytes) :
    Lexed :=
  match _h : s.drop gap.width with
  | [] => ⟨[Token.eofAt size], gap.findings pos⟩
  | b :: rest =>
    let l := Lexeme.read dialect operand b rest
    let lo := pos + gap.width
    let hi := lo + 1 + l.more
    let after := rest.drop l.more
    (lexFrom dialect size (!l.kind.endsOperand) hi (Gap.read after) after).cons
      (gap.findings pos) ⟨l.kind, ⟨lo, hi⟩, b :: rest.take l.more, gap.newline⟩ (l.findings lo)
termination_by s.length
decreasing_by exact length_drop_lt_of_drop_eq_cons _h _

/-- The two upper-case hexadecimal digits of a byte. -/
def hexByte (b : UInt8) : Bytes :=
  let digit (n : UInt8) : UInt8 := if n < 10 then 0x30 + n else 0x41 + (n - 10)
  [digit (b >>> 4), digit (b &&& 0x0F)]

/-- The offset `k` as a message shows it: as a signed word of 32 bits, which is negative from `2 ^
31` on. -/
def shownOffset (k : Nat) : Bytes := signedDecimal k.toUInt32.toInt32.toInt

/-- The finding about a source that stops being UTF-8 at offset `k`. -/
def invalidUtf8 (source : Bytes) (k : Nat) : Diagnostic :=
  { severity := .fatal
    code := .invalidUtf8
    span := ⟨k, min (k + 1) source.length⟩
    args := [shownOffset k, hexByte (source.getD k 0)] }

/-- The tokens of a source. -/
def lex (dialect : Dialect) (source : Bytes) : Lexed :=
  match Utf8.firstInvalid? source with
  | some k => ⟨[Token.eofAt source.length], [invalidUtf8 source k]⟩
  | none => lexFrom dialect source.length true 0 (Gap.readFirst source) source

end SignatureLedger
